-- SUMMARY: The free-page counter of the page allocator against its bitmap.
import OpenSys.Lib.Run
import OpenSys.Memory.Pmm

/-!
# The free-page counter

`pmm_free_pages_count` should be the number of clear bits below the page total.
`bitmap_test` returns an `int`, so it reports every page whose index is at least
32 modulo 64 as clear. Such a page is set at start-up and nothing ever clears it;
`pmm_reserve_range` counts it as taken each time its range covers it. Everything
below is stated with the resulting lag `d` of the counter, so that one lemma per
operation serves both the runs that keep the counter right and those that do not.
-/

namespace OpenSys

open List Bitmap

/-- The pages below the total whose bit is clear. -/
def pmmClearPages (p : Pmm) : Finset Nat := p.bitmap.clearBits p.totalPages

/-- The counter lags `d` behind the number of clear bits, modulo `2 ^ 64`. -/
structure PmmCounted (d : Nat) (p : Pmm) : Prop where
  count : u64 (p.freePages + d) = (pmmClearPages p).card
  freeLt : p.freePages < 2 ^ 64
  /-- Pages in the upper half of a word are in use, for good. -/
  high : ∀ page < p.totalPages, 32 ≤ page % 64 → p.bitmap.get page = true
  total : p.totalPages ≤ 131072

variable {d page : Nat} {p : Pmm}

theorem PmmCounted.card_lt (h : PmmCounted d p) : (pmmClearPages p).card < 2 ^ 64 :=
  lt_of_le_of_lt card_clearBits_le (lt_of_le_of_lt h.total (by decide))

/-- With no lag the counter is exact. -/
theorem PmmCounted.freePages_eq (h : PmmCounted 0 p) : p.freePages = (pmmClearPages p).card := by
  rw [← h.count, Nat.add_zero, u64_of_lt h.freeLt]

/-- With a lag that is not a multiple of `2 ^ 64` it is not. -/
theorem PmmCounted.freePages_ne (h : PmmCounted d p) (hpos : 0 < d) (hlt : d < 2 ^ 64) :
    p.freePages ≠ (pmmClearPages p).card := by
  intro heq
  have hcount := h.count
  have hfree := h.freeLt
  rw [← heq] at hcount
  unfold u64 at hcount
  omega

/-! ## Taking and returning one page -/

/-- Taking a clear page: the counter goes down with the number of clear bits. -/
theorem PmmCounted.take (h : PmmCounted d p) (hlt : page < p.totalPages)
    (hclear : p.bitmap.get page = false) :
    PmmCounted d { bitmapSet p page with freePages := dec64 p.freePages } where
  count := by
    have hcard : ((p.bitmap.set page).clearBits p.totalPages).card + 1 = (pmmClearPages p).card :=
      card_clearBits_set hlt hclear
    have hcount := h.count
    have hbound := h.card_lt
    change u64 (dec64 p.freePages + d) = ((p.bitmap.set page).clearBits p.totalPages).card
    unfold dec64 u64 at *
    omega
  freeLt := u64_lt _
  high := by
    intro i hi hhigh
    simp [bitmapSet, h.high i hi hhigh]
  total := h.total

/-- Setting a bit that is already set: only the counter moves. -/
theorem PmmCounted.retake (h : PmmCounted d p) (hset : p.bitmap.get page = true) :
    PmmCounted (d + 1) { bitmapSet p page with freePages := dec64 p.freePages } where
  count := by
    have hsame : (p.bitmap.set page).clearBits p.totalPages = pmmClearPages p :=
      clearBits_set_of_get hset
    have hcount := h.count
    change u64 (dec64 p.freePages + (d + 1)) = ((p.bitmap.set page).clearBits p.totalPages).card
    rw [hsame, ← hcount]
    unfold dec64 u64
    omega
  freeLt := u64_lt _
  high := by
    intro i hi hhigh
    simp [bitmapSet, h.high i hi hhigh]
  total := h.total

/-- Returning a page the test sees as used. Such a page is in the lower half of
    its word, so the pages of the upper halves stay as they are. -/
theorem PmmCounted.give (h : PmmCounted d p) (hlt : page < p.totalPages)
    (htest : bitmapTest p page ≠ 0) :
    PmmCounted d { bitmapClear p page with freePages := u64 (p.freePages + 1) } := by
  rw [Ne, bitmapTest_eq_zero_iff, Classical.not_imp, Bool.not_eq_false] at htest
  obtain ⟨hlow, hset⟩ := htest
  refine ⟨?_, u64_lt _, ?_, h.total⟩
  · have hcard : ((p.bitmap.clear page).clearBits p.totalPages).card = (pmmClearPages p).card + 1 :=
      card_clearBits_clear hlt hset
    have hcount := h.count
    have hbound : ((p.bitmap.clear page).clearBits p.totalPages).card ≤ p.totalPages :=
      card_clearBits_le
    have htotal := h.total
    change u64 (u64 (p.freePages + 1) + d) = ((p.bitmap.clear page).clearBits p.totalPages).card
    unfold u64 at *
    omega
  · intro i hi hhigh
    have hne : i ≠ page := by
      rintro rfl
      omega
    simp [bitmapClear, hne, h.high i hi hhigh]

/-! ## The calls -/

theorem pmmFindFree_spec (h : pmmFindFree p = some page) :
    page < p.totalPages ∧ p.bitmap.get page = false := by
  obtain ⟨i, -, hi⟩ := exists_of_findSome?_eq_some h
  split at hi
  · cases hi
  obtain ⟨j, hj, hij⟩ := exists_of_findSome?_eq_some hi
  split at hij
  · rename_i hzero
    split at hij
    · cases hij
    cases hij
    have hj : j < 64 := mem_range.mp hj
    have hdiv : (i * 64 + j) / 64 = i := by omega
    have hmod : (i * 64 + j) % 64 = j := by omega
    refine ⟨by omega, ?_⟩
    rw [← and_mask_eq_zero_iff, mask, hdiv, hmod]
    exact hzero
  · cases hij

theorem PmmCounted.allocPage (h : PmmCounted d p) : PmmCounted d (pmmAllocPage p).2 := by
  unfold pmmAllocPage
  split
  · exact h
  cases hfind : pmmFindFree p with
  | none => exact h
  | some page =>
    obtain ⟨hlt, hclear⟩ := pmmFindFree_spec hfind
    exact h.take hlt hclear

protected theorem PmmCounted.freePage (h : PmmCounted d p) (addr : Nat) :
    PmmCounted d (pmmFreePage p addr) := by
  unfold pmmFreePage
  dsimp only
  split
  · exact h
  split
  · exact h
  · rename_i hlt htest
    exact h.give (Nat.lt_of_not_le hlt) htest

theorem mem_rangePages {first last : Nat} :
    page ∈ rangePages p first last ↔ first ≤ page ∧ page < last ∧ page < p.totalPages := by
  simp only [rangePages, mem_range'_1]
  omega

/-- The number of pages of `pages` in the upper half of their word. -/
def highPages (pages : List Nat) : Nat := pages.countP fun page => decide (32 ≤ page % 64)

/-- One round of `pmm_reserve_range` adds to the lag exactly on a page in the
    upper half of its word. -/
protected theorem PmmCounted.reservePage (h : PmmCounted d p) (hlt : page < p.totalPages) :
    PmmCounted (d + highPages [page]) (reservePage p page) := by
  by_cases hhigh : 32 ≤ page % 64
  · have htest : bitmapTest p page = 0 := bitmapTest_eq_zero_iff.mpr fun hlow => by omega
    simp only [reservePage, htest, if_true, highPages, countP_cons, countP_nil,
      hhigh, decide_true, Nat.zero_add]
    exact h.retake (h.high page hlt hhigh)
  · simp only [highPages, countP_cons, countP_nil, hhigh, decide_false,
      Bool.false_eq_true, if_false, Nat.add_zero]
    unfold reservePage
    split
    · rename_i htest
      exact h.take hlt (bitmapTest_eq_zero_iff.mp htest (Nat.lt_of_not_le hhigh))
    · exact h

@[simp] theorem reservePage_totalPages (p : Pmm) (page : Nat) :
    (reservePage p page).totalPages = p.totalPages := by
  unfold reservePage
  split <;> rfl

@[simp] theorem freePage_totalPages (p : Pmm) (page : Nat) :
    (freePage p page).totalPages = p.totalPages := by
  unfold freePage
  split
  · rfl
  · split <;> rfl

theorem PmmCounted.reservePages {pages : List Nat} (h : PmmCounted d p)
    (hlt : ∀ page ∈ pages, page < p.totalPages) :
    PmmCounted (d + highPages pages) (pages.foldl reservePage p) := by
  induction pages generalizing d p with
  | nil => exact h
  | cons page pages ih =>
    have hhead := h.reservePage (hlt page (by simp))
    have hrest := ih hhead fun page' hmem => by simpa using hlt page' (by simp [hmem])
    have hsum : d + highPages (page :: pages) = d + highPages [page] + highPages pages := by
      simp only [highPages, countP_cons, countP_nil]
      omega
    rw [hsum]
    exact hrest

theorem PmmCounted.freePages {pages : List Nat} (h : PmmCounted d p)
    (hlt : ∀ page ∈ pages, page < p.totalPages) :
    PmmCounted d (pages.foldl freePage p) := by
  induction pages generalizing p with
  | nil => exact h
  | cons page pages ih =>
    have hhead : PmmCounted d (freePage p page) := by
      unfold freePage
      split
      · exact h
      split
      · exact h
      · rename_i htest
        exact h.give (hlt page (by simp)) htest
    exact ih hhead fun page' hmem => by simpa using hlt page' (by simp [hmem])

theorem PmmCounted.freeRange (h : PmmCounted d p) (start length : Nat) :
    PmmCounted d (pmmFreeRange p start length) :=
  h.freePages fun _ hmem => (mem_rangePages.mp hmem).2.2

/-- The pages a call of `pmm_reserve_range` visits. -/
def reservePages (p : Pmm) (start length : Nat) : List Nat :=
  rangePages p (reserveFirst start) (reserveLast start length)

theorem PmmCounted.reserveRange (h : PmmCounted d p) (start length : Nat) :
    PmmCounted (d + highPages (OpenSys.reservePages p start length))
      (pmmReserveRange p start length) :=
  h.reservePages fun _ hmem => (mem_rangePages.mp hmem).2.2

theorem highPages_reservePages_le {start length : Nat} :
    highPages (reservePages p start length) ≤ p.totalPages := by
  calc highPages (reservePages p start length) ≤ (reservePages p start length).length :=
        countP_le_length
    _ ≤ p.totalPages := by simp only [reservePages, rangePages, length_range']; omega

/-! ## Start-up -/

theorem totalMem_le (mbi : MbootInfo) : totalMem mbi ≤ 0x20000000 := by
  unfold totalMem
  extract_lets fromMem total
  split
  · decide
  · omega

theorem pmmReset_counted (kernelEnd : Nat) (words : Bitmap 64) (mbi : MbootInfo) :
    PmmCounted 0 (pmmReset kernelEnd words mbi) := by
  have htotal : totalMem mbi / pageSize ≤ 131072 := by
    have := totalMem_le mbi
    unfold pageSize
    omega
  -- Every page below the total lies in a word that start-up fills with ones.
  have hset : ∀ page < totalMem mbi / pageSize,
      (pmmReset kernelEnd words mbi).bitmap.get page = true := by
    intro page hpage
    have hword : page / 64 < min ((totalMem mbi / pageSize + 63) / 64) 1048576 := by omega
    have hmod : page % 64 < 64 := Nat.mod_lt _ (by norm_num)
    simp only [Bitmap.get, pmmReset, hword, if_true, BitVec.getLsbD_allOnes, hmod, decide_true]
  refine ⟨?_, by norm_num [pmmReset], fun page hpage _ => hset page hpage, htotal⟩
  have hempty : pmmClearPages (pmmReset kernelEnd words mbi) = ∅ := by
    rw [Finset.eq_empty_iff_forall_notMem]
    intro page hmem
    obtain ⟨hlt, hclear⟩ := Bitmap.mem_clearBits.mp hmem
    rw [hset page hlt] at hclear
    cases hclear
  rw [hempty]
  rfl

theorem pmmInit_counted (kernelEnd : Nat) (words : Bitmap 64) (mbi : MbootInfo) :
    PmmCounted 0 (pmmInit kernelEnd words mbi) := by
  have hfold : ∀ (entries : List MbootMmapEntry) (p : Pmm), PmmCounted 0 p →
      PmmCounted 0 (entries.foldl freeEntry p) := by
    intro entries
    induction entries with
    | nil => exact fun p h => h
    | cons e entries ih =>
      intro p h
      apply ih
      unfold freeEntry
      split
      · exact h.freeRange _ _
      · exact h
  unfold pmmInit
  dsimp only
  split
  · exact hfold _ _ (pmmReset_counted kernelEnd words mbi)
  · exact pmmReset_counted kernelEnd words mbi

/-! ## Runs -/

/-- A call on the page allocator. -/
inductive PmmOp where
  | allocPage
  | freePage (addr : Nat)
  | reserveRange (start length : Nat)
  | freeRange (start length : Nat)

def pmmStep (p : Pmm) : PmmOp → Option Pmm
  | .allocPage => some (pmmAllocPage p).2
  | .freePage addr => some (pmmFreePage p addr)
  | .reserveRange start length => some (pmmReserveRange p start length)
  | .freeRange start length => some (pmmFreeRange p start length)

/-- The counter is the number of clear bits below the page total. -/
def PmmCountExact (p : Pmm) : Prop := p.freePages = (p.bitmap.clearBits p.totalPages).card

/-- A call that does not run into the truncated test: a reserved range covers no
    page in the upper half of its bitmap word. -/
def pmmCallOk (p : Pmm) : PmmOp → Prop
  | .reserveRange start length => ∀ page, reserveFirst start ≤ page →
      page < reserveLast start length → page < p.totalPages → page % 64 < 32
  | _ => True

theorem highPages_eq_zero_iff {start length : Nat} :
    highPages (reservePages p start length) = 0 ↔ pmmCallOk p (.reserveRange start length) := by
  simp only [highPages, countP_eq_zero, decide_eq_true_eq, not_le, reservePages,
    mem_rangePages, pmmCallOk]
  constructor
  · intro h page h₁ h₂ h₃
    exact h page ⟨h₁, h₂, h₃⟩
  · rintro h page ⟨h₁, h₂, h₃⟩
    exact h page h₁ h₂ h₃

theorem pmmStep_counted {op : PmmOp} (h : PmmCounted 0 p) (hok : pmmCallOk p op) :
    ∃ p', pmmStep p op = some p' ∧ PmmCounted 0 p' := by
  cases op with
  | allocPage => exact ⟨_, rfl, h.allocPage⟩
  | freePage addr => exact ⟨_, rfl, h.freePage addr⟩
  | freeRange start length => exact ⟨_, rfl, h.freeRange start length⟩
  | reserveRange start length =>
    have hreserve := h.reserveRange start length
    rw [highPages_eq_zero_iff.mpr hok] at hreserve
    exact ⟨_, rfl, hreserve⟩

theorem pmmStep_not_exact {p' : Pmm} {op : PmmOp} (h : PmmCounted 0 p) (hbad : ¬ pmmCallOk p op)
    (hstep : pmmStep p op = some p') : ¬ PmmCountExact p' := by
  cases op with
  | reserveRange start length =>
    cases hstep
    have hpos : highPages (reservePages p start length) ≠ 0 :=
      fun hzero => hbad (highPages_eq_zero_iff.mp hzero)
    have hle : highPages (reservePages p start length) ≤ p.totalPages := highPages_reservePages_le
    have htotal := h.total
    have hreserve := h.reserveRange start length
    rw [Nat.zero_add] at hreserve
    exact hreserve.freePages_ne (Nat.pos_of_ne_zero hpos) (by omega)
  | _ => exact absurd trivial hbad

/-- For every memory map and every sequence of calls, the counter is exact after
    start-up and after each call if and only if no reserved range covers a page
    in the upper half of its bitmap word. -/
theorem pmm_count_exact_iff (kernelEnd : Nat) (words : Bitmap 64) (mbi : MbootInfo)
    (ops : List PmmOp) :
    Run.Always pmmStep PmmCountExact (pmmInit kernelEnd words mbi) ops ↔
      Run.AllOk pmmStep pmmCallOk (pmmInit kernelEnd words mbi) ops :=
  Run.always_iff_allOk (fun _ h => h.freePages_eq) (fun _ _ => pmmStep_counted)
    (fun _ _ h hbad _ => pmmStep_not_exact h hbad) (pmmInit_counted kernelEnd words mbi)

/-- Reserving page 32, which is in use, takes it off the counter again. -/
theorem pmm_count_not_exact : ¬ Run.Always pmmStep PmmCountExact
      (pmmInit 0x200000 (fun _ => 0) ⟨mbootFlagMem, 0x1FC00, []⟩)
      [.reserveRange 0x20000 0x1000] := by
  rintro ⟨-, p', hstep, hexact⟩
  have hcounted : PmmCounted 0 (pmmInit 0x200000 (fun _ => 0) ⟨mbootFlagMem, 0x1FC00, []⟩) :=
    pmmInit_counted _ _ _
  refine pmmStep_not_exact hcounted ?_ hstep hexact
  intro hok
  have := hok 32 (by decide) (by decide) (by decide)
  omega

end OpenSys
