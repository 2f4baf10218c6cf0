-- SUMMARY: What pages the page allocator hands out and takes back.
import OpenSys.Memory.PmmSpec

/-!
# Pages handed out and taken back

`pmm_init` puts the bitmap and the reference counts behind the kernel image and then frees
the available ranges. Pages of the three areas stay marked, so `pmm_alloc_page` never returns
one of them. `pmm_free_range` misses the pages in the upper half of a bitmap word, because
`bitmap_test` does not see their bits; a page from `pmm_alloc_page` is never one of those.
-/

namespace OpenSys

open Finset Nat

/-! ## The areas behind the kernel -/

/-- The kernel image leaves room for the bitmap and the reference counts in the address
space. -/
def KernelFits (kernelEnd : Nat) : Prop := kernelEnd + 2 ^ 20 ≤ 2 ^ 64

/-- The page has an address in the area from `lo` to `hi`. -/
def touches (page lo hi : Nat) : Prop := page * pageSize < hi ∧ lo < (page + 1) * pageSize

/-- A page of the kernel image or below it, of the bitmap or of the reference counts. -/
def Pmm.Protected (kernelEnd : Nat) (p : Pmm) (page : Nat) : Prop :=
  page * pageSize < kernelEnd ∨ touches page p.bitmapStart (p.bitmapStart + p.bitmapSize * 8) ∨
    touches page p.refStart p.refEnd

/-- Where the allocator keeps its tables. -/
def Pmm.layout (p : Pmm) : Nat × Nat × Nat × Nat × Nat :=
  (p.bitmapStart, p.bitmapSize, p.totalPages, p.refStart, p.refEnd)

/-- The tables lie behind the kernel image, in whole pages and without a gap. -/
structure PmmPlaced (kernelEnd : Nat) (p : Pmm) : Prop where
  total : p.totalPages ≤ 131072
  size : p.bitmapSize = (p.totalPages + 63) / 64
  startPage : p.bitmapStart % pageSize = 0
  afterKernel : kernelEnd ≤ p.bitmapStart
  nextPage : p.bitmapStart < kernelEnd + pageSize
  refPage : p.refStart % pageSize = 0
  afterBitmap : p.bitmapStart + p.bitmapSize * 8 ≤ p.refStart
  nextRef : p.refStart < p.bitmapStart + p.bitmapSize * 8 + pageSize
  refRoom : p.refStart + p.totalPages * 4 ≤ p.refEnd
  fits : p.refEnd + pageSize < 2 ^ 64

variable {kernelEnd page i : Nat} {p p' : Pmm} {op : PmmOp}

theorem PmmPlaced.congr (h : PmmPlaced kernelEnd p) (hsame : p'.layout = p.layout) :
    PmmPlaced kernelEnd p' := by
  simp only [Pmm.layout, Prod.mk.injEq] at hsame
  obtain ⟨h₁, h₂, h₃, h₄, h₅⟩ := hsame
  refine ⟨?_, ?_, ?_, ?_, ?_, ?_, ?_, ?_, ?_, ?_⟩ <;> simp only [h₁, h₂, h₃, h₄, h₅]
  exacts [h.total, h.size, h.startPage, h.afterKernel, h.nextPage, h.refPage, h.afterBitmap,
    h.nextRef, h.refRoom, h.fits]

theorem alignUp_pageSize {x : Nat} (h : x + pageSize ≤ 2 ^ 64) : x ≤ alignUp x pageSize ∧
    alignUp x pageSize < x + pageSize ∧ alignUp x pageSize % pageSize = 0 := by
  unfold alignUp u64 pageSize at *
  omega

theorem pmmReset_placed (hfits : KernelFits kernelEnd) (words : Bitmap 64) (mbi : MbootInfo) :
    PmmPlaced kernelEnd (pmmReset kernelEnd words mbi) := by
  have htotal : totalMem mbi / pageSize ≤ 131072 := by
    have := totalMem_le mbi
    unfold pageSize
    omega
  unfold KernelFits at hfits
  obtain ⟨hk₁, hk₂, hk₃⟩ := @alignUp_pageSize kernelEnd (by unfold pageSize; omega)
  obtain ⟨hb₁, hb₂, hb₃⟩ := @alignUp_pageSize ((totalMem mbi / pageSize + 63) / 64 * 8)
    (by unfold pageSize at *; omega)
  obtain ⟨hr₁, hr₂, -⟩ := @alignUp_pageSize (totalMem mbi / pageSize * 4)
    (by unfold pageSize at *; omega)
  have hpage : pageSize = 4096 := rfl
  have hrefStart : u64 (alignUp kernelEnd pageSize +
      alignUp ((totalMem mbi / pageSize + 63) / 64 * 8) pageSize) = alignUp kernelEnd pageSize +
        alignUp ((totalMem mbi / pageSize + 63) / 64 * 8) pageSize := u64_of_lt (by omega)
  have hrefEnd : u64 (alignUp kernelEnd pageSize +
      alignUp ((totalMem mbi / pageSize + 63) / 64 * 8) pageSize +
        alignUp (totalMem mbi / pageSize * 4) pageSize) = alignUp kernelEnd pageSize +
      alignUp ((totalMem mbi / pageSize + 63) / 64 * 8) pageSize +
        alignUp (totalMem mbi / pageSize * 4) pageSize := u64_of_lt (by omega)
  have hrefPage : (alignUp kernelEnd pageSize +
      alignUp ((totalMem mbi / pageSize + 63) / 64 * 8) pageSize) % pageSize = 0 := by
    rw [add_mod, hk₃, hb₃]
    rfl
  refine ⟨htotal, rfl, hk₃, hk₁, hk₂, ?_, ?_, ?_, ?_, ?_⟩ <;>
    simp only [pmmReset, bitmapStartOf, hrefStart, hrefEnd] <;> omega

/-! ## Bits after a call -/

@[simp]
theorem freePage_layout (p : Pmm) (page : Nat) : (freePage p page).layout = p.layout := by
  unfold freePage
  split
  · rfl
  · split <;> rfl

@[simp]
theorem reservePage_layout (p : Pmm) (page : Nat) : (reservePage p page).layout = p.layout := by
  unfold reservePage
  split <;> rfl

theorem foldl_layout {f : Pmm → Nat → Pmm} (hf : ∀ p page, (f p page).layout = p.layout)
    (pages : List Nat) (p : Pmm) : (pages.foldl f p).layout = p.layout := by
  induction pages generalizing p with
  | nil => rfl
  | cons page pages ih => exact (ih _).trans (hf p page)

theorem pmmFreeRange_layout (p : Pmm) (start length : Nat) :
    (pmmFreeRange p start length).layout = p.layout := foldl_layout freePage_layout _ p

theorem pmmReserveRange_layout (p : Pmm) (start length : Nat) :
    (pmmReserveRange p start length).layout = p.layout := foldl_layout reservePage_layout _ p

theorem pmmFreePage_layout (p : Pmm) (addr : Nat) : (pmmFreePage p addr).layout = p.layout := by
  rcases pmmFreePage_cases p addr with h | ⟨-, h⟩ <;> rw [h]
  rfl

theorem pmmAllocPage_layout (p : Pmm) : (pmmAllocPage p).2.layout = p.layout := by
  unfold pmmAllocPage
  split
  · rfl
  · cases pmmFindFree p <;> rfl

theorem freeSkips_congr (h : p'.layout = p.layout) (page : Nat) :
    freeSkips p' page = freeSkips p page := by
  simp only [Pmm.layout, Prod.mk.injEq] at h
  obtain ⟨h₁, h₂, -, h₄, h₅⟩ := h
  simp only [freeSkips, h₁, h₂, h₄, h₅]

theorem freePage_get (p : Pmm) (page i : Nat) : (freePage p page).bitmap.get i = false ↔
    p.bitmap.get i = false ∨ (i = page ∧ freeSkips p i = false ∧ i % 64 < 32) := by
  unfold freePage
  by_cases hi : i = page
  · subst hi
    cases hskip : freeSkips p i with
    | true => simp
    | false =>
      rw [if_neg (by simp)]
      by_cases htest : bitmapTest p i = 0
      · rw [if_pos htest]
        have := bitmapTest_eq_zero_iff.mp htest
        exact ⟨.inl, fun h => h.elim id fun h => this h.2.2⟩
      · rw [if_neg htest]
        rw [bitmapTest_eq_zero_iff, Classical.not_imp] at htest
        simp [bitmapClear, htest.1]
  · split
    · simp [hi]
    · split
      · simp [hi]
      · simp [bitmapClear, hi]

theorem foldl_freePage_get (pages : List Nat) (p : Pmm) (i : Nat) :
    (pages.foldl freePage p).bitmap.get i = false ↔
      p.bitmap.get i = false ∨ (i ∈ pages ∧ freeSkips p i = false ∧ i % 64 < 32) := by
  induction pages generalizing p with
  | nil => simp
  | cons page pages ih =>
    rw [List.foldl_cons, ih, freePage_get, freeSkips_congr (freePage_layout p page), List.mem_cons]
    tauto

/-- After `pmm_free_range` a page is free when it was, or when the loop visits it, skips none
of the tables there, and sees its bit. -/
theorem pmmFreeRange_get (p : Pmm) (start length i : Nat) :
    (pmmFreeRange p start length).bitmap.get i = false ↔ p.bitmap.get i = false ∨
      ((freeFirst p start ≤ i ∧ i < freeLast start length ∧ i < p.totalPages) ∧
        freeSkips p i = false ∧ i % 64 < 32) := by
  rw [pmmFreeRange, foldl_freePage_get, mem_rangePages]

theorem reservePage_get (h : (reservePage p page).bitmap.get i = false) :
    p.bitmap.get i = false := by
  unfold reservePage at h
  split at h
  · by_cases hi : i = page
    · simp [bitmapSet, hi] at h
    · simpa [bitmapSet, hi] using h
  · exact h

theorem pmmReserveRange_get {start length : Nat}
    (h : (pmmReserveRange p start length).bitmap.get i = false) : p.bitmap.get i = false := by
  unfold pmmReserveRange at h
  generalize rangePages p (reserveFirst start) (reserveLast start length) = pages at h
  induction pages generalizing p with
  | nil => exact h
  | cons page pages ih => exact reservePage_get (ih h)

theorem pmmFreePage_get {addr : Nat} (h : (pmmFreePage p addr).bitmap.get i = false) :
    p.bitmap.get i = false ∨ i = addr / pageSize := by
  rcases pmmFreePage_cases p addr with hsame | ⟨-, hclear⟩
  · exact .inl (hsame ▸ h)
  rw [hclear] at h
  by_cases hi : i = addr / pageSize
  · exact .inr hi
  · exact .inl (by simpa [bitmapClear, hi] using h)

/-- `pmm_alloc_page` returns a page whose bit was clear and sets that bit, or returns 0 and
changes nothing. -/
theorem pmmAllocPage_cases (p : Pmm) : pmmAllocPage p = (0, p) ∨
    ∃ page < p.totalPages, p.bitmap.get page = false ∧ pmmAllocPage p =
      (page * pageSize, { bitmapSet p page with freePages := dec64 p.freePages }) := by
  unfold pmmAllocPage
  split
  · exact .inl rfl
  cases hfind : pmmFindFree p with
  | none => exact .inl rfl
  | some page =>
    obtain ⟨hlt, hclear⟩ := pmmFindFree_spec hfind
    exact .inr ⟨page, hlt, hclear, rfl⟩

/-! ## Pages that stay marked -/

section Placed

variable {kernelEnd page : Nat} {p : Pmm}

/-- For a page behind the kernel image the tests in the loop of `pmm_free_range` ask whether
the page lies in one of the tables. -/
theorem PmmPlaced.freeSkips_iff (h : PmmPlaced kernelEnd p) (hlt : page < p.totalPages)
    (habove : kernelEnd ≤ page * pageSize) :
    freeSkips p page = true ↔ p.Protected kernelEnd page := by
  obtain ⟨h₁, h₂, h₃, h₄, h₅, h₆, h₇, h₈, h₉, h₁₀⟩ := h
  unfold pageSize at *
  have haddr : u64 (page * 4096) = page * 4096 := u64_of_lt (by omega)
  have hend : u64 (p.bitmapStart + p.bitmapSize * 8) = p.bitmapStart + p.bitmapSize * 8 :=
    u64_of_lt (by omega)
  have hpast : u64 (p.bitmapStart + p.bitmapSize * 8 + 4096) =
      p.bitmapStart + p.bitmapSize * 8 + 4096 := u64_of_lt (by omega)
  simp only [freeSkips, Pmm.Protected, touches, pageSize, haddr, hend, hpast, Bool.or_eq_true,
    Bool.and_eq_true, decide_eq_true_eq]
  omega

/-- The loop of `pmm_free_range` starts behind the kernel image. -/
theorem PmmPlaced.freeFirst_le_iff (h : PmmPlaced kernelEnd p) {start : Nat} :
    freeFirst p start ≤ page ↔
      u64 (start + pageSize - 1) / pageSize ≤ page ∧ kernelEnd ≤ page * pageSize := by
  obtain ⟨-, -, h₃, h₄, h₅, -⟩ := h
  unfold freeFirst pageSize at *
  rw [Nat.max_le]
  omega

/-- No clear bit belongs to a page of the kernel or of the tables. -/
def PmmGuarded (kernelEnd : Nat) (p : Pmm) : Prop :=
  ∀ page < p.totalPages, p.bitmap.get page = false → ¬ p.Protected kernelEnd page

variable {p' : Pmm}

theorem Pmm.protected_congr (h : p'.layout = p.layout) :
    p'.Protected kernelEnd page ↔ p.Protected kernelEnd page := by
  simp only [Pmm.layout, Prod.mk.injEq] at h
  obtain ⟨h₁, h₂, -, h₄, h₅⟩ := h
  simp only [Pmm.Protected, h₁, h₂, h₄, h₅]

theorem totalPages_congr (h : p'.layout = p.layout) : p'.totalPages = p.totalPages :=
  congrArg (fun l => l.2.2.1) h

/-- A call that keeps the layout and frees no page of the kernel or of the tables. -/
theorem PmmGuarded.of_get (h : PmmGuarded kernelEnd p) (hsame : p'.layout = p.layout)
    (hget : ∀ page < p.totalPages, p'.bitmap.get page = false →
      p.bitmap.get page = false ∨ ¬ p.Protected kernelEnd page) : PmmGuarded kernelEnd p' := by
  intro page hlt hclear
  rw [totalPages_congr hsame] at hlt
  rw [Pmm.protected_congr hsame]
  exact (hget page hlt hclear).elim (h page hlt) id

theorem PmmGuarded.freeRange (h : PmmGuarded kernelEnd p) (hplaced : PmmPlaced kernelEnd p)
    (start length : Nat) : PmmGuarded kernelEnd (pmmFreeRange p start length) := by
  refine h.of_get (pmmFreeRange_layout p start length) fun page hlt hclear => ?_
  refine ((pmmFreeRange_get p start length page).mp hclear).imp id ?_
  rintro ⟨⟨hfirst, -, -⟩, hskip, -⟩ hprot
  rw [(hplaced.freeSkips_iff hlt (hplaced.freeFirst_le_iff.mp hfirst).2).mpr hprot] at hskip
  cases hskip

theorem pmmReset_get (words : Bitmap 64) (mbi : MbootInfo)
    (hlt : page < (pmmReset kernelEnd words mbi).totalPages) :
    (pmmReset kernelEnd words mbi).bitmap.get page = true := by
  have hcounted := pmmReset_counted kernelEnd words mbi
  have hzero : (pmmClearPages (pmmReset kernelEnd words mbi)).card = 0 := by
    rw [← hcounted.freePages_eq]
    rfl
  by_contra hclear
  have hmem : page ∈ pmmClearPages (pmmReset kernelEnd words mbi) :=
    mem_pmmClearPages.mpr ⟨hlt, by simpa using hclear⟩
  rw [card_eq_zero.mp hzero] at hmem
  exact absurd hmem (notMem_empty page)

theorem pmmReset_guarded (words : Bitmap 64) (mbi : MbootInfo) :
    PmmGuarded kernelEnd (pmmReset kernelEnd words mbi) := by
  intro page hlt hclear
  rw [pmmReset_get words mbi hlt] at hclear
  cases hclear

end Placed

/-- A step of the start-up loop is a call of `pmm_free_range`, or nothing. -/
theorem pmmInit_induction {P : Pmm → Prop} {words : Bitmap 64} {mbi : MbootInfo}
    (hreset : P (pmmReset kernelEnd words mbi))
    (hrange : ∀ p start length, P p → P (pmmFreeRange p start length)) :
    P (pmmInit kernelEnd words mbi) := by
  have hfold : ∀ (entries : List MbootMmapEntry) (p : Pmm), P p → P (entries.foldl freeEntry p) := by
    intro entries
    induction entries with
    | nil => exact fun p h => h
    | cons e entries ih =>
      intro p h
      apply ih
      unfold freeEntry
      split
      · exact hrange _ _ _ h
      · exact h
  unfold pmmInit
  dsimp only
  split
  · exact hfold _ _ hreset
  · exact hreset

/-! ## Runs with the pages in use -/

/-- The allocator and the pages that its callers hold. -/
structure PmmUse where
  pmm : Pmm
  held : Finset Nat

/-- A call by a caller that returns only pages it holds. -/
def useStep (u : PmmUse) : PmmOp → Option PmmUse
  | .allocPage =>
    some ⟨(pmmAllocPage u.pmm).2, if (pmmAllocPage u.pmm).1 = 0 then u.held
      else insert ((pmmAllocPage u.pmm).1 / pageSize) u.held⟩
  | .freePage addr =>
    if addr / pageSize ∈ u.held then
      some ⟨pmmFreePage u.pmm addr, u.held.erase (addr / pageSize)⟩
    else none
  | .reserveRange start length => some ⟨pmmReserveRange u.pmm start length, u.held⟩
  | .freeRange _ _ => none

/-- Held pages are marked, and no clear bit belongs to the kernel or the tables. -/
structure PmmUse.Inv (kernelEnd : Nat) (u : PmmUse) : Prop where
  guarded : PmmGuarded kernelEnd u.pmm
  marked : ∀ page ∈ u.held, u.pmm.bitmap.get page = true
  free : ∀ page ∈ u.held, ¬ u.pmm.Protected kernelEnd page

theorem pageSize_pos : 0 < pageSize := by decide

theorem PmmUse.Inv.step {u u' : PmmUse} (h : u.Inv kernelEnd) (hstep : useStep u op = some u') :
    u'.Inv kernelEnd := by
  cases op with
  | allocPage =>
    cases hstep
    rcases pmmAllocPage_cases u.pmm with hnone | ⟨page, hlt, hclear, halloc⟩
    · rw [hnone]
      exact h
    rw [halloc]
    have hget : ∀ i, (bitmapSet u.pmm page).bitmap.get i = true ↔
        i = page ∨ u.pmm.bitmap.get i = true := by
      intro i
      by_cases hi : i = page <;> simp [bitmapSet, hi]
    have hheld : ∀ i ∈ (if page * pageSize = 0 then u.held
        else insert (page * pageSize / pageSize) u.held), i = page ∨ i ∈ u.held := by
      intro i hi
      split at hi
      · exact .inr hi
      · rwa [Nat.mul_div_cancel _ pageSize_pos, mem_insert] at hi
    refine ⟨h.guarded.of_get rfl fun i hi hfalse => .inl ?_, fun i hi => ?_, fun i hi => ?_⟩
    · by_contra hne
      have := (hget i).mpr (.inr (by simpa using hne))
      exact absurd (hfalse.symm.trans this) (by simp)
    · exact (hget i).mpr ((hheld i hi).imp id (h.marked i))
    · rcases hheld i hi with rfl | hi
      · exact h.guarded i hlt hclear
      · exact h.free i hi
  | freePage addr =>
    simp only [useStep] at hstep
    split at hstep
    · rename_i hmem
      cases hstep
      have hsame := pmmFreePage_layout u.pmm addr
      refine ⟨h.guarded.of_get hsame fun i hi hfalse => ?_, fun i hi => ?_, fun i hi => ?_⟩
      · refine (pmmFreePage_get hfalse).imp id fun heq => ?_
        rw [heq]
        exact h.free _ hmem
      · by_contra hne
        rcases pmmFreePage_get (Bool.eq_false_of_not_eq_true hne) with hfalse | heq
        · rw [h.marked i (mem_of_mem_erase hi)] at hfalse
          cases hfalse
        · exact (mem_erase.mp hi).1 heq
      · rw [Pmm.protected_congr hsame]
        exact h.free i (mem_of_mem_erase hi)
    · cases hstep
  | reserveRange start length =>
    cases hstep
    have hsame := pmmReserveRange_layout u.pmm start length
    refine ⟨h.guarded.of_get hsame fun i _ hfalse => .inl (pmmReserveRange_get hfalse),
      fun i hi => ?_, fun i hi => ?_⟩
    · by_contra hne
      have hfalse := pmmReserveRange_get (Bool.eq_false_of_not_eq_true hne)
      rw [h.marked i hi] at hfalse
      cases hfalse
    · rw [Pmm.protected_congr hsame]
      exact h.free i hi
  | freeRange start length => cases hstep

/-- After start-up on any memory map, and however callers take, return and reserve pages, the
next page handed out is not in use, not of the kernel, the bitmap or the reference counts, and
below the page total. -/
theorem pmm_alloc_safe {kernelEnd : Nat} (hfits : KernelFits kernelEnd) (words : Bitmap 64)
    (mbi : MbootInfo) (ops : List PmmOp) (u : PmmUse)
    (hrun : Run.run useStep ⟨pmmInit kernelEnd words mbi, ∅⟩ ops = some u)
    (hpage : (pmmAllocPage u.pmm).1 ≠ 0) :
    (pmmAllocPage u.pmm).1 / pageSize ∉ u.held ∧
      ¬ u.pmm.Protected kernelEnd ((pmmAllocPage u.pmm).1 / pageSize) ∧
      (pmmAllocPage u.pmm).1 / pageSize < u.pmm.totalPages := by
  have hinit := pmmInit_induction (P := fun p => PmmPlaced kernelEnd p ∧ PmmGuarded kernelEnd p)
      ⟨pmmReset_placed hfits words mbi, pmmReset_guarded words mbi⟩
      fun p start length h => ⟨h.1.congr (pmmFreeRange_layout p start length),
        h.2.freeRange h.1 start length⟩
  have hinv : u.Inv kernelEnd := Run.run_invariant (fun _ _ _ h hs => h.step hs)
    ⟨hinit.2, by simp, by simp⟩ hrun
  rcases pmmAllocPage_cases u.pmm with hnone | ⟨page, hlt, hclear, halloc⟩
  · rw [hnone] at hpage
    exact absurd rfl hpage
  have hdiv : (pmmAllocPage u.pmm).1 / pageSize = page := by
    rw [halloc]
    exact Nat.mul_div_cancel _ pageSize_pos
  rw [hdiv]
  refine ⟨fun hheld => ?_, hinv.guarded page hlt hclear, hlt⟩
  rw [hinv.marked page hheld] at hclear
  cases hclear

/-- A memory map with 256 KiB of available memory. -/
def smallMap : MbootInfo := ⟨mbootFlagMmap, 0, [⟨0, 0, 0x40000, 0, mbootMemAvailable⟩]⟩

/-- A machine with that memory and a kernel of one page. -/
def smallMachine : Pmm := pmmInit 0x1000 (fun _ => 0) smallMap

/-- On the small machine the pages behind the reference counts are handed out, and the first of
them again when it has come back. -/
theorem pmm_alloc_safe_reused :
    ∃ u, Run.run useStep ⟨smallMachine, ∅⟩ [.allocPage, .allocPage, .freePage (3 * pageSize)] =
        some u ∧ u.held = {4} ∧ (pmmAllocPage u.pmm).1 = 3 * pageSize ∧ 3 ∉ u.held ∧
        ¬ u.pmm.Protected 0x1000 3 := by
  have hrun : (Run.run useStep ⟨smallMachine, ∅⟩
      [.allocPage, .allocPage, .freePage (3 * pageSize)]).map
        (fun u => (u.held, (pmmAllocPage u.pmm).1)) = some ({4}, 3 * pageSize) := by
    decide +kernel
  obtain ⟨u, hu, hfacts⟩ := Option.map_eq_some_iff.mp hrun
  obtain ⟨hheld, hpage⟩ := Prod.mk.inj hfacts
  have hfits : KernelFits 0x1000 := by
    unfold KernelFits
    omega
  have hsafe := pmm_alloc_safe hfits (fun _ => 0) smallMap _ u hu (by rw [hpage]; decide)
  rw [hpage, Nat.mul_div_cancel _ pageSize_pos] at hsafe
  exact ⟨u, hu, hheld, hpage, hsafe.1, hsafe.2.1⟩

/-! ## Pages taken back -/

/-- A call that allocates or frees pages. -/
def PmmOp.AllocOrFree : PmmOp → Prop
  | .reserveRange _ _ => False
  | _ => True

/-- The call can free the page. -/
def PmmOp.Returns (page : Nat) : PmmOp → Prop
  | .freePage addr => addr / pageSize = page
  | .freeRange start length =>
    u64 (start + pageSize - 1) / pageSize ≤ page ∧ page < freeLast start length
  | _ => False

theorem PmmOp.AllocOrFree.callOk (h : op.AllocOrFree) (p : Pmm) : pmmCallOk p op := by
  cases op with
  | reserveRange start length => exact h.elim
  | _ => trivial

theorem pmmStep_layout (h : pmmStep p op = some p') : p'.layout = p.layout := by
  cases op with
  | allocPage => cases h; exact pmmAllocPage_layout p
  | freePage addr => cases h; exact pmmFreePage_layout p addr
  | reserveRange start length => cases h; exact pmmReserveRange_layout p start length
  | freeRange start length => cases h; exact pmmFreeRange_layout p start length

/-- A page stays in use while no call frees it. -/
theorem pmmStep_get (hstep : pmmStep p op = some p') (hkeep : ¬ op.Returns page)
    (hget : p.bitmap.get page = true) :
    p'.bitmap.get page = true := by
  by_contra hne
  have hfalse := Bool.eq_false_of_not_eq_true hne
  have hold : p.bitmap.get page ≠ false := by rw [hget]; decide
  cases op with
  | allocPage =>
    cases hstep
    rcases pmmAllocPage_cases p with hnone | ⟨found, -, -, halloc⟩
    · rw [hnone] at hfalse
      exact hold hfalse
    · rw [halloc] at hfalse
      by_cases hi : page = found <;> simp [bitmapSet, hi, hget] at hfalse
  | freePage addr =>
    cases hstep
    rcases pmmFreePage_get hfalse with h | h
    · exact hold h
    · exact hkeep h.symm
  | reserveRange start length =>
    cases hstep
    exact hold (pmmReserveRange_get hfalse)
  | freeRange start length =>
    cases hstep
    rcases (pmmFreeRange_get p start length page).mp hfalse with h | ⟨⟨hfirst, hlast, -⟩, -⟩
    · exact hold h
    · exact hkeep ⟨(le_max_left _ _).trans hfirst, hlast⟩

/-- `pmm_free_page` frees a used page in the lower half of its bitmap word, and counts it. -/
theorem PmmCounted.pmmFreePage_used (h : PmmCounted 0 p) {addr : Nat}
    (hlt : addr / pageSize < p.totalPages) (hlow : addr / pageSize % 64 < 32)
    (hget : p.bitmap.get (addr / pageSize) = true) :
    (pmmFreePage p addr).bitmap.get (addr / pageSize) = false ∧
      (pmmFreePage p addr).freePages = p.freePages + 1 := by
  have htest : bitmapTest p (addr / pageSize) ≠ 0 := by
    rw [Ne, bitmapTest_eq_zero_iff, Classical.not_imp, hget]
    exact ⟨hlow, by decide⟩
  have hfree : pmmFreePage p addr =
      { bitmapClear p (addr / pageSize) with freePages := u64 (p.freePages + 1) } := by
    unfold pmmFreePage
    dsimp only
    rw [if_neg (by omega), if_neg htest]
  have hcount : p.freePages ≤ p.totalPages := by
    rw [h.freePages_eq]
    exact Bitmap.card_clearBits_le
  have htotal := h.total
  rw [hfree]
  exact ⟨by simp [bitmapClear], u64_of_lt (by omega)⟩

/-- A page that lies wholly in a range, is in use, and belongs neither to the kernel nor to the
tables. -/
structure Freeable (kernelEnd : Nat) (p : Pmm) (start length page : Nat) : Prop where
  above : start ≤ page * pageSize
  below : (page + 1) * pageSize ≤ start + length
  total : page < p.totalPages
  used : p.bitmap.get page = true
  unprotected : ¬ p.Protected kernelEnd page

/-- `pmm_free_range` frees such a page when its bit is in the lower half of a bitmap word and
the end of the range is in the address space. -/
theorem Freeable.freed_iff {start length : Nat} (h : Freeable kernelEnd p start length page)
    (hplaced : PmmPlaced kernelEnd p) (hlength : length < 2 ^ 64) :
    (pmmFreeRange p start length).bitmap.get page = false ↔
      page % 64 < 32 ∧ start + length < 2 ^ 64 := by
  obtain ⟨habove, hbelow, hlt, hused, hprot⟩ := h
  have hkernel : kernelEnd ≤ page * pageSize := Nat.le_of_not_lt fun hbad => hprot (.inl hbad)
  have hskip : freeSkips p page = false := by
    rw [← Bool.not_eq_true, hplaced.freeSkips_iff hlt hkernel]
    exact hprot
  have htotal := hplaced.total
  rw [pmmFreeRange_get, hused, hplaced.freeFirst_le_iff, hskip]
  unfold freeLast u64 pageSize at *
  constructor
  · rintro (hbad | ⟨⟨-, hlast, -⟩, -, hlow⟩)
    · cases hbad
    · exact ⟨hlow, by omega⟩
  · rintro ⟨hlow, hend⟩
    exact .inr ⟨⟨⟨by omega, hkernel⟩, by omega, hlt⟩, rfl, hlow⟩

/-- Start-up is a run of range calls from the reset allocator. -/
theorem pmmInit_reached (kernelEnd : Nat) (words : Bitmap 64) (mbi : MbootInfo) :
    ∃ ops : List PmmOp, (∀ op ∈ ops, op.AllocOrFree) ∧
      Run.run pmmStep (pmmReset kernelEnd words mbi) ops = some (pmmInit kernelEnd words mbi) := by
  refine pmmInit_induction (P := fun p => ∃ ops : List PmmOp, (∀ op ∈ ops, op.AllocOrFree) ∧
    Run.run pmmStep (pmmReset kernelEnd words mbi) ops = some p) ⟨[], by simp, rfl⟩ ?_
  rintro p start length ⟨ops, hops, hrun⟩
  refine ⟨ops ++ [.freeRange start length], ?_, ?_⟩
  · intro op hop
    rcases List.mem_append.mp hop with hop | hop
    · exact hops op hop
    · rw [List.mem_singleton.mp hop]
      trivial
  · rw [Run.run_append, hrun]
    rfl

/-- In every state that allocations and frees lead to, a page from `pmm_alloc_page` that no call
has freed since is free, and counted, after `pmm_free_page`; and `pmm_free_range` frees all pages
it should exactly when each of them has its bit in the lower half of a bitmap word and the range
ends in the address space. -/
theorem pmm_free_iff {kernelEnd : Nat} (hfits : KernelFits kernelEnd) (words : Bitmap 64)
    (mbi : MbootInfo) (ops : List PmmOp) (hops : ∀ op ∈ ops, op.AllocOrFree) (p : Pmm)
    (hrun : Run.run pmmStep (pmmReset kernelEnd words mbi) ops = some p) :
    (∀ (later : List PmmOp) (q : Pmm), (pmmAllocPage p).1 ≠ 0 →
      (∀ op ∈ later, op.AllocOrFree ∧ ¬ op.Returns ((pmmAllocPage p).1 / pageSize)) →
      Run.run pmmStep (pmmAllocPage p).2 later = some q →
      (pmmFreePage q (pmmAllocPage p).1).bitmap.get ((pmmAllocPage p).1 / pageSize) = false ∧
        (pmmFreePage q (pmmAllocPage p).1).freePages = q.freePages + 1) ∧
    (∀ start length : Nat, length < 2 ^ 64 → ((∀ page, Freeable kernelEnd p start length page →
          (pmmFreeRange p start length).bitmap.get page = false) ↔
        ∀ page, Freeable kernelEnd p start length page →
          page % 64 < 32 ∧ start + length < 2 ^ 64)) := by
  have hcountedStep : ∀ s op s', op.AllocOrFree → PmmCounted 0 s → pmmStep s op = some s' →
      PmmCounted 0 s' := by
    intro s op s' hop hs hstep
    obtain ⟨s₁, hs₁, hcounted⟩ := pmmStep_counted hs (hop.callOk s)
    rw [hstep] at hs₁
    cases hs₁
    exact hcounted
  have hinv : PmmCounted 0 p ∧ PmmPlaced kernelEnd p :=
    @Run.run_invariant_of_mem _ _ pmmStep (fun s => PmmCounted 0 s ∧ PmmPlaced kernelEnd s) _ _ _
      (fun s op hop s' hs hstep => ⟨hcountedStep s op s' (hops op hop) hs.1 hstep,
        hs.2.congr (pmmStep_layout hstep)⟩)
      ⟨pmmReset_counted kernelEnd words mbi, pmmReset_placed hfits words mbi⟩ hrun
  refine ⟨fun later q hne hlater hq => ?_, fun start length hlength => ?_⟩
  · rcases pmmAllocPage_cases p with hnone | ⟨page, hlt, hclear, halloc⟩
    · rw [hnone] at hne
      exact absurd rfl hne
    have hdiv : page * pageSize / pageSize = page := Nat.mul_div_cancel _ pageSize_pos
    have hfirst : PmmCounted 0 (pmmAllocPage p).2 := hinv.1.allocPage
    rw [halloc] at hlater hq hfirst ⊢
    simp only [hdiv] at hlater ⊢
    have hlow : page % 64 < 32 := by
      by_contra hhigh
      rw [hinv.1.high page hlt (by omega)] at hclear
      cases hclear
    have hlast := @Run.run_invariant_of_mem _ _ pmmStep
        (fun s => PmmCounted 0 s ∧ s.bitmap.get page = true ∧ s.totalPages = p.totalPages) _ _ _
        (fun s op hop s' hs hstep => ⟨hcountedStep s op s' (hlater op hop).1 hs.1 hstep,
          pmmStep_get hstep (hlater op hop).2 hs.2.1,
          (totalPages_congr (pmmStep_layout hstep)).trans hs.2.2⟩)
        ⟨hfirst, by simp [bitmapSet], rfl⟩ hq
    have hfree := @PmmCounted.pmmFreePage_used q hlast.1 (page * pageSize)
    rw [hdiv, hlast.2.2] at hfree
    exact hfree hlt hlow hlast.2.1
  · exact forall₂_congr fun page hpage => hpage.freed_iff hinv.2 hlength

/-- The page behind the reference counts of the small machine goes back and forth, and a range
of one page in the lower half of its word is freed. -/
theorem pmm_free_small : ∃ p, Run.run pmmStep (pmmReset 0x1000 (fun _ => 0) smallMap)
      [.freeRange 0 0x8000] = some p ∧ (pmmAllocPage p).1 = 3 * pageSize ∧
    (pmmFreePage (pmmAllocPage p).2 (pmmAllocPage p).1).bitmap.get 3 = false := by
  have hfits : KernelFits 0x1000 := by
    unfold KernelFits
    omega
  generalize hp : pmmFreeRange (pmmReset 0x1000 (fun _ => 0) smallMap) 0 0x8000 = p
  have hrun : Run.run pmmStep (pmmReset 0x1000 (fun _ => 0) smallMap) [.freeRange 0 0x8000] =
      some p := by rw [← hp]; rfl
  have hpage : (pmmAllocPage p).1 = 3 * pageSize := by
    rw [← hp]
    decide +kernel
  have hne : (pmmAllocPage p).1 ≠ 0 := by
    rw [hpage]
    decide
  have hfree := ((pmm_free_iff hfits _ _ [.freeRange 0 0x8000]
    (fun op hop => by rw [List.mem_singleton.mp hop]; trivial) p hrun).1 [] _ hne
    (fun op hop => absurd hop List.not_mem_nil) rfl).1
  refine ⟨p, hrun, hpage, ?_⟩
  have hdiv : (pmmAllocPage p).1 / pageSize = 3 := by
    rw [hpage]
    exact Nat.mul_div_cancel _ pageSize_pos
  rwa [hdiv] at hfree

/-- Page 40 of the small machine is available memory; it stays in use when it is freed as a
range. -/
theorem pmm_free_range_misses : Freeable 0x1000 smallMachine (40 * pageSize) pageSize 40 ∧
      (pmmFreeRange smallMachine (40 * pageSize) pageSize).bitmap.get 40 = true := by
  refine ⟨⟨le_rfl, by decide, by decide +kernel, by decide +kernel, ?_⟩, by decide +kernel⟩
  unfold Pmm.Protected touches
  decide +kernel

end OpenSys
