-- SUMMARY: When brk, mmap and munmap touch nothing foreign to the process.
import Mathlib.Data.Finset.Union
import OpenSys.Lib.Run
import OpenSys.Process.VmTree

/-!
# Protection by the memory syscalls

A process owns the user half of its address space: the tables below entries 0 to
255 of its top table and the pages they map. Everything else, the kernel's tables
and pages and those of other processes, is a set of foreign page frames. The
syscalls are safe for a foreign set when they leave its contents alone, never hand
its frames back to the allocator and never map them.
-/

namespace OpenSys

open Option Finset Nat Radix

/-- What one process has, next to the foreign frames. -/
structure SpaceOk (foreign : Finset Nat) (s : Vm) (root : Nat) : Prop extends TreeOk s root where
  pageUsed : ∀ q i e, LowPath q → q.length = 3 → s.pageAt root q i = some e →
    entryFrame e ∉ pmmClearPages s.pmm
  pageTable : ∀ q i e q', LowPath q → q.length = 3 → s.pageAt root q i = some e → LowPath q' →
    s.tableAt root q' ≠ some (entryFrame e)
  foreignUsed : ∀ f ∈ foreign, f ∉ pmmClearPages s.pmm
  foreignTable : ∀ f ∈ foreign, ∀ q, LowPath q → s.tableAt root q ≠ some f

/-- No page frame is mapped twice in the user half. -/
def PagesOnce (s : Vm) (root : Nat) : Prop :=
  ∀ q i e q' i' e', LowPath q → q.length = 3 → LowPath q' → q'.length = 3 →
    s.pageAt root q i = some e → s.pageAt root q' i' = some e' → entryFrame e = entryFrame e' →
    q = q' ∧ i = i'

/-- What the way from `s` to `s'` leaves alone. -/
structure Protects (foreign : Finset Nat) (root : Nat) (s s' : Vm) : Prop where
  frames : ∀ f ∈ foreign, s'.mem f = s.mem f
  upper : ∀ i : Fin 512, 256 ≤ i.val → s'.mem root i = s.mem root i
  pages : ∀ q i e, LowPath q → q.length = 3 → s'.pageAt root q i = some e →
    entryFrame e ∈ foreign → s.pageAt root q i = some e

variable {foreign : Finset Nat} {s s' s'' : Vm} {root start virt i n f : Nat} {space : VmSpace}
  {flags e : BitVec 64} {q : List (Fin 512)} {j : Fin 512}

theorem Protects.refl : Protects foreign root s s :=
  ⟨fun _ _ => rfl, fun _ _ => rfl, fun _ _ _ _ _ h _ => h⟩

theorem Protects.trans (h : Protects foreign root s s') (h' : Protects foreign root s' s'') :
    Protects foreign root s s'' where
  frames := fun f hf => (h'.frames f hf).trans (h.frames f hf)
  upper := fun i hi => (h'.upper i hi).trans (h.upper i hi)
  pages := fun q i e hq hlen he hf => h.pages q i e hq hlen (h'.pages q i e hq hlen he hf) hf

/-! ## Addresses -/

/-- The address of page `i` of a range. -/
def pageVirt (start i : Nat) : Nat := u64 (start + i * 0x1000)

/-- The address lies in the user half. -/
def UserVirt (virt : Nat) : Prop := (tableIndex virt 3).val < 256

instance (virt : Nat) : Decidable (UserVirt virt) :=
  inferInstanceAs (Decidable ((tableIndex virt 3).val < 256))

theorem tableIndex_val (virt level : Nat) :
    (tableIndex virt level).val = virt / 2 ^ (12 + 9 * level) % 512 := rfl

/-- The indices of an address are the digits of its page number. -/
theorem page_eq_of_indices {v w : Nat} (hpath : virtPath v = virtPath w)
    (hlast : tableIndex v 0 = tableIndex w 0) : v / 4096 % 2 ^ 36 = w / 4096 % 2 ^ 36 := by
  simp only [virtPath, List.cons.injEq, and_true, Fin.ext_iff, tableIndex_val] at hpath
  rw [Fin.ext_iff, tableIndex_val, tableIndex_val] at hlast
  obtain ⟨h₃, h₂, h₁⟩ := hpath
  norm_num at h₁ h₂ h₃ hlast ⊢
  omega

theorem pageVirt_page (start i : Nat) :
    pageVirt start i / 4096 % 2 ^ 36 = (start / 4096 + i) % 2 ^ 36 := by
  unfold pageVirt u64
  omega

theorem userVirt_iff : UserVirt virt ↔ virt / 4096 % 2 ^ 36 < 2 ^ 35 := by
  rw [UserVirt, tableIndex_val]
  norm_num
  omega

/-- The pages of a range inside the user half have different entries. -/
theorem pageVirt_ne {k : Nat} (huser : ∀ m, i ≤ m → m ≤ k → UserVirt (pageVirt start m)) (hik : i < k)
    (hpath : virtPath (pageVirt start i) = virtPath (pageVirt start k)) :
    tableIndex (pageVirt start i) 0 ≠ tableIndex (pageVirt start k) 0 := by
  intro hlast
  have hsame := page_eq_of_indices hpath hlast
  have hlow := userVirt_iff.mp (huser i (le_refl i) hik.le)
  rw [pageVirt_page] at hlow
  rw [pageVirt_page, pageVirt_page] at hsame
  -- Equal entries are `2 ^ 36` pages apart, with the kernel half in between.
  have hmid := userVirt_iff.mp
    (huser (i + (2 ^ 35 - (start / 4096 + i) % 2 ^ 36)) (by omega) (by omega))
  rw [pageVirt_page] at hmid
  omega

/-! ## Mapping new pages -/

/-- The tables that the pages `i` to `i + n - 1` of a range lack. -/
def rangeMissing (s : Vm) (root start i n : Nat) : Finset (List (Fin 512)) :=
  (Finset.range n).biUnion fun k => missingTables s root (pageVirt start (i + k))

theorem mem_missingTables : q ∈ missingTables s root virt ↔
    s.tableAt root q = none ∧ ∃ n < 3, q = (virtPath virt).take (n + 1) :=
  mem_missing

theorem lowPath_take (huser : UserVirt virt) (n : Nat) : LowPath ((virtPath virt).take n) := by
  have hlow : LowPath ((virtPath virt).take n ++ (virtPath virt).drop n) := by
    rw [List.take_append_drop]
    exact lowPath_virtPath huser
  exact hlow.of_append

/-- After mapping a page, exactly the tables that page lacked are there in addition. -/
theorem Maps.tableAt_eq_none_iff (h : Maps root s s' virt e) (hq : LowPath q) :
    s'.tableAt root q = none ↔ s.tableAt root q = none ∧ q ∉ missingTables s root virt := by
  by_cases hnew : q ∈ missingTables s root virt
  · obtain ⟨f, -, htable⟩ := h.added q hnew
    simp [htable, hnew]
  · simp [h.tables q hq hnew, hnew]

theorem Maps.rangeMissing_eq (h : Maps root s s' (pageVirt start i) e)
    (huser : ∀ k ≤ n, UserVirt (pageVirt start (i + k))) :
    rangeMissing s root start i (n + 1) =
      missingTables s root (pageVirt start i) ∪ rangeMissing s' root start (i + 1) n ∧
    Disjoint (missingTables s root (pageVirt start i)) (rangeMissing s' root start (i + 1) n) := by
  have hshift : ∀ k, i + 1 + k = i + (k + 1) := fun k => by omega
  have hrest : ∀ q, q ∈ rangeMissing s' root start (i + 1) n ↔
      (∃ k < n, q ∈ missingTables s root (pageVirt start (i + (k + 1)))) ∧
        q ∉ missingTables s root (pageVirt start i) := by
    intro q
    simp only [rangeMissing, mem_biUnion, mem_range, hshift]
    constructor
    · rintro ⟨k, hk, hq⟩
      obtain ⟨hnone, m, hm, rfl⟩ := mem_missingTables.mp hq
      obtain ⟨hold, hnot⟩ := (h.tableAt_eq_none_iff (lowPath_take (huser (k + 1) hk) _)).mp hnone
      exact ⟨⟨k, hk, mem_missingTables.mpr ⟨hold, m, hm, rfl⟩⟩, hnot⟩
    · rintro ⟨⟨k, hk, hq⟩, hnot⟩
      obtain ⟨hold, m, hm, rfl⟩ := mem_missingTables.mp hq
      refine ⟨k, hk, mem_missingTables.mpr ⟨?_, m, hm, rfl⟩⟩
      exact (h.tableAt_eq_none_iff (lowPath_take (huser (k + 1) hk) _)).mpr ⟨hold, hnot⟩
  constructor
  · ext q
    rw [mem_union, hrest]
    simp only [rangeMissing, mem_biUnion, mem_range]
    constructor
    · rintro ⟨k, hk, hq⟩
      by_cases hfirst : q ∈ missingTables s root (pageVirt start i)
      · exact .inl hfirst
      · cases k with
        | zero => exact absurd hq hfirst
        | succ k => exact .inr ⟨⟨k, by omega, hq⟩, hfirst⟩
    · rintro (hq | ⟨⟨k, hk, hq⟩, -⟩)
      · exact ⟨0, by omega, hq⟩
      · exact ⟨k + 1, by omega, hq⟩
  · rw [disjoint_left]
    intro q hq hq'
    exact ((hrest q).mp hq').2 hq

/-- Taking a page from the allocator changes nothing else. -/
theorem SpaceOk.takePage (h : SpaceOk foreign s root) {pmm : Pmm} (hpmm : PmmOk pmm)
    (hclear : pmmClearPages pmm ⊆ pmmClearPages s.pmm) :
    SpaceOk foreign { s with pmm := pmm } root where
  pmm := hpmm
  tree := h.tree
  used := fun p g hp hg hmem => h.used p g hp hg (hclear hmem)
  pageUsed := fun q i e hq hlen he hmem => h.pageUsed q i e hq hlen he (hclear hmem)
  pageTable := h.pageTable
  foreignUsed := fun g hg hmem => h.foreignUsed g hg (hclear hmem)
  foreignTable := h.foreignTable

/-- Returning a page that is neither mapped, nor a table, nor foreign. -/
theorem SpaceOk.givePage (h : SpaceOk foreign s root) {addr : Nat} (hne : addr / pageSize ≠ 0)
    (hpage : ∀ q i e, LowPath q → q.length = 3 → s.pageAt root q i = some e →
      entryFrame e ≠ addr / pageSize)
    (htable : ∀ q, LowPath q → s.tableAt root q ≠ some (addr / pageSize))
    (hforeign : addr / pageSize ∉ foreign) :
    SpaceOk foreign { s with pmm := pmmFreePage s.pmm addr } root := by
  obtain ⟨hpmm, hclear⟩ := h.pmm.freePage hne
  have hother : ∀ f, f ≠ addr / pageSize → f ∉ pmmClearPages s.pmm →
      f ∉ pmmClearPages (pmmFreePage s.pmm addr) := by
    intro f hf hused hmem
    rcases mem_insert.mp (hclear hmem) with heq | hmem
    · exact hf heq
    · exact hused hmem
  refine ⟨⟨hpmm, h.tree, fun q f hq hf => ?_⟩, fun q i e hq hlen he => ?_, h.pageTable,
    fun f hf => ?_, h.foreignTable⟩
  · exact hother f (fun heq => htable q hq (heq ▸ hf)) (h.used q f hq hf)
  · exact hother _ (hpage q i e hq hlen he) (h.pageUsed q i e hq hlen he)
  · exact hother f (fun heq => hforeign (heq ▸ hf)) (h.foreignUsed f hf)

/-- Returning the page that was just taken. -/
theorem SpaceOk.giveBack (h : SpaceOk foreign s root) {pmm : Pmm} (hf : f ∈ pmmClearPages s.pmm)
    (hpmm : PmmOk pmm) (hclear : pmmClearPages pmm = (pmmClearPages s.pmm).erase f) :
    SpaceOk foreign { s with pmm := pmmFreePage pmm (f * pageSize) } root ∧
      pmmClearPages (pmmFreePage pmm (f * pageSize)) ⊆ pmmClearPages s.pmm := by
  have hzero : f * pageSize / pageSize ≠ 0 := by
    rw [frame_address]
    exact fun heq => h.pmm.zero (heq ▸ hf)
  refine ⟨(h.takePage hpmm (hclear ▸ erase_subset f _)).givePage hzero ?_ ?_ ?_, ?_⟩
  · exact fun q i e hq hlen he heq => h.pageUsed q i e hq hlen he (heq.trans (frame_address f) ▸ hf)
  · exact fun q hq hqf => h.used q f hq (frame_address f ▸ hqf) hf
  · exact fun hmem => h.foreignUsed f (frame_address f ▸ hmem) hf
  · refine (hpmm.freePage hzero).2.trans ?_
    rw [frame_address, hclear]
    exact insert_subset hf (erase_subset f _)

/-- The pages after mapping one. -/
theorem Maps.page_cases (h : Maps root s s' virt e) {e' : BitVec 64} (hq : LowPath q)
    (hlen : q.length = 3) (he' : s'.pageAt root q j = some e') :
    (q = virtPath virt ∧ j = tableIndex virt 0 ∧ e' = e) ∨ s.pageAt root q j = some e' := by
  rw [h.pages q j hq hlen] at he'
  split at he'
  · rename_i hslot
    exact .inl ⟨hslot.1, hslot.2, (some.inj he').symm⟩
  · exact .inr he'

theorem Maps.table_cases (h : Maps root s s' virt e) {g : Nat} (hq : LowPath q)
    (hg : s'.tableAt root q = some g) : s.tableAt root q = some g ∨ g ∈ pmmClearPages s.pmm := by
  by_cases hnew : q ∈ missingTables s root virt
  · obtain ⟨f, hf, hadded⟩ := h.added q hnew
    rw [hg] at hadded
    cases hadded
    exact .inr hf
  · exact .inl (by rw [← h.tables q hq hnew, hg])

/-- Mapping a page that is in use, but not as a table. -/
theorem SpaceOk.maps (h : SpaceOk foreign s root) (hmaps : Maps root s s' virt e)
    (hused : entryFrame e ∉ pmmClearPages s.pmm)
    (htable : ∀ q, LowPath q → s.tableAt root q ≠ some (entryFrame e)) :
    SpaceOk foreign s' root := by
  refine ⟨hmaps.ok, ?_, ?_, ?_, ?_⟩
  · intro q i e' hq hlen he' hmem
    rcases hmaps.page_cases hq hlen he' with ⟨-, -, rfl⟩ | hold
    · exact hused (hmaps.subset hmem)
    · exact h.pageUsed q i e' hq hlen hold (hmaps.subset hmem)
  · intro q i e' q' hq hlen he' hq' hg
    rcases hmaps.page_cases hq hlen he' with ⟨-, -, rfl⟩ | hold <;>
      rcases hmaps.table_cases hq' hg with hold' | hclear
    · exact htable q' hq' hold'
    · exact hused hclear
    · exact h.pageTable q i e' q' hq hlen hold hq' hold'
    · exact h.pageUsed q i e' hq hlen hold hclear
  · exact fun g hg hmem => h.foreignUsed g hg (hmaps.subset hmem)
  · intro g hg q hq hqg
    rcases hmaps.table_cases hq hqg with hold | hclear
    · exact h.foreignTable g hg q hq hold
    · exact h.foreignUsed g hg hclear

theorem SpaceOk.maps_protects (h : SpaceOk foreign s root) (hmaps : Maps root s s' virt e)
    (hforeign : entryFrame e ∉ foreign) : Protects foreign root s s' where
  frames := fun g hg => hmaps.rows g (h.foreignUsed g hg) (h.foreignTable g hg)
  upper := hmaps.upper
  pages := by
    intro q i e' hq hlen he' hf
    rcases hmaps.page_cases hq hlen he' with ⟨-, -, rfl⟩ | hold
    · exact absurd hf hforeign
    · exact hold

/-- A page that was not mapped before. -/
theorem PagesOnce.maps (h : PagesOnce s root) (hmaps : Maps root s s' virt e)
    (hfresh : ∀ q i e', LowPath q → q.length = 3 → s.pageAt root q i = some e' →
      entryFrame e' ≠ entryFrame e) : PagesOnce s' root := by
  intro q i e₁ q' i' e₂ hq hlen hq' hlen' he₁ he₂ hsame
  rcases hmaps.page_cases hq hlen he₁ with ⟨rfl, rfl, rfl⟩ | hold <;>
    rcases hmaps.page_cases hq' hlen' he₂ with ⟨rfl, rfl, rfl⟩ | hold'
  · exact ⟨rfl, rfl⟩
  · exact absurd hsame.symm (hfresh q' i' e₂ hq' hlen' hold')
  · exact absurd hsame (hfresh q i e₁ hq hlen hold)
  · exact h q i e₁ q' i' e₂ hq hlen hq' hlen' hold hold' hsame

/-- On the way from `s` to `s'` pages come from the allocator only. -/
structure Draws (root : Nat) (s s' : Vm) : Prop where
  subset : pmmClearPages s'.pmm ⊆ pmmClearPages s.pmm
  tables : ∀ q g, LowPath q → s'.tableAt root q = some g →
    s.tableAt root q = some g ∨ g ∈ pmmClearPages s.pmm
  pages : ∀ q j e, LowPath q → q.length = 3 → s'.pageAt root q j = some e →
    s.pageAt root q j = some e ∨ entryFrame e ∈ pmmClearPages s.pmm
  refs : s'.pmm.refCounts = s.pmm.refCounts
  kernel : s'.kernelPml4 = s.kernelPml4

theorem Draws.refl : Draws root s s :=
  ⟨subset_rfl, fun _ _ _ hg => .inl hg, fun _ _ _ _ _ he => .inl he, rfl, rfl⟩

theorem Draws.trans (h : Draws root s s') (h' : Draws root s' s'') : Draws root s s'' := by
  refine ⟨h'.subset.trans h.subset, fun q g hq hg => ?_, fun q j e hq hlen he => ?_,
    h'.refs.trans h.refs, h'.kernel.trans h.kernel⟩
  · rcases h'.tables q g hq hg with hold | hclear
    · exact h.tables q g hq hold
    · exact .inr (h.subset hclear)
  · rcases h'.pages q j e hq hlen he with hold | hclear
    · exact h.pages q j e hq hlen hold
    · exact .inr (h.subset hclear)

/-- No table comes to address 0. -/
theorem Draws.null (h : Draws root s s') (hpmm : PmmOk s.pmm) (huser : UserVirt virt)
    (hnull : NullEntry s' root virt) : NullEntry s root virt := by
  refine ⟨?_, hnull.2⟩
  rcases h.tables _ 0 (lowPath_virtPath huser) hnull.1 with hold | hzero
  · exact hold
  · exact absurd hzero hpmm.zero

/-- Every round that gets a page also finds pages for the tables that page needs.
    The pages taken before a round are one for each earlier round and one for each
    table these rounds lacked. -/
def AllocRoom (s : Vm) (root start i n : Nat) : Prop :=
  ∀ k < n, k + (rangeMissing s root start i k).card < s.pmm.freePages →
    k + 1 + (rangeMissing s root start i (k + 1)).card ≤ s.pmm.freePages

/-- What the loop of `vm_alloc_pages` does from round `i` on. -/
structure PagesAllocated (foreign : Finset Nat) (space : VmSpace) (start : Nat) (flags : BitVec 64)
    (i n : Nat) (s s' : Vm) : Prop where
  ok : SpaceOk foreign s' space.root
  protects : Protects foreign space.root s s'
  once : PagesOnce s space.root → PagesOnce s' space.root
  draws : Draws space.root s s'
  others : ∀ q j, LowPath q → q.length = 3 →
    (∀ k < n, ¬ (q = virtPath (pageVirt start (i + k)) ∧ j = tableIndex (pageVirt start (i + k)) 0)) →
    s'.pageAt space.root q j = s.pageAt space.root q j
  /-- The page of round `k` is the one that the allocator returned in that round. -/
  pages : ∀ k < n, ∀ sk, allocLoop space start flags i k s = (true, sk) →
    (pmmAllocPage sk.pmm).1 ≠ 0 → ¬ NullEntry sk space.root (pageVirt start (i + k)) →
    s'.virtPage space.root (pageVirt start (i + k)) =
      some (pageEntry (pmmAllocPage sk.pmm).1 flags) ∧
    ¬ NullEntry s' space.root (pageVirt start (i + k))

/-- One round that gets a page. -/
theorem SpaceOk.allocRound (h : SpaceOk foreign s space.root) (hflags : flags &&& addrMask = 0)
    (huser : UserVirt virt) (hnull : ¬ NullEntry s space.root virt) {pmm : Pmm}
    (hf : f ∈ pmmClearPages s.pmm) (hpmm : PmmOk pmm)
    (hclear : pmmClearPages pmm = (pmmClearPages s.pmm).erase f)
    (hrefs : pmm.refCounts = s.pmm.refCounts)
    (hroom : 1 + (missingTables s space.root virt).card ≤ (pmmClearPages s.pmm).card) :
    ∃ s', vmMapPage { s with pmm := pmm } space virt (f * pageSize) flags = (0, s') ∧
      SpaceOk foreign s' space.root ∧ Protects foreign space.root s s' ∧
      (PagesOnce s space.root → PagesOnce s' space.root) ∧ Draws space.root s s' ∧
      Maps space.root { s with pmm := pmm } s' virt (pageEntry (f * pageSize) flags) := by
  have hf40 : f < 2 ^ 40 := lt_trans (h.pmm.lt hf) (by decide)
  have hframe : entryFrame (pageEntry (f * pageSize) flags) = f := by
    rw [entryFrame, entryAddr_pageEntry hf40 hflags]
    exact frame_address f
  have hsubset : pmmClearPages pmm ⊆ pmmClearPages s.pmm := hclear ▸ erase_subset f _
  have htake := h.takePage hpmm hsubset
  have hmissing : missingTables { s with pmm := pmm } space.root virt =
      missingTables s space.root virt := missing_congr rfl
  obtain ⟨s', hmap, hmaps⟩ := htake.toTreeOk.mapPage (f * pageSize) flags huser hnull (by
    rw [hmissing]
    dsimp only
    rw [hclear, card_erase_of_mem hf]
    omega)
  have hspace : SpaceOk foreign s' space.root := by
    refine htake.maps hmaps ?_ ?_ <;> rw [hframe]
    · dsimp only
      rw [hclear]
      exact notMem_erase f _
    · exact fun q hq hqf => h.used q f hq hqf hf
  have hprotects : Protects foreign space.root s s' := by
    have htaken := htake.maps_protects hmaps (hframe.symm ▸ fun hmem => h.foreignUsed f hmem hf)
    exact ⟨htaken.frames, htaken.upper, htaken.pages⟩
  have hdraws : Draws space.root s s' := by
    refine ⟨hmaps.subset.trans hsubset, fun q g hq hg => ?_, fun q j e hq hlen he => ?_,
      hmaps.refs.trans hrefs, hmaps.kernel⟩
    · exact (hmaps.table_cases hq hg).imp_right fun hclear => hsubset hclear
    rcases hmaps.page_cases hq hlen he with ⟨-, -, rfl⟩ | hold
    · exact .inr (hframe.symm ▸ hf)
    · exact .inl hold
  refine ⟨s', hmap, hspace, hprotects, fun honce => ?_, hdraws, hmaps⟩
  refine PagesOnce.maps (s := { s with pmm := pmm }) honce hmaps fun q i e hq hlen hpage hef => ?_
  exact h.pageUsed q i e hq hlen hpage (hef.trans hframe ▸ hf)

protected theorem SpaceOk.allocLoop (h : SpaceOk foreign s space.root) (hflags : flags &&& addrMask = 0)
    (huser : ∀ k < n, UserVirt (pageVirt start (i + k)))
    (hroom : AllocRoom s space.root start i n) :
    PagesAllocated foreign space start flags i n s (allocLoop space start flags i n s).2 := by
  induction n generalizing i s with
  | zero =>
    exact ⟨h, Protects.refl, id, Draws.refl, fun _ _ _ _ _ => rfl, fun k hk => absurd hk (not_lt_zero k)⟩
  | succ n ih =>
    rcases h.pmm.allocPage with ⟨-, halloc⟩ | ⟨f, hf, pmm, halloc, hpmm, hclear, hrefs, -⟩
    · -- No page: the loop ends in the state it is in.
      have hloop : ∀ m, allocLoop space start flags i (m + 1) s = (false, s) := by
        intro m
        simp [allocLoop, halloc]
      rw [hloop n]
      refine ⟨h, Protects.refl, id, Draws.refl, fun _ _ _ _ _ => rfl, fun k hk sk hsk hne _ => ?_⟩
      cases k with
      | zero =>
        cases hsk
        exact absurd (by rw [halloc]) hne
      | succ k =>
        rw [hloop k] at hsk
        cases hsk
    have hne := h.pmm.address_ne hf
    by_cases hnull : NullEntry s space.root (pageVirt start i)
    · -- The entry is the null pointer: the page goes back, and the loop ends.
      have hmap := vmMapPage_null (s := { s with pmm := pmm }) hnull (f * pageSize) flags
      have hloop : ∀ m, allocLoop space start flags i (m + 1) s =
          (false, { s with pmm := pmmFreePage pmm (f * pageSize) }) := by
        intro m
        rw [allocLoop, halloc]
        dsimp only
        rw [if_neg hne, show u64 (start + i * 0x1000) = pageVirt start i from rfl, hmap]
        rfl
      rw [hloop n]
      have hok := h.giveBack hf hpmm hclear
      refine ⟨hok.1, ⟨fun _ _ => rfl, fun _ _ => rfl, fun _ _ _ _ _ he _ => he⟩, id,
        ⟨hok.2, fun _ _ _ hg => .inl hg, fun _ _ _ _ _ he => .inl he,
          (pmmFreePage_refCounts pmm _).trans hrefs, rfl⟩, fun _ _ _ _ _ => rfl,
        fun k hk sk hsk _ hnull' => ?_⟩
      cases k with
      | zero =>
        cases hsk
        exact absurd hnull hnull'
      | succ k =>
        rw [hloop k] at hsk
        cases hsk
    · have hfree := h.pmm.counted.freePages_eq
      have hpos : 0 < (pmmClearPages s.pmm).card := card_pos.mpr ⟨f, hf⟩
      have hfirst : rangeMissing s space.root start i 1 =
          missingTables s space.root (pageVirt start i) := by
        simp [rangeMissing]
      have hroom₀ := hroom 0 (succ_pos n)
        (by simp only [rangeMissing, range_zero, biUnion_empty, card_empty]; omega)
      rw [hfirst, hfree] at hroom₀
      have huser₀ : UserVirt (pageVirt start i) := huser 0 (succ_pos n)
      obtain ⟨s', hmap, hok, hprotects, honce, hdraws, hmaps⟩ :=
        h.allocRound hflags huser₀ hnull hf hpmm hclear hrefs (by omega)
      have hloop : ∀ m, allocLoop space start flags i (m + 1) s =
          allocLoop space start flags (i + 1) m s' := by
        intro m
        rw [allocLoop, halloc]
        dsimp only
        rw [if_neg hne, show u64 (start + i * 0x1000) = pageVirt start i from rfl, hmap]
        rfl
      have hshift : ∀ k, i + (k + 1) = i + 1 + k := fun k => by omega
      have huser' : ∀ k < n, UserVirt (pageVirt start (i + 1 + k)) := fun k hk =>
        hshift k ▸ huser (k + 1) (by omega)
      have hroom' : AllocRoom s' space.root start (i + 1) n := by
        intro k hk hlt
        -- The pages taken by this round, in both counts.
        have hcard := hmaps.card
        have hmissing : missingTables { s with pmm := pmm } space.root (pageVirt start i) =
            missingTables s space.root (pageVirt start i) := missing_congr rfl
        dsimp only at hcard
        rw [hclear, hmissing, card_erase_of_mem hf] at hcard
        have hfree' := hok.pmm.counted.freePages_eq
        have hcount : ∀ m ≤ n, (rangeMissing s space.root start i (m + 1)).card =
            (missingTables s space.root (pageVirt start i)).card +
              (rangeMissing s' space.root start (i + 1) m).card := by
          intro m hm
          obtain ⟨hunion, hdisjoint⟩ := hmaps.rangeMissing_eq (n := m) fun k hk => huser k (by omega)
          have hrange : rangeMissing { s with pmm := pmm } space.root start i (m + 1) =
              rangeMissing s space.root start i (m + 1) :=
            biUnion_congr rfl fun _ _ => missing_congr rfl
          rw [hmissing, hrange] at hunion
          rw [hmissing] at hdisjoint
          rw [hunion, card_union_of_disjoint hdisjoint]
        have hnext := hroom (k + 1) (by omega)
        rw [hcount k (by omega), hcount (k + 1) (by omega)] at hnext
        omega
      have hrest := ih hok huser' hroom'
      have hpage : s'.virtPage space.root (pageVirt start i) =
          some (pageEntry (f * pageSize) flags) := by
        rw [Vm.virtPage, hmaps.pages _ _ (lowPath_virtPath huser₀) rfl, if_pos ⟨rfl, rfl⟩]
      rw [hloop n]
      refine ⟨hrest.ok, hprotects.trans hrest.protects, fun h => hrest.once (honce h),
        hdraws.trans hrest.draws, fun q j hq hlen hother => ?_, fun k hk sk hsk hne hnull' => ?_⟩
      · have hself := hother 0 (succ_pos n)
        rw [add_zero] at hself
        rw [hrest.others q j hq hlen fun k hk => hshift k ▸ hother (k + 1) (by omega),
          hmaps.pages q j hq hlen, if_neg hself]
        rfl
      cases k with
      | zero =>
        cases hsk
        rw [halloc]
        refine ⟨(hrest.others _ _ (lowPath_virtPath huser₀) rfl ?_).trans hpage,
          fun hafter => hnull ((hdraws.trans hrest.draws).null h.pmm huser₀ hafter)⟩
        rintro k hk ⟨hpath, hlast⟩
        refine pageVirt_ne (fun m hm hmk => ?_) (show i < i + 1 + k by omega) hpath hlast
        obtain ⟨d, rfl⟩ := Nat.exists_eq_add_of_le hm
        exact huser d (by omega)
      | succ k =>
        rw [hloop k] at hsk
        rw [hshift k] at hnull' ⊢
        exact hrest.pages k (by omega) sk hsk hne hnull'

/-! ## Unmapping pages -/

/-- Clearing a page entry. -/
theorem SpaceOk.unmap (h : SpaceOk foreign s root) (hs' : TreeOk s' root)
    (htables : ∀ q, LowPath q → s'.tableAt root q = s.tableAt root q)
    (hpages : ∀ q j e, LowPath q → q.length = 3 → s'.pageAt root q j = some e →
      s.pageAt root q j = some e)
    (hpmm : s'.pmm = s.pmm) : SpaceOk foreign s' root where
  toTreeOk := hs'
  pageUsed := fun q i e hq hlen he => hpmm ▸ h.pageUsed q i e hq hlen (hpages q i e hq hlen he)
  pageTable := fun q i e q' hq hlen he hq' =>
    htables q' hq' ▸ h.pageTable q i e q' hq hlen (hpages q i e hq hlen he) hq'
  foreignUsed := hpmm ▸ h.foreignUsed
  foreignTable := fun f hf q hq => htables q hq ▸ h.foreignTable f hf q hq

/-- Fewer pages. -/
theorem PagesOnce.mono (h : PagesOnce s root)
    (hpages : ∀ q j e, LowPath q → q.length = 3 → s'.pageAt root q j = some e →
      s.pageAt root q j = some e) : PagesOnce s' root :=
  fun q i e q' i' e' hq hlen hq' hlen' he he' =>
    h q i e q' i' e' hq hlen hq' hlen' (hpages q i e hq hlen he) (hpages q' i' e' hq' hlen' he')

/-- From `s` to `s'` pages have been unmapped, and the tables are the same. -/
structure Unmaps (root : Nat) (s s' : Vm) : Prop where
  tables : ∀ q, LowPath q → s'.tableAt root q = s.tableAt root q
  pages : ∀ q j e, LowPath q → q.length = 3 → s'.pageAt root q j = some e →
    s.pageAt root q j = some e
  kernel : s'.kernelPml4 = s.kernelPml4

theorem Unmaps.refl : Unmaps root s s := ⟨fun _ _ => rfl, fun _ _ _ _ _ he => he, rfl⟩

theorem Unmaps.trans (h : Unmaps root s s') (h' : Unmaps root s' s'') : Unmaps root s s'' :=
  ⟨fun q hq => (h'.tables q hq).trans (h.tables q hq),
    fun q j e hq hlen he => h.pages q j e hq hlen (h'.pages q j e hq hlen he),
    h'.kernel.trans h.kernel⟩

/-- One round of `vm_free_pages` on a page that is mapped. -/
theorem freeRound_of_some {t : Nat} (hnull : ¬ NullEntry s space.root virt) (ht : s.tableAt space.root (virtPath virt) = some t)
    (hpage : s.virtPage space.root virt = some e) :
    freeRound s space virt = if entryAddr e = 0 then
        { s with mem := writeEntry s.mem t (tableIndex virt 0) 0 }
      else
        { s with
          mem := writeEntry s.mem t (tableIndex virt 0) 0
          pmm := pmmFreePage s.pmm (entryAddr e) } := by
  obtain ⟨t', ht', hentry, hpresent⟩ := Vm.virtPage_eq_some hpage
  obtain rfl : t = t' := some.inj (ht.symm.trans ht')
  rw [freeRound, vmGetPhysical_eq hnull, hpage, vmUnmapPage_of_some hnull ht (hentry ▸ hpresent)]
  rfl

theorem freeRound_null (hnull : NullEntry s space.root virt) : freeRound s space virt = s := by
  rw [freeRound, vmGetPhysical, vmUnmapPage, getPte_null hnull]
  rfl

/-- One round of `vm_free_pages` on a page of the process itself. -/
protected theorem SpaceOk.freeRound (h : SpaceOk foreign s space.root) (honce : PagesOnce s space.root)
    (huser : UserVirt virt)
    (hown : ∀ e, s.virtPage space.root virt = some e → entryFrame e ∉ foreign) :
    SpaceOk foreign (freeRound s space virt) space.root ∧
      Protects foreign space.root s (freeRound s space virt) ∧
      Unmaps space.root s (freeRound s space virt) := by
  by_cases hnull : NullEntry s space.root virt
  · rw [freeRound_null hnull]
    exact ⟨h, Protects.refl, Unmaps.refl⟩
  cases hpage : s.virtPage space.root virt with
  | none =>
    have hround : freeRound s space virt = s := by
      rw [freeRound, vmGetPhysical_eq hnull, hpage, vmUnmapPage_of_none hpage]
      rfl
    rw [hround]
    exact ⟨h, Protects.refl, Unmaps.refl⟩
  | some e =>
    obtain ⟨t, ht, -, -⟩ := Vm.virtPage_eq_some hpage
    have hpath := lowPath_virtPath huser
    set s₁ : Vm := { s with mem := writeEntry s.mem t (tableIndex virt 0) 0 } with hs₁
    obtain ⟨htree, htables, hpages⟩ := h.toTreeOk.writePage hpath rfl ht hs₁
    -- What is left are the other pages, and they have other frames.
    have hleft : ∀ q j e', LowPath q → q.length = 3 → s₁.pageAt space.root q j = some e' →
        s.pageAt space.root q j = some e' ∧ entryFrame e' ≠ entryFrame e := by
      intro q j e' hq hlen he'
      rw [hpages q j hq hlen] at he'
      split at he'
      · rw [show presentEntry 0 = none by decide] at he'
        cases he'
      · rename_i hslot
        refine ⟨he', fun hsame => hslot ?_⟩
        exact honce q j e' _ _ e hq hlen hpath rfl he' hpage hsame
    have hok₁ : SpaceOk foreign s₁ space.root :=
      h.unmap htree htables (fun q j e' hq hlen he' => (hleft q j e' hq hlen he').1) rfl
    have hframes : ∀ f, f ≠ t → s₁.mem f = s.mem f := fun f hf => Function.update_of_ne hf _ _
    have hprotects : Protects foreign space.root s s₁ := by
      refine ⟨fun f hf => hframes f ?_, fun i _ => ?_, fun q j e' hq hlen he' _ =>
        (hleft q j e' hq hlen he').1⟩
      · rintro rfl
        exact h.foreignTable f hf _ hpath ht
      · have hroot : space.root ≠ t := h.toTreeOk.ne_of_last (q := []) (j := 0) hpath rfl ht
          ⟨by simp, by simp⟩ Vm.tableAt_nil
        rw [hframes _ hroot]
    have hround : freeRound s space virt = if entryAddr e = 0 then s₁
        else { s₁ with pmm := pmmFreePage s₁.pmm (entryAddr e) } :=
      freeRound_of_some hnull ht hpage
    have hunmaps : Unmaps space.root s s₁ :=
      ⟨htables, fun q j e' hq hlen he' => (hleft q j e' hq hlen he').1, rfl⟩
    rw [hround]
    split
    · exact ⟨hok₁, hprotects, hunmaps⟩
    rename_i hnonzero
    have hframe : entryAddr e / pageSize = entryFrame e := rfl
    refine ⟨hok₁.givePage ?_ ?_ ?_ ?_, ⟨hprotects.frames, hprotects.upper, hprotects.pages⟩,
      ⟨hunmaps.tables, hunmaps.pages, hunmaps.kernel⟩⟩
    · intro hzero
      rw [entryAddr_eq, ← hframe, hzero] at hnonzero
      simp at hnonzero
    · exact fun q j e' hq hlen he' => (hleft q j e' hq hlen he').2
    · exact fun q hq => htables q hq ▸ h.pageTable _ _ e q hpath rfl hpage hq
    · exact hown e hpage

theorem SpaceOk.freeLoop (h : SpaceOk foreign s space.root) (honce : PagesOnce s space.root)
    (huser : ∀ k < n, UserVirt (pageVirt start (i + k)))
    (hown : ∀ k < n, ∀ e, s.virtPage space.root (pageVirt start (i + k)) = some e →
      entryFrame e ∉ foreign) :
    SpaceOk foreign (freeLoop space start i n s) space.root ∧
      Protects foreign space.root s (freeLoop space start i n s) ∧
      PagesOnce (freeLoop space start i n s) space.root ∧
      Unmaps space.root s (freeLoop space start i n s) := by
  induction n generalizing i s with
  | zero => exact ⟨h, Protects.refl, honce, Unmaps.refl⟩
  | succ n ih =>
    have hshift : ∀ k, i + 1 + k = i + (k + 1) := fun k => by omega
    obtain ⟨hok, hprotects, hunmaps⟩ :=
      h.freeRound honce (huser 0 (succ_pos n)) (hown 0 (succ_pos n))
    obtain ⟨hok', hprotects', honce', hunmaps'⟩ := ih hok (honce.mono hunmaps.pages)
      (fun k hk => hshift k ▸ huser (k + 1) (by omega))
      (fun k hk e he => by
        rw [hshift] at he
        refine hown (k + 1) (by omega) e (hunmaps.pages _ _ e ?_ rfl he)
        exact lowPath_virtPath (huser (k + 1) (by omega)))
    exact ⟨hok', hprotects.trans hprotects', honce', hunmaps.trans hunmaps'⟩

/-! ## Runs of syscalls -/

/-- The current process: the machine and its address space. -/
structure VmProc where
  vm : Vm
  space : VmSpace

inductive VmCall where
  | brk (addr : Nat)
  | mmap (addr size : Nat) (flags : BitVec 64)
  | munmap (addr size : Nat)

def vmStep (s : VmProc) : VmCall → Option VmProc
  | .brk addr => some { s with space := (sysBrk s.space addr).2 }
  | .mmap _ size flags =>
    match sysMmap s.vm s.space size flags with
    | (_, vm, space) => some ⟨vm, space⟩
  | .munmap addr size => some { s with vm := (sysMunmap s.vm s.space addr size).2 }

/-- A request for pages that stays in the user half, asks for flags only, and is
    not cut short in the middle of creating tables. -/
def MmapOk (s : VmProc) (size : Nat) (flags : BitVec 64) : Prop :=
  (∀ k < pageCount size, flags &&& addrMask = 0 ∧ UserVirt (pageVirt s.space.heapEnd k)) ∧
    AllocRoom s.vm s.space.root s.space.heapEnd 0 (pageCount size)

/-- The condition on a call. A range that is unmapped lies in the user half, and the
    pages mapped there are the process's own. -/
def VmCall.Ok (foreign : Finset Nat) (s : VmProc) : VmCall → Prop
  | .brk _ => True
  | .mmap _ size flags => MmapOk s size flags
  | .munmap addr size => ∀ k < pageCount size, UserVirt (pageVirt addr k) ∧
      ∀ e ∈ s.vm.virtPage s.space.root (pageVirt addr k), entryFrame e ∉ foreign

/-- The table an entry leads to, for the processor: a huge page is not a table. -/
def cpuNext (e : BitVec 64) : Option Nat :=
  if present e && e &&& vmFlagHuge == 0 then some (entryFrame e) else none

/-- A path of at most three indices into the kernel half. -/
def UpPath (p : List (Fin 512)) : Prop := p.length ≤ 3 ∧ ∀ i ∈ p.head?, 256 ≤ i.val

/-- The tables of the kernel half below `root` are foreign. -/
def KernelIn (foreign : Finset Nat) (m : PageMem) (root : Nat) : Prop :=
  ∀ p t, UpPath p → p ≠ [] → Radix.tableAt cpuNext m root p = some t → t ∈ foreign

/-- What the syscalls of a process must not break, compared with the start of the
    run: no entry of the kernel half appears, changes or disappears; foreign frames
    keep their contents, are not handed back and are not mapped; and no page of the
    process is one of its own tables. -/
structure Protected (foreign : Finset Nat) (s₀ s : VmProc) : Prop where
  root : s.space.root = s₀.space.root
  kernel : ∀ p i, p.length ≤ 3 → (∀ j ∈ (p ++ [i]).head?, 256 ≤ j.val) →
    Radix.entryAt cpuNext s.vm.mem s₀.space.root (p ++ [i]) =
      Radix.entryAt cpuNext s₀.vm.mem s₀.space.root (p ++ [i])
  contents : ∀ f ∈ foreign, s.vm.mem f = s₀.vm.mem f
  used : ∀ f ∈ foreign, f ∉ pmmClearPages s.vm.pmm
  mapped : ∀ q i e, LowPath q → q.length = 3 → s.vm.pageAt s₀.space.root q i = some e →
    entryFrame e ∈ foreign → s₀.vm.pageAt s₀.space.root q i = some e
  tables : ∀ q i e q', LowPath q → q.length = 3 → s.vm.pageAt s₀.space.root q i = some e →
    LowPath q' → s.vm.tableAt s₀.space.root q' ≠ some (entryFrame e)

/-- Each page that `sys_mmap` maps is the one `pmm_alloc_page` returned in its round. At a null
    entry it maps nothing. -/
def MmapExact (s : VmProc) (size : Nat) (flags : BitVec 64) : Prop :=
  ∀ k < pageCount size, ∀ sk,
    allocLoop s.space s.space.heapEnd flags 0 k s.vm = (true, sk) →
    (pmmAllocPage sk.pmm).1 ≠ 0 → ¬ NullEntry sk s.space.root (pageVirt s.space.heapEnd k) →
    vmGetPhysical (sysMmap s.vm s.space size flags).2.1 s.space (pageVirt s.space.heapEnd k) =
      (pmmAllocPage sk.pmm).1

variable {s₀ t : VmProc} {call : VmCall} {size : Nat}

theorem vmAllocPages_eq (s : Vm) (space : VmSpace) (count : Nat) (flags : BitVec 64) :
    (vmAllocPages s space count flags).2.1 = (allocLoop space space.heapEnd flags 0 count s).2 ∧
      (vmAllocPages s space count flags).2.2.root = space.root := by
  rw [vmAllocPages]
  cases allocLoop space space.heapEnd flags 0 count s with
  | mk done s' => cases done <;> exact ⟨rfl, rfl⟩

theorem sysMmap_vm (s : Vm) (space : VmSpace) (hcount : 0 < pageCount size) :
    (sysMmap s space size flags).2.1 = (allocLoop space space.heapEnd flags 0 (pageCount size) s).2 := by
  have hsize : size ≠ 0 := by
    rintro rfl
    exact absurd hcount (by decide)
  rw [sysMmap, if_neg hsize]
  exact (vmAllocPages_eq s space (pageCount size) flags).1

theorem sysMmap_root (s : Vm) (space : VmSpace) :
    (sysMmap s space size flags).2.2.root = space.root := by
  rw [sysMmap]
  split
  · rfl
  · exact (vmAllocPages_eq s space (pageCount size) flags).2

theorem sysMmap_empty (s : Vm) (space : VmSpace) (hcount : pageCount size = 0) :
    (sysMmap s space size flags).2.1 = s := by
  rw [sysMmap]
  split
  · rfl
  · rw [vmAllocPages, hcount]
    rfl

theorem MmapOk.allocLoop (hmmap : MmapOk t size flags) (h : SpaceOk foreign t.vm t.space.root)
    (hcount : n ≤ pageCount size) (hpos : 0 < n) :
    PagesAllocated foreign t.space t.space.heapEnd flags 0 n t.vm
      (allocLoop t.space t.space.heapEnd flags 0 n t.vm).2 := by
  refine h.allocLoop (hmmap.1 0 (by omega)).1 (fun k hk => ?_) fun k hk => hmmap.2 k (by omega)
  rw [zero_add]
  exact (hmmap.1 k (by omega)).2

theorem SpaceOk.mmap (h : SpaceOk foreign t.vm t.space.root)
    (honce : PagesOnce t.vm t.space.root) (hmmap : MmapOk t size flags) :
    SpaceOk foreign (sysMmap t.vm t.space size flags).2.1 t.space.root ∧
      Protects foreign t.space.root t.vm (sysMmap t.vm t.space size flags).2.1 ∧
      PagesOnce (sysMmap t.vm t.space size flags).2.1 t.space.root := by
  rcases Nat.eq_zero_or_pos (pageCount size) with hzero | hpos
  · rw [sysMmap_empty t.vm t.space hzero]
    exact ⟨h, Protects.refl, honce⟩
  · rw [sysMmap_vm t.vm t.space hpos]
    have halloc := hmmap.allocLoop h (le_refl _) hpos
    exact ⟨halloc.ok, halloc.protects, halloc.once honce⟩

theorem SpaceOk.munmap {addr : Nat} (h : SpaceOk foreign t.vm t.space.root)
    (honce : PagesOnce t.vm t.space.root) (hmunmap : (VmCall.munmap addr size).Ok foreign t) :
    SpaceOk foreign (sysMunmap t.vm t.space addr size).2 t.space.root ∧
      Protects foreign t.space.root t.vm (sysMunmap t.vm t.space addr size).2 ∧
      PagesOnce (sysMunmap t.vm t.space addr size).2 t.space.root := by
  rw [sysMunmap]
  split
  · exact ⟨h, Protects.refl, honce⟩
  have hrange : ∀ k < pageCount size, UserVirt (pageVirt addr (0 + k)) ∧
      ∀ e, t.vm.virtPage t.space.root (pageVirt addr (0 + k)) = some e →
        entryFrame e ∉ foreign := fun k hk => (zero_add k).symm ▸ hmunmap k hk
  obtain ⟨hok, hprotects, honce', -⟩ :=
    h.freeLoop honce (fun k hk => (hrange k hk).1) (fun k hk => (hrange k hk).2)
  exact ⟨hok, hprotects, honce'⟩

theorem SpaceOk.mmapExact (h : SpaceOk foreign t.vm t.space.root) (hmmap : MmapOk t size flags) :
    MmapExact t size flags := by
  intro k hk sk hsk hne hnull'
  have hpmm : PmmOk sk.pmm := by
    rcases Nat.eq_zero_or_pos k with rfl | hpos
    · cases hsk
      exact h.pmm
    · have halloc := hmmap.allocLoop h hk.le hpos
      rw [hsk] at halloc
      exact halloc.ok.pmm
  rw [← zero_add k] at hnull'
  obtain ⟨hpage, hnull⟩ := (hmmap.allocLoop h (le_refl _) (by omega)).pages k hk sk hsk hne hnull'
  rw [zero_add] at hpage hnull
  rw [sysMmap_vm t.vm t.space (by omega), vmGetPhysical_eq hnull, hpage, map_some, getD_some]
  rcases hpmm.allocPage with ⟨-, halloc⟩ | ⟨f, hf, pmm, halloc, -⟩
  · exact absurd (by rw [halloc]) hne
  · rw [halloc]
    exact entryAddr_pageEntry (lt_trans (hpmm.lt hf) (by decide)) (hmmap.1 0 (by omega)).1

/-- The invariant of a run that starts in `s₀`. -/
structure ProcInv (foreign : Finset Nat) (s₀ t : VmProc) : Prop where
  root : t.space.root = s₀.space.root
  space : SpaceOk foreign t.vm s₀.space.root
  once : PagesOnce t.vm s₀.space.root
  protects : Protects foreign s₀.space.root s₀.vm t.vm

theorem ProcInv.step (h : ProcInv foreign s₀ t) (hcall : call.Ok foreign t) :
    ∃ t', vmStep t call = some t' ∧ ProcInv foreign s₀ t' := by
  obtain ⟨hroot, hspace, honce, hprotects⟩ := h
  rw [← hroot] at hspace honce hprotects
  cases call with
  | brk addr =>
    have hbrk : (sysBrk t.space addr).2.root = t.space.root := by
      unfold sysBrk
      split
      · rfl
      · split <;> rfl
    exact ⟨_, rfl, hbrk.trans hroot, hroot ▸ hspace, hroot ▸ honce, hroot ▸ hprotects⟩
  | mmap addr size flags =>
    obtain ⟨hspace', hprotects', honce'⟩ := hspace.mmap honce hcall
    exact ⟨_, rfl, (sysMmap_root t.vm t.space).trans hroot, hroot ▸ hspace', hroot ▸ honce',
      hroot ▸ hprotects.trans hprotects'⟩
  | munmap addr size =>
    obtain ⟨hspace', hprotects', honce'⟩ := hspace.munmap honce hcall
    exact ⟨_, rfl, hroot, hroot ▸ hspace', hroot ▸ honce', hroot ▸ hprotects.trans hprotects'⟩

theorem upPath_closed : Radix.Closed UpPath := by
  rintro p i ⟨hlen, hup⟩
  refine ⟨by simp at hlen; omega, fun j hj => hup j ?_⟩
  cases p with
  | nil => cases hj
  | cons k p => exact hj

/-- The processor's walk through the kernel half sees only foreign rows and entries of
    the upper half of the top table. -/
theorem ProcInv.row_eq (h : ProcInv foreign s₀ t) (hkernel : KernelIn foreign s₀.vm.mem s₀.space.root)
    {p : List (Fin 512)} {i : Fin 512} {f : Nat} (hp : UpPath p)
    (hi : ∀ j ∈ (p ++ [i]).head?, 256 ≤ j.val)
    (hf : Radix.tableAt cpuNext s₀.vm.mem s₀.space.root p = some f) :
    t.vm.mem f i = s₀.vm.mem f i := by
  cases p with
  | nil =>
    cases hf
    exact h.protects.upper i (hi i rfl)
  | cons k p => rw [h.protects.frames f (hkernel _ f hp (List.cons_ne_nil k p) hf)]

theorem ProcInv.protected (h : ProcInv foreign s₀ t)
    (hkernel : KernelIn foreign s₀.vm.mem s₀.space.root) : Protected foreign s₀ t where
  root := h.root
  kernel := by
    intro p i hlen hi
    have hup : UpPath p := by
      refine ⟨hlen, fun j hj => hi j ?_⟩
      cases p with
      | nil => cases hj
      | cons k p => exact hj
    have htable : tableAt cpuNext t.vm.mem s₀.space.root p =
        tableAt cpuNext s₀.vm.mem s₀.space.root p := by
      refine tableAt_congr upPath_closed (fun q j f hq hf => ?_) hup
      rw [h.row_eq hkernel (upPath_closed q j hq) hq.2 hf]
    rw [entryAt_concat, entryAt_concat, htable]
    cases hf : tableAt cpuNext s₀.vm.mem s₀.space.root p with
    | none => rfl
    | some f => rw [map_some, map_some, h.row_eq hkernel hup hi hf]
  contents := h.protects.frames
  used := h.space.foreignUsed
  mapped := h.protects.pages
  tables := h.space.pageTable

/-! ## New processes -/

theorem NewSpace.spaceOk {s s' : Vm} (h : NewSpace s s' space)
    (hforeign : ∀ f ∈ foreign, f ∉ pmmClearPages s.pmm) : SpaceOk foreign s' space.root where
  toTreeOk := h.treeOk
  pageUsed := fun q i e hq hlen he => by
    rw [h.pageAt_eq_none hq hlen] at he
    cases he
  pageTable := fun q i e q' hq hlen he => by
    rw [h.pageAt_eq_none hq hlen] at he
    cases he
  foreignUsed := fun f hf hmem => hforeign f hf (mem_of_mem_erase (h.clear ▸ hmem))
  foreignTable := fun f hf q hq hqf => by
    rw [(h.tableAt_eq_some hq hqf).2] at hf
    exact hforeign _ hf h.fresh

theorem NewSpace.pagesOnce {s s' : Vm} (h : NewSpace s s' space) : PagesOnce s' space.root := by
  intro q i e q' i' e' hq hlen _ _ he
  rw [h.pageAt_eq_none hq hlen] at he
  cases he

/-- The kernel half of a new address space is the kernel's. -/
theorem NewSpace.kernelIn {s s' : Vm} (h : NewSpace s s' space)
    (hforeign : ∀ f ∈ foreign, f ∉ pmmClearPages s.pmm)
    (hkernel : KernelIn foreign s.mem (s.kernelPml4 / pageSize)) :
    KernelIn foreign s'.mem space.root := by
  intro p t hp hne ht
  cases p with
  | nil => exact absurd rfl hne
  | cons i p =>
    refine hkernel (i :: p) t hp hne ?_
    rw [tableAt_cons, h.row, if_pos (hp.2 i rfl)] at ht
    rw [tableAt_cons]
    cases hnext : cpuNext (s.mem (s.kernelPml4 / pageSize) i) with
    | none =>
      rw [hnext] at ht
      cases ht
    | some t' =>
      rw [hnext, bind_some] at ht
      rw [bind_some, ← ht]
      -- Below the first entry the walk stays in foreign rows.
      refine (tableAt_congr (D := fun q => UpPath (i :: q))
        (fun q j => upPath_closed (i :: q) j) (fun q j g hq hg => ?_) hp).symm
      have hmem : g ∈ foreign := by
        refine hkernel (i :: q) g (upPath_closed (i :: q) j hq) (List.cons_ne_nil i q) ?_
        rw [tableAt_cons, hnext]
        exact hg
      rw [h.others g fun heq => hforeign g hmem (heq ▸ h.fresh)]

/-- From any process whose kernel half is foreign: as long as mapped and unmapped
    ranges stay in the user half, mappings carry no address bits, creating tables
    does not exhaust memory and unmapped pages are the process's own, nothing foreign
    is mapped, changed or handed back in any state of the run, and every mapping is
    exactly of the page that the allocator returned for it. -/
theorem vm_protected (foreign : Finset Nat) (s₀ : VmProc) (hok : SpaceOk foreign s₀.vm s₀.space.root)
    (honce : PagesOnce s₀.vm s₀.space.root) (hkernel : KernelIn foreign s₀.vm.mem s₀.space.root) (calls : List VmCall)
    (hcalls : Run.AllOk vmStep (fun s call => call.Ok foreign s) s₀ calls) :
    Run.Always vmStep (fun s => Protected foreign s₀ s ∧
      ∀ size flags, MmapOk s size flags → MmapExact s size flags) s₀ calls := by
  have hstart : ProcInv foreign s₀ s₀ := ⟨rfl, hok, honce, Protects.refl⟩
  have hinv : Run.Always vmStep (ProcInv foreign s₀) s₀ calls :=
    Run.always_of_allOk (fun s call h hcall => h.step hcall) hstart hcalls
  refine hinv.mono fun s h => ⟨h.protected hkernel, fun size flags hmmap => ?_⟩
  have hspace : SpaceOk foreign s.vm s.space.root := h.root ▸ h.space
  exact hspace.mmapExact hmmap

instance (s : Vm) (root start i n : Nat) : Decidable (AllocRoom s root start i n) := by
  unfold AllocRoom
  infer_instance

instance (s : VmProc) (size : Nat) (flags : BitVec 64) : Decidable (MmapOk s size flags) :=
  inferInstanceAs (Decidable (_ ∧ _))

instance (foreign : Finset Nat) (s : VmProc) (call : VmCall) : Decidable (call.Ok foreign s) := by
  cases call <;> unfold VmCall.Ok <;> infer_instance

/-- A machine with 64 pages, of which 1 to 31 are free, and an empty kernel. -/
def smallVm : Vm where
  mem := fun _ _ => 0
  pmm :=
    { bitmap := fun _ => 0xFFFFFFFF00000001
      bitmapStart := 0
      bitmapSize := 1
      totalPages := 64
      freePages := 31
      refCounts := fun _ => 0
      refStart := 0
      refEnd := 0 }
  kernelPml4 := 0

/-- The space that `vm_create_space` makes there. -/
def smallSpace : VmSpace where
  pml4 := 0x1000
  codeStart := 0x400000
  codeEnd := 0x400000
  dataStart := 0x800000
  dataEnd := 0x800000
  heapStart := 0x10000000
  heapEnd := 0x10000000
  stackTop := 0x7FFFFFFFFFFF
  stackBottom := 0x7FFFFFFFFFFF

theorem smallVm_pmm : PmmOk smallVm.pmm := by
  refine ⟨⟨by decide, by decide, by decide, by decide⟩, by decide, by decide⟩

theorem smallVm_create : vmCreateSpace smallVm = (some smallSpace, (vmCreateSpace smallVm).2) :=
  Prod.ext (by decide) rfl

def smallProc : VmProc := ⟨(vmCreateSpace smallVm).2, smallSpace⟩

theorem smallVm_kernelIn : KernelIn {0} smallVm.mem 0 := by
  intro p t _ hne ht
  cases p with
  | nil => exact absurd rfl hne
  | cons i p =>
    have hzero : cpuNext (smallVm.mem 0 i) = none := show cpuNext 0 = none by decide
    rw [tableAt_cons, hzero] at ht
    cases ht

theorem smallProc_new : NewSpace smallVm smallProc.vm smallSpace :=
  vmCreateSpace_spec smallVm_pmm (by decide) smallVm_create

theorem smallVm_foreign : ∀ f ∈ ({0} : Finset Nat), f ∉ pmmClearPages smallVm.pmm := by decide

/-- Two pages mapped at a moved break. -/
theorem vm_protected_small : Run.Always vmStep (fun s => Protected {0} smallProc s ∧
      ∀ size flags, MmapOk s size flags → MmapExact s size flags) smallProc
      [.brk 0x20000000, .mmap 0 8192 6] :=
  vm_protected {0} smallProc (smallProc_new.spaceOk smallVm_foreign) smallProc_new.pagesOnce
    (smallProc_new.kernelIn smallVm_foreign smallVm_kernelIn) _ (by decide)

/-- The break may point into the kernel half, and the next mapping then creates tables
    there. -/
theorem vm_not_protected : ¬ Run.Always vmStep (fun s => Protected {0} smallProc s ∧
      ∀ size flags, MmapOk s size flags → MmapExact s size flags) smallProc
      [.brk 0xFFFF800000000000, .mmap 0 4096 6] := by
  rintro ⟨-, s₁, hbrk, -, s₂, hmmap, hprotected, -⟩
  have hentry := hprotected.kernel [] 256 (by decide) (by rintro j ⟨⟩; exact Nat.le_refl 256)
  have hbefore : smallProc.vm.mem smallProc.space.root 256 = 0 := by decide
  have hafter : (Run.run vmStep smallProc [.brk 0xFFFF800000000000, .mmap 0 4096 6]).map
      (fun s => s.vm.mem smallProc.space.root 256) = some 0x3007 := by
    decide
  rw [Run.run_cons, hbrk, bind_some, Run.run_cons, hmmap, bind_some, Run.run_nil,
    map_some, some.injEq] at hafter
  rw [List.nil_append, entryAt, entryAt, some.injEq, hbefore, hafter] at hentry
  exact absurd hentry (by decide)

end OpenSys
