-- SUMMARY: Mapping and unmapping user pages as updates of a finite map.
import OpenSys.Process.VmProtect

/-!
# The map of user pages

Bits 12 to 47 of a virtual address are its page number, and the four levels of tables are a map
from page numbers to physical pages: as long as the allocator supplies the tables, a sequence of
`vm_map_page` and `vm_unmap_page` is a sequence of updates of that map. `get_pte` does not look at
what the allocator returned, so without a page it clears page 0 and links it as a table. When that
is a last table, its first entry is the null pointer, and the address it belongs to cannot be
mapped any more.
-/

namespace OpenSys

open Run Function BitVec

variable {s s' : Vm} {space : VmSpace} {virt phys : Nat} {flags : BitVec 64}

/-- Bits 12 to 47 of an address. -/
def pageNumber (virt : Nat) : Nat := virt / 4096 % 2 ^ 36

/-- The address bits of a physical address, as an entry holds them. -/
def physPage (phys : Nat) : Nat := (BitVec.ofNat 64 phys &&& addrMask).toNat

/-- Two addresses have the same entry exactly when they have the same page number. -/
theorem same_entry_iff {v w : Nat} :
    (virtPath v = virtPath w ∧ tableIndex v 0 = tableIndex w 0) ↔ pageNumber v = pageNumber w := by
  refine ⟨fun h => page_eq_of_indices h.1 h.2, fun h => ?_⟩
  simp only [virtPath, List.cons.injEq, and_true, Fin.ext_iff, tableIndex_val]
  unfold pageNumber at h
  omega

theorem virtPage_congr {v w : Nat} (h : pageNumber v = pageNumber w) :
    s.virtPage space.root v = s.virtPage space.root w := by
  obtain ⟨hpath, hlast⟩ := same_entry_iff.mpr h
  rw [Vm.virtPage, Vm.virtPage, hpath, hlast]

theorem physPage_pageEntry (phys : Nat) (hflags : flags &&& addrMask = 0) :
    entryAddr (pageEntry phys flags) = physPage phys := by
  rw [entryAddr, physPage, pageEntry, BitVec.or_assoc, BitVec.and_comm,
    BitVec.and_or_distrib_left, BitVec.and_or_distrib_left, BitVec.and_comm addrMask flags, hflags,
    BitVec.and_comm, BitVec.and_assoc, BitVec.and_self]
  exact congrArg BitVec.toNat BitVec.or_zero

/-! ## The law -/

inductive MapCall where
  | map (virt phys : Nat) (flags : BitVec 64)
  | unmap (virt : Nat)

/-- The machine, and the map that its calls have built. -/
structure Mapped where
  vm : Vm
  pages : Nat → Option Nat

def mapStep (space : VmSpace) (t : Mapped) : MapCall → Option Mapped
  | .map virt phys flags => some ⟨(vmMapPage t.vm space virt phys flags).2,
      update t.pages (pageNumber virt) (some (physPage phys))⟩
  | .unmap virt => some ⟨(vmUnmapPage t.vm space virt).2, update t.pages (pageNumber virt) none⟩

/-- The call is about a user address, with flags that are no address bits, and the allocator has a
page for each table that is missing. -/
def MapCall.Ok (space : VmSpace) (t : Mapped) : MapCall → Prop
  | .map virt _ flags => UserVirt virt ∧ flags &&& addrMask = 0 ∧
      (missingTables t.vm space.root virt).card ≤ (pmmClearPages t.vm.pmm).card
  | .unmap virt => UserVirt virt

instance MapCall.decidableOk (space : VmSpace) (t : Mapped) (call : MapCall) : Decidable (call.Ok space t) := by
  cases call <;> unfold MapCall.Ok <;> infer_instance

/-- What a space maps to begin with. -/
def Mapped.start (s : Vm) (space : VmSpace) : Mapped :=
  ⟨s, fun n => (s.virtPage space.root (n * 4096)).map entryAddr⟩

/-- Look-ups and refusals are those of the map. -/
structure MapLaw (space : VmSpace) (t : Mapped) : Prop where
  physical : ∀ virt, UserVirt virt →
    vmGetPhysical t.vm space virt = (t.pages (pageNumber virt)).getD 0
  unmap : ∀ virt, UserVirt virt →
    (vmUnmapPage t.vm space virt).1 = if t.pages (pageNumber virt) = none then -1 else 0

structure MapInv (space : VmSpace) (t : Mapped) : Prop extends TreeOk t.vm space.root where
  nonnull : ∀ virt, UserVirt virt → ¬ NullEntry t.vm space.root virt
  pages : ∀ virt, UserVirt virt →
    (t.vm.virtPage space.root virt).map entryAddr = t.pages (pageNumber virt)

theorem MapInv.law {t : Mapped} (h : MapInv space t) : MapLaw space t where
  physical virt hu := by rw [vmGetPhysical_eq (h.nonnull virt hu), h.pages virt hu]
  unmap virt hu := by
    rw [← h.pages virt hu]
    cases hpage : t.vm.virtPage space.root virt with
    | none => simp [vmUnmapPage_of_none hpage]
    | some e =>
      obtain ⟨f, ht, hentry, hpresent⟩ := Vm.virtPage_eq_some hpage
      simp [vmUnmapPage_of_some (h.nonnull virt hu) ht (hentry ▸ hpresent)]

/-- One entry of the map is replaced. -/
theorem MapInv.update {t : Mapped} {e : Option (BitVec 64)} (h : MapInv space t)
    (hs' : TreeOk s' space.root)
    (hnull : ∀ v, UserVirt v → NullEntry s' space.root v → NullEntry t.vm space.root v)
    (hpages : ∀ v, UserVirt v → s'.virtPage space.root v =
      if virtPath v = virtPath virt ∧ tableIndex v 0 = tableIndex virt 0 then e
      else t.vm.virtPage space.root v) :
    MapInv space ⟨s', update t.pages (pageNumber virt) (e.map entryAddr)⟩ where
  toTreeOk := hs'
  nonnull v hv hnull' := h.nonnull v hv (hnull v hv hnull')
  pages v hv := by
    dsimp only
    rw [hpages v hv, update_apply]
    by_cases hsame : pageNumber v = pageNumber virt
    · rw [if_pos (same_entry_iff.mpr hsame), if_pos hsame]
    · rw [if_neg (same_entry_iff.not.mpr hsame), if_neg hsame]
      exact h.pages v hv

/-- A new table is not at address 0. -/
theorem Maps.null {e : BitVec 64} {v : Nat} (h : Maps space.root s s' virt e) (hpmm : PmmOk s.pmm)
    (hv : UserVirt v) (hnull : NullEntry s' space.root v) : NullEntry s space.root v := by
  rcases h.table_cases (lowPath_virtPath hv) hnull.1 with hold | hzero
  · exact ⟨hold, hnull.2⟩
  · exact absurd hzero hpmm.zero

theorem MapInv.step {t : Mapped} {call : MapCall} (h : MapInv space t) (hok : call.Ok space t) :
    ∃ t', mapStep space t call = some t' ∧ MapInv space t' := by
  cases call with
  | map virt phys flags =>
    obtain ⟨hu, hflags, hroom⟩ := hok
    obtain ⟨s', hmap, hmaps⟩ := h.toTreeOk.mapPage phys flags hu (h.nonnull virt hu) hroom
    refine ⟨_, rfl, ?_⟩
    rw [hmap, ← physPage_pageEntry phys hflags]
    exact h.update hmaps.ok (fun v hv => hmaps.null h.pmm hv)
      fun v hv => hmaps.pages _ _ (lowPath_virtPath hv) rfl
  | unmap virt =>
    refine ⟨_, rfl, ?_⟩
    cases hpage : t.vm.virtPage space.root virt with
    | none =>
      rw [vmUnmapPage_of_none hpage]
      refine h.update (e := none) h.toTreeOk (fun _ _ hnull => hnull) fun v _ => ?_
      split_ifs with hsame
      · rw [Vm.virtPage, hsame.1, hsame.2]
        exact hpage
      · rfl
    | some e =>
      obtain ⟨f, ht, hentry, hpresent⟩ := Vm.virtPage_eq_some hpage
      obtain ⟨htree, htables, hpages⟩ := h.toTreeOk.writePage (e := 0) (i := tableIndex virt 0)
        (lowPath_virtPath hok) rfl ht rfl
      rw [vmUnmapPage_of_some (h.nonnull virt hok) ht (hentry ▸ hpresent)]
      exact h.update (e := none) htree
        (fun v hv hnull => ⟨htables _ (lowPath_virtPath hv) ▸ hnull.1, hnull.2⟩)
        fun v hv => hpages _ _ (lowPath_virtPath hv) rfl

/-- No table is missing above a table that is there. -/
theorem missingTables_eq_empty {t : Nat} (ht : s.tableAt space.root (virtPath virt) = some t) :
    missingTables s space.root virt = ∅ := by
  refine Finset.eq_empty_of_forall_notMem fun q hq => ?_
  obtain ⟨hnone, n, -, rfl⟩ := mem_missingTables.mp hq
  rw [← List.take_append_drop (n + 1) (virtPath virt), Vm.tableAt, Radix.tableAt_append] at ht
  rw [show Radix.tableAt entryNext s.mem space.root _ = none from hnone] at ht
  cases ht

/-- In a space whose user tables form a tree, and while the allocator supplies the tables, mapping
and unmapping user pages are the updates of a map (look-ups return its latest value or 0, and
exactly the pages without a value cannot be unmapped) in every run, exactly when no entry of a user
page is at address 0. -/
theorem user_map_law_iff (space : VmSpace) (s : Vm) (h : TreeOk s space.root) :
    (∀ calls, AllOk (mapStep space) (MapCall.Ok space) (Mapped.start s space) calls →
      Always (mapStep space) (MapLaw space) (Mapped.start s space) calls) ↔
    ∀ virt, UserVirt virt → ¬ NullEntry s space.root virt := by
  refine ⟨fun hlaw virt hu hnull => ?_, fun hnonnull calls hok => ?_⟩
  · -- The page is mapped at the null entry, and not found there.
    have hcall : (MapCall.map virt 0x1000 0).Ok space (Mapped.start s space) :=
      ⟨hu, by decide, by rw [Mapped.start, missingTables_eq_empty hnull.1]; exact Nat.zero_le _⟩
    obtain ⟨-, t, hstep, hlast⟩ := hlaw [.map virt 0x1000 0] ⟨hcall, fun _ _ => trivial⟩
    have hphysical := MapLaw.physical (show MapLaw space t from hlast) virt hu
    obtain rfl := Option.some.inj hstep
    dsimp only [Mapped.start] at hphysical
    rw [vmMapPage_null hnull, vmGetPhysical, getPte_null hnull, update_self] at hphysical
    have hzero : 0 = physPage 0x1000 := hphysical
    exact absurd hzero (by decide)
  · have hstart : MapInv space (Mapped.start s space) := by
      refine ⟨h, hnonnull, fun virt _ => congrArg (Option.map entryAddr) (virtPage_congr ?_)⟩
      unfold pageNumber
      omega
    exact (always_of_allOk (fun t call ht hcall => ht.step hcall) hstart hok).mono
      fun t ht => ht.law

/-- A page mapped, mapped again elsewhere, another one next to it, and the first one unmapped. -/
theorem user_map_law_remapped : Always (mapStep smallSpace) (MapLaw smallSpace)
    (Mapped.start smallProc.vm smallSpace)
    [.map 0x10000123 0x5000 6, .map 0x10000000 0x6000 6, .map 0x10001000 0x7000 6,
      .unmap 0x10000000] :=
  (user_map_law_iff smallSpace smallProc.vm smallProc_new.treeOk).mpr
    (fun _ hu => (smallProc_new.tablesNonzero smallVm_pmm).not_null hu) _ (by decide)

/-! ## Without pages for the tables -/

/-- On the way down a table is missing and the allocator returns 0 for it. -/
def Starves : List (Fin 512) → Vm → Nat → Prop
  | [], _, _ => False
  | i :: path, s, table =>
    (present (s.mem table i) = false ∧ (pmmAllocPage s.pmm).1 = 0) ∨
      ∃ next, (nextTable true s table i).1 = some next ∧
        Starves path (nextTable true s table i).2 next

/-- The frames that `get_pte` writes to on the way down: a new table is cleared, then linked. -/
def walkStores : List (Fin 512) → Vm → Nat → List Nat
  | [], _, _ => []
  | i :: path, s, table =>
    let stores := if present (s.mem table i) then []
      else [(pmmAllocPage s.pmm).1 / pageSize, table]
    match nextTable true s table i with
    | (none, _) => stores
    | (some next, s) => stores ++ walkStores path s next

/-- The frames that `vm_map_page` writes to. -/
def mapStores (s : Vm) (space : VmSpace) (virt : Nat) : List Nat :=
  walkStores (virtPath virt) s space.root ++
    ((getPte s space.root virt true).1.map Prod.fst).toList

/-- `vm_map_page` has failed and left the mappings and page 0 alone. -/
structure MapRefused (s : Vm) (space : VmSpace) (virt : Nat) (r : Int × Vm) : Prop where
  result : r.1 = -1
  mappings : ∀ v e, s.virtPage space.root v = some e → r.2.virtPage space.root v = some e
  unwritten : 0 ∉ mapStores s space virt
  unlinked : ∀ t i, entryNext (r.2.mem t i) = some 0 → entryNext (s.mem t i) = some 0

/-- Where the allocator has no page, page 0 is cleared. -/
theorem Starves.stores {path : List (Fin 512)} {table : Nat} (h : Starves path s table) :
    0 ∈ walkStores path s table := by
  induction path generalizing s table with
  | nil => exact h.elim
  | cons i path ih =>
    rw [walkStores]
    rcases h with ⟨habsent, hzero⟩ | ⟨next, hnext, hrest⟩
    · have hfirst : 0 ∈ if present (s.mem table i) then []
          else [(pmmAllocPage s.pmm).1 / pageSize, table] := by
        simp [habsent, hzero]
      split
      · exact hfirst
      · exact List.mem_append_left _ hfirst
    · split
      · next heq =>
        rw [heq] at hnext
        cases hnext
      · next next' s' heq =>
        rw [heq] at hnext hrest
        cases hnext
        exact List.mem_append_right _ (ih hrest)

/-- The call always writes to page 0 when the allocator runs dry, so it meets its contract exactly
when this does not happen. -/
theorem map_refused_iff (s : Vm) (space : VmSpace) (virt phys : Nat) (flags : BitVec 64) :
    (Starves (virtPath virt) s space.root →
      MapRefused s space virt (vmMapPage s space virt phys flags)) ↔
    ¬ Starves (virtPath virt) s space.root :=
  ⟨fun h hdry => (h hdry).unwritten (List.mem_append_left _ hdry.stores),
    fun h hdry => absurd hdry h⟩

/-- The space of `smallVm` with no page left. -/
def dryVm : Vm := { smallProc.vm with pmm := { smallVm.pmm with bitmap := fun _ => -1, freePages := 0 } }

/-- The first missing table: page 0 is linked at entry 0 of the top table, and the call returns 0. -/
theorem map_links_page_zero : Starves (virtPath 0x10001000) dryVm smallSpace.root ∧
    (vmMapPage dryVm smallSpace 0x10001000 0x5000 6).1 = 0 ∧
    entryNext ((vmMapPage dryVm smallSpace 0x10001000 0x5000 6).2.mem smallSpace.root 0) = some 0 ∧
    ¬ MapRefused dryVm smallSpace 0x10001000 (vmMapPage dryVm smallSpace 0x10001000 0x5000 6) := by
  have hresult : (vmMapPage dryVm smallSpace 0x10001000 0x5000 6).1 = 0 := by decide
  refine ⟨.inl (by decide), hresult, by decide, fun h => ?_⟩
  rw [h.result] at hresult
  cases hresult

/-! ## A last table at address 0 -/

/-- `vm_map_page` at 0x10200000, in the space of `smallVm`. -/
def mappedVm : Vm := (vmMapPage smallProc.vm smallSpace 0x10200000 0x5000 6).2

/-- Then the allocator runs dry, a page is mapped at 0x10001000, and the pages come back: page 0 is
the last table for 0x10000000 to 0x101FFFFF. -/
def zeroTable : Vm :=
  { mappedVm with
    mem := (vmMapPage { mappedVm with pmm := dryVm.pmm } smallSpace 0x10001000 0x6000 6).2.mem }

theorem mappedVm_maps : Maps smallSpace.root smallProc.vm mappedVm 0x10200000 (pageEntry 0x5000 6) := by
  have hnull : ¬ NullEntry smallProc.vm smallSpace.root 0x10200000 :=
    (smallProc_new.tablesNonzero smallVm_pmm).not_null (by decide)
  obtain ⟨s', hmap, hmaps⟩ :=
    smallProc_new.treeOk.mapPage 0x5000 6 (by decide) hnull (by decide)
  rwa [mappedVm, hmap]

theorem zeroTable_treeOk : TreeOk zeroTable smallSpace.root := by
  have hmaps := mappedVm_maps
  have htable : mappedVm.tableAt smallSpace.root [0, 0] = some 3 := by decide
  have hnonzero : ∀ q, LowPath q → mappedVm.tableAt smallSpace.root q ≠ some 0 := by
    intro q hq hzero
    rcases hmaps.table_cases hq hzero with hold | hclear
    · exact smallProc_new.tablesNonzero smallVm_pmm q hq hold
    · exact smallProc_new.pmm.zero hclear
  obtain ⟨hlinked, htables⟩ := hmaps.ok.hang (p := [0, 0]) (i := 128) (f := 0) ⟨by decide, by simp⟩
    htable (by decide) (by decide) hnonzero hmaps.ok.pmm subset_rfl hmaps.ok.pmm.zero rfl
  have hwritten := hlinked.writePage (p := [0, 0, 128]) (i := 1) (e := pageEntry 0x6000 6)
    ⟨by decide, by simp⟩ rfl (htables _ ⟨by decide, by simp⟩) rfl
  exact hwritten.1

/-- The address of the null entry cannot be mapped. -/
theorem null_entry_not_mapped : TreeOk zeroTable smallSpace.root ∧
    (MapCall.map 0x10000000 0x5000 6).Ok smallSpace (Mapped.start zeroTable smallSpace) ∧
    (vmMapPage zeroTable smallSpace 0x10000000 0x5000 6).1 = -1 ∧
    ¬ Always (mapStep smallSpace) (MapLaw smallSpace) (Mapped.start zeroTable smallSpace)
      [.map 0x10000000 0x5000 6] := by
  refine ⟨zeroTable_treeOk, by decide, by decide, fun h => ?_⟩
  obtain ⟨-, t, hstep, hlast⟩ := h
  have hphysical := MapLaw.physical (show MapLaw smallSpace t from hlast) 0x10000000 (by decide)
  obtain rfl := Option.some.inj hstep
  have hlookup : vmGetPhysical (vmMapPage zeroTable smallSpace 0x10000000 0x5000 6).2 smallSpace
      0x10000000 = 0 := by decide
  dsimp only [Mapped.start] at hphysical
  rw [hlookup, update_self] at hphysical
  exact absurd hphysical (by decide)

/-! ## Running out between two pages -/

/-- The allocator is in order, and no page outside of `A` is free. -/
def FreeWithin (A : Finset Nat) (p : Pmm) : Prop := PmmOk p ∧ pmmClearPages p ⊆ A

theorem FreeWithin.allocPage {A : Finset Nat} {p : Pmm} (h : FreeWithin A p) :
    FreeWithin A (pmmAllocPage p).2 := by
  rcases h.1.allocPage with ⟨-, halloc⟩ | ⟨page, -, p', halloc, hpmm, hclear, -⟩
  · rwa [halloc]
  · rw [halloc]
    exact ⟨hpmm, hclear ▸ (Finset.erase_subset page _).trans h.2⟩

theorem pmmAllocPage_total (p : Pmm) : (pmmAllocPage p).2.totalPages = p.totalPages := by
  rw [pmmAllocPage]
  split
  · rfl
  · split <;> rfl

/-- With `create` the walk frees no page. -/
theorem walkTables_create (path : List (Fin 512)) (s : Vm) (table : Nat) :
    (walkTables true path s table).2.pmm.totalPages = s.pmm.totalPages ∧
      ∀ A, FreeWithin A s.pmm → FreeWithin A (walkTables true path s table).2.pmm := by
  induction path generalizing s table with
  | nil => exact ⟨rfl, fun _ h => h⟩
  | cons i path ih =>
    rw [walkTables, nextTable]
    split_ifs with hpresent hcreate
    · exact ih s _
    · obtain ⟨htotal, hfree⟩ := ih _ _
      exact ⟨htotal.trans (pmmAllocPage_total s.pmm), fun A h => hfree A h.allocPage⟩
    · exact absurd rfl hcreate

theorem vmMapPage_create (s : Vm) (space : VmSpace) (virt phys : Nat) (flags : BitVec 64) :
    (vmMapPage s space virt phys flags).2.pmm.totalPages = s.pmm.totalPages ∧
    ∀ A, FreeWithin A s.pmm → FreeWithin A (vmMapPage s space virt phys flags).2.pmm := by
  have hwalk := walkTables_create (virtPath virt) s space.root
  rw [vmMapPage, getPte]
  dsimp only
  split
  · next heq =>
    rw [Prod.mk.injEq] at heq
    rwa [← heq.2]
  · next heq =>
    rw [Prod.mk.injEq] at heq
    rwa [← heq.2]

theorem vmMapPage_result (s : Vm) (space : VmSpace) (virt phys : Nat) (flags : BitVec 64) :
    (vmMapPage s space virt phys flags).1 = 0 ∨
    (vmMapPage s space virt phys flags).1 = -1 := by
  rw [vmMapPage]
  split
  · exact .inr rfl
  · exact .inl rfl

/-- What is not free when the loop starts is not free when it ends. -/
theorem FreeWithin.allocLoop {A : Finset Nat} {s : Vm} (h : FreeWithin A s.pmm)
    (start i count : Nat) : FreeWithin A (allocLoop space start flags i count s).2.pmm := by
  induction count generalizing i s with
  | zero => exact h
  | succ count ih =>
    rw [OpenSys.allocLoop]
    dsimp only
    rcases h.1.allocPage with ⟨-, halloc⟩ | ⟨page, hpage, pmm, halloc, hpmm, hclear, -⟩
    · rw [halloc, if_pos rfl]
      exact h
    rw [halloc, if_neg (h.1.address_ne hpage)]
    have hmapped := (vmMapPage_create { s with pmm := pmm } space (u64 (start + i * 0x1000))
      (page * pageSize) flags).2 A
      ⟨hpmm, hclear ▸ (Finset.erase_subset page _).trans h.2⟩
    split_ifs with hstatus
    · have hne : page * pageSize / pageSize ≠ 0 := by
        rw [frame_address]
        exact fun heq => h.1.zero (heq ▸ hpage)
      obtain ⟨hok, hsubset⟩ := hmapped.1.freePage hne
      refine ⟨hok, hsubset.trans (Finset.insert_subset ?_ hmapped.2)⟩
      rw [frame_address]
      exact h.2 hpage
    · exact ih hmapped (i + 1)

/-- `vm_alloc_pages` has taken nothing and mapped nothing. -/
structure AllocRefused (s : Vm) (space : VmSpace) (r : Nat × Vm × VmSpace) : Prop where
  mappings : ∀ v, r.2.1.virtPage space.root v = s.virtPage space.root v
  heapEnd : r.2.2.heapEnd = space.heapEnd
  free : pmmClearPages r.2.1.pmm = pmmClearPages s.pmm

/-- `vm_map_page` as the first round of `vm_alloc_pages` calls it. -/
def firstMap (s : Vm) (space : VmSpace) (flags : BitVec 64) : Int × Vm :=
  vmMapPage { s with pmm := (pmmAllocPage s.pmm).2 } space (pageVirt space.heapEnd 0)
    (pmmAllocPage s.pmm).1 flags

/-- The first round takes a page, finds a null entry without a page for a table or a change of a
mapping, and gives the page back. `pmm_free_page` only takes pages in the lower half of their
bitmap word back. -/
structure FirstUndone (s : Vm) (space : VmSpace) (flags : BitVec 64) : Prop where
  null : (firstMap s space flags).1 = -1
  returned : (pmmAllocPage s.pmm).1 / pageSize % 64 < 32
  noTable : pmmClearPages (firstMap s space flags).2.pmm = pmmClearPages (pmmAllocPage s.pmm).2
  mappings : ∀ v, (firstMap s space flags).2.virtPage space.root v = s.virtPage space.root v

theorem pmmFreePage_of_upper {p : Pmm} {addr : Nat} (h : ¬ addr / pageSize % 64 < 32) :
    pmmFreePage p addr = p := by
  rw [pmmFreePage]
  dsimp only
  split_ifs with htotal htest
  · rfl
  · rfl
  · exact absurd (bitmapTest_eq_zero_iff.mpr fun hlow => absurd hlow h) htest

/-- What the first round leaves when its page cannot be mapped. -/
theorem first_undone_iff (h : PmmOk s.pmm) {page : Nat} {pmm : Pmm} (hpage : page ∈ pmmClearPages s.pmm)
    (halloc : pmmAllocPage s.pmm = (page * pageSize, pmm))
    (hclear : pmmClearPages pmm = (pmmClearPages s.pmm).erase page) (hpmm : PmmOk pmm)
    (hnull : (firstMap s space flags).1 = -1) :
    ((∀ v, (firstMap s space flags).2.virtPage space.root v = s.virtPage space.root v) ∧
      pmmClearPages (pmmFreePage (firstMap s space flags).2.pmm (page * pageSize)) =
        pmmClearPages s.pmm) ↔ FirstUndone s space flags := by
  have hframe := frame_address page
  have hne : page * pageSize / pageSize ≠ 0 := by
    rw [hframe]
    exact fun heq => h.zero (heq ▸ hpage)
  have hcreate := vmMapPage_create { s with pmm := (pmmAllocPage s.pmm).2 } space
    (pageVirt space.heapEnd 0) (pmmAllocPage s.pmm).1 flags
  have htotal : (firstMap s space flags).2.pmm.totalPages = s.pmm.totalPages :=
    hcreate.1.trans (pmmAllocPage_total s.pmm)
  have hwithin : FreeWithin ((pmmClearPages s.pmm).erase page) (firstMap s space flags).2.pmm := by
    refine hcreate.2 _ ?_
    rw [halloc]
    exact ⟨hpmm, hclear.subset⟩
  obtain ⟨-, hsubset⟩ := hwithin.1.freePage hne
  rw [hframe] at hsubset
  constructor
  · rintro ⟨hmappings, hfree⟩
    have hreturned : page % 64 < 32 := by
      by_contra hupper
      rw [pmmFreePage_of_upper (by rwa [hframe])] at hfree
      exact absurd (hwithin.2 (hfree ▸ hpage)) (Finset.notMem_erase page _)
    refine ⟨hnull, by rwa [halloc, hframe], ?_, hmappings⟩
    rw [halloc, hclear]
    refine Finset.Subset.antisymm hwithin.2 fun g hg => ?_
    obtain ⟨hgp, hgs⟩ := Finset.mem_erase.mp hg
    exact Finset.mem_of_mem_insert_of_ne (hsubset (hfree ▸ hgs)) hgp
  · intro hundone
    have hlow := hundone.returned
    have hnoTable := hundone.noTable
    rw [halloc] at hlow hnoTable
    refine ⟨hundone.mappings, Finset.Subset.antisymm ?_ fun g hg => ?_⟩
    · rw [hnoTable, hclear, Finset.insert_erase hpage] at hsubset
      exact hsubset
    by_cases hgp : g = page
    · have hlt : page * pageSize / pageSize < (firstMap s space flags).2.pmm.totalPages := by
        rw [htotal, hframe]
        exact (mem_pmmClearPages.mp hpage).1
      have hback := mem_pmmFreePage hlt hlow
      rw [hframe] at hback
      rw [hgp]
      exact hback
    · refine pmmClearPages_subset_free ?_
      rw [hnoTable, hclear]
      exact Finset.mem_erase.mpr ⟨hgp, hg⟩

/-- A null entry that is there before the call. -/
theorem FirstUndone.of_null (hnull : NullEntry s space.root (pageVirt space.heapEnd 0))
    (hlow : (pmmAllocPage s.pmm).1 / pageSize % 64 < 32) : FirstUndone s space flags := by
  have hmap : firstMap s space flags = (-1, { s with pmm := (pmmAllocPage s.pmm).2 }) :=
    vmMapPage_null (s := { s with pmm := (pmmAllocPage s.pmm).2 }) hnull _ _
  refine ⟨?_, hlow, ?_, fun v => ?_⟩ <;> rw [hmap]
  rfl

end OpenSys
