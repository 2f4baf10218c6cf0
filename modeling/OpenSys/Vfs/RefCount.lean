-- SUMMARY: Each node's count is the number of slots that point to it.
import OpenSys.Lib.Refs
import OpenSys.Lib.Run
import OpenSys.Vfs.Calls

/-!
# Reference counts

The slots of all live tables are the slots of `OpenSys.Refs`. Three primitive
updates keep the invariant: filling in a node that no slot points to, pointing an
empty slot to a node (`link`), and emptying a slot (`unlink`). Every call of
`vfs.c` is a sequence of these.
-/

namespace OpenSys

open List Function Vfs Refs

open Refs (refs used)

variable {ρ : Type} {ext : VfsExt ρ} {s s' : Vfs ρ} {n : NodeId} {t : TableId} {i : Fin 32}
  {U U' : Finset TableId}

/-- The slots of the live tables. -/
def Vfs.slots (s : Vfs ρ) : Finset (TableId × Fin 32) := s.live ×ˢ Finset.univ

def Vfs.slot (s : Vfs ρ) (k : TableId × Fin 32) : Option NodeId := (s.tables k.1).fds k.2

/-- No slot of a live table points to `n`. -/
def Vfs.Unreferenced (s : Vfs ρ) (n : NodeId) : Prop :=
  ∀ t ∈ s.live, ∀ i, (s.tables t).fds i ≠ some n

/-- The bookkeeping is right. `U` are the tables whose own count is not
    maintained: the one that `fd_table_destroy` is at work on, otherwise none. -/
structure VfsInv (U : Finset TableId) (s : Vfs ρ) : Prop where
  kernelLive : kernelFdTable ∈ s.live
  owned : ∀ p t, s.procFdTable p = some t → t ∈ s.live
  refCount : ∀ n, (s.nodePool n).refCount = refs s.slots s.slot n
  hasOps : ∀ t ∈ s.live, ∀ i n, (s.tables t).fds i = some n → (s.nodePool n).ops ≠ none
  count : ∀ t ∈ s.live, t ∉ U → (s.tables t).count = used Finset.univ (s.tables t).fds

@[simp] theorem mem_slots : (t, i) ∈ s.slots ↔ t ∈ s.live := by
  simp [slots]

theorem Vfs.slot_setSlot (v : Option NodeId) (d : Int) :
    (s.setSlot t i v d).slot = update s.slot (t, i) v := by
  funext ⟨t', i'⟩
  by_cases ht : t' = t
  · subst ht
    by_cases hi : i' = i
    · subst hi
      simp [slot, setSlot, setTable]
    · simp [slot, setSlot, setTable, hi]
  · simp [slot, setSlot, setTable, ht]

theorem unreferenced_iff_refs : s.Unreferenced n ↔ refs s.slots s.slot n = 0 := by
  rw [refs_eq_zero_iff]
  constructor
  · rintro h ⟨t, i⟩ hk
    exact h t (mem_slots.mp hk) i
  · intro h t ht i
    exact h (t, i) (mem_slots.mpr ht)

theorem VfsInv.unreferenced (h : VfsInv U s) (hn : (s.nodePool n).refCount = 0) :
    s.Unreferenced n := by
  rw [unreferenced_iff_refs]
  have := h.refCount n
  omega

theorem VfsInv.refCount_pos (h : VfsInv U s) (ht : t ∈ s.live)
    (hi : (s.tables t).fds i = some n) : 0 < (s.nodePool n).refCount := by
  have hpos : 0 < refs s.slots s.slot n := refs_pos (mem_slots.mpr ht) hi
  rw [h.refCount n]
  omega

/-! ## Primitive updates -/

@[simp] theorem setNode_slots (node : VfsNode) : (s.setNode n node).slots = s.slots := rfl

@[simp] theorem setNode_slot (node : VfsNode) : (s.setNode n node).slot = s.slot := rfl

@[simp] theorem setSlot_slots (v : Option NodeId) (d : Int) :
    (s.setSlot t i v d).slots = s.slots := rfl

/-- A node that no slot points to may become anything with count zero. -/
theorem VfsInv.setNode (h : VfsInv U s) (hn : s.Unreferenced n) {node : VfsNode}
    (hnode : node.refCount = 0) : VfsInv U (s.setNode n node) where
  kernelLive := h.kernelLive
  owned := h.owned
  refCount := by
    intro m
    by_cases hm : m = n
    · subst hm
      simp [hnode, unreferenced_iff_refs.mp hn]
    · simpa [hm] using h.refCount m
  hasOps := by
    intro t ht i m hm
    have hne : m ≠ n := fun heq => hn t ht i (heq ▸ hm)
    simpa [hne] using h.hasOps t ht i m hm
  count := h.count

/-- The counts after slot `i` of `t` is overwritten with the matching change. -/
theorem VfsInv.count_setSlot (h : VfsInv U s) (hU : U ⊆ U') {v : Option NodeId} {d : Int}
    (hd : t ∉ U' → d = (if v.isSome then 1 else 0) -
      (if ((s.tables t).fds i).isSome then 1 else 0)) :
    ∀ t' ∈ s.live, t' ∉ U' → ((s.setSlot t i v d).tables t').count =
      used Finset.univ ((s.setSlot t i v d).tables t').fds := by
  intro t' ht' hU'
  have hcount := h.count t' ht' fun hmem => hU' (hU hmem)
  by_cases heq : t' = t
  · subst heq
    simp only [setSlot, setTable, update_self]
    rw [used_update (Finset.mem_univ i), hcount, hd hU']
    omega
  · simpa [setSlot, setTable, heq] using hcount

/-- The references after slot `i` of `t` is overwritten. -/
theorem VfsInv.refs_setSlot (h : VfsInv U s) (ht : t ∈ s.live) (v : Option NodeId) (d : Int)
    (m : NodeId) :
    (refs (s.setSlot t i v d).slots (s.setSlot t i v d).slot m : Int) =
      (s.nodePool m).refCount - (if (s.tables t).fds i = some m then 1 else 0) +
        (if v = some m then 1 else 0) := by
  have hmem : (t, i) ∈ s.slots := mem_slots.mpr ht
  rw [slot_setSlot, setSlot_slots, refs_update hmem, h.refCount m]
  rfl

/-- An empty slot that comes to point to a node, whose count is raised. -/
theorem VfsInv.link (h : VfsInv U s) (ht : t ∈ s.live) (hi : (s.tables t).fds i = none)
    (hn : (s.nodePool n).ops ≠ none) :
    VfsInv U ((s.setRef n ((s.nodePool n).refCount + 1)).setSlot t i (some n) 1) where
  kernelLive := h.kernelLive
  owned := h.owned
  refCount := by
    intro m
    have hrefs := h.refs_setSlot (i := i) ht (some n) 1 m
    refine Eq.trans ?_ hrefs.symm
    by_cases hm : m = n
    · subst hm
      simp [setRef, hi]
    · simp [setRef, hi, hm, Ne.symm hm]
  hasOps := by
    intro t' ht' i' m hm
    have hslot : (s.setSlot t i (some n) 1).slot (t', i') = some m := hm
    have hops : (s.nodePool m).ops ≠ none := by
      rw [slot_setSlot, update_apply] at hslot
      split at hslot
      · obtain rfl := Option.some.inj hslot
        exact hn
      · exact h.hasOps t' ht' i' m hslot
    by_cases hmn : m = n
    · subst hmn
      simpa [setRef] using hops
    · simpa [setRef, hmn] using hops
  count := h.count_setSlot (Finset.Subset.refl U) (fun _ => by simp [hi])

/-! ## Dropping a reference -/

/-- A slot that is emptied, with the count of its node dropped. The count of the
    table itself is kept unless it is in `U'`. -/
theorem VfsInv.unlink (h : VfsInv U s) (ht : t ∈ s.live) (hi : (s.tables t).fds i = some n)
    (hU : U ⊆ U') {d : Int} (hd : t ∉ U' → d = -1) :
    VfsInv U' ((dropRef ext s n).setSlot t i none d) := by
  have hpos : 0 < (s.nodePool n).refCount := h.refCount_pos ht hi
  have hslot : ((dropRef ext s n).setSlot t i none d).slot = (s.setSlot t i none d).slot := by
    funext k
    simp [slot, setSlot, setTable]
  have hrefs : ∀ m, (((dropRef ext s n).setSlot t i none d).nodePool m).refCount =
      refs (s.setSlot t i none d).slots (s.setSlot t i none d).slot m := by
    intro m
    rw [h.refs_setSlot ht, hi, setSlot_nodePool]
    by_cases hm : m = n
    · subst hm
      simp [dropRef_refCount hpos]
    · simp [dropRef_of_ne hm, Ne.symm hm]
  refine ⟨?_, ?_, ?_, ?_, ?_⟩
  · simpa using h.kernelLive
  · intro p t' hp
    have hp' : (dropRef ext s n).procFdTable p = some t' := hp
    rw [dropRef_procFdTable] at hp'
    simpa using h.owned p t' hp'
  · intro m
    rw [hrefs m, hslot]
    simp [slots]
  · intro t' ht' i' m hm
    have ht'' : t' ∈ s.live := by simpa using ht'
    have hm' : (s.setSlot t i none d).slot (t', i') = some m := by
      rw [← hslot]
      exact hm
    have hold : (s.tables t').fds i' = some m := by
      rw [slot_setSlot, update_apply] at hm'
      split at hm'
      · cases hm'
      · exact hm'
    -- `m` is still referenced afterwards, so `n` was not freed if it is `m`.
    have hstill : 0 < (((dropRef ext s n).setSlot t i none d).nodePool m).refCount := by
      have := refs_pos (S := (s.setSlot t i none d).slots) (mem_slots.mpr ht'') hm'
      rw [hrefs m]
      omega
    by_cases hmn : m = n
    · subst hmn
      rw [setSlot_nodePool, dropRef_refCount hpos] at hstill
      rw [setSlot_nodePool, dropRef_ops (by omega)]
      exact h.hasOps t' ht'' i' m hold
    · rw [setSlot_nodePool, dropRef_of_ne hmn]
      exact h.hasOps t' ht'' i' m hold
  · have hcount := h.count_setSlot (t := t) (i := i) (v := none) (d := d) hU
      (fun hmem => by simp [hi, hd hmem])
    simpa [setSlot, setTable] using hcount

/-! ## Node allocation -/

theorem VfsInv.allocNode_unreferenced (h : VfsInv U s) (hn : allocNode s = some (n, s')) :
    s.Unreferenced n :=
  h.unreferenced (allocNode_eq_some hn).1

/-! ## Descriptor tables -/

theorem VfsInv.fdTableAlloc (h : VfsInv U s) (ht : t ∈ s.live)
    (hn : (s.nodePool n).ops ≠ none) (hs' : fdTableAlloc s t n = some (i, s')) :
    VfsInv U s' := by
  obtain ⟨hi, rfl⟩ := fdTableAlloc_eq_some hs'
  exact h.link ht hi hn

theorem VfsInv.fdTableClose (h : VfsInv U s) (ht : t ∈ s.live) (fd : Int) :
    VfsInv U (fdTableClose ext s t fd).2 := by
  obtain heq | ⟨i, n, -, hi, heq⟩ := fdTableClose_cases ext s t fd <;> rw [heq]
  · exact h
  · exact h.unlink ht hi (Finset.Subset.refl U) fun _ => rfl

theorem VfsInv.installStdFd (h : VfsInv U s) (ht : t ∈ s.live)
    (hi : (s.tables t).fds i = none) (hs' : installStdFd s t i = some s') : VfsInv U s' := by
  obtain ⟨n, s₁, node, hn, hcount, hops, rfl⟩ := installStdFd_eq_some hs'
  have hnode := h.setNode (h.allocNode_unreferenced hn) hcount
  simpa [hcount] using hnode.link (n := n) ht hi (by simp [hops])

/-- The states in which `fd_table_install_std` calls `alloc_node`. -/
def installStdCalls (s : Vfs ρ) (t : TableId) : List (Fin 32) → List (Vfs ρ)
  | [] => []
  | i :: is =>
    s :: match installStdFd s t i with
      | none => []
      | some s => installStdCalls s t is

/-- The bookkeeping is right in every state in which `fd_table_install_std` calls `alloc_node`
    and when it is done. -/
theorem VfsInv.installStdFds (h : VfsInv U s) (ht : t ∈ s.live) {is : List (Fin 32)}
    (hnodup : is.Nodup) (hempty : ∀ i ∈ is, (s.tables t).fds i = none) :
    VfsInv U (installStdFds s t is) ∧ ∀ s₁ ∈ installStdCalls s t is, VfsInv U s₁ := by
  induction is generalizing s with
  | nil => exact ⟨h, by simp [OpenSys.installStdCalls]⟩
  | cons i is ih =>
    obtain ⟨hi, hnodup⟩ := nodup_cons.mp hnodup
    rw [OpenSys.installStdCalls, forall_mem_cons]
    unfold OpenSys.installStdFds
    cases hs₁ : OpenSys.installStdFd s t i with
    | none => exact ⟨h, h, by simp⟩
    | some s₁ =>
      have hs₁' := h.installStdFd ht (hempty i mem_cons_self) hs₁
      obtain ⟨n, -, node, -, -, -, rfl⟩ := installStdFd_eq_some hs₁
      obtain ⟨hdone, hcalls⟩ := ih hs₁' ht hnodup fun j hj => by
        have hne : j ≠ i := fun heq => hi (heq ▸ hj)
        simpa [setSlot, setTable, setRef, hne] using
          hempty j (mem_cons_of_mem i hj)
      exact ⟨hdone, h, hcalls⟩

/-- A fresh empty table changes no count. -/
protected theorem VfsInv.newTable (h : VfsInv ∅ s) (ht : t ∉ s.live) : VfsInv ∅ (newTable s t) where
  kernelLive := Finset.mem_insert_of_mem h.kernelLive
  owned p t' hp := Finset.mem_insert_of_mem (h.owned p t' hp)
  refCount := by
    intro m
    have hslot : ∀ t' i', (newTable s t).slot (t', i') =
        if t' = t then none else s.slot (t', i') := by
      intro t' i'
      by_cases heq : t' = t <;> simp [slot, newTable, setTable, emptyTable, heq]
    have hold : refs s.slots s.slot = refs s.slots (newTable s t).slot := by
      apply refs_congr_slot
      rintro ⟨t', i'⟩ hk
      rw [hslot, if_neg]
      rintro rfl
      exact ht (mem_slots.mp hk)
    have hnew : refs s.slots (newTable s t).slot =
        refs (newTable s t).slots (newTable s t).slot := by
      apply refs_congr
      rintro ⟨t', i'⟩ hk
      rw [hslot] at hk
      have hne : t' ≠ t := fun heq => hk (if_pos heq)
      simp [newTable, hne]
    rw [← hnew, ← hold]
    exact h.refCount m
  hasOps := by
    intro t' ht' i' m hm
    by_cases heq : t' = t
    · simp [newTable, setTable, emptyTable, heq] at hm
    · have ht'' : t' ∈ s.live := (Finset.mem_insert.mp ht').resolve_left heq
      exact h.hasOps t' ht'' i' m (by simpa [newTable, setTable, heq] using hm)
  count := by
    intro t' ht' hU
    by_cases heq : t' = t
    · subst heq
      simp [newTable, setTable, emptyTable, used_eq_zero]
    · have ht'' : t' ∈ s.live := (Finset.mem_insert.mp ht').resolve_left heq
      simpa [newTable, setTable, heq] using h.count t' ht'' hU

/-- A new table with its standard descriptors, and the calls of `alloc_node` on the way. -/
theorem VfsInv.installStd (h : VfsInv ∅ s) (ht : t ∉ s.live) :
    VfsInv ∅ (fdTableInstallStd (newTable s t) t) ∧
      ∀ s₁ ∈ installStdCalls (newTable s t) t stdSlots, VfsInv ∅ s₁ :=
  (h.newTable ht).installStdFds (Finset.mem_insert_self t s.live) (by decide)
    fun i _ => by simp [newTable, setTable, emptyTable]

variable {km : Option TableId}

theorem VfsInv.fdTableCreate (h : VfsInv ∅ s) (hkm : ∀ t ∈ km, t ∉ s.live) :
    VfsInv ∅ (fdTableCreate s km).2 := by
  cases km with
  | none => exact h
  | some t => exact (h.installStd (hkm t rfl)).1

/-- The copy loop of `fd_table_clone`, from the slots that are still to be copied. -/
theorem VfsInv.cloneSlots (h : VfsInv U s) {src dst : TableId} (hsrc : src ∈ s.live)
    (hdst : dst ∈ s.live) {is : List (Fin 32)} (hnodup : is.Nodup)
    (hempty : ∀ i ∈ is, (s.tables dst).fds i = none) :
    VfsInv U (is.foldl (cloneSlot src dst) s) := by
  induction is generalizing s with
  | nil => exact h
  | cons i is ih =>
    obtain ⟨hi, hnodup⟩ := nodup_cons.mp hnodup
    rw [foldl_cons]
    obtain heq | ⟨n, hslot, heq⟩ := cloneSlot_cases src dst s i <;> rw [heq]
    · exact ih h hsrc hdst hnodup fun j hj => hempty j (mem_cons_of_mem i hj)
    have hlink := h.link hdst (hempty i mem_cons_self) (h.hasOps src hsrc i n hslot)
    refine ih hlink hsrc hdst hnodup fun j hj => ?_
    have hne : j ≠ i := fun hji => hi (hji ▸ hj)
    simpa [setSlot, setTable, setRef, hne] using
      hempty j (mem_cons_of_mem i hj)

theorem VfsInv.fdTableClone (h : VfsInv ∅ s) {src : TableId} (hsrc : src ∈ s.live)
    (hkm : ∀ t ∈ km, t ∉ s.live) :
    VfsInv ∅ (fdTableClone s src km).2 := by
  cases km with
  | none => exact h
  | some dst =>
    exact (h.newTable (hkm dst rfl)).cloneSlots
      (Finset.mem_insert_of_mem hsrc) (Finset.mem_insert_self dst s.live)
      (nodup_finRange 32) fun i _ => by simp [newTable, setTable, emptyTable]

/-- The loop of `fd_table_destroy` empties the slots it has passed and leaves the
    other tables right. -/
theorem VfsInv.destroySlots (ext : VfsExt ρ) (h : VfsInv {t} s) (ht : t ∈ s.live) (is : List (Fin 32)) :
    VfsInv {t} (is.foldl (destroySlot ext t) s) ∧ ∀ i, i ∈ is ∨ (s.tables t).fds i = none →
        ((is.foldl (destroySlot ext t) s).tables t).fds i = none := by
  induction is generalizing s with
  | nil => exact ⟨h, fun i hi => by simpa using hi⟩
  | cons i is ih =>
    rw [foldl_cons]
    obtain ⟨hslot, heq⟩ | ⟨n, hslot, heq⟩ := destroySlot_cases ext t s i <;> rw [heq]
    · obtain ⟨hinv, hnone⟩ := ih h ht
      refine ⟨hinv, fun j hj => hnone j ?_⟩
      by_cases hji : j = i
      · exact .inr (hji ▸ hslot)
      · simpa [hji] using hj
    · have hunlink : VfsInv {t} ((dropRef ext s n).setSlot t i none 0) :=
        h.unlink ht hslot (Finset.Subset.refl _) fun hmem => by simp at hmem
      obtain ⟨hinv, hnone⟩ := ih hunlink (by simpa using ht)
      refine ⟨hinv, fun j hj => hnone j ?_⟩
      by_cases hji : j = i
      · subst hji
        simp [setSlot, setTable]
      · simpa [setSlot, setTable, hji] using hj

protected theorem VfsInv.fdTableDestroy (h : VfsInv ∅ s) (ht : t ∈ s.live)
    (hkernel : t ≠ kernelFdTable) : VfsInv ∅ (fdTableDestroy ext s t) := by
  have hstart : VfsInv {t} s := ⟨h.kernelLive, h.owned, h.refCount, h.hasOps,
      fun t' ht' _ => h.count t' ht' (Finset.notMem_empty t')⟩
  obtain ⟨hinv, hnone⟩ := hstart.destroySlots ext ht (List.finRange 32)
  set s₁ := (List.finRange 32).foldl (destroySlot ext t) s with hs₁
  have hempty : ∀ i, (s₁.tables t).fds i = none := fun i => hnone i (.inl (mem_finRange i))
  have hsub : ∀ t', t' ∈ (fdTableDestroy ext s t).live → t' ∈ s₁.live :=
    fun t' ht' => Finset.mem_of_mem_erase ht'
  refine ⟨?_, ?_, ?_, ?_, ?_⟩
  · exact Finset.mem_erase.mpr ⟨Ne.symm hkernel, hinv.kernelLive⟩
  · intro p t' hp
    change (if s₁.procFdTable p = some t then none else s₁.procFdTable p) = some t' at hp
    split at hp
    · cases hp
    rename_i hne
    refine Finset.mem_erase.mpr ⟨?_, hinv.owned p t' hp⟩
    rintro rfl
    exact hne hp
  · intro m
    -- The slots that disappear are empty, so they were not counted.
    have hrefs : refs (fdTableDestroy ext s t).slots s₁.slot = refs s₁.slots s₁.slot := by
      apply refs_congr
      rintro ⟨t', i'⟩ hk
      have hne : t' ≠ t := by
        rintro rfl
        exact hk (hempty i')
      have hmem : t' ∈ (fdTableDestroy ext s t).live ↔ t' ∈ s₁.live :=
        ⟨hsub t', fun hmem => Finset.mem_erase.mpr ⟨hne, hmem⟩⟩
      simpa using hmem
    refine (hinv.refCount m).trans ?_
    rw [← hrefs]
    rfl
  · intro t' ht' i m hm
    exact hinv.hasOps t' (hsub t' ht') i m hm
  · intro t' ht' _
    exact hinv.count t' (hsub t' ht') (by simpa using Finset.ne_of_mem_erase ht')

/-! ## Calls -/

theorem VfsInv.setDev (h : VfsInv U s) (dev : VfsDev ρ) : VfsInv U { s with dev := dev } :=
  ⟨h.kernelLive, h.owned, h.refCount, h.hasOps, h.count⟩

protected theorem VfsInv.getCurrentFdTable (h : VfsInv U s) : getCurrentFdTable s ∈ s.live := by
  unfold getCurrentFdTable
  cases hcur : s.current.bind s.procFdTable with
  | none => exact h.kernelLive
  | some t =>
    obtain ⟨p, -, hp⟩ := Option.bind_eq_some_iff.mp hcur
    exact h.owned p t hp

/-- The table a descriptor is opened in is live. -/
theorem VfsInv.openTable (h : VfsInv ∅ s) (hkm : ∀ t ∈ km, t ∉ s.live) :
    VfsInv ∅ (openTable s km).2 ∧ ∀ t ∈ (openTable s km).1, t ∈ (openTable s km).2.live := by
  obtain ⟨o, heq, ho⟩ | ⟨p, t, -, -, rfl, heq⟩ := openTable_cases s km <;> rw [heq]
  · refine ⟨h, fun t ht => ?_⟩
    obtain ⟨-, rfl⟩ | ⟨p, -, hp⟩ := ho t ht
    · exact h.kernelLive
    · exact h.owned p t hp
  have hcreate := h.fdTableCreate hkm
  have hlive : t ∈ (tableCreated s p t).live := by
    rw [tableCreated, fdTableInstallStd, (installStdFds_frame _).2.1]
    exact Finset.mem_insert_self t s.live
  refine ⟨⟨hcreate.kernelLive, fun q t' hq => ?_, hcreate.refCount, hcreate.hasOps,
    hcreate.count⟩, fun t' ht' => Option.some.inj ht' ▸ hlive⟩
  by_cases hqp : q = p
  · subst hqp
    obtain rfl : t = t' := by simpa [tableCreated] using hq
    exact hlive
  · exact hcreate.owned q t' (by simpa [tableCreated, OpenSys.fdTableCreate, hqp] using hq)

theorem VfsInv.openPublish (h : VfsInv ∅ s) (hkm : ∀ t ∈ km, t ∉ s.live)
    (hn : (s.nodePool n).ops ≠ none) (hzero : (s.nodePool n).refCount = 0) :
    VfsInv ∅ (openPublish s n km).2 := by
  obtain ⟨hinv, hlive⟩ := h.openTable hkm
  have hnode := openTable_nodePool km hn
  obtain heq | ⟨t, fd, s', ht, halloc, heq⟩ := openPublish_cases s n km <;> rw [heq]
  -- On failure the node goes back to the pool; no slot points to it.
  · exact hinv.setNode (hinv.unreferenced (by rw [hnode]; exact hzero)) rfl
  · exact hinv.fdTableAlloc (hlive t ht) (by rw [hnode]; exact hn) halloc

theorem VfsInv.vfsOpen (h : VfsInv ∅ s) (path : Option Path) (flags : BitVec 32)
    (hkm : ∀ t ∈ km, t ∉ s.live) :
    VfsInv ∅ (vfsOpen ext s path flags km).2 := by
  obtain ⟨dev, hdev⟩ := openBackend_snd ext s path flags
  have hopen := h.setDev dev
  obtain heq | ⟨ops, fd, -, heq | ⟨n, node, hzero, -, hcount, hops, heq⟩⟩ :=
    vfsOpen_cases ext s path flags km <;> rw [heq, hdev]
  · exact hopen
  · exact hopen.setDev _
  · rw [hdev] at hzero
    exact (hopen.setNode (hopen.unreferenced hzero) hcount).openPublish hkm (by simp [hops])
      (by simp [hcount])

theorem VfsInv.vfsDup (h : VfsInv U s) (fd : Int) : VfsInv U (vfsDup s fd).2 := by
  obtain heq | ⟨k, n, i, hk, halloc⟩ := vfsDup_cases s fd
  · rw [heq]
    exact h
  · exact h.fdTableAlloc h.getCurrentFdTable (h.hasOps _ h.getCurrentFdTable k n hk) halloc

theorem VfsInv.vfsDup2 (h : VfsInv U s) (oldfd newfd : Int) :
    VfsInv U (vfsDup2 ext s oldfd newfd).2 := by
  have ht := h.getCurrentFdTable
  obtain heq | ⟨old, new, n, s₁, -, hs₁, hold, hnew, heq⟩ := vfsDup2_cases ext s oldfd newfd <;>
    rw [heq]
  · exact h
  obtain rfl | rfl := hs₁
  · exact h.link ht hnew (h.hasOps _ ht old n hold)
  · have h₁ : VfsInv U (OpenSys.fdTableClose ext s (getCurrentFdTable s) newfd).2 :=
      h.fdTableClose ht newfd
    exact h₁.link (by simpa using ht) hnew (h₁.hasOps _ (by simpa using ht) old n hold)

theorem VfsInv.pipePublish (h : VfsInv U s) {rnode wnode : NodeId} (idx : Fin 16)
    (hr : (s.nodePool rnode).ops ≠ none) (hw : (s.nodePool wnode).ops ≠ none) :
    VfsInv U (pipePublish ext s idx rnode wnode).2 := by
  have ht := h.getCurrentFdTable
  simp only [OpenSys.pipePublish]
  set t := getCurrentFdTable s
  split
  · exact h.setDev _
  rename_i r s₁ hs₁
  have h₁ := h.fdTableAlloc ht hr hs₁
  obtain ⟨-, rfl⟩ := fdTableAlloc_eq_some hs₁
  split
  · exact (h₁.fdTableClose ht _).setDev _
  · rename_i w s₂ hs₂
    refine h₁.fdTableAlloc ht ?_ hs₂
    by_cases hwr : wnode = rnode <;> simpa [setRef, hwr] using hw

theorem VfsInv.vfsPipe (h : VfsInv U s) (fds : Bool) : VfsInv U (vfsPipe ext s fds).2 := by
  obtain ⟨-, heq⟩ | ⟨-, idx, -, ⟨-, heq⟩ | ⟨r, hr, -, heq⟩ | ⟨r, w, hne, hr, hw, heq⟩⟩ :=
    vfsPipe_cases ext s fds <;> rw [heq]
  · exact h
  · exact h.setDev _
  · have hpipe : VfsInv U ((openPipe s idx).setPipeInUse idx false) := h.setDev _
    exact hpipe.setNode (h.unreferenced hr.1) rfl
  · have hpipe : VfsInv U (openPipe s idx) := h.setDev _
    have hnodes : VfsInv U (pipeNodes s idx r w) :=
      VfsInv.setNode (hpipe.setNode (h.unreferenced hr.1) rfl) (h.unreferenced hw.1) rfl
    exact hnodes.pipePublish idx (by simp [pipeNodes, Ne.symm hne, pipeNode])
      (by simp [pipeNodes, pipeNode])

/-! ## Runs -/

/-- The calls of the layer, with the address that `kmalloc` returns where a call
    allocates. `mount`, `switchTo` and `resetProcess` stand for the rest of the
    kernel: a mount, a change of the current process, and a process slot that is
    set up again. -/
inductive VfsCall where
  | vfsOpen (path : Option Path) (flags : BitVec 32) (kmalloc : Option TableId)
  | vfsClose (fd : Int)
  | vfsDup (fd : Int)
  | vfsDup2 (oldfd newfd : Int)
  | vfsPipe (fds : Bool)
  | fdTableCreate (kmalloc : Option TableId)
  | fdTableClone (src : TableId) (kmalloc : Option TableId)
  | fdTableDestroy (t : TableId)
  | vfsMount (path : Path) (ops : Option VfsOps)
  | switchTo (p : Option Nat)
  | resetProcess (p : Nat)

/-- What callers and the heap promise: `kmalloc` returns an address that holds no
    live table, only live tables are cloned and destroyed, and the static kernel
    table is not destroyed. -/
def VfsCall.Legal (s : Vfs ρ) : VfsCall → Prop
  | .vfsOpen _ _ km | .fdTableCreate km => ∀ t ∈ km, t ∉ s.live
  | .fdTableClone src km => src ∈ s.live ∧ ∀ t ∈ km, t ∉ s.live
  | .fdTableDestroy t => t ∈ s.live ∧ t ≠ kernelFdTable
  | _ => True

instance (s : Vfs ρ) (c : VfsCall) : Decidable (c.Legal s) := by
  cases c <;> unfold VfsCall.Legal <;> infer_instance

def vfsNext (ext : VfsExt ρ) (s : Vfs ρ) : VfsCall → Vfs ρ
  | .vfsOpen path flags km => (vfsOpen ext s path flags km).2
  | .vfsClose fd => (vfsClose ext s fd).2
  | .vfsDup fd => (vfsDup s fd).2
  | .vfsDup2 oldfd newfd => (vfsDup2 ext s oldfd newfd).2
  | .vfsPipe fds => (vfsPipe ext s fds).2
  | .fdTableCreate km => (fdTableCreate s km).2
  | .fdTableClone src km => (fdTableClone s src km).2
  | .fdTableDestroy t => fdTableDestroy ext s t
  | .vfsMount path ops => vfsMount s path ops
  | .switchTo p => { s with current := p }
  | .resetProcess p => { s with procFdTable := update s.procFdTable p none }

def vfsStep (ext : VfsExt ρ) (s : Vfs ρ) (c : VfsCall) : Option (Vfs ρ) :=
  if c.Legal s then some (vfsNext ext s c) else none

theorem VfsInv.vfsMount (h : VfsInv U s) (path : Path) (ops : Option VfsOps) :
    VfsInv U (vfsMount s path ops) := by
  obtain ⟨mounts, heq⟩ := vfsMount_eq s path ops
  rw [heq]
  exact ⟨h.kernelLive, h.owned, h.refCount, h.hasOps, h.count⟩

/-- One call keeps the bookkeeping right. -/
theorem VfsInv.vfsStep (h : VfsInv ∅ s) {c : VfsCall} (hs' : vfsStep ext s c = some s') :
    VfsInv ∅ s' := by
  unfold OpenSys.vfsStep at hs'
  split at hs'
  · rename_i hlegal
    cases hs'
    cases c with
    | vfsOpen path flags km => exact h.vfsOpen path flags hlegal
    | vfsClose fd => exact h.fdTableClose h.getCurrentFdTable fd
    | vfsDup fd => exact h.vfsDup fd
    | vfsDup2 oldfd newfd => exact h.vfsDup2 oldfd newfd
    | vfsPipe fds => exact h.vfsPipe fds
    | fdTableCreate km => exact h.fdTableCreate hlegal
    | fdTableClone src km => exact h.fdTableClone hlegal.1 hlegal.2
    | fdTableDestroy t => exact h.fdTableDestroy hlegal.1 hlegal.2
    | vfsMount path ops => exact h.vfsMount path ops
    | switchTo p => exact ⟨h.kernelLive, h.owned, h.refCount, h.hasOps, h.count⟩
    | resetProcess p =>
      refine ⟨h.kernelLive, fun q t hq => h.owned q t ?_, h.refCount, h.hasOps, h.count⟩
      by_cases hqp : q = p
      · simp [vfsNext, hqp] at hq
      · simpa [vfsNext, hqp] using hq
  · cases hs'

/-! ## The calls of `alloc_node` -/

def createCalls (s : Vfs ρ) : Option TableId → List (Vfs ρ)
  | none => []
  | some t => installStdCalls (newTable s t) t stdSlots

def openCalls (ext : VfsExt ρ) (s : Vfs ρ) (path : Option Path) (flags : BitVec 32)
    (km : Option TableId) : List (Vfs ρ) :=
  match openBackend ext s path flags with
  | (none, _) => []
  | (some (ops, internalFd), s) =>
    s :: match allocNode s with
      | none => []
      | some (n, s) =>
        -- The second group are those of the table that a first open creates.
        if s.current.isSome ∧ s.current.bind s.procFdTable = none then
          createCalls (s.setNode n (openNode ext s ops internalFd flags)) km
        else []

def pipeCalls (s : Vfs ρ) (fds : Bool) : List (Vfs ρ) :=
  match fds, pipeAllocIndex s.dev with
  | true, some idx =>
    let s := openPipe s idx
    match allocNode s with
    | none => [s, s]
    | some (_, s₁) => [s, s₁]
  | _, _ => []

/-- The states in which a call of the layer calls `alloc_node`. -/
def allocNodeCalls (ext : VfsExt ρ) (s : Vfs ρ) : VfsCall → List (Vfs ρ)
  | .vfsOpen path flags km => openCalls ext s path flags km
  | .vfsPipe fds => pipeCalls s fds
  | .fdTableCreate km => createCalls s km
  | _ => []

/-- `alloc_node` would not return a node that a slot points to. -/
def AllocSafe (s : Vfs ρ) : Prop := ∀ n s', allocNode s = some (n, s') → s.Unreferenced n

theorem VfsInv.allocSafe (h : VfsInv U s) : AllocSafe s :=
  fun _ _ hn => h.allocNode_unreferenced hn

theorem VfsInv.createCalls (h : VfsInv ∅ s) (hkm : ∀ t ∈ km, t ∉ s.live) :
    ∀ s₁ ∈ createCalls s km, AllocSafe s₁ := by
  cases km with
  | none => simp [OpenSys.createCalls]
  | some t => exact fun s₁ hs₁ => ((h.installStd (hkm t rfl)).2 s₁ hs₁).allocSafe

theorem VfsInv.openCalls (h : VfsInv ∅ s) (path : Option Path) (flags : BitVec 32)
    (hkm : ∀ t ∈ km, t ∉ s.live) :
    ∀ s₁ ∈ openCalls ext s path flags km, AllocSafe s₁ := by
  obtain ⟨dev, hdev⟩ := openBackend_snd ext s path flags
  have hopen := h.setDev dev
  unfold OpenSys.openCalls
  split
  · simp
  rename_i ops internalFd s₁ heq
  rw [heq] at hdev
  subst hdev
  rw [forall_mem_cons]
  refine ⟨hopen.allocSafe, ?_⟩
  split
  · simp
  rename_i n s₂ halloc
  obtain ⟨-, -, rfl⟩ := allocNode_eq_some halloc
  split
  · rw [setRef_setNode]
    exact (hopen.setNode (hopen.allocNode_unreferenced halloc) rfl).createCalls hkm
  · simp

theorem VfsInv.pipeCalls (h : VfsInv U s) (fds : Bool) : ∀ s₁ ∈ pipeCalls s fds, AllocSafe s₁ := by
  unfold OpenSys.pipeCalls
  split
  · rename_i idx _
    have hpipe : VfsInv U (openPipe s idx) := h.setDev _
    dsimp only
    split
    · simpa using hpipe.allocSafe
    rename_i rnode s₁ hs₁
    obtain ⟨-, -, rfl⟩ := allocNode_eq_some hs₁
    simp only [forall_mem_cons, not_mem_nil, false_implies, implies_true, and_true]
    refine ⟨hpipe.allocSafe, fun wnode s₂ hs₂ => ?_⟩
    exact hpipe.unreferenced (allocNode_setRef hs₂).2.1
  · simp

theorem VfsInv.allocNodeCalls (h : VfsInv ∅ s) {c : VfsCall} (hc : c.Legal s) :
    ∀ s₁ ∈ allocNodeCalls ext s c, AllocSafe s₁ := by
  cases c with
  | vfsOpen path flags km => exact h.openCalls path flags hc
  | vfsPipe fds => exact h.pipeCalls fds
  | fdTableCreate km => exact h.createCalls hc
  | _ => simp [OpenSys.allocNodeCalls]

/-! ## Reachable states -/

theorem vfsInit_inv (dev : VfsDev ρ) : VfsInv ∅ (vfsInit dev) := by
  have hboot : VfsInv ∅ (vfsBoot dev) := by
    refine ⟨by simp [vfsBoot], by simp [vfsBoot], fun n => ?_, by simp [vfsBoot, emptyTable], ?_⟩
    · have hzero : refs (vfsBoot dev).slots (vfsBoot dev).slot n = 0 :=
        refs_eq_zero_iff.mpr fun k _ => by simp [slot, vfsBoot, emptyTable]
      rw [hzero]
      rfl
    · intro t _ _
      simp [vfsBoot, emptyTable, used_eq_zero]
  have hmount := hboot.vfsMount [47] (some .ramfs)
  exact (hmount.installStdFds hmount.kernelLive (by decide) fun i _ => by
    simp [OpenSys.vfsMount, remount, vfsBoot, vfsMaxMounts, emptyTable]).1

/-- The bookkeeping of the node pool as a whole. -/
structure VfsConsistent (s : Vfs ρ) : Prop where
  refCount : ∀ n, (s.nodePool n).refCount = refs s.slots s.slot n
  count : ∀ t ∈ s.live, (s.tables t).count = used Finset.univ (s.tables t).fds
  hasOps : ∀ t ∈ s.live, ∀ i n, (s.tables t).fds i = some n → (s.nodePool n).ops ≠ none
  allocSafe : AllocSafe s

/-- In every state that legal calls lead to from `vfs_init`, the reference counts,
    the table counts and the operations are right, and no call from there on makes
    `alloc_node` return a node that a slot points to. -/
theorem vfs_refs_consistent (ext : VfsExt ρ) (dev : VfsDev ρ) (cs : List VfsCall) (s : Vfs ρ)
    (hrun : Run.run (vfsStep ext) (vfsInit dev) cs = some s) :
    VfsConsistent s ∧ ∀ c : VfsCall, c.Legal s → ∀ s₁ ∈ allocNodeCalls ext s c, AllocSafe s₁ := by
  have h : VfsInv ∅ s :=
    Run.run_invariant (fun _ _ _ hs hstep => hs.vfsStep hstep) (vfsInit_inv dev) hrun
  refine ⟨⟨h.refCount, fun t ht => ?_, h.hasOps, h.allocSafe⟩, fun c hc => h.allocNodeCalls hc⟩
  exact h.count t ht (Finset.notMem_empty t)

/-- A kernel with no files behind its mounts. -/
def emptyExt : VfsExt Unit where
  ramfsFind _ _ := -1
  ramfsCreate _ _ := (-1, ())
  ramfsSize _ _ := -1
  fsVfsOpen _ _ _ := (-1, ())
  fsVfsClose _ _ := ()
  fsVfsSize _ _ := 0
  vfileExists _ _ := false
  vfileSize _ _ := -1

def emptyDev : VfsDev Unit where
  pipes _ := ⟨fun _ => 0, 0, 0, 0, 0, 0⟩
  pipeInUse _ := false
  vfileOpenPaths _ := []
  vfileOpenUsed _ := false
  rest := ()

/-- A pipe, a copy of its read end, and the read end closed again. -/
theorem vfs_refs_consistent_pipe :
    ∃ s, Run.run (vfsStep emptyExt) (vfsInit emptyDev) [.vfsPipe true, .vfsDup 3, .vfsClose 3] =
      some s ∧ VfsConsistent s :=
  ⟨_, rfl, (vfs_refs_consistent emptyExt emptyDev [.vfsPipe true, .vfsDup 3, .vfsClose 3] _ rfl).1⟩

end OpenSys
