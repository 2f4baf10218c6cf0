-- SUMMARY: What a vfs_pipe that returns -1 leaves behind.
import OpenSys.Vfs.Pipe

/-!
# A failed `vfs_pipe`

The call takes a pipe, then two nodes, then two descriptors. When the nodes run out it gives back
the node it has, which is then blank, and the pipe, whose counters stay as they were set. When the
descriptors run out it closes the one it has, which releases the node of the reading end; a node
that did not get a descriptor keeps its operations and is never given back.
-/

namespace OpenSys

open Function Finset Vfs

variable {ρ : Type} {ext : VfsExt ρ} {s s' : Vfs ρ} {n : NodeId} {t : TableId} {i : Fin 16}

/-- The nodes `alloc_node` can return. -/
def Vfs.freeNodes (s : Vfs ρ) : Finset NodeId :=
  Finset.univ.filter fun n => (s.nodePool n).refCount = 0 ∧ (s.nodePool n).ops = none

/-- The slots `fd_table_alloc` can return. -/
def Vfs.freeFds (s : Vfs ρ) (t : TableId) : Finset (Fin 32) :=
  Finset.univ.filter fun i => (s.tables t).fds i = none

/-- The node pool, the current descriptor table and the pipe pool are the same. -/
structure PoolsKept (s s' : Vfs ρ) : Prop where
  nodePool : s'.nodePool = s.nodePool
  table : s'.tables (getCurrentFdTable s) = s.tables (getCurrentFdTable s)
  pipes : s'.dev.pipes = s.dev.pipes
  pipeInUse : s'.dev.pipeInUse = s.dev.pipeInUse

/-- The counters of a pipe are those of a new one. -/
def VfsPipe.Fresh (p : VfsPipe) : Prop :=
  p.head = 0 ∧ p.tail = 0 ∧ p.count = 0 ∧ p.readers = 1 ∧ p.writers = 1

/-- What a failure needs to leave no trace, for the pipe that the call takes: with two free nodes
the call must find two descriptors; with fewer, what it writes must be there already. -/
structure PipeTraceless (s : Vfs ρ) (idx : Fin 16) : Prop where
  descriptors : 2 ≤ s.freeNodes.card → 2 ≤ (s.freeFds (getCurrentFdTable s)).card
  pipe : s.freeNodes.card < 2 → (s.dev.pipes idx).Fresh
  node : s.freeNodes.card < 2 → ∀ n ∈ s.freeNodes, s.nodePool n = ⟨.none, -1, none, 0, 0, 0, 0⟩

/-! ## Free nodes and free slots -/

theorem mem_freeNodes : n ∈ s.freeNodes ↔
    (s.nodePool n).refCount = 0 ∧ (s.nodePool n).ops = none := by
  simp [freeNodes]

theorem mem_freeFds {k : Fin 32} : k ∈ s.freeFds t ↔ (s.tables t).fds k = none := by
  simp [freeFds]

theorem allocNode_eq_none : allocNode s = none ↔ s.freeNodes = ∅ := by
  simp [allocNode, findNode, freeNodes, filter_eq_empty_iff, List.find?_eq_none]

theorem fdTableAlloc_eq_none : fdTableAlloc s t n = none ↔ s.freeFds t = ∅ := by
  simp [fdTableAlloc, freeFds, filter_eq_empty_iff, List.find?_eq_none]

@[simp]
theorem freeNodes_openPipe : (openPipe s i).freeNodes = s.freeNodes := rfl

/-- A node that is held is no longer free. -/
theorem freeNodes_setRef_one : (s.setRef n 1).freeNodes = s.freeNodes.erase n := by
  ext m
  rw [mem_erase, mem_freeNodes, mem_freeNodes]
  by_cases hm : m = n
  · subst hm
    simp [setRef]
  · simp [setRef, hm]

/-- A slot that is filled is no longer free. -/
theorem fdTableAlloc_card {k : Fin 32} (h : fdTableAlloc s t n = some (k, s')) :
    (s'.freeFds t).card + 1 = (s.freeFds t).card := by
  obtain ⟨hk, rfl⟩ := fdTableAlloc_eq_some h
  have hfds : ((s.setRef n ((s.nodePool n).refCount + 1)).setSlot t k (some n) 1).freeFds t =
      (s.freeFds t).erase k := by
    ext j
    rw [mem_erase, mem_freeFds, mem_freeFds]
    by_cases hj : j = k
    · subst hj
      simp [setSlot, setTable]
    · simp [setSlot, setTable, setRef, hj]
  rw [hfds]
  exact card_erase_add_one (mem_freeFds.mpr hk)

/-! ## The three ways to fail -/

/-- The pipe that was taken is given back with the counters of a new one. -/
theorem openPipe_given_back_iff (hfree : s.dev.pipeInUse i = false) :
    PoolsKept s ((openPipe s i).setPipeInUse i false) ↔ (s.dev.pipes i).Fresh := by
  have huse : update (update s.dev.pipeInUse i true) i false =
      s.dev.pipeInUse := by
    rw [update_idem, ← hfree, update_eq_self]
  have hpipe : update s.dev.pipes i ⟨(s.dev.pipes i).buf, 0, 0, 0, 1, 1⟩ = s.dev.pipes ↔
      (s.dev.pipes i).Fresh := by
    rw [update_eq_self_iff]
    cases s.dev.pipes i
    simp only [VfsPipe.Fresh, VfsPipe.mk.injEq, true_and]
    constructor <;> rintro ⟨rfl, rfl, rfl, rfl, rfl⟩ <;> exact ⟨rfl, rfl, rfl, rfl, rfl⟩
  exact ⟨fun h => hpipe.mp h.pipes, fun h => ⟨rfl, rfl, hpipe.mpr h, huse⟩⟩

variable (ext) in
/-- The node of the writing end is not free after a call that had its two nodes. -/
theorem pipePublish_leaks {r w : NodeId} (hne : w ≠ r) (hw : (s.nodePool w).ops ≠ none)
    (hshort : (s.freeFds (getCurrentFdTable s)).card < 2) :
    (pipePublish ext s i r w).1 = none ∧ ((pipePublish ext s i r w).2.nodePool w).ops ≠ none := by
  unfold pipePublish
  generalize getCurrentFdTable s = t at hshort ⊢
  cases hfirst : fdTableAlloc s t r with
  | none =>
    simp only [hfirst]
    exact ⟨trivial, hw⟩
  | some a =>
    obtain ⟨k, s₁⟩ := a
    have hcard := fdTableAlloc_card hfirst
    -- The first descriptor was the last free one.
    have hfull : s₁.freeFds t = ∅ := card_eq_zero.mp (by omega)
    simp only [hfirst, fdTableAlloc_eq_none.mpr hfull]
    obtain ⟨-, rfl⟩ := fdTableAlloc_eq_some hfirst
    refine ⟨trivial, ?_⟩
    have hslot : (((s.setRef r ((s.nodePool r).refCount + 1)).setSlot t k (some r) 1).tables t).fds k =
        some r := by simp [setSlot, setTable]
    simp only [fdTableClose, intIndex_self, hslot, dropRef]
    split <;> (try split) <;>
      simpa [setPipeInUse, setSlot, setTable, setRef, freeNode, setNode, hne] using hw

/-- With two free slots both ends get a descriptor. -/
theorem pipePublish_succeeds {r w : NodeId} (htwo : 2 ≤ (s.freeFds (getCurrentFdTable s)).card) :
    (pipePublish ext s i r w).1 ≠ none := by
  unfold pipePublish
  generalize getCurrentFdTable s = t at htwo ⊢
  cases hfirst : fdTableAlloc s t r with
  | none =>
    rw [fdTableAlloc_eq_none.mp hfirst] at htwo
    exact absurd htwo (by decide)
  | some a =>
    obtain ⟨k, s₁⟩ := a
    have hcard := fdTableAlloc_card hfirst
    cases hsecond : fdTableAlloc s₁ t w with
    | none =>
      rw [fdTableAlloc_eq_none.mp hsecond, card_empty] at hcard
      omega
    | some b => simp only [hfirst, hsecond, ne_eq, reduceCtorEq, not_false_eq_true]

/-! ## The theorem -/

/-- A failed call leaves the three pools exactly as they were if and only if there is no pipe to
take (or no array for the result), or there are two free nodes and two free descriptors, so that it
does not fail, or the nodes run out and the pipe and the node it gives back already looked like
that. When the descriptors run out, a node is always lost. -/
theorem vfsPipe_failure_kept_iff (ext : VfsExt ρ) (s : Vfs ρ) (fds : Bool) :
    ((vfsPipe ext s fds).1 = none → PoolsKept s (vfsPipe ext s fds).2) ↔
      (fds = true → ∀ idx, pipeAllocIndex s.dev = some idx → PipeTraceless s idx) := by
  obtain ⟨hno, heq⟩ | ⟨rfl, i, hidx, hcases⟩ := vfsPipe_cases ext s fds
  · rw [heq]
    refine iff_of_true (fun _ => ⟨rfl, rfl, rfl, rfl⟩) fun hfds idx hidx => ?_
    rw [hno hfds] at hidx
    cases hidx
  have hfree := pipeAllocIndex_free hidx
  have hgoal : (true = true → ∀ idx, pipeAllocIndex s.dev = some idx → PipeTraceless s idx) ↔
      PipeTraceless s i :=
    ⟨fun h => h rfl i hidx, fun h _ idx hidx' => Option.some.inj (hidx.symm.trans hidx') ▸ h⟩
  rw [hgoal]
  obtain ⟨hnone, heq⟩ | ⟨n, hn, hnone, heq⟩ | ⟨r, w, hne, hr, hw, heq⟩ := hcases <;> rw [heq]
  · have hempty : (openPipe s i).freeNodes = ∅ := allocNode_eq_none.mp hnone
    rw [freeNodes_openPipe] at hempty
    have hshort : s.freeNodes.card < 2 := by simp [hempty]
    simp only [true_implies, openPipe_given_back_iff hfree]
    constructor
    · intro h
      exact ⟨fun h2 => by omega, fun _ => h, fun _ n hn => by simp [hempty] at hn⟩
    · exact fun h => h.pipe hshort
  · rw [allocNode_eq_none, freeNodes_setRef_one, freeNodes_openPipe, erase_eq_empty_iff] at hnone
    have hone : s.freeNodes = {n} :=
      hnone.resolve_left (ne_empty_of_mem (mem_freeNodes.mpr hn))
    have hshort : s.freeNodes.card < 2 := by simp [hone]
    simp only [true_implies]
    constructor
    · intro h
      have hblank : update s.nodePool n ⟨.none, -1, none, 0, 0, 0, 0⟩ = s.nodePool :=
        h.nodePool
      have hpipe : PoolsKept s ((openPipe s i).setPipeInUse i false) :=
        ⟨rfl, rfl, h.pipes, h.pipeInUse⟩
      refine ⟨fun h2 => by omega, fun _ => (openPipe_given_back_iff hfree).mp hpipe, ?_⟩
      intro _ m hm
      rw [hone, mem_singleton] at hm
      rw [hm]
      exact (update_eq_self_iff.mp hblank).symm
    · intro h
      have hpipe := (openPipe_given_back_iff hfree).mpr (h.pipe hshort)
      refine ⟨?_, rfl, hpipe.pipes, hpipe.pipeInUse⟩
      exact update_eq_self_iff.mpr (h.node hshort n (mem_freeNodes.mpr hn)).symm
  · have htwo : 2 ≤ s.freeNodes.card :=
      one_lt_card.mpr ⟨w, mem_freeNodes.mpr hw, r, mem_freeNodes.mpr hr, hne⟩
    rcases Nat.lt_or_ge (s.freeFds (getCurrentFdTable s)).card 2 with hfew | hmany
    · refine iff_of_false (fun h => ?_) fun h => absurd (h.descriptors htwo) (by omega)
      obtain ⟨hfail, hleak⟩ := pipePublish_leaks ext (i := i) (s := pipeNodes s i r w) hne
        (by simp [pipeNodes, pipeNode]) hfew
      exact hleak (by rw [(h hfail).nodePool, hw.2])
    · refine iff_of_true (fun h => ?_) ⟨fun _ => hmany, fun h => by omega, fun h => by omega⟩
      exact absurd h (pipePublish_succeeds hmany)

/-- The layer after start-up and 29 copies of descriptor 0: no descriptor is free. -/
def fullTable : Vfs Unit :=
  (Run.run (vfsStep emptyExt) (vfsInit emptyDev) (List.replicate 29 (.vfsDup 0))).getD
    (vfsInit emptyDev)

/-- The call fails there, and the node it took for the writing end keeps its operations. -/
theorem vfsPipe_loses_node : ¬ ((vfsPipe emptyExt fullTable true).1 = none →
    PoolsKept fullTable (vfsPipe emptyExt fullTable true).2) := by
  intro h
  have hfail : (vfsPipe emptyExt fullTable true).1 = none := by decide +kernel
  have hpool := congrFun (h hfail).nodePool 4
  have hbefore : (fullTable.nodePool 4).ops = none := by decide +kernel
  have hafter : ((vfsPipe emptyExt fullTable true).2.nodePool 4).ops = some .pipeWrite := by
    decide +kernel
  rw [hpool, hbefore] at hafter
  cases hafter

end OpenSys
