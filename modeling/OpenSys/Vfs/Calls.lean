-- SUMMARY: What each call of the virtual filesystem layer can do to its state.
import OpenSys.Vfs.Model

/-!
# The calls, case by case

Every call leaves the state alone, gives it another backend state, or is a sequence of a few
updates: a free node is filled in, an empty slot is pointed to a node, a slot is emptied and its
reference dropped. The lemmas here say which, so that no proof about the layer unfolds a call.
-/

namespace OpenSys

open Option Vfs

variable {ρ : Type} {ext : VfsExt ρ} {s s' : Vfs ρ} {n : NodeId} {t : TableId} {i : Fin 32}

@[simp] theorem intIndex_self {k : Nat} (i : Fin k) : intIndex k (i.val : Int) = some i := by
  simp [intIndex]

theorem intIndex_val {k : Nat} {x : Int} {i : Fin k} (h : intIndex k x = some i) : x = i.val := by
  simp only [intIndex] at h
  split_ifs at h with hb
  rw [← some.inj h]
  simp [hb.1]

theorem vfsMount_eq (s : Vfs ρ) (path : Path) (ops : Option VfsOps) :
    ∃ mounts, vfsMount s path ops = { s with mounts := mounts } := by
  rw [vfsMount]
  split
  · exact ⟨_, rfl⟩
  · split_ifs
    · exact ⟨s.mounts, rfl⟩
    · exact ⟨_, rfl⟩

/-! ## Dropping a reference -/

/-- What `dropRef` can do: the last reference releases the node, and its
    backend may change its own state; any other one only lowers the count. -/
theorem dropRef_cases (ext : VfsExt ρ) (s : Vfs ρ) (n : NodeId) :
    ((s.nodePool n).refCount ≤ 1 ∧ ∃ dev, dropRef ext s n = freeNode { s with dev := dev } n) ∨
    (1 < (s.nodePool n).refCount ∧ dropRef ext s n = s.setRef n ((s.nodePool n).refCount - 1)) := by
  by_cases h : (s.nodePool n).refCount - 1 ≤ 0
  · refine .inl ⟨by omega, ?_⟩
    cases hops : (s.nodePool n).ops with
    | none => exact ⟨s.dev, by simp [dropRef, h, hops, freeNode, setRef, setNode]⟩
    | some ops =>
      refine ⟨opsClose ext ops s.dev (s.nodePool n).internalFd, ?_⟩
      simp [dropRef, h, hops, freeNode, setRef, setNode]
  · exact .inr ⟨by omega, by simp [dropRef, h]⟩

@[simp] theorem dropRef_tables (s : Vfs ρ) (n : NodeId) : (dropRef ext s n).tables = s.tables := by
  obtain ⟨-, dev, h⟩ | ⟨-, h⟩ := dropRef_cases ext s n <;> rw [h] <;> rfl

@[simp] theorem dropRef_live (s : Vfs ρ) (n : NodeId) : (dropRef ext s n).live = s.live := by
  obtain ⟨-, dev, h⟩ | ⟨-, h⟩ := dropRef_cases ext s n <;> rw [h] <;> rfl

@[simp] theorem dropRef_procFdTable (s : Vfs ρ) (n : NodeId) :
    (dropRef ext s n).procFdTable = s.procFdTable := by
  obtain ⟨-, dev, h⟩ | ⟨-, h⟩ := dropRef_cases ext s n <;> rw [h] <;> rfl

theorem dropRef_of_ne {m : NodeId} (hm : m ≠ n) : (dropRef ext s n).nodePool m = s.nodePool m := by
  obtain ⟨-, dev, h⟩ | ⟨-, h⟩ := dropRef_cases ext s n
  · simp [h, freeNode, hm]
  · simp [h, setRef, hm]

theorem dropRef_refCount (hpos : 0 < (s.nodePool n).refCount) :
    ((dropRef ext s n).nodePool n).refCount = (s.nodePool n).refCount - 1 := by
  obtain ⟨hle, dev, h⟩ | ⟨-, h⟩ := dropRef_cases ext s n
  · simp [h, freeNode]
    omega
  · simp [h, setRef]

/-- A node keeps its operations until its last reference goes. -/
theorem dropRef_ops (hlt : 1 < (s.nodePool n).refCount) :
    ((dropRef ext s n).nodePool n).ops = (s.nodePool n).ops := by
  obtain ⟨hle, -⟩ | ⟨-, h⟩ := dropRef_cases ext s n
  · omega
  · simp [h, setRef]

/-! ## Nodes and slots -/

theorem allocNode_eq_some (h : allocNode s = some (n, s')) :
    (s.nodePool n).refCount = 0 ∧ (s.nodePool n).ops = none ∧ s' = s.setRef n 1 := by
  obtain ⟨m, hn, heq⟩ := map_eq_some_iff.mp h
  obtain ⟨rfl, rfl⟩ := Prod.mk.inj heq
  have hfound := List.find?_some hn
  rw [Bool.and_eq_true, beq_iff_eq, beq_iff_eq] at hfound
  exact ⟨hfound.1, hfound.2, rfl⟩

/-- The second node of a pipe differs from the first, which `alloc_node` has
    marked, and was free before. -/
theorem allocNode_setRef {m : NodeId} (h : allocNode (s.setRef m 1) = some (n, s')) :
    n ≠ m ∧ (s.nodePool n).refCount = 0 ∧ (s.nodePool n).ops = none := by
  obtain ⟨hzero, hops, -⟩ := allocNode_eq_some h
  have hne : n ≠ m := by
    rintro rfl
    simp [setRef] at hzero
  exact ⟨hne, by simpa [setRef, hne] using hzero, by simpa [setRef, hne] using hops⟩

/-- The mark that `alloc_node` leaves is gone once the node is filled in. -/
theorem setRef_setNode (r : Int) (node : VfsNode) :
    (s.setRef n r).setNode n node = s.setNode n node := by
  simp [setRef, setNode]

theorem setRef_setRef_setNode_setNode {m : NodeId} (r r' : Int) (node node' : VfsNode) :
    (((s.setRef m r).setRef n r').setNode m node).setNode n node' =
      (s.setNode m node).setNode n node' := by
  simp only [setRef, setNode]
  congr 1
  funext k
  simp only [Function.update_apply]
  split
  · rfl
  · split <;> rfl

theorem fdTableAlloc_eq_some (h : fdTableAlloc s t n = some (i, s')) : (s.tables t).fds i = none ∧
      s' = (s.setRef n ((s.nodePool n).refCount + 1)).setSlot t i (some n) 1 := by
  obtain ⟨j, hj, heq⟩ := map_eq_some_iff.mp h
  obtain ⟨rfl, rfl⟩ := Prod.mk.inj heq
  exact ⟨by simpa using List.find?_some hj, rfl⟩

theorem fdTableClose_cases (ext : VfsExt ρ) (s : Vfs ρ) (t : TableId) (fd : Int) :
    (fdTableClose ext s t fd).2 = s ∨ ∃ i n, intIndex 32 fd = some i ∧ (s.tables t).fds i = some n ∧
      (fdTableClose ext s t fd).2 = (dropRef ext s n).setSlot t i none (-1) := by
  unfold fdTableClose
  split
  · exact .inl rfl
  next i hi =>
  split
  · exact .inl rfl
  · next n hn => exact .inr ⟨i, n, hi, hn, rfl⟩

@[simp] theorem fdTableClose_live (fd : Int) : (fdTableClose ext s t fd).2.live = s.live := by
  obtain h | ⟨i, n, -, -, h⟩ := fdTableClose_cases ext s t fd
  · rw [h]
  · simp [h]

theorem cloneSlot_cases (src dst : TableId) (s : Vfs ρ) (i : Fin 32) :
    cloneSlot src dst s i = s ∨ ∃ n, (s.tables src).fds i = some n ∧ cloneSlot src dst s i =
      (s.setRef n ((s.nodePool n).refCount + 1)).setSlot dst i (some n) 1 := by
  cases hslot : (s.tables src).fds i with
  | none => exact .inl (by simp [cloneSlot, hslot])
  | some n =>
    refine .inr ⟨n, rfl, ?_⟩
    simp [cloneSlot, hslot, setRef, setNode, setSlot, setTable]

theorem destroySlot_cases (ext : VfsExt ρ) (t : TableId) (s : Vfs ρ) (i : Fin 32) :
    ((s.tables t).fds i = none ∧ destroySlot ext t s i = s) ∨ ∃ n, (s.tables t).fds i = some n ∧
      destroySlot ext t s i = (dropRef ext s n).setSlot t i none 0 := by
  cases hslot : (s.tables t).fds i with
  | none => exact .inl ⟨rfl, by simp [destroySlot, hslot]⟩
  | some n => exact .inr ⟨n, rfl, by simp [destroySlot, hslot]⟩

/-! ## New tables -/

/-- Installing a standard descriptor fills in a free node and links it. -/
theorem installStdFd_eq_some (h : installStdFd s t i = some s') :
    ∃ n s₁ node, allocNode s = some (n, s₁) ∧ node.refCount = 0 ∧ node.ops = some .console ∧
      s' = ((s.setNode n node).setRef n 1).setSlot t i (some n) 1 := by
  obtain ⟨⟨n, s₁⟩, hn, rfl⟩ := map_eq_some_iff.mp h
  obtain ⟨-, -, rfl⟩ := allocNode_eq_some hn
  refine ⟨n, _, ⟨.device, i.val, some .console, 0, 0, 0, if i = 0 then 0 else 1⟩, hn, rfl, rfl, ?_⟩
  simp [setRef, setNode]

/-- The rounds of `fd_table_install_std`: what one round carries on, all of them do. -/
theorem installStdFds_induction {P : Vfs ρ → Prop} (is : List (Fin 32)) (hs : P s)
    (hstep : ∀ s i s', i ∈ is → P s → installStdFd s t i = some s' → P s') :
    P (installStdFds s t is) := by
  induction is generalizing s with
  | nil => exact hs
  | cons i is ih =>
    unfold installStdFds
    split
    · exact hs
    · next s₁ hs₁ =>
      exact ih (hstep s i s₁ List.mem_cons_self hs hs₁)
        fun s j s' hj => hstep s j s' (List.mem_cons_of_mem i hj)

/-- What stays when the standard descriptors are installed; free nodes are all they take. -/
theorem installStdFds_frame (is : List (Fin 32)) :
    (installStdFds s t is).current = s.current ∧ (installStdFds s t is).live = s.live ∧
      (installStdFds s t is).procFdTable = s.procFdTable ∧
      (∀ t', t' ≠ t → (installStdFds s t is).tables t' = s.tables t') ∧
      ∀ n, (s.nodePool n).ops ≠ none → (installStdFds s t is).nodePool n = s.nodePool n := by
  refine installStdFds_induction (P := fun s' => s'.current = s.current ∧ s'.live = s.live ∧
    s'.procFdTable = s.procFdTable ∧ (∀ t', t' ≠ t → s'.tables t' = s.tables t') ∧
      ∀ n, (s.nodePool n).ops ≠ none → s'.nodePool n = s.nodePool n) is
    ⟨rfl, rfl, rfl, fun _ _ => rfl, fun _ _ => rfl⟩ fun s₁ i s₂ _ h hs₂ => ?_
  obtain ⟨hcur, hlive, hproc, htables, hnodes⟩ := h
  obtain ⟨m, s₀, node, hm, -, -, rfl⟩ := installStdFd_eq_some hs₂
  refine ⟨hcur, hlive, hproc, fun t' ht' => ?_, fun n hn => ?_⟩
  · exact (Function.update_of_ne ht' _ _).trans (htables t' ht')
  have hne : n ≠ m := by
    rintro rfl
    rw [← hnodes n hn] at hn
    exact hn (allocNode_eq_some hm).2.1
  simpa [setRef, hne] using hnodes n hn

/-- The state in which process `p` has got the new table `t`. -/
def tableCreated (s : Vfs ρ) (p : Nat) (t : TableId) : Vfs ρ :=
  { fdTableInstallStd (newTable s t) t with
    procFdTable := Function.update (fdTableInstallStd (newTable s t) t).procFdTable p (some t) }

/-- The table of an open is the caller's, or cannot be made, or is new. -/
theorem openTable_cases (s : Vfs ρ) (km : Option TableId) :
    (∃ o, openTable s km = (o, s) ∧ ∀ t ∈ o, (s.current = none ∧ t = kernelFdTable) ∨
      ∃ p, s.current = some p ∧ s.procFdTable p = some t) ∨
    ∃ p t, s.current = some p ∧ s.procFdTable p = none ∧ km = some t ∧
      openTable s km = (some t, tableCreated s p t) := by
  cases hcur : s.current with
  | none => exact .inl ⟨some kernelFdTable, by simp [openTable, hcur], by simp⟩
  | some p =>
    cases hp : s.procFdTable p with
    | some t => exact .inl ⟨some t, by simp [openTable, hcur, hp], by simpa using hp⟩
    | none =>
      cases km with
      | none => exact .inl ⟨none, by simp [openTable, hcur, hp, fdTableCreate], by simp⟩
      | some t =>
        exact .inr ⟨p, t, rfl, hp, rfl, by simp [openTable, hcur, hp, fdTableCreate, tableCreated]⟩

theorem tableCreated_nodePool {p : Nat} (hn : (s.nodePool n).ops ≠ none) :
    (tableCreated s p t).nodePool n = s.nodePool n :=
  (installStdFds_frame (s := newTable s t) stdSlots).2.2.2.2 n hn

theorem openTable_nodePool (km : Option TableId) (hn : (s.nodePool n).ops ≠ none) :
    (openTable s km).2.nodePool n = s.nodePool n := by
  obtain ⟨o, h, -⟩ | ⟨p, t, -, -, -, h⟩ := openTable_cases s km
  · rw [h]
  · rw [h]
    exact tableCreated_nodePool hn

/-! ## Calls -/

theorem openPublish_cases (s : Vfs ρ) (n : NodeId) (km : Option TableId) :
    openPublish s n km = (-1, freeNode (openTable s km).2 n) ∨
      ∃ t fd s', (openTable s km).1 = some t ∧ fdTableAlloc (openTable s km).2 t n = some (fd, s') ∧
        openPublish s n km = ((fd.val : Int), s') := by
  unfold openPublish
  split
  · next s₁ h => exact .inl (by rw [h])
  next t s₁ h =>
  rw [h]
  split
  · exact .inl rfl
  · next fd s₂ hfd => exact .inr ⟨t, fd, s₂, rfl, hfd, rfl⟩

/-- Opening a backend only changes the state behind the operations tables. -/
theorem openBackend_snd (ext : VfsExt ρ) (s : Vfs ρ) (path : Option Path) (flags : BitVec 32) :
    ∃ dev, (openBackend ext s path flags).2 = { s with dev := dev } := by
  unfold openBackend
  split
  · exact ⟨s.dev, rfl⟩
  split
  · exact ⟨s.dev, rfl⟩
  · split
    · exact ⟨s.dev, rfl⟩
    · exact ⟨_, rfl⟩

/-- How far `vfs_open` comes: no backend, no node, or a node to publish. -/
theorem vfsOpen_cases (ext : VfsExt ρ) (s : Vfs ρ) (path : Option Path) (flags : BitVec 32)
    (km : Option TableId) :
    let s₁ := (openBackend ext s path flags).2
    vfsOpen ext s path flags km = (-1, s₁) ∨
      ∃ ops fd, (openBackend ext s path flags).1 = some (ops, fd) ∧
        (vfsOpen ext s path flags km = (-1, { s₁ with dev := opsClose ext ops s₁.dev fd }) ∨
          ∃ n node, (s₁.nodePool n).refCount = 0 ∧ (s₁.nodePool n).ops = none ∧
            node.refCount = 0 ∧ node.ops = some ops ∧
            vfsOpen ext s path flags km = openPublish (s₁.setNode n node) n km) := by
  unfold vfsOpen
  rcases openBackend ext s path flags with ⟨_ | ⟨ops, fd⟩, s₁⟩
  · exact .inl rfl
  refine .inr ⟨ops, fd, rfl, ?_⟩
  cases hn : allocNode s₁ with
  | none => exact .inl (by simp [hn])
  | some r =>
    obtain ⟨n, s₂⟩ := r
    obtain ⟨hzero, hops, rfl⟩ := allocNode_eq_some hn
    refine .inr ⟨n, openNode ext (s₁.setRef n 1) ops fd flags, hzero, hops, rfl, rfl, ?_⟩
    simp only [hn]
    rw [setRef_setNode]

theorem vfsDup_cases (s : Vfs ρ) (fd : Int) : (vfsDup s fd).2 = s ∨
    ∃ k n i, (s.tables (getCurrentFdTable s)).fds k = some n ∧
      fdTableAlloc s (getCurrentFdTable s) n = some (i, (vfsDup s fd).2) := by
  unfold vfsDup
  dsimp only
  split
  · exact .inl rfl
  next n hget =>
  obtain ⟨k, -, hk⟩ := bind_eq_some_iff.mp hget
  split
  · exact .inl rfl
  · next i s₁ hs₁ => exact .inr ⟨k, n, i, hk, hs₁⟩

/-- `vfs_dup2` first makes sure that the slot is free, in `s₁`, and then points it to the node. -/
theorem vfsDup2_cases (ext : VfsExt ρ) (s : Vfs ρ) (oldfd newfd : Int) :
    (vfsDup2 ext s oldfd newfd).2 = s ∨ ∃ old new n s₁, intIndex 32 newfd = some new ∧
      (s₁ = s ∨ s₁ = (fdTableClose ext s (getCurrentFdTable s) newfd).2) ∧
      (s₁.tables (getCurrentFdTable s)).fds old = some n ∧
      (s₁.tables (getCurrentFdTable s)).fds new = none ∧
      (vfsDup2 ext s oldfd newfd).2 =
        (s₁.setRef n ((s₁.nodePool n).refCount + 1)).setSlot (getCurrentFdTable s) new (some n) 1 := by
  unfold vfsDup2
  generalize getCurrentFdTable s = t
  dsimp only
  split
  · next old new _ hnew =>
    split
    · exact .inl rfl
    next heq =>
    split
    · exact .inl rfl
    next n hold =>
    split_ifs with hempty
    · exact .inr ⟨old, new, n, s, hnew, .inl rfl, hold, hempty, rfl⟩
    obtain ⟨m, hm⟩ := ne_none_iff_exists'.mp hempty
    have hclose : (fdTableClose ext s t newfd).2 =
        (dropRef ext s m).setSlot t new none (-1) := by
      simp [fdTableClose, hnew, hm]
    refine .inr ⟨old, new, n, _, hnew, .inr rfl, ?_, ?_, rfl⟩
    · simpa [hclose, setSlot, setTable, heq] using hold
    · simp [hclose, setSlot, setTable]
  · exact .inl rfl

/-- The nodes of the two ends, filled in. -/
def pipeNodes (s : Vfs ρ) (idx : Fin 16) (rnode wnode : NodeId) : Vfs ρ :=
  ((openPipe s idx).setNode rnode (pipeNode .pipeRead .pipeRead idx 0)).setNode wnode
    (pipeNode .pipeWrite .pipeWrite idx 1)

/-- How far `vfs_pipe` comes: no pipe, no node, one node, or two nodes to publish. -/
theorem vfsPipe_cases (ext : VfsExt ρ) (s : Vfs ρ) (fds : Bool) :
    (fds = true → pipeAllocIndex s.dev = none) ∧ vfsPipe ext s fds = (none, s) ∨
    fds = true ∧ ∃ idx, pipeAllocIndex s.dev = some idx ∧ (allocNode (openPipe s idx) = none ∧
          vfsPipe ext s fds = (none, (openPipe s idx).setPipeInUse idx false) ∨
        (∃ r, ((s.nodePool r).refCount = 0 ∧ (s.nodePool r).ops = none) ∧
          allocNode ((openPipe s idx).setRef r 1) = none ∧
          vfsPipe ext s fds = (none, freeNode ((openPipe s idx).setPipeInUse idx false) r)) ∨
        ∃ r w, w ≠ r ∧ ((s.nodePool r).refCount = 0 ∧ (s.nodePool r).ops = none) ∧
          ((s.nodePool w).refCount = 0 ∧ (s.nodePool w).ops = none) ∧
          vfsPipe ext s fds = pipePublish ext (pipeNodes s idx r w) idx r w) := by
  cases fds with
  | false => exact .inl ⟨fun h => (nomatch h), rfl⟩
  | true =>
  cases hidx : pipeAllocIndex s.dev with
  | none => exact .inl ⟨fun _ => rfl, by simp [vfsPipe, hidx]⟩
  | some idx =>
  refine .inr ⟨rfl, idx, rfl, ?_⟩
  cases hr : allocNode (openPipe s idx) with
  | none => exact .inl ⟨rfl, by simp [vfsPipe, hidx, hr]⟩
  | some a =>
  obtain ⟨r, s₁⟩ := a
  obtain ⟨hrzero, hrops, rfl⟩ := allocNode_eq_some hr
  refine .inr ?_
  cases hw : allocNode ((openPipe s idx).setRef r 1) with
  | none =>
    refine .inl ⟨r, ⟨hrzero, hrops⟩, hw, ?_⟩
    simp only [vfsPipe, hidx, hr, hw, Bool.not_true, Bool.false_eq_true, if_false]
    simp [freeNode, setPipeInUse, setRef, setNode]
  | some b =>
    obtain ⟨w, s₂⟩ := b
    obtain ⟨hne, hfree⟩ := allocNode_setRef hw
    obtain ⟨-, -, rfl⟩ := allocNode_eq_some hw
    refine .inr ⟨r, w, hne, ⟨hrzero, hrops⟩, hfree, ?_⟩
    simp only [vfsPipe, hidx, hr, hw, Bool.not_true, Bool.false_eq_true, if_false, pipeNodes]
    rw [setRef_setRef_setNode_setNode]

end OpenSys
