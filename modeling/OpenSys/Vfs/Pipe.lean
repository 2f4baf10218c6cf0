-- SUMMARY: Pipes are first-in first-out queues over any interleaving of calls.
import OpenSys.Vfs.Isolation

/-!
# Pipes

A pipe counts its open ends in `readers` and `writers`. An end is a node, not a descriptor:
duplicates and inherited descriptors share it, and it is closed with its last reference.
So each counter is the number of nodes in use for that end, and a slot of the pool that is
not in use has no node left.
-/

namespace OpenSys

open Run RingBuffer Function Option List Finset Nat Vfs VfsPipe

variable {ρ : Type} {ext : VfsExt ρ} {io : VfsIo ρ} {s s' s'' : Vfs ρ} {n m : NodeId}
  {t : TableId} {i j : Fin 16} {U : Finset TableId} {o : VfsOps}

/-! ## Ends in use -/

/-- A node that is in use as an end of pipe `i`. -/
def VfsNode.IsEnd (node : VfsNode) (o : VfsOps) (i : Fin 16) : Prop :=
  0 < node.refCount ∧ node.ops = some o ∧ node.internalFd = i.val

instance (node : VfsNode) (o : VfsOps) (i : Fin 16) : Decidable (node.IsEnd o i) := by
  unfold VfsNode.IsEnd
  infer_instance

def Vfs.ends (s : Vfs ρ) (o : VfsOps) (i : Fin 16) : Finset NodeId :=
  Finset.univ.filter fun n => (s.nodePool n).IsEnd o i

@[simp] theorem mem_ends : n ∈ s.ends o i ↔ (s.nodePool n).IsEnd o i := by
  simp [ends]

/-- The counters of a pipe in use, and the absence of ends otherwise. -/
structure EndsAt (s : Vfs ρ) (i : Fin 16) : Prop where
  readers : s.dev.pipeInUse i = true → (s.dev.pipes i).readers = (s.ends .pipeRead i).card
  writers : s.dev.pipeInUse i = true → (s.dev.pipes i).writers = (s.ends .pipeWrite i).card
  unused : s.dev.pipeInUse i = false → s.ends .pipeRead i = ∅ ∧ s.ends .pipeWrite i = ∅

/-- A node in use as an end of some pipe. -/
def VfsNode.Held (node : VfsNode) : Prop :=
  0 < node.refCount ∧ (node.ops = some .pipeRead ∨ node.ops = some .pipeWrite)

/-- The read end is read-only and the write end write-only. -/
def VfsNode.EndFlags (node : VfsNode) : Prop :=
  (node.ops = some .pipeRead → node.flags = 0) ∧ (node.ops = some .pipeWrite → node.flags = 1)

structure PipesOk (s : Vfs ρ) : Prop where
  ends : ∀ i, EndsAt s i
  flags : ∀ n, (s.nodePool n).Held → (s.nodePool n).EndFlags

/-- The same bytes at the same place. -/
def VfsPipe.SameRing (p p' : VfsPipe) : Prop :=
  p'.buf = p.buf ∧ p'.head = p.head ∧ p'.tail = p.tail ∧ p'.count = p.count

/-- A pipe that is in use afterwards was in use before, with the same bytes. -/
def RingSame (d d' : VfsDev ρ) : Prop :=
  ∀ i, d'.pipeInUse i = true → d.pipeInUse i = true ∧ (d.pipes i).SameRing (d'.pipes i)

/-- A change that creates no pipe and moves no bytes. -/
structure PipesKept (s s' : Vfs ρ) : Prop where
  ok : PipesOk s → PipesOk s'
  ring : RingSame s.dev s'.dev

variable {d : VfsDev ρ} {b : VfsNode} {p : VfsPipe} {v : Vfs ρ} {fd : Int}

theorem RingSame.of_eq {d' : VfsDev ρ} (hpipes : d'.pipes = d.pipes)
    (huse : d'.pipeInUse = d.pipeInUse) : RingSame d d' := by
  intro i hi
  rw [huse] at hi
  rw [hpipes]
  exact ⟨hi, rfl, rfl, rfl, rfl⟩

theorem RingSame.trans {d' d'' : VfsDev ρ} (h : RingSame d d') (h' : RingSame d' d'') :
    RingSame d d'' := by
  intro i hi
  obtain ⟨hi', hbuf', hhead', htail', hcount'⟩ := h' i hi
  obtain ⟨hi'', hbuf, hhead, htail, hcount⟩ := h i hi'
  exact ⟨hi'', hbuf'.trans hbuf, hhead'.trans hhead, htail'.trans htail, hcount'.trans hcount⟩

theorem PipesKept.refl (s : Vfs ρ) : PipesKept s s := ⟨id, .of_eq rfl rfl⟩

theorem PipesKept.trans (h : PipesKept s s') (h' : PipesKept s' s'') : PipesKept s s'' :=
  ⟨fun hs => h'.ok (h.ok hs), h.ring.trans h'.ring⟩

/-- The same end of the same pipe, or no end in use on either side. -/
structure VfsNode.SameEnd (a b : VfsNode) : Prop where
  held : b.Held ↔ a.Held
  ops : b.Held → b.ops = a.ops
  internalFd : b.Held → b.internalFd = a.internalFd
  flags : b.Held → b.flags = a.flags

theorem VfsNode.SameEnd.refl (a : VfsNode) : a.SameEnd a :=
  ⟨Iff.rfl, fun _ => rfl, fun _ => rfl, fun _ => rfl⟩

theorem VfsNode.SameEnd.of_not_held {a : VfsNode} (ha : ¬ a.Held) (hb : ¬ b.Held) : a.SameEnd b :=
  ⟨by simp [ha, hb], fun h => absurd h hb, fun h => absurd h hb, fun h => absurd h hb⟩

theorem VfsNode.SameEnd.of_sameFile {a : VfsNode} (h : a.SameFile b)
    (href : 0 < b.refCount ↔ 0 < a.refCount) : a.SameEnd b :=
  ⟨by rw [VfsNode.Held, VfsNode.Held, h.ops, href], fun _ => h.ops, fun _ => h.internalFd,
    fun _ => h.flags⟩

theorem VfsNode.IsEnd.held {node : VfsNode} (h : node.IsEnd o i)
    (ho : o = .pipeRead ∨ o = .pipeWrite) : node.Held := by
  refine ⟨h.1, ?_⟩
  rw [h.2.1]
  rcases ho with rfl | rfl
  · exact .inl rfl
  · exact .inr rfl

theorem VfsNode.SameEnd.isEnd {a : VfsNode} (h : a.SameEnd b) (ho : o = .pipeRead ∨ o = .pipeWrite) : b.IsEnd o i ↔ a.IsEnd o i := by
  constructor
  · intro hb
    have hheld := hb.held ho
    exact ⟨(h.held.mp hheld).1, (h.ops hheld).symm.trans hb.2.1,
      (h.internalFd hheld).symm.trans hb.2.2⟩
  · intro ha
    have hheld := h.held.mpr (ha.held ho)
    exact ⟨hheld.1, (h.ops hheld).trans ha.2.1, (h.internalFd hheld).trans ha.2.2⟩

/-- One pipe with the same counters and the same ends. -/
theorem EndsAt.congr (h : EndsAt s i) (hreaders : (s'.dev.pipes i).readers = (s.dev.pipes i).readers)
    (hwriters : (s'.dev.pipes i).writers = (s.dev.pipes i).writers)
    (huse : s'.dev.pipeInUse i = s.dev.pipeInUse i)
    (hends : ∀ o, o = .pipeRead ∨ o = .pipeWrite → s'.ends o i = s.ends o i) : EndsAt s' i := by
  obtain ⟨hr, hw, hunused⟩ := h
  have hread := hends _ (.inl rfl)
  have hwrite := hends _ (.inr rfl)
  exact ⟨by rwa [huse, hreaders, hread], by rwa [huse, hwriters, hwrite],
    by rwa [huse, hread, hwrite]⟩

theorem PipesOk.sameEnd_flags (h : PipesOk s) (hn : (s.nodePool n).SameEnd (s'.nodePool n))
    (hheld : (s'.nodePool n).Held) : (s'.nodePool n).EndFlags := by
  obtain ⟨hread, hwrite⟩ := h.flags n (hn.held.mp hheld)
  rw [VfsNode.EndFlags, hn.ops hheld, hn.flags hheld]
  exact ⟨hread, hwrite⟩

/-- The ends and the counters are the same. -/
theorem PipesOk.of_counters (h : PipesOk s)
    (hcounters : ∀ i, (s'.dev.pipes i).readers = (s.dev.pipes i).readers ∧
      (s'.dev.pipes i).writers = (s.dev.pipes i).writers)
    (huse : s'.dev.pipeInUse = s.dev.pipeInUse)
    (hnodes : ∀ n, (s.nodePool n).SameEnd (s'.nodePool n)) : PipesOk s' where
  ends i := (h.ends i).congr (hcounters i).1 (hcounters i).2 (congrFun huse i)
    fun _ ho => filter_congr fun n _ => (hnodes n).isEnd ho
  flags n hn := h.sameEnd_flags (hnodes n) hn

/-- Nodes may change as long as they stay the same ends. -/
theorem PipesKept.of_nodes (hpipes : s'.dev.pipes = s.dev.pipes)
    (huse : s'.dev.pipeInUse = s.dev.pipeInUse)
    (hnodes : ∀ n, (s.nodePool n).SameEnd (s'.nodePool n)) : PipesKept s s' :=
  ⟨fun h => h.of_counters (fun i => by rw [hpipes]; exact ⟨rfl, rfl⟩) huse hnodes,
    .of_eq hpipes huse⟩

theorem PipesKept.setDev {dev : VfsDev ρ} (hpipes : dev.pipes = s.dev.pipes)
    (huse : dev.pipeInUse = s.dev.pipeInUse) : PipesKept s { s with dev := dev } :=
  .of_nodes hpipes huse fun _ => .refl _

theorem PipesKept.setNode {node : VfsNode} (h : (s.nodePool n).SameEnd node) :
    PipesKept s (s.setNode n node) := by
  refine .of_nodes rfl rfl fun k => ?_
  by_cases hk : k = n
  · subst hk
    simpa using h
  · simpa [hk] using VfsNode.SameEnd.refl _

theorem PipesKept.setSlot (t : TableId) (k : Fin 32) (v : Option NodeId) (d : Int) :
    PipesKept s (s.setSlot t k v d) :=
  .of_nodes rfl rfl fun _ => .refl _

/-- A further reference to a node in use. -/
theorem PipesKept.setRef {r : Int} (hpos : 0 < (s.nodePool n).refCount) (hr : 0 < r) :
    PipesKept s (s.setRef n r) :=
  .setNode (.of_sameFile ⟨rfl, rfl, rfl, rfl⟩ (by simp [hpos, hr]))

/-! ## Closing -/

/-- One end of the kind `o` less. -/
def VfsPipe.dropEnd (o : VfsOps) (p : VfsPipe) : VfsPipe :=
  { p with
    readers := p.readers - if o = .pipeRead then 1 else 0
    writers := p.writers - if o = .pipeWrite then 1 else 0 }

theorem opsClose_pipe (ho : o = .pipeRead ∨ o = .pipeWrite) (d : VfsDev ρ) (fd : Int) :
    opsClose ext o d fd = pipeRelease d fd (VfsPipe.dropEnd o) := by
  rcases ho with rfl | rfl
  · simp [opsClose, pipeVfsCloseRead, pipeRelease, dropEnd]
  · simp [opsClose, pipeVfsCloseWrite, pipeRelease, dropEnd]

theorem opsClose_other (ext : VfsExt ρ) (hread : o ≠ .pipeRead) (hwrite : o ≠ .pipeWrite) (d : VfsDev ρ)
    (fd : Int) : (opsClose ext o d fd).pipes = d.pipes ∧
      (opsClose ext o d fd).pipeInUse = d.pipeInUse := by
  cases o with
  | ramfs | console | fs => exact ⟨rfl, rfl⟩
  | vfile =>
    rw [opsClose, vfileVfsClose]
    split <;> exact ⟨rfl, rfl⟩
  | pipeRead => exact absurd rfl hread
  | pipeWrite => exact absurd rfl hwrite

/-- The node that loses its last reference. -/
theorem dropRef_last (h : (s.nodePool n).refCount ≤ 1) : dropRef ext s n = freeNode { s with
      dev := match (s.nodePool n).ops with
        | none => s.dev
        | some ops => opsClose ext ops s.dev (s.nodePool n).internalFd } n := by
  have hle : (s.nodePool n).refCount - 1 ≤ 0 := by omega
  cases hops : (s.nodePool n).ops with
  | none => simp [dropRef, hle, hops, freeNode, setRef, setNode]
  | some ops => simp [dropRef, hle, hops, freeNode, setRef, setNode]

theorem ends_freeNode (dev : VfsDev ρ) (o : VfsOps) (i : Fin 16) :
    (freeNode { s with dev := dev } n).ends o i = (s.ends o i).erase n := by
  ext k
  rw [mem_erase, mem_ends, mem_ends]
  by_cases hk : k = n
  · subst hk
    simp [freeNode, VfsNode.IsEnd]
  · simp [freeNode, hk]

@[simp] theorem freeNode_dev (s : Vfs ρ) (n : NodeId) : (freeNode s n).dev = s.dev := rfl

theorem freeNode_not_held (s : Vfs ρ) (n : NodeId) : ¬ ((freeNode s n).nodePool n).Held := by
  simp [freeNode, VfsNode.Held]

/-- What the last close of an end does to the pipes. -/
theorem pipeRelease_cases (d : VfsDev ρ) (drop : VfsPipe → VfsPipe) (hi : d.pipeInUse i = true) :
    (pipeRelease d i.val drop).pipes = update d.pipes i (drop (d.pipes i)) ∧
      (∀ j, j ≠ i → (pipeRelease d i.val drop).pipeInUse j = d.pipeInUse j) ∧
      ((pipeRelease d i.val drop).pipeInUse i = false ↔
        (drop (d.pipes i)).readers ≤ 0 ∧ (drop (d.pipes i)).writers ≤ 0) := by
  simp only [pipeRelease, intIndex_self, hi, Bool.not_true, Bool.false_eq_true, if_false]
  refine ⟨trivial, fun j hj => ?_, ?_⟩
  · split_ifs
    · exact update_of_ne hj _ _
    · rfl
  · split_ifs with h
    · simp [h]
    · simp [h, hi]

theorem RingSame.dropEnd (d : VfsDev ρ) (fd : Int) : RingSame d (pipeRelease d fd (VfsPipe.dropEnd o)) := by
  cases hidx : intIndex 16 fd with
  | none =>
    simp only [pipeRelease, hidx]
    exact .of_eq rfl rfl
  | some i =>
    cases hi : d.pipeInUse i with
    | false =>
      simp only [pipeRelease, hidx, hi]
      exact .of_eq rfl rfl
    | true =>
      have hfd : fd = i.val := intIndex_val hidx
      obtain ⟨hpipes, hother, -⟩ := pipeRelease_cases d (VfsPipe.dropEnd o) hi
      rw [hfd]
      intro j hj
      by_cases hji : j = i
      · subst hji
        rw [hpipes, update_self]
        exact ⟨hi, rfl, rfl, rfl, rfl⟩
      · rw [hother j hji] at hj
        rw [hpipes, update_of_ne hji]
        exact ⟨hj, rfl, rfl, rfl, rfl⟩

/-- A pipe with a node in use as one of its ends is in use. -/
theorem inUse_of_isEnd (h : ∀ i, EndsAt s i) (ho : o = .pipeRead ∨ o = .pipeWrite)
    (hn : (s.nodePool n).IsEnd o i) : s.dev.pipeInUse i = true := by
  by_contra hne
  obtain ⟨hr, hw⟩ := (h i).unused (by simpa using hne)
  have hmem : n ∈ s.ends o i := mem_ends.mpr hn
  rcases ho with rfl | rfl
  · simp [hr] at hmem
  · simp [hw] at hmem

/-- Erasing an end of the kind `o` lowers the number of ends of that kind only. -/
theorem card_erase_ends (hn : (s.nodePool n).IsEnd o i) (o' : VfsOps) :
    (((s.ends o' i).erase n).card : Int) = (s.ends o' i).card - if o = o' then 1 else 0 := by
  by_cases ho : o = o'
  · subst ho
    have hmem : n ∈ s.ends o i := mem_ends.mpr hn
    have hcard := card_erase_add_one hmem
    simp
    omega
  · rw [erase_eq_of_notMem, if_neg ho, sub_zero]
    exact fun hmem => ho (some.inj (hn.2.1.symm.trans (mem_ends.mp hmem).2.1))

/-- The last reference to an end goes, and the counter follows. -/
theorem EndsAt.release (h : ∀ i, EndsAt s i) (ho : o = .pipeRead ∨ o = .pipeWrite)
    (hn : (s.nodePool n).IsEnd o i) (j : Fin 16) :
    EndsAt (freeNode { s with dev := pipeRelease s.dev i.val (VfsPipe.dropEnd o) } n) j := by
  have huse := inUse_of_isEnd h ho hn
  obtain ⟨hpipes, hother, hfalse⟩ := pipeRelease_cases s.dev (dropEnd o) huse
  by_cases hji : j = i
  · subst hji
    -- the counters of this pipe after the close
    have hreaders : ((s.dev.pipes j).dropEnd o).readers = ((s.ends .pipeRead j).erase n).card := by
      rw [card_erase_ends hn, ← (h j).readers huse, dropEnd]
    have hwriters : ((s.dev.pipes j).dropEnd o).writers = ((s.ends .pipeWrite j).erase n).card := by
      rw [card_erase_ends hn, ← (h j).writers huse, dropEnd]
    refine ⟨fun _ => ?_, fun _ => ?_, fun hunused => ?_⟩
    · simpa [ends_freeNode, hpipes] using hreaders
    · simpa [ends_freeNode, hpipes] using hwriters
    have hzero := hfalse.mp hunused
    rw [hreaders, hwriters] at hzero
    rw [ends_freeNode, ends_freeNode]
    exact ⟨card_eq_zero.mp (by omega), card_eq_zero.mp (by omega)⟩
  · have hpipe : (pipeRelease s.dev i.val (dropEnd o)).pipes j = s.dev.pipes j := by
      rw [hpipes, update_of_ne hji]
    refine (h j).congr (congrArg VfsPipe.readers hpipe) (congrArg VfsPipe.writers hpipe)
      (hother j hji) fun o' _ => ?_
    rw [ends_freeNode, erase_eq_of_notMem]
    intro hmem
    exact hji (Fin.ext (by exact_mod_cast (mem_ends.mp hmem).2.2.symm.trans hn.2.2))

theorem PipesOk.freeNode_flags (h : PipesOk s) (dev : VfsDev ρ) {k : NodeId}
    (hk : ((freeNode { s with dev := dev } n).nodePool k).Held) :
    ((freeNode { s with dev := dev } n).nodePool k).EndFlags := by
  have hkn : k ≠ n := by
    rintro rfl
    exact freeNode_not_held _ _ hk
  have hsame : (freeNode { s with dev := dev } n).nodePool k = s.nodePool k := by
    simp [freeNode, hkn]
  rw [hsame] at hk ⊢
  exact h.flags k hk

/-- A reference to a node in use goes. -/
theorem PipesKept.dropRef (ext : VfsExt ρ) (hpos : 0 < (s.nodePool n).refCount) :
    PipesKept s (dropRef ext s n) := by
  by_cases hlast : (s.nodePool n).refCount ≤ 1
  · rw [dropRef_last hlast]
    by_cases hheld : (s.nodePool n).Held
    · obtain ⟨o, ho, hops⟩ : ∃ o, (o = .pipeRead ∨ o = .pipeWrite) ∧ (s.nodePool n).ops = some o := by
        rcases hheld.2 with h | h
        · exact ⟨_, .inl rfl, h⟩
        · exact ⟨_, .inr rfl, h⟩
      simp only [hops, opsClose_pipe ho]
      refine ⟨fun h => ⟨fun j => ?_, fun k => h.freeNode_flags _⟩, .dropEnd s.dev _⟩
      cases hidx : intIndex 16 (s.nodePool n).internalFd with
      | none =>
        -- not the number of a pipe, so no counter is touched and no end goes
        have hdev : pipeRelease s.dev (s.nodePool n).internalFd (dropEnd o) = s.dev := by
          simp only [pipeRelease, hidx]
        rw [hdev]
        refine (h.ends j).congr rfl rfl rfl fun o' _ => ?_
        rw [ends_freeNode, erase_eq_of_notMem]
        intro hmem
        rw [(mem_ends.mp hmem).2.2, intIndex_self] at hidx
        cases hidx
      | some i =>
        have hfd : (s.nodePool n).internalFd = i.val := intIndex_val hidx
        rw [hfd]
        exact EndsAt.release h.ends ho ⟨hpos, hops, hfd⟩ j
    · have hfree (d : VfsDev ρ) : PipesKept { s with dev := d } (freeNode { s with dev := d } n) :=
        .setNode (.of_not_held hheld (by simp [VfsNode.Held]))
      cases hops : (s.nodePool n).ops with
      | none => exact hfree s.dev
      | some o =>
        have hclose := opsClose_other ext (fun ho => hheld ⟨hpos, .inl (ho ▸ hops)⟩)
          (fun ho => hheld ⟨hpos, .inr (ho ▸ hops)⟩) s.dev (s.nodePool n).internalFd
        exact (PipesKept.setDev hclose.1 hclose.2).trans (hfree _)
  · rcases dropRef_cases ext s n with ⟨hle, -⟩ | ⟨-, h⟩
    · exact absurd hle hlast
    · rw [h]
      exact .setRef hpos (by omega)

/-! ## The other calls -/

theorem PipesKept.fdTableClose (ext : VfsExt ρ) (h : VfsInv U s) (ht : t ∈ s.live) (fd : Int) :
    PipesKept s (fdTableClose ext s t fd).2 := by
  obtain heq | ⟨i, n, -, hn, heq⟩ := fdTableClose_cases ext s t fd <;> rw [heq]
  · exact .refl s
  · exact (PipesKept.dropRef ext (h.refCount_pos ht hn)).trans (.setSlot _ _ _ _)

theorem PipesKept.fdTableAlloc {k : Fin 32} (hpos : 0 < (s.nodePool n).refCount)
    (hs' : fdTableAlloc s t n = some (k, s')) : PipesKept s s' := by
  obtain ⟨-, rfl⟩ := fdTableAlloc_eq_some hs'
  exact (PipesKept.setRef hpos (by omega)).trans (.setSlot _ _ _ _)

theorem PipesKept.vfsDup (h : VfsInv U s) (fd : Int) : PipesKept s (vfsDup s fd).2 := by
  obtain heq | ⟨k, n, i, hk, halloc⟩ := vfsDup_cases s fd
  · rw [heq]
    exact .refl s
  · exact .fdTableAlloc (h.refCount_pos h.getCurrentFdTable hk) halloc

theorem PipesKept.vfsDup2 (h : VfsInv U s) (oldfd newfd : Int) :
    PipesKept s (vfsDup2 ext s oldfd newfd).2 := by
  have hlive := h.getCurrentFdTable
  obtain heq | ⟨old, new, n, s₁, -, hs₁, hold, -, heq⟩ := vfsDup2_cases ext s oldfd newfd <;>
    rw [heq]
  · exact .refl s
  obtain ⟨hkept, hpos⟩ : PipesKept s s₁ ∧ 0 < (s₁.nodePool n).refCount := by
    obtain rfl | rfl := hs₁
    · exact ⟨.refl _, h.refCount_pos hlive hold⟩
    · exact ⟨.fdTableClose ext h hlive newfd,
        (h.fdTableClose hlive newfd).refCount_pos (by simpa using hlive) hold⟩
  exact hkept.trans ((PipesKept.setRef hpos (by omega)).trans (.setSlot _ _ _ _))

theorem PipesKept.installStdFds (is : List (Fin 32)) : PipesKept s (installStdFds s t is) := by
  refine installStdFds_induction (P := PipesKept s) is (.refl s) fun s₁ i s₂ _ h hs₂ => h.trans ?_
  obtain ⟨n, s₀, node, hn, -, hops, rfl⟩ := installStdFd_eq_some hs₂
  have hnode : PipesKept s₁ (s₁.setNode n node) :=
    .setNode (.of_not_held (by simp [VfsNode.Held, (allocNode_eq_some hn).2.1])
      (by simp [VfsNode.Held, hops]))
  refine hnode.trans (PipesKept.trans (.setNode ?_) (.setSlot _ _ _ _))
  exact .of_not_held (by simp [VfsNode.Held, hops]) (by simp [VfsNode.Held, hops])

theorem PipesKept.fdTableCreate (km : Option TableId) : PipesKept s (fdTableCreate s km).2 := by
  cases km with
  | none => exact .refl s
  | some t =>
    have hnew : PipesKept s (newTable s t) := .of_nodes rfl rfl fun _ => .refl _
    exact hnew.trans (.installStdFds [0, 1, 2])

protected theorem PipesKept.openTable (km : Option TableId) : PipesKept s (openTable s km).2 := by
  obtain ⟨o, heq, -⟩ | ⟨p, t, -, -, -, heq⟩ := openTable_cases s km <;> rw [heq]
  · exact .refl s
  · exact (PipesKept.fdTableCreate (some t)).trans (.of_nodes rfl rfl fun _ => .refl _)

/-- The tables with an `open` are not those of pipes, and leave the pipes alone. -/
theorem opsOpen_pipes {openFn : Vfs ρ → Path → BitVec 32 → Int × VfsDev ρ}
    (h : opsOpen ext o = some openFn) (s : Vfs ρ) (path : Path) (flags : BitVec 32) :
    (o ≠ .pipeRead ∧ o ≠ .pipeWrite) ∧ (openFn s path flags).2.pipes = s.dev.pipes ∧
      (openFn s path flags).2.pipeInUse = s.dev.pipeInUse := by
  cases o with
  | ramfs =>
    cases h
    refine ⟨by decide, ?_⟩
    simp only [ramfsVfsOpen]
    split_ifs <;> exact ⟨rfl, rfl⟩
  | fs =>
    cases h
    exact ⟨by decide, rfl, rfl⟩
  | vfile =>
    cases h
    refine ⟨by decide, ?_⟩
    simp only [vfileVfsOpen]
    split_ifs
    · exact ⟨rfl, rfl⟩
    · exact ⟨rfl, rfl⟩
    · split <;> exact ⟨rfl, rfl⟩
  | pipeRead | pipeWrite | console => cases h

/-- Opening a file concerns no pipe. -/
theorem openBackend_pipes (ext : VfsExt ρ) (s : Vfs ρ) (path : Option Path) (flags : BitVec 32) :
    PipesKept s (openBackend ext s path flags).2 ∧
      ∀ o fd, (openBackend ext s path flags).1 = some (o, fd) → o ≠ .pipeRead ∧ o ≠ .pipeWrite := by
  unfold openBackend
  split
  · exact ⟨.refl s, by simp⟩
  next path =>
  split
  · exact ⟨.refl s, by simp⟩
  next ops _ =>
  split
  · exact ⟨.refl s, by simp⟩
  next openFn hopen =>
  obtain ⟨hends, hpipes, huse⟩ := opsOpen_pipes hopen s path flags
  refine ⟨.setDev hpipes huse, fun o fd h => ?_⟩
  dsimp only at h
  split_ifs at h
  cases h
  exact hends

theorem PipesKept.vfsOpen (path : Option Path) (flags : BitVec 32) (km : Option TableId) :
    PipesKept s (vfsOpen ext s path flags km).2 := by
  obtain ⟨hback, hends⟩ := openBackend_pipes ext s path flags
  obtain heq | ⟨ops, fd, hfound, hrest⟩ := vfsOpen_cases ext s path flags km
  · rw [heq]
    exact hback
  obtain ⟨hread, hwrite⟩ := hends ops fd hfound
  generalize (openBackend ext s path flags).2 = s₁ at hback hrest
  obtain heq | ⟨m, node, -, hnone, -, hops, heq⟩ := hrest <;> rw [heq]
  · have hclose := opsClose_other ext hread hwrite s₁.dev fd
    exact hback.trans (.setDev hclose.1 hclose.2)
  -- a node with these operations is no end of a pipe, whatever its count
  have hnot (node : VfsNode) (h : node.ops = some ops ∨ node.ops = none) : ¬ node.Held := by
    rintro ⟨-, h' | h'⟩ <;> rcases h with h | h <;> rw [h] at h'
    · exact hread (some.inj h')
    · cases h'
    · exact hwrite (some.inj h')
    · cases h'
  have hset : PipesKept s₁ (s₁.setNode m node) :=
    .setNode (.of_not_held (hnot _ (.inr hnone)) (hnot _ (.inl hops)))
  have hbase : PipesKept s (openTable (s₁.setNode m node) km).2 :=
    hback.trans (hset.trans (.openTable km))
  have hm : ((openTable (s₁.setNode m node) km).2.nodePool m).ops = some ops := by
    rw [openTable_nodePool km (by simp [hops])]
    simpa using hops
  obtain heq | ⟨t, k, s₅, -, halloc, heq⟩ := openPublish_cases (s₁.setNode m node) m km <;> rw [heq]
  · exact hbase.trans (.setNode (.of_not_held (hnot _ (.inl hm)) (hnot _ (.inr rfl))))
  · obtain ⟨-, rfl⟩ := fdTableAlloc_eq_some halloc
    refine hbase.trans (PipesKept.trans (.setNode ?_) (.setSlot _ _ _ _))
    exact .of_not_held (hnot _ (.inl hm)) (hnot _ (.inl hm))

/-- Along the copy loop the source slots keep their nodes, and these stay in use. -/
theorem PipesKept.cloneSlots {src dst : TableId} (hne : src ≠ dst) (is : List (Fin 32))
    (hpos : ∀ k n, (s.tables src).fds k = some n → 0 < (s.nodePool n).refCount) :
    PipesKept s (is.foldl (cloneSlot src dst) s) := by
  induction is generalizing s with
  | nil => exact .refl s
  | cons k is ih =>
    rw [foldl_cons]
    obtain heq | ⟨n, hslot, heq⟩ := cloneSlot_cases src dst s k <;> rw [heq]
    · exact ih hpos
    have hn := hpos k n hslot
    refine PipesKept.trans ((PipesKept.setRef hn (by omega)).trans (.setSlot _ _ _ _))
      (ih fun k' n' hk' => ?_)
    have hk : (s.tables src).fds k' = some n' := by
      simpa [Vfs.setRef, Vfs.setSlot, Vfs.setTable, hne] using hk'
    have hn' := hpos k' n' hk
    by_cases hnn : n' = n
    · subst hnn
      simp [Vfs.setRef]
      omega
    · simpa [Vfs.setRef, hnn] using hn'

theorem PipesKept.fdTableClone (h : VfsInv U s) {src : TableId} (hsrc : src ∈ s.live)
    {km : Option TableId} (hkm : ∀ t ∈ km, t ∉ s.live) : PipesKept s (fdTableClone s src km).2 := by
  cases km with
  | none => exact .refl s
  | some dst =>
    have hne : src ≠ dst := by
      rintro rfl
      exact hkm src rfl hsrc
    have hnew : PipesKept s (newTable s dst) := .of_nodes rfl rfl fun _ => .refl _
    refine hnew.trans (.cloneSlots hne _ fun k n hk => ?_)
    exact h.refCount_pos hsrc (by simpa [newTable, setTable, hne] using hk)

theorem PipesKept.destroySlots (ext : VfsExt ρ) (h : VfsInv {t} s) (ht : t ∈ s.live)
    (is : List (Fin 32)) : PipesKept s (is.foldl (destroySlot ext t) s) := by
  induction is generalizing s with
  | nil => exact .refl s
  | cons k is ih =>
    rw [foldl_cons]
    have hnext : VfsInv {t} (destroySlot ext t s k) := (h.destroySlots ext ht [k]).1
    obtain ⟨-, heq⟩ | ⟨n, hslot, heq⟩ := destroySlot_cases ext t s k <;> rw [heq] at hnext ⊢
    · exact ih h ht
    · have hdrop : PipesKept s ((OpenSys.dropRef ext s n).setSlot t k none 0) :=
        (PipesKept.dropRef ext (h.refCount_pos ht hslot)).trans (.setSlot _ _ _ _)
      exact hdrop.trans (ih hnext (by simpa using ht))

theorem PipesKept.fdTableDestroy (h : VfsInv ∅ s) (ht : t ∈ s.live) :
    PipesKept s (fdTableDestroy ext s t) := by
  have hstart : VfsInv {t} s := ⟨h.kernelLive, h.owned, h.refCount, h.hasOps,
      fun t' ht' _ => h.count t' ht' (notMem_empty t')⟩
  exact (PipesKept.destroySlots ext hstart ht (List.finRange 32)).trans
    (.of_nodes rfl rfl fun _ => .refl _)

/-! ## Creating a pipe -/

/-- The result of `vfs_pipe` for the slot it took: either everything is as before and the
    slot is free again, or both its ends exist and it is empty. -/
structure PipeCreated (s s' : Vfs ρ) (i : Fin 16) : Prop where
  ok : PipesOk s → PipesOk s'
  ring : ∀ j, j ≠ i → s'.dev.pipeInUse j = true →
    s.dev.pipeInUse j = true ∧ (s.dev.pipes j).SameRing (s'.dev.pipes j)
  empty : s'.dev.pipeInUse i = true →
    (s'.dev.pipes i).head = 0 ∧ (s'.dev.pipes i).tail = 0 ∧ (s'.dev.pipes i).count = 0

theorem pipeAllocIndex_free (h : pipeAllocIndex s.dev = some i) : s.dev.pipeInUse i = false := by
  have := find?_some h
  simpa using this

/-- What the pipes and the ends look like when only slot `i` and two fresh nodes have been
    touched. -/
theorem PipesOk.of_slot (h : PipesOk s)
    (hpipes : ∀ j, j ≠ i → (s'.dev.pipes j).readers = (s.dev.pipes j).readers ∧
      (s'.dev.pipes j).writers = (s.dev.pipes j).writers)
    (huse : ∀ j, j ≠ i → s'.dev.pipeInUse j = s.dev.pipeInUse j)
    (hnodes : ∀ n, (s.nodePool n).SameEnd (s'.nodePool n) ∨
      (¬ (s.nodePool n).Held ∧ (∀ o j, (s'.nodePool n).IsEnd o j → j = i) ∧
        (s'.nodePool n).EndFlags))
    (hi : EndsAt s' i) : PipesOk s' := by
  refine ⟨fun j => ?_, fun n hn => ?_⟩
  · by_cases hj : j = i
    · exact hj ▸ hi
    refine (h.ends j).congr (hpipes j hj).1 (hpipes j hj).2 (huse j hj) fun o ho =>
      filter_congr fun n _ => ?_
    rcases hnodes n with hsame | ⟨hnot, honly, -⟩
    · exact hsame.isEnd ho
    · exact ⟨fun hend => absurd (honly o j hend) hj, fun hend => absurd (hend.held ho) hnot⟩
  · rcases hnodes n with hsame | ⟨-, -, hflags⟩
    · exact h.sameEnd_flags hsame hn
    · exact hflags

/-- `vfs_pipe` fails: the slot is free again and no node is left in use. -/
theorem PipeCreated.undone (hfree : s.dev.pipeInUse i = false) (hi : s'.dev.pipeInUse i = false)
    (hpipes : ∀ j, j ≠ i → s'.dev.pipes j = s.dev.pipes j)
    (huse : ∀ j, j ≠ i → s'.dev.pipeInUse j = s.dev.pipeInUse j)
    (hnodes : ∀ n, (s.nodePool n).SameEnd (s'.nodePool n)) : PipeCreated s s' i := by
  refine ⟨fun h => ?_, fun j hj hj' => ?_, fun hi' => ?_⟩
  · have hends (o : VfsOps) (ho : o = .pipeRead ∨ o = .pipeWrite) : s'.ends o i = s.ends o i :=
      filter_congr fun n _ => (hnodes n).isEnd ho
    refine h.of_slot (fun j hj => by rw [hpipes j hj]; exact ⟨rfl, rfl⟩) huse
      (fun n => .inl (hnodes n)) ⟨?_, ?_, fun _ => ?_⟩
    · simp [hi]
    · simp [hi]
    · rw [hends _ (.inl rfl), hends _ (.inr rfl)]
      exact (h.ends i).unused hfree
  · rw [huse j hj] at hj'
    rw [hpipes j hj]
    exact ⟨hj', rfl, rfl, rfl, rfl⟩
  · rw [hi] at hi'
    exact absurd hi' (by simp)

/-- `vfs_pipe` succeeds: two fresh nodes are the ends of an empty pipe. -/
theorem PipeCreated.done {rnode wnode : NodeId} (hne : wnode ≠ rnode)
    (hfree : s.dev.pipeInUse i = false)
    (hr : (s.nodePool rnode).refCount = 0) (hw : (s.nodePool wnode).refCount = 0)
    (hpool : ∀ n, n ≠ rnode → n ≠ wnode → s'.nodePool n = s.nodePool n)
    (hrnode : s'.nodePool rnode = { pipeNode .pipeRead .pipeRead i 0 with refCount := 1 })
    (hwnode : s'.nodePool wnode = { pipeNode .pipeWrite .pipeWrite i 1 with refCount := 1 })
    (hdev : s'.dev = (openPipe s i).dev) : PipeCreated s s' i := by
  have hall (n : NodeId) :
      n = rnode ∨ n = wnode ∨ n ≠ rnode ∧ n ≠ wnode ∧ s'.nodePool n = s.nodePool n := by
    by_cases hnr : n = rnode
    · exact .inl hnr
    by_cases hnw : n = wnode
    · exact .inr (.inl hnw)
    · exact .inr (.inr ⟨hnr, hnw, hpool n hnr hnw⟩)
  have hother (j : Fin 16) (hj : j ≠ i) : s'.dev.pipes j = s.dev.pipes j ∧
      s'.dev.pipeInUse j = s.dev.pipeInUse j := by
    rw [hdev]
    exact ⟨update_of_ne hj _ _, update_of_ne hj _ _⟩
  have hpipe : s'.dev.pipes i = ⟨(s.dev.pipes i).buf, 0, 0, 0, 1, 1⟩ := by
    rw [hdev]
    exact update_self _ _ _
  have huse : s'.dev.pipeInUse i = true := by
    rw [hdev]
    exact update_self _ _ _
  refine ⟨fun h => ?_, fun j hj hj' => ?_, fun _ => by rw [hpipe]; exact ⟨rfl, rfl, rfl⟩⟩
  · obtain ⟨hnoread, hnowrite⟩ := (h.ends i).unused hfree
    have hold (o : VfsOps) (ho : o = .pipeRead ∨ o = .pipeWrite) (n : NodeId) :
        ¬ (s.nodePool n).IsEnd o i := by
      rw [← mem_ends]
      rcases ho with rfl | rfl
      · simp [hnoread]
      · simp [hnowrite]
    have hread : s'.ends .pipeRead i = {rnode} := by
      ext n
      rw [mem_ends, Finset.mem_singleton]
      rcases hall n with rfl | rfl | ⟨hnr, -, hn⟩
      · simp [hrnode, VfsNode.IsEnd, pipeNode]
      · simp [hwnode, VfsNode.IsEnd, pipeNode, hne]
      · simp [hn, hold _ (.inl rfl), hnr]
    have hwrite : s'.ends .pipeWrite i = {wnode} := by
      ext n
      rw [mem_ends, Finset.mem_singleton]
      rcases hall n with rfl | rfl | ⟨-, hnw, hn⟩
      · simp [hrnode, VfsNode.IsEnd, pipeNode, Ne.symm hne]
      · simp [hwnode, VfsNode.IsEnd, pipeNode]
      · simp [hn, hold _ (.inr rfl), hnw]
    have hends : EndsAt s' i :=
      ⟨fun _ => by rw [hpipe, hread]; simp, fun _ => by rw [hpipe, hwrite]; simp,
        fun h' => by rw [huse] at h'; exact absurd h' (by simp)⟩
    refine h.of_slot (fun j hj => by rw [(hother j hj).1]; exact ⟨rfl, rfl⟩)
      (fun j hj => (hother j hj).2) (fun n => ?_) hends
    have honly (hfd : (s'.nodePool n).internalFd = i.val) (o : VfsOps) (j : Fin 16)
        (hend : (s'.nodePool n).IsEnd o j) : j = i :=
      Fin.ext (by exact_mod_cast hend.2.2.symm.trans hfd)
    rcases hall n with rfl | rfl | ⟨-, -, hn⟩
    · refine .inr ⟨by simp [VfsNode.Held, hr], honly (by rw [hrnode]; rfl), ?_⟩
      rw [hrnode]
      exact ⟨fun _ => rfl, fun h => by simp [pipeNode] at h⟩
    · refine .inr ⟨by simp [VfsNode.Held, hw], honly (by rw [hwnode]; rfl), ?_⟩
      rw [hwnode]
      exact ⟨fun h => by simp [pipeNode] at h, fun _ => rfl⟩
    · rw [hn]
      exact .inl (.refl _)
  · rw [(hother j hj).2] at hj'
    rw [(hother j hj).1]
    exact ⟨hj', rfl, rfl, rfl, rfl⟩

theorem pipePublish_created {rnode wnode : NodeId} (hne : wnode ≠ rnode)
    (hfree : s.dev.pipeInUse i = false)
    (hr : (s.nodePool rnode).refCount = 0) (hw : (s.nodePool wnode).refCount = 0)
    (hs' : s' = ((openPipe s i).setNode rnode (pipeNode .pipeRead .pipeRead i 0)).setNode wnode
      (pipeNode .pipeWrite .pipeWrite i 1)) :
    PipeCreated s (pipePublish ext s' i rnode wnode).2 i := by
  have hrnode : s'.nodePool rnode = pipeNode .pipeRead .pipeRead i 0 := by
    simp [hs', update_of_ne (Ne.symm hne)]
  have hwnode : s'.nodePool wnode = pipeNode .pipeWrite .pipeWrite i 1 := by simp [hs']
  have hpool (n : NodeId) (hnr : n ≠ rnode) (hnw : n ≠ wnode) : s'.nodePool n = s.nodePool n := by
    simp [hs', hnr, hnw, openPipe]
  have hdev : s'.dev = (openPipe s i).dev := by rw [hs']; rfl
  have huse : s'.dev.pipeInUse i = true := by
    rw [hdev]
    exact update_self _ _ _
  have hother (j : Fin 16) (hj : j ≠ i) : s'.dev.pipes j = s.dev.pipes j ∧
      s'.dev.pipeInUse j = s.dev.pipeInUse j := by
    rw [hdev]
    exact ⟨update_of_ne hj _ _, update_of_ne hj _ _⟩
  have hnotr : ¬ (s.nodePool rnode).Held := by simp [VfsNode.Held, hr]
  have hsame (n : NodeId) (hnr : n ≠ rnode) : (s.nodePool n).SameEnd (s'.nodePool n) := by
    by_cases hnw : n = wnode
    · subst hnw
      exact .of_not_held (by simp [VfsNode.Held, hw]) (by simp [hwnode, VfsNode.Held, pipeNode])
    · rw [hpool n hnr hnw]
      exact .refl _
  obtain ⟨t, ht⟩ : ∃ t, getCurrentFdTable s' = t := ⟨_, rfl⟩
  cases hralloc : OpenSys.fdTableAlloc s' t rnode with
  | none =>
    simp only [pipePublish, ht, hralloc]
    refine .undone hfree (update_self _ _ _) (fun j hj => (hother j hj).1)
      (fun j hj => (update_of_ne hj _ _).trans (hother j hj).2) fun n => ?_
    change (s.nodePool n).SameEnd (s'.nodePool n)
    by_cases hnr : n = rnode
    · subst hnr
      exact .of_not_held hnotr (by simp [hrnode, VfsNode.Held, pipeNode])
    · exact hsame n hnr
  | some r =>
    obtain ⟨k, s₄⟩ := r
    obtain ⟨-, rfl⟩ := fdTableAlloc_eq_some hralloc
    set s₄ := (s'.setRef rnode ((s'.nodePool rnode).refCount + 1)).setSlot t k (some rnode) 1 with hs₄
    have hrnode₄ : s₄.nodePool rnode = { pipeNode .pipeRead .pipeRead i 0 with refCount := 1 } := by
      simp [hs₄, setRef, hrnode, pipeNode]
    have hpool₄ (n : NodeId) (hnr : n ≠ rnode) : s₄.nodePool n = s'.nodePool n := by
      simp [hs₄, setRef, hnr]
    cases hwalloc : OpenSys.fdTableAlloc s₄ t wnode with
    | none =>
      have hslot : (s₄.tables t).fds k = some rnode := by
        simp [hs₄, setSlot, setTable]
      have hclose : (OpenSys.fdTableClose ext s₄ t k.val).2 =
          (freeNode { s₄ with dev := pipeRelease s'.dev i.val (dropEnd .pipeRead) }
            rnode).setSlot t k none (-1) := by
        have hlast : (s₄.nodePool rnode).refCount ≤ 1 := by rw [hrnode₄]
        have hops : (s₄.nodePool rnode).ops = some .pipeRead := by rw [hrnode₄]; rfl
        have hfd : (s₄.nodePool rnode).internalFd = i.val := by rw [hrnode₄]; rfl
        simp only [OpenSys.fdTableClose, intIndex_self, hslot, dropRef_last hlast, hops,
          opsClose_pipe (.inl rfl), hfd]
        rfl
      obtain ⟨hpipes, huse', -⟩ := pipeRelease_cases s'.dev (dropEnd .pipeRead) huse
      simp only [pipePublish, ht, hralloc, hwalloc, hclose]
      refine .undone hfree (update_self _ _ _) (fun j hj => ?_) (fun j hj => ?_) fun n => ?_
      · exact (congrFun hpipes j).trans ((update_of_ne hj _ _).trans (hother j hj).1)
      · exact (update_of_ne hj _ _).trans ((huse' j hj).trans (hother j hj).2)
      change (s.nodePool n).SameEnd ((freeNode s₄ rnode).nodePool n)
      by_cases hnr : n = rnode
      · subst hnr
        exact .of_not_held hnotr (freeNode_not_held _ _)
      have hfreed : (freeNode s₄ rnode).nodePool n = s'.nodePool n := by
        rw [← hpool₄ n hnr]
        simp [freeNode, hnr]
      rw [hfreed]
      exact hsame n hnr
    | some w =>
      obtain ⟨k', s₅⟩ := w
      obtain ⟨-, rfl⟩ := fdTableAlloc_eq_some hwalloc
      simp only [pipePublish, ht, hralloc, hwalloc]
      have hwnode₄ : s₄.nodePool wnode = pipeNode .pipeWrite .pipeWrite i 1 := by
        rw [hpool₄ wnode hne, hwnode]
      refine .done hne hfree hr hw (fun n hnr hnw => ?_) ?_ ?_ hdev
      · rw [← hpool n hnr hnw, ← hpool₄ n hnr]
        simp [setRef, hnw]
      · simpa [setRef, Ne.symm hne] using hrnode₄
      · simp [setRef, hwnode₄, pipeNode]

theorem vfsPipe_created (hidx : pipeAllocIndex s.dev = some i) :
    PipeCreated s (vfsPipe ext s true).2 i := by
  have hfree := pipeAllocIndex_free hidx
  have hother (j : Fin 16) (hj : j ≠ i) : (openPipe s i).dev.pipes j = s.dev.pipes j ∧
      ((openPipe s i).setPipeInUse i false).dev.pipeInUse j = s.dev.pipeInUse j :=
    ⟨update_of_ne hj _ _, (update_of_ne hj _ _).trans (update_of_ne hj _ _)⟩
  obtain ⟨hno, -⟩ | ⟨-, i', hidx', hcases⟩ := vfsPipe_cases ext s true
  · rw [hno rfl] at hidx
    cases hidx
  obtain rfl : i = i' := some.inj (hidx.symm.trans hidx')
  obtain ⟨-, heq⟩ | ⟨r, ⟨hr, -⟩, -, heq⟩ | ⟨r, w, hne, ⟨hr, -⟩, ⟨hw, -⟩, heq⟩ := hcases <;> rw [heq]
  · exact .undone hfree (update_self _ _ _) (fun j hj => (hother j hj).1)
      (fun j hj => (hother j hj).2) fun _ => .refl _
  · refine .undone hfree (update_self _ _ _) (fun j hj => (hother j hj).1)
      (fun j hj => (hother j hj).2) fun n => ?_
    by_cases hn : n = r
    · subst hn
      exact .of_not_held (by simp [VfsNode.Held, hr]) (freeNode_not_held _ _)
    · simpa [freeNode, setPipeInUse, openPipe, hn] using VfsNode.SameEnd.refl _
  · exact pipePublish_created hne hfree hr hw rfl

/-! ## Reading and writing one pipe -/

/-- The ring is used within its bounds. -/
structure VfsPipe.RingOk (p : VfsPipe) : Prop where
  count : p.count ≤ vfsPipeBufSize
  tail : p.tail < vfsPipeBufSize
  head : p.head = (p.tail + p.count) % vfsPipeBufSize

/-- The bytes in a pipe, the oldest first. -/
def VfsPipe.queue (p : VfsPipe) : List UInt8 := contents vfsPipeBufSize p.buf p.tail p.count

theorem sizeToInt_of_le {k : Nat} (h : k ≤ vfsPipeBufSize) : sizeToInt k = k := by
  rw [vfsPipeBufSize] at h
  rw [sizeToInt, BitVec.toInt_eq_toNat_of_lt (by simp; omega), BitVec.toNat_ofNat]
  congr 1
  omega

theorem VfsPipe.RingOk.advance (h : p.RingOk) {k : Nat} (hk : k ≤ p.count) : (p.advance k).RingOk ∧
      p.queue = contents vfsPipeBufSize p.buf p.tail k ++ (p.advance k).queue := by
  obtain ⟨hcount, htail, hhead⟩ := h
  refine ⟨⟨?_, mod_lt _ (by decide), ?_⟩, ?_⟩
  · simp only [VfsPipe.advance]
    omega
  · simp only [VfsPipe.advance, Nat.mod_add_mod]
    rw [hhead]
    congr 1
    omega
  · have hsplit : p.count = k + (p.count - k) := by omega
    rw [VfsPipe.queue, VfsPipe.queue, VfsPipe.advance, contents_mod]
    conv_lhs => rw [hsplit, contents_add]

theorem VfsPipe.RingOk.append (h : p.RingOk) {l : List UInt8}
    (hl : p.count + l.length ≤ vfsPipeBufSize) :
    (p.append l).RingOk ∧ (p.append l).queue = p.queue ++ l := by
  obtain ⟨hcount, htail, hhead⟩ := h
  refine ⟨⟨hl, htail, ?_⟩, ?_⟩
  · simp only [VfsPipe.append, hhead, Nat.mod_add_mod, Nat.add_assoc]
  · simp only [VfsPipe.append, VfsPipe.queue, hhead, store_mod]
    exact contents_store hl

theorem VfsPipe.RingOk.append_nil (h : p.RingOk) : p.append [] = p := by
  have hhead : p.head < vfsPipeBufSize := h.head ▸ mod_lt _ (by decide)
  cases p
  simpa [VfsPipe.append, store] using Nat.mod_eq_of_lt hhead

theorem setPipe_self (d : VfsDev ρ) (i : Fin 16) : d.setPipe i (d.pipes i) = d := by
  rw [VfsDev.setPipe, update_eq_self]

/-- A write takes what there is room for. -/
theorem pipeVfsWrite_eq (hi : d.pipeInUse i = true) (h : (d.pipes i).RingOk) (data : List UInt8) :
    pipeVfsWrite d i.val data =
      (((min data.length (vfsPipeBufSize - (d.pipes i).count) : Nat) : Int),
        d.setPipe i ((d.pipes i).append (data.take (vfsPipeBufSize - (d.pipes i).count)))) := by
  have hsame : d.setPipe i ((d.pipes i).append []) = d := by
    rw [h.append_nil, setPipe_self]
  simp only [pipeVfsWrite, intIndex_self, hi, Bool.not_true, Bool.false_eq_true, if_false]
  have hcount := h.count
  split_ifs with hempty hfull hspace
  · rw [length_eq_zero_iff] at hempty
    simp [hempty, hsame]
  · have hzero : vfsPipeBufSize - (d.pipes i).count = 0 := by omega
    simp [hzero, hsame]
  · rw [sizeToInt_of_le (by omega), min_eq_right hspace.le]
  · rw [sizeToInt_of_le (by omega), min_eq_left (by omega), take_length,
      take_of_length_le (by omega)]

/-- A read returns what there is, up to the size asked for. -/
theorem pipeVfsRead_result (hi : s.dev.pipeInUse i = true) (h : (s.dev.pipes i).RingOk)
    (size : Nat) :
    (pipeVfsRead s i.val size).result = (min size (s.dev.pipes i).count : Nat) ∧
      (pipeVfsRead s i.val size).bytes = contents vfsPipeBufSize (s.dev.pipes i).buf
        (s.dev.pipes i).tail (min size (s.dev.pipes i).count) := by
  simp only [pipeVfsRead, intIndex_self, hi, Bool.not_true, Bool.false_eq_true, if_false]
  have hcount := h.count
  split_ifs with hsize hempty hlt
  · simp [hsize, contents]
  · simp [hempty, contents]
  · exact ⟨by rw [sizeToInt_of_le (by omega), min_eq_left hlt.le], by rw [min_eq_left hlt.le]⟩
  · exact ⟨by rw [sizeToInt_of_le hcount, min_eq_right (by omega)], by rw [min_eq_right (by omega)]⟩

/-! ## Runs -/

/-- A call of the layer, or one that moves bytes. -/
inductive PipeCall where
  | vfs (c : VfsCall)
  | read (fd : Int) (size : Nat)
  | write (fd : Int) (data : List UInt8)
  | seek (fd : Int) (whence : Whence) (offset : Int)

/-- The layer with a record of what each pipe has accepted and returned since it was made. -/
structure PipeSys (ρ : Type) where
  vfs : Vfs ρ
  accepted : Fin 16 → List UInt8
  returned : Fin 16 → List UInt8

/-- The pipe whose write end, or read end, a descriptor of the current table is. -/
def Vfs.pipeEnd (s : Vfs ρ) (o : VfsOps) (fd : Int) : Option (Fin 16) :=
  (fdTableGet s (getCurrentFdTable s) fd).bind fun n =>
    if (s.nodePool n).ops = some o then intIndex 16 (s.nodePool n).internalFd else none

/-- The record starts anew for the slot that `vfs_pipe` takes. -/
def PipeSys.started (s : PipeSys ρ) : PipeSys ρ :=
  match pipeAllocIndex s.vfs.dev with
  | none => s
  | some i => { s with
      accepted := update s.accepted i []
      returned := update s.returned i [] }

def PipeSys.next (s : PipeSys ρ) (c : VfsCall) (v : Vfs ρ) : PipeSys ρ :=
  match c with
  | .vfsPipe true => { s.started with vfs := v }
  | _ => { s with vfs := v }

def PipeSys.read (io : VfsIo ρ) (s : PipeSys ρ) (fd : Int) (size : Nat) : PipeSys ρ :=
  let out := vfsRead io s.vfs fd size
  { s with
    vfs := out.state
    returned := match out.taken with
      | none => s.returned
      | some (i, bytes) => update s.returned i (s.returned i ++ bytes) }

def PipeSys.write (io : VfsIo ρ) (s : PipeSys ρ) (fd : Int) (data : List UInt8) : PipeSys ρ :=
  let out := vfsWrite io s.vfs fd data
  { s with
    vfs := out.2
    accepted := match s.vfs.pipeEnd .pipeWrite fd with
      | none => s.accepted
      | some i => update s.accepted i (s.accepted i ++ data.take out.1.toNat) }

def pipeStep (io : VfsIo ρ) (s : PipeSys ρ) : PipeCall → Option (PipeSys ρ)
  | .vfs c => (vfsStep io.toVfsExt s.vfs c).map (s.next c)
  | .read fd size => some (s.read io fd size)
  | .write fd data => some (s.write io fd data)
  | .seek fd whence offset => some { s with vfs := (vfsSeek s.vfs fd whence offset).2 }

/-- The pipe in slot `i` is a queue: what it accepted is what it returned and what it holds. -/
structure QueueAt (s : PipeSys ρ) (i : Fin 16) : Prop where
  ring : (s.vfs.dev.pipes i).RingOk
  fifo : s.accepted i = s.returned i ++ (s.vfs.dev.pipes i).queue

structure PipeInv (s : PipeSys ρ) : Prop where
  refs : VfsInv ∅ s.vfs
  ok : PipesOk s.vfs
  queue : ∀ i, s.vfs.dev.pipeInUse i = true → QueueAt s i

variable {a : PipeSys ρ}

theorem QueueAt.sameRing {b : PipeSys ρ} (h : QueueAt a i)
    (hring : (a.vfs.dev.pipes i).SameRing (b.vfs.dev.pipes i))
    (haccepted : b.accepted i = a.accepted i) (hreturned : b.returned i = a.returned i) :
    QueueAt b i := by
  obtain ⟨hbuf, hhead, htail, hcount⟩ := hring
  refine ⟨⟨?_, ?_, ?_⟩, ?_⟩
  · rw [hcount]
    exact h.ring.count
  · rw [htail]
    exact h.ring.tail
  · rw [hhead, htail, hcount]
    exact h.ring.head
  · rw [haccepted, hreturned, h.fifo, queue, queue, hbuf, htail, hcount]

theorem PipeInv.kept (h : PipeInv a) (hv : VfsInv ∅ v) (hkept : PipesKept a.vfs v) :
    PipeInv { a with vfs := v } where
  refs := hv
  ok := hkept.ok h.ok
  queue i hi :=
    have ⟨hi', hring⟩ := hkept.ring i hi
    (h.queue i hi').sameRing hring rfl rfl

theorem IoKept.pipesKept (h : IoKept s s') (hpipes : s'.dev.pipes = s.dev.pipes)
    (huse : s'.dev.pipeInUse = s.dev.pipeInUse) : PipesKept s s' :=
  .of_nodes hpipes huse fun n => .of_sameFile (h.sameFile n) (by rw [h.refCount])

/-- One pipe gets a new ring, with the same counters. -/
theorem PipesOk.setRing (h : PipesOk s) (hkept : IoKept s s')
    (hpipes : s'.dev.pipes = update s.dev.pipes i p)
    (hp : p.readers = (s.dev.pipes i).readers ∧ p.writers = (s.dev.pipes i).writers)
    (huse : s'.dev.pipeInUse = s.dev.pipeInUse) : PipesOk s' := by
  refine h.of_counters (fun j => ?_) huse fun n =>
    .of_sameFile (hkept.sameFile n) (by rw [hkept.refCount])
  rw [hpipes]
  by_cases hj : j = i
  · subst hj
    rw [update_self]
    exact hp
  · rw [update_of_ne hj]
    exact ⟨rfl, rfl⟩

/-- The ring of one pipe moves, and its record with it. -/
theorem PipeInv.moved {b : PipeSys ρ} (h : PipeInv a) (hkept : IoKept a.vfs b.vfs)
    (hpipes : b.vfs.dev.pipes = update a.vfs.dev.pipes i p)
    (hp : p.readers = (a.vfs.dev.pipes i).readers ∧ p.writers = (a.vfs.dev.pipes i).writers)
    (huse : b.vfs.dev.pipeInUse = a.vfs.dev.pipeInUse)
    (hother : ∀ j, j ≠ i → b.accepted j = a.accepted j ∧ b.returned j = a.returned j)
    (hi : p.RingOk ∧ b.accepted i = b.returned i ++ p.queue) : PipeInv b := by
  refine ⟨h.refs.ioKept hkept, h.ok.setRing hkept hpipes hp huse, fun j hj => ?_⟩
  by_cases hji : j = i
  · subst hji
    exact ⟨by simpa [hpipes] using hi.1, by simpa [hpipes] using hi.2⟩
  · refine (h.queue j (by rwa [← huse])).sameRing ?_ (hother j hji).1 (hother j hji).2
    rw [hpipes, update_of_ne hji]
    exact ⟨rfl, rfl, rfl, rfl⟩

theorem PipeInv.read (h : PipeInv a) (fd : Int) (size : Nat) : PipeInv (a.read io fd size) := by
  have hspec := vfsRead_spec io a.vfs fd size
  have hpipes := hspec.pipes
  rw [PipeSys.read]
  cases htaken : (vfsRead io a.vfs fd size).taken with
  | none =>
    rw [htaken] at hpipes
    exact h.kept (h.refs.ioKept hspec.kept) (hspec.kept.pipesKept hpipes hspec.inUse)
  | some r =>
    obtain ⟨i, bytes⟩ := r
    rw [htaken] at hpipes
    obtain ⟨hi, k, -, hk, rfl, hpipes⟩ := hpipes
    obtain ⟨hring, hfifo⟩ := h.queue i hi
    obtain ⟨hring', hqueue⟩ := hring.advance hk
    refine h.moved hspec.kept hpipes ⟨rfl, rfl⟩ hspec.inUse
      (fun j hji => ⟨rfl, update_of_ne hji _ _⟩) ⟨hring', ?_⟩
    simp only [update_self]
    rw [hfifo, hqueue, append_assoc]

theorem pipeEnd_eq_some (h : s.pipeEnd o fd = some i) :
    ∃ n, fdTableGet s (getCurrentFdTable s) fd = some n ∧ (s.nodePool n).ops = some o ∧
      (s.nodePool n).internalFd = i.val := by
  obtain ⟨n, hn, hi⟩ := bind_eq_some_iff.mp h
  split_ifs at hi with hops
  exact ⟨n, hn, hops, intIndex_val hi⟩

theorem fdTableGet_eq_some (h : fdTableGet s t fd = some n) : ∃ k, (s.tables t).fds k = some n :=
  have ⟨k, _, hk⟩ := bind_eq_some_iff.mp h
  ⟨k, hk⟩

/-- The node behind an end of a pipe. -/
theorem PipeInv.endNode (h : PipeInv a) (ho : o = .pipeRead ∨ o = .pipeWrite)
    (hend : a.vfs.pipeEnd o fd = some i) : ∃ n,
    fdTableGet a.vfs (getCurrentFdTable a.vfs) fd = some n ∧ (a.vfs.nodePool n).ops = some o ∧
      (a.vfs.nodePool n).internalFd = i.val ∧ (a.vfs.nodePool n).EndFlags ∧
      a.vfs.dev.pipeInUse i = true := by
  obtain ⟨n, hn, hops, hfd⟩ := pipeEnd_eq_some hend
  obtain ⟨k, hk⟩ := fdTableGet_eq_some hn
  have hisEnd : (a.vfs.nodePool n).IsEnd o i :=
    ⟨h.refs.refCount_pos h.refs.getCurrentFdTable hk, hops, hfd⟩
  exact ⟨n, hn, hops, hfd, h.ok.flags n (hisEnd.held ho), inUse_of_isEnd h.ok.ends ho hisEnd⟩

/-- A write through the write end of a pipe. -/
theorem PipeInv.vfsWrite_eq (io : VfsIo ρ) (h : PipeInv a)
    (hend : a.vfs.pipeEnd .pipeWrite fd = some i) (data : List UInt8) :
    a.vfs.dev.pipeInUse i = true ∧
    (vfsWrite io a.vfs fd data).1 =
      (min data.length (vfsPipeBufSize - (a.vfs.dev.pipes i).count) : Nat) ∧
    (vfsWrite io a.vfs fd data).2.dev = a.vfs.dev.setPipe i
      ((a.vfs.dev.pipes i).append (data.take (vfsPipeBufSize - (a.vfs.dev.pipes i).count))) := by
  obtain ⟨n, hn, hops, hfd, hflags, huse⟩ := h.endNode (.inr rfl) hend
  have hwritable : ¬ (a.vfs.nodePool n).flags &&& 3 = 0 := by
    rw [hflags.2 hops]
    decide
  have heq := pipeVfsWrite_eq huse (h.queue i huse).ring data
  simp only [vfsWrite, hn, hops, if_neg hwritable, opsWrite, hfd, heq, move_dev]
  exact ⟨huse, trivial, trivial⟩

/-- Every other write leaves the pipes alone. -/
theorem vfsWrite_no_pipe (io : VfsIo ρ) (hend : s.pipeEnd .pipeWrite fd = none) (data : List UInt8) :
    (vfsWrite io s fd data).2.dev.pipes = s.dev.pipes ∧
      (vfsWrite io s fd data).2.dev.pipeInUse = s.dev.pipeInUse := by
  cases hn : fdTableGet s (getCurrentFdTable s) fd with
  | none =>
    simp only [vfsWrite, hn]
    exact ⟨trivial, trivial⟩
  | some n =>
    cases hops : (s.nodePool n).ops with
    | none =>
      simp only [vfsWrite, hn, hops]
      exact ⟨trivial, trivial⟩
    | some o =>
      simp only [vfsWrite, hn, hops]
      split_ifs
      · exact ⟨rfl, rfl⟩
      rw [move_dev]
      cases o with
      | ramfs | fs | pipeRead | console => exact ⟨rfl, rfl⟩
      | vfile =>
        simp only [opsWrite, vfileVfsWrite]
        split
        · exact ⟨rfl, rfl⟩
        · split_ifs <;> exact ⟨rfl, rfl⟩
      | pipeWrite =>
        have hidx : intIndex 16 (s.nodePool n).internalFd = none := by
          simpa [pipeEnd, hn, hops] using hend
        simp only [opsWrite, pipeVfsWrite, hidx]
        exact ⟨trivial, trivial⟩

theorem PipeInv.write (h : PipeInv a) (fd : Int) (data : List UInt8) :
    PipeInv (a.write io fd data) := by
  have hkept := vfsWrite_kept io a.vfs fd data
  rw [PipeSys.write]
  cases hend : a.vfs.pipeEnd .pipeWrite fd with
  | none =>
    obtain ⟨hpipes, huse⟩ := vfsWrite_no_pipe io hend data
    exact h.kept (h.refs.ioKept hkept) (hkept.pipesKept hpipes huse)
  | some i =>
    obtain ⟨hi, hresult, hdev⟩ := h.vfsWrite_eq io hend data
    obtain ⟨hring, hfifo⟩ := h.queue i hi
    have hcount := hring.count
    have hroom : (a.vfs.dev.pipes i).count +
        (data.take (vfsPipeBufSize - (a.vfs.dev.pipes i).count)).length ≤ vfsPipeBufSize := by
      rw [length_take]
      omega
    have htake : data.take (vfsWrite io a.vfs fd data).1.toNat =
        data.take (vfsPipeBufSize - (a.vfs.dev.pipes i).count) := by
      rw [hresult, Int.toNat_natCast, min_comm, take_eq_take_iff]
      omega
    obtain ⟨hring', hqueue⟩ := hring.append hroom
    refine h.moved hkept (congrArg VfsDev.pipes hdev) ⟨rfl, rfl⟩ ((congrArg VfsDev.pipeInUse hdev).trans rfl)
      (fun j hji => ⟨update_of_ne hji _ _, rfl⟩) ⟨hring', ?_⟩
    simp only [update_self]
    rw [hfifo, hqueue, htake, append_assoc]

/-- A read through the read end of a pipe. -/
theorem PipeInv.vfsRead_eq (io : VfsIo ρ) (h : PipeInv a)
    (hend : a.vfs.pipeEnd .pipeRead fd = some i) (size : Nat) :
    (vfsRead io a.vfs fd size).result = (min size (a.vfs.dev.pipes i).count : Nat) ∧
      (vfsRead io a.vfs fd size).bytes =
        (a.vfs.dev.pipes i).queue.take (min size (a.vfs.dev.pipes i).count) := by
  obtain ⟨n, hn, hops, hfd, hflags, huse⟩ := h.endNode (.inl rfl) hend
  have hreadable : ¬ (a.vfs.nodePool n).flags &&& 3 = 1 := by
    rw [hflags.1 hops]
    decide
  have hring := (h.queue i huse).ring
  obtain ⟨hresult, hbytes⟩ := pipeVfsRead_result huse hring size
  simp only [vfsRead, vfsReadDepth, vfsReadWith, hn, hops, if_neg hreadable, opsRead, hfd]
  refine ⟨hresult, hbytes.trans ?_⟩
  rw [(hring.advance (min_le_right size _)).2]
  exact (take_left' (by simp)).symm

theorem PipeInv.created (h : PipeInv a) (hv : VfsInv ∅ v)
    (hidx : pipeAllocIndex a.vfs.dev = some i) (hv' : PipeCreated a.vfs v i) :
    PipeInv { a.started with vfs := v } := by
  refine ⟨hv, hv'.ok h.ok, fun j hj => ?_⟩
  by_cases hji : j = i
  · subst hji
    obtain ⟨hhead, htail, hcount⟩ := hv'.empty hj
    refine ⟨⟨?_, ?_, ?_⟩, ?_⟩
    · simp [hcount]
    · simp [htail, vfsPipeBufSize]
    · simp [hhead, htail, hcount]
    · simp [PipeSys.started, hidx, VfsPipe.queue, hcount, contents]
  · obtain ⟨hj', hring⟩ := hv'.ring j hji hj
    refine (h.queue j hj').sameRing hring ?_ ?_ <;> simp [PipeSys.started, hidx, hji]

theorem PipeInv.vfs (h : PipeInv a) {c : VfsCall} (hstep : vfsStep ext a.vfs c = some v) :
    PipeInv (a.next c v) := by
  have hv := h.refs.vfsStep hstep
  rw [vfsStep] at hstep
  split_ifs at hstep with hlegal
  obtain rfl := some.inj hstep
  cases c with
  | vfsOpen path flags km => exact h.kept hv (.vfsOpen path flags km)
  | vfsClose fd => exact h.kept hv (.fdTableClose ext h.refs h.refs.getCurrentFdTable fd)
  | vfsDup fd => exact h.kept hv (.vfsDup h.refs fd)
  | vfsDup2 oldfd newfd => exact h.kept hv (.vfsDup2 h.refs oldfd newfd)
  | vfsPipe fds =>
    cases fds with
    | false => exact h
    | true =>
      cases hidx : pipeAllocIndex a.vfs.dev with
      | none =>
        have hsame : vfsNext ext a.vfs (.vfsPipe true) = a.vfs := by
          simp only [vfsNext, vfsPipe, hidx]
          rfl
        rw [PipeSys.next, PipeSys.started, hidx, hsame]
        exact h
      | some i => exact h.created hv hidx (vfsPipe_created hidx)
  | fdTableCreate km => exact h.kept hv (.fdTableCreate km)
  | fdTableClone src km => exact h.kept hv (.fdTableClone h.refs hlegal.1 hlegal.2)
  | fdTableDestroy t => exact h.kept hv (.fdTableDestroy h.refs hlegal.1)
  | vfsMount path ops =>
    obtain ⟨mounts, hmount⟩ := vfsMount_eq a.vfs path ops
    refine h.kept hv ?_
    rw [vfsNext, hmount]
    exact .of_nodes rfl rfl fun _ => .refl _
  | switchTo p => exact h.kept hv (.of_nodes rfl rfl fun _ => .refl _)
  | resetProcess p => exact h.kept hv (.of_nodes rfl rfl fun _ => .refl _)

theorem PipeInv.step {b : PipeSys ρ} {c : PipeCall} (h : PipeInv a)
    (hstep : pipeStep io a c = some b) : PipeInv b := by
  cases c with
  | vfs c =>
    obtain ⟨v, hv, rfl⟩ := map_eq_some_iff.mp hstep
    exact h.vfs hv
  | read fd size =>
    cases hstep
    exact h.read fd size
  | write fd data =>
    cases hstep
    exact h.write fd data
  | seek fd whence offset =>
    cases hstep
    have hkept := vfsSeek_kept a.vfs fd whence offset
    have hdev : (vfsSeek a.vfs fd whence offset).2.dev = a.vfs.dev := by
      rw [vfsSeek]
      split
      · rfl
      · cases whence <;> rfl
    exact h.kept (h.refs.ioKept hkept) (hkept.pipesKept (by rw [hdev]) (by rw [hdev]))

theorem pipeInv_init {dev : VfsDev ρ} (hfree : ∀ i, dev.pipeInUse i = false)
    (accepted returned : Fin 16 → List UInt8) : PipeInv ⟨vfsInit dev, accepted, returned⟩ := by
  have hboot : PipesOk (vfsBoot dev) := by
    have hends (o : VfsOps) (i : Fin 16) : (vfsBoot dev).ends o i = ∅ := by
      simp [eq_empty_iff_forall_notMem, vfsBoot, VfsNode.IsEnd]
    refine ⟨fun i => ⟨?_, ?_, fun _ => ⟨hends _ i, hends _ i⟩⟩, ?_⟩
    · simp [vfsBoot, hfree]
    · simp [vfsBoot, hfree]
    · simp [vfsBoot, VfsNode.Held]
  obtain ⟨mounts, hmount⟩ := vfsMount_eq (vfsBoot dev) [47] (some .ramfs)
  have hkept : PipesKept (vfsBoot dev) (vfsInit dev) := by
    have hstart : PipesKept (vfsBoot dev) { vfsBoot dev with mounts := mounts } :=
      .of_nodes rfl rfl fun _ => .refl _
    rw [vfsInit, hmount, fdTableInstallStd]
    exact hstart.trans (.installStdFds [0, 1, 2])
  refine ⟨vfsInit_inv dev, hkept.ok hboot, fun i hi => ?_⟩
  have := (hkept.ring i hi).1
  simp [vfsBoot, hfree] at this

/-- What holds of the pipes in a state: each is a queue in its ring, writes and reads move as
    much as they can, and the slot that `vfs_pipe` would take has no descriptor left. -/
structure PipesFifo (io : VfsIo ρ) (s : PipeSys ρ) : Prop where
  fifo : ∀ i, s.vfs.dev.pipeInUse i = true →
    s.accepted i = s.returned i ++ (s.vfs.dev.pipes i).queue
  ring : ∀ i, s.vfs.dev.pipeInUse i = true → (s.vfs.dev.pipes i).count ≤ 4096 ∧
    (s.vfs.dev.pipes i).head = ((s.vfs.dev.pipes i).tail + (s.vfs.dev.pipes i).count) % 4096
  write : ∀ fd i data, s.vfs.pipeEnd .pipeWrite fd = some i →
    (vfsWrite io s.vfs fd data).1 = (min data.length (4096 - (s.vfs.dev.pipes i).count) : Nat)
  read : ∀ fd i size, s.vfs.pipeEnd .pipeRead fd = some i →
    (vfsRead io s.vfs fd size).result = (min size (s.vfs.dev.pipes i).count : Nat)
  reuse : ∀ i, pipeAllocIndex s.vfs.dev = some i → ∀ t ∈ s.vfs.live, ∀ k n,
    (s.vfs.tables t).fds k = some n → (s.vfs.nodePool n).internalFd = i.val →
      (s.vfs.nodePool n).ops ≠ some .pipeRead ∧ (s.vfs.nodePool n).ops ≠ some .pipeWrite

theorem PipeInv.fifo (h : PipeInv a) : PipesFifo io a where
  fifo i hi := (h.queue i hi).fifo
  ring i hi := ⟨(h.queue i hi).ring.count, (h.queue i hi).ring.head⟩
  write fd i data hend := (h.vfsWrite_eq io hend data).2.1
  read fd i size hend := (h.vfsRead_eq io hend size).1
  reuse i hidx t ht k n hn hfd := by
    have hno {o : VfsOps} (ho : o = .pipeRead ∨ o = .pipeWrite) :
        (a.vfs.nodePool n).ops ≠ some o := by
      intro hops
      have huse := inUse_of_isEnd h.ok.ends ho ⟨h.refs.refCount_pos ht hn, hops, hfd⟩
      rw [pipeAllocIndex_free hidx] at huse
      cases huse
    exact ⟨hno (.inl rfl), hno (.inr rfl)⟩

/-- A pipe of the kernel, written, read in part and closed at one end. -/
def pipeCalls₁ : List PipeCall :=
  [.vfs (.vfsPipe true), .write 4 [1, 2, 3], .read 3 2, .vfs (.vfsClose 4)]

end OpenSys
