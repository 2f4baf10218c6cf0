-- SUMMARY: Which slots of the descriptor tables a call can change.
import OpenSys.Vfs.Io

/-!
# Isolation of descriptor tables

A process works on its own table from its first `vfs_open` on. Before that, the calls that
take a descriptor fall back to the kernel's table, so `vfs_close`, `vfs_dup`, `vfs_dup2`
and `vfs_pipe` change slots that are not the caller's.
-/

namespace OpenSys

open Run Refs Function Option Vfs

variable {ρ : Type} {ext : VfsExt ρ} {io : VfsIo ρ} {s s' : Vfs ρ} {n : NodeId} {t : TableId}
  {i : Fin 32} {U : Finset TableId}

/-! ## Calls by processes -/

/-- A call of a process or of the kernel, or a change of the current process. -/
inductive DescCall where
  | vfsOpen (path : Option Path) (flags : BitVec 32) (kmalloc : Option TableId)
  | vfsClose (fd : Int)
  | vfsRead (fd : Int) (size : Nat)
  | vfsWrite (fd : Int) (data : List UInt8)
  | vfsDup (fd : Int)
  | vfsDup2 (oldfd newfd : Int)
  | vfsPipe (fds : Bool)
  | vfsSeek (fd : Int) (whence : Whence) (offset : Int)
  | switchTo (p : Option Nat)

/-- A table that `vfs_open` allocates is not one that is in use. -/
def DescCall.Legal (s : Vfs ρ) : DescCall → Prop
  | .vfsOpen _ _ km => ∀ t ∈ km, t ∉ s.live
  | _ => True

instance (s : Vfs ρ) (c : DescCall) : Decidable (c.Legal s) := by
  cases c <;> unfold DescCall.Legal <;> infer_instance

def descNext (io : VfsIo ρ) (s : Vfs ρ) : DescCall → Vfs ρ
  | .vfsOpen path flags km => (vfsOpen io.toVfsExt s path flags km).2
  | .vfsClose fd => (vfsClose io.toVfsExt s fd).2
  | .vfsRead fd size => (vfsRead io s fd size).state
  | .vfsWrite fd data => (vfsWrite io s fd data).2
  | .vfsDup fd => (vfsDup s fd).2
  | .vfsDup2 oldfd newfd => (vfsDup2 io.toVfsExt s oldfd newfd).2
  | .vfsPipe fds => (vfsPipe io.toVfsExt s fds).2
  | .vfsSeek fd whence offset => (vfsSeek s fd whence offset).2
  | .switchTo p => { s with current := p }

def descStep (io : VfsIo ρ) (s : Vfs ρ) (c : DescCall) : Option (Vfs ρ) :=
  if c.Legal s then some (descNext io s c) else none

/-- The table that belongs to the caller, if there is one yet. -/
def Vfs.ownTable (s : Vfs ρ) : Option TableId :=
  match s.current with
  | none => some kernelFdTable
  | some p => s.procFdTable p

/-- The calls that change slots of the current table need the caller to have one. -/
def DescCall.Own (s : Vfs ρ) : DescCall → Prop
  | .vfsClose _ | .vfsDup _ | .vfsDup2 _ _ | .vfsPipe _ => s.ownTable.isSome
  | _ => True

instance (s : Vfs ρ) (c : DescCall) : Decidable (c.Own s) := by
  cases c <;> unfold DescCall.Own <;> infer_instance

/-- The slot of the caller that a call closes or writes over. -/
def DescCall.replaces : DescCall → Option (Fin 32)
  | .vfsClose fd => intIndex 32 fd
  | .vfsDup2 _ newfd => intIndex 32 newfd
  | _ => none

/-! ## What one call changes -/

/-- The effect of a call on the tables; `gone` is the slot it may close or write over. -/
structure CallEffect (s s' : Vfs ρ) (gone : Option (Fin 32)) : Prop where
  live : s.live ⊆ s'.live
  current : s'.current = s.current
  others : ∀ q, s.current ≠ some q → s'.procFdTable q = s.procFdTable q
  own : ∀ p t, s.procFdTable p = some t → s'.procFdTable p = some t
  fresh : ∀ p t, s'.procFdTable p = some t → s.procFdTable p = some t ∨ t ∉ s.live
  frame : ∀ t ∈ s.live, s.ownTable ≠ some t → s'.tables t = s.tables t
  slots : ∀ t ∈ s.live, ∀ i n, gone ≠ some i → (s.tables t).fds i = some n →
    (s'.tables t).fds i = some n
  nodes : ∀ t ∈ s.live, ∀ i n, (s.tables t).fds i = some n → (s'.tables t).fds i = some n →
    (s.nodePool n).SameFile (s'.nodePool n)

/-- A change of one table and of nodes, as seen from outside. -/
structure TableEffect (s s' : Vfs ρ) (t : TableId) (gone : Option (Fin 32)) : Prop where
  live : s'.live = s.live
  current : s'.current = s.current
  procFdTable : s'.procFdTable = s.procFdTable
  frame : ∀ t', t' ≠ t → s'.tables t' = s.tables t'
  slots : ∀ i n, gone ≠ some i → (s.tables t).fds i = some n → (s'.tables t).fds i = some n

theorem TableEffect.refl (s : Vfs ρ) (t : TableId) (gone : Option (Fin 32)) :
    TableEffect s s t gone :=
  ⟨rfl, rfl, rfl, fun _ _ => rfl, fun _ _ _ h => h⟩

variable {gone : Option (Fin 32)} {c : DescCall}

theorem TableEffect.trans {s₁ s₂ : Vfs ρ} (h : TableEffect s s₁ t gone)
    (h' : TableEffect s₁ s₂ t gone) : TableEffect s s₂ t gone where
  live := h'.live.trans h.live
  current := h'.current.trans h.current
  procFdTable := h'.procFdTable.trans h.procFdTable
  frame t' ht' := (h'.frame t' ht').trans (h.frame t' ht')
  slots i n hi hn := h'.slots i n hi (h.slots i n hi hn)

theorem TableEffect.mono (h : TableEffect s s' t none) : TableEffect s s' t gone :=
  ⟨h.live, h.current, h.procFdTable, h.frame, fun i n _ hn => h.slots i n (by simp) hn⟩

theorem TableEffect.setNode (n : NodeId) (node : VfsNode) (gone : Option (Fin 32)) :
    TableEffect s (s.setNode n node) t gone :=
  ⟨rfl, rfl, rfl, fun _ _ => rfl, fun _ _ _ h => h⟩

theorem TableEffect.setDev (dev : VfsDev ρ) (gone : Option (Fin 32)) :
    TableEffect s { s with dev := dev } t gone :=
  ⟨rfl, rfl, rfl, fun _ _ => rfl, fun _ _ _ h => h⟩

theorem TableEffect.setSlot {v : Option NodeId} {d : Int}
    (h : gone = some i ∨ (s.tables t).fds i = none) : TableEffect s (s.setSlot t i v d) t gone where
  live := rfl
  current := rfl
  procFdTable := rfl
  frame t' ht' := update_of_ne ht' _ _
  slots j m hj hm := by
    have hne : j ≠ i := by
      rintro rfl
      rcases h with h | h
      · exact hj h
      · rw [h] at hm
        exact absurd hm (by simp)
    simpa [Vfs.setSlot, Vfs.setTable, update_of_ne hne] using hm

theorem TableEffect.dropRef (ext : VfsExt ρ) (n : NodeId) (gone : Option (Fin 32)) :
    TableEffect s (dropRef ext s n) t gone := by
  rcases dropRef_cases ext s n with ⟨-, dev, h⟩ | ⟨-, h⟩
  · rw [h]
    exact (TableEffect.setDev dev gone).trans (.setNode n _ gone)
  · rw [h]
    exact .setNode n _ gone

theorem TableEffect.fdTableAlloc (h : fdTableAlloc s t n = some (i, s')) :
    TableEffect s s' t none := by
  obtain ⟨hi, rfl⟩ := fdTableAlloc_eq_some h
  exact (TableEffect.setNode n _ none).trans (.setSlot (.inr hi))

theorem TableEffect.fdTableClose (ext : VfsExt ρ) (fd : Int) :
    TableEffect s (fdTableClose ext s t fd).2 t (intIndex 32 fd) := by
  obtain heq | ⟨i, n, hfd, -, heq⟩ := fdTableClose_cases ext s t fd <;> rw [heq]
  · exact .refl s t _
  · exact (TableEffect.dropRef ext n _).trans (.setSlot (.inl hfd))

/-- A slot that was free before is not lost when it is closed again. -/
theorem TableEffect.of_free (h : TableEffect s s' t (some i)) (hi : (s.tables t).fds i = none) :
    TableEffect s s' t none where
  live := h.live
  current := h.current
  procFdTable := h.procFdTable
  frame := h.frame
  slots j m _ hm := by
    refine h.slots j m ?_ hm
    rintro ⟨⟩
    rw [hi] at hm
    exact absurd hm (by simp)

theorem sameFile_setRef (r : Int) (m : NodeId) :
    (s.nodePool n).SameFile ((s.setRef m r).nodePool n) := by
  by_cases h : n = m
  · subst h
    simpa [setRef] using ⟨rfl, rfl, rfl, rfl⟩
  · simpa [setRef, h] using VfsNode.SameFile.refl _

theorem sameFile_fdTableAlloc {m : NodeId} (h : fdTableAlloc s t m = some (i, s')) (n : NodeId) :
    (s.nodePool n).SameFile (s'.nodePool n) := by
  obtain ⟨-, rfl⟩ := fdTableAlloc_eq_some h
  exact sameFile_setRef _ m

/-- Closing a descriptor leaves every node alone that is still held afterwards. -/
theorem sameFile_fdTableClose {fd : Int}
    (hpos : 0 < ((fdTableClose ext s t fd).2.nodePool n).refCount) :
    (s.nodePool n).SameFile ((fdTableClose ext s t fd).2.nodePool n) := by
  obtain heq | ⟨i, m, -, -, heq⟩ := fdTableClose_cases ext s t fd <;> rw [heq] at hpos ⊢
  · exact .refl _
  by_cases hm : n = m
  · subst hm
    rcases dropRef_cases ext s n with ⟨-, dev, h⟩ | ⟨-, h⟩
    · simp [h, freeNode] at hpos
    · rw [h]
      exact sameFile_setRef _ n
  · simp only [setSlot_nodePool, dropRef_of_ne hm]
    exact .refl _

/-! ## Each call -/

theorem CallEffect.of_table (h : TableEffect s s' t gone) (hown : s.ownTable = some t)
    (hinv : VfsInv U s')
    (hnodes : ∀ n, 0 < (s.nodePool n).refCount → 0 < (s'.nodePool n).refCount →
      (s.nodePool n).SameFile (s'.nodePool n)) (hinv₀ : VfsInv U s) : CallEffect s s' gone where
  live := by rw [h.live]
  current := h.current
  others q _ := by rw [h.procFdTable]
  own p t hp := by rwa [h.procFdTable]
  fresh p t hp := by
    rw [h.procFdTable] at hp
    exact .inl hp
  frame t' _ ht' := h.frame t' (by rintro rfl; exact ht' hown)
  slots t' _ i n hi hn := by
    by_cases ht : t' = t
    · subst ht
      exact h.slots i n hi hn
    · rwa [h.frame t' ht]
  nodes t' ht' i n hn hn' :=
    hnodes n (hinv₀.refCount_pos ht' hn) (hinv.refCount_pos (by rwa [h.live]) hn')

theorem IoKept.callEffect (h : IoKept s s') (gone : Option (Fin 32)) : CallEffect s s' gone where
  live := by rw [h.live]
  current := h.current
  others q _ := by rw [h.procFdTable]
  own p t hp := by rwa [h.procFdTable]
  fresh p t hp := by
    rw [h.procFdTable] at hp
    exact .inl hp
  frame t _ _ := by rw [h.tables]
  slots t _ i n _ hn := by rwa [h.tables]
  nodes t _ i n _ _ := h.sameFile n

theorem getCurrentFdTable_of_own (h : s.ownTable = some t) : getCurrentFdTable s = t := by
  rw [ownTable] at h
  rw [getCurrentFdTable]
  cases hcur : s.current with
  | none =>
    rw [hcur] at h
    exact some.inj h
  | some p =>
    rw [hcur] at h
    simp only [bind_some] at h ⊢
    rw [h, getD_some]

theorem vfsClose_effect (h : VfsInv U s) (hown : s.ownTable = some t) (fd : Int) :
    CallEffect s (vfsClose ext s fd).2 (intIndex 32 fd) := by
  have ht : getCurrentFdTable s = t := getCurrentFdTable_of_own hown
  have hinv : VfsInv U (fdTableClose ext s (getCurrentFdTable s) fd).2 :=
    h.fdTableClose h.getCurrentFdTable fd
  rw [vfsClose]
  rw [ht] at hinv ⊢
  exact .of_table (.fdTableClose ext fd) hown hinv (fun n _ hpos => sameFile_fdTableClose hpos) h

theorem vfsDup_effect (h : VfsInv U s) (hown : s.ownTable = some t) (fd : Int) :
    CallEffect s (vfsDup s fd).2 none := by
  have hinv := h.vfsDup fd
  obtain heq | ⟨k, n, i, -, halloc⟩ := vfsDup_cases s fd
  · rw [heq]
    exact (IoKept.refl s).callEffect _
  · rw [getCurrentFdTable_of_own hown] at halloc
    exact .of_table (.fdTableAlloc halloc) hown hinv (fun m _ _ => sameFile_fdTableAlloc halloc m) h

theorem vfsDup2_effect (h : VfsInv U s) (hown : s.ownTable = some t) (oldfd newfd : Int) :
    CallEffect s (vfsDup2 ext s oldfd newfd).2 (intIndex 32 newfd) := by
  have hlive : t ∈ s.live := getCurrentFdTable_of_own hown ▸ h.getCurrentFdTable
  have hinv : VfsInv U (vfsDup2 ext s oldfd newfd).2 := h.vfsDup2 oldfd newfd
  obtain heq | ⟨old, new, n, s₁, hnew, hs₁, hold, -, heq⟩ := vfsDup2_cases ext s oldfd newfd
  · rw [heq]
    exact (IoKept.refl s).callEffect _
  rw [getCurrentFdTable_of_own hown] at hs₁ hold heq
  -- the state in which slot `new` is free
  obtain ⟨h₁, heff, hnodes⟩ : VfsInv U s₁ ∧ TableEffect s s₁ t (intIndex 32 newfd) ∧
      ∀ m, 0 < (s₁.nodePool m).refCount → (s.nodePool m).SameFile (s₁.nodePool m) := by
    obtain rfl | rfl := hs₁
    · exact ⟨h, .refl _ t _, fun m _ => .refl _⟩
    · exact ⟨h.fdTableClose hlive newfd, .fdTableClose ext newfd,
        fun m hm => sameFile_fdTableClose hm⟩
  have hpos : 0 < (s₁.nodePool n).refCount := h₁.refCount_pos (by rwa [heff.live]) hold
  rw [heq] at hinv ⊢
  refine .of_table ((heff.trans (.setNode n _ _)).trans (.setSlot (.inl hnew))) hown hinv
    (fun m _ hm => ?_) h
  by_cases hmn : m = n
  · subst hmn
    exact (hnodes m hpos).trans (sameFile_setRef _ m)
  · refine (hnodes m ?_).trans (sameFile_setRef _ n)
    simpa [setRef, hmn] using hm

theorem pipePublish_effect (ext : VfsExt ρ) (hcur : getCurrentFdTable s = t) (idx : Fin 16)
    (rnode wnode : NodeId) :
    TableEffect s (pipePublish ext s idx rnode wnode).2 t none ∧
      ∀ n, 0 < ((pipePublish ext s idx rnode wnode).2.nodePool n).refCount →
        (s.nodePool n).SameFile ((pipePublish ext s idx rnode wnode).2.nodePool n) := by
  cases hr : fdTableAlloc s t rnode with
  | none =>
    simp only [pipePublish, hcur, hr]
    exact ⟨.setDev _ none, fun n _ => .refl _⟩
  | some r =>
    cases hw : fdTableAlloc r.2 t wnode with
    | none =>
      simp only [pipePublish, hcur, hr, hw]
      have hidx : intIndex 32 (r.1.val : Int) = some r.1 := by simp [intIndex]
      have hfree := (fdTableAlloc_eq_some hr).1
      have hclose : TableEffect r.2 (fdTableClose ext r.2 t r.1.val).2 t (some r.1) := by
        rw [← hidx]
        exact .fdTableClose ext _
      refine ⟨TableEffect.trans (.of_free ((TableEffect.fdTableAlloc hr).mono.trans hclose) hfree)
        (.setDev _ none), fun n hn => ?_⟩
      exact (sameFile_fdTableAlloc hr n).trans (sameFile_fdTableClose hn)
    | some w =>
      simp only [pipePublish, hcur, hr, hw]
      exact ⟨(TableEffect.fdTableAlloc hr).trans (.fdTableAlloc hw),
        fun n _ => (sameFile_fdTableAlloc hr n).trans (sameFile_fdTableAlloc hw n)⟩

theorem vfsPipe_effect (h : VfsInv U s) (hown : s.ownTable = some t) (fds : Bool) :
    CallEffect s (vfsPipe ext s fds).2 none := by
  have hinv : VfsInv U (vfsPipe ext s fds).2 := h.vfsPipe fds
  -- a node that is held was not free
  have hheld (n m : NodeId) (hn : 0 < (s.nodePool n).refCount) (hm : (s.nodePool m).refCount = 0) :
      n ≠ m := by
    rintro rfl
    exact absurd hm hn.ne'
  obtain ⟨-, heq⟩ | ⟨-, idx, -, ⟨-, heq⟩ | ⟨r, ⟨hr, -⟩, -, heq⟩ | ⟨r, w, -, ⟨hr, -⟩, ⟨hw, -⟩, heq⟩⟩ :=
    vfsPipe_cases ext s fds <;> rw [heq] at hinv ⊢
  · exact (IoKept.refl s).callEffect _
  · exact (IoKept.setDev s _).callEffect _
  · refine .of_table (t := t) ((TableEffect.setDev _ none).trans (.setNode r _ none)) hown hinv
      (fun n hn _ => ?_) h
    simpa [freeNode, setPipeInUse, openPipe, hheld n r hn hr] using VfsNode.SameFile.refl _
  · have hbase : TableEffect s (pipeNodes s idx r w) t none :=
      (TableEffect.setDev _ none).trans ((TableEffect.setNode r _ none).trans (.setNode w _ none))
    have hcur : getCurrentFdTable (pipeNodes s idx r w) = t := getCurrentFdTable_of_own hown
    obtain ⟨heff, hnodes⟩ := pipePublish_effect ext hcur idx r w
    refine .of_table (hbase.trans heff) hown hinv (fun n hn hn' => ?_) h
    have hsame : (pipeNodes s idx r w).nodePool n = s.nodePool n := by
      simp [pipeNodes, hheld n r hn hr, hheld n w hn hw, openPipe]
    rw [← hsame]
    exact hnodes n hn'

/-- The table that `vfs_open` gets is the caller's own or a new one. -/
structure OpenTableSpec (s : Vfs ρ) (r : Option TableId × Vfs ρ) : Prop where
  live : s.live ⊆ r.2.live
  current : r.2.current = s.current
  others : ∀ q, s.current ≠ some q → r.2.procFdTable q = s.procFdTable q
  own : ∀ p t, s.procFdTable p = some t → r.2.procFdTable p = some t
  fresh : ∀ p t, r.2.procFdTable p = some t → s.procFdTable p = some t ∨ t ∉ s.live
  tables : ∀ t ∈ s.live, r.2.tables t = s.tables t
  nodes : ∀ n, (s.nodePool n).ops ≠ none → r.2.nodePool n = s.nodePool n
  table : ∀ t ∈ r.1, s.ownTable = some t ∨ t ∉ s.live

theorem OpenTableSpec.same {o : Option TableId} (h : ∀ t ∈ o, s.ownTable = some t) :
    OpenTableSpec s (o, s) :=
  ⟨subset_rfl, rfl, fun _ _ => rfl, fun _ _ h => h, fun _ _ h => .inl h, fun _ _ => rfl,
    fun _ _ => rfl, fun t ht => .inl (h t ht)⟩

theorem openTable_spec {km : Option TableId} (hkm : ∀ t ∈ km, t ∉ s.live) :
    OpenTableSpec s (openTable s km) := by
  obtain ⟨o, heq, ho⟩ | ⟨p, t, hcur, hp, rfl, heq⟩ := openTable_cases s km <;> rw [heq]
  · refine .same fun t ht => ?_
    obtain ⟨hcur, rfl⟩ | ⟨p, hcur, hp⟩ := ho t ht
    · rw [ownTable, hcur]
    · rw [ownTable, hcur]
      exact hp
  have ht := hkm t rfl
  obtain ⟨hcur', hlive, hproc, htables, -⟩ :=
    installStdFds_frame (s := newTable s t) (t := t) stdSlots
  have hproc' (q : Nat) (hne : q ≠ p) : (tableCreated s p t).procFdTable q = s.procFdTable q :=
    (update_of_ne hne _ _).trans (congrFun hproc q)
  refine ⟨?_, hcur', fun q hq => hproc' q ?_, fun q t' hq => ?_, fun q t' hq => ?_,
    fun t' ht' => ?_, fun n => tableCreated_nodePool, ?_⟩
  · exact (Finset.subset_insert t s.live).trans hlive.symm.subset
  · rintro rfl
    exact hq hcur
  · rw [hproc' q]
    · exact hq
    · rintro rfl
      rw [hp] at hq
      cases hq
  · by_cases hne : q = p
    · obtain rfl : t = t' := by simpa [tableCreated, hne] using hq
      exact .inr ht
    · rw [hproc' q hne] at hq
      exact .inl hq
  · have hne : t' ≠ t := by
      rintro rfl
      exact ht ht'
    exact (htables t' hne).trans (update_of_ne hne _ _)
  · rintro t' ⟨⟩
    exact .inr ht

/-- What is left of `vfs_open` after the table is found changes that table and node `m`. -/
theorem OpenTableSpec.callEffect {s₅ : Vfs ρ} {r : Option TableId × Vfs ρ} {m : NodeId}
    {dev : VfsDev ρ} {node : VfsNode} (h : VfsInv U s) (hzero : (s.nodePool m).refCount = 0)
    (hspec : OpenTableSpec (({ s with dev := dev } : Vfs ρ).setNode m node) r)
    (heff : ∀ t', r.1 ≠ some t' → s₅.tables t' = r.2.tables t')
    (hslots : ∀ t' i n, (r.2.tables t').fds i = some n → (s₅.tables t').fds i = some n)
    (hrest : s₅.live = r.2.live ∧ s₅.current = r.2.current ∧ s₅.procFdTable = r.2.procFdTable)
    (hnodes : ∀ n, n ≠ m → (r.2.nodePool n).SameFile (s₅.nodePool n)) : CallEffect s s₅ none := by
  obtain ⟨hlive, hcur, hproc⟩ := hrest
  obtain ⟨hsub, hcur₄, hothers, hown₄, hfresh, htables, hnodes₄, htable⟩ := hspec
  refine ⟨hlive ▸ hsub, hcur.trans hcur₄, fun q hq => hproc ▸ hothers q hq,
    fun p t hp => hproc ▸ hown₄ p t hp, fun p t hp => hfresh p t (hproc ▸ hp), ?_, ?_, ?_⟩
  · intro t ht hne
    have hother : r.1 ≠ some t := by
      intro ho
      rcases htable t ho with h | h
      · exact hne h
      · exact h ht
    exact (heff t hother).trans (htables t ht)
  · intro t ht i n _ hn
    refine hslots t i n ?_
    rw [htables t ht]
    exact hn
  · intro t ht i n hn _
    have hne : n ≠ m := by
      rintro rfl
      exact absurd hzero (h.refCount_pos ht hn).ne'
    have heq : (({ s with dev := dev } : Vfs ρ).setNode m node).nodePool n = s.nodePool n := by
      simp [hne]
    rw [← heq, ← hnodes₄ n (heq ▸ h.hasOps t ht i n hn)]
    exact hnodes n hne

theorem vfsOpen_effect (h : VfsInv ∅ s) (path : Option Path) (flags : BitVec 32)
    {km : Option TableId} (hkm : ∀ t ∈ km, t ∉ s.live) :
    CallEffect s (vfsOpen ext s path flags km).2 none := by
  obtain ⟨dev, hdev⟩ := openBackend_snd ext s path flags
  obtain heq | ⟨ops, fd, -, heq | ⟨m, node, hzero, -, -, -, heq⟩⟩ :=
    vfsOpen_cases ext s path flags km <;> rw [heq, hdev]
  · exact (IoKept.setDev s dev).callEffect _
  · exact (IoKept.setDev s _).callEffect _
  rw [hdev] at hzero
  set s₃ : Vfs ρ := ({ s with dev := dev } : Vfs ρ).setNode m node
  have hspec : OpenTableSpec s₃ (openTable s₃ km) := openTable_spec hkm
  obtain heq' | ⟨t, k, s₅, ht, halloc, heq'⟩ := openPublish_cases s₃ m km <;> rw [heq']
  · refine hspec.callEffect h hzero (fun _ _ => rfl) (fun _ _ _ hn => hn) ⟨rfl, rfl, rfl⟩
      fun n hn => ?_
    simpa [freeNode, hn] using VfsNode.SameFile.refl _
  have heff := TableEffect.fdTableAlloc halloc
  refine hspec.callEffect h hzero (fun t' ht' => heff.frame t' ?_) (fun t' i n hn => ?_)
    ⟨heff.live, heff.current, heff.procFdTable⟩ (fun n _ => sameFile_fdTableAlloc halloc n)
  · rintro rfl
    exact ht' ht
  by_cases hne : t' = t
  · subst hne
    exact heff.slots i n (by simp) hn
  · rwa [heff.frame t' hne]

/-! ## Runs -/

/-- The tables of different processes are different, and none is the kernel's. -/
structure TablesSeparate (s : Vfs ρ) : Prop where
  inv : VfsInv ∅ s
  notKernel : ∀ p t, s.procFdTable p = some t → t ≠ kernelFdTable
  apart : ∀ p q t, s.procFdTable p = some t → s.procFdTable q = some t → p = q

theorem vfsInit_separate (dev : VfsDev ρ) : TablesSeparate (vfsInit dev) := by
  have hproc : (vfsInit dev).procFdTable = fun _ => none := by
    rw [vfsInit, fdTableInstallStd, (installStdFds_frame _).2.2.1]
    rfl
  refine ⟨vfsInit_inv dev, ?_, ?_⟩
  · intro p t hp
    rw [hproc] at hp
    exact absurd hp (by simp)
  · intro p q t hp
    rw [hproc] at hp
    exact absurd hp (by simp)

theorem CallEffect.separate (h : CallEffect s s' gone) (hs : TablesSeparate s) (hinv : VfsInv ∅ s') : TablesSeparate s' := by
  -- a table that is new to its process was in nobody's use before
  have hused : ∀ p t, s.procFdTable p = some t → t ∈ s.live := hs.inv.owned
  have hcurrent : ∀ p t, s'.procFdTable p = some t → s.procFdTable p ≠ some t →
      s.current = some p := by
    intro p t hp hne
    by_contra hcur
    rw [h.others p hcur] at hp
    exact hne hp
  refine ⟨hinv, ?_, ?_⟩
  · rintro p t hp rfl
    rcases h.fresh p _ hp with hold | hnew
    · exact hs.notKernel p _ hold rfl
    · exact hnew hs.inv.kernelLive
  intro p q t hp hq
  rcases h.fresh p t hp with hp₀ | hp₀
  · rcases h.fresh q t hq with hq₀ | hq₀
    · exact hs.apart p q t hp₀ hq₀
    · exact absurd (hused p t hp₀) hq₀
  rcases h.fresh q t hq with hq₀ | hq₀
  · exact absurd (hused q t hq₀) hp₀
  · have hcp := hcurrent p t hp fun hold => hp₀ (hused p t hold)
    have hcq := hcurrent q t hq fun hold => hq₀ (hused q t hold)
    exact some.inj (hcp.symm.trans hcq)

/-- What a call does, for every call of a process that owns its table. -/
theorem descNext_effect (hs : TablesSeparate s) (hlegal : c.Legal s) (hown : c.Own s)
    (hswitch : ∀ p, c ≠ .switchTo p) :
    CallEffect s (descNext io s c) c.replaces ∧ VfsInv ∅ (descNext io s c) := by
  cases c with
  | vfsOpen path flags km => exact ⟨vfsOpen_effect hs.inv path flags hlegal, hs.inv.vfsOpen path flags hlegal⟩
  | vfsClose fd =>
    obtain ⟨t, ht⟩ := isSome_iff_exists.mp hown
    exact ⟨vfsClose_effect hs.inv ht fd, hs.inv.fdTableClose hs.inv.getCurrentFdTable fd⟩
  | vfsRead fd size =>
    have hkept := (vfsRead_spec io s fd size).kept
    exact ⟨hkept.callEffect _, hs.inv.ioKept hkept⟩
  | vfsWrite fd data =>
    have hkept := vfsWrite_kept io s fd data
    exact ⟨hkept.callEffect _, hs.inv.ioKept hkept⟩
  | vfsDup fd =>
    obtain ⟨t, ht⟩ := isSome_iff_exists.mp hown
    exact ⟨vfsDup_effect hs.inv ht fd, hs.inv.vfsDup fd⟩
  | vfsDup2 oldfd newfd =>
    obtain ⟨t, ht⟩ := isSome_iff_exists.mp hown
    exact ⟨vfsDup2_effect hs.inv ht oldfd newfd, hs.inv.vfsDup2 oldfd newfd⟩
  | vfsPipe fds =>
    obtain ⟨t, ht⟩ := isSome_iff_exists.mp hown
    exact ⟨vfsPipe_effect hs.inv ht fds, hs.inv.vfsPipe fds⟩
  | vfsSeek fd whence offset =>
    have hkept := vfsSeek_kept s fd whence offset
    exact ⟨hkept.callEffect _, hs.inv.ioKept hkept⟩
  | switchTo p => exact absurd rfl (hswitch p)

theorem TablesSeparate.switchTo (hs : TablesSeparate s) (p : Option Nat) :
    TablesSeparate { s with current := p } :=
  ⟨⟨hs.inv.kernelLive, hs.inv.owned, hs.inv.refCount, hs.inv.hasOps, hs.inv.count⟩, hs.notKernel,
    hs.apart⟩

/-- While a process is current, the tables of the others and of the kernel stay as they are. -/
structure TablesApart (s s' : Vfs ρ) : Prop where
  others : ∀ p q t, s.current = some p → q ≠ p → s.procFdTable q = some t →
    s'.procFdTable q = some t ∧ (s'.tables t).fds = (s.tables t).fds
  kernel : ∀ p, s.current = some p →
    (s'.tables kernelFdTable).fds = (s.tables kernelFdTable).fds

theorem CallEffect.tablesApart (h : CallEffect s s' gone) (hs : TablesSeparate s) :
    TablesApart s s' where
  others p q t hp hq ht := by
    refine ⟨h.own q t ht, ?_⟩
    rw [h.frame t (hs.inv.owned q t ht) ?_]
    rw [ownTable, hp]
    intro hpt
    exact hq (hs.apart q p t ht hpt)
  kernel p hp := by
    rw [h.frame kernelFdTable hs.inv.kernelLive ?_]
    rw [ownTable, hp]
    intro hpt
    exact hs.notKernel p _ hpt rfl

/-- Descriptor `i` of process `p` denotes node `n`. -/
def Denotes (s : Vfs ρ) (p : Nat) (i : Fin 32) (n : NodeId) : Prop :=
  ∃ t, s.procFdTable p = some t ∧ (s.tables t).fds i = some n

/-- The process does not close the descriptor or write over it with this call. -/
def DescCall.Keeps (p : Nat) (i : Fin 32) (s : Vfs ρ) (c : DescCall) : Prop :=
  s.current = some p → c.replaces ≠ some i

theorem CallEffect.denotes {p : Nat} (h : CallEffect s s' c.replaces) (hs : TablesSeparate s)
    (hkeeps : c.Keeps p i s) (hd : Denotes s p i n) :
    Denotes s' p i n ∧ (s.nodePool n).SameFile (s'.nodePool n) := by
  obtain ⟨t, ht, hn⟩ := hd
  have hlive := hs.inv.owned p t ht
  have hslot : (s'.tables t).fds i = some n := by
    by_cases hcur : s.current = some p
    · exact h.slots t hlive i n (hkeeps hcur) hn
    rw [h.frame t hlive ?_]
    · exact hn
    intro hown
    rw [ownTable] at hown
    cases hq : s.current with
    | none =>
      rw [hq] at hown
      exact hs.notKernel p t ht (some.inj hown).symm
    | some q =>
      rw [hq] at hown
      exact hcur (by rw [hq, hs.apart q p t hown ht])
  exact ⟨⟨t, h.own p t ht, hslot⟩, h.nodes t hlive i n hn hslot⟩

/-- One step: the invariant, the frame, and the descriptors that stay. -/
theorem descStep_keeps (hs : TablesSeparate s) (hown : c.Own s) (hstep : descStep io s c = some s') :
    TablesSeparate s' ∧ TablesApart s s' ∧ ∀ p i n, c.Keeps p i s → Denotes s p i n →
      Denotes s' p i n ∧ (s.nodePool n).SameFile (s'.nodePool n) := by
  rw [descStep] at hstep
  split_ifs at hstep with hlegal
  obtain rfl := some.inj hstep
  by_cases hswitch : ∃ p, c = .switchTo p
  · obtain ⟨p, rfl⟩ := hswitch
    exact ⟨hs.switchTo p, ⟨fun _ q t _ _ ht => ⟨ht, rfl⟩, fun _ _ => rfl⟩,
      fun _ _ _ _ hd => ⟨hd, .refl _⟩⟩
  · obtain ⟨heff, hinv⟩ : CallEffect s (descNext io s c) c.replaces ∧ VfsInv ∅ (descNext io s c) :=
      descNext_effect hs hlegal hown fun p h => hswitch ⟨p, h⟩
    exact ⟨heff.separate hs hinv, heff.tablesApart hs, fun p i n hkeeps hd =>
      heff.denotes hs hkeeps hd⟩

/-- A descriptor denotes its node along a run in which its process neither closes it nor
    writes over it. -/
theorem denotes_run {p : Nat} {cs : List DescCall} (hs : TablesSeparate s)
    (hok : AllOk (descStep io) DescCall.Own s cs)
    (hkeeps : AllOk (descStep io) (DescCall.Keeps p i) s cs) (hd : Denotes s p i n)
    (hrun : run (descStep io) s cs = some s') :
    Denotes s' p i n ∧ (s.nodePool n).SameFile (s'.nodePool n) := by
  induction cs generalizing s with
  | nil =>
    cases hrun
    exact ⟨hd, .refl _⟩
  | cons c cs ih =>
    obtain ⟨s₁, hs₁, hrest⟩ := bind_eq_some_iff.mp hrun
    obtain ⟨hsep, -, hstep⟩ := descStep_keeps hs hok.1 hs₁
    obtain ⟨hd₁, hsame⟩ := hstep p i n hkeeps.1 hd
    obtain ⟨hd', hsame'⟩ := ih hsep (hok.2 s₁ hs₁) (hkeeps.2 s₁ hs₁) hd₁ hrest
    exact ⟨hd', hsame.trans hsame'⟩

theorem separate_run {cs : List DescCall} (hs : TablesSeparate s)
    (hok : AllOk (descStep io) DescCall.Own s cs) (hrun : run (descStep io) s cs = some s') :
    TablesSeparate s' := by
  induction cs generalizing s with
  | nil =>
    cases hrun
    exact hs
  | cons c cs ih =>
    obtain ⟨s₁, hs₁, hrest⟩ := bind_eq_some_iff.mp hrun
    exact ih (descStep_keeps hs hok.1 hs₁).1 (hok.2 s₁ hs₁) hrest

/-- In a run in which descriptors are closed, duplicated and piped only by owners of a table,
    each call leaves the tables of the others alone, and a descriptor keeps denoting its node
    until its process closes it or writes over it. -/
theorem descriptor_tables_isolated (io : VfsIo ρ) (s₀ : Vfs ρ) (hs : TablesSeparate s₀)
    (cs : List DescCall) (hok : AllOk (descStep io) DescCall.Own s₀ cs) :
    (∀ as c bs s s', cs = as ++ c :: bs → run (descStep io) s₀ as = some s →
      descStep io s c = some s' → TablesApart s s') ∧
    ∀ as bs s s' p i n, cs = as ++ bs → run (descStep io) s₀ as = some s →
      run (descStep io) s bs = some s' → Denotes s p i n →
      AllOk (descStep io) (DescCall.Keeps p i) s bs →
        Denotes s' p i n ∧ (s.nodePool n).SameFile (s'.nodePool n) := by
  constructor
  · rintro as c bs s s' rfl hrun hstep
    obtain ⟨hfirst, hlast⟩ := hok.split hrun
    exact (descStep_keeps (separate_run hs hfirst hrun) hlast.1 hstep).2.1
  · rintro as bs s s' p i n rfl hrun hrun' hd hkeeps
    obtain ⟨hfirst, hlast⟩ := hok.split hrun
    exact denotes_run (separate_run hs hfirst hrun) hlast hkeeps hd hrun'

/-- A ramfs with one file, and nothing else behind the descriptors. -/
def oneFileIo : VfsIo Unit where
  toVfsExt := { emptyExt with ramfsFind := fun _ _ => 1 }
  ramfsRead _ _ _ _ := (0, [])
  ramfsWrite _ _ data := (data.length, ())
  ramfsDelete _ _ := (-1, ())
  fsVfsRead _ _ _ _ := (-1, [], ())
  fsVfsWrite _ _ _ := (-1, ())
  fsVfsUnlink _ _ := (-1, ())
  vfileText _ _ := none
  vfileConsole _ := false
  vfileWrite _ _ _ := (-1, ())

/-- Process 1 opens a file, makes a pipe and closes the file again. -/
def ownerCalls : List DescCall :=
  [.switchTo (some 1), .vfsOpen (some [47, 97]) 2 (some 7), .vfsPipe true, .vfsClose 3]

theorem descriptor_tables_isolated_owner : TablesSeparate (vfsInit emptyDev) ∧
    AllOk (descStep oneFileIo) DescCall.Own (vfsInit emptyDev) ownerCalls ∧
    ∃ s, run (descStep oneFileIo) (vfsInit emptyDev) ownerCalls = some s ∧
      ∃ s₁, run (descStep oneFileIo) (vfsInit emptyDev) (ownerCalls.take 3) = some s₁ ∧
        TablesApart s₁ s := by
  have hs : TablesSeparate (vfsInit emptyDev) := vfsInit_separate emptyDev
  have hok : AllOk (descStep oneFileIo) DescCall.Own (vfsInit emptyDev) ownerCalls := by
    decide
  obtain ⟨hapart, -⟩ := descriptor_tables_isolated oneFileIo (vfsInit emptyDev) hs ownerCalls hok
  exact ⟨hs, hok, _, rfl, _, rfl, hapart (ownerCalls.take 3) (.vfsClose 3) [] _ _ rfl rfl rfl⟩

/-- A process without a table makes a pipe: its ends land in the kernel's table. -/
theorem pipe_changes_kernel_table : ∃ s s',
    run (descStep oneFileIo) (vfsInit emptyDev) [.switchTo (some 1)] = some s ∧
      descStep oneFileIo s (.vfsPipe true) = some s' ∧ ¬ TablesApart s s' := by
  have hslot : ((descNext oneFileIo { vfsInit emptyDev with current := some 1 }
      (.vfsPipe true)).tables kernelFdTable).fds 3 ≠
        ((vfsInit emptyDev).tables kernelFdTable).fds 3 := by
    decide
  exact ⟨_, _, rfl, if_pos trivial, fun h => hslot (congrFun (h.kernel 1 rfl) 3)⟩

end OpenSys
