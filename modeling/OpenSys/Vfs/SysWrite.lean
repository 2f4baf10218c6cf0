-- SUMMARY: Where sys_write does what vfs_write does.
import OpenSys.Vfs.Isolation

/-!
# The write system call

`sys_write` sends descriptors 1 and 2 to the terminal without looking them up, and hands the others to
`vfs_write`. `close` and `dup2` change what 1 and 2 denote.
-/

namespace OpenSys

variable {ρ : Type} {s : Vfs ρ} {n : NodeId}

/-- `ops->write` puts what it is given on the terminal: on the console, and on the virtual file of the
    console. -/
def opsPrints (io : VfsIo ρ) (ops : VfsOps) (d : VfsDev ρ) (internalFd : Int) : Bool :=
  match ops with
  | .console => true
  | .vfile =>
    match intIndex 8 internalFd with
    | none => false
    | some i => d.vfileOpenUsed i && vfilePrints io d (d.vfileOpenPaths i)
  | _ => false

/-- What `vfs_write` puts on the terminal. -/
def shownBy (io : VfsIo ρ) (s : Vfs ρ) (fd : Int) (data : List UInt8) : List UInt8 :=
  match fdTableGet s (getCurrentFdTable s) fd with
  | none => []
  | some n =>
    match (s.nodePool n).ops with
    | none => []
    | some ops =>
      if (s.nodePool n).flags &&& 3 ≠ 0 ∧ opsPrints io ops s.dev (s.nodePool n).internalFd then data
      else []

/-- A write that prints returns its length and changes nothing else. -/
theorem opsWrite_of_prints {io : VfsIo ρ} {ops : VfsOps} {d : VfsDev ρ} {internalFd : Int}
    (h : opsPrints io ops d internalFd = true) (data : List UInt8) :
    opsWrite io ops d internalFd data = (sizeToInt data.length, d) := by
  cases ops with
  | console => rfl
  | vfile =>
    rw [opsPrints] at h
    rw [opsWrite, vfileVfsWrite]
    cases hi : intIndex 8 internalFd with
    | none => simp [hi] at h
    | some i =>
      simp only [hi, Bool.and_eq_true] at h
      simp [h.1, h.2]
  | ramfs => cases h
  | fs => cases h
  | pipeRead => cases h
  | pipeWrite => cases h

/-- The descriptor is open for writing, with these operations. -/
def WritesTo (s : Vfs ρ) (fd : Int) (n : NodeId) (ops : VfsOps) : Prop :=
  fdTableGet s (getCurrentFdTable s) fd = some n ∧ (s.nodePool n).ops = some ops ∧
    (s.nodePool n).flags &&& 3 ≠ 0

theorem WritesTo.vfsWrite_eq {ops : VfsOps} {fd : Int} (h : WritesTo s fd n ops)
    (io : VfsIo ρ) (data : List UInt8) :
    vfsWrite io s fd data = ((opsWrite io ops s.dev (s.nodePool n).internalFd data).1,
      ({ s with dev := (opsWrite io ops s.dev (s.nodePool n).internalFd data).2 }).move n
        (opsWrite io ops s.dev (s.nodePool n).internalFd data).1 true) ∧
      shownBy io s fd data =
        if opsPrints io ops s.dev (s.nodePool n).internalFd then data else [] := by
  obtain ⟨hn, hops, hflags⟩ := h
  constructor
  · simp only [vfsWrite, hn, hops]
    exact if_neg hflags
  · simp only [shownBy, hn, hops, ne_eq, hflags, not_false_eq_true, true_and]

/-- `vfs_write` refuses, or the descriptor is open for writing. -/
theorem vfsWrite_cases (io : VfsIo ρ) (s : Vfs ρ) (fd : Int) (data : List UInt8) :
    (vfsWrite io s fd data = (-1, s) ∧ shownBy io s fd data = []) ∨ ∃ n ops, WritesTo s fd n ops := by
  cases hn : fdTableGet s (getCurrentFdTable s) fd with
  | none => exact .inl (by simp only [vfsWrite, shownBy, hn, and_self])
  | some n =>
    cases hops : (s.nodePool n).ops with
    | none => exact .inl (by simp [vfsWrite, shownBy, hn, hops])
    | some ops =>
      by_cases hflags : (s.nodePool n).flags &&& 3 = 0
      · refine .inl ⟨?_, ?_⟩
        · simp only [vfsWrite, hn, hops]
          exact if_pos hflags
        · simp only [shownBy, hn, hops, ne_eq, hflags, not_true_eq_false, false_and, if_false]
      · exact .inr ⟨n, ops, hn, hops, hflags⟩

/-- `sys_write`: its result, what it puts on the terminal, and the state after it. -/
def sysWrite (io : VfsIo ρ) (s : Vfs ρ) (fd : Int) (data : List UInt8) :
    Int × List UInt8 × Vfs ρ :=
  if fd = 1 ∨ fd = 2 then (sizeToInt data.length, data, s)
  else ((vfsWrite io s fd data).1, shownBy io s fd data, (vfsWrite io s fd data).2)

/-- The two calls have the same result and do the same to files, pipes and the terminal. -/
structure SameWrite (io : VfsIo ρ) (s : Vfs ρ) (fd : Int) (data : List UInt8) : Prop where
  result : (sysWrite io s fd data).1 = (vfsWrite io s fd data).1
  shown : (sysWrite io s fd data).2.1 = shownBy io s fd data
  dev : (sysWrite io s fd data).2.2.dev = (vfsWrite io s fd data).2.dev

/-- `sys_write` is `vfs_write` exactly where it calls it, where the descriptor is one of the
terminal's, and for an empty write that the file or pipe behind the descriptor takes without a
change. -/
theorem sys_write_agrees_iff (io : VfsIo ρ) (s : Vfs ρ) (fd : Int) (data : List UInt8) :
    SameWrite io s fd data ↔ (fd ≠ 1 ∧ fd ≠ 2) ∨
      (∃ n ops, WritesTo s fd n ops ∧ opsPrints io ops s.dev (s.nodePool n).internalFd = true) ∨
      (data = [] ∧ ∃ n ops, WritesTo s fd n ops ∧
        opsWrite io ops s.dev (s.nodePool n).internalFd [] = (0, s.dev)) := by
  by_cases hfd : fd = 1 ∨ fd = 2
  · have hsys (data) : sysWrite io s fd data = (sizeToInt data.length, data, s) := if_pos hfd
    rw [or_iff_right (by omega)]
    constructor
    · rintro ⟨hresult, hshown, hdev⟩
      rw [hsys] at hresult hshown hdev
      dsimp only at hresult hshown hdev
      rcases vfsWrite_cases io s fd data with ⟨hw, hs⟩ | ⟨n, ops, hto⟩
      · rw [hw, hshown, hs] at hresult
        cases hresult
      by_cases hprints : opsPrints io ops s.dev (s.nodePool n).internalFd = true
      · exact .inl ⟨n, ops, hto, hprints⟩
      rw [(hto.vfsWrite_eq io data).2, if_neg hprints] at hshown
      subst hshown
      rw [(hto.vfsWrite_eq io []).1] at hresult hdev
      exact .inr ⟨rfl, n, ops, hto, Prod.ext hresult.symm (hdev.trans (move_dev ..)).symm⟩
    · rintro (⟨n, ops, hto, hprints⟩ | ⟨rfl, n, ops, hto, hempty⟩)
      · obtain ⟨hw, hs⟩ := hto.vfsWrite_eq io data
        rw [opsWrite_of_prints hprints] at hw
        exact ⟨by rw [hsys, hw], by rw [hsys, hs, if_pos hprints],
          by rw [hsys, hw]; exact (move_dev ..).symm⟩
      · obtain ⟨hw, hs⟩ := hto.vfsWrite_eq io []
        rw [hempty] at hw
        exact ⟨by rw [hsys, hw]; rfl, by rw [hsys, hs, ite_self],
          by rw [hsys, hw]; exact (move_dev ..).symm⟩
  · have hsys : sysWrite io s fd data =
        ((vfsWrite io s fd data).1, shownBy io s fd data, (vfsWrite io s fd data).2) := if_neg hfd
    refine iff_of_true ⟨?_, ?_, ?_⟩ (.inl (not_or.mp hfd)) <;> rw [hsys]

/-- Descriptor 1 is closed: `vfs_write` refuses, `sys_write` prints. -/
theorem sys_write_ignores_close :
    ¬ SameWrite oneFileIo (vfsClose emptyExt (vfsInit emptyDev) 1).2 1 [97] := by
  intro h
  have hrefused : (vfsWrite oneFileIo (vfsClose emptyExt (vfsInit emptyDev) 1).2 1 [97]).1 = -1 := by
    decide
  have hprinted : (sysWrite oneFileIo (vfsClose emptyExt (vfsInit emptyDev) 1).2 1 [97]).1 = 1 := by
    decide
  rw [h.result, hrefused] at hprinted
  cases hprinted

end OpenSys
