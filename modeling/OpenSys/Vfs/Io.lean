-- SUMMARY: Reading, writing and seeking through descriptors.
import OpenSys.Vfs.RefCount
import OpenSys.Lib.RingBuffer

/-!
# Input and output through descriptors

`src/fs/vfs.c`, the calls that move bytes. A caller's buffer is valid memory: a write gets
its bytes as a list, and a read returns the bytes it stored. Reading the virtual file
`/0/system/self/fd/N` is a read of descriptor `N`, so `vfs_read` calls itself, two levels
deep at most.
-/

namespace OpenSys

open RingBuffer

/-- What `vfs.c` calls to move bytes in `ramfs.c`, `fs_vfs.c` and `vfile.c`. -/
structure VfsIo (ρ : Type) extends VfsExt ρ where
  ramfsRead : ρ → Int → Nat → Nat → Int × List UInt8
  ramfsWrite : ρ → Int → List UInt8 → Int × ρ
  ramfsDelete : ρ → Path → Int × ρ
  fsVfsRead : ρ → Int → Nat → Nat → Int × List UInt8 × ρ
  fsVfsWrite : ρ → Int → List UInt8 → Int × ρ
  fsVfsUnlink : ρ → Path → Int × ρ
  /-- The text of a registered virtual file and the length its generator returns. -/
  vfileText : Vfs ρ → Path → Option (Int × List UInt8)
  /-- The file `/0/dev/console` is registered. -/
  vfileConsole : ρ → Bool
  /-- `vfile_write` on every other file: none of them prints. -/
  vfileWrite : ρ → Path → List UInt8 → Int × ρ

variable {ρ : Type}

def vfsPipeBufSize : Nat := 4096

def vfileMaxContent : Nat := 2048

/-- A `size_t` converted to `int`. -/
def sizeToInt (n : Nat) : Int := (BitVec.ofNat 32 n).toInt

/-- The outcome of a read: its result, the bytes stored in the buffer, the state after it,
    and the bytes that the pipe it ended at handed out, if it ended at one. -/
structure VfsReadOut (ρ : Type) where
  result : Int
  bytes : List UInt8
  state : Vfs ρ
  taken : Option (Fin 16 × List UInt8)

def VfsReadOut.failed (s : Vfs ρ) : VfsReadOut ρ := ⟨-1, [], s, none⟩

/-! ## Pipes -/

/-- The pipe after `n` bytes have been read. -/
def VfsPipe.advance (p : VfsPipe) (n : Nat) : VfsPipe :=
  { p with tail := (p.tail + n) % vfsPipeBufSize, count := p.count - n }

/-- The pipe after `l` has been written. -/
def VfsPipe.append (p : VfsPipe) (l : List UInt8) : VfsPipe :=
  { p with
    buf := store vfsPipeBufSize p.buf p.head l
    head := (p.head + l.length) % vfsPipeBufSize
    count := p.count + l.length }

def VfsDev.setPipe (d : VfsDev ρ) (i : Fin 16) (p : VfsPipe) : VfsDev ρ :=
  { d with pipes := Function.update d.pipes i p }

def pipeVfsRead (s : Vfs ρ) (pipeIdx : Int) (size : Nat) : VfsReadOut ρ :=
  match intIndex 16 pipeIdx with
  | none => .failed s
  | some i =>
    let p := s.dev.pipes i
    if !s.dev.pipeInUse i then .failed s
    else if size = 0 then ⟨0, [], s, none⟩
    else if p.count = 0 then ⟨0, [], s, none⟩
    else
      let n := if size < p.count then size else p.count
      let bytes := contents vfsPipeBufSize p.buf p.tail n
      ⟨sizeToInt n, bytes, { s with dev := s.dev.setPipe i (p.advance n) }, some (i, bytes)⟩

def pipeVfsWrite (d : VfsDev ρ) (pipeIdx : Int) (data : List UInt8) : Int × VfsDev ρ :=
  match intIndex 16 pipeIdx with
  | none => (-1, d)
  | some i =>
    let p := d.pipes i
    if !d.pipeInUse i then (-1, d)
    else if data.length = 0 then (0, d)
    else if vfsPipeBufSize ≤ p.count then (0, d)
    else
      let space := vfsPipeBufSize - p.count
      let n := if space < data.length then space else data.length
      (sizeToInt n, d.setPipe i (p.append (data.take n)))

/-! ## Virtual files -/

def isDigit (c : UInt8) : Bool := 48 ≤ c && c ≤ 57

/-- The descriptor number at the end of `/0/system/self/fd/N`. -/
def selfFdNumber (path : Path) : Option Nat :=
  let num := path.drop selfFdPrefix.length
  let fd := num.foldl (fun n c => n * 10 + (c.toNat - 48)) 0
  if num ≠ [] ∧ num.all isDigit ∧ fd < 32 then some fd else none

/-- `vfile_read` into the scratch buffer; `forward` is the `vfs_read` that
    `gen_self_fd_path` calls. -/
def vfileRead (io : VfsIo ρ) (forward : Vfs ρ → Int → Nat → VfsReadOut ρ) (s : Vfs ρ)
    (path : Path) : VfsReadOut ρ :=
  match io.vfileText s path with
  | some (len, text) => ⟨len, text, s, none⟩
  | none =>
    if selfFdPrefix.isPrefixOf path then
      match selfFdNumber path with
      | none => .failed s
      | some fd => forward s fd vfileMaxContent
    else .failed s

/-- `vfile_vfs_read`: the window of the generated text. -/
def vfileVfsRead (io : VfsIo ρ) (forward : Vfs ρ → Int → Nat → VfsReadOut ρ) (s : Vfs ρ)
    (internalFd : Int) (size offset : Nat) : VfsReadOut ρ :=
  match intIndex 8 internalFd with
  | none => .failed s
  | some i =>
    if !s.dev.vfileOpenUsed i then .failed s
    else
      let out := vfileRead io forward s (s.dev.vfileOpenPaths i)
      if out.result < 0 then { out with result := -1, bytes := [] }
      else if out.result ≤ offset then { out with result := 0, bytes := [] }
      else
        let n := min size (out.result.toNat - offset)
        { out with result := sizeToInt n, bytes := (out.bytes.drop offset).take n }

def vfileConsolePath : Path := "/0/dev/console".toUTF8.toList

/-- The write function of the file is `write_console`, which prints. -/
def vfilePrints (io : VfsIo ρ) (d : VfsDev ρ) (path : Path) : Bool :=
  path == vfileConsolePath && io.vfileConsole d.rest

def vfileVfsWrite (io : VfsIo ρ) (d : VfsDev ρ) (internalFd : Int) (data : List UInt8) :
    Int × VfsDev ρ :=
  match intIndex 8 internalFd with
  | none => (-1, d)
  | some i =>
    if !d.vfileOpenUsed i then (-1, d)
    else if vfilePrints io d (d.vfileOpenPaths i) then (sizeToInt data.length, d)
    else
      let (result, rest) := io.vfileWrite d.rest (d.vfileOpenPaths i) data
      (result, { d with rest := rest })

/-! ## Operations tables -/

/-- `ops->read`; the write end of a pipe has none. -/
def opsRead (io : VfsIo ρ) (forward : Vfs ρ → Int → Nat → VfsReadOut ρ) (ops : VfsOps) (s : Vfs ρ)
    (internalFd : Int) (size offset : Nat) : VfsReadOut ρ :=
  match ops with
  | .ramfs =>
    let (result, bytes) := io.ramfsRead s.dev.rest internalFd (size % 2 ^ 32) (offset % 2 ^ 32)
    ⟨result, bytes, s, none⟩
  | .fs =>
    let (result, bytes, rest) := io.fsVfsRead s.dev.rest internalFd size offset
    ⟨result, bytes, { s with dev := { s.dev with rest := rest } }, none⟩
  | .vfile => vfileVfsRead io forward s internalFd size offset
  | .pipeRead => pipeVfsRead s internalFd size
  | .pipeWrite => .failed s
  | .console => ⟨0, [], s, none⟩

/-- `ops->write`; the read end of a pipe has none. -/
def opsWrite (io : VfsIo ρ) (ops : VfsOps) (d : VfsDev ρ) (internalFd : Int)
    (data : List UInt8) : Int × VfsDev ρ :=
  match ops with
  | .ramfs =>
    let (result, rest) := io.ramfsWrite d.rest internalFd (data.take (data.length % 2 ^ 32))
    (result, { d with rest := rest })
  | .fs =>
    let (result, rest) := io.fsVfsWrite d.rest internalFd data
    (result, { d with rest := rest })
  | .vfile => vfileVfsWrite io d internalFd data
  | .pipeRead => (-1, d)
  | .pipeWrite => pipeVfsWrite d internalFd data
  | .console => (sizeToInt data.length, d)

/-! ## Calls -/

/-- `node->offset += result`, and for a write the size that follows it. -/
def VfsNode.moved (node : VfsNode) (result : Int) (grow : Bool) : VfsNode :=
  let offset := (node.offset + result.toNat) % 2 ^ 64
  { node with
    offset := offset
    size := if grow ∧ node.size < offset then offset else node.size }

def Vfs.move (s : Vfs ρ) (n : NodeId) (result : Int) (grow : Bool) : Vfs ρ :=
  if 0 < result then s.setNode n ((s.nodePool n).moved result grow) else s

/-- `vfs_read`, with `forward` for the calls that come back to it. -/
def vfsReadWith (io : VfsIo ρ) (forward : Vfs ρ → Int → Nat → VfsReadOut ρ) (s : Vfs ρ) (fd : Int)
    (size : Nat) : VfsReadOut ρ :=
  match fdTableGet s (getCurrentFdTable s) fd with
  | none => .failed s
  | some n =>
    let node := s.nodePool n
    match node.ops with
    | none => .failed s
    | some ops =>
      if node.flags &&& 3 = 1 then .failed s
      else
        let out := opsRead io forward ops s node.internalFd size node.offset
        { out with state := out.state.move n out.result false }

/-- `vfs_read` with `depth` levels of `self_fd_depth` left. -/
def vfsReadDepth (io : VfsIo ρ) : Nat → Vfs ρ → Int → Nat → VfsReadOut ρ
  | 0 => vfsReadWith io fun s _ _ => .failed s
  | depth + 1 => vfsReadWith io (vfsReadDepth io depth)

def vfsRead (io : VfsIo ρ) : Vfs ρ → Int → Nat → VfsReadOut ρ := vfsReadDepth io 2

def vfsWrite (io : VfsIo ρ) (s : Vfs ρ) (fd : Int) (data : List UInt8) : Int × Vfs ρ :=
  match fdTableGet s (getCurrentFdTable s) fd with
  | none => (-1, s)
  | some n =>
    let node := s.nodePool n
    match node.ops with
    | none => (-1, s)
    | some ops =>
      if node.flags &&& 3 = 0 then (-1, s)
      else
        let (result, dev) := opsWrite io ops s.dev node.internalFd data
        (result, ({ s with dev := dev }).move n result true)

inductive Whence where
  | set
  | cur
  | end
  | other

def vfsSeek (s : Vfs ρ) (fd : Int) (whence : Whence) (offset : Int) : Int × Vfs ρ :=
  match fdTableGet s (getCurrentFdTable s) fd with
  | none => (-1, s)
  | some n =>
    let node := s.nodePool n
    let seekTo (offset : Nat) : Int × Vfs ρ :=
      (sizeToInt offset, s.setNode n { node with offset := offset })
    match whence with
    | .set => seekTo (intToSize offset)
    | .cur => seekTo ((node.offset + intToSize offset) % 2 ^ 64)
    | .end => seekTo ((node.size + intToSize offset) % 2 ^ 64)
    | .other => (-1, s)

def vfsUnlink (io : VfsIo ρ) (s : Vfs ρ) (path : Path) : Int × Vfs ρ :=
  let withRest (out : Int × ρ) : Int × Vfs ρ :=
    (out.1, { s with dev := { s.dev with rest := out.2 } })
  match findOps s.mounts path with
  | some .ramfs => withRest (io.ramfsDelete s.dev.rest (ramfsStripSlash path))
  | some .fs => withRest (io.fsVfsUnlink s.dev.rest path)
  | _ => (-1, s)

/-! ## What moving bytes leaves alone -/

/-- The same open file, pipe end or device; the position may differ. -/
structure VfsNode.SameFile (a b : VfsNode) : Prop where
  type : b.type = a.type
  internalFd : b.internalFd = a.internalFd
  ops : b.ops = a.ops
  flags : b.flags = a.flags

theorem VfsNode.SameFile.refl (a : VfsNode) : a.SameFile a := ⟨rfl, rfl, rfl, rfl⟩

theorem VfsNode.SameFile.trans {a b c : VfsNode} (h : a.SameFile b) (h' : b.SameFile c) :
    a.SameFile c :=
  ⟨h'.type.trans h.type, h'.internalFd.trans h.internalFd, h'.ops.trans h.ops,
    h'.flags.trans h.flags⟩

/-- Nothing but positions and what lies behind the nodes has changed. -/
structure IoKept (s s' : Vfs ρ) : Prop where
  tables : s'.tables = s.tables
  live : s'.live = s.live
  current : s'.current = s.current
  procFdTable : s'.procFdTable = s.procFdTable
  refCount : ∀ n, (s'.nodePool n).refCount = (s.nodePool n).refCount
  sameFile : ∀ n, (s.nodePool n).SameFile (s'.nodePool n)

theorem IoKept.refl (s : Vfs ρ) : IoKept s s := ⟨rfl, rfl, rfl, rfl, fun _ => rfl, fun _ => .refl _⟩

theorem IoKept.trans {s s₁ s₂ : Vfs ρ} (h : IoKept s s₁) (h' : IoKept s₁ s₂) : IoKept s s₂ where
  tables := h'.tables.trans h.tables
  live := h'.live.trans h.live
  current := h'.current.trans h.current
  procFdTable := h'.procFdTable.trans h.procFdTable
  refCount n := (h'.refCount n).trans (h.refCount n)
  sameFile n := (h.sameFile n).trans (h'.sameFile n)

theorem IoKept.setDev (s : Vfs ρ) (dev : VfsDev ρ) : IoKept s { s with dev := dev } :=
  ⟨rfl, rfl, rfl, rfl, fun _ => rfl, fun _ => .refl _⟩

theorem IoKept.setNode {s : Vfs ρ} {n : NodeId} {node : VfsNode}
    (hnode : (s.nodePool n).SameFile node) (href : node.refCount = (s.nodePool n).refCount) :
    IoKept s (s.setNode n node) where
  tables := rfl
  live := rfl
  current := rfl
  procFdTable := rfl
  refCount m := by
    by_cases hm : m = n
    · subst hm
      simpa using href
    · simp [hm]
  sameFile m := by
    by_cases hm : m = n
    · subst hm
      simpa using hnode
    · simpa [hm] using VfsNode.SameFile.refl _

theorem IoKept.move (s : Vfs ρ) (n : NodeId) (result : Int) (grow : Bool) :
    IoKept s (s.move n result grow) := by
  rw [Vfs.move]
  split_ifs
  · exact .setNode ⟨rfl, rfl, rfl, rfl⟩ rfl
  · exact .refl s

@[simp] theorem move_dev (s : Vfs ρ) (n : NodeId) (result : Int) (grow : Bool) :
    (s.move n result grow).dev = s.dev := by
  rw [Vfs.move]
  split_ifs <;> rfl

theorem VfsInv.ioKept {U : Finset TableId} {s s' : Vfs ρ} (h : VfsInv U s) (hk : IoKept s s') :
    VfsInv U s' where
  kernelLive := hk.live ▸ h.kernelLive
  owned p t ht := by
    rw [hk.procFdTable] at ht
    exact hk.live ▸ h.owned p t ht
  refCount n := by
    have hslot : s'.slot = s.slot := by
      funext k
      rw [Vfs.slot, Vfs.slot, hk.tables]
    rw [hk.refCount, h.refCount, Vfs.slots, Vfs.slots, hk.live, hslot]
  hasOps t ht i n hi := by
    rw [hk.live] at ht
    rw [hk.tables] at hi
    rw [(hk.sameFile n).ops]
    exact h.hasOps t ht i n hi
  count t ht hU := by
    rw [hk.live] at ht
    rw [hk.tables]
    exact h.count t ht hU

/-- The part of the pipes that a read has changed. -/
def PipesRead (d d' : VfsDev ρ) : Option (Fin 16 × List UInt8) → Prop
  | none => d'.pipes = d.pipes
  | some (i, bytes) => d.pipeInUse i = true ∧ ∃ n, 0 < n ∧ n ≤ (d.pipes i).count ∧
      bytes = contents vfsPipeBufSize (d.pipes i).buf (d.pipes i).tail n ∧
      d'.pipes = Function.update d.pipes i ((d.pipes i).advance n)

/-- What a read does besides returning bytes. -/
structure VfsReadOut.Spec (s : Vfs ρ) (out : VfsReadOut ρ) : Prop where
  kept : IoKept s out.state
  inUse : out.state.dev.pipeInUse = s.dev.pipeInUse
  pipes : PipesRead s.dev out.state.dev out.taken

theorem VfsReadOut.Spec.same (s : Vfs ρ) (result : Int) (bytes : List UInt8) :
    VfsReadOut.Spec s ⟨result, bytes, s, none⟩ :=
  ⟨.refl s, rfl, rfl⟩

theorem pipeVfsRead_spec (s : Vfs ρ) (pipeIdx : Int) (size : Nat) :
    (pipeVfsRead s pipeIdx size).Spec s := by
  cases hidx : intIndex 16 pipeIdx with
  | none =>
    simp only [pipeVfsRead, hidx]
    exact .same s _ _
  | some i =>
    simp only [pipeVfsRead, hidx]
    split_ifs with hused hsize hcount
    · exact .same s _ _
    · exact .same s _ _
    · exact .same s _ _
    all_goals
      refine ⟨.setDev s _, rfl, by simpa using hused, _, ?_, ?_, rfl, rfl⟩
    all_goals omega

/-- The rule for a property of every read: the virtual files cut a window out of a text or out of
another read, the other backends read by themselves, and `vfs_read` moves the node. -/
theorem vfsReadDepth_induction {io : VfsIo ρ} {P : Vfs ρ → VfsReadOut ρ → Prop}
    (hops : ∀ forward ops s fd size offset, ops ≠ .vfile →
      P s (opsRead io forward ops s fd size offset))
    (htext : ∀ s path len text, io.vfileText s path = some (len, text) → P s ⟨len, text, s, none⟩)
    (hwindow : ∀ s out result bytes, P s out →
      (out.result < 0 ∧ result = -1) ∨ (∃ n ≤ out.result.toNat, result = sizeToInt n) →
      P s { out with result := result, bytes := bytes })
    (hmove : ∀ s out n, P s out → P s { out with state := out.state.move n out.result false })
    (depth : Nat) (s : Vfs ρ) (fd : Int) (size : Nat) : P s (vfsReadDepth io depth s fd size) := by
  have hfailed (s : Vfs ρ) : P s (.failed s) :=
    hops (fun s _ _ => .failed s) .pipeWrite s 0 0 0 VfsOps.noConfusion
  have hwith (forward) (hforward : ∀ s fd size, P s (forward s fd size)) (s : Vfs ρ) (fd : Int)
      (size : Nat) : P s (vfsReadWith io forward s fd size) := by
    have hread (path : Path) : P s (vfileRead io forward s path) := by
      rw [vfileRead]
      split
      · next len text h => exact htext s path len text h
      split_ifs
      · split
        · exact hfailed s
        · exact hforward s _ _
      · exact hfailed s
    have hfile (fd : Int) (size offset : Nat) : P s (vfileVfsRead io forward s fd size offset) := by
      rw [vfileVfsRead]
      split
      · exact hfailed s
      dsimp only
      split_ifs with hused hneg hend
      · exact hfailed s
      · exact hwindow s _ _ _ (hread _) (.inl ⟨hneg, rfl⟩)
      · exact hwindow s _ _ _ (hread _) (.inr ⟨0, Nat.zero_le _, rfl⟩)
      · exact hwindow s _ _ _ (hread _) (.inr ⟨_, by omega, rfl⟩)
    rw [vfsReadWith]
    split
    · exact hfailed s
    dsimp only
    split
    · exact hfailed s
    next ops _ =>
    split_ifs
    · exact hfailed s
    by_cases hv : ops = .vfile
    · subst hv
      exact hmove s _ _ (hfile _ size _)
    · exact hmove s _ _ (hops forward ops s _ size _ hv)
  induction depth generalizing s fd size with
  | zero => exact hwith _ (fun s _ _ => hfailed s) s fd size
  | succ depth ih => exact hwith _ ih s fd size

theorem vfsReadDepth_spec (io : VfsIo ρ) (depth : Nat) (s : Vfs ρ) (fd : Int) (size : Nat) :
    (vfsReadDepth io depth s fd size).Spec s := by
  refine vfsReadDepth_induction (fun forward ops s fd size offset hv => ?_)
    (fun s _ _ _ _ => .same s _ _) (fun s out _ _ h _ => ⟨h.kept, h.inUse, h.pipes⟩)
    (fun s out n h => ?_) depth s fd size
  · cases ops with
    | ramfs | pipeWrite | console => exact .same s _ _
    | fs => exact ⟨.setDev s _, rfl, rfl⟩
    | vfile => exact absurd rfl hv
    | pipeRead => exact pipeVfsRead_spec s fd size
  · exact ⟨h.kept.trans (.move _ _ _ _), by simpa using h.inUse, by simpa using h.pipes⟩

theorem vfsRead_spec (io : VfsIo ρ) (s : Vfs ρ) (fd : Int) (size : Nat) :
    (vfsRead io s fd size).Spec s := vfsReadDepth_spec io 2 s fd size

theorem vfsWrite_kept (io : VfsIo ρ) (s : Vfs ρ) (fd : Int) (data : List UInt8) :
    IoKept s (vfsWrite io s fd data).2 := by
  rw [vfsWrite]
  split
  · exact .refl s
  dsimp only
  split
  · exact .refl s
  · split_ifs
    · exact .refl s
    · exact (IoKept.setDev s _).trans (.move _ _ _ _)

theorem vfsSeek_kept (s : Vfs ρ) (fd : Int) (whence : Whence) (offset : Int) :
    IoKept s (vfsSeek s fd whence offset).2 := by
  rw [vfsSeek]
  split
  · exact .refl s
  · cases whence with
    | set | cur | «end» => exact .setNode ⟨rfl, rfl, rfl, rfl⟩ rfl
    | other => exact .refl s

end OpenSys
