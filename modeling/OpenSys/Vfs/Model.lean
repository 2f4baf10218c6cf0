-- SUMMARY: The virtual filesystem layer of vfs.c: mounts, nodes, descriptor tables, pipes.
import Mathlib.Algebra.Group.Int.Defs
import Mathlib.Data.Finset.Erase
import Mathlib.Data.Finset.Insert

/-!
# Virtual filesystem layer

`src/fs/vfs.c`. A pool of 128 nodes is shared by all descriptor tables; a table
slot is null or points into the pool. Tables other than the kernel's own live on
the kernel heap, so a table is named by its address and `live` is the set of
addresses that hold one. What lies behind an operations table in another file
(`ramfs.c`, `fs.c`, `vfile.c`) is the parameter `ext` with its own state `ρ`.
-/

namespace OpenSys

open Function

abbrev NodeId := Fin 128

/-- The address of a descriptor table. -/
abbrev TableId := Nat

/-- A C string without its terminator. -/
abbrev Path := List UInt8

/-- The address of the static `kernel_fd_table`. -/
def kernelFdTable : TableId := 0

def vfsMaxMounts : Nat := 8

def vfsMaxPath : Nat := 256

def vfsOCreat : BitVec 32 := 4

/-- Node types, `VFS_TYPE_*`; `none` is the zero of a free node. -/
inductive VfsType where
  | none
  | file
  | device
  | pipeRead
  | pipeWrite
  deriving DecidableEq

/-- The static operations tables a node can carry. -/
inductive VfsOps where
  | ramfs
  | fs
  | vfile
  | pipeRead
  | pipeWrite
  | console
  deriving DecidableEq

structure VfsMount where
  path : Path
  /-- A null table routes to the virtual-file adapter. -/
  ops : Option VfsOps
  active : Bool

structure VfsNode where
  type : VfsType
  internalFd : Int
  ops : Option VfsOps
  offset : Nat
  size : Nat
  refCount : Int
  flags : BitVec 32

structure FdTable where
  fds : Fin 32 → Option NodeId
  count : Int

structure VfsPipe where
  buf : Nat → UInt8
  head : Nat
  tail : Nat
  count : Nat
  readers : Int
  writers : Int

/-- The state behind the operations tables: the pipe pool and the open virtual
    files of `vfs.c`, and the state `ρ` of the other files. -/
structure VfsDev (ρ : Type) where
  pipes : Fin 16 → VfsPipe
  pipeInUse : Fin 16 → Bool
  vfileOpenPaths : Fin 8 → Path
  vfileOpenUsed : Fin 8 → Bool
  rest : ρ

structure Vfs (ρ : Type) where
  mounts : List VfsMount
  nodePool : NodeId → VfsNode
  tables : TableId → FdTable
  live : Finset TableId
  /-- `process_current()`, by process. -/
  current : Option Nat
  /-- `proc->fd_table`. -/
  procFdTable : Nat → Option TableId
  dev : VfsDev ρ

/-- What `vfs.c` calls in `ramfs.c`, `fs_vfs.c` and `vfile.c`. The virtual files
    read the descriptor tables, so they see the whole state. -/
structure VfsExt (ρ : Type) where
  ramfsFind : ρ → Path → Int
  ramfsCreate : ρ → Path → Int × ρ
  ramfsSize : ρ → Int → Int
  fsVfsOpen : ρ → Path → BitVec 32 → Int × ρ
  fsVfsClose : ρ → Int → ρ
  fsVfsSize : ρ → Int → Int
  vfileExists : Vfs ρ → Path → Bool
  vfileSize : Vfs ρ → Path → Int

variable {ρ : Type}

/-- An `int` used as an index, after the usual bounds test. -/
def intIndex (n : Nat) (i : Int) : Option (Fin n) :=
  if h : 0 ≤ i ∧ i.toNat < n then some ⟨i.toNat, h.2⟩ else none

/-- The value of an `int` converted to `size_t`. -/
def intToSize (i : Int) : Nat := (i % 2 ^ 64).toNat

/-! ## Mount table -/

/-- `k_strncmp(path, mount, len) == 0` together with the component boundary test. -/
def mountMatches (m : VfsMount) (path : Path) : Bool :=
  m.path.isPrefixOf path &&
    (decide (m.path.length ≤ 1) || path[m.path.length]? == none || path[m.path.length]? == some 47)

/-- One round of the longest-prefix search. -/
def findOpsRound (path : Path) (best : Option VfsMount × Nat) (m : VfsMount) :
    Option VfsMount × Nat :=
  if !m.active then best
  else if m.path.length < best.2 then best
  else if mountMatches m path then (some m, m.path.length) else best

/-- `find_ops`. A bare name goes to the root mount. -/
def findOps (mounts : List VfsMount) (path : Path) : Option VfsOps :=
  let best :=
    if path.head? = some 47 then (mounts.foldl (findOpsRound path) (none, 0)).1
    else mounts.find? fun m => m.active && m.path == [47]
  best.map fun m => m.ops.getD .vfile

/-- Give the first active mount at `path` the operations `ops`, if there is one. -/
def remount (path : Path) (ops : Option VfsOps) : List VfsMount → Option (List VfsMount)
  | [] => none
  | m :: ms =>
    if m.active && m.path == path then some ({ m with ops := ops } :: ms)
    else (remount path ops ms).map (m :: ·)

def vfsMount (s : Vfs ρ) (path : Path) (ops : Option VfsOps) : Vfs ρ :=
  match remount path ops s.mounts with
  | some mounts => { s with mounts := mounts }
  | none =>
    if vfsMaxMounts ≤ s.mounts.length then s
    else { s with mounts := s.mounts ++ [⟨path.take (vfsMaxPath - 1), ops, true⟩] }

/-! ## Operations tables -/

def ramfsStripSlash (path : Path) : Path := path.dropWhile (· == 47)

def ramfsVfsOpen (ext : VfsExt ρ) (d : VfsDev ρ) (path : Path) (flags : BitVec 32) :
    Int × VfsDev ρ :=
  let name := ramfsStripSlash path
  if name = [] then (-1, d)
  else
    let fd := ext.ramfsFind d.rest name
    if flags &&& vfsOCreat ≠ 0 ∧ fd < 0 then
      let (fd, rest) := ext.ramfsCreate d.rest name
      (fd, { d with rest := rest })
    else (fd, d)

def vfileVfsOpen (ext : VfsExt ρ) (s : Vfs ρ) (path : Path) (flags : BitVec 32) :
    Int × VfsDev ρ :=
  if flags &&& vfsOCreat ≠ 0 then (-1, s.dev)
  else if !ext.vfileExists s path then (-1, s.dev)
  else match (List.finRange 8).find? fun i => !s.dev.vfileOpenUsed i with
    | none => (-1, s.dev)
    | some i =>
      (i.val, { s.dev with
        vfileOpenPaths := update s.dev.vfileOpenPaths i (path.take (vfsMaxPath - 1))
        vfileOpenUsed := update s.dev.vfileOpenUsed i true })

def vfileVfsClose (d : VfsDev ρ) (internalFd : Int) : VfsDev ρ :=
  match intIndex 8 internalFd with
  | none => d
  | some i => { d with vfileOpenUsed := update d.vfileOpenUsed i false }

def selfFdPrefix : Path := "/0/system/self/fd/".toUTF8.toList

/-- `vfile_vfs_size`: the length of the generated text, 0 for the forwarding
    descriptors and for errors. -/
def vfileVfsSize (ext : VfsExt ρ) (s : Vfs ρ) (internalFd : Int) : Int :=
  match intIndex 8 internalFd with
  | none => 0
  | some i =>
    if !s.dev.vfileOpenUsed i then 0
    else
      let path := s.dev.vfileOpenPaths i
      if selfFdPrefix.isPrefixOf path then 0
      else
        let len := ext.vfileSize s path
        if len < 0 then 0 else len

/-- The pipe after one end is closed; the index is released with the last end. -/
def pipeRelease (d : VfsDev ρ) (pipeIdx : Int) (drop : VfsPipe → VfsPipe) : VfsDev ρ :=
  match intIndex 16 pipeIdx with
  | none => d
  | some i =>
    if !d.pipeInUse i then d
    else
      let p := drop (d.pipes i)
      { d with
        pipes := update d.pipes i p
        pipeInUse :=
          if p.readers ≤ 0 ∧ p.writers ≤ 0 then update d.pipeInUse i false
          else d.pipeInUse }

def pipeVfsCloseRead (d : VfsDev ρ) (pipeIdx : Int) : VfsDev ρ :=
  pipeRelease d pipeIdx fun p => { p with readers := p.readers - 1 }

def pipeVfsCloseWrite (d : VfsDev ρ) (pipeIdx : Int) : VfsDev ρ :=
  pipeRelease d pipeIdx fun p => { p with writers := p.writers - 1 }

/-- `ops->open`, where the table has one. -/
def opsOpen (ext : VfsExt ρ) :
    VfsOps → Option (Vfs ρ → Path → BitVec 32 → Int × VfsDev ρ)
  | .ramfs => some fun s path flags => ramfsVfsOpen ext s.dev path flags
  | .fs => some fun s path flags =>
      let (fd, rest) := ext.fsVfsOpen s.dev.rest path flags
      (fd, { s.dev with rest := rest })
  | .vfile => some (vfileVfsOpen ext)
  | .pipeRead | .pipeWrite | .console => none

/-- `ops->close`; the console has none and ramfs does nothing. -/
def opsClose (ext : VfsExt ρ) (ops : VfsOps) (d : VfsDev ρ) (internalFd : Int) : VfsDev ρ :=
  match ops with
  | .ramfs | .console => d
  | .fs => { d with rest := ext.fsVfsClose d.rest internalFd }
  | .vfile => vfileVfsClose d internalFd
  | .pipeRead => pipeVfsCloseRead d internalFd
  | .pipeWrite => pipeVfsCloseWrite d internalFd

/-- `ops->size ? ops->size(internal_fd) : 0`. -/
def opsSize (ext : VfsExt ρ) (ops : VfsOps) (s : Vfs ρ) (internalFd : Int) : Int :=
  match ops with
  | .ramfs => ext.ramfsSize s.dev.rest internalFd
  | .fs => ext.fsVfsSize s.dev.rest internalFd
  | .vfile => vfileVfsSize ext s internalFd
  | .pipeRead | .pipeWrite | .console => 0

/-! ## Nodes and slots -/

def Vfs.setNode (s : Vfs ρ) (n : NodeId) (node : VfsNode) : Vfs ρ :=
  { s with nodePool := update s.nodePool n node }

def Vfs.setRef (s : Vfs ρ) (n : NodeId) (refCount : Int) : Vfs ρ :=
  s.setNode n { s.nodePool n with refCount := refCount }

def Vfs.setTable (s : Vfs ρ) (t : TableId) (table : FdTable) : Vfs ρ :=
  { s with tables := update s.tables t table }

/-- Write slot `i` of table `t` and adjust the table's count. -/
def Vfs.setSlot (s : Vfs ρ) (t : TableId) (i : Fin 32) (v : Option NodeId) (dcount : Int) :
    Vfs ρ :=
  s.setTable t ⟨update (s.tables t).fds i v, (s.tables t).count + dcount⟩

@[simp] theorem setNode_nodePool (s : Vfs ρ) (n : NodeId) (node : VfsNode) :
    (s.setNode n node).nodePool = update s.nodePool n node := rfl

@[simp] theorem setNode_tables (s : Vfs ρ) (n : NodeId) (node : VfsNode) :
    (s.setNode n node).tables = s.tables := rfl

@[simp] theorem setNode_live (s : Vfs ρ) (n : NodeId) (node : VfsNode) :
    (s.setNode n node).live = s.live := rfl

@[simp] theorem setSlot_nodePool (s : Vfs ρ) (t : TableId) (i : Fin 32) (v : Option NodeId)
    (d : Int) : (s.setSlot t i v d).nodePool = s.nodePool := rfl

@[simp] theorem setSlot_live (s : Vfs ρ) (t : TableId) (i : Fin 32) (v : Option NodeId)
    (d : Int) : (s.setSlot t i v d).live = s.live := rfl

/-- The node `alloc_node` stops at. -/
def findNode (s : Vfs ρ) : Option NodeId :=
  (List.finRange 128).find? fun n =>
    (s.nodePool n).refCount == 0 && (s.nodePool n).ops == none

/-- `alloc_node` marks the node it returns as held. -/
def allocNode (s : Vfs ρ) : Option (NodeId × Vfs ρ) :=
  (findNode s).map fun n => (n, s.setRef n 1)

def freeNode (s : Vfs ρ) (n : NodeId) : Vfs ρ := s.setNode n ⟨.none, -1, none, 0, 0, 0, 0⟩

/-! ## Descriptor tables -/

/-- `node->ref_count--`, with the close and release of a node that reaches zero. -/
def dropRef (ext : VfsExt ρ) (s : Vfs ρ) (n : NodeId) : Vfs ρ :=
  let node := s.nodePool n
  let s := s.setRef n (node.refCount - 1)
  if node.refCount - 1 ≤ 0 then
    let s := match node.ops with
      | none => s
      | some ops => { s with dev := opsClose ext ops s.dev node.internalFd }
    freeNode s n
  else s

/-- `fd_table_alloc`: the lowest free slot. -/
def fdTableAlloc (s : Vfs ρ) (t : TableId) (n : NodeId) : Option (Fin 32 × Vfs ρ) :=
  ((List.finRange 32).find? fun i => (s.tables t).fds i == none).map fun i =>
    (i, (s.setRef n ((s.nodePool n).refCount + 1)).setSlot t i (some n) 1)

def fdTableClose (ext : VfsExt ρ) (s : Vfs ρ) (t : TableId) (fd : Int) : Int × Vfs ρ :=
  match intIndex 32 fd with
  | none => (-1, s)
  | some i =>
    match (s.tables t).fds i with
    | none => (-1, s)
    | some n => (0, (dropRef ext s n).setSlot t i none (-1))

/-- One round of `fd_table_install_std`; the loop stops when the pool is full. -/
def installStdFd (s : Vfs ρ) (t : TableId) (i : Fin 32) : Option (Vfs ρ) :=
  (allocNode s).map fun (n, s) =>
    (s.setNode n ⟨.device, i.val, some .console, 0, 0, 1, if i = 0 then 0 else 1⟩).setSlot
      t i (some n) 1

def installStdFds (s : Vfs ρ) (t : TableId) : List (Fin 32) → Vfs ρ
  | [] => s
  | i :: is =>
    match installStdFd s t i with
    | none => s
    | some s => installStdFds s t is

def fdTableInstallStd (s : Vfs ρ) (t : TableId) : Vfs ρ := installStdFds s t [0, 1, 2]

/-- The slots of the standard streams. -/
def stdSlots : List (Fin 32) := [0, 1, 2]

def emptyTable : FdTable := ⟨fun _ => none, 0⟩

/-- A new table at the address `kmalloc` returned. -/
def newTable (s : Vfs ρ) (t : TableId) : Vfs ρ :=
  { s.setTable t emptyTable with live := insert t s.live }

def fdTableCreate (s : Vfs ρ) (kmalloc : Option TableId) : Option TableId × Vfs ρ :=
  match kmalloc with
  | none => (none, s)
  | some t => (some t, fdTableInstallStd (newTable s t) t)

/-- One round of the copy loop of `fd_table_clone`. -/
def cloneSlot (src dst : TableId) (s : Vfs ρ) (i : Fin 32) : Vfs ρ :=
  match (s.tables src).fds i with
  | none => s
  | some n => (s.setSlot dst i (some n) 1).setRef n ((s.nodePool n).refCount + 1)

def fdTableClone (s : Vfs ρ) (src : TableId) (kmalloc : Option TableId) :
    Option TableId × Vfs ρ :=
  match kmalloc with
  | none => (none, s)
  | some dst => (some dst, (List.finRange 32).foldl (cloneSlot src dst) (newTable s dst))

/-- One round of the loop of `fd_table_destroy`, which leaves `count` alone. -/
def destroySlot (ext : VfsExt ρ) (t : TableId) (s : Vfs ρ) (i : Fin 32) : Vfs ρ :=
  match (s.tables t).fds i with
  | none => s
  | some n => (dropRef ext s n).setSlot t i none 0

/-- `fd_table_destroy`, with the owner's pointer reset as in `process_exit`. -/
def fdTableDestroy (ext : VfsExt ρ) (s : Vfs ρ) (t : TableId) : Vfs ρ :=
  let s := (List.finRange 32).foldl (destroySlot ext t) s
  { s with
    live := s.live.erase t
    procFdTable := fun p => if s.procFdTable p = some t then none else s.procFdTable p }

/-! ## Calls -/

def getCurrentFdTable (s : Vfs ρ) : TableId :=
  (s.current.bind s.procFdTable).getD kernelFdTable

/-- The table `vfs_open` works on: the first open of a process creates its table. -/
def openTable (s : Vfs ρ) (kmalloc : Option TableId) : Option TableId × Vfs ρ :=
  match s.current with
  | none => (some kernelFdTable, s)
  | some p =>
    match s.procFdTable p with
    | some t => (some t, s)
    | none =>
      match fdTableCreate s kmalloc with
      | (none, s) => (none, s)
      | (some t, s) => (some t, { s with procFdTable := update s.procFdTable p (some t) })

/-- The last part of `vfs_open`, from the node that is to be published. -/
def openPublish (s : Vfs ρ) (n : NodeId) (kmalloc : Option TableId) : Int × Vfs ρ :=
  match openTable s kmalloc with
  | (none, s) => (-1, freeNode s n)
  | (some t, s) =>
    match fdTableAlloc s t n with
    | none => (-1, freeNode s n)
    | some (fd, s) => (fd.val, s)

/-- The first part of `vfs_open`: the operations the path selects and the
    descriptor their `open` returned, or `none` where `vfs_open` fails with -1. -/
def openBackend (ext : VfsExt ρ) (s : Vfs ρ) (path : Option Path) (flags : BitVec 32) :
    Option (VfsOps × Int) × Vfs ρ :=
  match path with
  | none => (none, s)
  | some path =>
    match findOps s.mounts path with
    | none => (none, s)
    | some ops =>
      match opsOpen ext ops with
      | none => (none, s)
      | some openFn =>
        let (internalFd, dev) := openFn s path flags
        (if internalFd < 0 then none else some (ops, internalFd), { s with dev := dev })

/-- The node `vfs_open` fills in; its count is raised when it gets a slot. -/
def openNode (ext : VfsExt ρ) (s : Vfs ρ) (ops : VfsOps) (internalFd : Int)
    (flags : BitVec 32) : VfsNode :=
  ⟨.file, internalFd, some ops, 0, intToSize (opsSize ext ops s internalFd), 0, flags &&& 3⟩

def vfsOpen (ext : VfsExt ρ) (s : Vfs ρ) (path : Option Path) (flags : BitVec 32)
    (kmalloc : Option TableId) : Int × Vfs ρ :=
  match openBackend ext s path flags with
  | (none, s) => (-1, s)
  | (some (ops, internalFd), s) =>
    match allocNode s with
    | none => (-1, { s with dev := opsClose ext ops s.dev internalFd })
    | some (n, s) => openPublish (s.setNode n (openNode ext s ops internalFd flags)) n kmalloc

def vfsClose (ext : VfsExt ρ) (s : Vfs ρ) (fd : Int) : Int × Vfs ρ :=
  fdTableClose ext s (getCurrentFdTable s) fd

def fdTableGet (s : Vfs ρ) (t : TableId) (fd : Int) : Option NodeId :=
  (intIndex 32 fd).bind (s.tables t).fds

def vfsDup (s : Vfs ρ) (fd : Int) : Int × Vfs ρ :=
  let t := getCurrentFdTable s
  match fdTableGet s t fd with
  | none => (-1, s)
  | some n =>
    match fdTableAlloc s t n with
    | none => (-1, s)
    | some (newfd, s) => (newfd.val, s)

def vfsDup2 (ext : VfsExt ρ) (s : Vfs ρ) (oldfd newfd : Int) : Int × Vfs ρ :=
  let t := getCurrentFdTable s
  match intIndex 32 oldfd, intIndex 32 newfd with
  | some old, some new =>
    if old = new then (newfd, s)
    else match (s.tables t).fds old with
      | none => (-1, s)
      | some n =>
        let s := if (s.tables t).fds new = none then s else (fdTableClose ext s t newfd).2
        (newfd, (s.setSlot t new (some n) 1).setRef n ((s.nodePool n).refCount + 1))
  | _, _ => (-1, s)

def pipeAllocIndex (d : VfsDev ρ) : Option (Fin 16) :=
  (List.finRange 16).find? fun i => !d.pipeInUse i

/-- The node of one end of pipe `idx`. -/
def pipeNode (type : VfsType) (ops : VfsOps) (idx : Fin 16) (flags : BitVec 32) : VfsNode :=
  ⟨type, idx.val, some ops, 0, 4096, 0, flags⟩

def Vfs.setPipeInUse (s : Vfs ρ) (idx : Fin 16) (b : Bool) : Vfs ρ :=
  { s with dev := { s.dev with pipeInUse := update s.dev.pipeInUse idx b } }

/-- A reset pipe `idx` with one end of each kind. -/
def openPipe (s : Vfs ρ) (idx : Fin 16) : Vfs ρ :=
  { s with dev := { s.dev with
      pipes := update s.dev.pipes idx ⟨(s.dev.pipes idx).buf, 0, 0, 0, 1, 1⟩
      pipeInUse := update s.dev.pipeInUse idx true } }

/-- The last part of `vfs_pipe`: two descriptors for the two nodes, or neither. -/
def pipePublish (ext : VfsExt ρ) (s : Vfs ρ) (idx : Fin 16) (rnode wnode : NodeId) :
    Option (Fin 32 × Fin 32) × Vfs ρ :=
  let t := getCurrentFdTable s
  match fdTableAlloc s t rnode with
  | none =>
    -- The table is full, so the second call fails as well.
    (none, s.setPipeInUse idx false)
  | some (r, s) =>
    match fdTableAlloc s t wnode with
    | none => (none, ((fdTableClose ext s t r.val).2).setPipeInUse idx false)
    | some (w, s) => (some (r, w), s)

/-- `vfs_pipe`: the two descriptors, or `none` for -1. `fds` says whether the
    caller's array pointer is non-null. -/
def vfsPipe (ext : VfsExt ρ) (s : Vfs ρ) (fds : Bool) : Option (Fin 32 × Fin 32) × Vfs ρ :=
  if !fds then (none, s)
  else match pipeAllocIndex s.dev with
    | none => (none, s)
    | some idx =>
      let s := openPipe s idx
      match allocNode s with
      | none => (none, s.setPipeInUse idx false)
      | some (rnode, s) =>
        match allocNode s with
        | none => (none, freeNode (s.setPipeInUse idx false) rnode)
        | some (wnode, s) =>
          let s := s.setNode rnode (pipeNode .pipeRead .pipeRead idx 0)
          let s := s.setNode wnode (pipeNode .pipeWrite .pipeWrite idx 1)
          pipePublish ext s idx rnode wnode

/-! ## Start-up -/

/-- The layer before `vfs_mount` is first called: the statics are zero or cleared,
    no process runs, no table is on the heap, and `dev` is what the other files
    were initialised to. -/
def vfsBoot (dev : VfsDev ρ) : Vfs ρ :=
  { mounts := []
    nodePool := fun _ => ⟨.none, -1, none, 0, 0, 0, 0⟩
    tables := fun _ => emptyTable
    live := {kernelFdTable}
    current := none
    procFdTable := fun _ => none
    dev := dev }

def vfsInit (dev : VfsDev ρ) : Vfs ρ :=
  fdTableInstallStd (vfsMount (vfsBoot dev) [47] (some .ramfs)) kernelFdTable

end OpenSys
