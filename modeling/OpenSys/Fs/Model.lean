-- SUMMARY: The filesystem of fs.c: volume, disk, paths, file and directory operations.
import OpenSys.Fs.Entry
import OpenSys.Lib.Bitmap

/-!
# The filesystem

`src/fs/fs.c`. The MFT is kept in memory and written through to the disk entry by
entry; file data lives in its entry or in clusters on the disk. A path is the bytes of
a C string without its terminator. The result `none` of an operation means that the
code leaves its `parent_path` buffer or reads behind the path, so that the call has no
defined behaviour.
-/

namespace OpenSys

def mftRoot : Nat := 5

def mftFirstUser : Nat := 16

/-- `(uint64_t)-1`. -/
def fsNone : Nat := 2 ^ 64 - 1

/-- `/` -/
def slash : UInt8 := 47

/-- The fields of `fs_boot_sector_t` that the code uses later. -/
structure FsBoot where
  totalSectors : Nat
  mftStart : Nat
  mftSize : Nat
  dataStart : Nat
  totalClusters : Nat

/-- A disk of bytes, sector by sector. `fails` says which of its operations fail, and
    `log` holds the first sector and the count of every request, the newest first. -/
structure Disk where
  bytes : Mem
  fails : Nat → Bool
  ops : Nat
  log : List (Nat × Nat)

/-- The state of `fs.c`. Memory holds the MFT at `mftZone`; the cluster bitmap is kept
    apart from it. `clock` is what the hardware clock will answer, and `uninit` what an
    array on the stack holds before it is written. -/
structure Fs where
  boot : FsBoot
  mem : Mem
  mftZone : Nat
  bitmap : Bitmap 8
  disk : Disk
  baseLba : Nat
  clock : Nat → Nat
  ticks : Nat
  uninit : Mem

/-- `fs_file_t`. -/
structure FsFile where
  mftNumber : Nat
  position : Nat
  size : Nat
  mode : Nat

def Fs.slot (s : Fs) (i : Nat) : Nat := s.mftZone + i * mftEntrySize

/-- The next answer of `get_time`. -/
def Fs.now (s : Fs) : Nat := s.clock s.ticks

def Fs.tick (s : Fs) : Fs := { s with ticks := s.ticks + 1 }

/-! ## The disk -/

def Disk.request (d : Disk) (lba count : Nat) : Disk := { d with log := (lba, count) :: d.log }

/-- `disk_read`; a read that fails leaves the buffer as it is. -/
def diskRead (d : Disk) (lba count : Nat) (buffer : Mem) : Int × Mem × Disk :=
  let d := d.request lba count
  if 0x0FFFFFFF < lba then (-1, buffer, d)
  else if d.fails d.ops then (-1, buffer, { d with ops := d.ops + 1 })
  else (0, buffer.writeBytes 0 (d.bytes.readBytes (lba * 512) (count * 512)),
    { d with ops := d.ops + 1 })

/-- `disk_write`; a write that fails leaves the disk as it is. -/
def diskWrite (d : Disk) (lba count : Nat) (buffer : Mem) : Int × Disk :=
  let d := d.request lba count
  if 0x0FFFFFFF < lba then (-1, d)
  else if d.fails d.ops then (-1, { d with ops := d.ops + 1 })
  else (0, { d with
    bytes := d.bytes.writeBytes (lba * 512) (buffer.readBytes 0 (count * 512))
    ops := d.ops + 1 })

/-- `(uint32_t)lba` of a cluster. -/
def Fs.clusterLba (s : Fs) (cluster : Nat) : Nat :=
  u32 (u64 (s.baseLba + cluster * 8 + s.boot.dataStart))

def readCluster (s : Fs) (cluster : Nat) (buffer : Mem) : Int × Mem × Fs :=
  match diskRead s.disk (s.clusterLba cluster) 8 buffer with
  | (status, buffer, disk) => (status, buffer, { s with disk := disk })

def writeCluster (s : Fs) (cluster : Nat) (buffer : Mem) : Int × Fs :=
  match diskWrite s.disk (s.clusterLba cluster) 8 buffer with
  | (status, disk) => (status, { s with disk := disk })

/-- `write_mft_entry` of an entry from its slot. -/
def writeMftEntry (s : Fs) (i : Nat) : Int × Fs :=
  writeCluster s (u64 (s.boot.mftStart + i)) fun x => s.mem (s.slot i + x)

def allocCluster (s : Fs) : Option Nat × Fs :=
  match (List.range s.boot.totalClusters).find? fun i => !s.bitmap.get i with
  | some i => (some i, { s with bitmap := s.bitmap.set i })
  | none => (none, s)

/-! ## Entries -/

/-- The user entries, in the order of the loops. -/
def Fs.userSlots (s : Fs) : List Nat := List.range' mftFirstUser (s.boot.mftSize - mftFirstUser)

def Fs.inUse (s : Fs) (i : Nat) : Bool := mftInUse s.mem (s.slot i)

def allocMftEntry (s : Fs) : Option Nat := s.userSlots.find? fun i => !s.inUse i

/-- The filename record of an entry. -/
def Fs.filename (s : Fs) (i : Nat) : Option Nat := findAttrPayload s.mem (s.slot i) attrFilename

/-! ## Paths -/

/-- The components of the rest of a path. A component ends at a slash or after 254
    bytes, and an empty one is skipped. -/
def componentsFrom : (fuel : Nat) → List UInt8 → List (List UInt8)
  | 0, _ => []
  | fuel + 1, ptr =>
    if ptr = [] then []
    else
      let component := (ptr.takeWhile (· != slash)).take (maxFilenameLen - 1)
      let rest := ptr.drop component.length
      let rest := if rest.head? = some slash then rest.tail else rest
      if component = [] then componentsFrom fuel rest
      else component :: componentsFrom fuel rest

def pathComponents (path : List UInt8) : List (List UInt8) := componentsFrom path.length path

/-- Does the entry have this parent and name? -/
def Fs.isChild (s : Fs) (parent : Nat) (component : List UInt8) (i : Nat) : Bool :=
  s.inUse i && match s.filename i with
    | none => false
    | some fn => fnParentMft s.mem fn == parent && fnFilename s.mem fn == component

/-- One round of `find_file`: the first entry with this parent and name. -/
def findChild (s : Fs) (current : Nat) (component : List UInt8) : Option Nat :=
  if (s.filename current).isNone then none else s.userSlots.find? (s.isChild current component)

def findFile (s : Fs) (path : List UInt8) : Option Nat :=
  match path with
  | [] => none
  | c :: path => if c ≠ slash then none else (pathComponents path).foldlM (findChild s) mftRoot

/-- The offset of the last slash, 0 when there is none. -/
def lastSlash : List UInt8 → Nat
  | [] => 0
  | _ :: path => if slash ∈ path then lastSlash path + 1 else 0

/-- `parent_path`, and the part behind the last slash (the first byte of a path without
    slash is dropped as well). -/
def splitPath (path : List UInt8) : List UInt8 × List UInt8 :=
  (if lastSlash path = 0 then [slash] else path.take (lastSlash path), path.drop (lastSlash path + 1))

/-! ## Format -/

def fsMagic : Nat := 0x4E414C50

/-- `entry->magic = 0; entry->flags = 0`. -/
def clearEntry (m : Mem) (entry : Nat) : Mem := (m.writeLE entry 4 0).writeLE (entry + 6) 2 0

/-- The boot sector, in a buffer of 512 bytes. -/
def writeBoot (m : Mem) (boot : FsBoot) : Mem :=
  let m := m.writeLE 0 4 fsMagic
  let m := m.writeLE 4 4 0x00010000 -- version
  let m := m.writeLE 8 8 boot.totalSectors
  let m := m.writeLE 16 4 8 -- sectors_per_cluster
  let m := m.writeLE 20 4 boot.mftStart
  let m := m.writeLE 24 4 boot.mftSize
  let m := m.writeLE 28 4 mftEntrySize
  let m := m.writeLE 32 4 boot.dataStart
  let m := m.writeLE 36 8 boot.totalClusters
  m.writeLE 502 2 0xAA55 -- signature

/-- `fs_format` on a disk of `diskSize` bytes, in a volume of `volumeSectors` sectors
    (0 for the whole disk). The two arrays come from `kmalloc`, with whatever they hold. -/
def fsFormat (s : Fs) (volumeSectors diskSize : Nat) (diskReady : Bool) : Fs :=
  let diskSize := if 0 < volumeSectors then min diskSize (u64 (volumeSectors * 512)) else diskSize
  let totalSectors := diskSize / 512
  let boot : FsBoot :=
    { totalSectors := totalSectors
      mftStart := 8
      mftSize := 128
      dataStart := 136
      totalClusters := sub64 totalSectors 136 / 8 }
  let s := { s with boot := boot }
  let m := (List.range 128).foldl (fun m i => clearEntry m (s.slot i)) s.mem
  let m := initMftEntry m (s.slot mftRoot) mftRoot mftFlagDirectory
  let m := addFilenameAttr m s.now (s.slot mftRoot) [] mftRoot
  let m := addIndexRootAttr m (s.slot mftRoot)
  let s := { s.tick with mem := m }
  if diskReady then
    let s := { s with disk := (diskWrite s.disk (u32 s.baseLba) 1 (writeBoot s.uninit boot)).2 }
    (List.range 128).foldl (fun s i => (writeMftEntry s i).2) s
  else s

/-! ## Mount -/

/-- The boot sector that a buffer of 512 bytes holds. -/
def readBoot (m : Mem) : FsBoot :=
  { totalSectors := m.readLE 8 8
    mftStart := m.readLE 20 4
    mftSize := m.readLE 24 4
    dataStart := m.readLE 32 4
    totalClusters := m.readLE 36 8 }

/-- The geometry that `fs_mount` accepts. -/
def FsBoot.sane (boot : FsBoot) : Bool :=
  !(boot.mftSize == 0 || decide (4096 < boot.mftSize)) &&
    !decide (64 * 1024 * 1024 < boot.mftSize * mftEntrySize) &&
    !(boot.totalClusters == 0 || decide (4 * 1024 * 1024 < boot.totalClusters)) &&
    !(decide (boot.totalSectors ≤ boot.dataStart) && boot.totalSectors != 0)

/-- `read_mft_entry` of an entry into its slot. -/
def loadMftEntry (s : Fs) (i : Nat) : Fs :=
  match readCluster s (u64 (s.boot.mftStart + i)) fun x => s.mem (s.slot i + x) with
  | (_, buf, s) => { s with mem := s.mem.writeBytes (s.slot i) (buf.readBytes 0 mftEntrySize) }

/-- `fs_mount`, with the address that `kmalloc` returned for the MFT. A mount that fails
    has replaced the boot sector already. -/
def fsMount (s : Fs) (zone : Nat) : Int × Fs :=
  match diskRead s.disk (u32 s.baseLba) 1 s.uninit with
  | (status, buf, disk) =>
    let s := { s with disk := disk, boot := readBoot buf }
    if status < 0 then (-1, s)
    else if buf.readLE 0 4 ≠ fsMagic then (-1, s)
    else if !s.boot.sane then (-1, s)
    else
      let m : Mem := fun x =>
        if zone ≤ x ∧ x < zone + s.boot.mftSize * mftEntrySize then 0 else s.mem x
      let s := { s with mem := m, mftZone := zone }
      let s := (List.range s.boot.mftSize).foldl loadMftEntry s
      (0, { s with bitmap := fun _ => 0 })

/-! ## Creating and removing entries -/

/-- A new entry with its name, entered into the index of its parent. -/
def createEntry (s : Fs) (i parent flags : Nat) (name : List UInt8) : Fs :=
  let m := initMftEntry s.mem (s.slot i) i flags
  let m := addFilenameAttr m s.now (s.slot i) name parent
  let m := if flags = mftFlagDirectory then addIndexRootAttr m (s.slot i) else m
  let s := s.tick
  match addDirEntry m s.now (s.slot parent) i name with
  | (added, m) => { (if added then s.tick else s) with mem := m }

/-- The part of `fs_open` behind the lookup: a handle, unless the entry is read-only. -/
def openEntry (s : Fs) (i mode : Nat) : Option FsFile :=
  if mode ≠ 0 ∧ mftIsReadonly s.mem (s.slot i) then none
  else
    some
      { mftNumber := i
        position := 0
        size := ((s.filename i).map (fnRealSize s.mem)).getD 0
        mode := mode % 256 }

/-- `fs_open`. -/
def fsOpen (s : Fs) (path : List UInt8) (mode : Nat) : Option (Option FsFile × Fs) :=
  match findFile s path with
  | some i => some (openEntry s i mode, s)
  | none =>
    if mode = 0 then some (none, s)
    else
      match allocMftEntry s with
      | none => some (none, s)
      | some i =>
        if path = [] ∨ 255 < lastSlash path then none
        else
          let (parentPath, name) := splitPath path
          match findFile s parentPath with
          | none => some (none, s)
          | some parent =>
            let s := createEntry s i parent 0 name
            let s := (writeMftEntry s i).2
            let s := (writeMftEntry s parent).2
            some (openEntry s i mode, s)

def fsMkdir (s : Fs) (path : List UInt8) : Option (Int × Fs) :=
  if path = [] then some (-1, s)
  else
    match allocMftEntry s with
    | none => some (-1, s)
    | some i =>
      if 255 < lastSlash path then none
      else
        let (parentPath, name) := splitPath path
        match findFile s parentPath with
        | none => some (-1, s)
        | some parent =>
          let s := createEntry s i parent mftFlagDirectory name
          match writeMftEntry s i with
          | (status, s) =>
            if status < 0 then some (-1, s)
            else
              match writeMftEntry s parent with
              | (status, s) => some (if status < 0 then -1 else 0, s)

/-- The end of `fs_rmdir` and `fs_unlink`: the entry leaves the index of its parent and
    is cleared. -/
def dropEntry (s : Fs) (i : Nat) : Int × Fs :=
  let s :=
    match s.filename i with
    | none => s
    | some fn =>
      let parent := fnParentMft s.mem fn
      if parent ≠ fsNone ∧ parent < s.boot.mftSize then
        (writeMftEntry { s with mem := removeIndexEntry s.mem (s.slot parent) i } parent).2
      else s
  let m := (clearEntry s.mem (s.slot i)).writeLE (s.slot i + 8) 4 0
  match writeMftEntry { s with mem := m } i with
  | (status, s) => (if status < 0 then -1 else 0, s)

def fsRmdir (s : Fs) (path : List UInt8) : Int × Fs :=
  match findFile s path with
  | none => (-1, s)
  | some i =>
    if !mftIsDirectory s.mem (s.slot i) then (-1, s)
    else if mftIsReadonly s.mem (s.slot i) then (-1, s)
    else if s.userSlots.any fun j => s.inUse j && match s.filename j with
        | none => false
        | some fn => fnParentMft s.mem fn == i then (-1, s)
    else dropEntry s i

/-- `cluster_bitmap[byte] &= ~(1 << bit)`, for a byte of the bitmap. -/
def freeCluster (s : Fs) (cluster : Nat) : Fs :=
  if cluster / 8 < (s.boot.totalClusters + 7) / 8 then
    { s with bitmap := s.bitmap.clear cluster }
  else s

/-- The loop of `fs_unlink` over the runs, from run `i` on. -/
def freeRuns (s : Fs) (runs : Nat) : (i rounds : Nat) → Fs
  | _, 0 => s
  | i, rounds + 1 =>
    if s.boot.totalClusters < runLength s.mem runs i then s
    else
      let s := (List.range (runLength s.mem runs i)).foldl
        (fun s j => freeCluster s (u64 (runStart s.mem runs i + j))) s
      freeRuns s runs (i + 1) rounds

/-- The number of runs that `fs_unlink` frees. -/
def unlinkRunCount (m : Mem) (attr nr : Nat) : Nat :=
  let n := nonresidentRunCount m attr nr
  let vcns := u64 (sub64 (nrLastVcn m nr) (nrStartVcn m nr) + 1)
  if nrStartVcn m nr ≤ nrLastVcn m nr ∧ vcns < n then vcns else n

def fsUnlink (s : Fs) (path : List UInt8) : Int × Fs :=
  match findFile s path with
  | none => (-1, s)
  | some i =>
    if mftIsReadonly s.mem (s.slot i) then (-1, s)
    else if mftIsDirectory s.mem (s.slot i) then (-1, s)
    else
      let s :=
        match findAttr s.mem (s.slot i) attrData with
        | none => s
        | some attr =>
          if attrNonResident s.mem attr = 0 then s
          else
            let nr := attr + attrHeaderSize
            freeRuns s (attr + nrRunOffset s.mem nr) 0 (unlinkRunCount s.mem attr nr)
      dropEntry s i

/-! ## Renaming -/

/-- A new name and parent in a filename record. -/
def renameFilename (m : Mem) (fn parent now : Nat) (name : List UInt8) : Mem :=
  let m := m.writeLE (fn + 56) 1 name.length
  let m := m.writeBytes (fn + 58) name
  let m := m.writeLE fn 8 parent
  m.writeLE (fn + 16) 8 now

/-- The index update of `fs_rename`. -/
def renameIndex (s : Fs) (i oldParent newParent : Nat) (name : List UInt8) : Fs :=
  if oldParent = newParent then
    match findIndexEntry s.mem (s.slot oldParent) i with
    | none => s
    | some e =>
      let name := name.take maxFilenameLen
      let m := (s.mem.writeLE (e + 16 + 56) 1 name.length).writeBytes (e + 16 + 58) name
      (writeMftEntry { s with mem := m } oldParent).2
  else
    let s := { s with mem := removeIndexEntry s.mem (s.slot oldParent) i }
    let s := (writeMftEntry s oldParent).2
    match addDirEntry s.mem s.now (s.slot newParent) i name with
    | (added, m) => (writeMftEntry { (if added then s.tick else s) with mem := m } newParent).2

def fsRename (s : Fs) (oldPath newPath : List UInt8) : Option (Int × Fs) :=
  if oldPath.head? ≠ some slash ∨ newPath.head? ≠ some slash then some (-1, s)
  else
    match findFile s oldPath with
    | none => some (-1, s)
    | some i =>
      let (parentPath, name) := splitPath newPath
      if name = [] then some (-1, s)
      -- The copy into `parent_path` stops at 254 bytes, the terminator goes behind them.
      else if 254 < lastSlash newPath then none
      else
        match findFile s parentPath with
        | none => some (-1, s)
        | some newParent =>
          if (findFile s newPath).isSome then some (-1, s)
          else
            match s.filename i with
            | none => some (-1, s)
            | some fn =>
              let oldParent := fnParentMft s.mem fn
              let m := renameFilename s.mem fn newParent s.now (name.take maxFilenameLen)
              let s := (writeMftEntry { s.tick with mem := m } i).2
              some (0, renameIndex s i oldParent newParent name)

/-! ## Permissions -/

/-- `fs_set_readonly`. -/
def fsSetReadonly (s : Fs) (path : List UInt8) (ro : Bool) : Int × Fs :=
  match findFile s path with
  | none => (-1, s)
  | some i =>
    let flags := mftFlags s.mem (s.slot i)
    let flags := if ro then flags ||| mftFlagReadonly else flags &&& 0xFFFB
    match writeMftEntry { s with mem := s.mem.writeLE (s.slot i + 6) 2 flags } i with
    | (status, s) => (if status < 0 then -1 else 0, s)

/-! ## Listing -/

/-- `fs_stat`: the filename record, or null for -1. -/
def fsStat (s : Fs) (path : List UInt8) : Option (List UInt8) :=
  (findFile s path).bind fun i => (s.filename i).map fun fn => s.mem.readBytes fn attrFilenameSize

/-- What the callback of `fs_readdir` gets: name, directory flag and size. -/
abbrev DirItem : Type := List UInt8 × Bool × Nat

/-- One round of the linear search, for entry `i`. -/
def scanItem (s : Fs) (dir i : Nat) : Option DirItem :=
  if !s.inUse i then none
  else (s.filename i).bind fun fn =>
    if fnParentMft s.mem fn = dir then
      some (fnFilename s.mem fn, mftIsDirectory s.mem (s.slot i), u32 (fnRealSize s.mem fn))
    else none

/-- The linear search over the entries with this parent. -/
def scanDir (s : Fs) (dir : Nat) : List DirItem := s.userSlots.filterMap (scanItem s dir)

/-- What one index entry reports: the name from the index, the rest from the entry itself. -/
def indexItem (s : Fs) (e : Nat) : Option DirItem :=
  let i := ieMftRef s.mem e
  if mftFirstUser ≤ i ∧ i < s.boot.mftSize ∧ s.inUse i then
    some (fnFilename s.mem (e + 16), mftIsDirectory s.mem (s.slot i),
      u32 (((s.filename i).map (fnRealSize s.mem)).getD (fnRealSize s.mem (e + 16))))
  else none

/-- The walk over the index from `e` on. -/
def listWalk (s : Fs) (stop : Nat) : (fuel e : Nat) → List DirItem
  | 0, _ => []
  | fuel + 1, e =>
    if stop < e + indexEntrySize then []
    else if ieLength s.mem e < indexEntrySize then []
    else if ieFlags s.mem e &&& 1 ≠ 0 then (indexItem s e).toList
    else (indexItem s e).toList ++ listWalk s stop fuel (e + ieLength s.mem e)

/-- The part of `fs_readdir` behind the lookup. -/
def listDir (s : Fs) (dir : Nat) : List DirItem :=
  match findAttr s.mem (s.slot dir) attrIndexRoot with
  | none => scanDir s dir
  | some indexAttr =>
    let stop := min (indexAttr + attrLength s.mem indexAttr) (s.slot dir + mftEntrySize)
    listWalk s stop (indexFuel stop) (indexAttr + attrHeaderSize + indexRootSize)

/-- `fs_readdir`: what the callback is called with, in order, or null for -1. -/
def fsReaddir (s : Fs) (path : List UInt8) : Option (List DirItem) :=
  (findFile s path).map (listDir s)

end OpenSys
