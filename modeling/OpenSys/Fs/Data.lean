-- SUMMARY: Reading and writing files in fs.c, in the entry and in clusters.
import OpenSys.Fs.Model

/-!
# File data

`fs_read`, `fs_write`, `fs_truncate` and `fs_seek` of `src/fs/fs.c`. The data attribute of a file is resident,
with the bytes behind its header, or non-resident, with an array of data runs of one
cluster each.
-/

namespace OpenSys

/-! ## Reading -/

/-- The loop of `fs_read` over the clusters of a non-resident file, from cluster `i` and
    `offset` in it on; `got` is what has been read so far. -/
def readRuns (file : FsFile) (nr runs available size : Nat) :
    (rounds : Nat) → Fs → (i offset : Nat) → List UInt8 → List UInt8 × Fs
  | 0, s, _, _, got => (got, s)
  | rounds + 1, s, i, offset, got =>
    if available ≤ i ∨ size ≤ got.length then (got, s)
    else
      let cluster := runStart s.mem runs i
      let toRead := fsClusterSize - offset
      let toRead :=
        if i = available - 1 ∧ file.position < nrRealSize s.mem nr then
          min toRead (nrRealSize s.mem nr - file.position)
        else toRead
      let toRead := min toRead (size - got.length)
      match readCluster s cluster s.uninit with
      | (_, buf, s) =>
        readRuns file nr runs available size rounds s (i + 1) 0 (got ++ buf.readBytes offset toRead)

/-- `fs_read`: the bytes read, the handle and the state behind it. -/
def fsRead (s : Fs) (file : FsFile) (size : Nat) : List UInt8 × FsFile × Fs :=
  if size = 0 then ([], file, s)
  else
    let entry := s.slot file.mftNumber
    match findAttr s.mem entry attrData with
    | none => ([], file, s)
    | some attr =>
      if attrNonResident s.mem attr ≠ 0 then
        let nr := attr + attrHeaderSize
        let runs := attr + nrRunOffset s.mem nr
        let available := min (nrAllocatedSize s.mem nr / fsClusterSize) (nonresidentRunCount s.mem attr nr)
        match readRuns file nr runs available size available s (file.position / fsClusterSize)
            (file.position % fsClusterSize) [] with
        | (got, s) => (got, { file with position := u64 (file.position + got.length) }, s)
      else if attrLength s.mem attr < attrHeaderSize then ([], file, s)
      else
        let dataSize := attrLength s.mem attr - attrHeaderSize
        let attrOff := attr - entry
        let dataSize :=
          if mftEntrySize < attrOff + attrHeaderSize + dataSize then
            mftEntrySize - attrOff - attrHeaderSize
          else dataSize
        if dataSize ≤ file.position then ([], file, s)
        else
          let toRead := min size (dataSize - file.position)
          (s.mem.readBytes (attr + attrHeaderSize + file.position) toRead,
            { file with position := u64 (file.position + toRead) }, s)

/-! ## Writing -/

/-- A data attribute behind the other attributes, over the trailing end marker. -/
def createDataAttr (m : Mem) (entry size : Nat) : Nat × Mem :=
  let available := u64 (u32 (mftEntrySize + (2 ^ 32 - mftUsedSize m entry)) + (2 ^ 64 - attrHeaderSize - 8))
  let attr := entry + mftUsedSize m entry - 8
  let m := m.writeLE attr 4 attrData
  if available < size then
    let m := m.writeLE (attr + 8) 1 1 -- non_resident
    let m := m.writeLE (attr + 4) 4 (attrHeaderSize + attrNonresidentSize)
    let nr := attr + attrHeaderSize
    let m := m.writeLE nr 8 0 -- start_vcn
    let m := m.writeLE (nr + 8) 8 0 -- last_vcn
    let m := m.writeLE (nr + 16) 2 (attrHeaderSize + attrNonresidentSize) -- run_offset
    let m := m.writeLE (nr + 18) 2 0 -- comp_unit_size
    let m := m.writeLE (nr + 20) 4 0 -- reserved
    let m := m.writeLE (nr + 24) 8 0 -- allocated_size
    let m := m.writeLE (nr + 32) 8 0 -- real_size
    let m := m.writeLE (nr + 40) 8 0 -- initialized_size
    (attr, setEnd m entry (attr + attrHeaderSize + attrNonresidentSize))
  else
    let m := m.writeLE (attr + 8) 1 0 -- non_resident
    let m := m.writeLE (attr + 4) 4 attrHeaderSize
    (attr, setEnd m entry (attr + attrHeaderSize))

/-- The loops that allocate clusters, each for a run of its own from run `n` on, until
    there is no free cluster. The result is the number of runs. -/
def allocRuns (runs : Nat) : (rounds : Nat) → Fs → Nat → Nat × Fs
  | 0, s, n => (n, s)
  | rounds + 1, s, n =>
    match allocCluster s with
    | (none, s) => (n, s)
    | (some cluster, s) =>
      let m := (s.mem.writeLE (runs + n * 16) 8 cluster).writeLE (runs + n * 16 + 8) 8 1
      allocRuns runs rounds { s with mem := m } (n + 1)

/-- Bytes put into a cluster at an offset, which reads it first. -/
def patchCluster (s : Fs) (cluster offset : Nat) (bytes : List UInt8) (buf : Mem) : Fs :=
  (writeCluster s cluster (buf.writeBytes offset bytes)).2

/-- The loop of `fs_write` over the clusters of a non-resident file. Every round begins
    at the start of its cluster, but for the one the position lies in. The result is the
    number of bytes written. -/
def writeRuns (runs position : Nat) (data : List UInt8) :
    (rounds : Nat) → Fs → (i written : Nat) → Nat × Fs
  | 0, s, _, written => (written, s)
  | rounds + 1, s, i, written =>
    if data.length ≤ written then (written, s)
    else
      let cluster := runStart s.mem runs i
      let offset := if i = position / fsClusterSize then position % fsClusterSize else 0
      let toWrite := min (fsClusterSize - offset) (data.length - written)
      let bytes := (data.drop written).take toWrite
      let s :=
        if 0 < offset ∨ toWrite < fsClusterSize then
          match readCluster s cluster s.uninit with
          | (_, buf, s) => patchCluster s cluster offset bytes buf
        else patchCluster s cluster offset bytes s.uninit
      writeRuns runs position data rounds s (i + 1) (written + toWrite)

/-- The recorded size of a file, with the time of the change. -/
def setRealSize (s : Fs) (i size : Nat) : Fs :=
  match s.filename i with
  | none => s
  | some fn => { s.tick with mem := (s.mem.writeLE (fn + 40) 8 size).writeLE (fn + 16) 8 s.now }

/-- `fs_write` on a non-resident attribute: the bytes written, the handle and the state. -/
def writeNonResident (s : Fs) (file : FsFile) (attr : Nat) (data : List UInt8) :
    Nat × FsFile × Fs :=
  let entry := s.slot file.mftNumber
  let nr := attr + attrHeaderSize
  let needed := u64 (file.position + data.length + fsClusterSize - 1) / fsClusterSize
  let runs := attr + nrRunOffset s.mem nr
  let maxRuns := nonresidentRunCount s.mem attr nr
  -- An allocated size beyond the runs is cut down to them.
  let allocated := min (nrAllocatedSize s.mem nr / fsClusterSize) maxRuns
  let (allocated, s) := allocRuns runs (min needed maxRuns - allocated) s allocated
  let (written, s) := writeRuns runs file.position data needed s 0 0
  let length := nrRunOffset s.mem nr + u32 (allocated * dataRunSize)
  let m := s.mem.writeLE (attr + 4) 4 length
  let m := setEnd m entry (attr + u32 length)
  let m := m.writeLE (nr + 24) 8 (allocated * fsClusterSize)
  let m := m.writeLE (nr + 32) 8 (file.position + written)
  let m := m.writeLE (nr + 40) 8 (file.position + written)
  let m := m.writeLE (nr + 8) 8 (dec64 allocated)
  let position := u64 (file.position + written)
  let s := setRealSize { s with mem := m } file.mftNumber position
  (written, { file with position := position, size := position }, (writeMftEntry s file.mftNumber).2)

/-- The bytes of cluster `i` of a file with the resident data `existing`. -/
def residentCluster (existing : List UInt8) (i : Nat) : Mem :=
  Mem.writeBytes (fun _ => 0) 0 ((existing.drop (i * fsClusterSize)).take fsClusterSize)

/-- The loop that moves resident data into its clusters. -/
def moveResident (runs : Nat) (existing : List UInt8) : (rounds : Nat) → Fs → Nat → Fs
  | 0, s, _ => s
  | rounds + 1, s, i =>
    moveResident runs existing rounds
      (writeCluster s (runStart s.mem runs i) (residentCluster existing i)).2 (i + 1)

/-- The loop that puts new data over the clusters. -/
def overlayRuns (runs position allocated : Nat) (data : List UInt8) :
    (rounds : Nat) → Fs → (written : Nat) → Nat × Fs
  | 0, s, written => (written, s)
  | rounds + 1, s, written =>
    if data.length ≤ written then (written, s)
    else
      let i := (position + written) / fsClusterSize
      if allocated ≤ i then (written, s)
      else
        let cluster := runStart s.mem runs i
        let offset := (position + written) % fsClusterSize
        let toWrite := min (fsClusterSize - offset) (data.length - written)
        match readCluster s cluster s.uninit with
        | (_, buf, s) =>
          overlayRuns runs position allocated data rounds
            (patchCluster s cluster offset ((data.drop written).take toWrite) buf) (written + toWrite)

/-- The resident data that the conversion saves. -/
def residentSize (m : Mem) (entry attr : Nat) : Nat :=
  let size := attrLength m attr - attrHeaderSize
  if mftEntrySize < attr - entry + attrHeaderSize + size then
    mftEntrySize - (attr - entry) - attrHeaderSize
  else size

/-- The non-resident header of a converted attribute. -/
def convertAttr (m : Mem) (attr needed : Nat) : Mem :=
  let m := m.writeLE (attr + 8) 1 1 -- non_resident
  let m := m.writeLE (attr + 4) 4 (attrHeaderSize + attrNonresidentSize + u32 (needed * dataRunSize))
  let nr := attr + attrHeaderSize
  let m := m.writeLE nr 8 0 -- start_vcn
  let m := m.writeLE (nr + 8) 8 (needed - 1) -- last_vcn
  let m := m.writeLE (nr + 16) 2 (attrHeaderSize + attrNonresidentSize) -- run_offset
  let m := m.writeLE (nr + 18) 2 0 -- comp_unit_size
  let m := m.writeLE (nr + 20) 4 0 -- reserved
  let m := m.writeLE (nr + 24) 8 0 -- allocated_size
  let m := m.writeLE (nr + 32) 8 0 -- real_size
  m.writeLE (nr + 40) 8 0 -- initialized_size

/-- The clusters that a file of `size` bytes needs, at least one. -/
def clustersFor (size : Nat) : Nat :=
  let n := u64 (size + fsClusterSize - 1) / fsClusterSize
  if n = 0 then 1 else n

/-- `fs_write` when the data does not fit into the entry any more. -/
def convertResident (s : Fs) (file : FsFile) (attr : Nat) (data : List UInt8) :
    Nat × FsFile × Fs :=
  let entry := s.slot file.mftNumber
  let existingSize := residentSize s.mem entry attr
  let existing := s.mem.readBytes (attr + attrHeaderSize) existingSize
  let needed := clustersFor (max (u64 (file.position + data.length)) existingSize)
  let s := { s with mem := convertAttr s.mem attr needed }
  let nr := attr + attrHeaderSize
  let runs := attr + attrHeaderSize + attrNonresidentSize
  let (allocated, s) := allocRuns runs needed s 0
  if allocated = 0 then (0, file, s)
  else
    let s := moveResident runs existing allocated s 0
    let (written, s) := overlayRuns runs file.position allocated data data.length s 0
    let position := u64 (file.position + written)
    let realSize := max position existingSize
    let m := s.mem.writeLE (nr + 24) 8 (allocated * fsClusterSize)
    let m := m.writeLE (nr + 32) 8 realSize
    let m := m.writeLE (nr + 40) 8 realSize
    let s := setRealSize { s with mem := m } file.mftNumber position
    let length := u32 (attrHeaderSize + attrNonresidentSize + u32 (needed * dataRunSize))
    let s := { s with mem := setEnd s.mem entry (attr + length) }
    (written, { file with position := position, size := position }, (writeMftEntry s file.mftNumber).2)

/-- `fs_write` on a resident attribute. -/
def writeResident (s : Fs) (file : FsFile) (attr : Nat) (data : List UInt8) : Nat × FsFile × Fs :=
  let entry := s.slot file.mftNumber
  if u32 (mftEntrySize + (2 ^ 32 - mftUsedSize s.mem entry)) < u64 (file.position + data.length) then
    convertResident s file attr data
  else
    let position := u64 (file.position + data.length)
    let m := s.mem.writeBytes (attr + attrHeaderSize + file.position) data
    let m := m.writeLE (attr + 4) 4 (attrHeaderSize + position)
    let s := setRealSize { s with mem := m } file.mftNumber position
    (data.length, { file with position := position, size := position },
      (writeMftEntry s file.mftNumber).2)

/-- `fs_write`: the result, the handle and the state behind it. -/
def fsWrite (s : Fs) (file : FsFile) (data : List UInt8) : Nat × FsFile × Fs :=
  if data = [] then (0, file, s)
  else
    let file := if file.mode = 2 then { file with position := file.size } else file
    let entry := s.slot file.mftNumber
    let (attr, s) :=
      match findAttr s.mem entry attrData with
      | some attr => (attr, s)
      | none =>
        match createDataAttr s.mem entry data.length with
        | (attr, m) => (attr, { s with mem := m })
    if attrNonResident s.mem attr ≠ 0 then writeNonResident s file attr data
    else writeResident s file attr data

/-! ## Truncating and seeking -/

/-- The loop of `fs_truncate` over the runs, from run `i` on, with `seen` clusters before
    it. The first `keep` clusters stay allocated. -/
def truncateRuns (s : Fs) (runs keep : Nat) : (i seen rounds : Nat) → Fs
  | _, _, 0 => s
  | i, seen, rounds + 1 =>
    if s.boot.totalClusters < runLength s.mem runs i then s
    else
      let length := runLength s.mem runs i
      let s := (List.range length).foldl
        (fun s j => if keep ≤ seen + j then freeCluster s (u64 (runStart s.mem runs i + j)) else s) s
      truncateRuns s runs keep (i + 1) (seen + length) rounds

/-- What `fs_truncate` does with the data attribute. -/
def truncateData (s : Fs) (attr size : Nat) : Fs :=
  if attrNonResident s.mem attr ≠ 0 then
    let nr := attr + attrHeaderSize
    let keep := u64 (size + fsClusterSize - 1) / fsClusterSize
    let s := truncateRuns s (attr + nrRunOffset s.mem nr) keep 0 0 (unlinkRunCount s.mem attr nr)
    { s with mem := (s.mem.writeLE (nr + 32) 8 size).writeLE (nr + 40) 8 size }
  else { s with mem := s.mem.writeLE (attr + 4) 4 (attrHeaderSize + u32 size) }

/-- `fs_truncate`, which only shrinks. -/
def fsTruncate (s : Fs) (file : FsFile) (size : Nat) : Int × FsFile × Fs :=
  if file.size ≤ size then (0, file, s)
  else
    let s :=
      match findAttr s.mem (s.slot file.mftNumber) attrData with
      | none => s
      | some attr => truncateData s attr size
    let s := setRealSize s file.mftNumber size
    (0, { file with size := size, position := min file.position size },
      (writeMftEntry s file.mftNumber).2)

/-- The value of a `uint64_t` or `size_t` converted to `int64_t`. -/
def toI64 (n : Nat) : Int := if n < 2 ^ 63 then n else (n : Int) - 2 ^ 64

/-- `fs_seek`: the position is kept between 0 and the size. -/
def fsSeek (file : FsFile) (offset whence : Int) : Int × FsFile :=
  let place (base : Int) : Int × FsFile :=
    (0, { file with position := min (base + offset).toNat file.size })
  if whence = 0 then place 0
  else if whence = 1 then place (toI64 file.position)
  else if whence = 2 then place (toI64 file.size)
  else (-1, file)

end OpenSys
