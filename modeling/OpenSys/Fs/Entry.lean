-- SUMMARY: MFT entries of fs.c as bytes, and the functions that edit them.
import OpenSys.Lib.Memory
import OpenSys.Lib.Word

/-!
# MFT entries

The entry functions of `src/fs/fs.c`. An entry is a slot of 4096 bytes that starts
with a `mft_header_t`; attributes follow, each behind an `attr_header_t`. All structs
are packed, and an `entry` is the address of a slot. Times come from the caller.
-/

namespace OpenSys

def mftEntrySize : Nat := 4096

def fsClusterSize : Nat := 4096

def maxFilenameLen : Nat := 255

/-! ## Constants of the format -/

def attrFilename : Nat := 0x30

def attrData : Nat := 0x80

def attrIndexRoot : Nat := 0x90

def attrEnd : Nat := 0xFFFFFFFF

def mftFlagInUse : Nat := 1

def mftFlagDirectory : Nat := 2

def mftFlagReadonly : Nat := 4

/-- `sizeof(mft_header_t)`. -/
def mftHeaderSize : Nat := 32

/-- `sizeof(attr_header_t)`. -/
def attrHeaderSize : Nat := 16

/-- `sizeof(attr_filename_t)`. -/
def attrFilenameSize : Nat := 313

/-- `sizeof(attr_nonresident_t)`. -/
def attrNonresidentSize : Nat := 48

/-- `sizeof(data_run_t)`. -/
def dataRunSize : Nat := 16

/-- `sizeof(index_root_t)`. -/
def indexRootSize : Nat := 16

/-- `sizeof(index_entry_t)`. -/
def indexEntrySize : Nat := 329

/-! ## Fields -/

variable (m : Mem)

def mftSeqAttrOffset (entry : Nat) : Nat := m.readLE (entry + 4) 2

def mftFlags (entry : Nat) : Nat := m.readLE (entry + 6) 2

def mftUsedSize (entry : Nat) : Nat := m.readLE (entry + 8) 4

def mftNextAttrId (entry : Nat) : Nat := m.readLE (entry + 24) 2

def mftNumber (entry : Nat) : Nat := m.readLE (entry + 28) 4

def attrType (attr : Nat) : Nat := m.readLE attr 4

def attrLength (attr : Nat) : Nat := m.readLE (attr + 4) 4

def attrNonResident (attr : Nat) : Nat := m.readLE (attr + 8) 1

def fnParentMft (fn : Nat) : Nat := m.readLE fn 8

def fnRealSize (fn : Nat) : Nat := m.readLE (fn + 40) 8

def fnFilenameLength (fn : Nat) : Nat := m.readLE (fn + 56) 1

/-- The name in a filename attribute. -/
def fnFilename (fn : Nat) : List UInt8 := m.readBytes (fn + 58) (fnFilenameLength m fn)

def nrStartVcn (nr : Nat) : Nat := m.readLE nr 8

def nrLastVcn (nr : Nat) : Nat := m.readLE (nr + 8) 8

def nrRunOffset (nr : Nat) : Nat := m.readLE (nr + 16) 2

def nrAllocatedSize (nr : Nat) : Nat := m.readLE (nr + 24) 8

def nrRealSize (nr : Nat) : Nat := m.readLE (nr + 32) 8

/-- `runs[i].start_cluster`. -/
def runStart (runs i : Nat) : Nat := m.readLE (runs + i * 16) 8

/-- `runs[i].length`. -/
def runLength (runs i : Nat) : Nat := m.readLE (runs + i * 16 + 8) 8

def ieMftRef (e : Nat) : Nat := m.readLE e 8

def ieLength (e : Nat) : Nat := m.readLE (e + 8) 2

def ieFlags (e : Nat) : Nat := m.readLE (e + 12) 2

/-- `entry->flags & MFT_FLAG_IN_USE`. -/
def mftInUse (entry : Nat) : Bool := mftFlags m entry &&& mftFlagInUse != 0

def mftIsDirectory (entry : Nat) : Bool := mftFlags m entry &&& mftFlagDirectory != 0

def mftIsReadonly (entry : Nat) : Bool := mftFlags m entry &&& mftFlagReadonly != 0

/-! ## Searching -/

/-- More rounds than attributes fit into a slot. -/
def attrFuel : Nat := 256

/-- The loop of `find_attr` from `ptr` on. -/
def findAttrLoop (type stop : Nat) : Nat → Nat → Option Nat
  | 0, _ => none
  | fuel + 1, ptr =>
    if stop < ptr + attrHeaderSize then none
    else if attrType m ptr = attrEnd ∨ attrType m ptr = type then
      if attrType m ptr = type then some ptr else none
    else if attrLength m ptr < attrHeaderSize then none
    else if stop < ptr + attrLength m ptr then none
    else findAttrLoop type stop fuel (ptr + attrLength m ptr)

/-- `find_attr`: the address of the first attribute of a type. -/
def findAttr (entry type : Nat) : Option Nat :=
  let off := mftSeqAttrOffset m entry
  let used := mftUsedSize m entry
  if off < mftHeaderSize ∨ mftEntrySize ≤ off then none
  else if used < mftHeaderSize ∨ mftEntrySize < used then none
  else findAttrLoop m type (entry + used) attrFuel (entry + off)

def findAttrPayload (entry type : Nat) : Option Nat :=
  (findAttr m entry type).map (· + attrHeaderSize)

def nonresidentRunCount (attr nr : Nat) : Nat :=
  if nrRunOffset m nr < attrHeaderSize + attrNonresidentSize then 0
  else if attrLength m attr ≤ nrRunOffset m nr then 0
  else (attrLength m attr - nrRunOffset m nr) / dataRunSize

variable {m}

/-! ## Creating attributes -/

/-- `end->type = ATTR_END; end->length = 8`, and the size of the entry that ends
    behind the marker. -/
def setEnd (m : Mem) (entry stop : Nat) : Mem :=
  ((m.writeLE stop 4 attrEnd).writeLE (stop + 4) 4 8).writeLE (entry + 8) 4 (stop + 8 - entry)

def initMftEntry (m : Mem) (entry mftNum flags : Nat) : Mem :=
  let m := m.writeLE entry 4 0x454C4946 -- magic
  let m := m.writeLE (entry + 4) 2 mftHeaderSize
  let m := m.writeLE (entry + 6) 2 (flags ||| mftFlagInUse)
  let m := m.writeLE (entry + 12) 4 mftEntrySize -- alloc_size
  let m := m.writeLE (entry + 16) 8 0 -- base_record
  let m := m.writeLE (entry + 24) 2 0 -- next_attr_id
  let m := m.writeLE (entry + 28) 4 mftNum
  setEnd m entry (entry + mftHeaderSize)

/-- A resident attribute header without a name; it takes the next attribute id. -/
def writeAttrHeader (m : Mem) (entry attr type length : Nat) : Mem :=
  let id := mftNextAttrId m entry
  let m := m.writeLE attr 4 type
  let m := m.writeLE (attr + 4) 4 length
  let m := m.writeLE (attr + 8) 1 0 -- non_resident
  let m := m.writeLE (attr + 9) 1 0 -- name_length
  let m := m.writeLE (attr + 10) 2 0 -- name_offset
  let m := m.writeLE (attr + 12) 2 0 -- flags
  let m := m.writeLE (attr + 14) 2 id
  m.writeLE (entry + 24) 2 (id + 1)

/-- A filename record for a file without data, but for its `reparse` field. -/
def writeFilename (m : Mem) (fn parent now : Nat) (name : List UInt8) : Mem :=
  let m := m.writeLE fn 8 parent
  let m := m.writeLE (fn + 8) 8 now -- create_time
  let m := m.writeLE (fn + 16) 8 now -- modify_time
  let m := m.writeLE (fn + 24) 8 now -- access_time
  let m := m.writeLE (fn + 32) 8 0 -- alloc_size
  let m := m.writeLE (fn + 40) 8 0 -- real_size
  let m := m.writeLE (fn + 48) 4 0 -- flags
  let m := m.writeLE (fn + 56) 1 name.length
  let m := m.writeLE (fn + 57) 1 0 -- filename_type
  m.writeBytes (fn + 58) name

/-- `add_filename_attr`. The marker at the end of the entry is overwritten. -/
def addFilenameAttr (m : Mem) (now entry : Nat) (name : List UInt8) (parent : Nat) : Mem :=
  let base := entry + mftUsedSize m entry - 8
  let m := writeFilename m (base + attrHeaderSize) parent now (name.take maxFilenameLen)
  let m := writeAttrHeader m entry base attrFilename (attrHeaderSize + attrFilenameSize)
  setEnd m entry (base + attrHeaderSize + attrFilenameSize)

def addIndexRootAttr (m : Mem) (entry : Nat) : Mem :=
  let base := entry + mftUsedSize m entry - 8
  let ir := base + attrHeaderSize
  let m := m.writeLE ir 4 attrFilename -- attr_type
  let m := m.writeLE (ir + 4) 4 0 -- collation_rule
  let m := m.writeLE (ir + 8) 4 fsClusterSize -- index_alloc_size
  let m := m.writeLE (ir + 12) 1 1 -- clusters_per_index
  let m := writeAttrHeader m entry base attrIndexRoot (attrHeaderSize + indexRootSize)
  setEnd m entry (base + attrHeaderSize + indexRootSize)

/-! ## Directory indexes -/

/-- More rounds than index entries fit into the addresses below `stop`. -/
def indexFuel (stop : Nat) : Nat := stop / indexEntrySize + 1

/-- The walk of `add_dir_entry` from `last` on, where a new entry would go at `insert`.
    Null when the child is in the index already. The last entry stops being the last. -/
def insertWalk (m : Mem) (child stop : Nat) : (fuel last insert : Nat) → Option (Nat × Mem)
  | 0, _, insert => some (insert, m)
  | fuel + 1, last, insert =>
    if last + indexEntrySize ≤ stop ∧ indexEntrySize ≤ ieLength m last then
      if ieFlags m last &&& 1 ≠ 0 then
        if ieMftRef m last = child then none
        else some (last + ieLength m last, m.writeLE (last + 12) 2 (ieFlags m last &&& 0xFFFE))
      else insertWalk m child stop fuel (last + ieLength m last) (last + ieLength m last)
    else some (insert, m)

/-- The new index entry, behind all others. -/
def writeIndexEntry (m : Mem) (e child parent now : Nat) (name : List UInt8) : Mem :=
  let m := m.writeLE e 8 child
  let m := m.writeLE (e + 8) 2 indexEntrySize
  let m := m.writeLE (e + 10) 2 attrFilename -- attr_type
  let m := m.writeLE (e + 12) 2 1 -- flags
  let m := m.writeLE (e + 14) 2 0 -- reserved
  let m := m.writeLE (e + 16 + 52) 4 0 -- reparse
  writeFilename m (e + 16) parent now name

/-- `add_dir_entry`; the flag says whether an entry was added. -/
def addDirEntry (m : Mem) (now parentDir child : Nat) (name : List UInt8) : Bool × Mem :=
  match findAttr m parentDir attrIndexRoot with
  | none => (false, m)
  | some indexAttr =>
    let first := indexAttr + attrHeaderSize + indexRootSize
    let slotEnd := parentDir + mftEntrySize
    let walkEnd := min (indexAttr + attrLength m indexAttr) slotEnd
    if walkEnd < first then (false, m)
    else
      match insertWalk m child walkEnd (indexFuel walkEnd) first first with
      | none => (false, m)
      | some (insert, m) =>
        if slotEnd < insert + indexEntrySize + attrHeaderSize then (false, m)
        else
          let m := writeIndexEntry m insert child (mftNumber m parentDir) now
            (name.take maxFilenameLen)
          let m := m.writeLE (indexAttr + 4) 4 (attrLength m indexAttr + indexEntrySize)
          (true, setEnd m parentDir (insert + indexEntrySize))

/-- The walk of `find_index_entry`. -/
def findIndexWalk (m : Mem) (child stop : Nat) : (fuel e : Nat) → Option Nat
  | 0, _ => none
  | fuel + 1, e =>
    if stop < e + indexEntrySize then none
    else if ieMftRef m e = child then some e
    else if ieFlags m e &&& 1 ≠ 0 then none
    else if ieLength m e < indexEntrySize then none
    else findIndexWalk m child stop fuel (e + ieLength m e)

def findIndexEntry (m : Mem) (dir child : Nat) : Option Nat :=
  (findAttr m dir attrIndexRoot).bind fun indexAttr =>
    let stop := indexAttr + attrLength m indexAttr
    findIndexWalk m child stop (indexFuel stop) (indexAttr + attrHeaderSize + indexRootSize)

/-- `if (prev) prev->flags |= 0x01`. -/
def markLast (m : Mem) : Option Nat → Mem
  | none => m
  | some prev => m.writeLE (prev + 12) 2 (ieFlags m prev ||| 1)

/-- What `remove_index_entry` does with the entry it has found. An entry whose length
    cannot be right truncates the index. -/
def dropIndexEntry (m : Mem) (indexAttr stop e : Nat) (prev : Option Nat) : Mem :=
  let len := ieLength m e
  if len < indexEntrySize ∨ stop < e + len then
    markLast (m.writeLE (indexAttr + 4) 4 (e - indexAttr)) prev
  else
    let m := m.moveBytes e (e + len) (stop - (e + len))
    markLast (m.writeLE (indexAttr + 4) 4 (attrLength m indexAttr + (2 ^ 32 - len))) prev

/-- The walk of `remove_index_entry`. -/
def removeWalk (m : Mem) (indexAttr child stop : Nat) : (fuel e : Nat) → Option Nat → Mem
  | 0, _, _ => m
  | fuel + 1, e, prev =>
    if stop < e + indexEntrySize then m
    else if ieMftRef m e = child then dropIndexEntry m indexAttr stop e prev
    else if ieFlags m e &&& 1 ≠ 0 then m
    else if ieLength m e < indexEntrySize then m
    else removeWalk m indexAttr child stop fuel (e + ieLength m e) (some e)

def removeIndexEntry (m : Mem) (dir child : Nat) : Mem :=
  match findAttr m dir attrIndexRoot with
  | none => m
  | some indexAttr =>
    let stop := min (indexAttr + attrLength m indexAttr) (dir + mftEntrySize)
    removeWalk m indexAttr child stop (indexFuel stop)
      (indexAttr + attrHeaderSize + indexRootSize) none

end OpenSys
