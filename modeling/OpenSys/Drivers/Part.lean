-- SUMMARY: Partitions over the disk driver: the sectors a request reaches, the table's buffer.
import OpenSys.Lib.Memory
import Mathlib.Data.List.Range
import Mathlib.Tactic.IntervalCases

/-!
# Partitions

`src/drivers/disk.c`, `src/drivers/partition_table.c` and `src/drivers/part.c`. The entries
come from the disk and are arbitrary. A request ends in at most one command to the drive;
the sectors it reaches are read off the registers of that command.
-/

namespace OpenSys

open Mem

/-! ## The disk driver -/

/-- What the drive does during a call: whether it gets ready for a command, whether it gets
    ready for each of the sectors, and what it holds. -/
structure Drive where
  ready : Bool
  transfer : Nat → Bool
  bytes : Mem

/-- The registers of a command. -/
structure AtaCommand where
  drive : BitVec 8
  count : BitVec 8
  lbaLow : BitVec 8
  lbaMid : BitVec 8
  lbaHigh : BitVec 8

/-- The 28 bits of the first sector. -/
def AtaCommand.lba (c : AtaCommand) : Nat :=
  c.drive.toNat % 16 * 2 ^ 24 + c.lbaHigh.toNat * 2 ^ 16 + c.lbaMid.toNat * 2 ^ 8 + c.lbaLow.toNat

/-- The sectors that a command reaches; a count of zero stands for 256. -/
def AtaCommand.sectors (c : AtaCommand) : List Nat :=
  List.range' c.lba (if c.count = 0 then 256 else c.count.toNat)

def ataCommand (lba count : BitVec 32) : AtaCommand where
  drive := (0xE0 ||| ((lba >>> 24) &&& 0x0F)).setWidth 8
  count := (if count = 256 then 0 else count).setWidth 8
  lbaLow := (lba &&& 0xFF).setWidth 8
  lbaMid := ((lba >>> 8) &&& 0xFF).setWidth 8
  lbaHigh := ((lba >>> 16) &&& 0xFF).setWidth 8

/-- The outcome of a call that may reach the disk. -/
structure DiskCall where
  status : Int
  command : Option AtaCommand
  buffer : Mem

/-- A call that does not get as far as the drive. -/
def DiskCall.refused (buffer : Mem) : DiskCall := ⟨-1, none, buffer⟩

/-- How many sectors are transferred before the drive stops answering. -/
def Drive.transferred (drive : Drive) (count : Nat) : Nat :=
  ((List.range count).takeWhile drive.transfer).length

/-- The checks and the command that `disk_read` and `disk_write` share; `transfer` is what
    the loop over the sectors does to the buffer. -/
def diskCall (drive : Drive) (lba count : BitVec 32) (buffer : Mem) (transfer : Nat → Mem) :
    DiskCall :=
  if count = 0 ∨ 256 < count then .refused buffer
  else if 0x0FFFFFFF < lba then .refused buffer
  else if drive.ready then
    let n := drive.transferred count.toNat
    ⟨if n = count.toNat then 0 else -1, some (ataCommand lba count), transfer n⟩
  else .refused buffer

namespace Part

def diskRead (drive : Drive) (lba count : BitVec 32) (buffer : Mem) : DiskCall :=
  diskCall drive lba count buffer fun n =>
    buffer.writeBytes 0 (drive.bytes.readBytes (lba.toNat * 512) (n * 512))

def diskWrite (drive : Drive) (lba count : BitVec 32) (buffer : Mem) : DiskCall :=
  diskCall drive lba count buffer fun _ => buffer

end Part

/-! ## The partition table -/

/-- The fields of `gpt_entry_t` that decide about an access. -/
structure GptEntry where
  typeGuid : List UInt8
  startLba : BitVec 64
  endLba : BitVec 64

/-- `gpt_entries` and the counters beside it. -/
structure Gpt where
  partitionCount : BitVec 32
  allocatedEntries : BitVec 32
  entries : Mem

def Gpt.entry (g : Gpt) (index : Nat) : GptEntry where
  typeGuid := g.entries.readBytes (index * 128) 16
  startLba := BitVec.ofNat 64 (g.entries.readLE (index * 128 + 32) 8)
  endLba := BitVec.ofNat 64 (g.entries.readLE (index * 128 + 40) 8)

def gptTypeUnused : List UInt8 := List.replicate 16 0

/-- `EFI PART`. -/
def gptSignature : List UInt8 := [0x45, 0x46, 0x49, 0x20, 0x50, 0x41, 0x52, 0x54]

/-- `gpt_read_header`. The drive answers once for the header and once for the entries;
    `newHeader` and `newEntries` are what `kmalloc` returns. -/
def gptReadHeader (g : Gpt) (first second : Drive) (newHeader newEntries : Option Mem) :
    Int × Gpt :=
  match newHeader with
  | none => (-1, g)
  | some header =>
    let read := Part.diskRead first 1 1 header
    let header := read.buffer
    let entryArrayLba := header.readLE 72 8
    let entryCount := header.readLE 80 4
    if read.status < 0 then (-1, g)
    else if header.readBytes 0 8 ≠ gptSignature then (-1, g)
    else if header.readLE 84 4 ≠ 128 then (-1, g)
    else if entryCount = 0 ∨ 128 < entryCount then (-1, g)
    else if entryArrayLba = 0 ∨ 0xFFFFFF < entryArrayLba then (-1, g)
    else
      let g := { g with partitionCount := BitVec.ofNat 32 entryCount }
      let entrySectors := BitVec.ofNat 32 ((entryCount * 128 + 512 - 1) / 512)
      let load (g : Gpt) : Int × Gpt :=
        let read := Part.diskRead second (BitVec.ofNat 32 entryArrayLba) entrySectors g.entries
        (if read.status < 0 then -1 else 0, { g with entries := read.buffer })
      if g.allocatedEntries < g.partitionCount then
        match newEntries with
        | none => (-1, { g with partitionCount := 0, allocatedEntries := 0 })
        | some entries => load { g with entries := entries, allocatedEntries := g.partitionCount }
      else load g

def gptGetPartition (g : Gpt) (index : BitVec 32) : Option GptEntry :=
  if g.partitionCount ≤ index then none
  else if (g.entry index.toNat).typeGuid = gptTypeUnused then none
  else some (g.entry index.toNat)

/-- `gpt_read_partition`; `temp` is what `kmalloc` returns. -/
def gptReadPartition (g : Gpt) (drive : Drive) (index : BitVec 32) (offset : BitVec 64)
    (size : BitVec 32) (temp : Option Mem) (buffer : Mem) : DiskCall :=
  match gptGetPartition g index with
  | none => .refused buffer
  | some entry =>
    let startLba := entry.startLba + offset / 512
    let offsetInSector := (offset % 512).setWidth 32
    let sectors := (size + offsetInSector + 512 - 1) / 512
    match temp with
    | none => .refused buffer
    | some temp =>
      let read := Part.diskRead drive (startLba.setWidth 32) sectors temp
      if read.status < 0 then ⟨-1, read.command, buffer⟩
      else ⟨0, read.command, fun i =>
        if i < size.toNat then read.buffer ((offsetInSector.toNat + i) % 2 ^ 32) else buffer i⟩

/-- `part_translate`. -/
def partTranslate (partReady : Bool) (g : Gpt) (partitionNum : BitVec 32)
    (startLba sectors : BitVec 64) : Option (BitVec 32) :=
  if partReady = false ∨ sectors = 0 ∨ 256 < sectors then none
  else match gptGetPartition g partitionNum with
  | none => none
  | some part =>
    if part.endLba < part.startLba then none
    else
      let partSectors := part.endLba - part.startLba + 1
      if partSectors ≤ startLba then none
      else if partSectors - startLba < sectors then none
      else
        let abs := part.startLba + startLba
        if 0x0FFFFFFF < abs then none else some (abs.setWidth 32)

/-- The body of `part_read_sectors` and `part_write_sectors`, which differ in the call at
    the end; a `buffer` that is `none` is a null pointer. -/
def partSectors (access : Drive → BitVec 32 → BitVec 32 → Mem → DiskCall) (partReady : Bool)
    (g : Gpt) (drive : Drive) (partitionNum : BitVec 32) (startLba : BitVec 64)
    (buffer : Option Mem) (sectors : BitVec 64) : DiskCall :=
  match buffer with
  | none => .refused fun _ => 0
  | some buffer =>
    match partTranslate partReady g partitionNum startLba sectors with
    | none => .refused buffer
    | some absLba => access drive absLba (sectors.setWidth 32) buffer

def partReadSectors := partSectors Part.diskRead

def partWriteSectors := partSectors Part.diskWrite

/-! ## The sectors of a command -/

variable {count num : BitVec 32} {e : GptEntry} {drive : Drive} {partReady : Bool} {g : Gpt}
  {startLba : BitVec 64}

/-- The registers carry the whole sector number and the whole count. -/
theorem ataCommand_sectors {lba : BitVec 32} (hlba : lba.toNat < 2 ^ 28) (hpos : 0 < count.toNat)
    (hcount : count.toNat ≤ 256) :
    (ataCommand lba count).sectors = List.range' lba.toNat count.toNat := by
  have hmask (x k : Nat) : x &&& (2 ^ k - 1) = x % 2 ^ k := Nat.and_two_pow_sub_one_eq_mod x k
  have hdrive : (ataCommand lba count).drive.toNat % 16 = lba.toNat / 2 ^ 24 := by
    have hnibble : lba.toNat / 2 ^ 24 % 2 ^ 4 = lba.toNat / 2 ^ 24 := Nat.mod_eq_of_lt (by omega)
    have hlt : lba.toNat / 2 ^ 24 < 16 := by omega
    have hreg : (ataCommand lba count).drive.toNat =
        (0xE0 ||| (lba.toNat / 2 ^ 24 &&& (2 ^ 4 - 1))) % 2 ^ 8 := by
      simp only [ataCommand, BitVec.toNat_setWidth, BitVec.toNat_or, BitVec.toNat_and,
        BitVec.toNat_ushiftRight, Nat.shiftRight_eq_div_pow]
      rfl
    rw [hreg, hmask, hnibble]
    generalize lba.toNat / 2 ^ 24 = x at hlt
    interval_cases x <;> rfl
  have hbyte (x : Nat) : x &&& 255 = x % 256 := hmask x 8
  have hhigh : (ataCommand lba count).lbaHigh.toNat = lba.toNat / 2 ^ 16 % 256 := by
    simp [ataCommand, Nat.shiftRight_eq_div_pow, hbyte]
  have hmid : (ataCommand lba count).lbaMid.toNat = lba.toNat / 2 ^ 8 % 256 := by
    simp [ataCommand, Nat.shiftRight_eq_div_pow, hbyte]
  have hlow : (ataCommand lba count).lbaLow.toNat = lba.toNat % 256 := by
    simp [ataCommand, hbyte]
  have hfirst : (ataCommand lba count).lba = lba.toNat := by
    rw [AtaCommand.lba, hdrive, hhigh, hmid, hlow]
    omega
  have hlength : (if (ataCommand lba count).count = 0 then 256
      else (ataCommand lba count).count.toNat) = count.toNat := by
    by_cases h : count = 256
    · subst h
      rfl
    have hlt : count.toNat < 256 := by bv_omega
    have hreg : (ataCommand lba count).count.toNat = count.toNat := by
      simp only [ataCommand, if_neg h, BitVec.toNat_setWidth]
      omega
    rw [if_neg (by intro h0; rw [h0] at hreg; simp at hreg; omega), hreg]
  rw [AtaCommand.sectors, hfirst, hlength]

/-- The sectors of a command lie in the partition, within reach of the driver. -/
def Confined (e : GptEntry) (c : AtaCommand) : Prop :=
  ∀ sector ∈ c.sectors, e.startLba.toNat ≤ sector ∧ sector ≤ e.endLba.toNat ∧ sector ≤ 0x0FFFFFFF

/-- `n` sectors from `first` on lie in the partition, within reach of the driver. -/
def GptEntry.Covers (e : GptEntry) (first n : Nat) : Prop :=
  e.startLba.toNat ≤ first ∧ first + n ≤ e.endLba.toNat + 1 ∧ first + n ≤ 2 ^ 28

theorem confined_ataCommand {lba : BitVec 32} (hlba : lba.toNat < 2 ^ 28) (hpos : 0 < count.toNat)
    (hcount : count.toNat ≤ 256) :
    Confined e (ataCommand lba count) ↔ e.Covers lba.toNat count.toNat := by
  simp only [Confined, ataCommand_sectors hlba hpos hcount, List.mem_range'_1, GptEntry.Covers]
  constructor
  · intro h
    have hfirst := h lba.toNat (by omega)
    have hlast := h (lba.toNat + count.toNat - 1) (by omega)
    omega
  · intro h sector hsector
    omega

/-- The request passes the checks of the driver, and the drive takes it. -/
def Drive.Takes (drive : Drive) (first n : Nat) : Prop :=
  drive.ready = true ∧ 0 < n ∧ n ≤ 256 ∧ first ≤ 0x0FFFFFFF

theorem diskCall_confined {lba : BitVec 32} {buffer : Mem} {transfer : Nat → Mem} :
    (∀ c ∈ (diskCall drive lba count buffer transfer).command, Confined e c) ↔
      (drive.Takes lba.toNat count.toNat → e.Covers lba.toNat count.toNat) := by
  by_cases htakes : drive.Takes lba.toNat count.toNat
  · obtain ⟨hready, hpos, hcount, hlba⟩ := htakes
    have hc : ¬ (count = 0 ∨ 256 < count) := by bv_omega
    have hl : ¬ 0x0FFFFFFF < lba := by bv_omega
    have hcommand : (diskCall drive lba count buffer transfer).command =
        some (ataCommand lba count) := by
      rw [diskCall, if_neg hc, if_neg hl, if_pos hready]
    rw [hcommand, ← confined_ataCommand (by omega) hpos hcount]
    simp only [Option.mem_some_iff, forall_eq']
    exact ⟨fun h _ => h, fun h => h ⟨hready, hpos, hcount, hlba⟩⟩
  · have hcommand : (diskCall drive lba count buffer transfer).command = none := by
      rw [diskCall]
      split_ifs with hc hl hready
      · rfl
      · rfl
      · exact absurd ⟨hready, by bv_omega, by bv_omega, by bv_omega⟩ htakes
      · rfl
    simp [hcommand, htakes]

/-! ## Requests -/

/-- A request on a partition, with what the caller and `kmalloc` supply for it. -/
inductive PartRequest where
  | read (partitionNum : BitVec 32) (startLba : BitVec 64) (buffer : Option Mem)
      (sectors : BitVec 64)
  | write (partitionNum : BitVec 32) (startLba : BitVec 64) (buffer : Option Mem)
      (sectors : BitVec 64)
  | gptRead (index : BitVec 32) (offset : BitVec 64) (size : BitVec 32) (temp : Option Mem)
      (buffer : Mem)

def PartRequest.run (partReady : Bool) (g : Gpt) (drive : Drive) : PartRequest → DiskCall
  | .read num startLba buffer sectors =>
    partReadSectors partReady g drive num startLba buffer sectors
  | .write num startLba buffer sectors =>
    partWriteSectors partReady g drive num startLba buffer sectors
  | .gptRead index offset size temp buffer =>
    gptReadPartition g drive index offset size temp buffer

def PartRequest.partition : PartRequest → BitVec 32
  | .read num _ _ _ | .write num _ _ _ | .gptRead num _ _ _ _ => num

/-- What `part_translate` accepts: a range inside the partition, with the first sector
    within reach of the driver. The size of the partition has to be a 64-bit number. -/
structure PartAccepts (partReady : Bool) (e : GptEntry) (startLba sectors : Nat) : Prop where
  ready : partReady = true
  pos : 0 < sectors
  count : sectors ≤ 256
  size : e.endLba.toNat + 1 < e.startLba.toNat + 2 ^ 64
  range : e.startLba.toNat + startLba + sectors ≤ e.endLba.toNat + 1
  reach : e.startLba.toNat + startLba ≤ 0x0FFFFFFF

/-- The last sector is within reach too. -/
def PartFits (partReady : Bool) (drive : Drive) (e : GptEntry) (startLba : BitVec 64)
    (buffer : Option Mem) (sectors : BitVec 64) : Prop :=
  PartAccepts partReady e startLba.toNat sectors.toNat → drive.ready = true → buffer.isSome →
    e.startLba.toNat + startLba.toNat + sectors.toNat ≤ 2 ^ 28

/-- Nothing is checked against the entry: the sectors, after the truncations, have to lie
    in it whenever the driver takes them. -/
def GptFits (drive : Drive) (e : GptEntry) (offset : BitVec 64) (size : BitVec 32)
    (temp : Option Mem) : Prop :=
  let first := (e.startLba.toNat + offset.toNat / 512) % 2 ^ 32
  let n := (size.toNat + offset.toNat % 512 + 511) % 2 ^ 32 / 512
  temp.isSome → drive.Takes first n → e.Covers first n

def PartRequest.Fits (partReady : Bool) (drive : Drive) (e : GptEntry) : PartRequest → Prop
  | .read _ startLba buffer sectors | .write _ startLba buffer sectors =>
    PartFits partReady drive e startLba buffer sectors
  | .gptRead _ offset size temp _ => GptFits drive e offset size temp

theorem PartAccepts.translate {sectors : BitVec 64} (he : gptGetPartition g num = some e)
    (h : PartAccepts partReady e startLba.toNat sectors.toNat) :
    partTranslate partReady g num startLba sectors =
      some (BitVec.ofNat 32 (e.startLba.toNat + startLba.toNat)) := by
  obtain ⟨hready, hpos, hcount, hsize, hrange, hreach⟩ := h
  have hcounted : ¬ (partReady = false ∨ sectors = 0 ∨ 256 < sectors) := by
    rintro (h | h | h)
    · simp [hready] at h
    · bv_omega
    · bv_omega
  have hordered : ¬ e.endLba < e.startLba := by bv_omega
  have hinside : ¬ e.endLba - e.startLba + 1 ≤ startLba := by bv_omega
  have hroom : ¬ e.endLba - e.startLba + 1 - startLba < sectors := by bv_omega
  have hlow : ¬ 0x0FFFFFFF < e.startLba + startLba := by bv_omega
  rw [partTranslate, if_neg hcounted, he]
  dsimp only
  rw [if_neg hordered, if_neg hinside, if_neg hroom, if_neg hlow]
  congr 1
  bv_omega

theorem partTranslate_refuses {sectors : BitVec 64} (he : gptGetPartition g num = some e)
    (h : ¬ PartAccepts partReady e startLba.toNat sectors.toNat) :
    partTranslate partReady g num startLba sectors = none := by
  rw [partTranslate, he]
  dsimp only
  split_ifs with hcount hordered hinside hroom hlow
  · rfl
  · rfl
  · rfl
  · rfl
  · rfl
  · simp only [not_or, Bool.not_eq_false] at hcount
    exact absurd ⟨hcount.1, by bv_omega, by bv_omega, by bv_omega, by bv_omega, by bv_omega⟩ h

theorem partSectors_confined {access : Drive → BitVec 32 → BitVec 32 → Mem → DiskCall}
    {sectors : BitVec 64} {buffer : Option Mem} (he : gptGetPartition g num = some e)
    (haccess : ∀ lba count b, (∀ c ∈ (access drive lba count b).command, Confined e c) ↔
      (drive.Takes lba.toNat count.toNat → e.Covers lba.toNat count.toNat)) :
    (∀ c ∈ (partSectors access partReady g drive num startLba buffer sectors).command,
      Confined e c) ↔ PartFits partReady drive e startLba buffer sectors := by
  cases buffer with
  | none => simp [partSectors, DiskCall.refused, PartFits]
  | some buffer =>
    by_cases h : PartAccepts partReady e startLba.toNat sectors.toNat
    · have hlba : (BitVec.ofNat 32 (e.startLba.toNat + startLba.toNat)).toNat =
          e.startLba.toNat + startLba.toNat := by
        have := h.reach
        rw [BitVec.toNat_ofNat, Nat.mod_eq_of_lt (by omega)]
      have hcount : (sectors.setWidth 32).toNat = sectors.toNat := by
        have := h.count
        rw [BitVec.toNat_setWidth, Nat.mod_eq_of_lt (by omega)]
      simp only [partSectors, h.translate he, haccess, hlba, hcount, PartFits, Drive.Takes,
        GptEntry.Covers]
      constructor
      · intro hcover _ hready _
        exact (hcover ⟨hready, h.pos, h.count, h.reach⟩).2.2
      · rintro hfits ⟨hready, -⟩
        exact ⟨by omega, h.range, hfits h hready rfl⟩
    · simp [partSectors, partTranslate_refuses he h, DiskCall.refused, PartFits, h]

theorem gptReadPartition_confined {index : BitVec 32} {offset : BitVec 64} {size : BitVec 32}
    {temp : Option Mem} {buffer : Mem} (he : gptGetPartition g index = some e) :
    (∀ c ∈ (gptReadPartition g drive index offset size temp buffer).command, Confined e c) ↔
      GptFits drive e offset size temp := by
  cases temp with
  | none => simp [gptReadPartition, he, DiskCall.refused, GptFits]
  | some temp =>
    have hcommand : (gptReadPartition g drive index offset size (some temp) buffer).command =
        (Part.diskRead drive ((e.startLba + offset / 512).setWidth 32)
          ((size + (offset % 512).setWidth 32 + 512 - 1) / 512) temp).command := by
      simp only [gptReadPartition, he]
      split_ifs <;> rfl
    have hfirst : ((e.startLba + offset / 512).setWidth 32).toNat =
        (e.startLba.toNat + offset.toNat / 512) % 2 ^ 32 := by
      have h512 : (512 : BitVec 64).toNat = 512 := rfl
      simp only [BitVec.toNat_setWidth, BitVec.toNat_add, BitVec.toNat_udiv, h512]
      omega
    have hcount : ((size + (offset % 512).setWidth 32 + 512 - 1) / 512).toNat =
        (size.toNat + offset.toNat % 512 + 511) % 2 ^ 32 / 512 := by
      have h512 : (512 : BitVec 64).toNat = 512 := rfl
      have h512' : (512 : BitVec 32).toNat = 512 := rfl
      have h1 : (1 : BitVec 32).toNat = 1 := rfl
      simp only [BitVec.toNat_udiv, BitVec.toNat_sub, BitVec.toNat_add, BitVec.toNat_setWidth,
        BitVec.toNat_umod, h512, h512', h1]
      omega
    rw [hcommand, Part.diskRead, diskCall_confined, hfirst, hcount]
    simp [GptFits]

theorem PartRequest.run_confined {req : PartRequest}
    (he : gptGetPartition g req.partition = some e) :
    (∀ c ∈ (req.run partReady g drive).command, Confined e c) ↔ req.Fits partReady drive e := by
  cases req with
  | read num startLba buffer sectors =>
    exact partSectors_confined he fun _ _ _ => diskCall_confined
  | write num startLba buffer sectors =>
    exact partSectors_confined he fun _ _ _ => diskCall_confined
  | gptRead index offset size temp buffer => exact gptReadPartition_confined he

theorem partSectors_no_entry {access : Drive → BitVec 32 → BitVec 32 → Mem → DiskCall}
    {sectors : BitVec 64} {buffer : Option Mem} (he : gptGetPartition g num = none) :
    (partSectors access partReady g drive num startLba buffer sectors).command = none := by
  have htranslate : partTranslate partReady g num startLba sectors = none := by
    rw [partTranslate, he]
    exact ite_self none
  cases buffer with
  | none => rfl
  | some buffer => rw [partSectors, htranslate]; rfl

/-- A request on an entry that does not exist reaches no sector. -/
theorem PartRequest.run_no_entry {req : PartRequest} (he : gptGetPartition g req.partition = none) :
    (req.run partReady g drive).command = none := by
  cases req with
  | read num startLba buffer sectors => exact partSectors_no_entry he
  | write num startLba buffer sectors => exact partSectors_no_entry he
  | gptRead index offset size temp buffer =>
    change gptGetPartition g index = none at he
    rw [PartRequest.run, gptReadPartition, he]
    rfl

/-- The sectors of a request lie in its partition, within reach of the driver, exactly if
    the request fits its entry. -/
theorem access_confined_iff (partReady : Bool) (g : Gpt) (drive : Drive) (req : PartRequest) :
    (∀ c ∈ (req.run partReady g drive).command,
      ∃ e, gptGetPartition g req.partition = some e ∧ Confined e c) ↔
    ∀ e, gptGetPartition g req.partition = some e → req.Fits partReady drive e := by
  cases he : gptGetPartition g req.partition with
  | none => simp [PartRequest.run_no_entry he]
  | some e =>
    simp only [Option.some.injEq, forall_eq', exists_eq_left']
    exact PartRequest.run_confined he

/-- A disk with one partition of two sectors, the second of which the driver cannot reach. -/
def straddlingDisk : Mem :=
  let m : Mem := writeBytes (fun _ => 0) 512 gptSignature
  let m : Mem := ((m.writeLE (512 + 72) 8 2).writeLE (512 + 80) 4 1).writeLE (512 + 84) 4 128
  ((m.writeLE 1024 1 1).writeLE (1024 + 32) 8 0x0FFFFFFF).writeLE (1024 + 40) 8 0x10000000

set_option maxRecDepth 20000 in
/-- Two sectors of that partition, after its table has been read. -/
theorem straddling_read_leaves : ∃ g,
    let drive : Drive := ⟨true, fun _ => true, straddlingDisk⟩
    let zero : Mem := fun _ => 0
    gptReadHeader ⟨0, 0, zero⟩ drive drive (some zero) (some zero) = (0, g) ∧
    ∃ e, gptGetPartition g 0 = some e ∧
      ∃ c ∈ (partReadSectors true g drive 0 0 (some zero) 2).command, ¬ Confined e c := by
  refine ⟨_, rfl, _, rfl, _, rfl, ?_⟩
  intro h
  have hlast := h 0x10000000 (by decide)
  omega

/-! ## The buffer of the entries -/

theorem Drive.transferred_le (drive : Drive) (n : Nat) : drive.transferred n ≤ n := by
  simpa [Drive.transferred] using
    (List.takeWhile_sublist (l := List.range n) drive.transfer).length_le

theorem diskRead_outside {drive : Drive} {lba count : BitVec 32} {buffer : Mem} {x : Nat}
    (hx : count.toNat * 512 ≤ x) : (Part.diskRead drive lba count buffer).buffer x = buffer x := by
  have hle := drive.transferred_le count.toNat
  rw [Part.diskRead, diskCall]
  split_ifs
  · rfl
  · rfl
  · exact writeBytes_outside (by rw [length_readBytes]; omega)
  · rfl

/-- A call of `gpt_read_header`, with what the drive and `kmalloc` answer. -/
structure GptRead where
  first : Drive
  second : Drive
  newHeader : Option Mem
  newEntries : Option Mem

def GptRead.run (g : Gpt) (r : GptRead) : Gpt :=
  (gptReadHeader g r.first r.second r.newHeader r.newEntries).2

/-- The memory the entries are read into, as it was before: the buffer is a new one when its
    size has changed. -/
def GptRead.target (g : Gpt) (r : GptRead) : Mem :=
  if (r.run g).allocatedEntries = g.allocatedEntries then g.entries
  else r.newEntries.getD g.entries

/-- The entries of the header fill whole sectors, or the buffer kept has room for the
    sectors. -/
def GptRead.WholeSectors (g : Gpt) (r : GptRead) : Prop :=
  ∀ header ∈ r.newHeader,
    let count := (Part.diskRead r.first 1 1 header).buffer.readLE 80 4
    count % 4 = 0 ∨ (count + 3) / 4 * 4 ≤ g.allocatedEntries.toNat

/-- Nothing behind the buffer is written. -/
def GptRead.Inside (g : Gpt) (r : GptRead) : Prop :=
  ∀ x, (r.run g).allocatedEntries.toNat * 128 ≤ x → (r.run g).entries x = r.target g x

/-- The state stays, or the buffer is lost, or the entries are read: into a new buffer if the
    old one is too small for them. -/
theorem GptRead.run_cases (g : Gpt) (r : GptRead) :
    r.run g = g ∨ r.newEntries = none ∧ r.run g = ⟨0, 0, g.entries⟩ ∨
    ∃ header ∈ r.newHeader, ∃ count lba alloc buffer,
      count = (Part.diskRead r.first 1 1 header).buffer.readLE 80 4 ∧ count ≤ 128 ∧
      r.run g = ⟨BitVec.ofNat 32 count, alloc,
        (Part.diskRead r.second lba (BitVec.ofNat 32 ((count * 128 + 511) / 512)) buffer).buffer⟩ ∧
      (g.allocatedEntries.toNat < count ∧ alloc = BitVec.ofNat 32 count ∧ r.newEntries = some buffer ∨
        count ≤ g.allocatedEntries.toNat ∧ alloc = g.allocatedEntries ∧ buffer = g.entries) := by
  rw [GptRead.run]
  cases hheader : r.newHeader with
  | none => exact .inl rfl
  | some header =>
    rw [gptReadHeader]
    dsimp only
    split_ifs with h₁ h₂ h₃ h₄ h₅ hgrow
    any_goals exact .inl rfl
    all_goals
      generalize hcount : (Part.diskRead r.first 1 1 header).buffer.readLE 80 4 = count at *
    · cases hentries : r.newEntries with
      | none => exact .inr (.inl ⟨rfl, rfl⟩)
      | some buffer =>
        refine .inr (.inr ⟨header, rfl, count, _, _, buffer, hcount.symm, by omega, rfl, .inl ?_⟩)
        exact ⟨by bv_omega, rfl, rfl⟩
    all_goals
      refine .inr (.inr ⟨header, rfl, count, _, _, _, hcount.symm, by omega, rfl, .inr ?_⟩)
      exact ⟨by bv_omega, rfl, rfl⟩

theorem GptRead.run_count {g : Gpt} (r : GptRead) (h : g.partitionCount ≤ g.allocatedEntries) :
    (r.run g).partitionCount ≤ (r.run g).allocatedEntries := by
  obtain heq | ⟨-, heq⟩ | ⟨_, -, count, _, alloc, _, -, hle, heq, hbuffer⟩ := r.run_cases g
  · rwa [heq]
  · rw [heq]
    exact BitVec.le_refl 0
  · rw [heq]
    obtain ⟨-, rfl, -⟩ | ⟨hroom, rfl, -⟩ := hbuffer
    · exact BitVec.le_refl _
    · change BitVec.ofNat 32 count ≤ _
      bv_omega

theorem GptRead.WholeSectors.inside {g : Gpt} {r : GptRead} (h : r.WholeSectors g) :
    r.Inside g := by
  intro x hx
  obtain heq | ⟨hnone, heq⟩ | ⟨header, hheader, count, _, alloc, buffer, rfl, hle, heq, hbuffer⟩ :=
    r.run_cases g
  · simp [target, heq]
  · simp [target, heq, hnone]
  · have hwhole := h header hheader
    dsimp only at hwhole
    generalize (Part.diskRead r.first 1 1 header).buffer.readLE 80 4 = count at *
    rw [heq] at hx ⊢
    obtain ⟨hgrow, rfl, hnew⟩ | ⟨hroom, rfl, rfl⟩ := hbuffer
    · have htarget : r.target g = buffer := by
        rw [target, heq, hnew, if_neg fun h => ?_]
        · rfl
        · bv_omega
      rw [htarget]
      have hx : (BitVec.ofNat 32 count).toNat * 128 ≤ x := hx
      refine diskRead_outside ?_
      bv_omega
    · have htarget : r.target g = g.entries := by rw [target, heq, if_pos rfl]
      rw [htarget]
      have hx : g.allocatedEntries.toNat * 128 ≤ x := hx
      refine diskRead_outside ?_
      bv_omega

/-- In every state that calls lead to, a call whose entries fill whole sectors writes inside
    the buffer, and the entries counted lie inside it. -/
theorem gpt_entries_inside (entries : Mem) (reads : List GptRead) (r : GptRead) :
    let g := reads.foldl GptRead.run ⟨0, 0, entries⟩
    (r.WholeSectors g → r.Inside g) ∧
      ∀ index < (r.run g).partitionCount,
        index.toNat * 128 + 128 ≤ (r.run g).allocatedEntries.toNat * 128 := by
  intro g
  have hcount : g.partitionCount ≤ g.allocatedEntries := by
    exact List.foldlRecOn (motive := fun g => g.partitionCount ≤ g.allocatedEntries) reads
      GptRead.run (b := ⟨0, 0, entries⟩) (BitVec.le_refl 0) fun _ hg r _ => r.run_count hg
  refine ⟨fun h => h.inside, fun index hindex => ?_⟩
  have := r.run_count hcount
  bv_omega

set_option maxRecDepth 20000 in
/-- A table of one entry, read into a buffer of 128 bytes. -/
theorem one_entry_overruns :
    let drive : Drive := ⟨true, fun _ => true, straddlingDisk⟩
    let r : GptRead := ⟨drive, drive, some fun _ => 0, some fun _ => 1⟩
    let g := r.run ⟨0, 0, fun _ => 0⟩
    g.allocatedEntries = 1 ∧ ¬ r.Inside ⟨0, 0, fun _ => 0⟩ := by
  refine ⟨by rfl, fun h => ?_⟩
  exact absurd (h 128 (by decide)) (by decide)

end OpenSys
