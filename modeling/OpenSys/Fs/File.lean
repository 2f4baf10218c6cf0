-- SUMMARY: The shapes of a file's data, and what fs_write does to them and to the bitmap.
import OpenSys.Fs.Data
import OpenSys.Fs.Tree

/-!
# Files

The entry of a file has no data attribute, a resident one or one with data runs of one
cluster each. `FileShape` says which, with the clusters of the runs. A write keeps a file
in one of these shapes, and only turning resident data into runs takes clusters: the first
free ones of the bitmap.
-/

namespace OpenSys

open List Mem Nat

/-! ## Shapes -/

section Shapes

variable {m m' : Mem} {e n needed : Nat} {cs : List Nat}

/-- The clusters of run `j`. -/
def runClusters (m : Mem) (runs j : Nat) : List Nat :=
  (List.range (runLength m runs j)).map (runStart m runs j + ·)

/-- The clusters that the data runs of an entry name, for the runs that `fs_read` follows. -/
def dataClusters (m : Mem) (entry : Nat) : List Nat :=
  match findAttr m entry attrData with
  | none => []
  | some attr =>
    let nr := attr + attrHeaderSize
    if attrNonResident m attr = 0 then []
    else (List.range (min (nrAllocatedSize m nr / fsClusterSize)
      (nonresidentRunCount m attr nr))).flatMap (runClusters m (attr + nrRunOffset m nr))

/-- `n` bytes of data in the entry itself. The used size does not grow with them. -/
structure Resident (m : Mem) (e n : Nat) : Prop where
  used : mftUsedSize m e = 385
  type : attrType m (e + 361) = attrData
  nonResident : attrNonResident m (e + 361) = 0
  length : attrLength m (e + 361) = 16 + n
  cap : n ≤ 3711

/-- A data attribute with a run for each of the clusters `cs`. -/
structure RunArray (m : Mem) (e : Nat) (cs : List Nat) : Prop where
  used : mftUsedSize m e = 433 + 16 * cs.length
  cap : cs.length ≤ 228
  type : attrType m (e + 361) = attrData
  nonResident : attrNonResident m (e + 361) ≠ 0
  length : attrLength m (e + 361) = 64 + 16 * cs.length
  offset : nrRunOffset m (e + 377) = 64
  allocated : nrAllocatedSize m (e + 377) = cs.length * 4096
  first : nrStartVcn m (e + 377) = 0
  run : ∀ j (hj : j < cs.length), runStart m (e + 425) j = cs[j] ∧ runLength m (e + 425) j = 1

/-- Data in the clusters `cs`. -/
structure DataRuns (m : Mem) (e : Nat) (cs : List Nat) : Prop extends RunArray m e cs where
  last : nrLastVcn m (e + 377) = dec64 cs.length

/-- What the entry of a file looks like behind its name. -/
inductive FileShape (m : Mem) (e : Nat) : List Nat → Prop
  | fresh : mftUsedSize m e = 369 → FileShape m e []
  | resident {n : Nat} : Resident m e n → FileShape m e []
  | runs {cs : List Nat} : DataRuns m e cs → FileShape m e cs

theorem findAttr_fresh (hn : Named m e) (h : mftUsedSize m e = 369) {t : Nat}
    (ht : t ≠ attrFilename) : findAttr m e t = none := by
  rw [hn.findAttr_rest ht, h, findAttrLoop, if_pos (by rw [attrHeaderSize]; omega)]

theorem findAttr_data (hn : Named m e) (hu : 377 ≤ mftUsedSize m e)
    (ht : attrType m (e + 361) = attrData) : findAttr m e attrData = some (e + 361) := by
  rw [hn.findAttr_rest (by decide), findAttrLoop, if_neg (by rw [attrHeaderSize]; omega),
    if_pos (.inr ht), if_pos ht]

theorem Resident.findAttr (h : Resident m e n) (hn : Named m e) :
    findAttr m e attrData = some (e + 361) :=
  findAttr_data hn (by rw [h.used]; omega) h.type

theorem RunArray.findAttr (h : RunArray m e cs) (hn : Named m e) :
    findAttr m e attrData = some (e + 361) :=
  findAttr_data hn (by rw [h.used]; omega) h.type

/-- Runs of one cluster each, one after the other. -/
theorem flatMap_runClusters {runs : Nat}
    (h : ∀ j (hj : j < cs.length), runStart m runs j = cs[j] ∧ runLength m runs j = 1) :
    (List.range cs.length).flatMap (runClusters m runs) = cs := by
  have hone : ∀ j ∈ List.range cs.length, runClusters m runs j = [runStart m runs j] := fun j hj => by
    rw [runClusters, (h j (mem_range.mp hj)).2, range_one, map_singleton, add_zero]
  rw [flatMap_congr hone, ← map_eq_flatMap]
  refine ext_getElem (by simp) fun j hj hj' => ?_
  rw [getElem_map, getElem_range]
  exact (h j hj').1

/-- A data attribute with room for `needed` runs, of which the first name the clusters `cs`. -/
structure ShortRuns (m : Mem) (e needed : Nat) (cs : List Nat) : Prop where
  used : mftUsedSize m e = 433 + 16 * needed
  cap : needed ≤ 228
  fewer : cs.length ≤ needed
  type : attrType m (e + 361) = attrData
  nonResident : attrNonResident m (e + 361) ≠ 0
  length : attrLength m (e + 361) = 64 + 16 * needed
  offset : nrRunOffset m (e + 377) = 64
  allocated : nrAllocatedSize m (e + 377) = cs.length * 4096
  run : ∀ j (hj : j < cs.length), runStart m (e + 425) j = cs[j] ∧ runLength m (e + 425) j = 1

theorem RunArray.short (h : RunArray m e cs) : ShortRuns m e cs.length cs :=
  ⟨h.used, h.cap, le_rfl, h.type, h.nonResident, h.length, h.offset, h.allocated, h.run⟩

theorem ShortRuns.findAttr (h : ShortRuns m e needed cs) (hn : Named m e) :
    findAttr m e attrData = some (e + 361) :=
  findAttr_data hn (by rw [h.used]; omega) h.type

theorem ShortRuns.runCount (h : ShortRuns m e needed cs) :
    nonresidentRunCount m (e + 361) (e + 377) = needed := by
  rw [nonresidentRunCount, h.offset, h.length, if_neg (by decide), dataRunSize]
  split_ifs <;> omega

theorem ShortRuns.dataClusters_eq (h : ShortRuns m e needed cs) (hn : Named m e) :
    dataClusters m e = cs := by
  have hnr : e + 361 + attrHeaderSize = e + 377 := rfl
  rw [dataClusters, h.findAttr hn]
  dsimp only
  rw [if_neg h.nonResident, hnr, h.runCount, h.allocated, h.offset, fsClusterSize,
    Nat.mul_div_cancel _ (by decide), Nat.min_eq_left h.fewer]
  exact flatMap_runClusters h.run

theorem FileShape.used_mem (h : FileShape m e cs) :
    369 ≤ mftUsedSize m e ∧ mftUsedSize m e ≤ 4096 := by
  cases h with
  | fresh h => omega
  | resident h =>
    have := h.used
    omega
  | runs h =>
    have := h.used
    have := h.cap
    omega

theorem FileShape.dataClusters_eq (h : FileShape m e cs) (hn : Named m e) :
    dataClusters m e = cs := by
  cases h with
  | fresh h => rw [dataClusters, findAttr_fresh hn h (by decide)]
  | resident h =>
    rw [dataClusters, h.findAttr hn]
    exact if_pos h.nonResident
  | runs h => exact h.short.dataClusters_eq hn

/-- A shape depends on the used size and the part of the slot behind the name. -/
theorem RunArray.congr (h : RunArray m e cs) (hu : mftUsedSize m' e = mftUsedSize m e)
    (hm : Mem.Agree m m' (e + 361) 3735) : RunArray m' e cs := by
  have hcap := h.cap
  have hnon : attrNonResident m' (e + 361) = attrNonResident m (e + 361) := hm.readLE (by omega)
  exact ⟨hu.trans h.used, hcap, (hm.readLE (by omega)).trans h.type,
    hnon ▸ h.nonResident, (hm.readLE (by omega)).trans h.length,
    (hm.readLE (by omega)).trans h.offset,
    (hm.readLE (by omega)).trans h.allocated,
    (hm.readLE (by omega)).trans h.first,
    fun j hj => ⟨(hm.readLE (by omega)).trans (h.run j hj).1, (hm.readLE (by omega)).trans (h.run j hj).2⟩⟩

theorem FileShape.congr (h : FileShape m e cs) (hu : mftUsedSize m' e = mftUsedSize m e)
    (hm : Mem.Agree m m' (e + 361) 3735) : FileShape m' e cs := by
  cases h with
  | fresh h => exact .fresh (hu.trans h)
  | resident h =>
    exact .resident ⟨hu.trans h.used, (hm.readLE (by omega)).trans h.type,
      (hm.readLE (by omega)).trans h.nonResident,
      (hm.readLE (by omega)).trans h.length, h.cap⟩
  | runs h =>
    exact .runs ⟨h.toRunArray.congr hu hm, (hm.readLE (by omega)).trans h.last⟩

theorem FileShape.of_agree (h : FileShape m e cs) (hm : Mem.Agree m m' e 4096) :
    FileShape m' e cs :=
  h.congr (hm.readLE (by omega)) (hm.mono (by omega))

end Shapes

/-! ## Taking clusters -/

section Alloc

variable {s : Fs} {m : Mem} {runs n : Nat} {cs : List Nat}

/-- The free clusters, in the order in which `alloc_cluster` takes them. -/
def Fs.freeClusters (s : Fs) : List Nat :=
  (List.range s.boot.totalClusters).filter fun c => !s.bitmap.get c

/-- Runs of one cluster each, from run `n` on. -/
def putRuns (m : Mem) (runs : Nat) : Nat → List Nat → Mem
  | _, [] => m
  | n, c :: cs =>
    putRuns ((m.writeLE (runs + n * 16) 8 c).writeLE (runs + n * 16 + 8) 8 1) runs (n + 1) cs

/-- The clusters `cs` are taken for the runs from run `n` on. -/
def takeRuns (s : Fs) (runs n : Nat) (cs : List Nat) : Fs :=
  { s with mem := putRuns s.mem runs n cs, bitmap := cs.foldl Bitmap.set s.bitmap }

theorem nodup_freeClusters (s : Fs) : s.freeClusters.Nodup := nodup_range.filter _

variable {c : Nat}

theorem mem_freeClusters :
    c ∈ s.freeClusters ↔ c < s.boot.totalClusters ∧ s.bitmap.get c = false := by
  simp [Fs.freeClusters]

/-- Taking the first free cluster leaves the others. -/
theorem freeClusters_set (h : s.freeClusters = c :: cs) :
    ({ s with bitmap := s.bitmap.set c }).freeClusters = cs := by
  have hnodup := nodup_freeClusters s
  rw [h, nodup_cons] at hnodup
  have hset : ({ s with bitmap := s.bitmap.set c }).freeClusters =
      s.freeClusters.filter fun i => !decide (i = c) := by
    rw [Fs.freeClusters, Fs.freeClusters, filter_filter]
    refine filter_congr fun i _ => ?_
    simp [Bitmap.get_set]
  rw [hset, h, filter_cons_of_neg (by simp)]
  exact filter_eq_self.mpr fun i hi => by
    simpa using fun heq : i = c => hnodup.1 (heq ▸ hi)

/-- The allocation loops take the first free clusters. -/
theorem allocRuns_eq {rounds : Nat} : allocRuns runs rounds s n =
    (n + (s.freeClusters.take rounds).length, takeRuns s runs n (s.freeClusters.take rounds)) := by
  induction rounds generalizing s n with
  | zero => rfl
  | succ rounds ih =>
    have hfind : (List.range s.boot.totalClusters).find? (fun i => !s.bitmap.get i) =
        s.freeClusters.head? := head?_filter.symm
    rw [allocRuns, allocCluster, hfind]
    cases hfree : s.freeClusters with
    | nil => rfl
    | cons c cs =>
      have hrest := freeClusters_set hfree
      rw [head?_cons]
      dsimp only
      rw [ih]
      have hsame : ({ s with
          bitmap := s.bitmap.set c
          mem := (s.mem.writeLE (runs + n * 16) 8 c).writeLE (runs + n * 16 + 8) 8 1 } :
            Fs).freeClusters = cs := hrest
      rw [hsame, take_succ_cons, length_cons]
      refine Prod.ext ?_ rfl
      simp only
      omega

theorem putRuns_frame : Mem.Frame (fun x => runs + n * 16 ≤ x ∧ x < runs + (n + cs.length) * 16) m
    (putRuns m runs n cs) := by
  induction cs generalizing m n with
  | nil => exact Frame.refl _ _
  | cons c cs ih =>
    rw [length_cons]
    refine (((Frame.refl _ m).writeLE (by omega)).writeLE (by omega)).trans (ih.mono (by omega))

theorem putRuns_run (hcs : ∀ c ∈ cs, c < 2 ^ 64) {j : Nat} (hj : j < cs.length) :
    runStart (putRuns m runs n cs) runs (n + j) = cs[j] ∧
      runLength (putRuns m runs n cs) runs (n + j) = 1 := by
  induction cs generalizing m n j with
  | nil => exact absurd hj (by simp)
  | cons c cs ih =>
    cases j with
    | zero =>
      -- The runs that follow are written behind this one.
      have hrest : Mem.Frame _ ((m.writeLE (runs + n * 16) 8 c).writeLE (runs + n * 16 + 8) 8 1)
          (putRuns _ runs (n + 1) cs) := putRuns_frame
      refine ⟨(hrest.readLE (by omega)).trans ?_,
        (hrest.readLE (by omega)).trans (readLE_writeLE (by omega))⟩
      rw [readLE_writeLE_of_disjoint (by omega)]
      exact readLE_writeLE (hcs c (by simp))
    | succ j =>
      rw [show n + (j + 1) = n + 1 + j by omega]
      exact ih (fun c hc => hcs c (mem_cons_of_mem _ hc)) (by simpa using hj)

theorem get_foldl_set {b : Bitmap 8} :
    (cs.foldl Bitmap.set b).get c = (decide (c ∈ cs) || b.get c) := by
  induction cs generalizing b with
  | nil => simp
  | cons d cs ih =>
    rw [foldl_cons, ih, Bitmap.get_set]
    by_cases hd : c = d <;> simp [hd]

end Alloc

/-! ## Changes of an entry by a write -/

section Edit

variable {m m' m'' : Mem} {e n : Nat} {cs : List Nat}

/-- A write changes the used size, the recorded size with its time, and what lies behind
    the name, and nothing else. -/
def DataEdit (m m' : Mem) (e : Nat) : Prop :=
  Mem.Frame (fun x => e + 8 ≤ x ∧ x < e + 12 ∨ e + 64 ≤ x ∧ x < e + 72 ∨
    e + 88 ≤ x ∧ x < e + 96 ∨ e + 361 ≤ x ∧ x < e + 4096) m m'

theorem DataEdit.refl (m : Mem) (e : Nat) : DataEdit m m e := Frame.refl _ _

theorem DataEdit.trans (h : DataEdit m m' e) (h' : DataEdit m' m'' e) : DataEdit m m'' e :=
  Frame.trans h h'

/-- A change behind the name. -/
theorem DataEdit.of_tail (h : Mem.Frame (fun x => e + 361 ≤ x ∧ x < e + 4096) m m') :
    DataEdit m m' e :=
  h.mono fun _ hx => .inr (.inr (.inr hx))

theorem DataEdit.setEnd {stop : Nat} (h : DataEdit m m' e) (hlo : e + 361 ≤ stop)
    (hhi : stop + 8 ≤ e + 4096) : DataEdit m (setEnd m' e stop) e :=
  h.trans (setEnd_frame.mono (by omega))

theorem DataEdit.writeLE {a k v : Nat} (h : DataEdit m m' e) (hlo : e + 361 ≤ a)
    (hhi : a + k ≤ e + 4096) : DataEdit m (m'.writeLE a k v) e :=
  Frame.writeLE h fun _ _ _ => by omega

theorem DataEdit.writeBytes {a : Nat} {l : List UInt8} (h : DataEdit m m' e) (hlo : e + 361 ≤ a)
    (hhi : a + l.length ≤ e + 4096) : DataEdit m (m'.writeBytes a l) e :=
  Frame.writeBytes h fun _ _ _ => by omega

theorem DataEdit.flags_eq (h : DataEdit m m' e) : mftFlags m' e = mftFlags m e := Frame.readLE h (by omega)

theorem DataEdit.named (h : DataEdit m m' e) (hn : Named m e)
    (hu : 369 ≤ mftUsedSize m' e ∧ mftUsedSize m' e ≤ 4096) : Named m' e where
  offset := (Frame.readLE h (by omega)).trans hn.offset
  used := hu.1
  used_le := hu.2
  type := (Frame.readLE h (by omega)).trans hn.type
  length := (Frame.readLE h (by omega)).trans hn.length

theorem DataEdit.parent_eq (h : DataEdit m m' e) :
    fnParentMft m' (e + 48) = fnParentMft m (e + 48) :=
  Frame.readLE h (by omega)

theorem DataEdit.name_eq (h : DataEdit m m' e) : fnFilename m' (e + 48) = fnFilename m (e + 48) := by
  have hlen : fnFilenameLength m' (e + 48) = fnFilenameLength m (e + 48) := Frame.readLE h (by omega)
  have hlt : fnFilenameLength m (e + 48) < 256 := readLE_lt m _ 1
  rw [fnFilename, fnFilename, hlen]
  exact (Frame.agree h (by omega)).readBytes_eq

/-- The memory behind `setRealSize`. -/
def sizeMem (m : Mem) (e size now : Nat) : Mem := (m.writeLE (e + 88) 8 size).writeLE (e + 64) 8 now

theorem sizeMem_frame {size now : Nat} : Mem.Frame
    (fun x => e + 64 ≤ x ∧ x < e + 72 ∨ e + 88 ≤ x ∧ x < e + 96) m (sizeMem m e size now) :=
  ((Frame.refl _ m).writeLE (by omega)).writeLE (by omega)

theorem DataEdit.sizeMem {size now : Nat} (h : DataEdit m m' e) :
    DataEdit m (sizeMem m' e size now) e :=
  h.trans (sizeMem_frame.mono (by omega))

theorem FileShape.sizeMem (h : FileShape m e cs) (size now : Nat) :
    FileShape (sizeMem m e size now) e cs :=
  h.congr (sizeMem_frame.readLE (by omega)) (sizeMem_frame.agree (by omega))

theorem setRealSize_eq {s : Fs} {i : Nat} (hn : Named s.mem (s.slot i)) (size : Nat) :
    setRealSize s i size = { s.tick with mem := OpenSys.sizeMem s.mem (s.slot i) size s.now } := by
  rw [setRealSize, hn.filename]
  rfl

end Edit

/-! ## Writing -/

section Write

variable {s s' : Fs} {m : Mem} {e n : Nat} {cs : List Nat} {file : FsFile} {data : List UInt8}

variable {runs position rounds j attr k needed : Nat}

theorem writeRuns_disk {i written : Nat} : ∃ w d,
    writeRuns runs position data rounds s i written = (w, { s with disk := d }) := by
  induction rounds generalizing s i written with
  | zero => exact ⟨_, _, rfl⟩
  | succ rounds ih =>
    by_cases hdone : data.length ≤ written
    · rw [writeRuns, if_pos hdone]
      exact ⟨_, _, rfl⟩
    rw [writeRuns, if_neg hdone]
    dsimp only
    generalize (if i = position / fsClusterSize then position % fsClusterSize else 0) = offset
    split_ifs
    · exact ih
    · exact ih

theorem moveResident_disk {i : Nat} {existing : List UInt8} : ∃ d,
    moveResident runs existing rounds s i = { s with disk := d } := by
  induction rounds generalizing s i with
  | zero => exact ⟨_, rfl⟩
  | succ rounds ih => exact ih

theorem overlayRuns_disk {allocated written : Nat} : ∃ w d,
    overlayRuns runs position allocated data rounds s written = (w, { s with disk := d }) := by
  induction rounds generalizing s written with
  | zero => exact ⟨_, _, rfl⟩
  | succ rounds ih =>
    rw [overlayRuns]
    dsimp only
    split_ifs
    · exact ⟨_, _, rfl⟩
    · exact ⟨_, _, rfl⟩
    · exact ih

/-- What a write leaves: the entry `j` in a shape with the clusters `cs`. -/
structure Written (s s' : Fs) (j : Nat) (cs : List Nat) : Prop where
  boot : s'.boot = s.boot
  zone : s'.mftZone = s.mftZone
  base : s'.baseLba = s.baseLba
  uninit : s'.uninit = s.uninit
  edit : DataEdit s.mem s'.mem (s.slot j)
  shape : FileShape s'.mem (s.slot j) cs

/-- Where a write goes: to the end of the file in append mode. -/
def FsFile.place (file : FsFile) : Nat := if file.mode = 2 then file.size else file.position

/-- The handle with its position at that place. -/
def FsFile.placed (file : FsFile) : FsFile :=
  if file.mode = 2 then { file with position := file.size } else file

theorem FsFile.placed_position (file : FsFile) : file.placed.position = file.place := by
  rw [FsFile.placed, FsFile.place]
  split_ifs <;> rfl

theorem FsFile.placed_mftNumber (file : FsFile) : file.placed.mftNumber = file.mftNumber := by
  rw [FsFile.placed]
  split_ifs <;> rfl

/-- The data attribute after a write that stays in the entry. -/
def residentAttr (m : Mem) (e position : Nat) (data : List UInt8) : Mem :=
  (m.writeBytes (e + 377 + position) data).writeLE (e + 361 + 4) 4 (16 + (position + data.length))

theorem residentAttr_edit (hfit : position + data.length ≤ 3711) :
    DataEdit m (residentAttr m e position data) e :=
  ((DataEdit.refl _ _).writeBytes (by omega) (by omega)).writeLE (by omega) (by omega)

theorem Resident.write (h : Resident m e n) (hfit : position + data.length ≤ 3711) :
    Resident (residentAttr m e position data) e (position + data.length) where
  used := by
    rw [residentAttr, mftUsedSize, readLE_writeLE_of_disjoint (by omega),
      readLE_writeBytes_of_disjoint (by omega)]
    exact h.used
  type := by
    rw [residentAttr, attrType, readLE_writeLE_of_disjoint (by omega),
      readLE_writeBytes_of_disjoint (by omega)]
    exact h.type
  nonResident := by
    rw [residentAttr, attrNonResident, readLE_writeLE_of_disjoint (by omega),
      readLE_writeBytes_of_disjoint (by omega)]
    exact h.nonResident
  length := readLE_writeLE (by omega)
  cap := hfit

theorem residentRoom {m : Mem} {e : Nat} (h : mftUsedSize m e = 385) :
    u32 (mftEntrySize + (2 ^ 32 - mftUsedSize m e)) = 3711 := by
  rw [h]
  rfl

/-- A write that stays in the entry. -/
theorem writeResident_eq (hj : file.mftNumber = j) (hn : Named s.mem (s.slot j))
    (h : Resident s.mem (s.slot j) n) (hfit : file.position + data.length ≤ 3711) :
    writeResident s file (s.slot j + 361) data = (data.length, { file with
        position := file.position + data.length
        size := file.position + data.length },
      (writeMftEntry { s.tick with
        mem := sizeMem (residentAttr s.mem (s.slot j) file.position data) (s.slot j)
          (file.position + data.length) s.now } j).2) := by
  subst hj
  have hstop : u64 (file.position + data.length) = file.position + data.length := u64_of_lt (by omega)
  have hn₁ := (residentAttr_edit hfit).named hn (FileShape.resident (h.write hfit)).used_mem
  have hreal := setRealSize_eq (s := { s with
    mem := residentAttr s.mem (s.slot file.mftNumber) file.position data }) hn₁
    (file.position + data.length)
  have hmem : (s.mem.writeBytes (s.slot file.mftNumber + 361 + attrHeaderSize + file.position)
      data).writeLE (s.slot file.mftNumber + 361 + 4) 4 (attrHeaderSize +
        (file.position + data.length)) =
      residentAttr s.mem (s.slot file.mftNumber) file.position data := rfl
  rw [writeResident]
  dsimp only
  rw [residentRoom h.used, hstop, if_neg (by omega), hmem, hreal]
  rfl

theorem writeResident_written (hj : file.mftNumber = j) (hn : Named s.mem (s.slot j))
    (h : Resident s.mem (s.slot j) n) (hfit : file.position + data.length ≤ 3711) :
    Written s (writeResident s file (s.slot j + 361) data).2.2 j [] ∧
      (writeResident s file (s.slot j + 361) data).2.2.bitmap = s.bitmap := by
  rw [writeResident_eq hj hn h hfit]
  exact ⟨⟨rfl, rfl, rfl, rfl, (residentAttr_edit hfit).sizeMem,
    (FileShape.resident (h.write hfit)).sizeMem _ _⟩, rfl⟩

/-- The header of a converted attribute, for `k` runs. -/
structure Converted (m : Mem) (attr k : Nat) : Prop where
  nonResident : attrNonResident m attr ≠ 0
  length : attrLength m attr = 64 + 16 * k
  first : nrStartVcn m (attr + 16) = 0
  last : nrLastVcn m (attr + 16) = k - 1
  offset : nrRunOffset m (attr + 16) = 64

theorem convertAttr_frame : Mem.Frame (fun x => attr + 4 ≤ x ∧ x < attr + 64) m
    (convertAttr m attr k) := by
  unfold convertAttr attrHeaderSize attrNonresidentSize
  repeat refine Frame.writeLE ?_ (by omega)
  exact Frame.refl _ _

theorem convertAttr_spec (hk : k ≤ 228) : Converted (convertAttr m attr k) attr k := by
  have hu : u32 (k * dataRunSize) = 16 * k := by
    rw [u32, dataRunSize]
    omega
  unfold convertAttr
  rw [hu]
  refine ⟨?_, ?_, ?_, ?_, ?_⟩
  all_goals
    simp (disch := omega) only [attrNonResident, attrLength, nrStartVcn, nrLastVcn, nrRunOffset,
      attrHeaderSize, attrNonresidentSize, readLE_writeLE_of_disjoint]
  · rw [readLE_writeLE (by omega)]
    decide
  all_goals exact readLE_writeLE (by omega)

/-- The data attribute with room for `needed` runs and runs for the clusters `cs`. -/
def takenAttr (m : Mem) (e needed : Nat) (cs : List Nat) (realSize : Nat) : Mem :=
  let m := putRuns (convertAttr m (e + 361) needed) (e + 425) 0 cs
  let m := m.writeLE (e + 377 + 24) 8 (cs.length * 4096)
  let m := m.writeLE (e + 377 + 32) 8 realSize
  m.writeLE (e + 377 + 40) 8 realSize

/-- The memory that the conversion leaves. -/
def takenMem (m : Mem) (e needed : Nat) (cs : List Nat) (realSize size now : Nat) : Mem :=
  setEnd (sizeMem (takenAttr m e needed cs realSize) e size now) e (e + 361 + (64 + 16 * needed))

section Taken

variable {needed realSize size now : Nat} (hcap : needed ≤ 228) (hfewer : cs.length ≤ needed)

include hcap hfewer

theorem takenAttr_frame : Mem.Frame (fun x => e + 361 ≤ x ∧ x < e + 4096) m
    (takenAttr m e needed cs realSize) := by
  have hruns : Mem.Frame _ (convertAttr m (e + 361) needed)
      (putRuns (convertAttr m (e + 361) needed) (e + 425) 0 cs) := putRuns_frame
  have hbody : Mem.Frame (fun x => e + 361 ≤ x ∧ x < e + 4096) m
      (putRuns (convertAttr m (e + 361) needed) (e + 425) 0 cs) :=
    (convertAttr_frame.mono (by omega)).trans (hruns.mono (by omega))
  exact ((hbody.writeLE (by omega)).writeLE (by omega)).writeLE (by omega)

theorem takenMem_edit : DataEdit m (takenMem m e needed cs realSize size now) e :=
  DataEdit.setEnd (DataEdit.of_tail (takenAttr_frame hcap hfewer)).sizeMem (by omega) (by omega)

theorem takenMem_used :
    mftUsedSize (takenMem m e needed cs realSize size now) e = 433 + 16 * needed := by
  rw [takenMem, setEnd_used (by omega)]
  omega

omit hcap hfewer in
/-- The runs that the loops of the conversion follow. -/
theorem taken_runs (hcs : ∀ c ∈ cs, c < 2 ^ 64) {k : Nat} (hk : k < cs.length) :
    runStart (putRuns (convertAttr m (e + 361) needed) (e + 425) 0 cs) (e + 425) k = cs[k] ∧
      runLength (putRuns (convertAttr m (e + 361) needed) (e + 425) 0 cs) (e + 425) k = 1 := by
  have hrun := @putRuns_run (convertAttr m (e + 361) needed) (e + 425) 0 cs hcs k hk
  rwa [zero_add] at hrun

omit hcap hfewer in
/-- Behind the runs, only the sizes of the attribute and of the entry are set. -/
theorem takenMem_frame : Mem.Frame (fun x => e + 8 ≤ x ∧ x < e + 12 ∨ e + 64 ≤ x ∧ x < e + 96 ∨
    e + 401 ≤ x ∧ x < e + 425 ∨ e + 425 + 16 * needed ≤ x)
    (putRuns (convertAttr m (e + 361) needed) (e + 425) 0 cs)
    (takenMem m e needed cs realSize size now) := by
  rw [takenMem, takenAttr]
  refine Frame.trans ?_ (setEnd_frame.mono (by omega))
  refine Frame.trans ?_ (sizeMem_frame.mono (by omega))
  exact (((Frame.refl _ _).writeLE (by omega)).writeLE (by omega)).writeLE (by omega)

/-- The header of the attribute is the one that `convertAttr` has made. -/
theorem takenMem_converted : Converted (takenMem m e needed cs realSize size now) (e + 361) needed := by
  have hspec : Converted (convertAttr m (e + 361) needed) (e + 361) needed := convertAttr_spec hcap
  have hsizes : Mem.Frame _ _ (takenMem m e needed cs realSize size now) := takenMem_frame
  have hruns : Mem.Frame _ (convertAttr m (e + 361) needed)
    (putRuns (convertAttr m (e + 361) needed) (e + 425) 0 cs) := putRuns_frame
  have hnon : attrNonResident (takenMem m e needed cs realSize size now) (e + 361) =
      attrNonResident (convertAttr m (e + 361) needed) (e + 361) :=
    (hsizes.readLE (by omega)).trans (hruns.readLE (by omega))
  refine ⟨hnon ▸ hspec.nonResident, ?_, ?_, ?_, ?_⟩
  all_goals refine (hsizes.readLE (by omega)).trans ((hruns.readLE (by omega)).trans ?_)
  exacts [hspec.length, hspec.first, hspec.last, hspec.offset]

theorem takenMem_short (htype : attrType m (e + 361) = attrData) (hcs : ∀ c ∈ cs, c < 2 ^ 64) :
    ShortRuns (takenMem m e needed cs realSize size now) e needed cs := by
  have hspec : Converted (takenMem m e needed cs realSize size now) (e + 361) needed :=
    takenMem_converted hcap hfewer
  have hsizes : Mem.Frame _ _ (takenMem m e needed cs realSize size now) := takenMem_frame
  have hconv : Mem.Frame _ m (convertAttr m (e + 361) needed) := convertAttr_frame
  have hruns : Mem.Frame _ (convertAttr m (e + 361) needed)
    (putRuns (convertAttr m (e + 361) needed) (e + 425) 0 cs) := putRuns_frame
  refine ⟨takenMem_used hcap hfewer, hcap, hfewer, ?_, hspec.nonResident, hspec.length, hspec.offset, ?_,
    fun j hj => ⟨?_, ?_⟩⟩
  · exact (hsizes.readLE (by omega)).trans ((hruns.readLE (by omega)).trans
      ((hconv.readLE (by omega)).trans htype))
  · rw [takenMem, takenAttr]
    refine (setEnd_frame.readLE (by omega)).trans ((sizeMem_frame.readLE (by omega)).trans ?_)
    rw [readLE_writeLE_of_disjoint (by omega), readLE_writeLE_of_disjoint (by omega)]
    exact readLE_writeLE (by omega)
  · exact (hsizes.readLE (by omega)).trans (taken_runs hcs hj).1
  · exact (hsizes.readLE (by omega)).trans (taken_runs hcs hj).2

/-- With all the clusters, the runs are those of a file. -/
theorem takenMem_runs (htype : attrType m (e + 361) = attrData) (hcs : ∀ c ∈ cs, c < 2 ^ 64)
    (hall : cs.length = needed) (hpos : 0 < needed) :
    DataRuns (takenMem m e needed cs realSize size now) e cs := by
  have hspec : Converted (takenMem m e needed cs realSize size now) (e + 361) needed :=
    takenMem_converted hcap hfewer
  have h : ShortRuns (takenMem m e needed cs realSize size now) e needed cs :=
    takenMem_short hcap hfewer htype hcs
  generalize takenMem m e needed cs realSize size now = m' at hspec h
  subst hall
  refine ⟨⟨h.used, hcap, h.type, h.nonResident, h.length, h.offset, h.allocated, hspec.first, h.run⟩, ?_⟩
  rw [dec64_of_pos hpos (by omega)]
  exact hspec.last

omit hfewer in
theorem takenMem_sizes (hreal : realSize < 2 ^ 64) (hsize : size < 2 ^ 64) :
    nrRealSize (takenMem m e needed cs realSize size now) (e + 377) = realSize ∧
      fnRealSize (takenMem m e needed cs realSize size now) (e + 48) = size := by
  constructor
  · rw [takenMem, takenAttr]
    refine (setEnd_frame.readLE (by omega)).trans ((sizeMem_frame.readLE (by omega)).trans ?_)
    rw [readLE_writeLE_of_disjoint (by omega)]
    exact readLE_writeLE hreal
  · rw [takenMem, sizeMem]
    refine (setEnd_frame.readLE (by omega)).trans ?_
    rw [readLE_writeLE_of_disjoint (by omega)]
    exact readLE_writeLE hsize

end Taken

theorem Resident.residentSize_eq (h : Resident m e n) : residentSize m e (e + 361) = n := by
  have hcap := h.cap
  rw [residentSize, h.length, if_neg (by rw [mftEntrySize, attrHeaderSize]; omega), attrHeaderSize]
  omega

theorem clustersFor_pos (size : Nat) : 0 < clustersFor size := by
  rw [clustersFor]
  split_ifs with h
  · exact one_pos
  · exact pos_of_ne_zero h

/-- The state in which the loops of the conversion run. -/
def taking (s : Fs) (e needed : Nat) (cs : List Nat) : Fs :=
  takeRuns { s with mem := convertAttr s.mem (e + 361) needed } (e + 425) 0 cs

/-- With some free clusters. -/
theorem convertResident_taken (hj : file.mftNumber = j) (hn : Named s.mem (s.slot j))
    (h : Resident s.mem (s.slot j) n)
    (hneed : clustersFor (max (u64 (file.position + data.length)) n) = needed)
    (hcap : needed ≤ 228) (hcs : s.freeClusters.take needed = cs) (hne : cs ≠ []) {w : Nat}
    {d : Disk} (hloops : overlayRuns (s.slot j + 425) file.position cs.length data data.length
      (moveResident (s.slot j + 425) (s.mem.readBytes (s.slot j + 377) n) cs.length
        (taking s (s.slot j) needed cs) 0) 0 = (w, { taking s (s.slot j) needed cs with disk := d })) :
    convertResident s file (s.slot j + 361) data = (w,
      { file with position := u64 (file.position + w), size := u64 (file.position + w) },
      (writeMftEntry { s.tick with
        mem := takenMem s.mem (s.slot j) needed cs (max (u64 (file.position + w)) n)
          (u64 (file.position + w)) s.now
        bitmap := cs.foldl Bitmap.set s.bitmap
        disk := d } j).2) := by
  subst hj
  have hfewer : cs.length ≤ needed := hcs ▸ length_take_le _ _
  have hpos : cs.length ≠ 0 := fun h0 => hne (eq_nil_of_length_eq_zero h0)
  have hsame : ({ s with mem := convertAttr s.mem (s.slot file.mftNumber + 361) needed } :
      Fs).freeClusters = s.freeClusters := rfl
  have hruns : s.slot file.mftNumber + 361 + attrHeaderSize + attrNonresidentSize =
      s.slot file.mftNumber + 425 := rfl
  have hdata : s.slot file.mftNumber + 361 + attrHeaderSize = s.slot file.mftNumber + 377 := rfl
  have hstop : u32 (attrHeaderSize + attrNonresidentSize + u32 (needed * dataRunSize)) =
      64 + 16 * needed := by
    rw [u32, u32, attrHeaderSize, attrNonresidentSize, dataRunSize]
    omega
  rw [taking] at hloops
  rw [convertResident]
  dsimp only
  rw [h.residentSize_eq, hneed, allocRuns_eq, hsame, hcs, hruns, hdata, hstop]
  dsimp only
  rw [zero_add, if_neg hpos, hloops]
  dsimp only
  -- The name is in place while the attribute is being converted.
  have hn₁ : Named (takenAttr s.mem (s.slot file.mftNumber) needed cs
      (max (u64 (file.position + w)) n)) (s.slot file.mftNumber) := by
    have hframe : Mem.Frame _ s.mem (takenAttr s.mem (s.slot file.mftNumber) needed cs
      (max (u64 (file.position + w)) n)) := takenAttr_frame hcap hfewer
    refine (DataEdit.of_tail hframe).named hn ?_
    rw [mftUsedSize, hframe.readLE (by omega)]
    exact ⟨hn.used, hn.used_le⟩
  have hreal := setRealSize_eq (s := { taking s (s.slot file.mftNumber) needed cs with
    disk := d
    mem := takenAttr s.mem (s.slot file.mftNumber) needed cs (max (u64 (file.position + w)) n) })
    hn₁ (u64 (file.position + w))
  erw [hreal]
  rfl

theorem convertResident_written (hj : file.mftNumber = j) (hn : Named s.mem (s.slot j))
    (h : Resident s.mem (s.slot j) n) (htotal : s.boot.totalClusters ≤ 2 ^ 64)
    (hneed : clustersFor (max (u64 (file.position + data.length)) n) = needed)
    (hcap : needed ≤ 228) (hfree : needed ≤ s.freeClusters.length) :
    Written s (convertResident s file (s.slot j + 361) data).2.2 j (s.freeClusters.take needed) ∧
      (convertResident s file (s.slot j + 361) data).2.2.bitmap =
        (s.freeClusters.take needed).foldl Bitmap.set s.bitmap := by
  have hpos : 0 < needed := hneed ▸ clustersFor_pos _
  have hlen : (s.freeClusters.take needed).length = needed := length_take_of_le hfree
  have hcs : ∀ c ∈ s.freeClusters.take needed, c < 2 ^ 64 := fun c hc =>
    lt_of_lt_of_le (mem_freeClusters.mp (mem_of_mem_take hc)).1 htotal
  have hne : s.freeClusters.take needed ≠ [] := ne_nil_of_length_pos (by omega)
  obtain ⟨w, d, hloops⟩ : ∃ w d, overlayRuns (s.slot j + 425) file.position
      (s.freeClusters.take needed).length data data.length
      (moveResident (s.slot j + 425) (s.mem.readBytes (s.slot j + 377) n)
        (s.freeClusters.take needed).length (taking s (s.slot j) needed (s.freeClusters.take needed)) 0) 0 =
      (w, { taking s (s.slot j) needed (s.freeClusters.take needed) with disk := d }) := by
    obtain ⟨d₁, hd₁⟩ : ∃ d, moveResident (s.slot j + 425) (s.mem.readBytes (s.slot j + 377) n)
        (s.freeClusters.take needed).length (taking s (s.slot j) needed (s.freeClusters.take needed)) 0 =
      { taking s (s.slot j) needed (s.freeClusters.take needed) with disk := d } := moveResident_disk
    rw [hd₁]
    exact overlayRuns_disk
  rw [convertResident_taken hj hn h hneed hcap rfl hne hloops]
  exact ⟨⟨rfl, rfl, rfl, rfl, takenMem_edit hcap hlen.le,
    .runs (takenMem_runs hcap hlen.le h.type hcs hlen hpos)⟩, rfl⟩

/-- The data attribute after a write into its `k` clusters. -/
def rewrittenAttr (m : Mem) (e k realSize : Nat) : Mem :=
  let m := m.writeLE (e + 361 + 4) 4 (64 + 16 * k)
  let m := setEnd m e (e + 361 + (64 + 16 * k))
  let m := m.writeLE (e + 377 + 24) 8 (k * 4096)
  let m := m.writeLE (e + 377 + 32) 8 realSize
  let m := m.writeLE (e + 377 + 40) 8 realSize
  m.writeLE (e + 377 + 8) 8 (dec64 k)

theorem rewrittenAttr_frame {realSize : Nat} : Mem.Frame
    (fun x => e + 8 ≤ x ∧ x < e + 12 ∨ e + 365 ≤ x ∧ x < e + 369 ∨ e + 385 ≤ x ∧ x < e + 393 ∨
      e + 401 ≤ x ∧ x < e + 425 ∨ e + 425 + 16 * k ≤ x ∧ x < e + 433 + 16 * k) m
    (rewrittenAttr m e k realSize) := by
  unfold rewrittenAttr setEnd
  repeat refine Frame.writeLE ?_ (by omega)
  exact Frame.refl _ _

theorem RunArray.rewritten (h : RunArray m e cs) (realSize : Nat) :
    DataRuns (rewrittenAttr m e cs.length realSize) e cs := by
  have hcap := h.cap
  have hframe : Mem.Frame _ m (rewrittenAttr m e cs.length realSize) := rewrittenAttr_frame
  have hnon : attrNonResident (rewrittenAttr m e cs.length realSize) (e + 361) =
      attrNonResident m (e + 361) := hframe.readLE (by omega)
  refine ⟨⟨?_, hcap, (hframe.readLE (by omega)).trans h.type, hnon ▸ h.nonResident, ?_,
    (hframe.readLE (by omega)).trans h.offset, ?_,
    (hframe.readLE (by omega)).trans h.first,
    fun j hj => ⟨(hframe.readLE (by omega)).trans (h.run j hj).1,
      (hframe.readLE (by omega)).trans (h.run j hj).2⟩⟩, ?_⟩
  · simp (disch := omega) only [mftUsedSize, rewrittenAttr, readLE_writeLE_of_disjoint]
    refine (setEnd_used (by omega)).trans ?_
    omega
  · simp (disch := omega) only [attrLength, rewrittenAttr, readLE_writeLE_of_disjoint]
    refine (setEnd_frame.readLE (by omega)).trans (readLE_writeLE (by omega))
  · simp (disch := omega) only [nrAllocatedSize, rewrittenAttr, readLE_writeLE_of_disjoint]
    exact readLE_writeLE (by omega)
  · exact readLE_writeLE (u64_lt _)

/-- A write into the clusters of a file, which takes no others. -/
theorem writeNonResident_eq (hj : file.mftNumber = j) (hn : Named s.mem (s.slot j))
    (h : RunArray s.mem (s.slot j) cs) (data : List UInt8) :
    ∃ w d, writeRuns (s.slot j + 425) file.position data
        (u64 (file.position + data.length + fsClusterSize - 1) / fsClusterSize) s 0 0 =
          (w, { s with disk := d }) ∧
      writeNonResident s file (s.slot j + 361) data = (w,
        { file with position := u64 (file.position + w), size := u64 (file.position + w) },
        (writeMftEntry { s.tick with
          mem := sizeMem (rewrittenAttr s.mem (s.slot j) cs.length (file.position + w)) (s.slot j)
            (u64 (file.position + w)) s.now
          disk := d } j).2) := by
  subst hj
  have hcap := h.cap
  obtain ⟨w, d, hwd⟩ : ∃ w d, writeRuns (s.slot file.mftNumber + 425) file.position data
      (u64 (file.position + data.length + fsClusterSize - 1) / fsClusterSize) s 0 0 =
        (w, { s with disk := d }) := writeRuns_disk
  refine ⟨w, d, hwd, ?_⟩
  have hnr : s.slot file.mftNumber + 361 + attrHeaderSize = s.slot file.mftNumber + 377 := rfl
  have hruns : s.slot file.mftNumber + 361 + 64 = s.slot file.mftNumber + 425 := rfl
  have halloc : min (cs.length * 4096 / fsClusterSize) cs.length = cs.length := by
    rw [fsClusterSize, Nat.mul_div_cancel _ (by decide), Nat.min_self]
  have hrounds : ∀ k, min k cs.length - cs.length = 0 := by omega
  have hlen : u32 (cs.length * dataRunSize) = 16 * cs.length := by
    rw [u32, dataRunSize]
    omega
  have hstop : u32 (64 + 16 * cs.length) = 64 + 16 * cs.length := by
    rw [u32]
    omega
  have hn₁ : Named (rewrittenAttr s.mem (s.slot file.mftNumber) cs.length (file.position + w))
      (s.slot file.mftNumber) := by
    have hedit : DataEdit s.mem (rewrittenAttr s.mem (s.slot file.mftNumber) cs.length
        (file.position + w)) (s.slot file.mftNumber) := rewrittenAttr_frame.mono (by omega)
    exact hedit.named hn (FileShape.runs (h.rewritten _)).used_mem
  rw [writeNonResident]
  dsimp only
  rw [hnr, h.offset, h.short.runCount, h.allocated, halloc, hrounds, hruns, allocRuns]
  dsimp only
  rw [hwd]
  dsimp only
  rw [h.offset, hlen, hstop]
  have hreal := setRealSize_eq (s := { s with
    disk := d
    mem := rewrittenAttr s.mem (s.slot file.mftNumber) cs.length (file.position + w) })
    hn₁ (u64 (file.position + w))
  erw [hreal]
  rfl

theorem writeNonResident_written (hj : file.mftNumber = j) (hn : Named s.mem (s.slot j))
    (h : RunArray s.mem (s.slot j) cs) (data : List UInt8) :
    Written s (writeNonResident s file (s.slot j + 361) data).2.2 j cs ∧
      (writeNonResident s file (s.slot j + 361) data).2.2.bitmap = s.bitmap := by
  have hcap := h.cap
  obtain ⟨w, d, -, heq⟩ := writeNonResident_eq hj hn h data
  rw [heq]
  have hedit : DataEdit s.mem (rewrittenAttr s.mem (s.slot j) cs.length (file.position + w))
      (s.slot j) := rewrittenAttr_frame.mono (by omega)
  exact ⟨⟨rfl, rfl, rfl, rfl, hedit.sizeMem, .sizeMem (.runs (h.rewritten _)) _ _⟩, rfl⟩

/-- A new data attribute in a fresh entry. -/
theorem createDataAttr_spec (h : mftUsedSize m e = 369) (size : Nat) :
    (createDataAttr m e size).1 = e + 361 ∧ DataEdit m (createDataAttr m e size).2 e ∧
      (size ≤ 3703 → Resident (createDataAttr m e size).2 e 0) ∧
      (3703 < size → RunArray (createDataAttr m e size).2 e []) := by
  have hroom : u64 (u32 (mftEntrySize + (2 ^ 32 - mftUsedSize m e)) +
      (2 ^ 64 - attrHeaderSize - 8)) = 3703 := by
    rw [h]
    rfl
  have hattr : e + mftUsedSize m e - 8 = e + 361 := by omega
  rw [createDataAttr]
  dsimp only
  rw [hroom, hattr]
  split_ifs with hsize
  · unfold attrHeaderSize attrNonresidentSize
    refine ⟨rfl, ?edit, fun hle => absurd hsize (by omega), fun _ => ⟨?used, by simp, ?_, ?_, ?_, ?_,
      ?_, ?_, fun j hj => absurd hj (by simp)⟩⟩
    case edit =>
      refine DataEdit.setEnd ?_ (by omega) (by omega)
      repeat refine DataEdit.writeLE ?_ (by omega) (by omega)
      exact DataEdit.refl _ _
    case used =>
      rw [setEnd_used (by omega), length_nil]
      omega
    -- every other field was written once, and what is written later lies elsewhere
    all_goals
      first
      | refine (setEnd_frame.readLE (by omega)).trans ?_
      | rw [attrNonResident, setEnd_frame.readLE (by omega)]
      simp (disch := omega) only [readLE_writeLE_of_disjoint]
      rw [readLE_writeLE (by decide)]
      try decide
  · unfold attrHeaderSize
    refine ⟨rfl, ?_, fun _ => ⟨?_, ?_, ?_, ?_, by omega⟩, fun hlt => absurd hlt hsize⟩
    · refine DataEdit.setEnd ?_ (by omega) (by omega)
      repeat refine DataEdit.writeLE ?_ (by omega) (by omega)
      exact DataEdit.refl _ _
    · rw [setEnd_used (by omega)]
      omega
    · refine (setEnd_frame.readLE (by omega)).trans ?_
      simp (disch := omega) only [readLE_writeLE_of_disjoint]
      exact readLE_writeLE (by decide)
    · refine (setEnd_frame.readLE (by omega)).trans ?_
      simp (disch := omega) only [readLE_writeLE_of_disjoint]
      exact readLE_writeLE (by omega)
    · refine (setEnd_frame.readLE (by omega)).trans ?_
      exact readLE_writeLE (by omega)

/-- The clusters that `fs_write` takes to move resident data out of the entry, 0 when the
    data attribute keeps its form. -/
def clustersToTake (s : Fs) (file : FsFile) (data : List UInt8) : Nat :=
  let entry := s.slot file.mftNumber
  let stop := u64 (file.place + data.length)
  let room := u32 (mftEntrySize + (2 ^ 32 - mftUsedSize s.mem entry))
  if data = [] then 0
  else
    match findAttr s.mem entry attrData with
    | some attr =>
      if attrNonResident s.mem attr = 0 ∧ room < stop then
        clustersFor (max stop (residentSize s.mem entry attr))
      else 0
    | none =>
      if data.length + attrHeaderSize + 8 ≤ room ∧ room - attrHeaderSize < stop then
        clustersFor stop
      else 0

theorem Resident.clustersToTake_eq (h : Resident s.mem (s.slot j) n) (hj : file.mftNumber = j)
    (hn : Named s.mem (s.slot j)) (hdata : data ≠ []) (hplace : file.place + data.length < 2 ^ 64) :
    clustersToTake s file data =
      if 3711 < file.place + data.length then clustersFor (max (file.place + data.length) n)
      else 0 := by
  subst hj
  rw [clustersToTake, if_neg hdata, u64_of_lt hplace, h.findAttr hn, residentRoom h.used]
  simp only [h.nonResident, h.residentSize_eq, true_and]

theorem clustersToTake_fresh (h : mftUsedSize s.mem (s.slot j) = 369) (hj : file.mftNumber = j)
    (hn : Named s.mem (s.slot j)) (hdata : data ≠ []) (hplace : file.place + data.length < 2 ^ 64) :
    clustersToTake s file data =
      if data.length ≤ 3703 ∧ 3711 < file.place + data.length then
        clustersFor (file.place + data.length)
      else 0 := by
  subst hj
  have hroom : u32 (mftEntrySize + (2 ^ 32 - mftUsedSize s.mem (s.slot file.mftNumber))) = 3727 := by
    rw [h]
    rfl
  have hheader : attrHeaderSize = 16 := rfl
  rw [clustersToTake, if_neg hdata, u64_of_lt hplace, findAttr_fresh hn h (by decide), hroom]
  dsimp only
  by_cases hlarge : data.length ≤ 3703 ∧ 3711 < file.place + data.length
  · rw [if_pos hlarge]
    exact if_pos (by omega)
  · rw [if_neg hlarge]
    exact if_neg (by omega)

theorem Written.after {m₁ : Mem} (hm : DataEdit s.mem m₁ (s.slot j))
    (h : Written { s with mem := m₁ } s' j cs) : Written s s' j cs :=
  ⟨h.boot, h.zone, h.base, h.uninit, hm.trans h.edit, h.shape⟩

/-- A write on a resident attribute: the data stays in the entry, or moves into the first
    free clusters. -/
theorem Resident.fsWrite {take : Nat} (h : Resident s.mem (s.slot j) n) (hj : file.mftNumber = j)
    (hn : Named s.mem (s.slot j)) (htotal : s.boot.totalClusters ≤ 2 ^ 64)
    (hplace : file.position + data.length < 2 ^ 64)
    (htake : take = if 3711 < file.position + data.length then
      clustersFor (max (file.position + data.length) n) else 0) (hcap : take ≤ 228)
    (hfree : take ≤ s.freeClusters.length) :
    Written s (writeResident s file (s.slot j + 361) data).2.2 j (s.freeClusters.take take) ∧
      (writeResident s file (s.slot j + 361) data).2.2.bitmap =
        (s.freeClusters.take take).foldl Bitmap.set s.bitmap := by
  have hstop : u64 (file.position + data.length) = file.position + data.length := u64_of_lt hplace
  by_cases hfit : 3711 < file.position + data.length
  · rw [if_pos hfit] at htake
    have hconv : writeResident s file (s.slot j + 361) data =
        convertResident s file (s.slot j + 361) data := by
      subst hj
      rw [writeResident]
      dsimp only
      rw [residentRoom h.used, hstop, if_pos hfit]
    rw [hconv]
    exact convertResident_written hj hn h htotal (by rw [hstop, htake]) hcap hfree
  · rw [if_neg hfit] at htake
    subst htake
    exact writeResident_written hj hn h (by omega)

/-- `fs_write` behind the data attribute. -/
def writeAttr (s : Fs) (file : FsFile) (attr : Nat) (data : List UInt8) : Nat × FsFile × Fs :=
  if attrNonResident s.mem attr ≠ 0 then writeNonResident s file attr data
  else writeResident s file attr data

theorem fsWrite_eq (hdata : data ≠ []) : fsWrite s file data =
    match findAttr s.mem (s.slot file.mftNumber) attrData with
    | some attr => writeAttr s file.placed attr data
    | none =>
      match createDataAttr s.mem (s.slot file.mftNumber) data.length with
      | (attr, m) => writeAttr { s with mem := m } file.placed attr data := by
  rw [fsWrite, if_neg hdata]
  extract_lets file' entry
  have hentry : entry = s.slot file.mftNumber := congrArg s.slot file.placed_mftNumber
  have hfile : file' = file.placed := rfl
  clear_value entry file'
  subst hentry hfile
  -- Evaluating the new attribute is never needed here.
  generalize createDataAttr s.mem (s.slot file.mftNumber) data.length = r
  obtain ⟨attr, m⟩ := r
  cases findAttr s.mem (s.slot file.mftNumber) attrData with
  | none => rfl
  | some attr => rfl

theorem fsWrite_found (hdata : data ≠ [])
    (hattr : findAttr s.mem (s.slot file.mftNumber) attrData = some attr) :
    fsWrite s file data = writeAttr s file.placed attr data := by
  rw [fsWrite_eq hdata, hattr]

theorem Resident.writeAttr_eq (h : Resident s.mem e n) :
    writeAttr s file (e + 361) data = writeResident s file (e + 361) data :=
  if_neg (not_not.mpr h.nonResident)

theorem RunArray.writeAttr_eq (h : RunArray s.mem e cs) :
    writeAttr s file (e + 361) data = writeNonResident s file (e + 361) data :=
  if_pos h.nonResident

/-- What `fs_write` does to the entry of a file and to the bitmap. -/
protected theorem FileShape.fsWrite {take : Nat} (h : FileShape s.mem (s.slot j) cs)
    (hj : file.mftNumber = j) (hn : Named s.mem (s.slot j))
    (htotal : s.boot.totalClusters ≤ 2 ^ 64) (hplace : file.place + data.length < 2 ^ 64)
    (htake : clustersToTake s file data = take) (hcap : take ≤ 228)
    (hfree : take ≤ s.freeClusters.length) :
    Written s (fsWrite s file data).2.2 j (cs ++ s.freeClusters.take take) ∧
      (fsWrite s file data).2.2.bitmap = (s.freeClusters.take take).foldl Bitmap.set s.bitmap := by
  subst hj
  have hpos := file.placed_position
  have hnum := file.placed_mftNumber
  by_cases hdata : data = []
  · have hnone : take = 0 := by rw [← htake, clustersToTake, if_pos hdata]
    rw [hnone, take_zero, append_nil, fsWrite, if_pos hdata]
    exact ⟨⟨rfl, rfl, rfl, rfl, .refl _ _, h⟩, rfl⟩
  cases h with
  | fresh hused =>
    rw [clustersToTake_fresh hused rfl hn hdata hplace, ← hpos] at htake
    rw [← hpos] at hplace
    rw [fsWrite_eq hdata, findAttr_fresh hn hused (by decide)]
    have hspec := createDataAttr_spec hused data.length
    generalize createDataAttr s.mem (s.slot file.mftNumber) data.length = r at hspec
    obtain ⟨attr, m₁⟩ := r
    obtain ⟨rfl, hedit, hsmall, hlarge⟩ := hspec
    by_cases hsize : data.length ≤ 3703
    · have hres := hsmall hsize
      have hn₁ : Named m₁ (s.slot file.mftNumber) :=
        hedit.named hn (FileShape.resident hres).used_mem
      have hconv : take = if 3711 < file.placed.position + data.length then
          clustersFor (max (file.placed.position + data.length) 0) else 0 := by
        rw [max_zero, ← htake]
        simp only [hsize, true_and]
      have hdone := Resident.fsWrite (s := { s with mem := m₁ }) hres hnum hn₁ htotal hplace hconv
        hcap hfree
      have hwrite : writeAttr { s with mem := m₁ } file.placed (s.slot file.mftNumber + 361) data =
          writeResident { s with mem := m₁ } file.placed (s.slot file.mftNumber + 361) data :=
        Resident.writeAttr_eq hres
      dsimp only
      rw [hwrite]
      exact ⟨hdone.1.after hedit, hdone.2⟩
    · have hruns := hlarge (by omega)
      have hn₁ : Named m₁ (s.slot file.mftNumber) := by
        refine hedit.named hn ?_
        rw [hruns.used, length_nil]
        omega
      have hnone : take = 0 := htake.symm.trans (if_neg fun hboth => hsize hboth.1)
      have hdone := writeNonResident_written (s := { s with mem := m₁ }) hnum hn₁ hruns data
      have hwrite : writeAttr { s with mem := m₁ } file.placed (s.slot file.mftNumber + 361) data =
          writeNonResident { s with mem := m₁ } file.placed (s.slot file.mftNumber + 361) data :=
        RunArray.writeAttr_eq hruns
      dsimp only
      rw [hwrite, hnone, take_zero]
      exact ⟨hdone.1.after hedit, hdone.2⟩
  | @resident n hres =>
    rw [hres.clustersToTake_eq rfl hn hdata hplace, ← hpos] at htake
    rw [← hpos] at hplace
    rw [fsWrite_found hdata (hres.findAttr hn), hres.writeAttr_eq]
    exact hres.fsWrite hnum hn htotal hplace htake.symm hcap hfree
  | runs hruns =>
    have hnone : take = 0 := by
      rw [← htake, clustersToTake, if_neg hdata, hruns.findAttr hn]
      exact if_neg fun hres => hruns.nonResident hres.1
    rw [fsWrite_found hdata (hruns.findAttr hn), hruns.writeAttr_eq, hnone, take_zero, append_nil]
    exact writeNonResident_written hnum hn hruns.toRunArray data

/-! ## Appending to resident data -/

/-- The data in the entry is `d`. -/
structure Holds (m : Mem) (e : Nat) (d : List UInt8) : Prop extends Resident m e d.length where
  data : m.readBytes (e + 377) d.length = d

variable {d : List UInt8}

/-- Data in its place in the entry: the bytes before it stay, and those behind it are gone. -/
theorem Resident.put (h : Resident m e n) (hposition : position ≤ n)
    (hfit : position + data.length ≤ 3711) (now : Nat) :
    Holds (sizeMem (residentAttr m e position data) e (position + data.length) now) e
      ((m.readBytes (e + 377) n).take position ++ data) := by
  have hres : Resident (residentAttr m e position data) e (position + data.length) := h.write hfit
  have hlen : ((m.readBytes (e + 377) n).take position ++ data).length = position + data.length := by
    rw [length_append, length_take_of_le (by rw [length_readBytes]; exact hposition)]
  generalize hm₁ : residentAttr m e position data = m₁ at hres ⊢
  have hsize : Mem.Frame _ m₁ (sizeMem m₁ e (position + data.length) now) := sizeMem_frame
  refine ⟨?_, ?_⟩
  · rw [hlen]
    exact ⟨(hsize.readLE (by omega)).trans hres.used, (hsize.readLE (by omega)).trans hres.type,
      (hsize.readLE (by omega)).trans hres.nonResident,
      (hsize.readLE (by omega)).trans hres.length, hres.cap⟩
  rw [hlen, (hsize.agree (by omega)).readBytes_eq, readBytes_append, ← hm₁]
  have hold : Mem.Agree m (residentAttr m e position data) (e + 377) position :=
    (agree_writeBytes (by omega)).trans (agree_writeLE (by omega))
  have hnew : Mem.Agree (m.writeBytes (e + 377 + position) data)
      (residentAttr m e position data) (e + 377 + position) data.length :=
    agree_writeLE (by omega)
  rw [hold.readBytes_eq, hnew.readBytes_eq, readBytes_writeBytes]
  congr 1
  rw [Mem.readBytes, Mem.readBytes, ← map_take, take_range, min_eq_left hposition]

theorem Holds.append (h : Holds m e d) (hfit : d.length + data.length ≤ 3711) (now : Nat) :
    Holds (sizeMem (residentAttr m e d.length data) e (d.length + data.length) now) e (d ++ data) := by
  have hput := h.toResident.put le_rfl hfit now
  rwa [h.data, take_length] at hput

/-- The handle behind a write that ends at `stop`. -/
def FsFile.wrote (file : FsFile) (stop : Nat) : FsFile :=
  { file.placed with position := stop, size := stop }

/-- A write has left the data `d` in the entry, and the entry on the disk. -/
structure Appends (s s' : Fs) (j : Nat) (d : List UInt8) : Prop where
  written : Written s s' j []
  bitmap : s'.bitmap = s.bitmap
  holds : Holds s'.mem (s.slot j) d
  disk : s'.disk = (writeMftEntry { s with mem := s'.mem } j).2.disk

/-- Data that fits goes behind the data of the entry. -/
protected theorem Holds.fsWrite (h : Holds s.mem (s.slot j) d) (hj : file.mftNumber = j)
    (hn : Named s.mem (s.slot j)) (hplace : file.place = d.length) (hdata : data ≠ [])
    (hfit : d.length + data.length ≤ 3711) : ∃ s',
    fsWrite s file data = (data.length, file.wrote (d.length + data.length), s') ∧
      Appends s s' j (d ++ data) := by
  subst hj
  have hpos := file.placed_position.trans hplace
  have hholds := h.append hfit s.now
  have hedit : DataEdit s.mem (sizeMem (residentAttr s.mem (s.slot file.mftNumber) d.length data)
      (s.slot file.mftNumber) (d.length + data.length) s.now) (s.slot file.mftNumber) :=
    (residentAttr_edit hfit).sizeMem
  have hwrite : fsWrite s file data = _ :=
    (fsWrite_found hdata (h.findAttr hn)).trans (h.writeAttr_eq.trans
      (writeResident_eq file.placed_mftNumber hn h.toResident (hpos ▸ hfit)))
  rw [hpos] at hwrite
  generalize sizeMem (residentAttr s.mem (s.slot file.mftNumber) d.length data)
    (s.slot file.mftNumber) (d.length + data.length) s.now = m' at hholds hedit hwrite
  exact ⟨(writeMftEntry { s.tick with mem := m' } file.mftNumber).2, hwrite,
    ⟨rfl, rfl, rfl, rfl, hedit, .resident hholds.toResident⟩, rfl, hholds, rfl⟩

/-- The first data of a file, when the entry has room for it. -/
theorem fsWrite_fresh (h : mftUsedSize s.mem (s.slot j) = 369) (hj : file.mftNumber = j)
    (hn : Named s.mem (s.slot j)) (hplace : file.place = 0) (hdata : data ≠ [])
    (hfit : data.length ≤ 3703) : ∃ s',
    OpenSys.fsWrite s file data = (data.length, file.wrote data.length, s') ∧
      Appends s s' j data := by
  subst hj
  have hspec := createDataAttr_spec h data.length
  have hnone := findAttr_fresh hn h (t := attrData) (by decide)
  have heq : OpenSys.fsWrite s file data = _ := fsWrite_eq hdata
  rw [hnone] at heq
  generalize createDataAttr s.mem (s.slot file.mftNumber) data.length = r at hspec heq
  obtain ⟨attr, m₁⟩ := r
  obtain ⟨rfl, hedit, hsmall, -⟩ := hspec
  have hres : Resident m₁ (s.slot file.mftNumber) 0 := hsmall hfit
  have hn₁ : Named m₁ (s.slot file.mftNumber) := hedit.named hn (FileShape.resident hres).used_mem
  -- The new attribute is what a write on an empty one finds.
  have hsame : OpenSys.fsWrite { s with mem := m₁ } file data = OpenSys.fsWrite s file data := by
    rw [heq]
    exact fsWrite_found (s := { s with mem := m₁ }) hdata (hres.findAttr hn₁)
  have hempty : Holds m₁ (s.slot file.mftNumber) [] := ⟨hres, rfl⟩
  obtain ⟨s', hwrite, ha⟩ := Holds.fsWrite (s := { s with mem := m₁ }) hempty rfl hn₁
    hplace hdata (by rw [length_nil]; omega)
  rw [hsame, length_nil, zero_add] at hwrite
  exact ⟨s', hwrite, ha.written.after hedit, ha.bitmap, ha.holds, ha.disk⟩

end Write

/-! ## Truncating -/

section Truncate

variable {s : Fs} {i attr : Nat}

theorem truncateFold_eq {runs keep seen c : Nat} (l : List Nat) : ∃ b, l.foldl (fun s j =>
      if keep ≤ seen + j then freeCluster s (u64 (runStart s.mem runs c + j)) else s) s =
        { s with bitmap := b } := by
  induction l generalizing s with
  | nil => exact ⟨s.bitmap, rfl⟩
  | cons j l ih =>
    rw [foldl_cons]
    split_ifs
    · obtain ⟨b, hb⟩ := freeCluster_eq (s := s) (u64 (runStart s.mem runs c + j))
      rw [hb]
      exact ih (s := { s with bitmap := b })
    · exact ih

theorem truncateRuns_eq {runs keep n seen k : Nat} :
    ∃ b, truncateRuns s runs keep n seen k = { s with bitmap := b } := by
  induction k generalizing s n seen with
  | zero => exact ⟨s.bitmap, rfl⟩
  | succ k ih =>
    rw [truncateRuns]
    split_ifs
    · exact ⟨s.bitmap, rfl⟩
    dsimp only
    obtain ⟨b, hb⟩ := truncateFold_eq (s := s) (List.range (runLength s.mem runs n))
    rw [hb]
    exact ih (s := { s with bitmap := b })

/-- The truncation of a data attribute changes its length or its sizes, and the bitmap. -/
theorem truncateData_eq (s : Fs) (attr size : Nat) : ∃ m b,
    truncateData s attr size = { s with mem := m, bitmap := b } ∧ (attrNonResident s.mem attr ≠ 0 →
        Mem.Frame (fun x => attr + 48 ≤ x ∧ x < attr + 64) s.mem m) ∧
      Mem.Frame (fun x => attr ≤ x) s.mem m := by
  unfold truncateData
  split_ifs with hres
  · dsimp only
    obtain ⟨b, hb⟩ : ∃ b, truncateRuns s (attr + nrRunOffset s.mem (attr + attrHeaderSize))
        (u64 (size + fsClusterSize - 1) / fsClusterSize) 0 0
        (unlinkRunCount s.mem attr (attr + attrHeaderSize)) = { s with bitmap := b } :=
      truncateRuns_eq
    rw [hb]
    have hframe : Mem.Frame (fun x => attr + 48 ≤ x ∧ x < attr + 64) s.mem
        ((s.mem.writeLE (attr + attrHeaderSize + 32) 8 size).writeLE (attr + attrHeaderSize + 40) 8
          size) := by
      rw [attrHeaderSize]
      exact ((Frame.refl _ _).writeLE (by omega)).writeLE (by omega)
    exact ⟨_, b, rfl, fun _ => hframe, hframe.mono (by omega)⟩
  · exact ⟨_, s.bitmap, rfl, fun h => absurd h hres, (Frame.refl _ _).writeLE (by omega)⟩

end Truncate

end OpenSys
