-- SUMMARY: What a write leaves of a file when there are no clusters for it.
import OpenSys.Fs.Splice

/-!
# Writing on a full volume

Only a conversion can return less than it was asked for: a write in the entry has its room, and a
write to clusters runs through its rounds whether or not clusters were found for them. A conversion
that finds some clusters moves the old data into the first of them. One that finds none has changed
the attribute already: it has no runs and the size 0, and the old data lies under its new header.
-/

namespace OpenSys

open Mem List

variable {s : Fs} {i j n needed : Nat} {cs : List Nat} {file : FsFile} {data content : List UInt8}

/-! ## Writes of full length -/

/-- A write to clusters returns its length, whatever the clusters are. -/
theorem writeNonResident_full {attr : Nat} (hsmall : file.position + data.length + 4095 < 2 ^ 64) :
    (writeNonResident s file attr data).1 = data.length := by
  rw [writeNonResident]
  dsimp only
  generalize allocRuns _ _ _ _ = r
  obtain ⟨allocated, s₁⟩ := r
  dsimp only
  generalize attr + nrRunOffset s.mem (attr + attrHeaderSize) = runs
  obtain ⟨op, hop₀, hop⟩ := exists_writeOps s₁ runs file.position data.length
  obtain ⟨d, hrun, -⟩ := @writeRuns_spec s₁ runs file.position data op
    (u64 (file.position + data.length + fsClusterSize - 1) / fsClusterSize) 0 s₁.disk
    (fun i _ => hop i) rfl hop₀.symm (by
      rw [u64, fsClusterSize, roundStart]
      split_ifs <;> omega)
  have hstart : min (roundStart file.position 0) data.length = 0 := by
    rw [roundStart]
    simp
  rw [hstart] at hrun
  rw [hrun]

/-- A write that takes no clusters returns its length. -/
theorem FileShape.fsWrite_full (h : FileShape s.mem (s.slot file.mftNumber) cs)
    (hn : Named s.mem (s.slot file.mftNumber)) (hsmall : file.place + data.length + 4095 < 2 ^ 64)
    (hdata : data ≠ []) (htake : clustersToTake s file data = 0) :
    (fsWrite s file data).1 = data.length := by
  have hnumber := file.placed_mftNumber
  have hposition := file.placed_position
  have hpos := fun size => (clustersFor_pos size).ne'
  cases h with
  | fresh hused =>
    rw [clustersToTake_fresh hused rfl hn hdata (by omega)] at htake
    obtain ⟨hattr, hedit, hres, hruns⟩ := createDataAttr_spec hused data.length
    have heq := @fsWrite_eq s file data hdata
    rw [findAttr_fresh hn hused (by decide)] at heq
    generalize createDataAttr s.mem (s.slot file.mftNumber) data.length = r at heq hattr hedit hres hruns
    obtain ⟨attr, m⟩ := r
    dsimp only at heq hattr hedit hres hruns
    subst hattr
    rw [heq]
    by_cases hlen : data.length ≤ 3703
    · have hres' : Resident ({ s with mem := m } : Fs).mem (s.slot file.mftNumber) 0 := hres hlen
      have hfit : ¬ 3711 < file.place + data.length := fun hbig => by
        rw [if_pos ⟨hlen, hbig⟩] at htake
        exact hpos _ htake
      have hn' : Named m (s.slot file.mftNumber) := hedit.named hn (FileShape.resident (hres hlen)).used_mem
      have hwrite := @writeResident_eq { s with mem := m } _ file.placed data _ hnumber hn' hres'
        (by rw [hposition]; omega)
      rw [hres'.writeAttr_eq]
      exact congrArg Prod.fst hwrite
    · have hruns' : RunArray ({ s with mem := m } : Fs).mem (s.slot file.mftNumber) [] :=
        hruns (by omega)
      rw [hruns'.writeAttr_eq]
      exact writeNonResident_full (by rw [hposition]; exact hsmall)
  | resident hres =>
    rw [hres.clustersToTake_eq rfl hn hdata (by omega)] at htake
    have hfit : ¬ 3711 < file.place + data.length := fun hbig => by
      rw [if_pos hbig] at htake
      exact hpos _ htake
    rw [fsWrite_found hdata (hres.findAttr hn), hres.writeAttr_eq,
      writeResident_eq hnumber hn hres (by rw [hposition]; omega)]
  | runs hruns =>
    rw [fsWrite_found hdata (hruns.findAttr hn), hruns.writeAttr_eq]
    exact writeNonResident_full (by rw [hposition]; exact hsmall)

/-! ## A conversion without clusters -/

/-- The header that a conversion starts with names no cluster and no bytes. -/
theorem convertAttr_bare {m : Mem} {attr : Nat} : attrNonResident (convertAttr m attr needed) attr ≠ 0 ∧
    nrAllocatedSize (convertAttr m attr needed) (attr + attrHeaderSize) = 0 ∧
    nrRealSize (convertAttr m attr needed) (attr + attrHeaderSize) = 0 := by
  unfold convertAttr attrHeaderSize attrNonresidentSize
  refine ⟨?_, ?_, ?_⟩
  · simp (disch := omega) only [attrNonResident, readLE_writeLE_of_disjoint]
    rw [readLE_writeLE (by omega)]
    decide
  · simp (disch := omega) only [nrAllocatedSize, readLE_writeLE_of_disjoint]
    exact readLE_writeLE (by omega)
  · simp (disch := omega) only [nrRealSize, readLE_writeLE_of_disjoint]
    exact readLE_writeLE (by omega)

/-- The file after a conversion that found no cluster: its data is gone. -/
theorem converted_empty (h : Resident s.mem (s.slot j) n) (hn : Named s.mem (s.slot j)) {m' : Mem}
    (hm : m' = convertAttr s.mem (s.slot j + 361) needed) :
    ({ s with mem := m' } : Fs).contents j = [] ∧
      (({ s with mem := m' } : Fs).filename j).map (fnRealSize m') = (s.filename j).map (fnRealSize s.mem) ∧
      ({ s with mem := m' } : Fs).attrSize j = some 0 := by
  have hframe : Mem.Frame _ s.mem m' := hm ▸ convertAttr_frame
  obtain ⟨hnon, halloc, hreal⟩ := @convertAttr_bare needed s.mem (s.slot j + 361)
  rw [← hm] at hnon halloc hreal
  clear hm
  have hused : mftUsedSize m' (s.slot j) = 385 := (hframe.readLE (by omega)).trans h.used
  have htype : attrType m' (s.slot j + 361) = attrData := (hframe.readLE (by omega)).trans h.type
  have hedit : DataEdit s.mem m' (s.slot j) := DataEdit.of_tail (hframe.mono (by omega))
  have hn' : Named m' (s.slot j) := hedit.named hn (by omega)
  have hattr : findAttr m' (s.slot j) attrData = some (s.slot j + 361) :=
    findAttr_data hn' (by omega) htype
  have hrecord : (({ s with mem := m' } : Fs).filename j) = some (s.slot j + 48) :=
    Named.filename (s := { s with mem := m' }) hn'
  have hclusters : dataClusters m' (s.slot j) = [] := by
    rw [dataClusters, hattr]
    dsimp only
    rw [if_neg hnon, halloc, Nat.zero_div, Nat.zero_min]
    rfl
  have hdata : ({ s with mem := m' } : Fs).dataBytes j = [] := by
    have hslot : ({ s with mem := m' } : Fs).slot j = s.slot j := rfl
    rw [Fs.dataBytes, hslot, hattr]
    dsimp only
    rw [if_neg hnon]
    change (dataClusters m' (s.slot j)).flatMap _ = []
    rw [hclusters, flatMap_nil]
  refine ⟨?_, ?_, ?_⟩
  · rw [Fs.contents, hdata, take_nil]
  · rw [hn.filename, hrecord]
    exact congrArg some (hframe.readLE (by omega))
  change (findAttr m' (s.slot j) attrData).map _ = _
  rw [hattr, Option.map_some]
  dsimp only
  rw [if_neg hnon, hreal]

/-- A conversion on a volume without a free cluster: nothing is written, and nothing is left. -/
theorem Resident.writeResident_lost (h : Resident s.mem (s.slot j) n) (hj : file.mftNumber = j)
    (hn : Named s.mem (s.slot j)) (hsmall : file.position + data.length < 2 ^ 64)
    (hbig : 3711 < file.position + data.length) (hfree : s.freeClusters = []) : ∃ s',
    writeResident s file (s.slot j + 361) data = (0, file, s') ∧ s'.contents j = [] ∧
      (s'.filename j).map (fnRealSize s'.mem) = (s.filename j).map (fnRealSize s.mem) ∧
      s'.attrSize j = some 0 := by
  rw [h.writeResident_converts hj hsmall hbig, convertResident_none hj h rfl hfree]
  exact ⟨_, rfl, converted_empty h hn rfl⟩

/-! ## The call -/

/-- A write that returns less than it was asked for keeps the old content outside the part it has
written, and every size is that of the result. -/
def KeepsRest (s : Fs) (file : FsFile) (data : List UInt8) : Prop :=
  let old := s.contents file.mftNumber
  let r := fsWrite s file data
  r.1 < data.length → r.2.2.Describes file.mftNumber
    (old.take file.place ++ data.take r.1 ++ old.drop (file.place + r.1))

/-- What a conversion needs to keep the content: a free cluster, and clusters outside the MFT for as
many of the runs as there are; the disk carries out its operations. -/
structure ConvertOk (s : Fs) (file : FsFile) (data : List UInt8) : Prop where
  free : s.freeClusters ≠ []
  fits : s.DiskFits
  cap : clustersToTake s file data ≤ 228
  outside : ∀ c ∈ s.freeClusters.take (clustersToTake s file data), ¬ s.mftCluster c

/-- A write behind the one byte of a file, too long for the entry, with every cluster taken: it
returns 0, and the byte is gone. -/
theorem lost_behind_byte {s : Fs} (hn : Named s.mem (s.slot 16)) (hres : Resident s.mem (s.slot 16) 1)
    (hold : s.contents 16 = [7]) (hfree : s.freeClusters = []) {data : List UInt8}
    (hlen : data.length = 4000) : (fsWrite s ⟨16, 1, 1, 1⟩ data).1 = 0 ∧
      (fsWrite s ⟨16, 1, 1, 1⟩ data).2.2.contents 16 = [] ∧ ¬ KeepsRest s ⟨16, 1, 1, 1⟩ data := by
  have hdata : data ≠ [] := ne_nil_of_length_pos (by omega)
  obtain ⟨s', hlost, hgone, -⟩ := @Resident.writeResident_lost s 16 1 ⟨16, 1, 1, 1⟩ data hres rfl hn
    (by change 1 + data.length < 2 ^ 64; omega) (by change 3711 < 1 + data.length; omega) hfree
  have hplaced : FsFile.placed ⟨16, 1, 1, 1⟩ = ⟨16, 1, 1, 1⟩ := rfl
  have hput : fsWrite s ⟨16, 1, 1, 1⟩ data = (0, ⟨16, 1, 1, 1⟩, s') := by
    have hfound := @fsWrite_found s ⟨16, 1, 1, 1⟩ data _ hdata (hres.findAttr hn)
    rw [hfound, hplaced, hres.writeAttr_eq, hlost]
  rw [KeepsRest, hput, hold]
  refine ⟨rfl, hgone, fun hkeeps => ?_⟩
  have hkept : s'.contents 16 = [7] := (hkeeps (length_pos_iff.mpr hdata)).contents
  exact absurd (hgone.symm.trans hkept) (by decide)

end OpenSys
