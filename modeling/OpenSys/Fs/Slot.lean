-- SUMMARY: What the entry functions of fs.c do to a slot.
import OpenSys.Fs.Model

/-!
# Slots

An entry made by `fs.c` has its filename attribute at offset 32 and everything else
behind it, from offset 361 on. Index updates stay behind that offset, so they keep the
name, the parent and the flags of the directory they work on.
-/

namespace OpenSys

open Mem

variable {m m' m'' : Mem} {e p t : Nat}

/-! ## Attribute lookup -/

theorem findAttrLoop_bounds {stop fuel a : Nat} (h : findAttrLoop m t stop fuel p = some a) :
    p ≤ a ∧ a + 16 ≤ stop := by
  induction fuel generalizing p with
  | zero => cases h
  | succ fuel ih =>
    rw [findAttrLoop] at h
    split_ifs at h with hstop htype heq hshort hlong
    · cases h
      rw [attrHeaderSize] at hstop
      omega
    · have := ih h
      omega

/-- An attribute that is found has its header inside the slot. -/
theorem findAttr_bounds {a : Nat} (h : findAttr m e t = some a) :
    e + 32 ≤ a ∧ a + 16 ≤ e + mftUsedSize m e ∧ mftUsedSize m e ≤ 4096 := by
  unfold findAttr at h
  dsimp only at h
  split_ifs at h with hoff hused
  obtain ⟨hle, hend⟩ := findAttrLoop_bounds h
  rw [mftHeaderSize] at hoff
  rw [mftEntrySize] at hused
  omega

theorem findAttrLoop_congr {stop fuel : Nat} (h : Mem.Agree m m' p (stop - p)) :
    findAttrLoop m' t stop fuel p = findAttrLoop m t stop fuel p := by
  induction fuel generalizing p with
  | zero => rfl
  | succ fuel ih =>
    by_cases hstop : stop < p + attrHeaderSize
    · rw [findAttrLoop, findAttrLoop, if_pos hstop, if_pos hstop]
    rw [attrHeaderSize] at hstop
    have htype : attrType m' p = attrType m p := (h.mono (by omega)).readLE_eq
    have hlen : attrLength m' p = attrLength m p := h.readLE (by omega)
    rw [findAttrLoop, findAttrLoop, htype, hlen]
    by_cases hlong : stop < p + attrLength m p
    · simp only [hlong, if_true]
    · rw [ih (h.mono (by omega))]

/-- The lookup reads nothing outside the slot. -/
theorem findAttr_congr (h : Mem.Agree m m' e 4096) : findAttr m' e t = findAttr m e t := by
  have hoff : mftSeqAttrOffset m' e = mftSeqAttrOffset m e := h.readLE (by omega)
  have hused : mftUsedSize m' e = mftUsedSize m e := h.readLE (by omega)
  unfold findAttr
  dsimp only
  rw [hoff, hused]
  split_ifs with hrange hsize
  · rfl
  · rfl
  · rw [mftEntrySize] at hrange hsize
    exact findAttrLoop_congr (h.mono (by omega))

/-! ## Entries that start with their name -/

/-- The entry starts with a filename attribute of the usual size. -/
structure Named (m : Mem) (e : Nat) : Prop where
  offset : mftSeqAttrOffset m e = 32
  used : 369 ≤ mftUsedSize m e
  used_le : mftUsedSize m e ≤ 4096
  type : attrType m (e + 32) = attrFilename
  length : attrLength m (e + 32) = 329

namespace Named

variable (h : Named m e)

include h

theorem findAttr_eq : findAttr m e t = findAttrLoop m t (e + mftUsedSize m e) 256 (e + 32) := by
  have hu := h.used
  have hle := h.used_le
  simp only [findAttr, h.offset, mftHeaderSize, mftEntrySize, attrFuel]
  rw [if_neg (by omega), if_neg (by omega)]

theorem findAttr_filename : findAttr m e attrFilename = some (e + 32) := by
  have hu := h.used
  rw [h.findAttr_eq, findAttrLoop, if_neg (by rw [attrHeaderSize]; omega), if_pos (.inr h.type),
    if_pos h.type]

/-- Every other attribute is searched behind the name. -/
theorem findAttr_rest (ht : t ≠ attrFilename) :
    findAttr m e t = findAttrLoop m t (e + mftUsedSize m e) 255 (e + 361) := by
  have hu := h.used
  have hne : ¬ (attrFilename = attrEnd ∨ attrFilename = t) := by
    rintro (heq | heq)
    · simp [attrFilename, attrEnd] at heq
    · exact ht heq.symm
  rw [h.findAttr_eq, findAttrLoop, if_neg (by rw [attrHeaderSize]; omega), h.type, if_neg hne,
    h.length, if_neg (by decide), if_neg (by omega)]

theorem findAttrPayload_filename : findAttrPayload m e attrFilename = some (e + 48) := by
  rw [findAttrPayload, h.findAttr_filename, Option.map_some, attrHeaderSize]

theorem findAttr_index {a : Nat} (ha : findAttr m e attrIndexRoot = some a) :
    e + 361 ≤ a ∧ a + 16 ≤ e + 4096 := by
  have hle := h.used_le
  rw [h.findAttr_rest (by decide)] at ha
  obtain ⟨hlo, hhi⟩ := findAttrLoop_bounds ha
  exact ⟨hlo, by omega⟩

end Named

theorem Named.congr (h : Named m e) (hm : Mem.Agree m m' e 48) : Named m' e := by
  have hu : mftUsedSize m' e = mftUsedSize m e := hm.readLE (by omega)
  exact ⟨(hm.readLE (by omega)).trans h.offset, hu ▸ h.used, hu ▸ h.used_le,
    (hm.readLE (by omega)).trans h.type,
    (hm.readLE (by omega)).trans h.length⟩

/-- The part of an entry up to the end of its name is the same in both memories, but for
    its used size, which is in range. -/
structure HeadKept (m m' : Mem) (e : Nat) : Prop where
  start : Mem.Agree m m' e 8
  rest : Mem.Agree m m' (e + 12) 349
  used : 369 ≤ mftUsedSize m' e
  used_le : mftUsedSize m' e ≤ 4096

namespace HeadKept

theorem of_agree (h : Named m e) (hm : Mem.Agree m m' e 4096) : HeadKept m m' e := by
  have hu : mftUsedSize m' e = mftUsedSize m e := hm.readLE (by omega)
  exact ⟨hm.mono (by omega), hm.mono (by omega), hu ▸ h.used, hu ▸ h.used_le⟩

theorem trans (h : HeadKept m m' e) (h' : HeadKept m' m'' e) : HeadKept m m'' e :=
  ⟨h.start.trans h'.start, h.rest.trans h'.rest, h'.used, h'.used_le⟩

variable (h : HeadKept m m' e)

include h

theorem flags_eq : mftFlags m' e = mftFlags m e := h.start.readLE (by omega)

theorem mftNumber_eq : mftNumber m' e = mftNumber m e := h.rest.readLE (by omega)

theorem parent_eq : fnParentMft m' (e + 48) = fnParentMft m (e + 48) := h.rest.readLE (by omega)

theorem realSize_eq : fnRealSize m' (e + 48) = fnRealSize m (e + 48) := h.rest.readLE (by omega)

theorem name_eq : fnFilename m' (e + 48) = fnFilename m (e + 48) := by
  have hlen : fnFilenameLength m' (e + 48) = fnFilenameLength m (e + 48) := h.rest.readLE (by omega)
  have hlt : fnFilenameLength m (e + 48) < 256 := readLE_lt m _ 1
  rw [fnFilename, fnFilename, hlen]
  exact (h.rest.mono (by omega)).readBytes_eq

theorem named (hn : Named m e) : Named m' e where
  offset := (h.start.readLE (by omega)).trans hn.offset
  used := h.used
  used_le := h.used_le
  type := (h.rest.readLE (by omega)).trans hn.type
  length := (h.rest.readLE (by omega)).trans hn.length

end HeadKept

/-! ## New entries -/

section NewEntry

variable {now i flags parent : Nat} {name : List UInt8}

/-- The header of a new entry, before it has a name. -/
structure Initialised (m : Mem) (e i flags : Nat) : Prop where
  offset : mftSeqAttrOffset m e = 32
  flags : mftFlags m e = flags
  number : mftNumber m e = i
  used : mftUsedSize m e = 40

theorem initMftEntry_spec (hi : i < 2 ^ 32) (hflags : flags < 2 ^ 16) :
    Initialised (initMftEntry m e i flags) e i (flags ||| mftFlagInUse) where
  offset := by
    simp (disch := omega) only [initMftEntry, setEnd, mftSeqAttrOffset, mftHeaderSize,
      readLE_writeLE_of_disjoint]
    exact readLE_writeLE (by omega)
  flags := by
    simp (disch := omega) only [initMftEntry, setEnd, mftFlags, mftHeaderSize,
      readLE_writeLE_of_disjoint]
    exact readLE_writeLE (Nat.or_lt_two_pow (n := 16) hflags (by decide))
  number := by
    simp (disch := omega) only [initMftEntry, setEnd, mftNumber, mftHeaderSize,
      readLE_writeLE_of_disjoint]
    exact readLE_writeLE hi
  used := by
    simp only [initMftEntry, setEnd, mftUsedSize, mftHeaderSize]
    rw [readLE_writeLE (by omega)]
    omega

theorem initMftEntry_frame : Mem.Frame (fun x => e ≤ x ∧ x < e + 40) m (initMftEntry m e i flags) := by
  unfold initMftEntry setEnd mftHeaderSize
  repeat refine Frame.writeLE ?_ (by omega)
  exact Frame.refl _ _

variable {fn attr type length : Nat}

theorem writeFilename_frame (hname : name.length ≤ 255) :
    Mem.Frame (fun x => fn ≤ x ∧ x < fn + 313) m (writeFilename m fn parent now name) := by
  unfold writeFilename
  refine Frame.writeBytes ?_ (by omega)
  repeat refine Frame.writeLE ?_ (by omega)
  exact Frame.refl _ _

/-- The record that `writeFilename` leaves. -/
structure Record (m : Mem) (fn parent : Nat) (name : List UInt8) : Prop where
  parent : fnParentMft m fn = parent
  realSize : fnRealSize m fn = 0
  name : fnFilename m fn = name

theorem writeFilename_spec (hparent : parent < 2 ^ 64) (hname : name.length ≤ 255) :
    Record (writeFilename m fn parent now name) fn parent name where
  parent := by
    simp (disch := omega) only [writeFilename, fnParentMft, readLE_writeBytes_of_disjoint,
      readLE_writeLE_of_disjoint]
    exact readLE_writeLE hparent
  realSize := by
    simp (disch := omega) only [writeFilename, fnRealSize, readLE_writeBytes_of_disjoint,
      readLE_writeLE_of_disjoint]
    exact readLE_writeLE (by omega)
  name := by
    have hlen : fnFilenameLength (writeFilename m fn parent now name) fn = name.length := by
      simp (disch := omega) only [writeFilename, fnFilenameLength,
        readLE_writeBytes_of_disjoint, readLE_writeLE_of_disjoint]
      exact readLE_writeLE (by omega)
    rw [fnFilename, hlen, writeFilename]
    exact readBytes_writeBytes

theorem Record.of_agree (h : Record m fn parent name) (hm : Mem.Agree m m' fn 313) :
    Record m' fn parent name where
  parent := (hm.readLE (by omega)).trans h.parent
  realSize := (hm.readLE (by omega)).trans h.realSize
  name := by
    have hlen : fnFilenameLength m' fn = fnFilenameLength m fn := hm.readLE (by omega)
    have hlt : fnFilenameLength m fn < 256 := readLE_lt m _ 1
    rw [← h.name, fnFilename, fnFilename, hlen]
    exact (hm.mono (by omega)).readBytes_eq

theorem setEnd_frame {stop : Nat} : Mem.Frame
    (fun x => (e + 8 ≤ x ∧ x < e + 12) ∨ (stop ≤ x ∧ x < stop + 8)) m (setEnd m e stop) := by
  unfold setEnd
  repeat refine Frame.writeLE ?_ (by omega)
  exact Frame.refl _ _

theorem setEnd_used {stop : Nat} (h : stop + 8 - e < 2 ^ 32) :
    mftUsedSize (setEnd m e stop) e = stop + 8 - e :=
  readLE_writeLE h

theorem writeAttrHeader_frame : Mem.Frame
    (fun x => (e + 24 ≤ x ∧ x < e + 26) ∨ (attr ≤ x ∧ x < attr + 16)) m
    (writeAttrHeader m e attr type length) := by
  unfold writeAttrHeader
  repeat refine Frame.writeLE ?_ (by omega)
  exact Frame.refl _ _

theorem writeAttrHeader_type (h : e + 26 ≤ attr) (ht : type < 2 ^ 32) :
    attrType (writeAttrHeader m e attr type length) attr = type := by
  simp (disch := omega) only [writeAttrHeader, attrType, readLE_writeLE_of_disjoint]
  exact readLE_writeLE ht

theorem writeAttrHeader_length (h : e + 26 ≤ attr) (hl : length < 2 ^ 32) :
    attrLength (writeAttrHeader m e attr type length) attr = length := by
  simp (disch := omega) only [writeAttrHeader, attrLength, readLE_writeLE_of_disjoint]
  exact readLE_writeLE hl

/-- An entry as it is created. -/
structure NewEntry (m : Mem) (e i flags parent : Nat) (name : List UInt8) : Prop where
  named : Named m e
  flags : mftFlags m e = flags
  number : mftNumber m e = i
  record : Record m (e + 48) parent name

theorem addFilenameAttr_eq (h : mftUsedSize m e = 40) : addFilenameAttr m now e name parent =
    setEnd (writeAttrHeader (writeFilename m (e + 48) parent now (name.take maxFilenameLen)) e
      (e + 32) attrFilename 329) e (e + 361) := by
  have hbase : e + 40 - 8 = e + 32 := by omega
  simp only [addFilenameAttr, h, hbase, attrHeaderSize, attrFilenameSize, Nat.add_assoc,
    Nat.reduceAdd]

theorem addFilenameAttr_frame (h : mftUsedSize m e = 40) : Mem.Frame
    (fun x => e + 8 ≤ x ∧ x < e + 12 ∨ e + 24 ≤ x ∧ x < e + 26 ∨ e + 32 ≤ x ∧ x < e + 369) m
    (addFilenameAttr m now e name parent) := by
  have hlen : (name.take maxFilenameLen).length ≤ 255 := List.length_take_le _ _
  rw [addFilenameAttr_eq h]
  exact (((writeFilename_frame hlen).mono (by omega)).trans
    (writeAttrHeader_frame.mono (by omega))).trans (setEnd_frame.mono (by omega))

theorem addFilenameAttr_used (h : mftUsedSize m e = 40) :
    mftUsedSize (addFilenameAttr m now e name parent) e = 369 := by
  rw [addFilenameAttr_eq h, setEnd_used (by omega)]
  omega

theorem NewEntry.of_headKept (h : NewEntry m e i flags parent name) (hk : HeadKept m m' e) :
    NewEntry m' e i flags parent name :=
  ⟨hk.named h.named, hk.flags_eq.trans h.flags, hk.mftNumber_eq.trans h.number,
    h.record.of_agree (hk.rest.mono (by omega))⟩

theorem addFilenameAttr_spec (h : Initialised m e i flags) (hparent : parent < 2 ^ 64) :
    NewEntry (addFilenameAttr m now e name parent) e i flags parent (name.take maxFilenameLen) := by
  have hframe : Mem.Frame _ m (addFilenameAttr m now e name parent) := addFilenameAttr_frame h.used
  have hused : mftUsedSize (addFilenameAttr m now e name parent) e = 369 :=
    addFilenameAttr_used h.used
  -- The record and the attribute header lie before the end marker.
  have hend : Mem.Agree (writeAttrHeader (writeFilename m (e + 48) parent now
      (name.take maxFilenameLen)) e (e + 32) attrFilename 329)
      (addFilenameAttr m now e name parent) (e + 32) 329 := by
    rw [addFilenameAttr_eq h.used]
    exact setEnd_frame.agree (by omega)
  refine ⟨⟨?_, by omega, by omega, ?_, ?_⟩, ?_, ?_, ?_⟩
  · exact (hframe.readLE (by omega)).trans h.offset
  · exact (hend.readLE (by omega)).trans (writeAttrHeader_type (by omega) (by decide))
  · exact (hend.readLE (by omega)).trans (writeAttrHeader_length (by omega) (by decide))
  · exact (hframe.readLE (by omega)).trans h.flags
  · exact (hframe.readLE (by omega)).trans h.number
  · have hrec : Record (writeFilename m (e + 48) parent now _) (e + 48) parent _ :=
      writeFilename_spec hparent (List.length_take_le maxFilenameLen name)
    exact (hrec.of_agree (writeAttrHeader_frame.agree (by omega))).of_agree
      (hend.mono (by omega))

theorem addIndexRootAttr_frame (h : mftUsedSize m e = 369) : Mem.Frame
    (fun x => e + 8 ≤ x ∧ x < e + 12 ∨ e + 24 ≤ x ∧ x < e + 26 ∨ e + 361 ≤ x ∧ x < e + 401) m
    (addIndexRootAttr m e) := by
  have hbase : e + 369 - 8 = e + 361 := by omega
  simp only [addIndexRootAttr, h, hbase, attrHeaderSize, indexRootSize]
  refine Frame.trans ?_ (setEnd_frame.mono (by omega))
  refine Frame.trans ?_ (writeAttrHeader_frame.mono (by omega))
  repeat refine Frame.writeLE ?_ (by omega)
  exact Frame.refl _ _

/-- The index of a new directory is empty. -/
structure EmptyIndex (m : Mem) (e : Nat) : Prop where
  used : mftUsedSize m e = 401
  type : attrType m (e + 361) = attrIndexRoot
  length : attrLength m (e + 361) = 32

theorem addIndexRootAttr_spec (h : mftUsedSize m e = 369) : EmptyIndex (addIndexRootAttr m e) e := by
  have hbase : e + 369 - 8 = e + 361 := by omega
  have hend (m : Mem) (k n : Nat) (hlo : e + 361 ≤ k) (hhi : k + n ≤ e + 393) :
      Mem.readLE (setEnd m e (e + 393)) k n = Mem.readLE m k n :=
    setEnd_frame.readLE (by omega)
  simp only [addIndexRootAttr, h, hbase, attrHeaderSize, indexRootSize, Nat.add_assoc,
    Nat.reduceAdd]
  refine ⟨?_, ?_, ?_⟩
  · rw [setEnd_used (by omega)]
    omega
  · exact (hend _ _ _ (by omega) (by omega)).trans (writeAttrHeader_type (by omega) (by decide))
  · exact (hend _ _ _ (by omega) (by omega)).trans (writeAttrHeader_length (by omega) (by decide))

end NewEntry

/-! ## Index updates -/

/-- From `m` to `m'` the directory entry changes behind its name only, and stays in its
    slot. -/
structure IndexEdit (m m' : Mem) (e : Nat) : Prop where
  frame : Mem.Frame (fun x => e + 8 ≤ x ∧ x < e + 12 ∨ e + 361 ≤ x ∧ x < e + 4096) m m'
  used : 369 ≤ mftUsedSize m' e
  used_le : mftUsedSize m' e ≤ 4096

namespace IndexEdit

theorem refl (h : Named m e) : IndexEdit m m e := ⟨Frame.refl _ _, h.used, h.used_le⟩

theorem headKept (h : IndexEdit m m' e) : HeadKept m m' e :=
  ⟨h.frame.agree (by omega), h.frame.agree (by omega), h.used, h.used_le⟩

/-- A change behind the name that leaves the used size alone. -/
theorem of_frame (hn : Named m e)
    (h : Mem.Frame (fun x => e + 361 ≤ x ∧ x < e + 4096) m m') : IndexEdit m m' e := by
  have hused : mftUsedSize m' e = mftUsedSize m e := h.readLE (by omega)
  exact ⟨h.mono (by omega), hused ▸ hn.used, hused ▸ hn.used_le⟩

end IndexEdit

section Index

variable {child stop lo fuel now : Nat} {name : List UInt8}

/-- The walk changes nothing but the flags of an entry before `stop`, and the new entry
    goes behind where the walk began. -/
theorem insertWalk_frame (lo : Nat) {last insert ins : Nat}
    (h : insertWalk m child stop fuel last insert = some (ins, m')) (hlast : lo ≤ last)
    (hinsert : lo ≤ insert) : lo ≤ ins ∧ Mem.Frame (fun x => lo ≤ x ∧ x < stop) m m' := by
  induction fuel generalizing last insert with
  | zero =>
    cases h
    exact ⟨hinsert, Frame.refl _ _⟩
  | succ fuel ih =>
    rw [insertWalk] at h
    split_ifs at h with hin hflag hchild
    · cases h
      rw [indexEntrySize] at hin
      exact ⟨by omega, (Frame.refl _ _).writeLE (by omega)⟩
    · exact ih h (by omega) (by omega)
    · cases h
      exact ⟨hinsert, Frame.refl _ _⟩

variable {ie hi : Nat} {prev : Option Nat}

theorem writeIndexEntry_frame {parent : Nat} (hname : name.length ≤ 255) :
    Mem.Frame (fun x => ie ≤ x ∧ x < ie + 329) m (writeIndexEntry m ie child parent now name) := by
  unfold writeIndexEntry
  refine Frame.trans ?_ ((writeFilename_frame hname).mono (by omega))
  repeat refine Frame.writeLE ?_ (by omega)
  exact Frame.refl _ _

theorem addDirEntry_edit (hn : Named m e) : IndexEdit m (addDirEntry m now e child name).2 e := by
  rw [addDirEntry]
  cases hattr : findAttr m e attrIndexRoot with
  | none => exact .refl hn
  | some a =>
    obtain ⟨hlo, hhi⟩ := hn.findAttr_index hattr
    dsimp only
    split_ifs with hwalk
    · exact .refl hn
    generalize hstop : min (a + attrLength m a) (e + mftEntrySize) = stop
    have hle : stop ≤ e + 4096 := hstop ▸ Nat.min_le_right _ _
    cases hins : insertWalk m child stop (indexFuel stop) (a + attrHeaderSize + indexRootSize)
        (a + attrHeaderSize + indexRootSize) with
    | none => exact .refl hn
    | some r =>
      obtain ⟨ins, m₁⟩ := r
      obtain ⟨hins, hframe⟩ := insertWalk_frame (e + 361) hins (by omega) (by omega)
      have h₁ : IndexEdit m m₁ e := .of_frame hn (hframe.mono (by omega))
      dsimp only
      split_ifs with hfull
      · exact h₁
      replace hfull : ¬ e + 4096 < ins + 329 + 16 := hfull
      have hlen : (name.take maxFilenameLen).length ≤ 255 := List.length_take_le _ _
      have h₂ : Mem.Frame _ m
          (writeIndexEntry m₁ ins child (mftNumber m₁ e) now (name.take maxFilenameLen)) :=
        h₁.frame.trans ((writeIndexEntry_frame hlen).mono (by omega))
      rw [indexEntrySize]
      refine ⟨(h₂.writeLE (by omega)).trans (setEnd_frame.mono (by omega)), ?_, ?_⟩
      · rw [setEnd_used (by omega)]
        omega
      · rw [setEnd_used (by omega)]
        omega

theorem markLast_frame (h : ∀ q, prev = some q → lo ≤ q ∧ q + 14 ≤ hi) :
    Mem.Frame (fun x => lo ≤ x ∧ x < hi) m (markLast m prev) := by
  cases prev with
  | none => exact Frame.refl _ _
  | some q =>
    obtain ⟨hq, hq'⟩ := h q rfl
    exact (Frame.refl _ _).writeLE (by omega)

theorem dropIndexEntry_frame {a : Nat} (ha : lo ≤ a) (hie : lo ≤ ie) (hahi : a + 8 ≤ hi)
    (hstop : stop ≤ hi) (hprev : ∀ q, prev = some q → lo ≤ q ∧ q + 14 ≤ hi) :
    Mem.Frame (fun x => lo ≤ x ∧ x < hi) m (dropIndexEntry m a stop ie prev) := by
  unfold dropIndexEntry
  dsimp only
  split_ifs with hbad
  · exact Frame.trans ((Frame.refl _ _).writeLE (by omega)) (markLast_frame hprev)
  · refine Frame.trans (Frame.writeLE ?_ (by omega)) (markLast_frame hprev)
    exact (Frame.refl _ _).moveBytes (by omega)

theorem removeWalk_frame {a : Nat} (ha : lo ≤ a) (hie : lo ≤ ie) (hahi : a + 8 ≤ hi)
    (hstop : stop ≤ hi) (hprev : ∀ q, prev = some q → lo ≤ q ∧ q + 14 ≤ hi) :
    Mem.Frame (fun x => lo ≤ x ∧ x < hi) m (removeWalk m a child stop fuel ie prev) := by
  induction fuel generalizing ie prev with
  | zero => exact Frame.refl _ _
  | succ fuel ih =>
    rw [removeWalk]
    split_ifs with hend href hlast hlen
    · exact Frame.refl _ _
    · exact dropIndexEntry_frame ha hie hahi hstop hprev
    · exact Frame.refl _ _
    · exact Frame.refl _ _
    · rw [indexEntrySize] at hend
      refine ih (by omega) fun q hq => ?_
      cases hq
      omega

theorem removeIndexEntry_edit (hn : Named m e) : IndexEdit m (removeIndexEntry m e child) e := by
  rw [removeIndexEntry]
  cases hattr : findAttr m e attrIndexRoot with
  | none => exact .refl hn
  | some a =>
    obtain ⟨hlo, hhi⟩ := hn.findAttr_index hattr
    exact .of_frame hn (removeWalk_frame hlo (by omega) (by omega) (Nat.min_le_right _ _) (by simp))

end Index

end OpenSys
