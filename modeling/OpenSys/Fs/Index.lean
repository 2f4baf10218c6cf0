-- SUMMARY: Directory indexes of fs.c as lists of packed records.
import OpenSys.Fs.Tree

/-!
# Directory indexes

The index of a directory is an array of records of 329 bytes behind its index root; the
last record carries a flag. This file reads it as a list of children with their names.
`add_dir_entry` appends to the list while there is room for eleven records;
`remove_index_entry` takes a record out, but marks the one before it as the last, so it
is right for the first and the last record only.
-/

namespace OpenSys

open OpenSys.Tree Run List Mem Nat

/-! ## Records -/

section Records

variable {m m' : Mem} {a b : Nat} {x : Nat × List UInt8} {l l' : List (Nat × List UInt8)}
  {last : Bool}

/-- The record at `a` is for the child `x.1` with the name `x.2`. -/
structure IsEntry (m : Mem) (a : Nat) (x : Nat × List UInt8) (last : Bool) : Prop where
  ref : ieMftRef m a = x.1
  length : ieLength m a = 329
  flag : decide (ieFlags m a &&& 1 ≠ 0) = last
  name : fnFilename m (a + 16) = x.2

/-- The records of a list, one behind the other. The flag of the last one is `last`. -/
def Entries (m : Mem) (last : Bool) : Nat → List (Nat × List UInt8) → Prop
  | _, [] => True
  | a, x :: l => IsEntry m a x (l.isEmpty && last) ∧ Entries m last (a + 329) l

theorem IsEntry.shift (h : IsEntry m b x last) (hm : Mem.Shifted m m' b a 329) :
    IsEntry m' a x last := by
  have hflags : ieFlags m' a = ieFlags m b := (hm.mono (j := 12) (by omega)).readLE_eq
  have hlen : fnFilenameLength m' (a + 16) = fnFilenameLength m (b + 16) :=
    (hm.mono (j := 72) (by omega)).readLE_eq
  have hlt : fnFilenameLength m (b + 16) < 256 := readLE_lt m _ 1
  refine ⟨(hm.mono (j := 0) (by omega)).readLE_eq.trans h.ref,
    (hm.mono (j := 8) (by omega)).readLE_eq.trans h.length, hflags ▸ h.flag, ?_⟩
  rw [← h.name, fnFilename, fnFilename, hlen]
  exact (hm.mono (j := 74) (by omega)).readBytes_eq

theorem Entries.shift (h : Entries m last b l) (hm : Mem.Shifted m m' b a (329 * l.length)) :
    Entries m' last a l := by
  induction l generalizing a b with
  | nil => trivial
  | cons x l ih =>
    rw [length_cons] at hm
    exact ⟨h.1.shift (hm.mono (j := 0) (by omega)), ih h.2 (hm.mono (j := 329) (by omega))⟩

theorem Entries.of_agree (h : Entries m last a l) (hm : Mem.Agree m m' a (329 * l.length)) :
    Entries m' last a l :=
  h.shift hm.shifted

theorem entries_append : Entries m last a (l ++ x :: l') ↔
    Entries m false a l ∧ Entries m last (a + 329 * l.length) (x :: l') := by
  induction l generalizing a with
  | nil => simp [Entries]
  | cons y l ih =>
    have hassoc : a + 329 + 329 * l.length = a + 329 * (y :: l).length := by
      rw [length_cons]
      omega
    have hmore : (l ++ x :: l').isEmpty = false := by cases l <;> rfl
    rw [cons_append, Entries, Entries, ih, hassoc, hmore, Bool.false_and, Bool.and_false, and_assoc]

/-- New flags in a record. -/
theorem IsEntry.setFlags (h : IsEntry m a x last) {v : Nat} (hv : v < 256 ^ 2) :
    IsEntry (m.writeLE (a + 12) 2 v) a x (decide (v &&& 1 ≠ 0)) := by
  have hname : Mem.Agree m (m.writeLE (a + 12) 2 v) (a + 16) 313 := agree_writeLE (by omega)
  refine ⟨(agree_writeLE (by omega)).readLE_eq.trans h.ref,
    (agree_writeLE (by omega)).readLE_eq.trans h.length, ?_, ?_⟩
  · rw [ieFlags, readLE_writeLE hv]
  have hlen : fnFilenameLength _ (a + 16) = fnFilenameLength m (a + 16) := hname.readLE (by omega)
  have hbound : fnFilenameLength m (a + 16) < 256 := readLE_lt m _ 1
  rw [← h.name, fnFilename, fnFilename, hlen]
  exact (hname.mono (by omega)).readBytes_eq

theorem IsEntry.demote (h : IsEntry m a x last) :
    IsEntry (m.writeLE (a + 12) 2 (ieFlags m a &&& 0xFFFE)) a x false := by
  have hflag : ieFlags m a &&& 0xFFFE &&& 1 = 0 := by
    rw [Nat.and_assoc]
    exact and_zero _
  have hset := h.setFlags (v := ieFlags m a &&& 0xFFFE)
    (lt_of_le_of_lt and_le_right (by decide))
  rwa [hflag] at hset

theorem IsEntry.promote (h : IsEntry m a x last) :
    IsEntry (m.writeLE (a + 12) 2 (ieFlags m a ||| 1)) a x true := by
  have hflag : (ieFlags m a ||| 1) &&& 1 = 1 := by
    rw [and_one_is_mod, or_mod_two_eq_one]
    exact .inr rfl
  have hset := h.setFlags (v := ieFlags m a ||| 1)
    (or_lt_two_pow (n := 16) (readLE_lt m (a + 12) 2) (by decide))
  rwa [hflag] at hset

theorem writeIndexEntry_entry {child parent now : Nat} {name : List UInt8} (hchild : child < 2 ^ 64)
    (hparent : parent < 2 ^ 64) (hname : name.length ≤ 255) :
    IsEntry (writeIndexEntry m a child parent now name) a (child, name) true := by
  unfold writeIndexEntry
  have hframe {m : Mem} : Mem.Frame _ m (writeFilename m (a + 16) parent now name) :=
    writeFilename_frame hname
  refine ⟨(hframe.readLE (by omega)).trans ?_,
    (hframe.readLE (by omega)).trans ?_, ?_, (writeFilename_spec hparent hname).name⟩
  · simp (disch := omega) only [readLE_writeLE_of_disjoint]
    exact readLE_writeLE hchild
  · simp (disch := omega) only [readLE_writeLE_of_disjoint]
    exact readLE_writeLE (by decide)
  rw [ieFlags, (hframe.agree (a := a + 12) (k := 2) (by omega)).readLE_eq]
  simp (disch := omega) only [readLE_writeLE_of_disjoint]
  rw [readLE_writeLE (by omega)]
  rfl

/-! ## Walks -/

variable {child stop fuel : Nat}

/-- The walk of `add_dir_entry` goes to the end of the list and takes the flag away. -/
theorem insertWalk_entries (h : Entries m true a l) (hstop : stop = a + 329 * l.length)
    (hfuel : l.length < fuel) (hnew : ∀ x ∈ l, x.1 ≠ child) :
    ∃ m', insertWalk m child stop fuel a a = some (stop, m') ∧ Entries m' false a l ∧
      Mem.Frame (fun x => a ≤ x ∧ x < stop) m m' := by
  induction l generalizing a fuel with
  | nil =>
    obtain ⟨fuel, rfl⟩ := Nat.exists_eq_add_of_lt hfuel
    refine ⟨m, ?_, trivial, Frame.refl _ _⟩
    have hout : ¬ (a + indexEntrySize ≤ stop ∧ indexEntrySize ≤ ieLength m a) := by
      rw [indexEntrySize, hstop, length_nil]
      omega
    rw [insertWalk, if_neg hout, hstop]
    rfl
  | cons x l ih =>
    rw [length_cons] at hstop hfuel
    obtain ⟨fuel, rfl⟩ : ∃ n, fuel = n + 1 := ⟨fuel - 1, by omega⟩
    obtain ⟨hx, hl⟩ := h
    have hin : a + indexEntrySize ≤ stop ∧ indexEntrySize ≤ ieLength m a := by
      rw [hx.length, indexEntrySize]
      omega
    rw [insertWalk, if_pos hin, hx.length]
    cases l with
    | nil =>
      have hflag : ieFlags m a &&& 1 ≠ 0 := of_decide_eq_true hx.flag
      have hne : ieMftRef m a ≠ child := hx.ref ▸ hnew x (by simp)
      rw [if_pos hflag, if_neg hne]
      refine ⟨_, by rw [hstop]; rfl, ⟨hx.demote, trivial⟩,
        (Frame.refl _ _).writeLE (by rw [hstop, length_nil]; omega)⟩
    | cons y l =>
      have hflag : ¬ (ieFlags m a &&& 1 ≠ 0) := of_decide_eq_false hx.flag
      rw [if_neg hflag]
      have hrest : stop = a + 329 + 329 * (y :: l).length := by
        rw [hstop]
        ring
      obtain ⟨m', hwalk, hl', hframe⟩ := ih hl hrest (lt_of_succ_lt_succ hfuel)
        fun z hz => hnew z (mem_cons_of_mem _ hz)
      refine ⟨m', hwalk, ⟨?_, hl'⟩, hframe.mono (by omega)⟩
      have hkeep : Mem.Agree m m' a 329 := hframe.agree (by omega)
      simpa using hx.shift hkeep.shifted

/-- The walk of `remove_index_entry` passes the records of other children. -/
theorem removeWalk_skip {attr : Nat} {prev : Option Nat} (h : Entries m false a l)
    (hstop : a + 329 * l.length + 329 ≤ stop) (hother : ∀ x ∈ l, x.1 ≠ child) :
    removeWalk m attr child stop (l.length + fuel) a prev =
      removeWalk m attr child stop fuel (a + 329 * l.length)
        (if l = [] then prev else some (a + 329 * l.length - 329)) := by
  induction l generalizing a prev with
  | nil => simp
  | cons x l ih =>
    rw [length_cons] at hstop
    obtain ⟨hx, hl⟩ := h
    have hshift : (x :: l).length + fuel = l.length + fuel + 1 := by
      rw [length_cons]
      omega
    have hflag : ¬ (ieFlags m a &&& 1 ≠ 0) := of_decide_eq_false (by simpa using hx.flag)
    have hne : ieMftRef m a ≠ child := hx.ref ▸ hother x (by simp)
    rw [hshift, removeWalk, if_neg (by rw [indexEntrySize]; omega), if_neg hne, if_neg hflag,
      if_neg (by rw [hx.length, indexEntrySize]; omega), hx.length,
      ih hl (by omega) fun y hy => hother y (mem_cons_of_mem _ hy), length_cons]
    have hpos : a + 329 + 329 * l.length = a + 329 * (l.length + 1) := by omega
    rw [hpos]
    cases l with
    | nil => simp
    | cons y l => simp

end Records

/-! ## The index of a directory -/

section Index

variable {m m' : Mem} {e child now : Nat} {name : List UInt8} {x : Nat × List UInt8}
  {l pre post : List (Nat × List UInt8)}

/-- The entry is a directory whose index has the length of `n` records, and a walk through
    it passes the list `l`. -/
structure IndexSpan (m : Mem) (e n : Nat) (l : List (Nat × List UInt8)) : Prop where
  named : Named m e
  used : 377 ≤ mftUsedSize m e
  type : attrType m (e + 361) = attrIndexRoot
  length : attrLength m (e + 361) = 32 + 329 * n
  cap : n ≤ 11
  within : l.length ≤ n
  entries : Entries m true (e + 393) l

/-- The entry is a directory whose index holds the list `l`. -/
abbrev IndexOf (m : Mem) (e : Nat) (l : List (Nat × List UInt8)) : Prop := IndexSpan m e l.length l

theorem IndexSpan.findAttr (h : IndexSpan m e n l) : findAttr m e attrIndexRoot = some (e + 361) := by
  have hu := h.used
  rw [h.named.findAttr_rest (by decide), findAttrLoop, if_neg (by rw [attrHeaderSize]; omega),
    if_pos (.inr h.type), if_pos h.type]

/-- Where the index ends, with the clamp to the slot. -/
theorem IndexSpan.stop (h : IndexSpan m e n l) :
    min (e + 361 + attrLength m (e + 361)) (e + mftEntrySize) = e + 393 + 329 * n := by
  have hcap := h.cap
  rw [h.length, mftEntrySize]
  omega

theorem IndexSpan.of_agree (h : IndexSpan m e n l) (hm : Mem.Agree m m' e 4096) :
    IndexSpan m' e n l := by
  have hused : mftUsedSize m' e = mftUsedSize m e := hm.readLE (by omega)
  have hcap := h.cap
  have hle := h.within
  exact ⟨(HeadKept.of_agree h.named hm).named h.named, hused ▸ h.used, (hm.readLE (by omega)).trans h.type,
    (hm.readLE (by omega)).trans h.length, hcap, hle,
    h.entries.of_agree (hm.mono (by omega))⟩

theorem IndexOf.empty (hn : Named m e) (h : EmptyIndex m e) : IndexOf m e [] :=
  ⟨hn, by rw [h.used]; omega, h.type, h.length, by simp, le_rfl, trivial⟩

theorem setEnd_marker {stop : Nat} (h : e + 12 ≤ stop) :
    attrType (setEnd m e stop) stop = attrEnd := by
  rw [attrType, setEnd, readLE_writeLE_of_disjoint (by omega), readLE_writeLE_of_disjoint (by omega)]
  exact readLE_writeLE (by decide)

/-- The index of `e` has got the record `x` behind its `n` records. -/
structure RecordAdded (m m' : Mem) (e n : Nat) (x : Nat × List UInt8) : Prop where
  used : mftUsedSize m' e = 401 + 329 * (n + 1)
  type : attrType m' (e + 361) = attrType m (e + 361)
  length : attrLength m' (e + 361) = 32 + 329 * (n + 1)
  kept : Mem.Agree m m' (e + 393) (329 * n)
  entry : IsEntry m' (e + 393 + 329 * n) x true
  marker : attrType m' (e + 393 + 329 * (n + 1)) = attrEnd

theorem addDirEntry_walk {n : Nat} (hattr : findAttr m e attrIndexRoot = some (e + 361))
    (hlen : attrLength m (e + 361) = 32 + 329 * n) (hn : n ≤ 11) :
    addDirEntry m now e child name =
      match insertWalk m child (e + 393 + 329 * n) (indexFuel (e + 393 + 329 * n)) (e + 393)
        (e + 393) with
      | none => (false, m)
      | some (insert, m) =>
        if e + 4096 < insert + 345 then (false, m)
        else
          let m := writeIndexEntry m insert child (mftNumber m e) now (name.take maxFilenameLen)
          let m := m.writeLE (e + 361 + 4) 4 (attrLength m (e + 361) + 329)
          (true, setEnd m e (insert + 329)) := by
  have hstop : min (e + 361 + attrLength m (e + 361)) (e + mftEntrySize) = e + 393 + 329 * n := by
    rw [hlen, mftEntrySize]
    omega
  have hfirst : e + 361 + attrHeaderSize + indexRootSize = e + 393 := rfl
  rw [addDirEntry, hattr]
  dsimp only
  rw [hstop, hfirst, if_neg (by omega)]
  rfl

theorem addDirEntry_added {n : Nat} (hattr : findAttr m e attrIndexRoot = some (e + 361))
    (hlen : attrLength m (e + 361) = 32 + 329 * n) (hn : n ≤ 10) (hchild : child < 2 ^ 64)
    (hwalk : insertWalk m child (e + 393 + 329 * n) (indexFuel (e + 393 + 329 * n)) (e + 393)
      (e + 393) = some (e + 393 + 329 * n, m'))
    (hframe : Mem.Frame (fun x => e + 393 ≤ x ∧ x < e + 393 + 329 * n) m m') :
    RecordAdded m' (addDirEntry m now e child name).2 e n (child, name.take maxFilenameLen) := by
  have hname : (name.take maxFilenameLen).length ≤ 255 := length_take_le maxFilenameLen name
  have hnum : mftNumber m' e < 2 ^ 64 := lt_trans (readLE_lt m' _ 4) (by decide)
  rw [addDirEntry_walk hattr hlen (by omega), hwalk]
  dsimp only
  rw [if_neg (by omega)]
  generalize hstop : e + 393 + 329 * n = stop
  have hentry : IsEntry (writeIndexEntry m' stop child (mftNumber m' e) now _) stop _ true :=
    writeIndexEntry_entry hchild hnum hname
  have hframe₂ : Mem.Frame _ m' (writeIndexEntry m' stop child (mftNumber m' e) now _) :=
    writeIndexEntry_frame hname
  generalize writeIndexEntry m' stop child (mftNumber m' e) now (name.take maxFilenameLen) = m₂
    at hentry hframe₂ ⊢
  have hlen₂ : attrLength m₂ (e + 361) = 32 + 329 * n :=
    (hframe₂.readLE (by omega)).trans ((hframe.readLE (by omega)).trans hlen)
  rw [hlen₂]
  -- The records lie between the attribute header and the new end marker.
  have hkeep : Mem.Agree m₂ (setEnd (m₂.writeLE (e + 361 + 4) 4 (32 + 329 * n + 329)) e (stop + 329))
      (e + 393) (329 * n + 329) := (agree_writeLE (by omega)).trans (setEnd_frame.agree (by omega))
  have hlast : Mem.Agree m₂ _ stop 329 := hkeep.mono (by omega)
  refine ⟨?_, (setEnd_frame.readLE (by omega)).trans ?_, (setEnd_frame.readLE (by omega)).trans ?_,
    (hframe₂.agree (by omega)).trans (hkeep.mono (by omega)), ?_, ?_⟩
  · rw [setEnd_used (by omega)]
    omega
  · rw [readLE_writeLE_of_disjoint (by omega)]
    exact hframe₂.readLE (by omega)
  · rw [readLE_writeLE (by omega)]
    omega
  · rw [hstop]
    exact hentry.shift hlast.shifted
  · rw [show e + 393 + 329 * (n + 1) = stop + 329 by omega]
    exact setEnd_marker (by omega)

/-- `add_dir_entry` appends while there is room. -/
theorem IndexOf.add (h : IndexOf m e l) (hroom : l.length ≤ 10) (hchild : child < 2 ^ 64)
    (hnew : ∀ x ∈ l, x.1 ≠ child) (hname : name.length ≤ 255) :
    IndexOf (addDirEntry m now e child name).2 e (l ++ [(child, name)]) := by
  have hedit : HeadKept m (addDirEntry m now e child name).2 e :=
    (addDirEntry_edit h.named).headKept
  have htake : name.take maxFilenameLen = name := take_of_length_le hname
  have hfuel : l.length < indexFuel (e + 393 + 329 * l.length) := by
    rw [indexFuel, indexEntrySize]
    omega
  have hlen : (l ++ [(child, name)]).length = l.length + 1 := by simp
  obtain ⟨m₁, hwalk, hl, hframe⟩ := insertWalk_entries h.entries rfl hfuel hnew
  have hadd : RecordAdded m₁ (addDirEntry m now e child name).2 e l.length _ :=
    addDirEntry_added h.findAttr h.length hroom hchild hwalk hframe
  rw [htake] at hadd
  refine ⟨hedit.named h.named, by rw [hadd.used]; omega,
    hadd.type.trans ((hframe.readLE (by omega)).trans h.type), hlen ▸ hadd.length, by omega,
    le_rfl, entries_append.mpr ⟨hl.of_agree hadd.kept, ?_, trivial⟩⟩
  simpa using hadd.entry

/-- The record that `removeWalk` stops at, with the flag of the record before it. -/
theorem IndexOf.removeIndexEntry_eq (h : IndexOf m e (pre ++ x :: post))
    (hpre : ∀ y ∈ pre, y.1 ≠ x.1) :
    removeIndexEntry m e x.1 = markLast
      ((m.moveBytes (e + 393 + 329 * pre.length) (e + 393 + 329 * pre.length + 329)
        (329 * post.length)).writeLE (e + 361 + 4) 4 (32 + 329 * (pre ++ post).length + 2 ^ 32))
      (if pre = [] then none else some (e + 393 + 329 * pre.length - 329)) := by
  have hlen : (pre ++ x :: post).length = pre.length + 1 + post.length := by
    rw [length_append, length_cons]
    omega
  obtain ⟨hl, hx, -⟩ := entries_append.mp h.entries
  have hfuel : indexFuel (e + 393 + 329 * (pre ++ x :: post).length) =
      pre.length + ((e + 393 + 329 * (pre ++ x :: post).length) / 329 - pre.length + 1) := by
    rw [indexFuel, indexEntrySize, hlen]
    omega
  rw [removeIndexEntry, h.findAttr]
  dsimp only
  have hfirst : e + 361 + attrHeaderSize + indexRootSize = e + 393 := rfl
  rw [h.stop, hfuel, hfirst, removeWalk_skip hl (by rw [hlen]; omega) hpre, removeWalk,
    if_neg (by rw [hlen, indexEntrySize]; omega), if_pos hx.ref, dropIndexEntry]
  dsimp only
  have hgood : ¬ (ieLength m (e + 393 + 329 * pre.length) < indexEntrySize ∨
      e + 393 + 329 * (pre ++ x :: post).length <
        e + 393 + 329 * pre.length + ieLength m (e + 393 + 329 * pre.length)) := by
    rw [hx.length, hlen, indexEntrySize]
    omega
  have hrest : e + 393 + 329 * (pre ++ x :: post).length - (e + 393 + 329 * pre.length + 329) =
      329 * post.length := by
    rw [hlen]
    omega
  rw [if_neg hgood, hx.length, hrest]
  have hattr : attrLength (m.moveBytes (e + 393 + 329 * pre.length)
      (e + 393 + 329 * pre.length + 329) (329 * post.length)) (e + 361) =
      32 + 329 * (pre ++ x :: post).length := by
    rw [← h.length]
    exact (((Frame.refl _ m).moveBytes fun _ hx _ => hx).agree (by omega)).readLE_eq
  have hnew : 32 + 329 * (pre ++ x :: post).length + (2 ^ 32 - 329) =
      32 + 329 * (pre ++ post).length + 2 ^ 32 := by
    rw [hlen, length_append]
    omega
  rw [hattr, hnew]

/-- Taking the flag back to the record before the end. -/
theorem Entries.markLast {a : Nat} (h : Entries m false a l) :
    Entries (markLast m (if l = [] then none else some (a + 329 * l.length - 329))) true a l := by
  rcases eq_nil_or_concat' l with rfl | ⟨ini, y, rfl⟩
  · trivial
  obtain ⟨hini, hy, -⟩ := entries_append.mp h
  have hpos : a + 329 * (ini ++ [y]).length - 329 = a + 329 * ini.length := by
    rw [length_append, length_singleton]
    omega
  rw [if_neg (by simp), hpos]
  exact entries_append.mpr ⟨hini.of_agree (agree_writeLE (by omega)), hy.promote, trivial⟩

/-- The records that are left in reach when the one between `pre` and `post` is taken out. -/
def inReach (pre post : List (Nat × List UInt8)) : List (Nat × List UInt8) :=
  if pre = [] then post else pre

theorem inReach_eq_iff : inReach pre post = pre ++ post ↔ pre = [] ∨ post = [] := by
  by_cases hpre : pre = [] <;> simp [inReach, hpre]

theorem inReach_sublist : inReach pre post <+ pre ++ post := by
  rw [inReach]
  split_ifs
  · exact sublist_append_right ..
  · exact sublist_append_left ..

/-- `remove_index_entry` takes the record out, and makes the one before it the last. -/
theorem IndexOf.remove (h : IndexOf m e (pre ++ x :: post)) (hpre : ∀ y ∈ pre, y.1 ≠ x.1) :
    IndexSpan (removeIndexEntry m e x.1) e (pre ++ post).length (inReach pre post) := by
  have hedit : HeadKept m (removeIndexEntry m e x.1) e := (removeIndexEntry_edit h.named).headKept
  have hcap := h.cap
  have hlen : (pre ++ x :: post).length = (pre ++ post).length + 1 := by simp [add_assoc]
  have hsum : (pre ++ post).length = pre.length + post.length := length_append
  obtain ⟨hl, -, hrest⟩ := entries_append.mp h.entries
  rw [h.removeIndexEntry_eq hpre] at hedit ⊢
  -- The shifted records, and the new length, which wraps around.
  set m₁ := m.moveBytes (e + 393 + 329 * pre.length) (e + 393 + 329 * pre.length + 329)
    (329 * post.length) with hm₁
  set v := 32 + 329 * (pre ++ post).length + 2 ^ 32 with hv
  have hmove : Mem.Frame (fun x => e + 393 ≤ x) m m₁ :=
    (Frame.refl _ m).moveBytes fun _ hx _ => by omega
  have hprev : ∀ q, (if pre = [] then none else some (e + 393 + 329 * pre.length - 329)) = some q →
      e + 393 ≤ q ∧ q + 14 ≤ e + 393 + 329 * pre.length := by
    intro q hq
    split_ifs at hq with hnil
    have hpos := length_pos_iff.mpr hnil
    rw [Option.some.injEq] at hq
    omega
  have hmark : Mem.Frame (fun x => e + 393 ≤ x) (m₁.writeLE (e + 361 + 4) 4 v) _ :=
    (markLast_frame hprev).mono fun _ => And.left
  refine ⟨hedit.named h.named, ?_, ?_, ?_, by omega, inReach_sublist.length_le, ?_⟩
  · have hused : mftUsedSize (markLast _ _) e = mftUsedSize m e := (hmark.readLE (by omega)).trans
        ((agree_writeLE (by omega)).readLE_eq.trans (hmove.readLE (by omega)))
    exact hused ▸ h.used
  · exact (hmark.readLE (by omega)).trans ((agree_writeLE (by omega)).readLE_eq.trans
      ((hmove.readLE (by omega)).trans h.type))
  · refine (hmark.readLE (by omega)).trans (readLE_writeLE_mod.trans ?_)
    rw [hv]
    omega
  · by_cases hnil : pre = []
    · subst hnil
      exact hrest.shift fun i hi =>
        (writeLE_outside (by omega)).trans (moveBytes_down (by omega) i hi)
    · have hbefore : Mem.Frame (fun x => e + 393 + 329 * pre.length ≤ x) m m₁ :=
        (Frame.refl _ m).moveBytes fun _ hx _ => hx
      have hkept : Mem.Agree m (m₁.writeLE (e + 361 + 4) 4 v) (e + 393) (329 * pre.length) :=
        (hbefore.agree (by omega)).trans (agree_writeLE (by omega))
      have hreach : inReach pre post = pre := if_neg hnil
      rw [hreach]
      exact (hl.of_agree hkept).markLast

end Index

/-! ## Listing -/

section Listing

variable {s s' : Fs} {d i j : Nat} {x : Nat × List UInt8} {l : List (Nat × List UInt8)}

/-- The recorded size of an entry. -/
def Fs.sizeOf (s : Fs) (i : Nat) : Nat := ((s.filename i).map (fnRealSize s.mem)).getD 0

/-- What `fs_readdir` reports for a child under a name. -/
def dirItem (s : Fs) (x : Nat × List UInt8) : DirItem :=
  (x.2, s.isDirectory x.1, u32 (s.sizeOf x.1))

/-- The index of the directory `d` holds the list `l` of children. -/
structure DirIndex (s : Fs) (d : Nat) (l : List (Nat × List UInt8)) : Prop where
  node : s.node d
  dir : s.isDirectory d = true
  index : IndexOf s.mem (s.slot d) l
  nodup : (l.map Prod.fst).Nodup
  child : ∀ x ∈ l, s.forest.live x.1 ∧ s.parentOf x.1 = d

theorem Named.sizeOf (h : Named s.mem (s.slot i)) :
    s.sizeOf i = fnRealSize s.mem (s.slot i + 48) := by
  rw [Fs.sizeOf, h.filename]
  rfl

theorem HeadsKept.dirItem_eq (h : HeadsKept s s' i) (hx : x.1 ≠ i)
    (hn : Named s.mem (s.slot x.1)) : dirItem s' x = dirItem s x := by
  rw [dirItem, dirItem, h.isDirectory_eq hx, (h.named hx hn).sizeOf, hn.sizeOf, h.slot_eq,
    (h.head _ hx hn).realSize_eq]

theorem indexItem_eq {last : Bool} {a : Nat} (h : IsEntry s.mem a x last)
    (hlive : s.forest.live x.1) (hn : Named s.mem (s.slot x.1)) :
    indexItem s a = some (dirItem s x) := by
  obtain ⟨hlo, hhi⟩ := mem_userSlots.mp hlive.1
  rw [indexItem, h.ref, if_pos ⟨hlo, hhi, hlive.2⟩, h.name, dirItem, hn.sizeOf, hn.filename,
    Fs.isDirectory, Option.map_some, Option.getD_some]

theorem listWalk_eq {a stop fuel : Nat} (h : Entries s.mem true a l)
    (hstop : a + 329 * l.length ≤ stop) (hnil : l = [] → stop < a + 329) (hfuel : l.length < fuel)
    (hl : ∀ x ∈ l, s.forest.live x.1 ∧ Named s.mem (s.slot x.1)) :
    listWalk s stop fuel a = l.map (dirItem s) := by
  induction l generalizing a fuel with
  | nil =>
    obtain ⟨fuel, rfl⟩ := Nat.exists_eq_add_of_lt hfuel
    rw [length_nil, zero_add, listWalk, if_pos (by rw [indexEntrySize]; exact hnil rfl)]
    rfl
  | cons x l ih =>
    rw [length_cons] at hstop hfuel
    obtain ⟨fuel, rfl⟩ : ∃ n, fuel = n + 1 := ⟨fuel - 1, by omega⟩
    obtain ⟨hx, hrest⟩ := h
    obtain ⟨hlive, hn⟩ := hl x (by simp)
    rw [listWalk, if_neg (by rw [indexEntrySize]; omega),
      if_neg (by rw [hx.length, indexEntrySize]; omega), indexItem_eq hx hlive hn, hx.length]
    cases l with
    | nil => rw [if_pos (of_decide_eq_true hx.flag)]; rfl
    | cons y l =>
      have hnext : a + 329 + 329 * (y :: l).length ≤ stop := by
        refine le_trans (le_of_eq ?_) hstop
        ring
      rw [if_neg (of_decide_eq_false hx.flag), ih hrest hnext
        (fun hnil => absurd hnil (cons_ne_nil y l)) (lt_of_succ_lt_succ hfuel)
        fun z hz => hl z (mem_cons_of_mem _ hz)]
      rfl

theorem IndexSpan.listDir_eq {n : Nat} (h : IndexSpan s.mem (s.slot d) n l) (ht : FsEntries s)
    (hnil : l = [] → n = 0) (hl : ∀ x ∈ l, s.forest.live x.1) : listDir s d = l.map (dirItem s) := by
  have hle := h.within
  have hfirst : s.slot d + 361 + attrHeaderSize + indexRootSize = s.slot d + 393 := rfl
  rw [listDir, h.findAttr]
  dsimp only
  rw [h.stop, hfirst]
  exact listWalk_eq h.entries (by omega) (fun hl => by have := hnil hl; omega)
    (by rw [indexFuel, indexEntrySize]; omega) fun x hx => ⟨hl x hx, ht.named _ (.inr (hl x hx))⟩

theorem DirIndex.listDir_eq (h : DirIndex s d l) (ht : FsEntries s) :
    listDir s d = l.map (dirItem s) :=
  h.index.listDir_eq ht (fun hl => by rw [hl]; rfl) fun x hx => (h.child x hx).1

theorem scanItem_eq (ht : FsTree s) (hi : i ∈ s.userSlots) : scanItem s d i =
    if s.inUse i = true ∧ s.parentOf i = d then some (dirItem s (i, s.nameOf i)) else none := by
  rw [scanItem]
  by_cases huse : s.inUse i = true
  · have hn := ht.named i (.inr ⟨hi, huse⟩)
    rw [huse, hn.filename, Option.bind_some, hn.parentOf, dirItem, hn.nameOf, hn.sizeOf]
    simp only [true_and, Fs.isDirectory, Bool.not_true, Bool.false_eq_true, if_false]
  · simp [huse]

/-- The entries with the parent `d`, in the order of the MFT. -/
def Fs.children (s : Fs) (d : Nat) : List Nat :=
  s.userSlots.filter fun i => s.inUse i && s.parentOf i == d

theorem mem_children : i ∈ s.children d ↔ s.forest.live i ∧ s.parentOf i = d := by
  simp [Fs.children, Fs.forest, and_assoc]

theorem nodup_children (s : Fs) (d : Nat) : (s.children d).Nodup := (nodup_range' ..).filter _

theorem scanDir_eq (ht : FsTree s) :
    scanDir s d = ((s.children d).map fun i => (i, s.nameOf i)).map (dirItem s) := by
  rw [scanDir, Fs.children, map_map, ← filterMap_eq_map, filterMap_filter]
  refine filterMap_congr fun i hi => ?_
  rw [scanItem_eq ht hi]
  simp

/-- No name is found twice. -/
theorem scanDir_names (ht : FsTree s) : ((scanDir s d).map Prod.fst).Nodup := by
  rw [scanDir_eq ht, map_map, map_map]
  refine (nodup_children s d).map_on fun i hi j hj hname => ?_
  obtain ⟨hi, hip⟩ := mem_children.mp hi
  obtain ⟨hj, hjp⟩ := mem_children.mp hj
  exact ht.tree.unique i j hi hj (hip.trans hjp.symm) hname

/-- The index of `d` lists all its children. -/
def Complete (s : Fs) (d : Nat) (l : List (Nat × List UInt8)) : Prop :=
  ∀ i, s.forest.live i → s.parentOf i = d → (i, s.nameOf i) ∈ l

theorem DirIndex.mem_iff (h : DirIndex s d l) (hc : Complete s d l) :
    x ∈ l ↔ s.forest.live x.1 ∧ s.parentOf x.1 = d ∧ s.nameOf x.1 = x.2 := by
  constructor
  · intro hx
    obtain ⟨hlive, hp⟩ := h.child x hx
    -- One record per child, so the name in the record is the name of the child.
    have hsame := inj_on_of_nodup_map h.nodup (hc x.1 hlive hp) hx rfl
    exact ⟨hlive, hp, congrArg Prod.snd hsame⟩
  · rintro ⟨hlive, hp, hn⟩
    have hmem := hc x.1 hlive hp
    rwa [hn] at hmem

theorem DirIndex.listDir_perm (h : DirIndex s d l) (hc : Complete s d l) (ht : FsTree s) :
    (listDir s d).Perm (scanDir s d) := by
  rw [h.listDir_eq ht.toFsEntries, scanDir_eq ht]
  refine List.Perm.map _ ((perm_ext_iff_of_nodup h.nodup.of_map ?_).mpr fun x => ?_)
  · exact (nodup_children s d).map fun i j hij => congrArg Prod.fst hij
  rw [h.mem_iff hc, mem_map]
  constructor
  · exact fun ⟨hlive, hp, hn⟩ => ⟨x.1, mem_children.mpr ⟨hlive, hp⟩, Prod.ext rfl hn⟩
  · rintro ⟨i, hi, rfl⟩
    obtain ⟨hlive, hp⟩ := mem_children.mp hi
    exact ⟨hlive, hp, rfl⟩

end Listing

end OpenSys
