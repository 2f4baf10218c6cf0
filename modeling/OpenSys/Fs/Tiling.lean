-- SUMMARY: The attributes of MFT slots, and the runs in which they leave no gap.
import OpenSys.Fs.Clusters
import OpenSys.Fs.Index

/-!
# Attributes without gaps

The attributes of a slot should lie one behind the other from offset 32 up to an end marker
8 bytes before the used size. Creating entries and adding index records and non-resident data
keeps it so. A resident write and its truncation set the length of the attribute and leave the
marker where it was, and so does the removal of an index record.
-/

namespace OpenSys

open Run Option Nat Fs List

/-! ## Slots -/

section Slots

variable {m m' : Mem} {e a n stop : Nat}

/-- From `a` on, attributes of at least 16 bytes follow each other up to an end marker at `stop`. -/
inductive Tiled (m : Mem) (stop : Nat) : Nat → Prop
  | done : attrType m stop = attrEnd → Tiled m stop stop
  | attr {a : Nat} : attrType m a ≠ attrEnd → 16 ≤ attrLength m a →
      Tiled m stop (a + attrLength m a) → Tiled m stop a

/-- The slot is well formed. -/
structure SlotTiled (m : Mem) (e : Nat) : Prop where
  used_le : mftUsedSize m e ≤ 4096
  tiled : Tiled m (e + mftUsedSize m e - 8) (e + 32)

theorem Tiled.le (h : Tiled m stop a) : a ≤ stop := by
  induction h with
  | done => exact le_rfl
  | attr _ _ _ ih => omega

/-- A file without data. -/
structure FreshSlot (m : Mem) (e : Nat) : Prop where
  named : Named m e
  used : mftUsedSize m e = 369
  marker : attrType m (e + 361) = attrEnd

/-- A file with a non-resident data attribute that has no runs. -/
structure RunlessSlot (m : Mem) (e : Nat) : Prop where
  named : Named m e
  runs : RunArray m e []
  marker : attrType m (e + 425) = attrEnd

/-- Index records from `a` on, of which at most the last has the flag. -/
def Records (m : Mem) (a n : Nat) : Prop :=
  ∀ k < n, ieLength m (a + 329 * k) = 329 ∧ (k + 1 < n → ieFlags m (a + 329 * k) &&& 1 = 0)

/-- A directory with `n` records in its index. -/
structure DirSlot (m : Mem) (e n : Nat) : Prop where
  named : Named m e
  used : mftUsedSize m e = 401 + 329 * n
  type : attrType m (e + 361) = attrIndexRoot
  length : attrLength m (e + 361) = 32 + 329 * n
  cap : n ≤ 11
  records : Records m (e + 393) n
  marker : attrType m (e + 393 + 329 * n) = attrEnd

/-- What the slot of a file (`false`) or a directory (`true`) looks like. -/
inductive SlotShape (m : Mem) (e : Nat) : Bool → Prop
  | fresh : FreshSlot m e → SlotShape m e false
  | runless : RunlessSlot m e → SlotShape m e false
  | dir {n : Nat} : DirSlot m e n → SlotShape m e true

theorem Named.tiled (h : Named m e) (ht : Tiled m stop (e + 361)) : Tiled m stop (e + 32) := by
  refine .attr (by rw [h.type]; decide) (by rw [h.length]; decide) ?_
  rw [h.length]
  exact ht

variable {d : Bool} {child fuel k : Nat}

theorem SlotShape.named (h : SlotShape m e d) : Named m e := by
  cases h with
  | fresh h => exact h.named
  | runless h => exact h.named
  | dir h => exact h.named

theorem SlotShape.slotTiled (h : SlotShape m e d) : SlotTiled m e := by
  refine ⟨h.named.used_le, h.named.tiled ?_⟩
  cases h with
  | fresh h =>
    have hstop : e + mftUsedSize m e - 8 = e + 361 := by rw [h.used]; omega
    rw [hstop]
    exact .done h.marker
  | runless h =>
    have hlen : attrLength m (e + 361) = 64 := h.runs.length
    have hstop : e + mftUsedSize m e - 8 = e + 361 + attrLength m (e + 361) := by
      rw [h.runs.used, hlen, length_nil]; omega
    rw [hstop]
    refine .attr (by rw [h.runs.type]; decide) (by rw [hlen]; decide) (.done ?_)
    rw [hlen]
    exact h.marker
  | dir h =>
    have hstop : e + mftUsedSize m e - 8 = e + 361 + attrLength m (e + 361) := by
      rw [h.used, h.length]; omega
    rw [hstop]
    refine .attr (by rw [h.type]; decide) (by rw [h.length]; omega) (.done ?_)
    have hmark := h.marker
    rw [h.length]
    rwa [add_assoc e 393, show 393 = 361 + 32 from rfl, add_assoc 361, ← add_assoc e]
      at hmark

/-! ## Changes of the name record -/

theorem Records.congr (h : Records m a n) (hm : Mem.Agree m m' a (329 * n)) : Records m' a n := by
  intro k hk
  obtain ⟨hlen, hflag⟩ := h k hk
  have hflags : ieFlags m' (a + 329 * k) = ieFlags m (a + 329 * k) := hm.readLE (by omega)
  exact ⟨(hm.readLE (by omega)).trans hlen, fun h => hflags ▸ hflag h⟩

/-- The shape does not depend on the payload of the filename attribute. -/
theorem SlotShape.congr (h : SlotShape m e d) (hhead : Mem.Agree m m' e 48)
    (hrest : Mem.Agree m m' (e + 361) 3735) : SlotShape m' e d := by
  have hu : mftUsedSize m' e = mftUsedSize m e := hhead.readLE (by omega)
  cases h with
  | fresh h =>
    exact .fresh ⟨h.named.congr hhead, hu.trans h.used, (hrest.readLE (by omega)).trans h.marker⟩
  | runless h =>
    exact .runless ⟨h.named.congr hhead, h.runs.congr hu hrest, (hrest.readLE (by omega)).trans h.marker⟩
  | dir h =>
    have hcap := h.cap
    exact .dir ⟨h.named.congr hhead, hu.trans h.used, (hrest.readLE (by omega)).trans h.type,
      (hrest.readLE (by omega)).trans h.length, hcap,
      h.records.congr (hrest.mono (by omega)),
      (hrest.readLE (by omega)).trans h.marker⟩

theorem SlotShape.of_agree (h : SlotShape m e d) (hm : Mem.Agree m m' e 4096) : SlotShape m' e d :=
  h.congr (hm.mono (by omega)) (hm.mono (by omega))

/-- A file has no index. -/
theorem SlotShape.findAttr_index_none (h : SlotShape m e false) :
    findAttr m e attrIndexRoot = none := by
  cases h with
  | fresh h => exact findAttr_fresh h.named h.used (by decide)
  | runless h =>
    have hlen : attrLength m (e + 361) = 64 := h.runs.length
    have hused : mftUsedSize m e = 433 := h.runs.used
    rw [h.named.findAttr_rest (by decide), hused, findAttrLoop,
      if_neg (by rw [attrHeaderSize]; omega), h.runs.type, if_neg (by decide), hlen,
      if_neg (by decide), if_neg (by omega), findAttrLoop, if_pos (by rw [attrHeaderSize]; omega)]

theorem DirSlot.findAttr (h : DirSlot m e n) : findAttr m e attrIndexRoot = some (e + 361) := by
  rw [h.named.findAttr_rest (by decide), findAttrLoop,
    if_neg (by rw [attrHeaderSize, h.used]; omega), if_pos (.inr h.type), if_pos h.type]

/-! ## Adding a record -/

/-- The walk of `add_dir_entry` stops at the end, with no flag left, or the child is there. -/
theorem insertWalk_records (h : Records m a n) (hstop : stop = a + 329 * n) (hk : k ≤ n)
    (hfuel : n < fuel + k) :
    insertWalk m child stop fuel (a + 329 * k) (a + 329 * k) = none ∨
      ∃ m', insertWalk m child stop fuel (a + 329 * k) (a + 329 * k) = some (stop, m') ∧
        Mem.Frame (fun x => a + 329 * k ≤ x ∧ x < stop) m m' ∧
        ∀ j, k ≤ j → j < n → ieLength m' (a + 329 * j) = 329 ∧ ieFlags m' (a + 329 * j) &&& 1 = 0 := by
  induction fuel generalizing k with
  | zero => omega
  | succ fuel ih =>
    rw [insertWalk]
    rcases hk.lt_or_eq with hlt | rfl
    · obtain ⟨hlen, hflag⟩ := h k hlt
      rw [if_pos ⟨by rw [indexEntrySize]; omega, by rw [hlen, indexEntrySize]⟩, hlen]
      have hnext : a + 329 * k + 329 = a + 329 * (k + 1) := by omega
      rw [hnext]
      by_cases hset : ieFlags m (a + 329 * k) &&& 1 ≠ 0
      · rw [if_pos hset]
        have hlast : k + 1 = n := by
          by_contra hne
          exact hset (hflag (by omega))
        by_cases hchild : ieMftRef m (a + 329 * k) = child
        · exact .inl (if_pos hchild)
        rw [if_neg hchild]
        refine .inr ⟨_, by rw [hstop, hlast], (Mem.Frame.refl _ _).writeLE (by omega), fun j hj hj' => ?_⟩
        obtain rfl : j = k := by omega
        refine ⟨(Mem.agree_writeLE (by omega)).readLE_eq.trans hlen, ?_⟩
        rw [ieFlags, Mem.readLE_writeLE (lt_of_le_of_lt and_le_right (by decide)), Nat.and_assoc]
        exact and_zero _
      · rw [if_neg hset]
        rcases ih (k := k + 1) (by omega) (by omega) with hnone | ⟨m', hwalk, hframe, hrec⟩
        · exact .inl hnone
        refine .inr ⟨m', hwalk, hframe.mono (by omega), fun j hj hj' => ?_⟩
        rcases hj.lt_or_eq with hjk | rfl
        · exact hrec j hjk hj'
        · have hkeep : Mem.Agree m m' (a + 329 * k) 329 := hframe.agree (by omega)
          exact ⟨(hkeep.readLE (by omega)).trans hlen,
            (congrArg (· &&& 1) (hkeep.readLE (by omega))).trans (not_not.mp hset)⟩
    · rw [if_neg fun hc => by have := hc.1; rw [indexEntrySize] at this; omega]
      exact .inr ⟨m, by rw [hstop], Mem.Frame.refl _ _, fun j hj hj' => absurd hj' (by omega)⟩

/-- `add_dir_entry` keeps the shape of a directory. -/
protected theorem DirSlot.addDirEntry (h : DirSlot m e n) {now : Nat} (name : List UInt8)
    (hchild : child < 2 ^ 64) : ∃ n', DirSlot (addDirEntry m now e child name).2 e n' := by
  have hedit : HeadKept m (addDirEntry m now e child name).2 e :=
    (addDirEntry_edit h.named).headKept
  have hcap := h.cap
  have hfuel : n < indexFuel (e + 393 + 329 * n) + 0 := by
    rw [indexFuel, indexEntrySize]
    omega
  rcases insertWalk_records (h := h.records) rfl (zero_le n) hfuel with
    hnone | ⟨m₁, hsome, hframe, hrec⟩
  · rw [addDirEntry_walk h.findAttr h.length hcap, hnone]
    exact ⟨n, h⟩
  by_cases hfull : e + 4096 < e + 393 + 329 * n + 345
  · -- no room: the last record has lost its flag
    rw [addDirEntry_walk h.findAttr h.length hcap, hsome] at hedit ⊢
    dsimp only at hedit ⊢
    rw [if_pos hfull] at hedit ⊢
    exact ⟨n, hedit.named h.named, (hframe.readLE (by omega)).trans h.used,
      (hframe.readLE (by omega)).trans h.type, (hframe.readLE (by omega)).trans h.length, hcap,
      fun k hk => ⟨(hrec k (zero_le k) hk).1, fun _ => (hrec k (zero_le k) hk).2⟩,
      (hframe.readLE (by omega)).trans h.marker⟩
  · have hadd : RecordAdded m₁ (addDirEntry m now e child name).2 e n _ :=
      addDirEntry_added h.findAttr h.length (by omega) hchild hsome hframe
    refine ⟨n + 1, hedit.named h.named, hadd.used,
      hadd.type.trans ((hframe.readLE (by omega)).trans h.type),
      hadd.length, by omega, fun k hk => ?_, hadd.marker⟩
    rcases Nat.lt_succ_iff_lt_or_eq.mp hk with hlt | rfl
    · obtain ⟨hl, hf⟩ := hrec k (zero_le k) hlt
      have hsame : Mem.Agree m₁ _ (e + 393 + 329 * k) 329 := hadd.kept.mono (by omega)
      exact ⟨(hsame.readLE (by omega)).trans hl,
        fun _ => (congrArg (· &&& 1) (hsame.readLE (by omega))).trans hf⟩
    · exact ⟨hadd.entry.length, fun hlt => absurd hlt (by omega)⟩

/-- `add_dir_entry` on any slot keeps its shape. -/
protected theorem SlotShape.addDirEntry (h : SlotShape m e d) {now : Nat} (name : List UInt8)
    (hchild : child < 2 ^ 64) :
    SlotShape (addDirEntry m now e child name).2 e d := by
  cases d with
  | false =>
    rw [addDirEntry, h.findAttr_index_none]
    exact h
  | true =>
    cases h with
    | dir h =>
      obtain ⟨n', h'⟩ : ∃ n', DirSlot (addDirEntry m now e child name).2 e n' :=
        h.addDirEntry name hchild
      exact .dir h'

/-! ## Finding a record -/

/-- What is not found is not removed. -/
theorem removeWalk_none {attr stop' fuel' : Nat} {prev : Option Nat}
    (h : findIndexWalk m child stop fuel a = none) (hstop : stop' ≤ stop) (hfuel : fuel' ≤ fuel) :
    removeWalk m attr child stop' fuel' a prev = m := by
  induction fuel' generalizing fuel a prev with
  | zero => rfl
  | succ fuel' ih =>
    obtain ⟨fuel, rfl⟩ : ∃ k, fuel = k + 1 := ⟨fuel - 1, by omega⟩
    rw [findIndexWalk] at h
    rw [removeWalk]
    by_cases hend : stop' < a + indexEntrySize
    · rw [if_pos hend]
    rw [if_neg (by omega)] at h
    rw [if_neg hend]
    split_ifs at h ⊢
    · rfl
    · rfl
    · exact ih h (by omega)

theorem removeIndexEntry_none (h : findIndexEntry m e child = none) :
    removeIndexEntry m e child = m := by
  unfold removeIndexEntry
  rw [findIndexEntry] at h
  split
  · rfl
  next hattr =>
  rw [hattr, bind_some] at h
  refine removeWalk_none h (by omega) ?_
  rw [indexFuel, indexFuel]
  exact Nat.succ_le_succ (Nat.div_le_div_right (by omega))

theorem findIndexWalk_records {r : Nat} (h : Records m a n) (hstop : stop = a + 329 * n)
    (hk : k ≤ n) (hr : findIndexWalk m child stop fuel (a + 329 * k) = some r) :
    ∃ j < n, r = a + 329 * j := by
  induction fuel generalizing k with
  | zero => cases hr
  | succ fuel ih =>
    rw [findIndexWalk] at hr
    rcases hk.lt_or_eq with hlt | rfl
    · split_ifs at hr
      · exact ⟨k, hlt, (some.inj hr).symm⟩
      · rw [(h k hlt).1, add_assoc, ← mul_succ] at hr
        exact ih hlt hr
    · rw [if_pos (by rw [indexEntrySize]; omega)] at hr
      cases hr

/-- The record that is found lies in the index of a directory. -/
theorem SlotShape.findIndexEntry_some (h : SlotShape m e d) {r : Nat}
    (hr : findIndexEntry m e child = some r) :
    ∃ n, d = true ∧ DirSlot m e n ∧ ∃ k < n, r = e + 393 + 329 * k := by
  rw [findIndexEntry] at hr
  cases d with
  | false =>
    rw [h.findAttr_index_none] at hr
    cases hr
  | true =>
    cases h with
    | @dir n h =>
      rw [h.findAttr, bind_some] at hr
      dsimp only at hr
      rw [h.length] at hr
      exact ⟨n, rfl, h, findIndexWalk_records (k := 0) h.records (by omega) (zero_le n) hr⟩

/-- A new name in one of the records. -/
theorem DirSlot.rename (h : DirSlot m e n) (hk : k < n)
    (hm : Mem.Frame (fun x => e + 393 + 329 * k + 72 ≤ x ∧ x < e + 393 + 329 * k + 329) m m') :
    DirSlot m' e n := by
  have hcap := h.cap
  refine ⟨h.named.congr (hm.agree (by omega)), (hm.readLE (by omega)).trans h.used,
    (hm.readLE (by omega)).trans h.type, (hm.readLE (by omega)).trans h.length,
    hcap, fun j hj => ?_, (hm.readLE (by omega)).trans h.marker⟩
  obtain ⟨hlen, hflag⟩ := h.records j hj
  have hkeep : Mem.Agree m m' (e + 393 + 329 * j) 16 := hm.agree fun x hx hx' hin => by
    rcases lt_trichotomy j k with hjk | rfl | hjk <;> omega
  exact ⟨(hkeep.readLE (by omega)).trans hlen, fun hlast =>
    (congrArg (· &&& 1) (hkeep.readLE (by omega))).trans (hflag hlast)⟩

/-! ## Data -/

theorem DirSlot.findAttr_data (h : DirSlot m e n) : OpenSys.findAttr m e attrData = none := by
  rw [h.named.findAttr_rest (by decide), h.used, findAttrLoop,
    if_neg (by rw [attrHeaderSize]; omega), h.type, if_neg (by decide), h.length,
    if_neg (by rw [attrHeaderSize]; omega), if_neg (by omega), findAttrLoop,
    if_pos (by rw [attrHeaderSize]; omega)]

theorem SlotShape.sizeMem (h : SlotShape m e d) (size now : Nat) :
    SlotShape (sizeMem m e size now) e d :=
  h.congr (sizeMem_frame.agree (by omega)) (sizeMem_frame.agree (by omega))

theorem RunlessSlot.rewritten (h : RunlessSlot m e) (realSize : Nat) :
    RunlessSlot (rewrittenAttr m e 0 realSize) e := by
  have hruns : DataRuns (rewrittenAttr m e 0 realSize) e [] := h.runs.rewritten realSize
  have hedit : DataEdit m (rewrittenAttr m e 0 realSize) e := rewrittenAttr_frame.mono (by omega)
  refine ⟨hedit.named h.named (FileShape.runs hruns).used_mem, hruns.toRunArray, ?_⟩
  simp (disch := omega) only [attrType, rewrittenAttr, Mem.readLE_writeLE_of_disjoint]
  exact setEnd_marker (by omega)

/-- New sizes in the attribute. -/
theorem RunlessSlot.truncated (h : RunlessSlot m e)
    (hm : Mem.Frame (fun x => e + 361 + 48 ≤ x ∧ x < e + 361 + 64) m m') : RunlessSlot m' e := by
  have hnon : attrNonResident m' (e + 361) = attrNonResident m (e + 361) := hm.readLE (by omega)
  exact ⟨h.named.congr (hm.agree (by omega)), ⟨(hm.readLE (by omega)).trans h.runs.used,
    h.runs.cap, (hm.readLE (by omega)).trans h.runs.type, hnon ▸ h.runs.nonResident,
    (hm.readLE (by omega)).trans h.runs.length,
    (hm.readLE (by omega)).trans h.runs.offset,
    (hm.readLE (by omega)).trans h.runs.allocated,
    (hm.readLE (by omega)).trans h.runs.first, fun j hj => absurd hj (not_lt_zero j)⟩,
    (hm.readLE (by omega)).trans h.marker⟩

theorem createDataAttr_runless (h : FreshSlot m e) {size : Nat} (hsize : 3703 < size) :
    RunlessSlot (createDataAttr m e size).2 e := by
  obtain ⟨-, hedit, -, hruns⟩ := createDataAttr_spec h.used size
  have hused := (hruns hsize).used
  rw [length_nil] at hused
  refine ⟨hedit.named h.named (by omega), hruns hsize, ?_⟩
  have hroom : u64 (u32 (mftEntrySize + (2 ^ 32 - mftUsedSize m e)) +
      (2 ^ 64 - attrHeaderSize - 8)) = 3703 := by
    rw [h.used]
    rfl
  have hattr : e + mftUsedSize m e - 8 = e + 361 := by rw [h.used]; omega
  rw [createDataAttr]
  dsimp only
  rw [hroom, hattr, if_pos hsize]
  exact setEnd_marker (by omega)

/-! ## New entries -/

theorem newEntryMem_shape {s : Fs} {i p flags : Nat} {name : List UInt8} (hi : i < 2 ^ 32)
    (hp : p < 2 ^ 64) (hflags : flags = 0 ∨ flags = mftFlagDirectory) :
    SlotShape (newEntryMem s i p flags name) (s.slot i) (decide (flags = mftFlagDirectory)) := by
  have hlt : flags < 2 ^ 16 := by rcases hflags with rfl | rfl <;> decide
  have hnew : NewEntry (newEntryMem s i p flags name) _ _ _ _ _ := newEntryMem_spec hi hp hlt
  have hinit : Initialised (initMftEntry s.mem (s.slot i) i flags) (s.slot i) i _ :=
    initMftEntry_spec hi hlt
  rcases hflags with rfl | rfl
  · refine .fresh ⟨hnew.named, newEntryMem_used hi, ?_⟩
    rw [newEntryMem, if_neg (by decide), addFilenameAttr_eq hinit.used]
    exact setEnd_marker (by omega)
  have hindex : EmptyIndex (newEntryMem s i p mftFlagDirectory name) (s.slot i) :=
    newEntryMem_index hi
  have hused : mftUsedSize (addFilenameAttr _ s.now (s.slot i) name p) (s.slot i) = 369 :=
    addFilenameAttr_used hinit.used
  refine .dir (n := 0) ⟨hnew.named, hindex.used, hindex.type, hindex.length, by omega,
    fun k hk => absurd hk (by omega), ?_⟩
  rw [newEntryMem, if_pos rfl, addIndexRootAttr, hused]
  exact setEnd_marker (by omega)

end Slots

/-! ## The volume -/

section Volume

variable {s s' : Fs} {i j p : Nat} {path name : List UInt8}

/-- The index of the parent has no record of the entry. -/
def Fs.unlisted (s : Fs) (i : Nat) : Prop :=
  findIndexEntry s.mem (s.slot (s.parentOf i)) i = none

/-- Every entry in use has one of the shapes, and the root directory is in use. -/
structure TileInv (s : Fs) : Prop where
  root_lt : mftRoot < s.boot.mftSize
  size_lt : s.boot.mftSize < 2 ^ 32
  root : s.inUse mftRoot = true
  shape : ∀ i < s.boot.mftSize, s.inUse i = true → SlotShape s.mem (s.slot i) (s.isDirectory i)

/-- What a call does to a slot: nothing, or it leaves an entry with one of the shapes, or it
    clears one other than the root directory. -/
inductive SlotStep (s s' : Fs) (i : Nat) : Prop
  | kept : Mem.Agree s.mem s'.mem (s.slot i) 4096 → SlotStep s s' i
  | shaped : s'.inUse i = true → SlotShape s'.mem (s.slot i) (s'.isDirectory i) → SlotStep s s' i
  | cleared : i ≠ mftRoot → s'.inUse i = false → SlotStep s s' i

/-- The flags decide whether an entry is in use and whether it is a directory. -/
theorem flags_kept (hzone : s'.mftZone = s.mftZone)
    (h : mftFlags s'.mem (s.slot i) = mftFlags s.mem (s.slot i)) :
    s'.inUse i = s.inUse i ∧ s'.isDirectory i = s.isDirectory i := by
  rw [inUse, inUse, isDirectory, isDirectory, slot_eq hzone, mftInUse, mftInUse,
    mftIsDirectory, mftIsDirectory, h]
  exact ⟨rfl, rfl⟩

namespace TileInv

/-- The rule for a call: it is enough to look at each slot. -/
theorem of_slots (h : TileInv s) (hboot : s'.boot = s.boot) (hzone : s'.mftZone = s.mftZone)
    (hstep : ∀ i < s.boot.mftSize, SlotStep s s' i) : TileInv s' := by
  have hkept {i : Nat} (ha : Mem.Agree s.mem s'.mem (s.slot i) 4096) :
      s'.inUse i = s.inUse i ∧ s'.isDirectory i = s.isDirectory i :=
    flags_kept hzone (ha.readLE (by omega))
  refine ⟨hboot ▸ h.root_lt, hboot ▸ h.size_lt, ?_, fun i hi huse => ?_⟩
  · cases hstep mftRoot h.root_lt with
    | kept ha => exact (hkept ha).1.trans h.root
    | shaped huse _ => exact huse
    | cleared hne _ => exact absurd rfl hne
  rw [hboot] at hi
  rw [slot_eq hzone]
  cases hstep i hi with
  | kept ha =>
    rw [(hkept ha).2]
    exact (h.shape i hi ((hkept ha).1 ▸ huse)).of_agree ha
  | shaped _ hshape => exact hshape
  | cleared _ hfree =>
    rw [hfree] at huse
    cases huse

theorem of_eq (h : TileInv s) (hboot : s'.boot = s.boot) (hzone : s'.mftZone = s.mftZone)
    (hmem : s'.mem = s.mem) : TileInv s' :=
  h.of_slots hboot hzone fun i _ => .kept (hmem ▸ Mem.Agree.refl s.mem (s.slot i) 4096)

/-- A change inside one slot. -/
theorem of_slot (h : TileInv s) (hboot : s'.boot = s.boot) (hzone : s'.mftZone = s.mftZone)
    (hframe : Mem.Frame (fun x => s.slot i ≤ x ∧ x < s.slot i + 4096) s.mem s'.mem)
    (hstep : SlotStep s s' i) : TileInv s' := by
  refine h.of_slots hboot hzone fun j _ => ?_
  by_cases hji : j = i
  · exact hji ▸ hstep
  · exact .kept (slot_agree hji hframe fun _ => id)

/-- A change of an entry in use that keeps its flags and leaves it a shape. -/
theorem edit (h : TileInv s) (hboot : s'.boot = s.boot) (hzone : s'.mftZone = s.mftZone)
    (huse : s.inUse i = true)
    (hframe : Mem.Frame (fun x => s.slot i + 8 ≤ x ∧ x < s.slot i + 4096) s.mem s'.mem)
    (hshape : SlotShape s'.mem (s.slot i) (s.isDirectory i)) : TileInv s' := by
  have hflags := flags_kept (i := i) hzone (hframe.readLE (by omega))
  refine h.of_slot hboot hzone (hframe.mono (by omega)) (.shaped (hflags.1.trans huse) ?_)
  rw [hflags.2]
  exact hshape

/-- What a path leads to. -/
theorem found (h : TileInv s) (hi : findFile s path = some i) :
    i < s.boot.mftSize ∧ s.inUse i = true := by
  rcases findFile_user hi with rfl | hu
  · exact ⟨h.root_lt, h.root⟩
  · exact ⟨(mem_userSlots.mp hu.1).2, hu.2⟩

theorem writeMftEntry (h : TileInv s) (i : Nat) : TileInv (OpenSys.writeMftEntry s i).2 :=
  h.of_eq rfl rfl rfl

/-! ### Creating -/

protected theorem createEntry (h : TileInv s) {flags : Nat} (hflags : flags = 0 ∨ flags = mftFlagDirectory)
    (hslot : allocMftEntry s = some i) (hp : p < s.boot.mftSize) (huse : s.inUse p = true) :
    TileInv (createEntry s i p flags name) := by
  obtain ⟨hi, hfree⟩ := allocMftEntry_some hslot
  have hlt := (mem_userSlots.mp hi).2
  have hsize := h.size_lt
  have hne : p ≠ i := by
    rintro rfl
    rw [hfree] at huse
    cases huse
  have hf : flags < 2 ^ 16 := by rcases hflags with rfl | rfl <;> decide
  have hshape := h.shape p hp huse
  have hother {j : Nat} (hj : j ≠ p) : Mem.Agree (newEntryMem s i p flags name)
      (createEntry s i p flags name).mem (s.slot j) 4096 :=
    createEntry_other (by omega) hf hshape.named hne hj
  have hedit : IndexEdit (newEntryMem s i p flags name)
      (createEntry s i p flags name).mem (s.slot p) :=
    createEntry_edit (by omega) hf hshape.named hne
  have hnew : NewEntry (createEntry s i p flags name).mem (s.slot i) i
      (flags ||| mftFlagInUse) p (name.take maxFilenameLen) :=
    createEntry_new (by omega) (by omega) hf hshape.named hne
  have hzone : (createEntry s i p flags name).mftZone = s.mftZone := createEntry_zone
  refine h.of_slots createEntry_boot hzone fun j _ => ?_
  by_cases hji : j = i
  · -- the new entry
    subst hji
    refine .shaped ?_ ?_
    · rw [inUse, slot_eq hzone, mftInUse, hnew.flags]
      rcases hflags with rfl | rfl <;> rfl
    have hdir : (createEntry s j p flags name).isDirectory j =
        decide (flags = mftFlagDirectory) := by
      rw [isDirectory, slot_eq hzone, mftIsDirectory, hnew.flags]
      rcases hflags with rfl | rfl <;> rfl
    rw [hdir]
    exact (newEntryMem_shape (by omega) (by omega) hflags).of_agree (hother hne.symm)
  have hagree : Mem.Agree s.mem (newEntryMem s i p flags name) (s.slot j) 4096 :=
    newEntryMem_other (by omega) hf hji
  by_cases hjp : j = p
  · -- the parent, with a record more or as it was
    subst hjp
    have hkept := flags_kept hzone
      (hedit.headKept.flags_eq.trans (hagree.readLE (by omega)))
    refine .shaped (hkept.1.trans huse) ?_
    rw [hkept.2, createEntry_mem]
    exact (hshape.of_agree hagree).addDirEntry name (by omega)
  · exact .kept (hagree.trans (hother hjp))

protected theorem fsOpen (h : TileInv s) {mode : Nat}
    (hok : (findFile s path).isSome = true ∨ mode = 0 ∨ path ≠ [] ∧ lastSlash path ≤ 255) :
    ∃ r, fsOpen s path mode = some r ∧ TileInv r.2 := by
  rw [fsOpen]
  cases hfind : findFile s path with
  | some i => exact ⟨_, rfl, h⟩
  | none =>
    dsimp only
    by_cases hmode : mode = 0
    · rw [if_pos hmode]
      exact ⟨_, rfl, h⟩
    rw [if_neg hmode]
    have hpath := (hok.resolve_left (by simp [hfind])).resolve_left hmode
    have hshort : ¬ (path = [] ∨ 255 < lastSlash path) := fun hlong =>
      hlong.elim hpath.1 (not_lt.mpr hpath.2)
    cases hslot : allocMftEntry s with
    | none => exact ⟨_, rfl, h⟩
    | some i =>
      dsimp only
      rw [if_neg hshort]
      cases hparent : findFile s (splitPath path).1 with
      | none => exact ⟨_, rfl, h⟩
      | some p =>
        obtain ⟨hp, huse⟩ := h.found hparent
        have hmade : TileInv (createEntry s i p 0 (splitPath path).2) :=
          h.createEntry (.inl rfl) hslot hp huse
        dsimp only
        generalize createEntry s i p 0 (splitPath path).2 = s₁ at hmade
        exact ⟨_, rfl, (hmade.writeMftEntry i).writeMftEntry p⟩

protected theorem fsMkdir (h : TileInv s) (hok : lastSlash path ≤ 255) :
    ∃ r, fsMkdir s path = some r ∧ TileInv r.2 := by
  rw [fsMkdir]
  by_cases hempty : path = []
  · rw [if_pos hempty]
    exact ⟨_, rfl, h⟩
  rw [if_neg hempty]
  cases hslot : allocMftEntry s with
  | none => exact ⟨_, rfl, h⟩
  | some i =>
    dsimp only
    rw [if_neg (not_lt.mpr hok)]
    cases hparent : findFile s (splitPath path).1 with
    | none => exact ⟨_, rfl, h⟩
    | some p =>
      obtain ⟨hp, huse⟩ := h.found hparent
      have hmade : TileInv (createEntry s i p mftFlagDirectory (splitPath path).2) :=
        h.createEntry (.inr rfl) hslot hp huse
      dsimp only
      generalize createEntry s i p mftFlagDirectory (splitPath path).2 = s₁ at hmade
      split
      · exact ⟨_, rfl, hmade.writeMftEntry i⟩
      · exact ⟨_, rfl, (hmade.writeMftEntry i).writeMftEntry p⟩

/-! ### Removing -/

protected theorem dropIndex (h : TileInv s) (hlist : s.unlisted i) : TileInv (dropIndex s i) := by
  unfold dropIndex
  split
  · exact h
  next fn hfn =>
  have hpar : fnParentMft s.mem fn = s.parentOf i := by rw [parentOf, hfn]; rfl
  dsimp only
  split
  · refine h.of_eq rfl rfl ?_
    rw [hpar]
    exact removeIndexEntry_none hlist
  · exact h

theorem dropEntry (h : TileInv s) (hlist : s.unlisted i) (hne : i ≠ mftRoot) :
    TileInv (OpenSys.dropEntry s i).2 := by
  have h₁ := h.dropIndex hlist
  rw [dropEntry_eq]
  generalize dropIndex s i = s₁ at h₁
  refine h₁.of_slot (i := i) rfl rfl clear_frame (.cleared hne ?_)
  change mftInUse ((clearEntry s₁.mem (s₁.slot i)).writeLE (s₁.slot i + 8) 4 0) (s₁.slot i) = false
  rw [mftInUse, clear_flags]
  rfl

theorem fsUnlink (h : TileInv s) (hok : ∀ i, findFile s path = some i →
      mftIsReadonly s.mem (s.slot i) = true ∨ s.isDirectory i = true ∨ i ≠ mftRoot ∧ s.unlisted i) :
    TileInv (OpenSys.fsUnlink s path).2 := by
  rw [fsUnlink_eq]
  cases hfind : findFile s path with
  | none => exact h
  | some i =>
    dsimp only
    split_ifs with hro hdir
    · exact h
    · exact h
    obtain ⟨hne, hlist⟩ := ((hok i hfind).resolve_left hro).resolve_left hdir
    obtain ⟨b, hb⟩ := unlinkData_eq (s := s) (i := i)
    rw [hb]
    have h' : TileInv { s with bitmap := b } := h.of_eq rfl rfl rfl
    exact h'.dropEntry hlist hne

protected theorem fsRmdir (h : TileInv s) (hok : ∀ i, findFile s path = some i →
      mftIsReadonly s.mem (s.slot i) = true ∨ s.isDirectory i = false ∨
        (∃ j, s.forest.live j ∧ s.parentOf j = i) ∨ i ≠ mftRoot ∧ s.unlisted i) :
    TileInv (fsRmdir s path).2 := by
  rw [fsRmdir]
  cases hfind : findFile s path with
  | none => exact h
  | some i =>
    dsimp only
    split_ifs with hdir hro hkids
    · exact h
    · exact h
    · exact h
    · have hisdir : s.isDirectory i ≠ false := fun hf => hdir (by rw [← isDirectory, hf]; rfl)
      have hempty : ¬ ∃ j, s.forest.live j ∧ s.parentOf j = i := by
        rintro ⟨j, ⟨hj, huse⟩, hpar⟩
        have hn := (h.shape j (mem_userSlots.mp hj).2 huse).named
        refine hkids (any_eq_true.mpr ⟨j, hj, ?_⟩)
        rw [show s.inUse j = true from huse, hn.filename, ← hpar, hn.parentOf]
        exact beq_self_eq_true _
      obtain ⟨hne, hlist⟩ :=
        (((hok i hfind).resolve_left hro).resolve_left hisdir).resolve_left hempty
      exact h.dropEntry hlist hne

/-! ### Renaming -/

protected theorem renamed (h : TileInv s) (hi : i < s.boot.mftSize) (huse : s.inUse i = true) (p : Nat)
    (name : List UInt8) : TileInv (renamed s i p name) ∧
      ∀ j, (renamed s i p name).inUse j = s.inUse j := by
  have hframe : Mem.Frame (fun x => s.slot i + 48 ≤ x ∧ x < s.slot i + 361) s.mem
      (renamed s i p name).mem :=
    (renameFilename_frame (length_take_le _ _)).mono (by omega)
  refine ⟨h.edit rfl rfl huse (hframe.mono (by omega))
    ((h.shape i hi huse).congr (hframe.agree (by omega)) (hframe.agree (by omega))), fun j => ?_⟩
  have hhead : Mem.Agree s.mem (renamed s i p name).mem (s.slot j) 48 :=
    hframe.agree fun x hx hx' hin => by
      simp only [slot, mftEntrySize] at hx hx' hin
      omega
  have hzone : (renamed s i p name).mftZone = s.mftZone := rfl
  exact (flags_kept hzone (hhead.readLE (by omega))).1

protected theorem renameIndex (h : TileInv s) (hp : p < s.boot.mftSize) (huse : s.inUse p = true) (i : Nat)
    (name : List UInt8) : TileInv (renameIndex s i p p name) := by
  have hlen : (name.take maxFilenameLen).length ≤ 255 := length_take_le _ _
  rw [renameIndex, if_pos rfl]
  cases hfind : findIndexEntry s.mem (s.slot p) i with
  | none => exact h
  | some r =>
    obtain ⟨n, hdir, hslot, k, hk, rfl⟩ := (h.shape p hp huse).findIndexEntry_some hfind
    have hcap := hslot.cap
    dsimp only
    generalize name.take maxFilenameLen = name at hlen
    have hframe : Mem.Frame (fun x => s.slot p + 393 + 329 * k + 72 ≤ x ∧
        x < s.slot p + 393 + 329 * k + 329) s.mem ((s.mem.writeLE
          (s.slot p + 393 + 329 * k + 16 + 56) 1 name.length).writeBytes
          (s.slot p + 393 + 329 * k + 16 + 58) name) :=
      ((Mem.Frame.refl _ _).writeLE (by omega)).writeBytes (by omega)
    refine h.edit (i := p) rfl rfl huse (hframe.mono (by omega)) ?_
    rw [hdir]
    exact .dir (hslot.rename hk hframe)

protected theorem fsRename (h : TileInv s) {old new : List UInt8} (hshort : lastSlash new ≤ 254)
    (hok : ∀ i p, findFile s old = some i → findFile s (splitPath new).1 = some p →
      (splitPath new).2 ≠ [] → findFile s new = none → s.parentOf i = p) : ∃ r, fsRename s old new = some r ∧ TileInv r.2 := by
  rw [fsRename]
  split
  · exact ⟨_, rfl, h⟩
  cases hfind : findFile s old with
  | none => exact ⟨_, rfl, h⟩
  | some i =>
    dsimp only
    rw [if_neg (not_lt.mpr hshort)]
    by_cases hname : (splitPath new).2 = []
    · rw [if_pos hname]
      exact ⟨_, rfl, h⟩
    rw [if_neg hname]
    cases hparent : findFile s (splitPath new).1 with
    | none => exact ⟨_, rfl, h⟩
    | some p =>
      dsimp only
      by_cases hnew : (findFile s new).isSome = true
      · rw [if_pos hnew]
        exact ⟨_, rfl, h⟩
      rw [if_neg hnew]
      rw [not_isSome_iff_eq_none] at hnew
      obtain ⟨hi, huse⟩ := h.found hfind
      obtain ⟨hp, hpuse⟩ := h.found hparent
      have hn := (h.shape i hi huse).named
      have hpar : fnParentMft s.mem (s.slot i + 48) = p :=
        hn.parentOf.symm.trans (hok i p hfind hparent hname hnew)
      obtain ⟨h₁, hkeep⟩ := h.renamed hi huse p (splitPath new).2
      have h₂ := h₁.renameIndex hp ((hkeep p).trans hpuse) i (splitPath new).2
      rw [hn.filename]
      dsimp only
      rw [hpar, ← renamed]
      generalize renameIndex (renamed s i p (splitPath new).2) i p p
        (splitPath new).2 = s₂ at h₂
      exact ⟨_, rfl, h₂⟩

/-! ### Data -/

variable {file : FsFile} {data : List UInt8}

protected theorem fsWrite (h : TileInv s) (hlt : file.mftNumber < s.boot.mftSize)
    (huse : s.inUse file.mftNumber = true) (hfile : s.isDirectory file.mftNumber = false)
    (hsmall : findAttr s.mem (s.slot file.mftNumber) attrData = none → 3703 < data.length)
    (hdata : data ≠ []) : TileInv (fsWrite s file data).2.2 := by
  have hnum := file.placed_mftNumber
  have hshape := h.shape _ hlt huse
  rw [hfile] at hshape
  -- the write on an attribute without runs, made now or before
  have hwrite (m : Mem) (hedit : DataEdit s.mem m (s.slot file.mftNumber))
      (hslot : RunlessSlot m (s.slot file.mftNumber)) : TileInv (writeNonResident { s with mem := m }
        file.placed (s.slot file.mftNumber + 361) data).2.2 := by
    obtain ⟨w, d, -, heq⟩ := writeNonResident_eq (s := { s with mem := m }) hnum hslot.named hslot.runs
      data
    have hdone := hslot.rewritten (file.placed.position + w)
    have hall : DataEdit s.mem (sizeMem (rewrittenAttr m (s.slot file.mftNumber) 0
        (file.placed.position + w)) (s.slot file.mftNumber) (u64 (file.placed.position + w)) s.now)
        (s.slot file.mftNumber) :=
      (hedit.trans (rewrittenAttr_frame.mono (by omega))).sizeMem
    change TileInv (writeNonResident { s with mem := m } file.placed
      (slot { s with mem := m } file.mftNumber + 361) data).2.2
    rw [heq]
    refine h.edit (i := file.mftNumber) rfl rfl huse (Mem.Frame.mono hall (by omega)) ?_
    rw [hfile]
    exact (SlotShape.runless hdone).sizeMem _ _
  cases hshape with
  | fresh hslot =>
    have hnone := findAttr_fresh hslot.named hslot.used (t := attrData) (by decide)
    have hlarge := hsmall hnone
    rw [fsWrite_eq hdata, hnone]
    have hmade := createDataAttr_runless hslot hlarge
    obtain ⟨hattr, hedit, -⟩ := createDataAttr_spec hslot.used data.length
    generalize createDataAttr s.mem (s.slot file.mftNumber) data.length = r at hmade hattr hedit
    obtain ⟨attr, m⟩ := r
    obtain rfl : attr = _ := hattr
    have heq : writeAttr { s with mem := m } file.placed (s.slot file.mftNumber + 361) data = _ :=
      RunArray.writeAttr_eq hmade.runs
    dsimp only
    rw [heq]
    exact hwrite m hedit hmade
  | runless hslot =>
    rw [fsWrite_found hdata (hslot.runs.findAttr hslot.named), hslot.runs.writeAttr_eq]
    exact hwrite s.mem (.refl _ _) hslot

protected theorem fsTruncate (h : TileInv s) (hlt : file.mftNumber < s.boot.mftSize)
    (huse : s.inUse file.mftNumber = true) (size : Nat) :
    TileInv (fsTruncate s file size).2.2 := by
  have hsize (m : Mem) (b : Bitmap 8)
      (hframe : Mem.Frame (fun x => s.slot file.mftNumber + 361 ≤ x ∧
        x < s.slot file.mftNumber + 4096) s.mem m)
      (hshape : SlotShape m (s.slot file.mftNumber) (s.isDirectory file.mftNumber)) :
      TileInv (setRealSize { s with mem := m, bitmap := b } file.mftNumber size) := by
    have hreal := setRealSize_eq (s := { s with mem := m, bitmap := b }) hshape.named size
    have hall : Mem.Frame (fun x => s.slot file.mftNumber + 8 ≤ x ∧
        x < s.slot file.mftNumber + 4096) s.mem (sizeMem m (s.slot file.mftNumber) size s.now) :=
      (hframe.mono (by omega)).trans (sizeMem_frame.mono (by omega))
    rw [hreal]
    exact h.edit (i := file.mftNumber) rfl rfl huse hall (hshape.sizeMem _ _)
  unfold fsTruncate
  split
  · exact h
  have hshape := h.shape _ hlt huse
  generalize hd : s.isDirectory file.mftNumber = d at hshape hsize
  cases hshape with
  | fresh hslot =>
    rw [findAttr_fresh hslot.named hslot.used (by decide)]
    exact (hsize s.mem s.bitmap (Mem.Frame.refl _ _) (.fresh hslot)).writeMftEntry _
  | dir hslot =>
    rw [hslot.findAttr_data]
    exact (hsize s.mem s.bitmap (Mem.Frame.refl _ _) (.dir hslot)).writeMftEntry _
  | runless hslot =>
    rw [hslot.runs.findAttr hslot.named]
    obtain ⟨m, b, heq, hframe, -⟩ := truncateData_eq s (s.slot file.mftNumber + 361) size
    have hcut := hframe hslot.runs.nonResident
    dsimp only
    rw [heq]
    exact (hsize m b (hcut.mono (by omega)) (.runless (hslot.truncated hcut))).writeMftEntry _

end TileInv

/-- Only the root directory is in use after `fs_format`. -/
theorem fsFormat_tileInv (s : Fs) (volumeSectors diskSize : Nat) (diskReady : Bool) :
    TileInv (fsFormat s volumeSectors diskSize diskReady) := by
  obtain ⟨s₀, h⟩ := fsFormat_rootMade s volumeSectors diskSize diskReady
  have hroot := h.formatted.root
  generalize fsFormat s volumeSectors diskSize diskReady = v at h hroot
  refine ⟨by rw [h.size]; decide, by rw [h.size]; decide, ?_, fun i hi huse => ?_⟩
  · rw [inUse, mftInUse, hroot.flags]
    rfl
  by_cases hne : i = mftRoot
  · subst hne
    have hdir : v.isDirectory mftRoot = decide (mftFlagDirectory = mftFlagDirectory) := by
      rw [isDirectory, mftIsDirectory, hroot.flags]
      rfl
    rw [hdir, h.mem, h.slot_eq]
    exact newEntryMem_shape (by decide) (by decide) (.inr rfl)
  · rw [h.free_other (h.size ▸ hi) hne] at huse
    cases huse

end Volume

/-! ## Runs -/

/-- The calls, on files through the handles that `fs_open` has returned. -/
inductive SlotCall where
  | file (call : FileCall)
  | truncate (handle size : Nat)

/-- The state behind a call. -/
def slotStep (t : FsSys) : SlotCall → Option FsSys
  | .file call => fileStep t call
  | .truncate k size =>
    match t.handles[k]? with
    | none => some t
    | some file =>
      let r := fsTruncate t.fs file size
      some ⟨r.2.2, t.handles.set k r.2.1⟩

/-- The handle is of an entry in use. -/
def FsFile.Current (s : Fs) (file : FsFile) : Prop :=
  file.mftNumber < s.boot.mftSize ∧ s.inUse file.mftNumber = true

/-- The write goes to a file, and its first data does not fit into the entry. -/
structure LeavesEntry (s : Fs) (file : FsFile) (data : List UInt8) : Prop where
  current : file.Current s
  isFile : s.isDirectory file.mftNumber = false
  large : findAttr s.mem (s.slot file.mftNumber) attrData = none → 3703 < data.length

/-- The calls that move the end marker with the last attribute. What an index lists is not
    removed from it, and data is not kept in an entry. -/
def SlotCall.Ok (t : FsSys) : SlotCall → Prop
  | .file (.dir (.open path mode)) =>
    (findFile t.fs path).isSome = true ∨ mode = 0 ∨ path ≠ [] ∧ lastSlash path ≤ 255
  | .file (.dir (.mkdir path)) => lastSlash path ≤ 255
  | .file (.dir (.rename old new)) => lastSlash new ≤ 254 ∧
    ∀ i p, findFile t.fs old = some i → findFile t.fs (splitPath new).1 = some p →
      (splitPath new).2 ≠ [] → findFile t.fs new = none → t.fs.parentOf i = p
  | .file (.dir (.unlink path)) => ∀ i, findFile t.fs path = some i →
    mftIsReadonly t.fs.mem (t.fs.slot i) = true ∨ t.fs.isDirectory i = true ∨
      i ≠ mftRoot ∧ t.fs.unlisted i
  | .file (.dir (.rmdir path)) => ∀ i, findFile t.fs path = some i →
    mftIsReadonly t.fs.mem (t.fs.slot i) = true ∨ t.fs.isDirectory i = false ∨
      (∃ j, t.fs.forest.live j ∧ t.fs.parentOf j = i) ∨ i ≠ mftRoot ∧ t.fs.unlisted i
  | .file (.write k data) => ∀ file, t.handles[k]? = some file → data = [] ∨ LeavesEntry t.fs file data
  | .truncate k size => ∀ file, t.handles[k]? = some file → file.size ≤ size ∨ file.Current t.fs

/-- Every entry in use is well formed. -/
def Fs.SlotsTiled (s : Fs) : Prop :=
  ∀ i < s.boot.mftSize, s.inUse i = true → SlotTiled s.mem (s.slot i)

theorem TileInv.slotsTiled {s : Fs} (h : TileInv s) : s.SlotsTiled := fun i hi huse =>
  (h.shape i hi huse).slotTiled

protected theorem TileInv.dirStep {t : FsSys} (h : TileInv t.fs) (call : DirCall)
    (hok : SlotCall.Ok t (.file (.dir call))) : ∃ s', dirStep t.fs call = some s' ∧ TileInv s' := by
  cases call with
  | «open» path mode =>
    obtain ⟨r, hr, h'⟩ := h.fsOpen hok
    exact ⟨r.2, by rw [dirStep, hr]; rfl, h'⟩
  | mkdir path =>
    obtain ⟨r, hr, h'⟩ := h.fsMkdir hok
    exact ⟨r.2, by rw [dirStep, hr]; rfl, h'⟩
  | rename old new =>
    obtain ⟨r, hr, h'⟩ := h.fsRename hok.1 hok.2
    exact ⟨r.2, by rw [dirStep, hr]; rfl, h'⟩
  | unlink path => exact ⟨_, rfl, h.fsUnlink hok⟩
  | rmdir path => exact ⟨_, rfl, h.fsRmdir hok⟩

/-- One call keeps the shapes. -/
theorem TileInv.step {t : FsSys} (h : TileInv t.fs) (call : SlotCall) (hok : call.Ok t) :
    ∃ t', slotStep t call = some t' ∧ TileInv t'.fs := by
  cases call with
  | file call =>
    cases call with
    | dir call =>
      obtain ⟨s', hs', h'⟩ := h.dirStep call hok
      exact ⟨⟨s', _⟩, by rw [slotStep, fileStep, hs']; rfl, h'⟩
    | write k data =>
      rw [slotStep, fileStep]
      cases hk : t.handles[k]? with
      | none => exact ⟨t, rfl, h⟩
      | some file =>
        refine ⟨_, rfl, ?_⟩
        by_cases hdata : data = []
        · dsimp only
          rw [fsWrite, if_pos hdata]
          exact h
        · have hleaves := (hok file hk).resolve_left hdata
          exact h.fsWrite hleaves.current.1 hleaves.current.2 hleaves.isFile hleaves.large hdata
  | truncate k size =>
    rw [slotStep]
    cases hk : t.handles[k]? with
    | none => exact ⟨t, rfl, h⟩
    | some file =>
      refine ⟨_, rfl, ?_⟩
      rcases hok file hk with hle | hcur
      · dsimp only
        rw [fsTruncate, if_pos hle]
        exact h
      · exact h.fsTruncate hcur.1 hcur.2 size

/-- A new file gets more data at once than its entry could hold. -/
theorem Formatted.large_write_ok {v : Fs} (hv : Formatted v) {data : List UInt8}
    (hlarge : 3703 < data.length) : AllOk slotStep SlotCall.Ok ⟨v, []⟩
      [.file (.dir (.open pathA 1)), .file (.write 0 data)] := by
  obtain ⟨s, hopen, hnew⟩ : ∃ s, fsOpen v pathA 1 = some (some ⟨16, 0, 0, 1⟩, s) ∧ NewFile v s 16 :=
    hv.fsTree.fsOpen_new hv.creates (by decide)
  have hstep : slotStep ⟨v, []⟩ (.file (.dir (.open pathA 1))) = some ⟨s, [⟨16, 0, 0, 1⟩]⟩ :=
    fileStep_open hopen
  refine ⟨.inr (.inr ⟨by decide, by decide⟩), fun t ht => ?_⟩
  obtain rfl : _ = t := some.inj (hstep.symm.trans ht)
  refine ⟨fun file hfile => .inr ?_, fun _ _ => trivial⟩
  obtain rfl : _ = file := some.inj hfile
  have huser := (mem_userSlots.mp hnew.isFile.1.1).2
  exact ⟨⟨huser, hnew.isFile.1.2⟩, hnew.isFile.2, fun _ => hlarge⟩

/-- In a run of such calls from `fs_format`, every entry in use is well formed throughout. -/
theorem slots_tiled (s : Fs) (volumeSectors diskSize : Nat) (diskReady : Bool)
    (calls : List SlotCall)
    (hok : AllOk slotStep SlotCall.Ok ⟨fsFormat s volumeSectors diskSize diskReady, []⟩ calls) :
    Always slotStep (fun t => t.fs.SlotsTiled) ⟨fsFormat s volumeSectors diskSize diskReady, []⟩
      calls :=
  (always_of_allOk (fun _ call h => TileInv.step h call)
    (fsFormat_tileInv s volumeSectors diskSize diskReady) hok).mono fun _ => TileInv.slotsTiled

theorem slots_tiled_large : AllOk slotStep SlotCall.Ok ⟨smallVolume, []⟩
        [.file (.dir (.open pathA 1)), .file (.write 0 (List.replicate 4096 0))] ∧
      Always slotStep (fun t => t.fs.SlotsTiled) ⟨smallVolume, []⟩
        [.file (.dir (.open pathA 1)), .file (.write 0 (List.replicate 4096 0))] := by
  have hlarge : 3703 < (replicate 4096 (0 : UInt8)).length := by
    rw [length_replicate]
    decide
  have hok := smallVolume_formatted.large_write_ok hlarge
  exact ⟨hok, slots_tiled emptyFs 0 (2048 * 512) true _ hok⟩

/-- With resident data the attributes lead past the end marker at 377. -/
theorem Resident.not_tiled {m : Mem} {e n : Nat} (h : Resident m e n) (hn : Named m e)
    (hpos : 0 < n) : ¬ SlotTiled m e := by
  rintro ⟨-, ht⟩
  have hstop : e + mftUsedSize m e - 8 = e + 377 := by rw [h.used]; omega
  rw [hstop] at ht
  obtain ⟨a, ha⟩ : ∃ a, a = e + 32 := ⟨_, rfl⟩
  rw [← ha] at ht
  cases ht with
  | done _ => omega
  | attr _ _ ht =>
    rw [ha, hn.length] at ht
    obtain ⟨b, hb⟩ : ∃ b, b = e + 32 + 329 := ⟨_, rfl⟩
    rw [← hb] at ht
    cases ht with
    | done _ => omega
    | attr _ _ ht =>
      have hle := ht.le
      rw [hb, show e + 32 + 329 = e + 361 from rfl, h.length] at hle
      omega

theorem Formatted.not_slotsTiled {v : Fs} (hv : Formatted v) :
    ¬ Always slotStep (fun t => t.fs.SlotsTiled) ⟨v, []⟩
      [.file (.dir (.open pathA 1)), .file (.write 0 [0])] := by
  obtain ⟨s, s', hopen, -, hwrite, hfile, hn, hholds, -⟩ := hv.first_byte
  rintro ⟨-, t, ht, -, t', ht', hlast⟩
  obtain rfl : _ = t := some.inj (hopen.symm.trans ht)
  obtain rfl : _ = t' := some.inj (hwrite.symm.trans ht')
  exact hholds.toResident.not_tiled hn (by decide)
    (hlast 16 (mem_userSlots.mp hfile.1.1).2 hfile.1.2)

/-- The first byte of a file makes its attribute longer and leaves the end marker where it was. -/
theorem first_byte_gap : ¬ Always slotStep (fun t => t.fs.SlotsTiled) ⟨smallVolume, []⟩
    [.file (.dir (.open pathA 1)), .file (.write 0 [0])] :=
  smallVolume_formatted.not_slotsTiled

end OpenSys
