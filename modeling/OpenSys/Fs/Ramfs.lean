-- SUMMARY: The file system in memory of ramfs.c, and what a file of it holds.
import OpenSys.Lib.Buffers
import OpenSys.Lib.Run
import OpenSys.Lib.Text
import OpenSys.Lib.Word

/-!
# The file system in memory

`src/fs/ramfs.c`. A table of 64 entries, each with a buffer from `kmalloc` that is doubled when
a write does not fit. A call that goes through a null pointer or leaves its buffer, or a growth
that does not end, has no result. Over the calls and their results stands the contents that a
file should have: what was written to it since its creation.
-/

namespace OpenSys

open OpenSys.Run List Function Option Nat Buffers

/-! ## The model -/

def ramMaxFiles : Nat := 64

/-- `MAX_FILENAME` -/
def ramMaxFilename : Nat := 32

/-- `ramfile_t`, with the buffer that `data` points to. -/
structure RamFile where
  name : List UInt8
  data : Option Nat
  size : Nat
  capacity : Nat
  isDirectory : Bool
  inUse : Bool

/-- The table and the heap. -/
structure Ramfs where
  files : Nat → RamFile
  initialized : Bool
  heap : Buffers

/-- An `uint32_t` that is returned as an `int`. -/
def i32 (n : Nat) : Int := if n < 2 ^ 31 then n else (n : Int) - 2 ^ 32

def Ramfs.setFile (s : Ramfs) (i : Nat) (f : RamFile) : Ramfs :=
  { s with files := update s.files i f }

/-- `ramfs_init` -/
def ramfsInit (s : Ramfs) : Ramfs :=
  { s with
    initialized := true
    files := fun i =>
      if i = 0 then ⟨[47], none, 0, 0, true, true⟩
      else
        { s.files i with inUse := false, data := none, size := 0, capacity := 0, isDirectory := false } }

/-- The first free entry behind the root. -/
def Ramfs.freeSlot (s : Ramfs) : Option Nat :=
  (List.range' 1 (ramMaxFiles - 1)).find? fun i => !(s.files i).inUse

/-- `ramfs_create` -/
def ramfsCreate (s : Ramfs) (name : List UInt8) : Int × Ramfs :=
  if s.initialized = false then (-1, s)
  else
    match s.freeSlot with
    | none => (-1, s)
    | some i =>
      let name := name.take (ramMaxFilename - 1)
      match s.heap.alloc 256 with
      | (none, heap) =>
        (-1, { s with heap := heap }.setFile i { s.files i with name := name, data := none })
      | (some b, heap) => (i, { s with heap := heap }.setFile i ⟨name, some b, 0, 256, false, true⟩)

/-- `ramfs_mkdir`; the capacity of the entry stays as it was. -/
def ramfsMkdir (s : Ramfs) (name : List UInt8) : Int × Ramfs :=
  if s.initialized = false then (-1, s)
  else
    match s.freeSlot with
    | none => (-1, s)
    | some i =>
      (0, s.setFile i { s.files i with
        name := name.take (ramMaxFilename - 1), isDirectory := true, inUse := true, size := 0,
        data := none })

/-- The entry that `ramfs_find` finds. -/
def Ramfs.lookup (s : Ramfs) (name : List UInt8) : Option Nat :=
  if s.initialized = false then none
  else (List.range ramMaxFiles).find? fun i => (s.files i).inUse && (s.files i).name == name

/-- `ramfs_find` -/
def ramfsFind (s : Ramfs) (name : List UInt8) : Int :=
  match s.lookup name with
  | none => -1
  | some i => i

/-- `ramfs_delete` -/
def ramfsDelete (s : Ramfs) (name : List UInt8) : Int × Ramfs :=
  match s.lookup name with
  | none => (-1, s)
  | some i =>
    (0, { s with heap := s.heap.release (s.files i).data }.setFile i
      { s.files i with inUse := false })

/-- The entry of a descriptor that passes the checks. -/
def Ramfs.slot (s : Ramfs) (fd : Int) : Option Nat :=
  if fd < 0 ∨ (ramMaxFiles : Int) ≤ fd ∨ (s.files fd.toNat).inUse = false then none
  else some fd.toNat

/-- The growth loop of `ramfs_write`, and whether it ends with enough room. There is no result
    when the rounds do not suffice. -/
def growFile : (rounds : Nat) → Ramfs → (i size : Nat) → Option (Bool × Ramfs)
  | 0, _, _, _ => none
  | rounds + 1, s, i, size =>
    let f := s.files i
    if f.capacity < u32 (f.size + size) then
      let newCap := u32 (f.capacity * 2)
      match s.heap.alloc newCap with
      | (none, heap) => some (false, { s with heap := heap })
      | (some p, heap) =>
        match heap.load f.data 0 f.size with
        | none => none
        | some old =>
          match heap.store (some p) 0 old with
          | none => none
          | some heap =>
            growFile rounds ({ s with heap := heap.release f.data }.setFile i
              { f with data := some p, capacity := newCap }) i size
    else some (true, s)

/-- `ramfs_write` -/
def ramfsWrite (rounds : Nat) (s : Ramfs) (fd : Int) (data : List UInt8) : Option (Int × Ramfs) :=
  match s.slot fd with
  | none => some (-1, s)
  | some i =>
    match growFile rounds s i data.length with
    | none => none
    | some (false, s) => some (-1, s)
    | some (true, s) =>
      let f := s.files i
      match s.heap.store f.data f.size data with
      | none => none
      | some heap =>
        some (i32 data.length, { s with heap := heap }.setFile i
          { f with size := u32 (f.size + data.length) })

/-- `ramfs_read`: the result and the bytes read. -/
def ramfsRead (s : Ramfs) (fd : Int) (size offset : Nat) : Option (Int × List UInt8) :=
  match s.slot fd with
  | none => some (-1, [])
  | some i =>
    let f := s.files i
    if f.size ≤ offset then some (0, [])
    else
      let toRead := if f.size < u32 (offset + size) then f.size - offset else size
      (s.heap.load f.data offset toRead).map fun bytes => (i32 toRead, bytes)

/-- `ramfs_size` -/
def ramfsSize (s : Ramfs) (fd : Int) : Nat :=
  match s.slot fd with
  | none => 0
  | some i => (s.files i).size

/-! ## Calls and what they should leave -/

inductive RamCall where
  | create (name : List UInt8)
  | mkdir (name : List UInt8)
  | delete (name : List UInt8)
  | write (fd : Int) (data : List UInt8)
  | read (fd : Int) (size offset : Nat)

/-- A call, its result and the state behind it. -/
def ramCall (rounds : Nat) (s : Ramfs) : RamCall → Option (Int × Ramfs)
  | .create name => some (ramfsCreate s name)
  | .mkdir name => some (ramfsMkdir s name)
  | .delete name => some (ramfsDelete s name)
  | .write fd data => ramfsWrite rounds s fd data
  | .read fd size offset => (ramfsRead s fd size offset).map fun r => (r.1, s)

/-- The state with the calls so far and their results. -/
structure RamRun where
  fs : Ramfs
  events : List (RamCall × Int)

def ramStep (rounds : Nat) (t : RamRun) (call : RamCall) : Option RamRun :=
  (ramCall rounds t.fs call).map fun r => ⟨r.2, t.events ++ [(call, r.1)]⟩

/-- What a call and its result mean for the contents of the file `i`. -/
def writtenBy (i : Nat) (content : List UInt8) : RamCall × Int → List UInt8
  | (.create _, result) => if result = i then [] else content
  | (.write fd data, result) => if fd = i ∧ result = data.length then content ++ data else content
  | _ => content

/-- The buffers of the writes to the file `i` that returned their full size, since its creation. -/
def written (i : Nat) (events : List (RamCall × Int)) : List UInt8 :=
  events.foldl (writtenBy i) []

/-- The entry that a call is about. -/
def RamCall.target (s : Ramfs) : RamCall → Option Nat
  | .create _ | .mkdir _ => s.freeSlot
  | .delete name => s.lookup name
  | .write fd _ => s.slot fd
  | .read _ _ _ => none

/-- The buffer of a write has fewer than `2 ^ 31` bytes. -/
def RamCall.Short : RamCall → Prop
  | .write _ data => data.length < 2 ^ 31
  | _ => True

/-- The calls that the file system is made for: a write goes to a file, which stays below
    `2 ^ 31` bytes, and the end of a read is an `uint32_t`. -/
def RamCall.Ok (s : Ramfs) : RamCall → Prop
  | .write fd data => ∀ i, s.slot fd = some i →
    (s.files i).isDirectory = false ∧ (s.files i).size + data.length < 2 ^ 31
  | .read _ size offset => offset + size < 2 ^ 32
  | _ => True

/-- An entry that is in use and no directory. -/
def Ramfs.isFile (s : Ramfs) (i : Nat) : Prop :=
  (s.files i).inUse = true ∧ (s.files i).isDirectory = false

/-- The bytes of an entry. -/
def Ramfs.content (s : Ramfs) (i : Nat) : List UInt8 :=
  (((s.files i).data.bind s.heap.live).getD []).take (s.files i).size

/-! ## The invariant -/

/-- A capacity that doubling can reach. -/
def Doubled (capacity : Nat) : Prop := capacity = 0 ∨ ∃ k ≤ 31, capacity = 2 ^ k

/-- What holds of an entry in use: its buffer is live and as long as its capacity says. -/
structure EntryOk (heap : Buffers) (f : RamFile) : Prop where
  buffer : ∀ b, f.data = some b →
    ∃ l, heap.live b = some l ∧ l.length = f.capacity ∧ f.size ≤ f.capacity
  null : f.data = none → f.size = 0 ∧ f.isDirectory = true
  positive : f.isDirectory = false → 0 < f.capacity

structure RamfsOk (s : Ramfs) : Prop where
  initialized : s.initialized = true
  entry : ∀ i, (s.files i).inUse = true → EntryOk s.heap (s.files i)
  apart : ∀ i j b, (s.files i).inUse = true → (s.files j).inUse = true →
    (s.files i).data = some b → (s.files j).data = some b → i = j
  bound : ∀ i, (s.files i).inUse = true → i < ramMaxFiles
  doubled : ∀ i, Doubled (s.files i).capacity

@[simp]
theorem setFile_self (s : Ramfs) (i : Nat) (f : RamFile) : (s.setFile i f).files i = f :=
  update_self ..

theorem setFile_of_ne (s : Ramfs) {i j : Nat} (f : RamFile) (h : j ≠ i) :
    (s.setFile i f).files j = s.files j :=
  update_of_ne h ..

theorem ramfsInit_ok (s : Ramfs) : RamfsOk (ramfsInit s) := by
  have hroot : ∀ i, ((ramfsInit s).files i).inUse = true → i = 0 := fun i hi => by
    by_contra hne
    simp [ramfsInit, hne] at hi
  refine ⟨rfl, fun i hi => ?_, fun i j b hi hj _ _ => (hroot i hi).trans (hroot j hj).symm,
    fun i hi => hroot i hi ▸ by decide, fun i => .inl ?_⟩
  · obtain rfl := hroot i hi
    exact ⟨nofun, fun _ => ⟨rfl, rfl⟩, nofun⟩
  · by_cases hi : i = 0 <;> simp [ramfsInit, hi]

/-- The table is in order behind a call, and only the entry `t` may have changed. -/
structure Touches (s s' : Ramfs) (t : Option Nat) : Prop where
  ok : RamfsOk s'
  other : ∀ j, t ≠ some j → s'.files j = s.files j ∧
    ((s.files j).inUse = true → s'.content j = s.content j)

section Invariant

variable {s s' s'' : Ramfs} {heap : Buffers} {f : RamFile} {i j n rounds : Nat} {t : Option Nat}
  {data : List UInt8}

theorem Touches.refl (h : RamfsOk s) : Touches s s t := ⟨h, fun _ _ => ⟨rfl, fun _ => rfl⟩⟩

theorem Touches.trans (h : Touches s s' t) (h' : Touches s' s'' t) : Touches s s'' t :=
  ⟨h'.ok, fun j hj => by
    obtain ⟨hf, hc⟩ := h.other j hj
    obtain ⟨hf', hc'⟩ := h'.other j hj
    exact ⟨hf'.trans hf, fun hu => (hc' (hf ▸ hu)).trans (hc hu)⟩⟩

variable {b : Nat} {fd r : Int} {call : RamCall}

theorem RamfsOk.not_owned (h : RamfsOk s) (hb : s.heap.live b = none)
    (hj : (s.files j).inUse = true) : (s.files j).data ≠ some b := fun hd => by
  obtain ⟨l, hl, -⟩ := (h.entry j hj).buffer b hd
  rw [hb] at hl
  cases hl

/-- Another entry `i`, over a heap in which the buffers of the other entries are as before. -/
theorem RamfsOk.setFile (h : RamfsOk s)
    (hframe : ∀ j, j ≠ i → (s.files j).inUse = true → ∀ b, (s.files j).data = some b →
      heap.live b = s.heap.live b)
    (hdouble : Doubled f.capacity) (hentry : f.inUse = true → EntryOk heap f ∧ i < ramMaxFiles)
    (hapart : f.inUse = true → ∀ j, j ≠ i → (s.files j).inUse = true → ∀ b, f.data = some b →
      (s.files j).data ≠ some b) :
    Touches s ({ s with heap := heap }.setFile i f) (some i) := by
  have hself : ({ s with heap := heap }.setFile i f).files i = f := setFile_self ..
  have hother : ∀ j, j ≠ i → ({ s with heap := heap }.setFile i f).files j = s.files j :=
    fun j hj => setFile_of_ne _ f hj
  refine ⟨⟨h.initialized, fun j hj => ?_, fun j k b hj hk hjb hkb => ?_, fun j hj => ?_,
    fun j => ?_⟩, fun j hj => ?_⟩
  · by_cases heq : j = i
    · subst heq
      rw [hself] at hj ⊢
      exact (hentry hj).1
    rw [hother j heq] at hj ⊢
    obtain ⟨hbuf, hnull, hpos⟩ := h.entry j hj
    refine ⟨fun b hb => ?_, hnull, hpos⟩
    obtain ⟨l, hl, hrest⟩ := hbuf b hb
    exact ⟨l, (hframe j heq hj b hb).trans hl, hrest⟩
  · by_cases hji : j = i <;> by_cases hki : k = i
    · rw [hji, hki]
    · rw [hji, hself] at hj hjb
      rw [hother k hki] at hk hkb
      exact absurd hkb (hapart hj k hki hk b hjb)
    · rw [hki, hself] at hk hkb
      rw [hother j hji] at hj hjb
      exact absurd hjb (hapart hk j hji hj b hkb)
    · rw [hother j hji] at hj hjb
      rw [hother k hki] at hk hkb
      exact h.apart j k b hj hk hjb hkb
  · by_cases heq : j = i
    · subst heq
      rw [hself] at hj
      exact (hentry hj).2
    · rw [hother j heq] at hj
      exact h.bound j hj
  · by_cases heq : j = i
    · rw [heq, hself]
      exact hdouble
    · rw [hother j heq]
      exact h.doubled j
  · have hne : j ≠ i := fun heq => hj (by rw [heq])
    refine ⟨hother j hne, fun hu => ?_⟩
    unfold Ramfs.content
    rw [hother j hne]
    cases hd : (s.files j).data with
    | none => rfl
    | some b =>
      rw [bind_some, bind_some, ← hframe j hne hu b hd]
      rfl

theorem content_setFile {l : List UInt8} (hd : f.data = some b) (hl : heap.live b = some l) :
    ({ s with heap := heap }.setFile i f).content i = l.take f.size := by
  rw [Ramfs.content, setFile_self, hd, bind_some]
  exact congrArg (fun l => (Option.getD l []).take f.size) hl

theorem EntryOk.content (h : EntryOk s.heap (s.files i)) (hb : (s.files i).data = some b) :
    ∃ l, s.heap.live b = some l ∧
      l.length = (s.files i).capacity ∧ (s.files i).size ≤ (s.files i).capacity ∧
      s.content i = l.take (s.files i).size := by
  obtain ⟨l, hl, hlen, hsize⟩ := h.buffer b hb
  refine ⟨l, hl, hlen, hsize, ?_⟩
  unfold Ramfs.content
  rw [hb, bind_some, hl]
  rfl

theorem Doubled.le {c : Nat} (h : Doubled c) : c ≤ 2 ^ 31 := by
  rcases h with rfl | ⟨k, hk, rfl⟩
  · exact zero_le _
  · exact Nat.pow_le_pow_right (by decide) hk

theorem EntryOk.size_le (h : EntryOk heap f) : f.size ≤ f.capacity := by
  cases hd : f.data with
  | none =>
    rw [(h.null hd).1]
    exact zero_le _
  | some b =>
    obtain ⟨-, -, -, hle⟩ := h.buffer b hd
    exact hle

theorem EntryOk.has_buffer (h : EntryOk heap f) (hdir : f.isDirectory = false) :
    ∃ b, f.data = some b :=
  ne_none_iff_exists'.mp fun hnull =>
    absurd (hdir.symm.trans (h.null hnull).2) (by decide)

theorem EntryOk.length_content (h : EntryOk s.heap (s.files i)) :
    (s.content i).length = (s.files i).size := by
  cases hd : (s.files i).data with
  | none => simp [(h.null hd).1, Ramfs.content]
  | some b =>
    obtain ⟨l, -, hlen, hle, hc⟩ := h.content hd
    rw [hc, length_take]
    omega

/-! ## Growing -/

/-- The entry with another buffer. -/
structure Regrown (s s' : Ramfs) (i : Nat) : Prop extends Touches s s' (some i) where
  entry : ∃ d c, s'.files i = { s.files i with data := d, capacity := c }
  content : s'.content i = s.content i

theorem Regrown.trans (h : Regrown s s' i) (h' : Regrown s' s'' i) : Regrown s s'' i := by
  obtain ⟨d, c, he⟩ := h.entry
  obtain ⟨d', c', he'⟩ := h'.entry
  exact ⟨h.toTouches.trans h'.toTouches, ⟨d', c', by rw [he', he]⟩, h'.content.trans h.content⟩

/-- The capacity behind a round of growth. Only the capacity `2 ^ 31` would wrap, and a file that
    needs more than that holds a byte, which the new buffer would not. -/
theorem grown_capacity (hcap : Doubled f.capacity) (hsize : f.size ≤ f.capacity) (hn : n < 2 ^ 31)
    (hgrow : f.capacity < u32 (f.size + n)) (hfit : f.size ≤ u32 (f.capacity * 2)) :
    Doubled (u32 (f.capacity * 2)) ∧ (0 < f.capacity → 0 < u32 (f.capacity * 2)) := by
  rcases hcap with h0 | ⟨k, hk, hcap⟩
  · rw [h0]
    exact ⟨.inl rfl, fun h => h⟩
  by_cases hlast : k = 31
  · subst hlast
    rw [hcap] at hgrow hfit hsize
    unfold u32 at hgrow hfit
    omega
  · have hu32 : u32 (f.capacity * 2) = 2 ^ (k + 1) := by
      rw [hcap, ← pow_succ]
      exact Nat.mod_eq_of_lt (Nat.pow_lt_pow_right (by decide) (by omega))
    rw [hu32]
    exact ⟨.inr ⟨k + 1, by omega, rfl⟩, fun _ => Nat.two_pow_pos _⟩

/-- A round of growth that gets a buffer. -/
theorem growRound (h : RamfsOk s) (hu : (s.files i).inUse = true) (hn : n < 2 ^ 31)
    (hgrow : (s.files i).capacity < u32 ((s.files i).size + n)) {p : Nat} {h₁ h₂ : Buffers}
    {old : List UInt8} (halloc : s.heap.alloc (u32 ((s.files i).capacity * 2)) = (some p, h₁))
    (hload : h₁.load (s.files i).data 0 (s.files i).size = some old)
    (hstore : h₁.store (some p) 0 old = some h₂) :
    Regrown s ({ s with heap := h₂.release (s.files i).data }.setFile i
      { s.files i with data := some p, capacity := u32 ((s.files i).capacity * 2) }) i := by
  have hentry := h.entry i hu
  obtain ⟨hfresh, ⟨l, hl, hlen⟩, hsame⟩ := alloc_some halloc
  -- the old bytes are the contents, whether there is a buffer or not
  have hold : old = s.content i := by
    cases hd : (s.files i).data with
    | none =>
      rw [hd, (hentry.null hd).1] at hload
      rw [Ramfs.content, (hentry.null hd).1, take_zero]
      exact (some.inj hload).symm
    | some b =>
      obtain ⟨lb, hlb, hlenb, hle, hc⟩ := hentry.content hd
      have hne : b ≠ p := fun heq => by rw [← heq, hlb] at hfresh; cases hfresh
      rw [hd, load_live ((hsame b hne).trans hlb) (by omega)] at hload
      rw [hc]
      exact (some.inj hload).symm
  obtain ⟨hfit, hnew, hsame'⟩ := store_of_live hl (zero_le _) hstore
  rw [zero_add, hold, hentry.length_content, hlen] at hfit
  have hlive : (h₂.release (s.files i).data).live p = some (splice l 0 old) := by
    rw [release_of_ne (h.not_owned hfresh hu), hnew]
  obtain ⟨hdouble, hpos⟩ := grown_capacity (h.doubled i) hentry.size_le hn hgrow hfit
  refine ⟨h.setFile (fun j hj hju b hb => ?_) hdouble
    (fun _ => ⟨⟨fun b hb => ?_, nofun, fun hd => hpos (hentry.positive hd)⟩, h.bound i hu⟩)
    (fun _ j hj hju b hb => ?_), ⟨some p, _, setFile_self ..⟩, ?_⟩
  · have hbp : b ≠ p := fun heq => h.not_owned hfresh hju (heq ▸ hb)
    have hbi : (s.files i).data ≠ some b := fun hi => hj (h.apart j i b hju hu hb hi)
    rw [release_of_ne hbi, hsame' b hbp, hsame b hbp]
  · cases hb
    refine ⟨_, hlive, ?_, hfit⟩
    rw [length_splice (by rw [hold, hentry.length_content, hlen]; omega), hlen]
  · cases hb
    exact h.not_owned hfresh hju
  · rw [content_setFile rfl hlive]
    have htake := take_splice (show 0 + old.length ≤ l.length by
      rw [hold, hentry.length_content, hlen]
      omega)
    rw [zero_add, take_zero, nil_append, hold, hentry.length_content] at htake
    rw [hold]
    exact htake

theorem growFile_spec (h : RamfsOk s) (hu : (s.files i).inUse = true) (hn : n < 2 ^ 31)
    {ok : Bool} (hg : growFile rounds s i n = some (ok, s')) :
    Regrown s s' i ∧ (ok = true → u32 ((s'.files i).size + n) ≤ (s'.files i).capacity) := by
  induction rounds generalizing s with
  | zero => cases hg
  | succ rounds ih =>
    unfold growFile at hg
    dsimp only at hg
    split at hg
    · next hgrow =>
      split at hg
      · next heap halloc =>
        cases hg
        have hlive := alloc_none halloc
        have hself : ({ s with heap := heap }.setFile i (s.files i)) = { s with heap := heap } := by
          rw [Ramfs.setFile, update_eq_self]
        have htouch : Touches s ({ s with heap := heap }.setFile i (s.files i)) (some i) :=
          h.setFile (fun j _ _ b _ => by rw [hlive]) (h.doubled i) (fun _ => ⟨?_, h.bound i hu⟩)
            (fun _ j hj hju b hb hbj => hj (h.apart j i b hju hu hbj hb))
        · rw [hself] at htouch
          refine ⟨⟨htouch, ⟨_, _, rfl⟩, ?_⟩, nofun⟩
          unfold Ramfs.content
          rw [hlive]
        · obtain ⟨hbuf, hnull, hpos⟩ := h.entry i hu
          exact ⟨hlive ▸ hbuf, hnull, hpos⟩
      · next p h₁ halloc =>
        split at hg
        · cases hg
        next old hload =>
        split at hg
        · cases hg
        next h₂ hstore =>
        have hround := growRound h hu hn hgrow halloc hload hstore
        obtain ⟨d, c, he⟩ := hround.entry
        obtain ⟨hrest, hfit⟩ := ih hround.ok (by rw [he]; exact hu) hg
        exact ⟨hround.trans hrest, hfit⟩
    · next hfit =>
      cases hg
      exact ⟨⟨.refl h, ⟨_, _, rfl⟩, rfl⟩, fun _ => not_lt.mp hfit⟩

/-! ## The calls -/

theorem slot_eq_some : s.slot fd = some i ↔
    fd = i ∧ i < ramMaxFiles ∧ (s.files i).inUse = true := by
  unfold Ramfs.slot
  constructor
  · intro h
    split at h
    · cases h
    next hok =>
    cases h
    rw [not_or, not_or] at hok
    exact ⟨by omega, by omega, by simpa using hok.2.2⟩
  · rintro ⟨rfl, hlt, hu⟩
    rw [if_neg (by simp [hu]; omega)]
    rfl

/-- What a write can do. -/
theorem ramfsWrite_spec (h : RamfsOk s) (hn : data.length < 2 ^ 31)
    (hw : ramfsWrite rounds s fd data = some (r, s')) : Touches s s' (s.slot fd) ∧
      ∀ i, s.slot fd = some i → (s'.files i).isDirectory = (s.files i).isDirectory ∧
        ((r = -1 ∧ s'.content i = s.content i) ∨
          (r = data.length ∧ s'.content i = s.content i ++ data)) := by
  unfold ramfsWrite at hw
  split at hw
  · next hslot =>
    cases hw
    exact ⟨.refl h, by rw [hslot]; nofun⟩
  next i hslot =>
  obtain ⟨rfl, hlt, hu⟩ := slot_eq_some.mp hslot
  rw [hslot]
  split at hw
  · cases hw
  · next s₁ hgrow =>
    cases hw
    obtain ⟨hr, -⟩ := growFile_spec h hu hn hgrow
    obtain ⟨d, c, he⟩ := hr.entry
    refine ⟨hr.toTouches, fun j hj => ?_⟩
    cases hj
    exact ⟨by rw [he], .inl ⟨rfl, hr.content⟩⟩
  · next s₁ hgrow =>
    obtain ⟨hr, -⟩ := growFile_spec h hu hn hgrow
    obtain ⟨d, c, he⟩ := hr.entry
    have hu₁ : (s₁.files i).inUse = true := by rw [he]; exact hu
    have hentry := hr.ok.entry i hu₁
    have hsize := hentry.size_le
    have hcap := (hr.ok.doubled i).le
    dsimp only at hw
    split at hw
    · cases hw
    next heap hstore =>
    cases hw
    have hdir : (({ s₁ with heap := heap }.setFile i { s₁.files i with
        size := u32 ((s₁.files i).size + data.length) }).files i).isDirectory =
        (s.files i).isDirectory := by
      rw [setFile_self, he]
    have hresult : i32 data.length = data.length := if_pos hn
    rcases store_some hstore with ⟨rfl, rfl⟩ | ⟨b, l, hb, hl, hfit, hnew, hsame⟩
    · -- nothing is written
      have hself : { s₁ with heap := s₁.heap }.setFile i { s₁.files i with
          size := u32 ((s₁.files i).size + ([] : List UInt8).length) } = s₁ := by
        have hu32 : u32 ((s₁.files i).size + ([] : List UInt8).length) = (s₁.files i).size :=
          mod_eq_of_lt (by simp only [length_nil]; omega)
        rw [hu32, Ramfs.setFile, update_eq_self]
      rw [hself] at hdir ⊢
      refine ⟨hr.toTouches, fun j hj => ?_⟩
      cases hj
      exact ⟨hdir, .inr ⟨hresult, by rw [hr.content, append_nil]⟩⟩
    · obtain ⟨l', hl', hlen, -, hc⟩ := hentry.content hb
      obtain rfl : l = l' := some.inj (hl.symm.trans hl')
      have hu32 : u32 ((s₁.files i).size + data.length) = (s₁.files i).size + data.length :=
        mod_eq_of_lt (by omega)
      refine ⟨hr.toTouches.trans (hr.ok.setFile (fun j hj hju c hc => ?_) (hr.ok.doubled i)
        (fun _ => ⟨⟨fun c hc => ?_, fun hnull => ?_, hentry.positive⟩, hlt⟩)
        (fun _ j hj hju c hc hcj => ?_)), fun j hj => ?_⟩
      · exact hsame c fun heq => hj (hr.ok.apart j i b hju hu₁ (heq ▸ hc) hb)
      · obtain rfl : b = c := some.inj (hb.symm.trans hc)
        refine ⟨_, hnew, (length_splice hfit).trans hlen, ?_⟩
        change u32 ((s₁.files i).size + data.length) ≤ (s₁.files i).capacity
        omega
      · rw [show _ = (s₁.files i).data from rfl, hb] at hnull
        cases hnull
      · exact hj (hr.ok.apart j i c hju hu₁ hcj hc)
      · cases hj
        refine ⟨hdir, .inr ⟨hresult, ?_⟩⟩
        have hafter := content_setFile (s := s₁) (i := i) (f := { s₁.files i with
          size := u32 ((s₁.files i).size + data.length) }) hb hnew
        rw [hafter, hu32, take_splice hfit, ← hc, hr.content]

theorem freeSlot_spec (hs : s.freeSlot = some i) : (s.files i).inUse = false ∧ i < ramMaxFiles := by
  have hfree := find?_some hs
  have hmem := mem_range'_1.mp (mem_of_find?_eq_some hs)
  exact ⟨by simpa using hfree, by rw [ramMaxFiles] at hmem ⊢; omega⟩

theorem lookup_spec {name : List UInt8} (hs : s.lookup name = some i) :
    (s.files i).inUse = true ∧ (s.files i).name = name := by
  unfold Ramfs.lookup at hs
  split at hs
  · cases hs
  · have hfound := find?_some hs
    simpa using hfound

/-- What a creation can do: the new file is empty. -/
theorem ramfsCreate_spec (h : RamfsOk s) (name : List UInt8) :
    Touches s (ramfsCreate s name).2 s.freeSlot ∧
      ∀ i, s.freeSlot = some i → ((ramfsCreate s name).2.isFile i →
        (ramfsCreate s name).1 = i ∧ (ramfsCreate s name).2.content i = []) := by
  unfold ramfsCreate
  rw [if_neg (by rw [h.initialized]; decide)]
  split
  · next hfull => exact ⟨hfull ▸ .refl h, by rw [hfull]; nofun⟩
  next i hslot =>
  obtain ⟨hfree, hlt⟩ := freeSlot_spec hslot
  rw [hslot]
  dsimp only
  split
  · next heap halloc =>
    have hlive := alloc_none halloc
    refine ⟨h.setFile (fun j _ _ b _ => by rw [hlive]) (h.doubled i) (fun hu => ?_) (fun hu => ?_),
      fun j hj hf => ?_⟩
    · exact absurd (hfree.symm.trans hu) (by decide)
    · exact absurd (hfree.symm.trans hu) (by decide)
    cases hj
    have hu := hf.1
    rw [setFile_self] at hu
    exact absurd (hfree.symm.trans hu) (by decide)
  · next b heap halloc =>
    obtain ⟨hfresh, ⟨l, hl, hlen⟩, hsame⟩ := alloc_some halloc
    refine ⟨h.setFile (fun j _ hju c hc => hsame c fun heq => ?_) (.inr ⟨8, by decide, rfl⟩)
      (fun _ => ⟨⟨fun c hc => ?_, nofun, fun _ => succ_pos _⟩, hlt⟩) (fun _ j _ hju c hc => ?_),
      fun j hj _ => ?_⟩
    · exact h.not_owned hfresh hju (heq ▸ hc)
    · cases hc
      exact ⟨l, hl, hlen, zero_le _⟩
    · cases hc
      exact h.not_owned hfresh hju
    · cases hj
      exact ⟨rfl, by rw [content_setFile rfl hl]; rfl⟩

/-- The result of a creation is no entry that was in use. -/
theorem ramfsCreate_result (h : RamfsOk s) (name : List UInt8) (hfile : s.isFile i) :
    (ramfsCreate s name).1 ≠ i := by
  unfold ramfsCreate
  rw [if_neg (by rw [h.initialized]; decide)]
  split
  · exact fun heq => by omega
  next k hslot =>
  dsimp only
  split
  · exact fun heq => by omega
  · intro heq
    obtain rfl : k = i := Int.ofNat.inj heq
    exact absurd ((freeSlot_spec hslot).1.symm.trans hfile.1) (by decide)

/-- A new directory is no file. -/
theorem ramfsMkdir_spec (h : RamfsOk s) (name : List UInt8) :
    Touches s (ramfsMkdir s name).2 s.freeSlot ∧
      ∀ i, s.freeSlot = some i → ¬ (ramfsMkdir s name).2.isFile i := by
  unfold ramfsMkdir
  rw [if_neg (by rw [h.initialized]; decide)]
  split
  · next hfull => exact ⟨hfull ▸ .refl h, by rw [hfull]; nofun⟩
  next i hslot =>
  obtain ⟨hfree, hlt⟩ := freeSlot_spec hslot
  rw [hslot]
  refine ⟨h.setFile (fun j _ _ b _ => rfl) (h.doubled i)
    (fun _ => ⟨⟨nofun, fun _ => ⟨rfl, rfl⟩, nofun⟩, hlt⟩) nofun, fun j hj hf => ?_⟩
  cases hj
  have hdir := hf.2
  rw [setFile_self] at hdir
  cases hdir

/-- A deleted file is gone. -/
theorem ramfsDelete_spec (h : RamfsOk s) (name : List UInt8) :
    Touches s (ramfsDelete s name).2 (s.lookup name) ∧
      ∀ i, s.lookup name = some i → ¬ (ramfsDelete s name).2.isFile i := by
  unfold ramfsDelete
  split
  · next hnone => exact ⟨hnone ▸ .refl h, by rw [hnone]; nofun⟩
  next i hfound =>
  obtain ⟨hu, -⟩ := lookup_spec hfound
  rw [hfound]
  refine ⟨h.setFile (fun j hj hju b hb => ?_) (h.doubled i) nofun nofun, fun j hj hf => ?_⟩
  · exact release_of_ne fun hi => hj (h.apart j i b hju hu hb hi)
  cases hj
  have hu := hf.1
  rw [setFile_self] at hu
  cases hu

/-- Every call keeps the table in order and changes only the entry it is about. -/
theorem ramCall_touches (h : RamfsOk s) (hshort : call.Short)
    (hc : ramCall rounds s call = some (r, s')) : Touches s s' (call.target s) := by
  cases call with
  | create name =>
    have hspec := (ramfsCreate_spec h name).1
    rwa [some.inj hc] at hspec
  | mkdir name =>
    have hspec := (ramfsMkdir_spec h name).1
    rwa [some.inj hc] at hspec
  | delete name =>
    have hspec := (ramfsDelete_spec h name).1
    rwa [some.inj hc] at hspec
  | write fd data => exact (ramfsWrite_spec h hshort hc).1
  | read fd size offset =>
    obtain ⟨_, -, hr⟩ := map_eq_some_iff.mp hc
    cases hr
    exact .refl h

/-- A file behind a call is a new one, or was a file before. -/
theorem ramCall_content (h : RamfsOk s) (hshort : call.Short)
    (hc : ramCall rounds s call = some (r, s')) {c : List UInt8}
    (hbefore : s.isFile i → s.content i = c) (hafter : s'.isFile i) :
    s'.content i = writtenBy i c (call, r) := by
  have htouch := ramCall_touches h hshort hc
  by_cases htarget : call.target s = some i
  · cases call with
    | create name =>
      have hspec := (ramfsCreate_spec h name).2 i htarget
      rw [some.inj hc] at hspec
      obtain ⟨hr, hempty⟩ := hspec hafter
      rw [hempty, writtenBy, if_pos hr]
    | mkdir name =>
      have hspec := (ramfsMkdir_spec h name).2 i htarget
      rw [some.inj hc] at hspec
      exact absurd hafter hspec
    | delete name =>
      have hspec := (ramfsDelete_spec h name).2 i htarget
      rw [some.inj hc] at hspec
      exact absurd hafter hspec
    | write fd data =>
      obtain ⟨rfl, -, hu⟩ := slot_eq_some.mp htarget
      obtain ⟨hdir, hwrote⟩ := (ramfsWrite_spec h hshort hc).2 i htarget
      have hfile : s.isFile i := ⟨hu, hdir ▸ hafter.2⟩
      rcases hwrote with ⟨rfl, hsame⟩ | ⟨rfl, happ⟩
      · rw [hsame, hbefore hfile, writtenBy, if_neg (by omega)]
      · rw [happ, hbefore hfile, writtenBy, if_pos ⟨rfl, rfl⟩]
    | read fd size offset => cases htarget
  · obtain ⟨hsame, hcontent⟩ := htouch.other i htarget
    have hfile : s.isFile i := by rwa [Ramfs.isFile, ← hsame]
    rw [hcontent hfile.1, hbefore hfile]
    cases call with
    | create name =>
      have hne := ramfsCreate_result h name hfile
      rw [some.inj hc] at hne
      rw [writtenBy, if_neg hne]
    | write fd data =>
      have hne : fd ≠ i := fun heq => htarget (slot_eq_some.mpr ⟨heq, h.bound i hfile.1, hfile.1⟩)
      rw [writtenBy, if_neg fun hw => hne hw.1]
    | mkdir name => rfl
    | delete name => rfl
    | read fd size offset => rfl

/-! ## Returning -/

/-- The growth of a file ends: its capacity doubles up to `2 ^ 31` at most. -/
theorem growFile_returns {k : Nat} (h : RamfsOk s) (hfile : s.isFile i)
    (hcap : (s.files i).capacity = 2 ^ k) (hfit : (s.files i).size + n < 2 ^ 31)
    (hrounds : 31 < rounds + k) : (growFile rounds s i n).isSome := by
  induction rounds generalizing s k with
  | zero =>
    have hle := (h.doubled i).le
    rw [hcap] at hle
    have := (Nat.pow_le_pow_iff_right (by decide)).mp hle
    omega
  | succ rounds ih =>
    obtain ⟨hu, hdir⟩ := hfile
    have hentry := h.entry i hu
    unfold growFile
    dsimp only
    split
    · next hgrow =>
      have hk : k < 31 := by
        refine (Nat.pow_lt_pow_iff_right (Nat.one_lt_two)).mp ?_
        rw [← hcap]
        exact hgrow.trans (by rwa [u32, Nat.mod_eq_of_lt (by omega)])
      have hnew : u32 ((s.files i).capacity * 2) = 2 ^ (k + 1) := by
        rw [hcap, ← Nat.pow_succ]
        exact Nat.mod_eq_of_lt (Nat.pow_lt_pow_right (by decide) (by omega))
      split
      · rfl
      next p h₁ halloc =>
      obtain ⟨hfresh, ⟨l, hl, hlen⟩, hsame⟩ := Buffers.alloc_some halloc
      obtain ⟨b, hb⟩ := hentry.has_buffer hdir
      obtain ⟨lb, hlb, hlenb, hle, hc⟩ := hentry.content hb
      have hne : b ≠ p := fun heq => by rw [← heq, hlb] at hfresh; cases hfresh
      have hload : h₁.load (s.files i).data 0 (s.files i).size = some (s.content i) := by
        rw [hb, Buffers.load_live ((hsame b hne).trans hlb) (by omega), hc]
        rfl
      obtain ⟨h₂, hstore⟩ := isSome_iff_exists.mp
        (Buffers.store_live hl (show 0 + (s.content i).length ≤ _ by
          rw [hentry.length_content, hlen, hnew, Nat.pow_succ, ← hcap]
          omega))
      rw [hload]
      dsimp only
      rw [hstore]
      have hround := growRound h hu (by omega) hgrow halloc hload hstore
      refine ih hround.ok ⟨?_, ?_⟩ ?_ ?_ (show 31 < rounds + (k + 1) by omega)
      · rw [setFile_self]
        exact hu
      · rw [setFile_self]
        exact hdir
      · rw [setFile_self]
        exact hnew
      · rw [setFile_self]
        exact hfit
    · rfl

/-- A write to a file finds room and stores its bytes there. -/
theorem ramfsWrite_returns (h : RamfsOk s) (hrounds : 32 ≤ rounds)
    (hok : RamCall.Ok s (.write fd data)) : (ramfsWrite rounds s fd data).isSome := by
  unfold ramfsWrite
  split
  · rfl
  next i hslot =>
  obtain ⟨rfl, -, hu⟩ := slot_eq_some.mp hslot
  obtain ⟨hdir, hfit⟩ := hok i hslot
  have hpos := (h.entry i hu).positive hdir
  obtain ⟨k, -, hcap⟩ := (h.doubled i).resolve_left (by omega)
  obtain ⟨⟨ok, s₁⟩, hgrow⟩ := isSome_iff_exists.mp
    (growFile_returns (k := k) h ⟨hu, hdir⟩ hcap hfit (show 31 < rounds + k by omega))
  obtain ⟨hr, hroom⟩ := growFile_spec h hu (by omega) hgrow
  rw [hgrow]
  cases ok with
  | false => rfl
  | true =>
    obtain ⟨d, c, he⟩ := hr.entry
    have hentry := hr.ok.entry i (by rw [he]; exact hu)
    obtain ⟨b, hb⟩ := hentry.has_buffer (by rw [he]; exact hdir)
    obtain ⟨l, hl, hlen, -⟩ := hentry.buffer b hb
    have hroom := hroom rfl
    have hsize : (s₁.files i).size = (s.files i).size := by rw [he]
    rw [u32, mod_eq_of_lt (by omega)] at hroom
    obtain ⟨heap, hstore⟩ := isSome_iff_exists.mp
      (store_live hl (show (s₁.files i).size + data.length ≤ _ by omega))
    dsimp only
    rw [hb, hstore]
    rfl

/-- A read of an entry gives the slice of its contents. -/
theorem ramfsRead_eq (h : RamfsOk s) (hu : (s.files i).inUse = true) {size offset : Nat}
    (hend : offset + size < 2 ^ 32) :
    ramfsRead s i size offset = some (i32 (((s.content i).drop offset).take size).length,
      ((s.content i).drop offset).take size) := by
  have hentry := h.entry i hu
  have hlength := hentry.length_content
  rw [ramfsRead, slot_eq_some.mpr ⟨rfl, h.bound i hu, hu⟩]
  dsimp only
  split
  · next hbehind =>
    rw [drop_eq_nil_of_le (by omega)]
    simp [i32]
  next hinside =>
  cases hd : (s.files i).data with
  | none =>
    have := (hentry.null hd).1
    omega
  | some b =>
    obtain ⟨l, hl, hlen, hle, hc⟩ := hentry.content hd
    have hu32 : u32 (offset + size) = offset + size := mod_eq_of_lt hend
    have hread : (if (s.files i).size < u32 (offset + size) then (s.files i).size - offset
        else size) = min size ((s.files i).size - offset) := by
      rw [hu32]
      split <;> omega
    have hslice : ((s.content i).drop offset).take size =
        (l.drop offset).take (min size ((s.files i).size - offset)) := by
      rw [hc, drop_take, take_take]
    rw [hread, load_live hl (by omega), hslice, map_some, length_take, length_drop]
    congr 3
    omega

theorem ramCall_returns (h : RamfsOk s) (hrounds : 32 ≤ rounds) (hok : call.Ok s) :
    (ramCall rounds s call).isSome := by
  cases call with
  | create name => rfl
  | mkdir name => rfl
  | delete name => rfl
  | write fd data => exact ramfsWrite_returns h hrounds hok
  | read fd size offset =>
    rw [ramCall, isSome_map]
    cases hslot : s.slot fd with
    | none =>
      rw [ramfsRead, hslot]
      rfl
    | some i =>
      obtain ⟨rfl, -, hu⟩ := slot_eq_some.mp hslot
      rw [ramfsRead_eq h hu hok]
      rfl

end Invariant

/-- What holds all along a run: the table is in order, and every file holds what was written to
    it. -/
structure RamLaw (t : RamRun) : Prop where
  ok : RamfsOk t.fs
  content : ∀ i, t.fs.isFile i → t.fs.content i = written i t.events

theorem RamLaw.step {rounds : Nat} {t t' : RamRun} {call : RamCall} (h : RamLaw t)
    (hshort : call.Short) (hstep : ramStep rounds t call = some t') : RamLaw t' := by
  obtain ⟨⟨r, s'⟩, hc, rfl⟩ := map_eq_some_iff.mp hstep
  refine ⟨(ramCall_touches h.ok hshort hc).ok, fun i hi => ?_⟩
  rw [ramCall_content h.ok hshort hc (h.content i) hi, written, written, foldl_append]
  rfl

/-- After any calls a file holds the buffers of the writes to it since its creation that returned
    their full size; a read gives its slice; the calls return; and a call on another entry
    changes nothing. -/
theorem ramfs_content_law (rounds : Nat) (hrounds : 32 ≤ rounds) (s₀ : Ramfs)
    (calls : List RamCall) (hshort : ∀ call ∈ calls, call.Short) (t : RamRun)
    (hrun : run (ramStep rounds) ⟨ramfsInit s₀, []⟩ calls = some t) :
    (∀ i, t.fs.isFile i → t.fs.content i = written i t.events) ∧
    (∀ i size offset, t.fs.isFile i → (written i t.events).length < 2 ^ 31 →
      offset + size < 2 ^ 32 →
      ramfsRead t.fs i size offset =
        some (((((written i t.events).drop offset).take size).length : Int),
          ((written i t.events).drop offset).take size)) ∧
    (∀ call : RamCall, call.Ok t.fs → (ramCall rounds t.fs call).isSome) ∧
    ∀ (call : RamCall) (r : Int) (s' : Ramfs), call.Short →
      ramCall rounds t.fs call = some (r, s') → ∀ i, t.fs.isFile i → call.target t.fs ≠ some i →
        s'.files i = t.fs.files i ∧ s'.content i = t.fs.content i := by
  have hstart : RamLaw ⟨ramfsInit s₀, []⟩ := by
    refine ⟨ramfsInit_ok s₀, fun i hi => ?_⟩
    by_cases hroot : i = 0
    · subst hroot
      cases hi.2
    · have hu := hi.1
      simp [ramfsInit, hroot] at hu
  have hlaw : RamLaw t :=
    run_invariant_of_mem (fun _ call hcall _ h => h.step (hshort call hcall)) hstart hrun
  refine ⟨hlaw.content, fun i size offset hi hsmall hend => ?_,
    fun call hok => ramCall_returns hlaw.ok hrounds hok, fun call r s' hs hc i hi hne => ?_⟩
  · rw [← hlaw.content i hi] at hsmall ⊢
    rw [ramfsRead_eq hlaw.ok hi.1 hend, i32, if_pos]
    rw [length_take, length_drop]
    omega
  · obtain ⟨hsame, hcontent⟩ := (ramCall_touches hlaw.ok hs hc).other i hne
    exact ⟨hsame, hcontent hi.1⟩

/-- A table before its initialization, over a heap that has all the memory it is asked for. -/
def blankRamfs : Ramfs where
  files _ := ⟨[], none, 0, 0, false, false⟩
  initialized := false
  heap := ⟨fun _ => none, 0, fun _ => some fun _ => 0, fun _ _ => rfl⟩

/-- A file is created and written twice. -/
def twoWrites : List RamCall := [.create (cstr "a"), .write 1 [1, 2], .write 1 [3]]

/-- The file holds both buffers. -/
theorem ramfs_content_law_two : ∃ t, run (ramStep 32) ⟨ramfsInit blankRamfs, []⟩ twoWrites = some t ∧
    t.fs.isFile 1 ∧ written 1 t.events = [1, 2, 3] ∧ t.fs.content 1 = written 1 t.events := by
  have heval : ((run (ramStep 32) ⟨ramfsInit blankRamfs, []⟩ twoWrites).any fun t =>
      (t.fs.files 1).inUse && !(t.fs.files 1).isDirectory && written 1 t.events == [1, 2, 3]) =
      true := by
    decide +kernel
  have hshort : ∀ call ∈ twoWrites, call.Short := by simp [twoWrites, RamCall.Short]
  cases hrun : run (ramStep 32) ⟨ramfsInit blankRamfs, []⟩ twoWrites with
  | none =>
    rw [hrun] at heval
    cases heval
  | some t =>
    rw [hrun, any_some, Bool.and_eq_true, Bool.and_eq_true, Bool.not_eq_true', beq_iff_eq]
      at heval
    exact ⟨t, rfl, heval.1, heval.2,
      (ramfs_content_law 32 le_rfl blankRamfs twoWrites hshort t hrun).1 1 heval.1⟩

end OpenSys
