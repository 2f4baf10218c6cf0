-- SUMMARY: The parent_path buffer of fs_open, fs_mkdir and fs_rename.
import OpenSys.Fs.Tree

/-!
# The buffer for the parent part of a path

Three calls cut their path at the last slash and copy the front part into 256 bytes on the stack
before they look the parent up. The length of the front part is a C `int`. `fs_open` and
`fs_mkdir` copy all of it, whatever its length; `fs_rename` copies at most 254 bytes, but puts
the terminator behind the whole length. The model of the three calls gives `none`, for
undefined behaviour, where the buffer is not filled as intended; here the writes themselves
are followed, and the two descriptions are compared.
-/

namespace OpenSys

open Function List Nat

/-! ## The writes -/

/-- The value of a C `int` that a pointer difference `n` is converted to. -/
def toInt32 (n : Nat) : Int := (BitVec.ofNat 32 n).toInt

/-- `parent_path[i] = path[i]` -/
def copyWrite (path : List UInt8) (i : Nat) : Int × UInt8 := (i, path.getD i 0)

/-- The writes to `parent_path`, in order: the index and the byte. The copy loop of `fs_rename`
has a bound of its own. -/
def parentWrites (bound : Option Nat) (path : List UInt8) : List (Int × UInt8) :=
  let parentLen := toInt32 (lastSlash path)
  if parentLen = 0 then [(0, slash), (1, 0)]
  else
    let copied := match bound with
      | none => parentLen.toNat
      | some b => min parentLen.toNat b
    (List.range copied).map (copyWrite path) ++ [(parentLen, 0)]

/-- The bytes after some writes; a byte that nothing was written to is unset. -/
def bufferAfter (ws : List (Int × UInt8)) : Int → Option UInt8 :=
  ws.foldl (fun buf w => update buf w.1 (some w.2)) fun _ => none

/-- The writes stay in the 256 bytes and leave the parent part of the path there, with its
terminator. -/
structure ParentCopied (ws : List (Int × UInt8)) (path : List UInt8) : Prop where
  inside : ∀ w ∈ ws, 0 ≤ w.1 ∧ w.1 ≤ 255
  bytes : ∀ i < (splitPath path).1.length, bufferAfter ws i = some ((splitPath path).1.getD i 0)
  terminated : bufferAfter ws (splitPath path).1.length = some 0

/-! ## What the buffer holds -/

theorem bufferAfter_append (ws : List (Int × UInt8)) (i : Int) (b : UInt8) :
    bufferAfter (ws ++ [(i, b)]) = update (bufferAfter ws) i (some b) := by
  simp [bufferAfter]

/-- A byte beyond every write is unset. -/
theorem bufferAfter_beyond {ws : List (Int × UInt8)} {bound : Int} (h : ∀ w ∈ ws, w.1 ≤ bound) {i : Int}
    (hi : bound < i) : bufferAfter ws i = none := by
  induction ws using List.reverseRecOn with
  | nil => rfl
  | append_singleton ws w ih =>
    rw [bufferAfter_append, update_of_ne]
    · exact ih fun v hv => h v (mem_append_left _ hv)
    · have := h w (by simp)
      omega

/-- The copy loop sets the bytes it has reached. -/
theorem bufferAfter_copy (path : List UInt8) (n i : Nat) :
    bufferAfter ((List.range n).map (copyWrite path)) i =
      if i < n then some (path.getD i 0) else none := by
  induction n with
  | zero => rfl
  | succ n ih =>
    rw [range_succ, map_append, map_singleton, copyWrite, bufferAfter_append]
    by_cases hi : i = n
    · subst hi
      rw [update_self, if_pos (lt_succ_self i)]
    · rw [update_of_ne (by omega), ih]
      simp only [show i < n + 1 ↔ i < n by omega]

theorem toInt32_eq {n : Nat} (h : n < 2 ^ 31) : toInt32 n = n := by
  rw [toInt32, BitVec.toInt_eq_toNat_cond, BitVec.toNat_ofNat, mod_eq_of_lt (by omega),
    if_pos (by omega)]

theorem lastSlash_le_length (path : List UInt8) : lastSlash path ≤ path.length := by
  induction path with
  | nil => exact le_refl 0
  | cons c path ih =>
    rw [lastSlash]
    split
    · simpa using ih
    · exact zero_le _

theorem splitPath_front {path : List UInt8} (h : lastSlash path ≠ 0) :
    (splitPath path).1 = path.take (lastSlash path) ∧
      (splitPath path).1.length = lastSlash path := by
  have hfront : (splitPath path).1 = path.take (lastSlash path) := if_neg h
  refine ⟨hfront, ?_⟩
  rw [hfront, length_take, min_eq_left (lastSlash_le_length path)]

/-- A front part that ends behind the buffer is not copied, not even when its length as an `int`
is small: its terminator is not where it belongs. -/
theorem ParentCopied.lastSlash_le {ws : List (Int × UInt8)} {path : List UInt8}
    (h : ParentCopied ws path) : lastSlash path ≤ 255 := by
  by_contra hlong
  have hterm := h.terminated
  rw [(splitPath_front (by omega)).2, bufferAfter_beyond (fun w hw => (h.inside w hw).2) (by omega)]
    at hterm
  cases hterm

/-- A path whose only slash is its first byte, or that has none. -/
theorem parentCopied_root {path : List UInt8} {bound : Option Nat} (h : lastSlash path = 0) :
    ParentCopied (parentWrites bound path) path := by
  have hws : parentWrites bound path = [(0, slash), (1, 0)] := by
    simp only [parentWrites, h]
    rfl
  have hfront : (splitPath path).1 = [slash] := if_pos h
  refine ⟨?_, ?_, ?_⟩
  · rw [hws]
    decide
  · intro i hi
    rw [hfront] at hi
    obtain rfl : i = 0 := by simpa using hi
    rw [hfront, hws]
    rfl
  · rw [hfront, hws]
    rfl

/-- The front part is copied when the loop does not stop before its end. -/
theorem parentCopied_of_le {path : List UInt8} {bound : Option Nat} (hlen : lastSlash path ≤ 255)
    (hbound : ∀ b, bound = some b → lastSlash path ≤ b) :
    ParentCopied (parentWrites bound path) path := by
  by_cases hzero : lastSlash path = 0
  · exact parentCopied_root hzero
  have hint : toInt32 (lastSlash path) = lastSlash path := toInt32_eq (by omega)
  obtain ⟨hfront, hfrontLen⟩ := splitPath_front hzero
  have hws : parentWrites bound path = (List.range (lastSlash path)).map (copyWrite path) ++
        [((lastSlash path : Int), 0)] := by
    simp only [parentWrites, hint, Int.toNat_natCast]
    rw [if_neg (by omega)]
    cases bound with
    | none => rfl
    | some b => simp only [min_eq_left (hbound b rfl)]
  refine ⟨?_, ?_, ?_⟩
  · intro w hw
    rw [hws] at hw
    rcases mem_append.mp hw with hw | hw
    · obtain ⟨i, hi, rfl⟩ := mem_map.mp hw
      have := mem_range.mp hi
      constructor <;> dsimp only [copyWrite] <;> omega
    · rw [mem_singleton.mp hw]
      constructor <;> dsimp only <;> omega
  · intro i hi
    rw [hfrontLen] at hi
    rw [hws, bufferAfter_append, update_of_ne (by omega), bufferAfter_copy, if_pos hi, hfront]
    simp [getD_eq_getElem?_getD, hi]
  · rw [hws, hfrontLen, bufferAfter_append, update_self]

/-- With a loop that stops early the terminator stands alone, and a byte before it is unset. -/
theorem not_parentCopied_of_bound {path : List UInt8} {b : Nat} (hb : b < lastSlash path) :
    ¬ ParentCopied (parentWrites (some b) path) path := by
  intro h
  have hlen := h.lastSlash_le
  have hint : toInt32 (lastSlash path) = lastSlash path := toInt32_eq (by omega)
  have hfrontLen := (@splitPath_front path (by omega)).2
  have hws : parentWrites (some b) path =
      (List.range b).map (copyWrite path) ++ [((lastSlash path : Int), 0)] := by
    simp only [parentWrites, hint, Int.toNat_natCast]
    rw [if_neg (by omega), min_eq_right (by omega)]
  have hbyte := h.bytes b (by omega)
  rw [hws, bufferAfter_append, update_of_ne (by omega), bufferAfter_copy, if_neg (by omega)] at hbyte
  cases hbyte

/-! ## The three calls -/

/-- A call that splits a path. -/
inductive ParentCall where
  | open (path : List UInt8) (mode : Nat)
  | mkdir (path : List UInt8)
  | rename (old new : List UInt8)

namespace ParentCall

/-- The path that is split. -/
def path : ParentCall → List UInt8
  | .open path _ => path
  | .mkdir path => path
  | .rename _ new => new

/-- The bound of the copy loop, where it has one. -/
def copyBound : ParentCall → Option Nat
  | .open _ _ => none
  | .mkdir _ => none
  | .rename _ _ => some 254

/-- The longest front part that the call handles. -/
def longest : ParentCall → Nat
  | .open _ _ => 255
  | .mkdir _ => 255
  | .rename _ _ => 254

/-- The call comes to the point where it fills the buffer. -/
def Splits (s : Fs) : ParentCall → Prop
  | .open path mode => findFile s path = none ∧ mode ≠ 0 ∧ (allocMftEntry s).isSome
  | .mkdir path => path ≠ [] ∧ (allocMftEntry s).isSome
  | .rename old new => old.head? = some slash ∧ new.head? = some slash ∧ (findFile s old).isSome ∧
      (splitPath new).2 ≠ []

/-- What the call fills the buffer with, if it comes to it, is the parent part of its path. -/
def Copies (s : Fs) (call : ParentCall) : Prop :=
  call.Splits s → ParentCopied (parentWrites call.copyBound call.path) call.path

/-- The model of the call has no result. -/
def undefined (s : Fs) : ParentCall → Prop
  | .open path mode => fsOpen s path mode = none
  | .mkdir path => fsMkdir s path = none
  | .rename old new => fsRename s old new = none

end ParentCall

theorem parentCopied_iff (call : ParentCall) :
    ParentCopied (parentWrites call.copyBound call.path) call.path ↔
      lastSlash call.path ≤ call.longest := by
  cases call with
  | «open» path mode =>
    exact ⟨ParentCopied.lastSlash_le, fun h => parentCopied_of_le h (by intro b hb; cases hb)⟩
  | mkdir path =>
    exact ⟨ParentCopied.lastSlash_le, fun h => parentCopied_of_le h (by intro b hb; cases hb)⟩
  | rename old new =>
    constructor
    · intro h
      by_contra hlong
      exact not_parentCopied_of_bound (Nat.lt_of_not_le hlong) h
    intro h
    refine parentCopied_of_le (le_succ_of_le h) ?_
    intro b hb
    cases hb
    exact h

/-- The model of the calls is undefined exactly where the buffer is not filled as intended, and
for an empty path that `fs_open` is to create. -/
theorem ParentCall.undefined_iff (s : Fs) (call : ParentCall) : call.undefined s ↔ call.Splits s ∧
      (¬ ParentCopied (parentWrites call.copyBound call.path) call.path ∨
        ∃ mode, call = .open [] mode) := by
  rw [parentCopied_iff]
  cases call with
  | «open» path mode =>
    simp only [undefined, Splits, fsOpen, ParentCall.path, longest]
    cases hfind : findFile s path with
    | some i => simp
    | none =>
      by_cases hmode : mode = 0
      · simp [hmode]
      cases halloc : OpenSys.allocMftEntry s with
      | none => simp [hmode]
      | some i =>
        by_cases hpath : path = [] ∨ 255 < lastSlash path
        · rcases hpath with rfl | hlong
          · simp [hmode]
          · simp [hmode, hlong]
        · push Not at hpath
          simp only [hmode, if_false, hpath.1, false_or, not_lt.mpr hpath.2]
          split <;> simp [hpath.1, hpath.2]
  | mkdir path =>
    simp only [undefined, Splits, fsMkdir, ParentCall.path, longest]
    by_cases hpath : path = []
    · simp [hpath]
    cases halloc : OpenSys.allocMftEntry s with
    | none => simp [hpath]
    | some i =>
      by_cases hlong : 255 < lastSlash path
      · simp [hpath, hlong]
      cases hparent : findFile s (splitPath path).1 with
      | none => simp [hpath, hlong]
      | some parent =>
        simp only [hpath, hlong, if_false]
        split <;> simp [not_lt.mp hlong]
  | rename old new =>
    simp only [undefined, Splits, fsRename, ParentCall.path, longest]
    by_cases hhead : old.head? ≠ some slash ∨ new.head? ≠ some slash
    · rcases hhead with hhead | hhead <;> simp [hhead]
    push Not at hhead
    cases hfind : findFile s old with
    | none => simp [hhead.1, hhead.2]
    | some i =>
      by_cases hname : (splitPath new).2 = []
      · simp [hhead.1, hhead.2, hname]
      by_cases hlong : 254 < lastSlash new
      · simp [hhead.1, hhead.2, hname, hlong]
      · simp only [hhead.1, hhead.2, hname, hlong, if_false, ne_eq, not_true_eq_false, or_self]
        repeat' split
        all_goals simp [not_lt.mp hlong]

/-- A call fills its buffer with the parent part of its path, within the 256 bytes, if and only if
it does not come to the buffer or the last slash is early enough: at index 255 at the latest for
`fs_open` and `fs_mkdir`, at index 254 for `fs_rename`. -/
theorem parent_path_copied_iff (s : Fs) (call : ParentCall) :
    call.Copies s ↔ (call.Splits s → lastSlash call.path ≤ call.longest) := by
  simp only [ParentCall.Copies, parentCopied_iff]

/-- A directory name of 254 letters and a new name in it: the slash between them is at index 255. -/
def deepName : List UInt8 := slash :: (List.replicate 254 97 ++ [slash, 98])

/-- On a new volume, a rename into that directory leaves the last byte of the parent part unset. -/
theorem rename_unset_byte :
    ¬ (ParentCall.rename [slash] deepName).Copies (fsFormat emptyFs 0 (2048 * 512) true) := by
  intro h
  have hformatted := fsFormat_formatted (s := emptyFs) 0 (2048 * 512) true
  have hroot : (findFile (fsFormat emptyFs 0 (2048 * 512) true) [slash]).isSome := by
    rw [hformatted.findFile_root]
    rfl
  have hlast : lastSlash deepName = 255 := by decide +kernel
  have hname : (splitPath deepName).2 ≠ [] := by decide +kernel
  have hbeyond : 254 < lastSlash deepName := by rw [hlast]; omega
  exact not_parentCopied_of_bound hbeyond (h ⟨rfl, rfl, hroot, hname⟩)

end OpenSys
