-- SUMMARY: Byte memories: little-endian reads and writes, agreement and frame rules.
import Mathlib.Logic.Function.Basic
import Mathlib.Tactic.Ring

/-!
# Byte memories

A memory gives a byte for every address. Numbers are stored little-endian. A read
depends only on the bytes of its range, so it does not see a write elsewhere; that two ranges
are apart is left to `omega`.
-/

namespace OpenSys

open Function List Nat

abbrev Mem := Nat → UInt8

namespace Mem

variable {m m' m'' : Mem} {a b k n v : Nat}

/-- The number in the `k` bytes at `a`. -/
def readLE (m : Mem) : Nat → Nat → Nat
  | _, 0 => 0
  | a, k + 1 => (m a).toNat + 256 * readLE m (a + 1) k

/-- Store `v` in the `k` bytes at `a`. -/
def writeLE (m : Mem) (a k v : Nat) : Mem := fun x =>
  if a ≤ x ∧ x < a + k then UInt8.ofNat (v / 256 ^ (x - a)) else m x

/-- The two memories have the same `k` bytes at `a`. -/
def Agree (m m' : Mem) (a k : Nat) : Prop := ∀ x, a ≤ x → x < a + k → m' x = m x

/-- Store the bytes `l` at `a`. -/
def writeBytes (m : Mem) (a : Nat) (l : List UInt8) : Mem := fun x =>
  if a ≤ x ∧ x < a + l.length then l.getD (x - a) 0 else m x

/-- The `n` bytes at `a`. -/
def readBytes (m : Mem) (a n : Nat) : List UInt8 := (List.range n).map fun i => m (a + i)

/-- Move `n` bytes from `src` to `dst`, the first one first. -/
def moveBytes (m : Mem) (dst src : Nat) : Nat → Mem
  | 0 => m
  | n + 1 =>
    let m := moveBytes m dst src n
    update m (dst + n) (m (src + n))

/-- From `m` to `m'` only bytes at addresses in `R` change. -/
def Frame (R : Nat → Prop) (m m' : Mem) : Prop := ∀ x, ¬ R x → m' x = m x

theorem Agree.refl (m : Mem) (a k : Nat) : Agree m m a k := fun _ _ _ => rfl

theorem Agree.trans (h : Agree m m' a k) (h' : Agree m' m'' a k) : Agree m m'' a k :=
  fun x hx hx' => (h' x hx hx').trans (h x hx hx')

theorem Agree.mono (h : Agree m m' a k) (hin : a ≤ b ∧ b + n ≤ a + k) :
    Agree m m' b n :=
  fun x hx hx' => h x (by omega) (by omega)

theorem Agree.readLE_eq (h : Agree m m' a k) : readLE m' a k = readLE m a k := by
  induction k generalizing a with
  | zero => rfl
  | succ k ih =>
    have hrest : Agree m m' (a + 1) k := h.mono (by omega)
    rw [readLE, readLE, h a (le_refl a) (by omega), ih hrest]

theorem readLE_lt (m : Mem) (a k : Nat) : readLE m a k < 256 ^ k := by
  induction k generalizing a with
  | zero => simp [readLE]
  | succ k ih =>
    have hbyte : (m a).toNat < 256 := (m a).toNat_lt
    have hrest := ih (a + 1)
    rw [readLE, pow_succ]
    omega

theorem writeLE_outside {x : Nat} (hx : x < a ∨ a + k ≤ x) : writeLE m a k v x = m x := by
  rw [writeLE, if_neg (by omega)]

/-- A write changes only its own range. -/
theorem agree_writeLE (h : b + n ≤ a ∨ a + k ≤ b) : Agree m (writeLE m a k v) b n := by
  exact fun x hx hx' => writeLE_outside (by omega)

theorem readLE_writeLE_of_disjoint (h : b + n ≤ a ∨ a + k ≤ b) :
    readLE (writeLE m a k v) b n = readLE m b n :=
  (agree_writeLE h).readLE_eq

/-- What was written is read back, truncated to the width. -/
theorem readLE_writeLE_mod : readLE (writeLE m a k v) a k = v % 256 ^ k := by
  induction k generalizing a v with
  | zero => simp [readLE, mod_one]
  | succ k ih =>
    -- The bytes after the first are those of the quotient.
    have hrest : Agree (writeLE m (a + 1) k (v / 256)) (writeLE m a (k + 1) v) (a + 1) k := by
      intro x hx hx'
      have hpow : 256 ^ (x - a) = 256 * 256 ^ (x - (a + 1)) := by
        rw [← pow_succ']
        congr 1
        omega
      rw [writeLE, writeLE, if_pos (by omega), if_pos (by omega), hpow, Nat.div_div_eq_div_mul]
    have hfirst : (writeLE m a (k + 1) v a).toNat = v % 256 := by
      rw [writeLE, if_pos (by omega), Nat.sub_self, pow_zero, Nat.div_one]
      exact UInt8.toNat_ofNat'
    rw [readLE, hfirst, hrest.readLE_eq, ih, pow_succ', Nat.mod_mul]

theorem readLE_writeLE (h : v < 256 ^ k) : readLE (writeLE m a k v) a k = v := by
  rw [readLE_writeLE_mod, mod_eq_of_lt h]

/-! ## Byte strings -/

variable {l : List UInt8} {R R' : Nat → Prop}

theorem writeBytes_outside {x : Nat} (hx : x < a ∨ a + l.length ≤ x) :
    writeBytes m a l x = m x := by
  rw [writeBytes, if_neg (by omega)]

@[simp] theorem length_readBytes : (readBytes m a n).length = n := by simp [readBytes]

theorem Agree.readBytes_eq (h : Agree m m' a k) : readBytes m' a k = readBytes m a k :=
  map_congr_left fun i hi => h (a + i) (by omega) (by have := mem_range.mp hi; omega)

theorem agree_of_readBytes (h : readBytes m' a k = readBytes m a k) : Agree m m' a k := by
  intro x hx hx'
  have hbyte := congrArg (·[x - a]?) h
  simp only [readBytes, getElem?_map] at hbyte
  rw [getElem?_range (by omega), Option.map_some, Option.map_some, Option.some_inj,
    Nat.add_sub_cancel' hx] at hbyte
  exact hbyte

theorem Agree.readLE (h : Agree m m' a k) (hin : a ≤ b ∧ b + n ≤ a + k) :
    readLE m' b n = readLE m b n :=
  (h.mono hin).readLE_eq

/-- A write of bytes changes only its own range. -/
theorem agree_writeBytes (h : b + n ≤ a ∨ a + l.length ≤ b) :
    Agree m (writeBytes m a l) b n :=
  fun _ _ _ => writeBytes_outside (by omega)

theorem readLE_writeBytes_of_disjoint (h : b + n ≤ a ∨ a + l.length ≤ b) :
    readLE (writeBytes m a l) b n = readLE m b n :=
  (agree_writeBytes h).readLE_eq

theorem readBytes_append : readBytes m a (n + k) = readBytes m a n ++ readBytes m (a + n) k := by
  simp only [readBytes, range_add, map_append, map_map, Function.comp_def, add_assoc]

theorem readBytes_writeBytes : readBytes (writeBytes m a l) a l.length = l := by
  refine ext_getElem (by simp) fun i hi _ => ?_
  rw [length_readBytes] at hi
  simp only [readBytes, getElem_map, getElem_range, writeBytes]
  rw [if_pos (by omega), Nat.add_sub_cancel_left, getD_eq_getElem?_getD,
    getElem?_eq_getElem hi, Option.getD_some]

theorem moveBytes_outside {dst src x : Nat} (hx : x < dst ∨ dst + n ≤ x) :
    moveBytes m dst src n x = m x := by
  induction n with
  | zero => rfl
  | succ n ih =>
    rw [moveBytes, update_of_ne (by omega), ih (by omega)]

/-! ## Moved bytes -/

/-- The `k` bytes at `b` of `m` are at `a` in `m'`. -/
def Shifted (m m' : Mem) (b a k : Nat) : Prop := ∀ i, i < k → m' (a + i) = m (b + i)

theorem Agree.shifted (h : Agree m m' a k) : Shifted m m' a a k :=
  fun i hi => h (a + i) (by omega) (by omega)

theorem Shifted.mono (h : Shifted m m' b a k) {j : Nat} (hj : j + n ≤ k) :
    Shifted m m' (b + j) (a + j) n := fun i hi => by
  rw [add_assoc, add_assoc]
  exact h (j + i) (by omega)

theorem Shifted.readLE_eq (h : Shifted m m' b a k) : readLE m' a k = readLE m b k := by
  induction k generalizing a b with
  | zero => rfl
  | succ k ih =>
    have hfirst : m' a = m b := h 0 (by omega)
    rw [readLE, readLE, hfirst, ih (h.mono (j := 1) (by omega))]

theorem Shifted.readBytes_eq (h : Shifted m m' b a k) : readBytes m' a k = readBytes m b k :=
  map_congr_left fun i hi => h i (mem_range.mp hi)

/-- Moving bytes down does not overwrite a byte before it is read. -/
theorem moveBytes_down {dst src : Nat} (h : dst ≤ src) :
    Shifted m (moveBytes m dst src n) src dst n := by
  intro i hi
  induction n with
  | zero => omega
  | succ n ih =>
    rw [moveBytes]
    by_cases heq : i = n
    · subst heq
      rw [update_self, moveBytes_outside (by omega)]
    · rw [update_of_ne (by omega), ih (by omega)]

/-! ## Frames -/

theorem Frame.refl (R : Nat → Prop) (m : Mem) : Frame R m m := fun _ _ => rfl

theorem Frame.trans (h : Frame R m m') (h' : Frame R m' m'') : Frame R m m'' :=
  fun x hx => (h' x hx).trans (h x hx)

theorem Frame.mono (h : Frame R m m') (hR : ∀ x, R x → R' x) : Frame R' m m' :=
  fun x hx => h x fun hx' => hx (hR x hx')

theorem Frame.agree (h : Frame R m m') (hR : ∀ x, a ≤ x → x < a + k → ¬ R x) :
    Agree m m' a k :=
  fun x hx hx' => h x (hR x hx hx')

theorem Frame.readLE (h : Frame R m m') (hR : ∀ x, a ≤ x → x < a + k → ¬ R x) :
    readLE m' a k = readLE m a k :=
  (h.agree hR).readLE_eq

theorem Frame.writeLE (h : Frame R m m') (hR : ∀ x, a ≤ x → x < a + k → R x) :
    Frame R m (writeLE m' a k v) :=
  fun x hx => (writeLE_outside (by
    by_contra hin
    exact hx (hR x (by omega) (by omega)))).trans (h x hx)

theorem Frame.writeBytes (h : Frame R m m') (hR : ∀ x, a ≤ x → x < a + l.length → R x) :
    Frame R m (writeBytes m' a l) :=
  fun x hx => (writeBytes_outside (by
    by_contra hin
    exact hx (hR x (by omega) (by omega)))).trans (h x hx)

theorem Frame.moveBytes {dst src : Nat} (h : Frame R m m')
    (hR : ∀ x, dst ≤ x → x < dst + n → R x) : Frame R m (moveBytes m' dst src n) :=
  fun x hx => (moveBytes_outside (by
    by_contra hin
    exact hx (hR x (by omega) (by omega)))).trans (h x hx)

end Mem

end OpenSys
