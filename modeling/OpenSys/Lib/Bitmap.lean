-- SUMMARY: Packed bitmaps: reading, setting, clearing, and counting the clear bits.
import Mathlib.Data.Finset.Card
import Mathlib.Algebra.GroupWithZero.Nat
import Mathlib.Algebra.Order.Group.Nat

/-!
# Packed bitmaps

Index `i` lives in word `i / w` at bit `i % w`. `set` and `clear` are the usual
read-modify-write of one word, and `clearBits` is the set of indices below a
bound whose bit is clear, which is what a free counter counts.
-/

namespace OpenSys

open Finset BitVec

/-- The words of a bitmap, `w` bits each. -/
abbrev Bitmap (w : Nat) : Type := Nat → BitVec w

namespace Bitmap

variable {w : Nat} {m : Bitmap w} {i j n : Nat}

/-- The word with only bit `i % w` set. -/
def mask (w i : Nat) : BitVec w := 1#w <<< (i % w)

def get (m : Bitmap w) (i : Nat) : Bool := (m (i / w)).getLsbD (i % w)

def set (m : Bitmap w) (i : Nat) : Bitmap w :=
  Function.update m (i / w) (m (i / w) ||| mask w i)

def clear (m : Bitmap w) (i : Nat) : Bitmap w :=
  Function.update m (i / w) (m (i / w) &&& ~~~ mask w i)

/-- The indices below `n` whose bit is clear. -/
def clearBits (m : Bitmap w) (n : Nat) : Finset Nat :=
  (Finset.range n).filter fun i => m.get i = false

theorem mem_clearBits : i ∈ m.clearBits n ↔ i < n ∧ m.get i = false := by
  simp [clearBits]

theorem card_clearBits_le : (m.clearBits n).card ≤ n := by
  calc (m.clearBits n).card ≤ (Finset.range n).card := card_filter_le _ _
    _ = n := card_range n

/-- Two indices in one word are told apart by their bit numbers. -/
theorem mod_eq_iff_of_div_eq (h : i / w = j / w) : i % w = j % w ↔ i = j := by
  constructor
  · intro hmod
    rw [← Nat.div_add_mod i w, ← Nat.div_add_mod j w, h, hmod]
  · rintro rfl
    rfl

variable [NeZero w]

theorem getLsbD_mask (i k : Nat) : (mask w i).getLsbD k = decide (k = i % w) := by
  have hw : i % w < w := Nat.mod_lt _ (Nat.pos_of_neZero w)
  rw [mask, getLsbD_shiftLeft]
  by_cases hk : k = i % w
  · subst hk
    simp [hw, Nat.pos_of_neZero w]
  by_cases hlt : k < i % w
  · simp [hlt, hk]
  · have : k - i % w ≠ 0 := by omega
    simp [getLsbD_one, hk, this]

@[simp] theorem get_set : (m.set i).get j = (decide (j = i) || m.get j) := by
  by_cases hw : j / w = i / w
  · have hiff : j % w = i % w ↔ j = i := mod_eq_iff_of_div_eq hw
    simp [get, set, hw, getLsbD_mask, hiff, Bool.or_comm]
  · have hne : j ≠ i := fun h => hw (by rw [h])
    simp [get, set, hw, hne]

@[simp] theorem get_clear : (m.clear i).get j = (!decide (j = i) && m.get j) := by
  by_cases hw : j / w = i / w
  · have hiff : j % w = i % w ↔ j = i := mod_eq_iff_of_div_eq hw
    have hlt : j % w < w := Nat.mod_lt _ (Nat.pos_of_neZero w)
    simp only [get, clear, hw, Function.update_self, getLsbD_and, getLsbD_not,
      getLsbD_mask, hiff, hlt, decide_true, Bool.true_and]
    exact Bool.and_comm _ _
  · have hne : j ≠ i := fun h => hw (by rw [h])
    simp [get, clear, hw, hne]

/-- The test `m[i / w] & (1 << (i % w))` keeps at most the bit asked for. -/
theorem and_mask (i : Nat) : m (i / w) &&& mask w i = if m.get i then mask w i else 0#w := by
  apply eq_of_getLsbD_eq
  intro k hk
  rw [getLsbD_and, getLsbD_mask]
  by_cases hki : k = i % w
  · subst hki
    cases h : m.get i <;> simp_all [get, getLsbD_mask]
  · cases h : m.get i <;> simp [hki, getLsbD_mask]

theorem mask_ne_zero (i : Nat) : mask w i ≠ 0#w := by
  intro h
  have := getLsbD_mask (w := w) i (i % w)
  simp [h] at this

theorem and_mask_eq_zero_iff : m (i / w) &&& mask w i = 0#w ↔ m.get i = false := by
  rw [and_mask]
  cases h : m.get i <;> simp [mask_ne_zero]

theorem clearBits_set : (m.set i).clearBits n = (m.clearBits n).erase i := by
  ext j
  simp only [mem_clearBits, mem_erase, get_set, Bool.or_eq_false_iff, decide_eq_false_iff_not]
  tauto

theorem clearBits_clear (hi : i < n) : (m.clear i).clearBits n = insert i (m.clearBits n) := by
  ext j
  simp only [mem_clearBits, mem_insert, get_clear]
  by_cases hji : j = i
  · subst hji
    simp [hi]
  · simp [hji]

theorem card_clearBits_set (hi : i < n) (hget : m.get i = false) :
    ((m.set i).clearBits n).card + 1 = (m.clearBits n).card := by
  rw [clearBits_set]
  exact card_erase_add_one (mem_clearBits.mpr ⟨hi, hget⟩)

theorem clearBits_set_of_get (hget : m.get i = true) : (m.set i).clearBits n = m.clearBits n := by
  rw [clearBits_set]
  apply erase_eq_of_notMem
  simp [mem_clearBits, hget]

theorem card_clearBits_clear (hi : i < n) (hget : m.get i = true) :
    ((m.clear i).clearBits n).card = (m.clearBits n).card + 1 := by
  rw [clearBits_clear hi]
  apply card_insert_of_notMem
  simp [mem_clearBits, hget]

end Bitmap

end OpenSys
