-- SUMMARY: A ring buffer of fixed capacity as a queue.
import Mathlib.Data.Nat.ModEq
import Mathlib.Data.List.Basic

/-!
# Ring buffers

A buffer of `cap` cells is used round and round. `contents` is the queue that starts at
`tail`; storing behind it appends, and moving `tail` forward drops from the front.
-/

namespace OpenSys.RingBuffer

open Function

variable {α : Type*} {cap : Nat} {buf : Nat → α} {l : List α}

/-- The `n` cells from `tail` on. -/
def contents (cap : Nat) (buf : Nat → α) (tail n : Nat) : List α :=
  (List.range n).map fun i => buf ((tail + i) % cap)

/-- Store `l` from `head` on, one cell after the other. -/
def store (cap : Nat) (buf : Nat → α) (head : Nat) : List α → Nat → α
  | [] => buf
  | a :: l => store cap (update buf (head % cap) a) (head + 1) l

@[simp] theorem length_contents (tail n : Nat) : (contents cap buf tail n).length = n := by
  simp [contents]

theorem contents_add (tail n k : Nat) :
    contents cap buf tail (n + k) = contents cap buf tail n ++ contents cap buf (tail + n) k := by
  simp [contents, List.range_add, Nat.add_assoc, Function.comp_def]

@[simp] theorem contents_mod (tail n : Nat) :
    contents cap buf (tail % cap) n = contents cap buf tail n := by
  simp [contents]

/-- Two cells less than a round apart are different. -/
theorem mod_ne {head i j : Nat} (hij : i < j) (hj : j < i + cap) :
    (head + i) % cap ≠ (head + j) % cap := by
  intro h
  have hmod : 0 ≡ j - i [MOD cap] := by
    refine Nat.ModEq.add_left_cancel' (head + i) ?_
    rw [Nat.add_zero, show head + i + (j - i) = head + j by omega]
    exact h
  have hzero := hmod.eq_of_lt_of_lt (by omega) (by omega)
  omega

theorem store_outside {head x : Nat} (hx : ∀ i < l.length, x ≠ (head + i) % cap) :
    store cap buf head l x = buf x := by
  induction l generalizing buf head with
  | nil => rfl
  | cons a l ih =>
    have hrest : ∀ i < l.length, x ≠ (head + 1 + i) % cap := by
      intro i hi
      have := hx (i + 1) (by simpa using hi)
      rwa [show head + (i + 1) = head + 1 + i by omega] at this
    rw [store, ih hrest]
    exact update_of_ne (by simpa using hx 0 (by simp)) _ _

theorem contents_store_self {head : Nat} (hl : l.length ≤ cap) :
    contents cap (store cap buf head l) head l.length = l := by
  induction l generalizing buf head with
  | nil => rfl
  | cons a l ih =>
    rw [List.length_cons] at hl ⊢
    have hfirst : store cap (update buf (head % cap) a) (head + 1) l (head % cap) = a := by
      rw [store_outside, update_self]
      intro i hi
      have h : (head + 0) % cap ≠ (head + (i + 1)) % cap := mod_ne (by omega) (by omega)
      rwa [Nat.add_zero, show head + (i + 1) = head + 1 + i by omega] at h
    rw [store, Nat.add_comm l.length 1, contents_add, ih (by omega)]
    simp [contents, hfirst]

/-- Storing behind the queue appends to it, as long as everything fits in the buffer. -/
theorem contents_store {tail n : Nat} (hl : n + l.length ≤ cap) :
    contents cap (store cap buf (tail + n) l) tail (n + l.length) =
      contents cap buf tail n ++ l := by
  have hkept : contents cap (store cap buf (tail + n) l) tail n = contents cap buf tail n := by
    apply List.map_congr_left
    intro i hi
    rw [List.mem_range] at hi
    apply store_outside
    intro j hj
    rw [Nat.add_assoc tail n j]
    exact mod_ne (by omega) (by omega)
  rw [contents_add, hkept, contents_store_self (by omega)]

@[simp] theorem store_mod (head : Nat) : store cap buf (head % cap) l = store cap buf head l := by
  induction l generalizing buf head with
  | nil => rfl
  | cons a l ih =>
    rw [store, store, Nat.mod_mod, ← ih (head % cap + 1), ← ih (head + 1)]
    congr 1
    exact (Nat.mod_add_mod _ _ _)

end OpenSys.RingBuffer
