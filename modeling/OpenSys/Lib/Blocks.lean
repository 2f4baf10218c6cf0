-- SUMMARY: Data in blocks of a memory, and what a write to one block changes.
import OpenSys.Lib.Memory

/-!
# Blocks

Blocks of one size lie at given places of a memory. Their bytes, one block after the other, are the
data. A write inside one block changes the data in one interval, as long as the blocks do not
overlap.
-/

namespace OpenSys.Blocks

open Mem List Nat

variable {m m' : Mem} {size n i offset p : Nat} {place : Nat → Nat} {l : List UInt8}

/-- Byte `p` of the data. -/
def view (size : Nat) (place : Nat → Nat) (m : Mem) (p : Nat) : UInt8 :=
  m (place (p / size) + p % size)

/-- The first `n` blocks do not overlap. -/
def Apart (size n : Nat) (place : Nat → Nat) : Prop :=
  ∀ i < n, ∀ j < n, i ≠ j → place i + size ≤ place j ∨ place j + size ≤ place i

/-- A byte of the data depends on its block only. -/
theorem view_congr (hpos : 0 < size)
    (h : ∀ x, place (p / size) ≤ x → x < place (p / size) + size → m' x = m x) :
    view size place m' p = view size place m p :=
  h _ (Nat.le_add_right _ _) (Nat.add_lt_add_left (Nat.mod_lt _ hpos) _)

/-- An interval inside block `i` holds the bytes whose block is `i` and whose offset is right. -/
theorem mem_interval_iff {k : Nat} (hpos : 0 < size) (hfit : offset + k ≤ size) :
    i * size + offset ≤ p ∧ p < i * size + offset + k ↔
      p / size = i ∧ offset ≤ p % size ∧ p % size < offset + k := by
  have hdiv : p = p / size * size + p % size := by
    rw [mul_comm]
    exact (div_add_mod p size).symm
  have hmod : p % size < size := mod_lt _ hpos
  constructor
  · rintro ⟨hlo, hhi⟩
    have hblock : p / size = i := by
      rcases lt_trichotomy (p / size) i with hlt | heq | hgt
      · have := mul_le_mul_right size (succ_le_of_lt hlt)
        rw [succ_mul] at this
        omega
      · exact heq
      · have := mul_le_mul_right size (succ_le_of_lt hgt)
        rw [succ_mul] at this
        omega
    rw [hblock] at hdiv
    exact ⟨hblock, by omega, by omega⟩
  · rintro ⟨rfl, hlo, hhi⟩
    omega

/-- A write inside block `i`. -/
theorem view_writeBytes (hpos : 0 < size) (hapart : Apart size n place) (hi : i < n)
    (hfit : offset + l.length ≤ size) (hp : p / size < n) :
    view size place (m.writeBytes (place i + offset) l) p =
      if i * size + offset ≤ p ∧ p < i * size + offset + l.length then
        l.getD (p - (i * size + offset)) 0
      else view size place m p := by
  have hmod : p % size < size := mod_lt _ hpos
  simp only [mem_interval_iff hpos hfit]
  by_cases hblock : p / size = i
  · by_cases hin : offset ≤ p % size ∧ p % size < offset + l.length
    · have hsub : p - (i * size + offset) = p % size - offset := by
        have := div_add_mod p size
        rw [mul_comm, hblock] at this
        omega
      rw [if_pos ⟨hblock, hin⟩, view, hblock, writeBytes, if_pos (by omega), hsub]
      congr 1
      omega
    · rw [if_neg fun h => hin h.2, view, hblock, writeBytes_outside (by omega), ← hblock]
      rfl
  · rw [if_neg fun h => hblock h.1, view]
    have := hapart _ hp i hi hblock
    exact writeBytes_outside (by omega)

/-- The blocks read one after the other. -/
theorem flatMap_readBytes (hpos : 0 < size) :
    (List.range n).flatMap (fun i => m.readBytes (place i) size) =
      (List.range (n * size)).map (view size place m) := by
  induction n with
  | zero => simp
  | succ n ih =>
    rw [range_succ, flatMap_append, ih, succ_mul, range_add, map_append, map_map]
    congr 1
    rw [flatMap_cons, flatMap_nil, append_nil]
    refine map_congr_left fun x hx => ?_
    have hlt := mem_range.mp hx
    rw [Function.comp_apply, view, mul_comm, mul_add_div hpos, div_eq_of_lt hlt,
      mul_add_mod, mod_eq_of_lt hlt, add_zero]

end OpenSys.Blocks
