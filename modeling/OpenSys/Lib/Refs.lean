-- SUMMARY: Counting the slots that point to an object.
import Mathlib.Algebra.Order.Ring.Int
import Mathlib.Data.Finset.Card
import Mathlib.Data.Finset.Prod
import Mathlib.Data.Fintype.Basic

/-!
# Reference counting

Slots indexed by `κ` hold at most one object each, and `S` is the finite set of
slots that exist. `refs S slot n` counts the slots that hold `n`, `used S slot`
those that hold anything. The lemmas say how the two counts change when one slot
is overwritten and when empty slots come into existence or disappear.
-/

namespace OpenSys.Refs

open Function Finset

variable {κ ν : Type*} {S T : Finset κ} {slot slot' : κ → Option ν} {k : κ} {v : Option ν} {n : ν}

/-- The number of slots in `S` that hold an object. -/
def used (S : Finset κ) (slot : κ → Option ν) : Nat :=
  (S.filter fun k => (slot k).isSome).card

theorem used_eq_zero (h : ∀ k ∈ S, slot k = none) : used S slot = 0 := by
  rw [used, card_eq_zero, filter_eq_empty_iff]
  intro k hk
  simp [h k hk]

/-- Overwriting one slot changes the number of slots with a property by what the
    old and the new value contribute. -/
private theorem card_filter_update [DecidableEq κ] (p : Option ν → Prop) [DecidablePred p]
    (hk : k ∈ S) :
    ((S.filter fun j => p (update slot k v j)).card : Int) =
      (S.filter fun j => p (slot j)).card - (if p (slot k) then 1 else 0) +
        (if p v then 1 else 0) := by
  -- Split off the slot itself; the others are the same on both sides.
  have hsplit : ∀ f : κ → Option ν, ((S.filter fun j => p (f j)).card : Int) =
      ((S.erase k).filter fun j => p (f j)).card + (if p (f k) then 1 else 0) := by
    intro f
    rw [← insert_erase hk, filter_insert]
    split
    · rw [card_insert_of_notMem (by simp)]
      simp
    · simp
  have hrest : ((S.erase k).filter fun j => p (update slot k v j)) =
      (S.erase k).filter fun j => p (slot j) := by
    apply filter_congr
    intro j hj
    rw [update_of_ne (ne_of_mem_erase hj)]
  rw [hsplit (update slot k v), hsplit slot, hrest, update_self]
  omega

theorem used_update [DecidableEq κ] (hk : k ∈ S) : (used S (update slot k v) : Int) =
      used S slot - (if (slot k).isSome then 1 else 0) + (if v.isSome then 1 else 0) :=
  card_filter_update (fun o => o.isSome) hk

variable [DecidableEq ν]

/-- The number of slots in `S` that hold `n`. -/
def refs (S : Finset κ) (slot : κ → Option ν) (n : ν) : Nat :=
  (S.filter fun k => slot k = some n).card

theorem refs_update [DecidableEq κ] (hk : k ∈ S) (n : ν) :
    (refs S (update slot k v) n : Int) =
      refs S slot n - (if slot k = some n then 1 else 0) + (if v = some n then 1 else 0) :=
  card_filter_update (fun o => o = some n) hk

/-- A slot that holds `n` is counted. -/
theorem refs_pos (hk : k ∈ S) (h : slot k = some n) : 0 < refs S slot n :=
  card_pos.mpr ⟨k, mem_filter.mpr ⟨hk, h⟩⟩

theorem refs_eq_zero_iff : refs S slot n = 0 ↔ ∀ k ∈ S, slot k ≠ some n := by
  rw [refs, card_eq_zero, filter_eq_empty_iff]

/-- Empty slots do not count, so two sets of slots that differ only in empty ones
    give the same counts. -/
theorem refs_congr (hST : ∀ k, slot k ≠ none → (k ∈ S ↔ k ∈ T)) : refs S slot = refs T slot := by
  funext n
  have hfilter : (S.filter fun k => slot k = some n) = T.filter fun k => slot k = some n := by
    ext k
    simp only [mem_filter, and_congr_left_iff]
    intro hk
    exact hST k (by simp [hk])
  rw [refs, refs, hfilter]

theorem refs_congr_slot (h : ∀ k ∈ S, slot k = slot' k) : refs S slot = refs S slot' := by
  funext n
  have hfilter : (S.filter fun k => slot k = some n) = S.filter fun k => slot' k = some n :=
    filter_congr fun k hk => by rw [h k hk]
  rw [refs, refs, hfilter]

end OpenSys.Refs
