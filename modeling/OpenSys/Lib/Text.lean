-- SUMMARY: Byte strings and fields between separators.
import Mathlib.Data.List.Basic

/-!
# Text

A C string is the list of its bytes before the terminating zero. Texts made of fields that
a separator introduces can be cut again in one way only, as long as no field contains the
separator.
-/

namespace OpenSys

open List

/-- The bytes of a string literal. -/
def cstr (s : String) : List UInt8 := s.toList.map Char.toUInt8

namespace Text

variable {α : Type*} {sep : α} {fields : List (List α)} {a b s t : List α}

/-- The fields one behind the other, each introduced by the separator. -/
def fielded (sep : α) (fields : List (List α)) : List α := fields.flatMap (sep :: ·)

@[simp]
theorem fielded_nil : fielded sep [] = [] := rfl

@[simp]
theorem fielded_cons : fielded sep (a :: fields) = sep :: a ++ fielded sep fields := rfl

theorem fielded_append {more : List (List α)} :
    fielded sep (fields ++ more) = fielded sep fields ++ fielded sep more := by
  rw [fielded, flatMap_append, ← fielded, ← fielded]

theorem mem_fielded {x : α} (h : x ∈ fielded sep fields) : x = sep ∨ ∃ f ∈ fields, x ∈ f := by
  obtain ⟨f, hf, hx⟩ := mem_flatMap.mp h
  rcases mem_cons.mp hx with rfl | hx
  · exact .inl rfl
  · exact .inr ⟨f, hf, hx⟩

/-- Two texts that go on with the separator, or end, have the same first field. -/
theorem append_sep_inj (ha : sep ∉ a) (hb : sep ∉ b) (hs : s = [] ∨ s.head? = some sep)
    (ht : t = [] ∨ t.head? = some sep) (h : a ++ s = b ++ t) : a = b ∧ s = t := by
  induction a generalizing b with
  | nil =>
    cases b with
    | nil => exact ⟨rfl, h⟩
    | cons x b =>
      -- `s` would start with a byte of `b`, which is not the separator
      have hx : s = x :: (b ++ t) := h
      rcases hs with rfl | hs
      · cases hx
      · rw [hx, head?_cons, Option.some.injEq] at hs
        exact absurd (hs ▸ mem_cons_self) hb
  | cons x a ih =>
    cases b with
    | nil =>
      have hx : t = x :: (a ++ s) := h.symm
      rcases ht with rfl | ht
      · cases hx
      · rw [hx, head?_cons, Option.some.injEq] at ht
        exact absurd (ht ▸ mem_cons_self) ha
    | cons y b =>
      obtain ⟨rfl, htail⟩ := List.cons.inj h
      obtain ⟨rfl, hst⟩ := ih (not_mem_of_not_mem_cons ha) (not_mem_of_not_mem_cons hb)
        htail
      exact ⟨rfl, hst⟩

theorem fielded_starts : fielded sep fields = [] ∨ (fielded sep fields).head? = some sep := by
  cases fields with
  | nil => exact .inl rfl
  | cons f fields => exact .inr rfl

/-- The first field and the others, with the separator between them. -/
def joined (sep : α) : List (List α) → List α
  | [] => []
  | a :: fields => a ++ fielded sep fields

section Cut

variable [DecidableEq α]

theorem takeWhile_field (ha : sep ∉ a) (hs : s = [] ∨ s.head? = some sep) :
    (a ++ s).takeWhile (· != sep) = a := by
  have hall : ∀ x ∈ a, (x != sep) = true := fun x hx => bne_iff_ne.mpr fun h => ha (h ▸ hx)
  rw [takeWhile_append_of_pos hall]
  cases s with
  | nil => simp
  | cons x s =>
    have hx : x = sep := by simpa using hs
    simp [hx]

theorem dropWhile_field (ha : sep ∉ a) (hs : s = [] ∨ s.head? = some sep) :
    (a ++ s).dropWhile (· != sep) = s := by
  have hall : ∀ x ∈ a, (x != sep) = true := fun x hx => bne_iff_ne.mpr fun h => ha (h ▸ hx)
  rw [dropWhile_append_of_pos hall]
  cases s with
  | nil => rfl
  | cons x s =>
    have hx : x = sep := by simpa using hs
    simp [hx]

theorem dropWhile_sep (ha : sep ∉ a) (hne : a ≠ []) : (a ++ s).dropWhile (· == sep) = a ++ s := by
  cases a with
  | nil => exact absurd rfl hne
  | cons x a =>
    have hx : x ≠ sep := fun h => ha (h ▸ mem_cons_self)
    simp [hx]

end Cut

end Text

end OpenSys
