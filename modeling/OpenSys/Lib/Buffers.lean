-- SUMMARY: A heap of separate byte buffers behind an allocator that may fail.
import OpenSys.Lib.Memory

/-!
# Buffers

An allocator hands out buffers that are apart from all others, with arbitrary contents, or
nothing. A buffer is known by the number of the call that made it. A read or write of at least
one byte through a null pointer, through a pointer to a released buffer, or beyond the end of a
buffer has no result.
-/

namespace OpenSys

open Function List

/-- The live buffers, and the answers of the allocator to come. -/
structure Buffers where
  live : Nat → Option (List UInt8)
  calls : Nat
  answer : Nat → Option Mem
  fresh : ∀ b, calls ≤ b → live b = none

namespace Buffers

variable {h h' : Buffers} {p : Option Nat} {b c n off : Nat} {l bytes : List UInt8}

theorem fresh_succ (h : Buffers) (b : Nat) (hb : h.calls + 1 ≤ b) : h.live b = none :=
  h.fresh b (Nat.le_of_succ_le hb)

theorem fresh_update (h : Buffers) (n : Nat) (m : Mem) (b : Nat) (hb : h.calls + 1 ≤ b) :
    update h.live h.calls (some (m.readBytes 0 n)) b = none := by
  rw [update_of_ne (by omega)]
  exact h.fresh_succ b hb

/-- A new buffer of `n` bytes, or null. -/
def alloc (h : Buffers) (n : Nat) : Option Nat × Buffers :=
  match h.answer h.calls with
  | none => (none, { h with calls := h.calls + 1, fresh := fresh_succ h })
  | some m => (some h.calls, { h with
      live := update h.live h.calls (some (m.readBytes 0 n))
      calls := h.calls + 1
      fresh := fresh_update h n m })

/-- Another contents for a buffer that is live. -/
def modify (h : Buffers) (b : Nat) (f : List UInt8 → Option (List UInt8)) : Buffers :=
  { h with
    live := update h.live b ((h.live b).bind f)
    fresh := fun c hc => by
      by_cases heq : c = b
      · rw [heq, update_self, h.fresh b (heq ▸ hc)]
        rfl
      · rw [update_of_ne heq]
        exact h.fresh c hc }

/-- A buffer is given back; null is ignored. -/
def release (h : Buffers) : Option Nat → Buffers
  | none => h
  | some b => h.modify b fun _ => none

/-- The bytes of a buffer with others written over them. -/
def splice (l : List UInt8) (off : Nat) (bytes : List UInt8) : List UInt8 :=
  l.take off ++ bytes ++ l.drop (off + bytes.length)

/-- `n` bytes from an offset on. -/
def load (h : Buffers) (p : Option Nat) (off n : Nat) : Option (List UInt8) :=
  if n = 0 then some []
  else
    match p.bind h.live with
    | none => none
    | some l => if off + n ≤ l.length then some ((l.drop off).take n) else none

/-- Bytes are written from an offset on. -/
def store (h : Buffers) (p : Option Nat) (off : Nat) (bytes : List UInt8) : Option Buffers :=
  if bytes = [] then some h
  else
    match p with
    | none => none
    | some b =>
      match h.live b with
      | none => none
      | some l =>
        if off + bytes.length ≤ l.length then some (h.modify b fun l => some (splice l off bytes))
        else none

/-- An allocation that succeeds gives a buffer that was not live, and touches no other. -/
theorem alloc_some (ha : h.alloc n = (some b, h')) : h.live b = none ∧
    (∃ l, h'.live b = some l ∧ l.length = n) ∧ ∀ c, c ≠ b → h'.live c = h.live c := by
  unfold alloc at ha
  split at ha
  · cases ha
  next m _ =>
  cases ha
  refine ⟨h.fresh _ le_rfl, ⟨m.readBytes 0 n, update_self .., by simp [Mem.readBytes]⟩,
    fun c hc => update_of_ne hc ..⟩

/-- One that fails touches none. -/
theorem alloc_none (ha : h.alloc n = (none, h')) : h'.live = h.live := by
  unfold alloc at ha
  split at ha
  · cases ha
    rfl
  · cases ha

theorem modify_self {f : List UInt8 → Option (List UInt8)} :
    (h.modify b f).live b = (h.live b).bind f := update_self ..

theorem modify_of_ne {f : List UInt8 → Option (List UInt8)} (hc : c ≠ b) :
    (h.modify b f).live c = h.live c := update_of_ne hc ..

theorem release_of_ne (hc : p ≠ some c) : (h.release p).live c = h.live c := by
  cases p with
  | none => rfl
  | some b => exact modify_of_ne fun heq => hc (by rw [heq])

theorem length_splice (hfit : off + bytes.length ≤ l.length) :
    (splice l off bytes).length = l.length := by
  simp only [splice, length_append, length_take, length_drop]
  omega

/-- What stands before the end of the bytes that were written. -/
theorem take_splice (hfit : off + bytes.length ≤ l.length) :
    (splice l off bytes).take (off + bytes.length) = l.take off ++ bytes := by
  rw [splice, take_append_of_le_length (by simp; omega), take_of_length_le (by simp)]

/-- A read of a live buffer within its length. -/
theorem load_live (hl : h.live b = some l) (hfit : off + n ≤ l.length) :
    h.load (some b) off n = some ((l.drop off).take n) := by
  unfold load
  split
  · next hn => rw [hn, take_zero]
  · rw [Option.bind_some, hl]
    exact if_pos hfit

/-- What a write can do. -/
theorem store_some (hs : h.store p off bytes = some h') : (bytes = [] ∧ h' = h) ∨
    ∃ b l, p = some b ∧ h.live b = some l ∧ off + bytes.length ≤ l.length ∧
      h'.live b = some (splice l off bytes) ∧ ∀ c, c ≠ b → h'.live c = h.live c := by
  unfold store at hs
  split at hs
  · next hnil => exact .inl ⟨hnil, (Option.some.inj hs).symm⟩
  split at hs
  · cases hs
  next b =>
  split at hs
  · cases hs
  next l hl =>
  split at hs
  · next hfit =>
    cases hs
    refine .inr ⟨b, l, rfl, hl, hfit, ?_, fun c hc => modify_of_ne hc⟩
    rw [modify_self, hl]
    rfl
  · cases hs

/-- A write to a live buffer, also one of no bytes. -/
theorem store_of_live (hl : h.live b = some l) (hoff : off ≤ l.length)
    (hs : h.store (some b) off bytes = some h') : off + bytes.length ≤ l.length ∧
      h'.live b = some (splice l off bytes) ∧ ∀ c, c ≠ b → h'.live c = h.live c := by
  rcases store_some hs with ⟨rfl, rfl⟩ | ⟨b', l', hb, hl', hrest⟩
  · refine ⟨hoff, ?_, fun _ _ => rfl⟩
    rw [hl, splice, append_nil, length_nil, Nat.add_zero, take_append_drop]
  cases hb
  rw [hl] at hl'
  cases hl'
  exact hrest

/-- A write within the length of a live buffer. -/
theorem store_live (hl : h.live b = some l) (hfit : off + bytes.length ≤ l.length) :
    (h.store (some b) off bytes).isSome := by
  unfold store
  split
  · rfl
  · simp only [hl, if_pos hfit, Option.isSome_some]

end Buffers

end OpenSys
