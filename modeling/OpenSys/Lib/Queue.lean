-- SUMMARY: Intrusive doubly linked queues as lists of their nodes.
import Mathlib.Data.Fintype.Card
import Mathlib.Logic.Function.Basic

/-!
# Intrusive queues

The links of the queue are stored with its nodes, so any node can be appended at
any time, also one that is already queued. `IsQueue q l` says that the links form
a proper queue whose nodes are `l`, front first. `push` and `pop` keep this as
long as a pushed node is not in `l`.
-/

namespace OpenSys.Queue

open List Function

variable {κ : Type*}

/-- The links of all nodes, and the two ends. -/
structure Links (κ : Type*) where
  next : κ → Option κ
  prev : κ → Option κ
  head : Option κ
  tail : Option κ

/-- Append `x`. The links of `x` itself are reset first. -/
def push [DecidableEq κ] (q : Links κ) (x : κ) : Links κ where
  next := match q.tail with
    | none => update q.next x none
    | some t => update (update q.next x none) t (some x)
  prev := update q.prev x q.tail
  head := match q.tail with
    | none => some x
    | some _ => q.head
  tail := some x

/-- Take the front node off. Its own links stay as they are. -/
def pop [DecidableEq κ] (q : Links κ) : Option (κ × Links κ) :=
  q.head.map fun x =>
    (x, match q.next x with
      | none => { q with head := none, tail := none }
      | some h => { q with head := some h, prev := update q.prev h none })

/-- The nodes `l` are linked in this order, and `p` stands before the first. -/
def Linked (next prev : κ → Option κ) : Option κ → List κ → Prop
  | _, [] => True
  | p, a :: l => prev a = p ∧ next a = l.head? ∧ Linked next prev (some a) l

structure IsQueue (q : Links κ) (l : List κ) : Prop where
  nodup : l.Nodup
  head : q.head = l.head?
  tail : q.tail = l.getLast?
  linked : Linked q.next q.prev none l

/-- The nodes met from `p` on, at most `fuel` many. -/
def walk (next : κ → Option κ) : Nat → Option κ → List κ
  | 0, _ => []
  | _, none => []
  | fuel + 1, some a => a :: walk next fuel (next a)

/-- The number of nodes from `p` on, or `none` when the end is not met. -/
def countFrom (next : κ → Option κ) : Nat → Option κ → Option Nat
  | _, none => some 0
  | 0, some _ => none
  | fuel + 1, some a => (countFrom next fuel (next a)).map (· + 1)

variable {next prev next' prev' : κ → Option κ} {p : Option κ} {l : List κ} {x : κ} {q : Links κ}

theorem Linked.congr (h : Linked next prev p l) (hnext : ∀ a ∈ l, next' a = next a)
    (hprev : ∀ a ∈ l, prev' a = prev a) : Linked next' prev' p l := by
  induction l generalizing p with
  | nil => trivial
  | cons a l ih =>
    obtain ⟨ha, hn, hl⟩ := h
    refine ⟨(hprev a mem_cons_self).trans ha, (hnext a mem_cons_self).trans hn, ?_⟩
    exact ih hl (fun b hb => hnext b (mem_cons_of_mem a hb))
      (fun b hb => hprev b (mem_cons_of_mem a hb))

/-- Appending a node: the last node gets a successor, everything before it keeps
    its links. -/
theorem Linked.concat (h : Linked next prev p l) (hl : l.Nodup)
    (hlast : ∀ t, l.getLast? = some t → next' t = some x)
    (hnext : ∀ a ∈ l, l.getLast? ≠ some a → next' a = next a)
    (hprev : ∀ a ∈ l, prev' a = prev a)
    (hx : next' x = none) (hpx : prev' x = l.getLast?.or p) :
    Linked next' prev' p (l ++ [x]) := by
  induction l generalizing p with
  | nil => exact ⟨hpx, hx, trivial⟩
  | cons a l ih =>
    obtain ⟨ha, hn, hrest⟩ := h
    obtain ⟨hal, hl⟩ := nodup_cons.mp hl
    have hfirst : next' a = (l ++ [x]).head? := by
      cases l with
      | nil => exact hlast a rfl
      | cons b l =>
        have hne : (a :: b :: l).getLast? ≠ some a := fun heq =>
          hal (mem_of_getLast? (by simpa using heq))
        exact (hnext a mem_cons_self hne).trans hn
    refine ⟨(hprev a mem_cons_self).trans ha, hfirst, ih hrest hl ?_ ?_ ?_ ?_⟩
    · intro t ht
      exact hlast t (by simp [getLast?_cons, ht])
    · intro b hb hne
      refine hnext b (mem_cons_of_mem a hb) ?_
      cases hlast' : l.getLast? with
      | none => simp [getLast?_eq_none_iff.mp hlast'] at hb
      | some t =>
        rw [hlast'] at hne
        simpa [getLast?_cons, hlast'] using hne
    · exact fun b hb => hprev b (mem_cons_of_mem a hb)
    · rw [hpx, getLast?_cons]
      cases l.getLast? <;> rfl

theorem IsQueue.push [DecidableEq κ] (h : IsQueue q l) (hx : x ∉ l) :
    IsQueue (push q x) (l ++ [x]) where
  nodup := by
    rw [nodup_append]
    refine ⟨h.nodup, nodup_singleton x, ?_⟩
    rintro a ha b hb rfl
    exact hx (mem_singleton.mp hb ▸ ha)
  head := by
    cases l with
    | nil =>
      have ht : q.tail = none := h.tail
      simp [Queue.push, ht]
    | cons a l =>
      obtain ⟨t, ht⟩ : ∃ t, q.tail = some t := by simp [h.tail, getLast?_cons]
      simp [Queue.push, ht, h.head]
  tail := by simp [Queue.push]
  linked := by
    have hprev : ∀ a ∈ l, (Queue.push q x).prev a = q.prev a := by
      intro a ha
      have hne : a ≠ x := fun heq => hx (heq ▸ ha)
      exact update_of_ne hne _ _
    have hpx : (Queue.push q x).prev x = l.getLast?.or none := by
      simp [Queue.push, h.tail]
    cases htail : q.tail with
    | none =>
      have hnext : (Queue.push q x).next = update q.next x none := by
        simp [Queue.push, htail]
      have hl : l = [] := getLast?_eq_none_iff.mp (h.tail ▸ htail)
      subst hl
      exact ⟨hpx, by simp [hnext], trivial⟩
    | some t =>
      have hlast : l.getLast? = some t := h.tail ▸ htail
      have hne : x ≠ t := fun heq => hx (heq ▸ mem_of_getLast? hlast)
      have hnext : (Queue.push q x).next =
          update (update q.next x none) t (some x) := by
        simp [Queue.push, htail]
      refine h.linked.concat h.nodup ?_ ?_ hprev ?_ hpx
      · intro t' ht'
        obtain rfl : t = t' := Option.some.inj (hlast.symm.trans ht')
        simp [hnext]
      · intro a ha hat
        have hat' : a ≠ t := fun heq => hat (heq ▸ hlast)
        have hax : a ≠ x := fun heq => hx (heq ▸ ha)
        simp [hnext, hat', hax]
      · simp [hnext, hne]

theorem IsQueue.pop_nil [DecidableEq κ] (h : IsQueue q []) : pop q = none := by
  simp [pop, h.head]

theorem IsQueue.pop_cons [DecidableEq κ] (h : IsQueue q (x :: l)) :
    ∃ q', pop q = some (x, q') ∧ IsQueue q' l := by
  obtain ⟨hxl, hnodup⟩ := nodup_cons.mp h.nodup
  obtain ⟨-, hnext, hlinked⟩ := h.linked
  cases l with
  | nil =>
    refine ⟨{ q with head := none, tail := none }, ?_, hnodup, rfl, rfl, trivial⟩
    simp only [head?_nil] at hnext
    simp [pop, h.head, hnext]
  | cons b l =>
    refine ⟨{ q with head := some b, prev := update q.prev b none }, ?_, hnodup, rfl,
      ?_, ?_⟩
    · simp only [head?_cons] at hnext
      simp [pop, h.head, hnext]
    · simpa [getLast?_cons] using h.tail
    obtain ⟨-, hb, hrest⟩ := hlinked
    obtain ⟨hbl, -⟩ := nodup_cons.mp hnodup
    refine ⟨update_self b none q.prev, hb, hrest.congr (fun _ _ => rfl) ?_⟩
    intro a ha
    have hne : a ≠ b := fun heq => hbl (heq ▸ ha)
    exact update_of_ne hne _ _

theorem Linked.walk_eq (h : Linked next prev p l) {fuel : Nat} (hfuel : l.length ≤ fuel) :
    walk next fuel l.head? = l := by
  induction l generalizing p fuel with
  | nil => cases fuel <;> rfl
  | cons a l ih =>
    obtain ⟨-, hn, hl⟩ := h
    cases fuel with
    | zero => simp at hfuel
    | succ fuel =>
      rw [length_cons] at hfuel
      rw [head?_cons, walk, hn, ih hl (by omega)]

theorem Linked.countFrom_eq (h : Linked next prev p l) {fuel : Nat} (hfuel : l.length ≤ fuel) :
    countFrom next fuel l.head? = some l.length := by
  induction l generalizing p fuel with
  | nil => cases fuel <;> rfl
  | cons a l ih =>
    obtain ⟨-, hn, hl⟩ := h
    cases fuel with
    | zero => simp at hfuel
    | succ fuel =>
      rw [length_cons] at hfuel
      rw [head?_cons, countFrom, hn, ih hl (by omega)]
      rfl

/-- The nodes of a queue are those the links lead to from its head. -/
theorem IsQueue.walk_eq [Fintype κ] (h : IsQueue q l) :
    walk q.next (Fintype.card κ) q.head = l := by
  rw [h.head]
  exact h.linked.walk_eq h.nodup.length_le_card

theorem IsQueue.countFrom_eq [Fintype κ] (h : IsQueue q l) :
    countFrom q.next (Fintype.card κ) q.head = some l.length := by
  rw [h.head]
  exact h.linked.countFrom_eq h.nodup.length_le_card

end OpenSys.Queue
