-- SUMMARY: Runs of a partial step function, conditions on their steps, and invariant rules.
import Mathlib.Data.List.Infix

/-!
# Runs

A component is a step function `step : σ → α → Option σ` on a state type. The
value `none` means that the call does not return. This file has no component in
it: it says what a run is, what it means for a property to hold all along a run,
and how an invariant that one step preserves carries over to whole runs.
-/

namespace OpenSys.Run

open Option

variable {σ α : Type*} {step : σ → α → Option σ} {ok : σ → α → Prop} {Inv P : σ → Prop}

/-- The state after the calls `as`, or `none` when one of them does not return. -/
def run (step : σ → α → Option σ) : σ → List α → Option σ
  | s, [] => some s
  | s, a :: as => (step s a).bind fun s' => run step s' as

/-- Every call of the run returns, and every state of the run satisfies `P`, the
    first one included. -/
def Always (step : σ → α → Option σ) (P : σ → Prop) : σ → List α → Prop
  | s, [] => P s
  | s, a :: as => P s ∧ ∃ s', step s a = some s' ∧ Always step P s' as

/-- Every step of the run meets `ok` in the state it starts from. -/
def AllOk (step : σ → α → Option σ) (ok : σ → α → Prop) : σ → List α → Prop
  | _, [] => True
  | s, a :: as => ok s a ∧ ∀ s', step s a = some s' → AllOk step ok s' as

/-- Every call of the run returns, and `R` relates the states before and after it. -/
def Steps (step : σ → α → Option σ) (R : σ → σ → Prop) : σ → List α → Prop
  | _, [] => True
  | s, a :: as => ∃ s', step s a = some s' ∧ R s s' ∧ Steps step R s' as

/-- The condition on a run can be tested when it can be tested at each step. -/
instance AllOk.decidable [∀ s a, Decidable (ok s a)] :
    (s : σ) → (as : List α) → Decidable (AllOk step ok s as)
  | _, [] => .isTrue trivial
  | s, a :: as =>
    match h : step s a with
    | none => decidable_of_iff (ok s a) ⟨fun ha => ⟨ha, by simp [h]⟩, And.left⟩
    | some s' =>
      have := AllOk.decidable s' as
      decidable_of_iff (ok s a ∧ AllOk step ok s' as) (by simp [AllOk, h])

@[simp] theorem run_nil (s : σ) : run step s [] = some s := rfl

@[simp] theorem run_cons (s : σ) (a : α) (as : List α) :
    run step s (a :: as) = (step s a).bind fun s' => run step s' as := rfl

theorem run_append (s : σ) (as bs : List α) :
    run step s (as ++ bs) = (run step s as).bind fun s' => run step s' bs := by
  induction as generalizing s with
  | nil => rfl
  | cons a as ih =>
    cases h : step s a with
    | none => simp [h]
    | some s' => simp [h, ih s']

variable {s s' : σ} {as : List α}

theorem Always.head (h : Always step P s as) : P s := by
  cases as with
  | nil => exact h
  | cons a as => exact h.1

/-- A run that has `P` everywhere returns in a state with `P`. -/
theorem Always.last (h : Always step P s as) : ∃ s', run step s as = some s' ∧ P s' := by
  induction as generalizing s with
  | nil => exact ⟨s, rfl, h⟩
  | cons a as ih =>
    obtain ⟨-, s₁, hstep, hrest⟩ := h
    obtain ⟨s', hs', hP⟩ := ih hrest
    exact ⟨s', by simpa [hstep] using hs', hP⟩

theorem Always.mono {Q : σ → Prop} (hPQ : ∀ s, P s → Q s) (h : Always step P s as) :
    Always step Q s as := by
  induction as generalizing s with
  | nil => exact hPQ _ h
  | cons a as ih =>
    obtain ⟨hP, s', hstep, hrest⟩ := h
    exact ⟨hPQ _ hP, s', hstep, ih hrest⟩

/-- The invariant rule: a step that meets its condition returns and keeps `Inv`,
    so a run whose steps all meet it has `Inv` everywhere. -/
theorem always_of_allOk (hstep : ∀ s a, Inv s → ok s a → ∃ s', step s a = some s' ∧ Inv s')
    (hs : Inv s) (hok : AllOk step ok s as) : Always step Inv s as := by
  induction as generalizing s with
  | nil => exact hs
  | cons a as ih =>
    obtain ⟨s', hs', hInv⟩ := hstep s a hs hok.1
    exact ⟨hs, s', hs', ih hInv (hok.2 s' hs')⟩

/-- The rule in both directions: when moreover a step that breaks its condition
    also breaks the property, the property holds along a run exactly when every
    step meets the condition. -/
theorem always_iff_allOk (hP : ∀ s, Inv s → P s)
    (hstep : ∀ s a, Inv s → ok s a → ∃ s', step s a = some s' ∧ Inv s')
    (hbad : ∀ s a, Inv s → ¬ ok s a → ∀ s', step s a = some s' → ¬ P s') (hs : Inv s) :
    Always step P s as ↔ AllOk step ok s as := by
  constructor
  · intro h
    induction as generalizing s with
    | nil => trivial
    | cons a as ih =>
      obtain ⟨-, s', hs', hrest⟩ := h
      have hok : ok s a := by
        by_contra hne
        exact hbad s a hs hne s' hs' hrest.head
      obtain ⟨s₁, hs₁, hInv⟩ := hstep s a hs hok
      refine ⟨hok, fun s₂ hs₂ => ?_⟩
      obtain rfl : s₁ = s₂ := some.inj (hs₁.symm.trans hs₂)
      obtain rfl : s₁ = s' := some.inj (hs₁.symm.trans hs')
      exact ih hInv hrest
  · intro h
    exact (always_of_allOk hstep hs h).mono hP

/-- The invariant rule for what holds between the states of each step. -/
theorem steps_of_allOk {R : σ → σ → Prop}
    (hstep : ∀ s a, Inv s → ok s a → ∃ s', step s a = some s' ∧ R s s' ∧ Inv s') (hs : Inv s)
    (hok : AllOk step ok s as) : Steps step R s as := by
  induction as generalizing s with
  | nil => trivial
  | cons a as ih =>
    obtain ⟨s', hs', hR, hInv⟩ := hstep s a hs hok.1
    exact ⟨s', hs', hR, ih hInv (hok.2 s' hs')⟩

theorem AllOk.and {ok' : σ → α → Prop} (h : AllOk step ok s as) (h' : AllOk step ok' s as) :
    AllOk step (fun s a => ok s a ∧ ok' s a) s as := by
  induction as generalizing s with
  | nil => trivial
  | cons a as ih =>
    exact ⟨⟨h.1, h'.1⟩, fun s' hs' => ih (h.2 s' hs') (h'.2 s' hs')⟩

/-- The condition on the rest of a run, from the state the first calls lead to,
    together with the invariant there. -/
theorem AllOk.append (hstep : ∀ s a, Inv s → ok s a → ∃ s', step s a = some s' ∧ Inv s')
    {bs : List α} (hs : Inv s) (hok : AllOk step ok s (as ++ bs)) (hrun : run step s as = some s') :
    Inv s' ∧ AllOk step ok s' bs := by
  induction as generalizing s with
  | nil =>
    cases hrun
    exact ⟨hs, hok⟩
  | cons a as ih =>
    obtain ⟨s₁, hs₁, hrest⟩ := bind_eq_some_iff.mp hrun
    obtain ⟨s₂, hs₂, hInv⟩ := hstep s a hs hok.1
    obtain rfl : s₁ = s₂ := some.inj (hs₁.symm.trans hs₂)
    exact ih hInv (hok.2 s₁ hs₁) hrest

theorem AllOk.split {bs : List α} (hok : AllOk step ok s (as ++ bs))
    (hrun : run step s as = some s') : AllOk step ok s as ∧ AllOk step ok s' bs := by
  induction as generalizing s with
  | nil =>
    cases hrun
    exact ⟨trivial, hok⟩
  | cons a as ih =>
    obtain ⟨s₁, hs₁, hrest⟩ := bind_eq_some_iff.mp hrun
    obtain ⟨hfirst, hlast⟩ := ih (hok.2 s₁ hs₁) hrest
    refine ⟨⟨hok.1, fun s₂ hs₂ => ?_⟩, hlast⟩
    obtain rfl : s₁ = s₂ := some.inj (hs₁.symm.trans hs₂)
    exact hfirst

/-- A run keeps what each of its own steps keeps. -/
theorem run_invariant_of_mem (hstep : ∀ s, ∀ a ∈ as, ∀ s', Inv s → step s a = some s' → Inv s')
    (hs : Inv s) (hrun : run step s as = some s') : Inv s' := by
  induction as generalizing s with
  | nil => cases hrun; exact hs
  | cons a as ih =>
    obtain ⟨s₁, hs₁, hrest⟩ := bind_eq_some_iff.mp hrun
    exact ih (fun s b hb => hstep s b (List.mem_cons_of_mem _ hb))
      (hstep s a List.mem_cons_self s₁ hs hs₁) hrest

/-- Reachable states keep what every step that returns keeps. -/
theorem run_invariant (hstep : ∀ s a s', Inv s → step s a = some s' → Inv s') (hs : Inv s)
    (hrun : run step s as = some s') : Inv s' :=
  run_invariant_of_mem (fun s a _ => hstep s a) hs hrun

end OpenSys.Run
