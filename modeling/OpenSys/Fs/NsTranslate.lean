-- SUMMARY: Which bytes ns_to_fs_path gives, and how they depend on the capacity.
import OpenSys.Fs.NsAlias

/-!
# Translated paths

A translation starts with a slash and goes on with bytes of namespace components and slashes.
The capacity decides only whether the translation is given or refused.
-/

namespace OpenSys

open List

/-- A byte of a canonical path. -/
def PathByte (b : UInt8) : Prop := b = slash ∨ validChar b = true

theorem PathByte.ne_zero {b : UInt8} (h : PathByte b) : b ≠ 0 := by
  rintro rfl
  rcases h with h | h <;> revert h <;> decide

theorem pathByte_of_isNsPath {s : List UInt8} (h : IsNsPath s) : ∀ b ∈ s, PathByte b := by
  obtain ⟨d, hd, comps, -, hcomps, rfl⟩ := h
  intro b hb
  rcases mem_cons.mp hb with rfl | hb
  · exact .inr (by simp [validChar, (mem_digits b).mp hd])
  · rcases Text.mem_fielded hb with rfl | ⟨c, hc, hb⟩
    · exact .inl rfl
    · exact .inr ((mem_componentBytes b).mp ((hcomps c hc).alphabet b hb))

theorem pathByte_canonical {path c : List UInt8} {max : Nat} (h : nsCanonical path max = some c) :
    ∀ b ∈ c, PathByte b := by
  obtain ⟨-, hscan, rfl, -⟩ := nsCanonical_eq_some.mp h
  have hbytes := pathByte_of_isNsPath (scanPath_iff.mp hscan)
  intro b hb
  unfold expanded at hb
  split at hb
  · exact hbytes b hb
  next a ha =>
  rcases mem_append.mp hb with hb | hb
  · have hcanon : ∀ a ∈ nsAliases, ∀ b ∈ a.canonical, b = slash ∨ validChar b = true := by
      decide +kernel
    exact hcanon a (mem_of_find?_eq_some ha) b hb
  · exact hbytes b (mem_of_mem_drop hb)

theorem mem_of_mem_skipComponents {n : Nat} {s : List UInt8} {b : UInt8}
    (h : b ∈ skipComponents n s) : b ∈ s := by
  induction n generalizing s with
  | zero => exact h
  | succ n ih => exact dropWhile_subset _ (mem_of_mem_tail (ih h))

theorem pathByte_nsTail {env : NsEnv} {r : NsResource} {tail : List UInt8}
    (hr : ∀ b ∈ r.canonical, PathByte b) (h : nsTail env r = .ok tail) : ∀ b ∈ tail, PathByte b := by
  intro b hb
  unfold nsTail at h
  split at h
  · split at h
    · cases h
      exact hr b (mem_of_mem_skipComponents hb)
    · cases h
  · cases h
    exact hr b (mem_of_mem_skipComponents hb)
  all_goals first
    | (cases h; exact hr b hb)
    | cases h

/-- The translation of an argument for its own sake: nothing when there is none. -/
def translated (env : NsEnv) (arg : List UInt8) : Option (List UInt8) :=
  match nsToFsPath env arg 256 with
  | .ok out => some out
  | .notNs => some arg
  | _ => none

section Capacity

variable {env : NsEnv} {arg out : List UInt8} {max : Int}

/-- What a namespace path comes to before the capacity is looked at. -/
def nsTarget (env : NsEnv) (arg : List UInt8) : Except NsFs (List UInt8) :=
  match nsCanonical arg nsMaxPath with
  | none => .error .eParse
  | some c =>
    if (resourceAt env c).kind = .unresolved then .error .eUnknown else nsTail env (resourceAt env c)

theorem nsToFsPath_eq (env : NsEnv) (arg : List UInt8) (max : Int) : nsToFsPath env arg max =
    if max = 0 then .eParse
    else if nsShaped arg = false then .notNs
    else match nsTarget env arg with
      | .error e => e
      | .ok tail => if max < tail.length + 2 then .eParse else .ok (slash :: tail) := by
  unfold nsToFsPath nsTarget nsResolve
  by_cases hmax : max = 0
  · rw [if_pos hmax, if_pos hmax]
  rw [if_neg hmax, if_neg hmax]
  by_cases hshaped : nsShaped arg = false
  · rw [if_pos hshaped, hshaped]
    rfl
  rw [if_neg hshaped, if_neg (by simpa using hshaped)]
  cases nsCanonical arg nsMaxPath with
  | none => rfl
  | some c =>
    dsimp only
    by_cases hkind : (resourceAt env c).kind = .unresolved
    · rw [if_pos hkind, if_pos hkind]
      rfl
    · rw [if_neg hkind, if_neg hkind]
      rfl

theorem nsTail_error {r : NsResource} {e : NsFs} (h : nsTail env r = .error e) :
    e = .eVolume ∨ e = .eKind := by
  unfold nsTail at h
  split at h
  · split at h
    · cases h
    · cases h
      exact .inl rfl
  all_goals first
    | (cases h; exact .inr rfl)
    | cases h

theorem nsTarget_error {e : NsFs} (h : nsTarget env arg = .error e) :
    e ≠ .notNs ∧ ∀ out, e ≠ .ok out := by
  have hcases : e = .eParse ∨ e = .eUnknown ∨ e = .eVolume ∨ e = .eKind := by
    unfold nsTarget at h
    split at h
    · cases h
      exact .inl rfl
    split at h
    · cases h
      exact .inr (.inl rfl)
    · exact .inr (.inr (nsTail_error h))
  rcases hcases with rfl | rfl | rfl | rfl <;> simp

/-- A translation is given by every capacity that it fits. -/
theorem nsToFsPath_ok (h : nsToFsPath env arg max = .ok out) : nsShaped arg = true ∧
    ∃ tail, nsTarget env arg = .ok tail ∧ out = slash :: tail ∧ (out.length : Int) + 1 ≤ max := by
  rw [nsToFsPath_eq] at h
  split at h
  · cases h
  split at h
  · cases h
  next hshaped =>
  refine ⟨by simpa using hshaped, ?_⟩
  cases htarget : nsTarget env arg with
  | error e =>
    rw [htarget] at h
    exact absurd h ((nsTarget_error htarget).2 out)
  | ok tail =>
    rw [htarget] at h
    dsimp only at h
    split at h
    · cases h
    cases h
    refine ⟨tail, rfl, rfl, ?_⟩
    simp only [length_cons]
    omega

theorem nsToFsPath_of_ok (h : nsToFsPath env arg 256 = .ok out) (max : Int) :
    nsToFsPath env arg max = if max < out.length + 1 then .eParse else .ok out := by
  obtain ⟨hshaped, tail, htarget, rfl, -⟩ := nsToFsPath_ok h
  rw [nsToFsPath_eq, htarget, hshaped]
  simp only [length_cons, reduceCtorEq, if_false]
  split
  · rw [if_pos (by omega)]
  · by_cases hfits : max < tail.length + 2
    · rw [if_pos hfits, if_pos (by omega)]
    · rw [if_neg hfits, if_neg (by omega)]

theorem nsToFsPath_notNs (h : nsToFsPath env arg max = .notNs) : nsShaped arg = false := by
  rw [nsToFsPath_eq] at h
  split at h
  · cases h
  split at h
  · next hshaped => exact hshaped
  cases htarget : nsTarget env arg with
  | error e =>
    rw [htarget] at h
    exact absurd h (nsTarget_error htarget).1
  | ok tail =>
    rw [htarget] at h
    dsimp only at h
    split at h <;> cases h

theorem nsToFsPath_of_unshaped (h : nsShaped arg = false) (max : Int) :
    nsToFsPath env arg max = if max = 0 then .eParse else .notNs := by
  rw [nsToFsPath_eq]
  simp only [h, if_true]

theorem pathByte_of_ok (h : nsToFsPath env arg max = .ok out) : ∀ b ∈ out, PathByte b := by
  obtain ⟨-, tail, htarget, rfl, -⟩ := nsToFsPath_ok h
  intro b hb
  rcases mem_cons.mp hb with rfl | hb
  · exact .inl rfl
  unfold nsTarget at htarget
  split at htarget
  · cases htarget
  next c hc =>
  split at htarget
  · cases htarget
  · exact pathByte_nsTail (pathByte_canonical hc) htarget b hb

/-- A translated argument was no namespace path, or was one and its translation is given. -/
theorem translated_eq_some (h : translated env arg = some out) :
    nsShaped arg = false ∧ out = arg ∨ nsShaped arg = true ∧ nsToFsPath env arg 256 = .ok out := by
  unfold translated at h
  split at h
  · next out' hok =>
    cases h
    exact .inr ⟨(nsToFsPath_ok hok).1, hok⟩
  · next hno =>
    cases h
    exact .inl ⟨nsToFsPath_notNs hno, rfl⟩
  · cases h

/-- A text that starts with a slash is no namespace path. -/
theorem nsShaped_slash (s : List UInt8) : nsShaped (slash :: s) = false := by
  cases s with
  | nil => rfl
  | cons c s => rfl

end Capacity

end OpenSys
