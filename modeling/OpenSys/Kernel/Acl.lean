-- SUMMARY: The access list of the intent dispatcher.
import OpenSys.Kernel.IntentDispatch

/-!
# Permissions

`acl_add_permission` puts an entry in front of the list, also for a process that has one, and
`acl_remove_permission` unlinks the first entry of the process: an older one counts again.
-/

namespace OpenSys

abbrev Acl := List (BitVec 32 × BitVec 32)

/-- `acl_add_permission`; `memory` is the answer of `kmalloc`. There is no list for -1. -/
def aclAddPermission (acl : Acl) (processId mask : BitVec 32) (memory : Bool) : Option Acl :=
  if memory then some ((processId, mask) :: acl) else none

/-- `acl_remove_permission` unlinks the first entry of the process. There is no list for -1. -/
def aclRemovePermission (processId : BitVec 32) : Acl → Option Acl
  | [] => none
  | entry :: acl =>
    if entry.1 = processId then some acl else (aclRemovePermission processId acl).map (entry :: ·)

inductive AclCall where
  | add (processId mask : BitVec 32) (memory : Bool)
  | remove (processId : BitVec 32)

/-- The list, with a record of the processes that were removed and not added again. -/
structure AclSys where
  acl : Acl
  revoked : Finset (BitVec 32)

def aclStep (s : AclSys) : AclCall → Option AclSys
  | .add processId mask memory => some <|
    match aclAddPermission s.acl processId mask memory with
    | none => s
    | some acl => ⟨acl, s.revoked.erase processId⟩
  | .remove processId => some <|
    match aclRemovePermission processId s.acl with
    | none => s
    | some acl => ⟨acl, insert processId s.revoked⟩

/-- A process that was removed may do nothing. -/
def AclSys.Revoked (s : AclSys) : Prop :=
  ∀ processId ∈ s.revoked, ∀ type, checkAcl s.acl processId type = false

/-- The second entry of a process that is removed, when there is one, allows nothing. -/
def AclCall.Ok (s : AclSys) : AclCall → Prop
  | .add .. => True
  | .remove processId => ∀ entry ∈ (s.acl.filter (·.1 = processId))[1]?, entry.2 = 0

section Permissions

variable {acl acl' : Acl} {p q : BitVec 32}

theorem denied_iff : (∀ type, checkAcl acl p type = false) ↔
    ∀ entry ∈ acl.find? (·.1 = p), entry.2 = 0 := by
  unfold checkAcl
  cases acl.find? (·.1 = p) with
  | none => simp
  | some entry =>
    simp only [Option.mem_some_iff, forall_eq']
    constructor
    · intro h
      refine BitVec.eq_of_getLsbD_eq fun i hi => ?_
      have hbit := h (100 + i)
      rw [if_neg (by omega), Nat.add_sub_cancel_left] at hbit
      simp [hbit]
    · intro h type
      simp [h]

/-- The entries of the other processes stay, and the second entry is now the first. -/
theorem aclRemovePermission_find (h : aclRemovePermission p acl = some acl') :
    acl'.find? (·.1 = p) = (acl.filter (·.1 = p))[1]? ∧
      ∀ q ≠ p, acl'.find? (·.1 = q) = acl.find? (·.1 = q) := by
  induction acl generalizing acl' with
  | nil => cases h
  | cons entry acl ih =>
    rw [aclRemovePermission] at h
    split_ifs at h with hp
    · cases h
      refine ⟨by simp [hp, ← List.head?_filter, List.head?_eq_getElem?], fun q hq => ?_⟩
      simp [hp, Ne.symm hq]
    · obtain ⟨rest, hrest, rfl⟩ := Option.map_eq_some_iff.mp h
      obtain ⟨hsame, hother⟩ := ih hrest
      exact ⟨by simp [hp, hsame], fun q hq => by simp only [List.find?_cons, hother q hq]⟩

theorem aclRemovePermission_none (h : aclRemovePermission p acl = none) :
    acl.filter (·.1 = p) = [] := by
  induction acl with
  | nil => rfl
  | cons entry acl ih =>
    rw [aclRemovePermission] at h
    split_ifs at h with hp
    simp [hp, ih (Option.map_eq_none_iff.mp h)]

theorem AclSys.Revoked.step {s s' : AclSys} {call : AclCall} (h : s.Revoked)
    (hstep : aclStep s call = some s') : s'.Revoked ↔ call.Ok s := by
  cases call with
  | add p mask memory =>
    refine iff_of_true (fun q hq => ?_) trivial
    cases memory <;> cases hstep
    · exact h q hq
    obtain ⟨hne, hq⟩ := Finset.mem_erase.mp hq
    change ∀ type, checkAcl ((p, mask) :: s.acl) q type = false
    rw [denied_iff, List.find?_cons_of_neg (by simpa using Ne.symm hne), ← denied_iff]
    exact h q hq
  | remove p =>
    obtain rfl := Option.some.inj hstep
    cases hremove : aclRemovePermission p s.acl with
    | none => exact iff_of_true h (by simp [AclCall.Ok, aclRemovePermission_none hremove])
    | some acl =>
      obtain ⟨hsame, hother⟩ := aclRemovePermission_find hremove
      rw [AclCall.Ok, ← hsame, ← denied_iff]
      refine ⟨fun h' => h' p (Finset.mem_insert_self p _), fun hp q hq => ?_⟩
      by_cases hqp : q = p
      · exact hqp ▸ hp
      · rw [denied_iff, hother q hqp, ← denied_iff]
        exact h q (Finset.mem_of_mem_insert_of_ne hq hqp)

end Permissions

/-- Along a run, the processes that were removed may do nothing exactly when no removal uncovers
    an earlier entry of its process; a removal never concerns another process. -/
theorem revoked_denied_iff (acl : Acl) (calls : List AclCall) :
    (Run.Always aclStep AclSys.Revoked ⟨acl, ∅⟩ calls ↔
      Run.AllOk aclStep (fun s call => call.Ok s) ⟨acl, ∅⟩ calls) ∧
    ∀ acl p acl', aclRemovePermission p acl = some acl' → ∀ q ≠ p, ∀ type,
      checkAcl acl' q type = checkAcl acl q type := by
  refine ⟨Run.always_iff_allOk (fun _ h => h) (fun s call h hok => ?_)
    (fun s call h hok s' hs' hP => hok ((h.step hs').mp hP)) fun q hq => by simp at hq, ?_⟩
  · obtain ⟨s', hs'⟩ : ∃ s', aclStep s call = some s' := by cases call <;> exact ⟨_, rfl⟩
    exact ⟨s', hs', (h.step hs').mpr hok⟩
  · intro acl p acl' h q hq type
    rw [checkAcl, checkAcl, (aclRemovePermission_find h).2 q hq]

/-- A process that was added twice keeps its permission after the removal. -/
theorem removed_still_allowed : ¬ Run.Always aclStep AclSys.Revoked ⟨[], ∅⟩
    [.add 7 1 true, .add 7 1 true, .remove 7] := by
  intro h
  obtain ⟨s', hrun, hrevoked⟩ := h.last
  cases hrun
  exact absurd (hrevoked 7 (by decide) 100) (by decide)

end OpenSys
