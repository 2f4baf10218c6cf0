-- SUMMARY: Which calls can bring a blocked process back.
import OpenSys.Process.Zombie

/-!
# Sleep

`process_block` and `process_sleep` only mark the current process as blocked and
ask for a switch. It stays current until the next switch, and three things can
bring it back early: a timer tick puts the current process back whatever its state
is, a process that was queued when it blocked is picked from the queue, and a wake
time left over from an earlier sleep ends a later `process_block`. A run without
these leaves the process alone until `process_wake` or its wake time.
-/

namespace OpenSys

open Option

variable {s s' : Sched} {p q : ProcId} {l : List ProcId} {call : SchedCall}

/-! ## Wake times -/

/-- Process `q` gets no new wake time: it keeps its own or has none. -/
def WakeTimeKept (q : ProcId) (s s' : Sched) : Prop :=
  (s'.procs q).wakeTime = 0 ∨ (s'.procs q).wakeTime = (s.procs q).wakeTime

theorem WakeTimeKept.rfl : WakeTimeKept q s s := .inr (Eq.refl _)

theorem WakeTimeKept.trans {s₁ s₂ : Sched} (h : WakeTimeKept q s s₁) (h' : WakeTimeKept q s₁ s₂) :
    WakeTimeKept q s s₂ := by
  rcases h' with hzero | heq
  · exact .inl hzero
  · exact h.imp heq.trans heq.trans

theorem WakeTimeKept.setProc {proc : Proc}
    (h : q = p → proc.wakeTime = 0 ∨ proc.wakeTime = (s.procs p).wakeTime) :
    WakeTimeKept q s (s.setProc p proc) := by
  by_cases hqp : q = p
  · subst hqp
    simpa [WakeTimeKept, Sched.setProc] using h (Eq.refl _)
  · exact .inr (by simp [Sched.setProc, hqp])

theorem setState_wakeTime (s : Sched) (p q : ProcId) (st : ProcState) :
    ((s.setState p st).procs q).wakeTime = (s.procs q).wakeTime := by
  by_cases hq : q = p <;> simp [Sched.setState, Sched.setProc, hq]

theorem schedulerSetCurrent_wakeTime (s : Sched) (p q : ProcId) :
    ((schedulerSetCurrent s p).procs q).wakeTime = (s.procs q).wakeTime :=
  setState_wakeTime { s with current := some p } p q .running

theorem schedulerPick_wakeTime {n : ProcId} (h : schedulerPick s = some (n, s')) (q : ProcId) :
    (s'.procs q).wakeTime = (s.procs q).wakeTime := by
  rw [schedulerPick_proc h]

theorem switchTo_wakeTime (s : Sched) (n : ProcId) (back : Bool) (q : ProcId) :
    ((switchTo s n back).procs q).wakeTime = (s.procs q).wakeTime := by
  unfold switchTo
  refine (schedulerSetCurrent_wakeTime _ n q).trans ?_
  split
  · split
    · rw [schedulerAdd_wakeTime, setState_wakeTime]
    · rfl
  · rfl

theorem scheduleSwitch_wakeTime (s : Sched) (q : ProcId) :
    ((scheduleSwitch s).procs q).wakeTime = (s.procs q).wakeTime := by
  cases hpick : schedulerPick s with
  | none =>
    simp only [scheduleSwitch, hpick]
    split <;> rfl
  | some r =>
    rw [scheduleSwitch_some hpick, switchTo_wakeTime, schedulerPick_wakeTime hpick]

theorem tickSwitch_wakeTime (s : Sched) (q : ProcId) :
    ((tickSwitch s).procs q).wakeTime = (s.procs q).wakeTime := by
  cases hpick : schedulerPick s with
  | none => simp only [tickSwitch, hpick, schedulerClearReschedule]
  | some r => rw [tickSwitch_some hpick, switchTo_wakeTime, schedulerPick_wakeTime hpick]

theorem switchTimerTick_wakeTime (h : switchTimerTick s = some s') (q : ProcId) :
    (s'.procs q).wakeTime = (s.procs q).wakeTime := by
  obtain ⟨s₁, hforced, rfl⟩ := map_eq_some_iff.mp h
  have hs₁ : s₁.procs = (schedulerTick s).procs := by
    split at hforced
    · rw [← some.inj hforced]
    · obtain ⟨n, -, rfl⟩ := map_eq_some_iff.mp hforced
      split <;> rfl
  have hkept : (s₁.procs q).wakeTime = (s.procs q).wakeTime := by
    rw [hs₁, schedulerTick_proc]
  split
  · rw [tickSwitch_wakeTime, hkept]
  · exact hkept

theorem checkSleepers_wakeTime (now : Nat) (is : List ProcId) (s : Sched) :
    WakeTimeKept q s (is.foldl (checkSleeper now) s) := by
  induction is generalizing s with
  | nil => exact .rfl
  | cons i is ih =>
    refine WakeTimeKept.trans ?_ (ih (checkSleeper now s i))
    unfold checkSleeper
    split
    · exact (WakeTimeKept.setProc fun _ => .inl rfl).trans (.inr (schedulerAdd_wakeTime _ i q))
    · exact .rfl

/-- Only the current process gets a new wake time, and only by `process_sleep`. -/
theorem schedStep_wakeTime (hs' : schedStep s call = some s')
    (hq : blocks call → s.current ≠ some q) : WakeTimeKept q s s' := by
  obtain ⟨s₁, hs₁, hplain⟩ | ⟨now, rfl⟩ | ⟨now, rfl⟩ | rfl := schedStep_cases s call
  · obtain rfl := some.inj (hs'.symm.trans hs₁)
    cases hplain with
    | stay b => exact .rfl
    | created p =>
      exact (WakeTimeKept.setProc (s := { s with nextPid := _ }) fun _ => .inl rfl).trans
        (.inr (schedulerAdd_wakeTime _ p q))
    | woken p =>
      exact .inr ((schedulerAdd_wakeTime _ p q).trans (setState_wakeTime s p q .ready))
    | blocked c time hcall hc =>
      refine WakeTimeKept.setProc (s := s) fun heq => ?_
      exact absurd (heq ▸ hc) (hq hcall)
    | died p b => exact .inr (setState_wakeTime s p q .zombie)
    | reaped c p => exact .setProc fun _ => .inr rfl
  · rw [schedStep, some.injEq] at hs'
    subst hs'
    exact checkSleepers_wakeTime now _ s
  · rw [schedStep, some.injEq] at hs'
    subst hs'
    have hsleepers : WakeTimeKept q s (processCheckSleepers s now) := checkSleepers_wakeTime now _ s
    have hswitch : WakeTimeKept q (processCheckSleepers s now)
        (scheduleSwitch (processCheckSleepers s now)) := .inr (scheduleSwitch_wakeTime _ q)
    exact hsleepers.trans hswitch
  · exact .inr (switchTimerTick_wakeTime hs' q)

/-! ## Asleep -/

/-- The wake time that the call gives to a process that puts itself to sleep. -/
def sleepsUntil : SchedCall → Option Nat
  | .processSleep now ms => some (u64 (now + ms))
  | _ => none

/-- The call neither wakes `p`, which sleeps until its wake time if it has one, nor
    is made by `p` to block again, nor gives the slot of `p` to a new process. -/
def leavesAsleep (p : ProcId) (wakeTime : Option Nat) (s : Sched) (call : SchedCall) : Prop :=
  (∀ r, call = .processWake r → r ≠ some p) ∧
    (∀ now, call = .switchSchedule now ∨ call = .processCheckSleepers now →
      ∀ w, wakeTime = some w → now < w) ∧
    leavesDead p s call

/-- The call is not a timer tick that switches while `p` is current. -/
def noTickOn (p : ProcId) (s : Sched) (call : SchedCall) : Prop :=
  call = .switchTimerTick → tickDue s → s.ready ≠ [] → s.current ≠ some p

/-- `p` can put itself to sleep: it is not queued, and before `process_block` it has
    no wake time left from an earlier sleep. -/
def canSleep (p : ProcId) (s : Sched) (call : SchedCall) : Prop :=
  p ∉ s.ready ∧ (call = .processBlock → (s.procs p).wakeTime = 0)

instance (p : ProcId) (w : Option Nat) (s : Sched) (call : SchedCall) :
    Decidable (leavesAsleep p w s call) := by
  have hwake : Decidable (∀ r, call = .processWake r → r ≠ some p) :=
    decidable_of_iff (call ≠ .processWake (some p)) (by
      constructor
      · rintro hne r rfl rfl
        exact hne rfl
      · rintro h rfl
        exact h _ rfl rfl)
  have htime : Decidable (∀ now, call = .switchSchedule now ∨ call = .processCheckSleepers now →
      ∀ t, w = some t → now < t) :=
    match call with
    | .switchSchedule now | .processCheckSleepers now =>
      match w with
      | none => .isTrue (by simp)
      | some t => decidable_of_iff (now < t) (by simp)
    | .processCreate _ | .processBlock | .processWake _ | .processSleep _ _ | .processYield
    | .processExit | .sysExit | .sysKill _ | .sysWait | .switchTimerTick => .isTrue (by simp)
  unfold leavesAsleep
  infer_instance

instance (p : ProcId) (s : Sched) (call : SchedCall) : Decidable (noTickOn p s call) := by
  unfold noTickOn
  infer_instance

instance (p : ProcId) (s : Sched) (call : SchedCall) : Decidable (canSleep p s call) := by
  unfold canSleep
  infer_instance

/-- The step does not make `p` current: `p` is not given the processor, and if
    another process was current, `p` is not current afterwards. -/
def NotMadeCurrent (p : ProcId) (s s' : Sched) : Prop :=
  s'.state p ≠ .running ∧ (s.current ≠ some p → s'.current ≠ some p)

/-- `p` is blocked, or was killed while it was, and nobody can pick it. -/
structure Asleep (p : ProcId) (wakeTime : Option Nat) (s : Sched) : Prop where
  queued : ∃ l, Queued (· ≠ .unused) s l ∧ p ∉ l
  state : s.state p = .blocked ∨ Gone p s
  wakeTime : (s.procs p).wakeTime = 0 ∨ wakeTime = some (s.procs p).wakeTime

variable {w : Option Nat}

/-- A call that leaves `p` asleep does not wake it. -/
theorem Asleep.not_wakes (h : Asleep p w s) (hleaves : leavesAsleep p w s call) :
    ¬ wakes s call p := by
  have htime : ∀ now, (∀ w', w = some w' → now < w') → wakesAt s now p ≠ true := by
    intro now hnow hwakes
    simp only [wakesAt, Bool.and_eq_true, decide_eq_true_iff] at hwakes
    rcases h.wakeTime with hzero | hw
    · omega
    · have := hnow _ hw
      omega
  cases call with
  | processWake r => exact fun heq => hleaves.1 r rfl heq
  | processCheckSleepers now => exact htime now (hleaves.2.1 now (.inr rfl))
  | switchSchedule now => exact htime now (hleaves.2.1 now (.inl rfl))
  | _ => exact id

theorem Asleep.schedStep (h : Asleep p w s) (hok : schedCallOk s call)
    (hleaves : leavesAsleep p w s call) (htick : noTickOn p s call) :
    ∃ s', schedStep s call = some s' ∧ NotMadeCurrent p s s' ∧ Asleep p w s' := by
  obtain ⟨l, hl, hpl⟩ := h.queued
  obtain ⟨s', l', hs', hl', hjoins⟩ := hl.schedStep live_ne_unused hok (.inl (by simp))
  obtain ⟨hmoves, hcurrent⟩ := schedStep_moves hl live_ne_unused hok hs'
  have hwakes := h.not_wakes hleaves
  have hready : p ∉ s.ready := hl.ready_eq ▸ hpl
  have hnotrunning : s.state p ≠ .running := by
    rcases h.state with hblocked | hgone
    · simp [hblocked]
    · exact hgone.ne_running
  have hnotpicked : ¬ (p ∈ s.ready ∨ wakes s call p ∧ s.state p = .blocked) := by
    rintro (hmem | ⟨hw, -⟩)
    · exact hready hmem
    · exact hwakes hw
  have hstate : s'.state p = .blocked ∨ Gone p s' := by
    cases hmoves p with
    | same heq =>
      rw [Gone, heq]
      exact h.state
    | created hcall hslot _ => exact absurd ⟨hcall, hslot⟩ hleaves.2.2.2
    | woken hw _ _ => exact absurd hw hwakes
    | blocked hcall hc _ => exact absurd hc (hleaves.2.2.1 hcall)
    | died _ heq => exact .inr (.inl heq)
    | reaped _ _ heq => exact .inr (.inr heq)
    | picked hqueued _ _ => exact absurd hqueued hnotpicked
    | preempted hc hback _ =>
      rcases hback with hrunning | ⟨hcall, hdue, hne⟩
      · exact absurd hrunning hnotrunning
      · exact absurd hc (htick hcall hdue hne)
  refine ⟨s', hs', ⟨?_, fun hne => ?_⟩, ⟨l', hl', fun hmem => ?_⟩, hstate, ?_⟩
  · rcases hstate with hblocked | hgone
    · simp [hblocked]
    · exact hgone.ne_running
  · rcases hcurrent with hsame | ⟨n, hn, hqueued, -⟩
    · exact hsame ▸ hne
    rw [hn]
    rintro heq
    obtain rfl := some.inj heq
    exact hnotpicked hqueued
  · rcases hjoins p hmem with hmem | hw | hr
    · exact hpl hmem
    · exact hwakes hw
    · rcases hstate with hblocked | hgone | hgone <;> simp_all
  · rcases schedStep_wakeTime hs' hleaves.2.2.1 with hzero | heq
    · exact .inl hzero
    · rw [heq]
      exact h.wakeTime

/-- The process that has just put itself to sleep is asleep. -/
theorem asleep_of_blocks (hl : Queued (· ≠ .unused) s l) (hcall : blocks call)
    (hp : s.current = some p) (hcan : canSleep p s call) (hs' : schedStep s call = some s') :
    Asleep p (sleepsUntil call) s' := by
  have hpl : p ∉ l := hl.ready_eq ▸ hcan.1
  cases call with
  | processBlock =>
    simp only [schedStep, processBlock, hp, some.injEq] at hs'
    subst hs'
    refine ⟨⟨l, (hl.setState fun _ => by simp).reschedule, hpl⟩, .inl (by simp), .inl ?_⟩
    exact (setState_wakeTime s p p .blocked).trans (hcan.2 rfl)
  | processSleep now ms =>
    simp only [schedStep, processSleep, hp, some.injEq] at hs'
    subst hs'
    refine ⟨⟨l, Queued.reschedule (hl.setProc rfl rfl fun _ => by simp), hpl⟩, .inl (by simp), .inr ?_⟩
    simp [sleepsUntil, schedulerReschedule, Sched.setProc]
  | _ => exact hcall.elim

/-- From `process_init`, in a run that keeps the queue proper: after the current
    process `p` has put itself to sleep, not being queued and with no old wake time,
    no call makes it current before one wakes it, as long as no timer tick switches
    away from it. -/
theorem sleeper_not_made_current (boot : Sched) (before : List SchedCall) (call : SchedCall)
    (after : List SchedCall) (s s' : Sched) (p : ProcId)
    (hok : Run.AllOk schedStep schedCallOk (processInit boot) (before ++ call :: after))
    (hrun : Run.run schedStep (processInit boot) before = some s)
    (hcall : blocks call) (hp : s.current = some p) (hcan : canSleep p s call)
    (hs' : schedStep s call = some s')
    (hafter : Run.AllOk schedStep (leavesAsleep p (sleepsUntil call)) s' after)
    (htick : Run.AllOk schedStep (noTickOn p) s' after) :
    Run.Steps schedStep (NotMadeCurrent p) s' after := by
  have hinit : ∃ l, Queued (· ≠ .unused) (processInit boot) l :=
    ⟨[0], processInit_queued live_ne_unused boot⟩
  obtain ⟨⟨l, hl⟩, hrest⟩ := Run.AllOk.append queued_step hinit hok hrun
  have hasleep := asleep_of_blocks hl hcall hp hcan hs'
  have hstep : ∀ s₁ call₁, Asleep p (sleepsUntil call) s₁ →
      schedCallOk s₁ call₁ ∧ leavesAsleep p (sleepsUntil call) s₁ call₁ ∧ noTickOn p s₁ call₁ →
      ∃ s₂, schedStep s₁ call₁ = some s₂ ∧ NotMadeCurrent p s₁ s₂ ∧
        Asleep p (sleepsUntil call) s₂ :=
    fun s₁ call₁ h hcall => h.schedStep hcall.1 hcall.2.1 hcall.2.2
  exact Run.steps_of_allOk hstep hasleep ((hrest.2 s' hs').and (hafter.and htick))

/-- The idle process sleeps for 100 ms from time 0 on, and the other process runs; at
    time 50 there is another switch. -/
theorem sleeper_not_made_current_early :
    ∃ s s', Run.run schedStep (processInit schedBoot) [.processCreate true, .switchSchedule 0] =
        some s ∧ schedStep s (.processSleep 0 100) = some s' ∧
      Run.Steps schedStep (NotMadeCurrent 0) s' [.switchSchedule 0, .switchSchedule 50] := by
  have hconcrete : (Run.run schedStep (processInit schedBoot)
      [.processCreate true, .switchSchedule 0]).any (fun s =>
        decide (s.current = some 0) && decide (canSleep 0 s (.processSleep 0 100)) &&
          (schedStep s (.processSleep 0 100)).any fun s' =>
            decide (Run.AllOk schedStep (leavesAsleep 0 (some 100)) s'
              [.switchSchedule 0, .switchSchedule 50]) &&
            decide (Run.AllOk schedStep (noTickOn 0) s'
              [.switchSchedule 0, .switchSchedule 50])) = true := by
    decide +kernel
  simp only [any_eq_true, Bool.and_eq_true, decide_eq_true_iff] at hconcrete
  obtain ⟨s, hrun, ⟨hcurrent, hcan⟩, s', hs', hleaves, htick⟩ := hconcrete
  exact ⟨s, s', hrun, hs', sleeper_not_made_current schedBoot _ (.processSleep 0 100) _ s s' 0
    (by decide +kernel) hrun trivial hcurrent hcan hs' hleaves htick⟩

/-- The idle process sleeps for 100 ms from time 0 on. A timer tick switches to the
    other process and puts the sleeper back into the queue, and the next switch, still
    at time 0, makes it current. -/
theorem sleeper_made_current : ∃ s s' s₁ s₂, Run.run schedStep (processInit schedBoot)
        [.processCreate true, .switchSchedule 0] = some s ∧ s.current = some 0 ∧
      schedStep s (.processSleep 0 100) = some s' ∧ (s'.procs 0).wakeTime = 100 ∧
      schedStep s' .switchTimerTick = some s₁ ∧ s₁.current = some 1 ∧
      schedStep s₁ (.switchSchedule 0) = some s₂ ∧ s₂.current = some 0 := by
  have hconcrete : (Run.run schedStep (processInit schedBoot)
      [.processCreate true, .switchSchedule 0]).any (fun s => decide (s.current = some 0) &&
        (schedStep s (.processSleep 0 100)).any fun s' => decide ((s'.procs 0).wakeTime = 100) &&
          (schedStep s' .switchTimerTick).any fun s₁ => decide (s₁.current = some 1) &&
            (schedStep s₁ (.switchSchedule 0)).any fun s₂ =>
              decide (s₂.current = some 0)) = true := by
    decide +kernel
  simp only [any_eq_true, Bool.and_eq_true, decide_eq_true_iff] at hconcrete
  obtain ⟨s, hrun, hcurrent, s', hs', htime, s₁, hs₁, hother, s₂, hs₂, hagain⟩ := hconcrete
  exact ⟨s, s', s₁, s₂, hrun, hcurrent, hs', htime, hs₁, hother, hs₂, hagain⟩

end OpenSys
