-- SUMMARY: What each call can do to the state of a process, and when a zombie stays dead.
import OpenSys.Process.ReadyQueue

/-!
# Zombies

A zombie comes back in two ways: it was queued when it died, so the scheduler
picks it later, or it is still current when a timer tick switches, which puts the
current process back whatever its state is. Runs without these two keep every
zombie dead until its slot is reaped and taken again.
-/

namespace OpenSys

open Option Sched

variable {s s' : Sched} {p q n : ProcId} {l : List ProcId} {A : ProcState → Prop}
  {call : SchedCall}

/-! ## What a call does to the states -/

/-- All that a call can do to the state of process `q`. -/
inductive StateMove (s : Sched) (call : SchedCall) (s' : Sched) (q : ProcId) : Prop where
  | same (h : s'.state q = s.state q)
  | created (hcall : call = .processCreate true) (hslot : allocProcess s = some q)
      (h : s'.state q = .ready)
  | woken (hwakes : wakes s call q) (hblocked : s.state q = .blocked) (h : s'.state q = .ready)
  | blocked (hcall : blocks call) (hcurrent : s.current = some q) (h : s'.state q = .blocked)
  | died (hdies : dies s call = some q) (h : s'.state q = .zombie)
  | reaped (hzombie : s.state q = .zombie) (hcurrent : s.current ≠ some q)
      (h : s'.state q = .unused)
  | picked (hqueued : q ∈ s.ready ∨ wakes s call q ∧ s.state q = .blocked)
      (hcurrent : s'.current = some q) (h : s'.state q = .running)
  | preempted (hcurrent : s.current = some q)
      (hback : s.state q = .running ∨ call = .switchTimerTick ∧ tickDue s ∧ s.ready ≠ [])
      (h : s'.state q = .ready)

/-- The current process stays, or a queued or just woken one takes its place. -/
def CurrentMove (s : Sched) (call : SchedCall) (s' : Sched) : Prop :=
  s'.current = s.current ∨ ∃ n, s'.current = some n ∧
    (n ∈ s.ready ∨ wakes s call n ∧ s.state n = .blocked) ∧ s'.state n = .running

/-- An update of one state is the move of that process and nothing for the others. -/
theorem StateMove.of_update {p : ProcId} {st : ProcState}
    (h : s'.state = Function.update s.state p st)
    (hp : s'.state p = st → StateMove s call s' p) (q : ProcId) : StateMove s call s' q := by
  by_cases hq : q = p
  · subst hq
    exact hp (by simp [h])
  · exact .same (by simp [h, hq])

theorem switchTo_state_self (s : Sched) (n : ProcId) (back : Bool) :
    (switchTo s n back).state n = .running := by
  simp [switchTo, schedulerClearReschedule, schedulerSetCurrent, state, setState, setProc]

theorem switchTo_state_of_ne (s : Sched) (back : Bool) (hq : q ≠ n) :
    (switchTo s n back).state q = s.state q ∨
      back = true ∧ s.current = some q ∧ (switchTo s n back).state q = .ready := by
  have hset : ∀ s₁ : Sched,
      (schedulerClearReschedule (schedulerSetCurrent s₁ n)).state q = s₁.state q := by
    intro s₁
    simp [schedulerClearReschedule, schedulerSetCurrent, state, setState, setProc, hq]
  cases hcurrent : s.current with
  | none => exact .inl (by simp only [switchTo, hcurrent, hset])
  | some c =>
    cases back with
    | false => exact .inl (by simp [switchTo, hcurrent, hset])
    | true =>
      by_cases hqc : q = c
      · subst hqc
        exact .inr ⟨rfl, rfl, by simp [switchTo, hcurrent, hset, schedulerAdd_state]⟩
      · exact .inl (by simp [switchTo, hcurrent, hset, schedulerAdd_state, hqc])

/-- The moves of a switch to `n`. The state `s` is the one before the call and
    `s₁` the one after `n` was taken off the queue. -/
theorem switchTo_moves {s₁ : Sched} {back : Bool}
    (hn : n ∈ s.ready ∨ wakes s call n ∧ s.state n = .blocked)
    (hstate : ∀ q, s₁.state q = s.state q ∨
      (wakes s call q ∧ s.state q = .blocked) ∧ s₁.state q = .ready)
    (hcurrent : s₁.current = s.current)
    (hback : back = true → ∀ q, s.current = some q →
      s.state q = .running ∨ call = .switchTimerTick ∧ tickDue s ∧ s.ready ≠ []) :
    (∀ q, StateMove s call (switchTo s₁ n back) q) ∧ CurrentMove s call (switchTo s₁ n back) := by
  refine ⟨fun q => ?_, .inr ⟨n, rfl, hn, switchTo_state_self s₁ n back⟩⟩
  by_cases hq : q = n
  · subst hq
    exact .picked hn rfl (switchTo_state_self s₁ q back)
  rcases switchTo_state_of_ne s₁ back hq with heq | ⟨hb, hc, hready⟩
  · rcases hstate q with hsame | ⟨hblocked, hready⟩
    · exact .same (heq.trans hsame)
    · exact .woken hblocked.1 hblocked.2 (heq.trans hready)
  · rw [hcurrent] at hc
    exact .preempted hc (hback hb q hc) hready

theorem scheduleSwitch_moves {s₁ : Sched} (h : Queued A s₁ l)
    (hl : ∀ q ∈ l, q ∈ s.ready ∨ wakes s call q ∧ s.state q = .blocked)
    (hstate : ∀ q, s₁.state q = s.state q ∨
      (wakes s call q ∧ s.state q = .blocked) ∧ s₁.state q = .ready)
    (hcurrent : s₁.current = s.current) :
    (∀ q, StateMove s call (scheduleSwitch s₁) q) ∧ CurrentMove s call (scheduleSwitch s₁) := by
  cases l with
  | nil =>
    have hmoves : ∀ s₂ : Sched, s₂.state = s₁.state → s₂.current = s₁.current →
        (∀ q, StateMove s call s₂ q) ∧ CurrentMove s call s₂ := by
      intro s₂ hst hcur
      refine ⟨fun q => ?_, .inl (hcur.trans hcurrent)⟩
      rcases hstate q with hsame | ⟨hblocked, hready⟩
      · exact .same (by rw [hst, hsame])
      · exact .woken hblocked.1 hblocked.2 (by rw [hst, hready])
    simp only [scheduleSwitch, h.pick_nil]
    split
    · exact hmoves _ rfl rfl
    · exact hmoves _ rfl rfl
  | cons n l =>
    obtain ⟨s₂, hpick, -, hst, hcur⟩ := h.pick_cons
    rw [scheduleSwitch_some hpick]
    refine switchTo_moves (hl n List.mem_cons_self) (by simpa only [hst] using hstate)
      (hcur.trans hcurrent) fun hrun q hq => .inl ?_
    have hrunning : s₁.state q = .running := by
      simpa [stillRunning, hcur, hcurrent, hq, hst] using hrun
    rcases hstate q with hsame | ⟨-, hready⟩
    · rw [← hsame, hrunning]
    · rw [hrunning] at hready
      cases hready

theorem schedulerTick_state (s : Sched) : (schedulerTick s).state = s.state := by
  funext q
  rw [state, schedulerTick_proc, state]

/-- The moves of a tick, from the state in which the flag is read. -/
theorem tickSwitch_moves {s₁ : Sched} (h : Queued A s₁ l) (hl : l = s.ready)
    (hstate : s₁.state = s.state) (hcurrent : s₁.current = s.current)
    (hdue : ∀ q, s.current = some q → tickDue s) :
    (∀ q, StateMove s .switchTimerTick (tickSwitch s₁) q) ∧
      CurrentMove s .switchTimerTick (tickSwitch s₁) := by
  cases l with
  | nil =>
    simp only [tickSwitch, h.pick_nil]
    exact ⟨fun q => .same (congrFun hstate q), .inl hcurrent⟩
  | cons n l =>
    obtain ⟨s₂, hpick, -, hst, hcur⟩ := h.pick_cons
    have hne : s.ready ≠ [] := hl ▸ List.cons_ne_nil n l
    rw [tickSwitch_some hpick]
    refine switchTo_moves (.inl (hl ▸ List.mem_cons_self)) (fun q => .inl ?_)
      (hcur.trans hcurrent) fun _ q hq => .inr ⟨rfl, hdue q hq, hne⟩
    rw [hst, hstate]

theorem switchTimerTick_moves (h : Queued A s l) (hs' : switchTimerTick s = some s') :
    (∀ q, StateMove s .switchTimerTick s' q) ∧ CurrentMove s .switchTimerTick s' := by
  have htick := h.schedulerTick
  have hready : l = s.ready := h.ready_eq.symm
  have hlast : ∀ s₁, Queued A s₁ l → s₁.state = s.state → s₁.current = s.current →
      (s₁.scheduleNeeded = true → ∀ q, s.current = some q → tickDue s) →
      some (if s₁.scheduleNeeded then tickSwitch s₁ else s₁) = some s' →
      (∀ q, StateMove s .switchTimerTick s' q) ∧ CurrentMove s .switchTimerTick s' := by
    intro s₁ h₁ hstate hcurrent hdue heq
    obtain rfl := some.inj heq
    split
    · rename_i hneeded
      exact tickSwitch_moves h₁ hready hstate hcurrent (hdue hneeded)
    · exact ⟨fun q => .same (congrFun hstate q), .inl hcurrent⟩
  cases hc : s.current with
  | none =>
    have hc' : (schedulerTick s).current = none := by simp [hc]
    have hnone : ∀ q, s.current = some q → tickDue s := by simp [hc]
    simp only [switchTimerTick, hc', htick.runnableCount, map_some] at hs'
    split at hs'
    · exact hlast _ htick.reschedule (schedulerTick_state s) (schedulerTick_current s)
        (fun _ => hnone) hs'
    · exact hlast _ htick (schedulerTick_state s) (schedulerTick_current s) (fun _ => hnone) hs'
  | some c =>
    have hc' : (schedulerTick s).current = some c := by simp [hc]
    simp only [switchTimerTick, hc', map_some] at hs'
    exact hlast _ htick (schedulerTick_state s) (schedulerTick_current s)
      (fun hneeded d hd => (schedulerTick_needed hd).mp hneeded) hs'

theorem checkSleepers_state {s₁ : Sched} {now : Nat}
    (h : ∀ q, s₁.state q = if wakesAt s now q = true then .ready else s.state q) (q : ProcId) :
    s₁.state q = s.state q ∨
      (wakesAt s now q = true ∧ s.state q = .blocked) ∧ s₁.state q = .ready := by
  by_cases hwakes : wakesAt s now q = true
  · exact .inr ⟨⟨hwakes, wakesAt_blocked hwakes⟩, by rw [h q, if_pos hwakes]⟩
  · exact .inl (by rw [h q, if_neg hwakes])

/-- Everything a call does to the states and to the current process, in a state
    whose queue is a proper list. -/
theorem schedStep_moves (h : Queued A s l) (hA : Live A) (hok : schedCallOk s call)
    (hs' : schedStep s call = some s') :
    (∀ q, StateMove s call s' q) ∧ CurrentMove s call s' := by
  have hready := h.ready_eq
  obtain ⟨s₁, hs₁, hplain⟩ | ⟨now, rfl⟩ | ⟨now, rfl⟩ | rfl := schedStep_cases s call
  · obtain rfl := some.inj (hs'.symm.trans hs₁)
    cases hplain with
    | stay b => exact ⟨fun q => .same rfl, .inl rfl⟩
    | created p hcall halloc =>
      have hstate := schedulerAdd_state ({ s with nextPid := u64 (s.nextPid + 1) }.setProc p
        { s.procs p with pid := s.nextPid, state := .ready, cpuTime := 0, wakeTime := 0 }) p
      rw [setProc_state, Function.update_idem] at hstate
      exact ⟨StateMove.of_update hstate fun hp => .created hcall halloc hp, .inl (by simp)⟩
    | woken p hcall hblocked =>
      have hstate := schedulerAdd_state (s.setState p .ready) p
      rw [setState_state, Function.update_idem] at hstate
      exact ⟨StateMove.of_update hstate fun hp => .woken (by rw [hcall]; rfl) hblocked hp,
        .inl (by simp)⟩
    | blocked c time hcall hc =>
      exact ⟨StateMove.of_update (setProc_state s c _) fun hp => .blocked hcall hc hp, .inl rfl⟩
    | died p b hdies =>
      exact ⟨StateMove.of_update (setState_state s p .zombie) fun hp => .died hdies hp, .inl rfl⟩
    | reaped c p hcall hc hp =>
      obtain ⟨hzombie, hne⟩ := zombieChild_state hp
      have hcurrent : s.current ≠ some p := fun heq => hne (some.inj (heq.symm.trans hc))
      exact ⟨StateMove.of_update (setProc_state s p _) fun h => .reaped hzombie hcurrent h, .inl rfl⟩
  · rw [schedStep, some.injEq] at hs'
    subst hs'
    obtain ⟨w, -, -, hstate, hcurrent⟩ := h.processCheckSleepers hA fun p hp => hready ▸ hok p hp
    refine ⟨fun q => ?_, .inl hcurrent⟩
    rcases checkSleepers_state hstate q with hsame | ⟨⟨hwakes, hblocked⟩, hq⟩
    · exact .same hsame
    · exact .woken hwakes hblocked hq
  · rw [schedStep, some.injEq] at hs'
    subst hs'
    obtain ⟨w, hw, hwoken, hstate, hcurrent⟩ := h.processCheckSleepers hA (hready ▸ hok.1)
    refine scheduleSwitch_moves hw (fun q hq => ?_) (checkSleepers_state hstate) hcurrent
    rcases List.mem_append.mp hq with hq | hq
    · exact .inl (hready ▸ hq)
    · exact .inr ⟨hwoken q hq, wakesAt_blocked (hwoken q hq)⟩
  · exact switchTimerTick_moves h hs'

/-! ## Zombies stay dead -/

/-- The call keeps the queue a proper list, kills no queued process, and is not a
    tick that switches while the current process is a zombie. -/
def zombieCallOk (s : Sched) (call : SchedCall) : Prop :=
  schedCallOk s call ∧ (∀ p, dies s call = some p → p ∉ s.ready) ∧
    (call = .switchTimerTick → tickDue s → s.ready ≠ [] →
      ∀ c, s.current = some c → s.state c ≠ .zombie)

/-- The call is not one by which `p` itself goes on, and does not give the slot of
    `p` to a new process. -/
def leavesDead (p : ProcId) (s : Sched) (call : SchedCall) : Prop :=
  (blocks call → s.current ≠ some p) ∧ ¬ (call = .processCreate true ∧ allocProcess s = some p)

instance : DecidablePred blocks
  | .processBlock | .processSleep _ _ => .isTrue trivial
  | .processCreate _ | .processWake _ | .processCheckSleepers _ | .processYield | .processExit
  | .sysExit | .sysKill _ | .sysWait | .switchSchedule _ | .switchTimerTick => .isFalse id

instance (s : Sched) (call : SchedCall) : Decidable (zombieCallOk s call) := by
  unfold zombieCallOk
  infer_instance

instance (p : ProcId) (s : Sched) (call : SchedCall) : Decidable (leavesDead p s call) := by
  unfold leavesDead
  infer_instance

/-- `p` is dead: a zombie, or reaped with its slot not yet taken. -/
def Gone (p : ProcId) (s : Sched) : Prop := s.state p = .zombie ∨ s.state p = .unused

/-- `p` is dead after the step, and does not become current in it. -/
def StaysDead (p : ProcId) (s s' : Sched) : Prop :=
  Gone p s' ∧ (s.current ≠ some p → s'.current ≠ some p)

def Alive (st : ProcState) : Prop := st ≠ .zombie ∧ st ≠ .unused

theorem live_alive : Live Alive := by
  constructor <;> simp [Alive]

/-- No queued process is dead, and the current process has a slot. -/
structure ZombieInv (s : Sched) : Prop where
  queued : ∃ l, Queued Alive s l
  current : ∀ c, s.current = some c → s.state c ≠ .unused

theorem ZombieInv.not_ready (h : ZombieInv s) (hp : Gone p s) : p ∉ s.ready := by
  obtain ⟨l, hl⟩ := h.queued
  intro hmem
  obtain ⟨hzombie, hunused⟩ := hl.allowed p (hl.ready_eq ▸ hmem)
  exact hp.elim hzombie hunused

theorem Gone.ne_running (h : Gone p s) : s.state p ≠ .running := by
  rcases h with h | h <;> simp [h]

theorem Gone.ne_blocked (h : Gone p s) : s.state p ≠ .blocked := by
  rcases h with h | h <;> simp [h]

theorem ZombieInv.schedStep (h : ZombieInv s) (hok : zombieCallOk s call) :
    ∃ s', schedStep s call = some s' ∧ ZombieInv s' := by
  obtain ⟨l, hl⟩ := h.queued
  obtain ⟨s', l', hs', hl', -⟩ := hl.schedStep live_alive hok.1 (.inr hok.2.1)
  obtain ⟨hmoves, hcurrent⟩ := schedStep_moves hl live_alive hok.1 hs'
  refine ⟨s', hs', ⟨l', hl'⟩, fun c hc => ?_⟩
  rcases hcurrent with hsame | ⟨n, hn, -, hrunning⟩
  · rw [hsame] at hc
    cases hmoves c with
    | same heq => exact heq ▸ h.current c hc
    | reaped _ hne _ => exact absurd hc hne
    | created _ _ heq | woken _ _ heq | blocked _ _ heq | died _ heq | picked _ _ heq
    | preempted _ _ heq => simp [heq]
  · obtain rfl := some.inj (hc.symm.trans hn)
    simp [hrunning]

/-- One call of the others leaves a dead process dead. -/
theorem ZombieInv.staysDead (h : ZombieInv s) (hok : zombieCallOk s call)
    (hother : leavesDead p s call) (hp : Gone p s) (hs' : OpenSys.schedStep s call = some s') :
    StaysDead p s s' := by
  obtain ⟨l, hl⟩ := h.queued
  obtain ⟨hmoves, hcurrent⟩ := schedStep_moves hl live_alive hok.1 hs'
  have hnot : ¬ (p ∈ s.ready ∨ wakes s call p ∧ s.state p = .blocked) := by
    rintro (hmem | ⟨-, hblocked⟩)
    · exact h.not_ready hp hmem
    · exact hp.ne_blocked hblocked
  constructor
  · cases hmoves p with
    | same heq => exact hp.imp heq.trans heq.trans
    | created hcall hslot _ => exact absurd ⟨hcall, hslot⟩ hother.2
    | woken _ hblocked _ => exact absurd hblocked hp.ne_blocked
    | blocked hcall hc _ => exact absurd hc (hother.1 hcall)
    | died _ heq => exact .inl heq
    | reaped _ _ heq => exact .inr heq
    | picked hqueued _ _ => exact absurd hqueued hnot
    | preempted hc hback _ =>
      rcases hback with hrunning | ⟨hcall, hdue, hne⟩
      · exact absurd hrunning hp.ne_running
      · exact (hp.elim (hok.2.2 hcall hdue hne p hc) (h.current p hc)).elim
  · intro hne
    rcases hcurrent with hsame | ⟨n, hn, hqueued, -⟩
    · exact hsame ▸ hne
    rw [hn]
    rintro heq
    obtain rfl := some.inj heq
    exact hnot hqueued

theorem processInit_zombieInv (s : Sched) : ZombieInv (processInit s) :=
  ⟨⟨[0], processInit_queued live_alive s⟩, fun c hc => by simp [processInit, schedulerInit] at hc⟩

@[simp] theorem schedulerReschedule_state (s : Sched) : (schedulerReschedule s).state = s.state :=
  rfl

theorem dies_zombie (hdies : dies s call = some p) (hs' : schedStep s call = some s') :
    s'.state p = .zombie := by
  cases call with
  | processExit =>
    have hc : s.current = some p := hdies
    simp only [schedStep, processExit, hc, some.injEq] at hs'
    simp [← hs']
  | sysExit =>
    have hc : s.current = some p := hdies
    simp only [schedStep, sysExit, hc, some.injEq] at hs'
    simp [← hs']
  | sysKill pid =>
    have hp : processGet s pid = some p := hdies
    simp only [schedStep, sysKill, hp, some.injEq] at hs'
    simp [← hs']
  | _ => simp [dies] at hdies

/-- From `process_init`, in a run that keeps the queue proper, kills no queued
    process and does not tick on a zombie: once `p` has died, no call of the others
    makes it ready or current again until its slot is taken by a new process. -/
theorem zombie_stays_dead (boot : Sched) (before : List SchedCall) (call : SchedCall)
    (after : List SchedCall) (s s' : Sched) (p : ProcId)
    (hok : Run.AllOk schedStep zombieCallOk (processInit boot) (before ++ call :: after))
    (hrun : Run.run schedStep (processInit boot) before = some s)
    (hdies : dies s call = some p) (hs' : schedStep s call = some s')
    (hafter : Run.AllOk schedStep (leavesDead p) s' after) :
    Gone p s' ∧ Run.Steps schedStep (StaysDead p) s' after := by
  have hstep : ∀ s call, ZombieInv s → zombieCallOk s call →
      ∃ s', schedStep s call = some s' ∧ ZombieInv s' := fun _ _ h hcall => h.schedStep hcall
  obtain ⟨hinv, hcall, hrest⟩ := Run.AllOk.append hstep (processInit_zombieInv boot) hok hrun
  have hgone : Gone p s' := .inl (dies_zombie hdies hs')
  have hinv' : ZombieInv s' := by
    obtain ⟨s₁, hs₁, h₁⟩ := hinv.schedStep hcall
    exact some.inj (hs₁.symm.trans hs') ▸ h₁
  have hdead : ∀ s call, ZombieInv s ∧ Gone p s → zombieCallOk s call ∧ leavesDead p s call →
      ∃ s', schedStep s call = some s' ∧ StaysDead p s s' ∧ ZombieInv s' ∧ Gone p s' := by
    rintro s call ⟨h, hp⟩ ⟨hcall, hother⟩
    obtain ⟨s₁, hs₁, h₁⟩ := h.schedStep hcall
    have hstays := h.staysDead hcall hother hp hs₁
    exact ⟨s₁, hs₁, hstays, h₁, hstays.1⟩
  exact ⟨hgone, Run.steps_of_allOk hdead ⟨hinv', hgone⟩ ((hrest s' hs').and hafter)⟩

/-- The idle process exits, a switch makes the other process current, and that one
    reaps it. -/
theorem zombie_stays_dead_reaped :
    ∃ s s', Run.run schedStep (processInit schedBoot) [.processCreate true, .switchSchedule 0] =
        some s ∧ schedStep s .sysExit = some s' ∧
      Gone 0 s' ∧ Run.Steps schedStep (StaysDead 0) s' [.switchSchedule 0, .sysWait] := by
  have hconcrete : (Run.run schedStep (processInit schedBoot)
      [.processCreate true, .switchSchedule 0]).any (fun s => decide (dies s .sysExit = some 0) &&
        (schedStep s .sysExit).any fun s' =>
          decide (Run.AllOk schedStep (leavesDead 0) s' [.switchSchedule 0, .sysWait])) = true := by
    decide +kernel
  simp only [any_eq_true, Bool.and_eq_true, decide_eq_true_iff] at hconcrete
  obtain ⟨s, hrun, hdies, s', hs', hleaves⟩ := hconcrete
  exact ⟨s, s', hrun, hs', zombie_stays_dead schedBoot _ .sysExit _ s s' 0 (by decide +kernel) hrun
    hdies hs' hleaves⟩

/-- A process exits and a tick switches away from it: it is ready again. -/
theorem zombie_ready_again : ∃ s s' s'', Run.run schedStep (processInit schedBoot)
        [.processCreate true, .switchSchedule 0, .switchSchedule 0] = some s ∧
      dies s .sysExit = some 1 ∧ schedStep s .sysExit = some s' ∧ s'.state 1 = .zombie ∧
      schedStep s' .switchTimerTick = some s'' ∧ s''.state 1 = .ready := by
  have hconcrete : (Run.run schedStep (processInit schedBoot)
      [.processCreate true, .switchSchedule 0, .switchSchedule 0]).any
        (fun s => decide (dies s .sysExit = some 1) && (schedStep s .sysExit).any fun s' =>
          decide (s'.state 1 = .zombie) && (schedStep s' .switchTimerTick).any fun s'' =>
            decide (s''.state 1 = .ready)) = true := by
    decide +kernel
  simp only [any_eq_true, Bool.and_eq_true, decide_eq_true_iff] at hconcrete
  obtain ⟨s, hrun, hdies, s', hs', hzombie, s'', hs'', hready⟩ := hconcrete
  exact ⟨s, s', s'', hrun, hdies, hs', hzombie, hs'', hready⟩

end OpenSys
