-- SUMMARY: When the ready queue stays a proper list.
import OpenSys.Lib.Run
import OpenSys.Process.Sched

/-!
# The ready queue

The links inside the process table are an intrusive queue in the sense of
`OpenSys.Queue`. Nothing stops the kernel from adding a process that is already
queued, from reaping one that is queued, or from putting a zombie back. This file
says which calls do so, and that all other runs keep the queue well formed and
the dead processes dead.
-/

namespace OpenSys

open List Function Option Sched

open Queue (IsQueue)

variable {s s' : Sched} {p q : ProcId} {l : List ProcId} {A : ProcState → Prop}

/-- The links of the process table as a queue. -/
def Sched.links (s : Sched) : Queue.Links ProcId where
  next p := (s.procs p).next
  prev p := (s.procs p).prev
  head := s.readyQueue
  tail := s.readyQueueTail

/-- The queued processes, front first. -/
def Sched.ready (s : Sched) : List ProcId :=
  Queue.walk (fun p => (s.procs p).next) 64 s.readyQueue

/-- The ready queue is the list `l`, and the state of every queued process is
    one that `A` allows. -/
structure Queued (A : ProcState → Prop) (s : Sched) (l : List ProcId) : Prop where
  queue : IsQueue s.links l
  allowed : ∀ p ∈ l, A (s.state p)

theorem Queued.ready_eq (h : Queued A s l) : s.ready = l := h.queue.walk_eq

/-! ## Elementary updates -/

/-- An update that leaves the links of `p` alone, and keeps its state allowed if
    `p` is queued. -/
theorem Queued.setProc (h : Queued A s l) {proc : Proc} (hnext : proc.next = (s.procs p).next)
    (hprev : proc.prev = (s.procs p).prev) (hstate : p ∈ l → A proc.state) :
    Queued A (s.setProc p proc) l := by
  have hlinks : (s.setProc p proc).links = s.links := by
    simp only [Sched.links, Sched.setProc, Queue.Links.mk.injEq, and_true]
    refine ⟨funext fun q => ?_, funext fun q => ?_⟩
    · by_cases hq : q = p
      · simp [hq, hnext]
      · simp [hq]
    · by_cases hq : q = p
      · simp [hq, hprev]
      · simp [hq]
  refine ⟨hlinks ▸ h.queue, fun q hq => ?_⟩
  by_cases hqp : q = p
  · subst hqp
    simpa [Sched.state, Sched.setProc] using hstate hq
  · simpa [Sched.state, Sched.setProc, hqp] using h.allowed q hq

theorem Queued.setState (h : Queued A s l) {st : ProcState} (hst : p ∈ l → A st) :
    Queued A (s.setState p st) l :=
  h.setProc rfl rfl hst

@[simp] theorem setProc_state (s : Sched) (p : ProcId) (proc : Proc) :
    (s.setProc p proc).state = update s.state p proc.state := by
  funext q
  by_cases hq : q = p <;> simp [state, setProc, hq]

@[simp] theorem setProc_current (s : Sched) (p : ProcId) (proc : Proc) :
    (s.setProc p proc).current = s.current := rfl

@[simp] theorem setState_state (s : Sched) (p : ProcId) (st : ProcState) :
    (s.setState p st).state = update s.state p st :=
  setProc_state s p _

@[simp] theorem setState_current (s : Sched) (p : ProcId) (st : ProcState) :
    (s.setState p st).current = s.current := rfl

/-- `scheduler_add` is the append of the queue. -/
theorem schedulerAdd_links (s : Sched) (p : ProcId) :
    (schedulerAdd s p).links = Queue.push s.links p := by
  cases htail : s.readyQueueTail with
  | none =>
    simp only [links, schedulerAdd, Queue.push, Sched.setNext, setPrev,
      setState, setProc, htail, Queue.Links.mk.injEq, and_true]
    refine ⟨funext fun q => ?_, funext fun q => ?_⟩ <;>
      by_cases hq : q = p <;> simp [hq]
  | some t =>
    simp only [links, schedulerAdd, Queue.push, Sched.setNext, setPrev,
      setState, setProc, htail, Queue.Links.mk.injEq, and_true]
    refine ⟨funext fun q => ?_, funext fun q => ?_⟩ <;>
      by_cases hq : q = p <;> by_cases hqt : q = t <;> by_cases hpt : p = t <;>
        simp_all [update_apply]

/-- Adding touches the state of the added process and the links only. -/
theorem schedulerAdd_proc (s : Sched) (p q : ProcId) : (schedulerAdd s p).procs q = { s.procs q with
    next := ((schedulerAdd s p).procs q).next
    prev := ((schedulerAdd s p).procs q).prev
    state := if q = p then .ready else s.state q } := by
  cases htail : s.readyQueueTail with
  | none =>
    by_cases hq : q = p <;>
      simp [state, schedulerAdd, Sched.setNext, setPrev, setState, setProc, htail, hq]
  | some t =>
    by_cases hq : q = p <;> by_cases hqt : q = t <;> by_cases hpt : p = t <;>
      simp_all [state, schedulerAdd, Sched.setNext, setPrev, setState, setProc, update_apply]

theorem schedulerAdd_state (s : Sched) (p : ProcId) :
    (schedulerAdd s p).state = update s.state p .ready := by
  funext q
  rw [state, schedulerAdd_proc, update_apply]

theorem schedulerAdd_wakeTime (s : Sched) (p q : ProcId) :
    ((schedulerAdd s p).procs q).wakeTime = (s.procs q).wakeTime := by
  rw [schedulerAdd_proc]

@[simp] theorem schedulerAdd_current (s : Sched) (p : ProcId) :
    (schedulerAdd s p).current = s.current := by
  unfold schedulerAdd
  cases htail : s.readyQueueTail <;>
    simp [Sched.setNext, setPrev, setState, setProc, htail]

theorem Queued.add (h : Queued A s l) (hA : A .ready) (hp : p ∉ l) :
    Queued A (schedulerAdd s p) (l ++ [p]) where
  queue := by
    rw [schedulerAdd_links]
    exact h.queue.push hp
  allowed := by
    intro q hq
    rw [schedulerAdd_state, update_apply]
    split
    · exact hA
    · rename_i hne
      exact h.allowed q ((mem_append.mp hq).resolve_right (by simpa using hne))

/-- `scheduler_pick` is the front of the queue. -/
theorem schedulerPick_links (s : Sched) :
    (schedulerPick s).map (fun r => (r.1, r.2.links)) = Queue.pop s.links := by
  cases hhead : s.readyQueue with
  | none => simp [schedulerPick, Queue.pop, links, hhead]
  | some p =>
    cases hnext : (s.procs p).next with
    | none => simp [schedulerPick, Queue.pop, links, hhead, hnext]
    | some n =>
      simp only [schedulerPick, Queue.pop, links, hhead, hnext, setPrev,
        setProc, map_some, some.injEq, Prod.mk.injEq, true_and,
        Queue.Links.mk.injEq, and_true]
      refine ⟨funext fun q => ?_, funext fun q => ?_⟩ <;> by_cases hq : q = n <;> simp [hq]

variable {n : ProcId} {now : Nat}

theorem schedulerPick_proc (h : schedulerPick s = some (n, s')) (q : ProcId) :
    s'.procs q = { s.procs q with prev := (s'.procs q).prev } := by
  obtain ⟨p, -, heq⟩ := map_eq_some_iff.mp h
  obtain ⟨-, rfl⟩ := Prod.mk.inj heq
  split
  · rename_i m _
    by_cases hq : q = m <;> simp [setPrev, setProc, hq]
  · rfl

theorem schedulerPick_frame (h : schedulerPick s = some (n, s')) :
    s'.state = s.state ∧ s'.current = s.current := by
  refine ⟨funext fun q => by rw [state, schedulerPick_proc h, state], ?_⟩
  obtain ⟨p, -, heq⟩ := map_eq_some_iff.mp h
  obtain ⟨-, rfl⟩ := Prod.mk.inj heq
  split <;> rfl

theorem Queued.pick_nil (h : Queued A s []) : schedulerPick s = none := by
  have hmap := schedulerPick_links s
  rw [h.queue.pop_nil] at hmap
  exact map_eq_none_iff.mp hmap

theorem Queued.pick_cons (h : Queued A s (p :: l)) :
    ∃ s', schedulerPick s = some (p, s') ∧ Queued A s' l ∧ s'.state = s.state ∧
      s'.current = s.current := by
  obtain ⟨links, hpop, hqueue⟩ := h.queue.pop_cons
  have hmap := (schedulerPick_links s).trans hpop
  obtain ⟨⟨p', s'⟩, hpick, heq⟩ := map_eq_some_iff.mp hmap
  obtain ⟨rfl, rfl⟩ := Prod.mk.inj heq
  obtain ⟨hstate, hcurrent⟩ := schedulerPick_frame hpick
  refine ⟨s', hpick, ⟨hqueue, fun q hq => ?_⟩, hstate, hcurrent⟩
  rw [hstate]
  exact h.allowed q (mem_cons_of_mem _ hq)

/-- Fields outside the links and the states do not matter. -/
theorem Queued.congr (h : Queued A s l) (hprocs : s'.procs = s.procs)
    (hhead : s'.readyQueue = s.readyQueue) (htail : s'.readyQueueTail = s.readyQueueTail) :
    Queued A s' l := by
  refine ⟨?_, fun p hp => ?_⟩
  · have hlinks : s'.links = s.links := by simp [links, hprocs, hhead, htail]
    exact hlinks ▸ h.queue
  · have hstate : s'.state p = s.state p := by simp [state, hprocs]
    exact hstate ▸ h.allowed p hp

theorem Queued.setCurrent (h : Queued A s l) (hA : A .running) :
    Queued A (schedulerSetCurrent s p) l := by
  have hcurrent : Queued A { s with current := some p } l := h.congr rfl rfl rfl
  exact hcurrent.setState fun _ => hA

theorem Queued.clearReschedule (h : Queued A s l) : Queued A (schedulerClearReschedule s) l :=
  h.congr rfl rfl rfl

theorem Queued.reschedule (h : Queued A s l) : Queued A (schedulerReschedule s) l :=
  h.congr rfl rfl rfl

/-! ## Conditions -/

/-- The calls by which the current process puts itself to sleep. -/
def blocks : SchedCall → Prop
  | .processBlock | .processSleep _ _ => True
  | _ => False

/-- The process that a call turns into a zombie. -/
def dies (s : Sched) : SchedCall → Option ProcId
  | .sysExit | .processExit => s.current
  | .sysKill pid => processGet s pid
  | _ => none

/-- The call wakes process `q`, if that one is blocked. -/
def wakes (s : Sched) : SchedCall → ProcId → Prop
  | .processWake r, q => r = some q
  | .processCheckSleepers now, q | .switchSchedule now, q => wakesAt s now q = true
  | _, _ => False

/-- A timer tick now reaches the switching part with the current process. -/
def tickDue (s : Sched) : Prop :=
  s.scheduleNeeded = true ∨ timeSliceMs ≤ s.timeSliceCounter + 1

/-- The call puts no queued process into the queue again and reaps none. The front
    of the queue is taken off before the current process goes back. -/
def schedCallOk (s : Sched) : SchedCall → Prop
  | .processWake (some p) => s.state p = .blocked → p ∉ s.ready
  | .processCheckSleepers now => ∀ p, wakesAt s now p = true → p ∉ s.ready
  | .sysWait => ∀ c p, s.current = some c → zombieChild s c = some p → p ∉ s.ready
  | .switchSchedule now => (∀ p, wakesAt s now p = true → p ∉ s.ready) ∧
      ∀ c, s.current = some c → s.state c = .running → c ∉ s.ready.tail
  | .switchTimerTick => tickDue s → ∀ c, s.current = some c → c ∉ s.ready.tail
  | _ => True

instance (s : Sched) : Decidable (tickDue s) := by
  unfold tickDue
  infer_instance

instance (s : Sched) (p : ProcId) : Decidable (p ∈ s.ready) := inferInstance

instance (s : Sched) (call : SchedCall) : Decidable (schedCallOk s call) := by
  cases call with
  | processWake r => cases r <;> unfold schedCallOk <;> infer_instance
  | _ => unfold schedCallOk; infer_instance

/-- The states a queued process may have in the following lemmas: all that a
    process is given while it lives, and not that of a free slot. -/
structure Live (A : ProcState → Prop) : Prop where
  ready : A .ready
  running : A .running
  blocked : A .blocked
  unused : ¬ A .unused

/-! ## One call -/

theorem allocProcess_state (h : allocProcess s = some p) : s.state p = .unused := by
  simpa using find?_some h

/-- Every member of the queue `l'` of `s'` was in `l` or has just been made ready. -/
def QueueGrows (l : List ProcId) (s' : Sched) (l' : List ProcId) : Prop :=
  ∀ q ∈ l', q ∈ l ∨ s'.state q = .ready

theorem QueueGrows.same (s : Sched) (l : List ProcId) : QueueGrows l s l := fun _ => .inl

theorem QueueGrows.add (s : Sched) (l : List ProcId) (p : ProcId) :
    QueueGrows l (schedulerAdd s p) (l ++ [p]) := by
  intro q hq
  rcases mem_append.mp hq with hq | hq
  · exact .inl hq
  · obtain rfl := mem_singleton.mp hq
    exact .inr (by simp [schedulerAdd_state])

theorem checkSleeper_of_wakes (h : wakesAt s now p = true) : checkSleeper now s p =
      schedulerAdd (s.setProc p { s.procs p with wakeTime := 0, state := .ready }) p := by
  simp [checkSleeper, h]

/-- A round of the sleepers' loop does not change whom later rounds wake. -/
theorem wakesAt_checkSleeper (hq : q ≠ p) :
    wakesAt (checkSleeper now s p) now q = wakesAt s now q := by
  unfold checkSleeper
  split
  · have htime : ((s.setProc p { s.procs p with wakeTime := 0, state := .ready }).procs q) =
        s.procs q := update_of_ne hq _ _
    simp [wakesAt, schedulerAdd_state, schedulerAdd_wakeTime, hq, htime]
  · rfl

theorem checkSleeper_state (h : wakesAt s now p = true) :
    (checkSleeper now s p).state = update s.state p .ready := by
  rw [checkSleeper_of_wakes h, schedulerAdd_state, setProc_state, update_idem]

/-- The loop over the sleepers appends the processes it wakes, each once, makes
    them ready and changes no other process's state. -/
theorem Queued.checkSleepers (h : Queued A s l) (hA : Live A) {is : List ProcId}
    (hnodup : is.Nodup) (hok : ∀ p ∈ is, wakesAt s now p = true → p ∉ l) :
    ∃ w, Queued A (is.foldl (checkSleeper now) s) (l ++ w) ∧
      (∀ p ∈ w, p ∈ is ∧ wakesAt s now p = true) ∧
      (∀ p, (is.foldl (checkSleeper now) s).state p =
        if p ∈ is ∧ wakesAt s now p = true then .ready else s.state p) ∧
      (is.foldl (checkSleeper now) s).current = s.current := by
  induction is generalizing s l with
  | nil => exact ⟨[], by simpa using h, by simp, by simp, rfl⟩
  | cons i is ih =>
    obtain ⟨hi, hnodup⟩ := nodup_cons.mp hnodup
    have hne : ∀ p ∈ is, p ≠ i := fun p hp heq => hi (heq ▸ hp)
    rw [foldl_cons]
    by_cases hwakes : wakesAt s now i = true
    · have hil : i ∉ l := hok i mem_cons_self hwakes
      have hadd : Queued A (checkSleeper now s i) (l ++ [i]) := by
        have hset : Queued A (s.setProc i { s.procs i with wakeTime := 0, state := .ready }) l :=
          h.setProc rfl rfl fun _ => hA.ready
        rw [checkSleeper_of_wakes hwakes]
        exact hset.add hA.ready hil
      obtain ⟨w, hw, hwoken, hframe, hcurrent⟩ := ih hadd hnodup fun p hp hpw => by
        rw [wakesAt_checkSleeper (hne p hp)] at hpw
        simpa [hne p hp] using hok p (mem_cons_of_mem i hp) hpw
      refine ⟨i :: w, by simpa using hw, ?_, ?_, ?_⟩
      · intro p hp
        rcases mem_cons.mp hp with rfl | hp
        · exact ⟨mem_cons_self, hwakes⟩
        · obtain ⟨hmem, hpw⟩ := hwoken p hp
          rw [wakesAt_checkSleeper (hne p hmem)] at hpw
          exact ⟨mem_cons_of_mem i hmem, hpw⟩
      · intro p
        rw [hframe p, checkSleeper_state hwakes]
        by_cases hpi : p = i
        · subst hpi
          simp [hi, hwakes]
        · simp [hpi, wakesAt_checkSleeper hpi]
      · rw [hcurrent, checkSleeper_of_wakes hwakes]
        simp
    · have hsame : checkSleeper now s i = s := by simp [checkSleeper, hwakes]
      rw [hsame]
      obtain ⟨w, hw, hwoken, hframe, hcurrent⟩ :=
        ih h hnodup fun p hp => hok p (mem_cons_of_mem i hp)
      refine ⟨w, hw, fun p hp => ?_, fun p => ?_, hcurrent⟩
      · exact ⟨mem_cons_of_mem i (hwoken p hp).1, (hwoken p hp).2⟩
      rw [hframe p]
      by_cases hpi : p = i
      · subst hpi
        simp [hi, hwakes]
      · simp [hpi]

/-- The switch after the front process was taken off: the current process goes
    back when `back` says so, and the taken one runs. -/
def switchTo (s : Sched) (n : ProcId) (back : Bool) : Sched :=
  let s := match s.current with
    | some c => if back then schedulerAdd (s.setState c .ready) c else s
    | none => s
  schedulerClearReschedule (schedulerSetCurrent s n)

protected theorem Queued.switchTo (h : Queued A s l) (hA : Live A) (n : ProcId) {back : Bool}
    (hback : back = true → ∀ c, s.current = some c → c ∉ l) :
    ∃ l', Queued A (switchTo s n back) l' ∧ QueueGrows (n :: l) (switchTo s n back) l' := by
  have hsame : ∀ s₁ : Sched, QueueGrows (n :: l) s₁ l := fun _ _ hq =>
    .inl (mem_cons_of_mem n hq)
  cases hcurrent : s.current with
  | none =>
    refine ⟨l, ?_, hsame _⟩
    simp only [switchTo, hcurrent]
    exact (h.setCurrent hA.running).clearReschedule
  | some c =>
    cases back with
    | false =>
      refine ⟨l, ?_, hsame _⟩
      simp only [switchTo, hcurrent]
      exact (h.setCurrent hA.running).clearReschedule
    | true =>
      have hadd := (h.setState (p := c) fun _ => hA.ready).add hA.ready (hback rfl c hcurrent)
      refine ⟨l ++ [c], ?_, fun q hq => ?_⟩
      · simp only [switchTo, hcurrent]
        exact (hadd.setCurrent hA.running).clearReschedule
      by_cases hqn : q = n
      · exact .inl (hqn ▸ mem_cons_self)
      refine (QueueGrows.add (s.setState c .ready) l c q hq).imp (mem_cons_of_mem n) ?_
      intro hready
      simp only [switchTo, hcurrent]
      simpa [Sched.state, schedulerClearReschedule, schedulerSetCurrent, Sched.setState,
        Sched.setProc, hqn] using hready

/-- `switch_schedule` puts the current process back if it is still running. -/
def stillRunning (s : Sched) : Bool :=
  (s.current.map fun c => s.state c == .running).getD false

theorem scheduleSwitch_some (h : schedulerPick s = some (n, s')) :
    scheduleSwitch s = switchTo s' n (stillRunning s') := by
  cases hc : s'.current with
  | none => simp [scheduleSwitch, h, switchTo, hc]
  | some c => simp [scheduleSwitch, h, switchTo, stillRunning, hc]

theorem tickSwitch_some (h : schedulerPick s = some (n, s')) :
    tickSwitch s = switchTo s' n true := by
  cases hc : s'.current with
  | none => simp [tickSwitch, h, switchTo, hc]
  | some c => simp [tickSwitch, h, switchTo, hc]

theorem Queued.scheduleSwitch (h : Queued A s l) (hA : Live A)
    (hback : ∀ c, s.current = some c → s.state c = .running → c ∉ l.tail) :
    ∃ l', Queued A (scheduleSwitch s) l' ∧ QueueGrows l (scheduleSwitch s) l' := by
  cases l with
  | nil =>
    refine ⟨[], ?_, .same _ []⟩
    simp only [OpenSys.scheduleSwitch, h.pick_nil]
    split
    · exact h.clearReschedule
    · exact h
  | cons n l =>
    obtain ⟨s₁, hpick, hrest, hstate, hcurrent⟩ := h.pick_cons
    rw [scheduleSwitch_some hpick]
    refine hrest.switchTo hA n fun hrun c hc => ?_
    rw [hcurrent] at hc
    refine hback c hc ?_
    simpa [stillRunning, hcurrent, hc, hstate] using hrun

protected theorem Queued.tickSwitch (h : Queued A s l) (hA : Live A)
    (hback : ∀ c, s.current = some c → c ∉ l.tail) :
    ∃ l', Queued A (tickSwitch s) l' ∧ QueueGrows l (tickSwitch s) l' := by
  cases l with
  | nil =>
    refine ⟨[], ?_, .same _ []⟩
    simp only [tickSwitch, h.pick_nil]
    exact h.clearReschedule
  | cons n l =>
    obtain ⟨s₁, hpick, hrest, -, hcurrent⟩ := h.pick_cons
    rw [tickSwitch_some hpick]
    exact hrest.switchTo hA n fun _ c hc => hback c (hcurrent ▸ hc)

theorem Queued.processCheckSleepers (h : Queued A s l) (hA : Live A)
    (hok : ∀ p, wakesAt s now p = true → p ∉ l) :
    ∃ w, Queued A (processCheckSleepers s now) (l ++ w) ∧ (∀ p ∈ w, wakesAt s now p = true) ∧
      (∀ p, (processCheckSleepers s now).state p =
        if wakesAt s now p = true then .ready else s.state p) ∧
      (processCheckSleepers s now).current = s.current := by
  obtain ⟨w, hw, hwoken, hframe, hcurrent⟩ :=
    h.checkSleepers hA (nodup_finRange 64) fun p _ => hok p
  refine ⟨w, hw, fun p hp => (hwoken p hp).2, fun p => ?_, hcurrent⟩
  exact (hframe p).trans (by simp)

theorem wakesAt_blocked (h : wakesAt s now p = true) : s.state p = .blocked := by
  simp only [wakesAt, Bool.and_eq_true, beq_iff_eq] at h
  exact h.1.1

theorem Queued.switchSchedule (h : Queued A s l) (hA : Live A)
    (hsleep : ∀ p, wakesAt s now p = true → p ∉ l)
    (hback : ∀ c, s.current = some c → s.state c = .running → c ∉ l.tail) :
    ∃ l', Queued A (switchSchedule s now) l' ∧ ∀ q ∈ l', q ∈ l ∨ wakesAt s now q = true ∨
      (switchSchedule s now).state q = .ready := by
  obtain ⟨w, hw, hwoken, hframe, hcurrent⟩ := h.processCheckSleepers hA hsleep
  have hnotw : ∀ c, s.current = some c →
      (OpenSys.processCheckSleepers s now).state c = .running → s.state c = .running ∧ c ∉ w := by
    intro c hc hrun
    rw [hframe c] at hrun
    split at hrun
    · cases hrun
    · rename_i hsleeps
      exact ⟨hrun, fun hmem => hsleeps (hwoken c hmem)⟩
  obtain ⟨l', hl', hgrows⟩ := hw.scheduleSwitch hA fun c hc hrun => by
    rw [hcurrent] at hc
    -- A process that runs now was not woken just now.
    obtain ⟨hrunning, hcw⟩ := hnotw c hc hrun
    cases l with
    | nil => exact fun hmem => hcw (mem_of_mem_tail hmem)
    | cons n l =>
      rw [cons_append, tail_cons, mem_append, not_or]
      exact ⟨hback c hc hrunning, hcw⟩
  refine ⟨l', hl', fun q hq => ?_⟩
  rcases hgrows q hq with hmem | hready
  · exact (mem_append.mp hmem).imp_right fun hqw => .inl (hwoken q hqw)
  · exact .inr (.inr hready)

/-- A tick without a current process forces a switch when someone is queued. -/
theorem Queued.runnableCount (h : Queued A s l) : schedulerRunnableCount s = some l.length :=
  h.queue.countFrom_eq

protected theorem Queued.schedulerTick (h : Queued A s l) : Queued A (schedulerTick s) l := by
  unfold schedulerTick
  split
  · exact h
  rename_i c _
  split
  · have hcount : Queued A { s with timeSliceCounter := 0, scheduleNeeded := true } l :=
      h.congr rfl rfl rfl
    exact hcount.setProc rfl rfl fun hc => h.allowed c hc
  · exact h.congr rfl rfl rfl

theorem schedulerTick_proc (s : Sched) (q : ProcId) : (schedulerTick s).procs q =
    { s.procs q with cpuTime := ((schedulerTick s).procs q).cpuTime } := by
  unfold schedulerTick
  split
  · rfl
  rename_i c _
  split
  · by_cases hq : q = c <;> simp [setProc, hq]
  · rfl

@[simp] theorem schedulerTick_current (s : Sched) : (schedulerTick s).current = s.current := by
  unfold schedulerTick
  split
  · rfl
  · split <;> rfl

/-- With a current process, the flag after `scheduler_tick` is what `tickDue` says. -/
theorem schedulerTick_needed {c : ProcId} (hc : s.current = some c) :
    (schedulerTick s).scheduleNeeded = true ↔ tickDue s := by
  unfold schedulerTick tickDue
  rw [hc]
  dsimp only
  split
  · rename_i hle
    exact ⟨fun _ => .inr hle, fun _ => rfl⟩
  · rename_i hlt
    exact ⟨.inl, fun h => h.resolve_right hlt⟩

protected theorem Queued.switchTimerTick (h : Queued A s l) (hA : Live A)
    (hback : tickDue s → ∀ c, s.current = some c → c ∉ l.tail) :
    ∃ s' l', switchTimerTick s = some s' ∧ Queued A s' l' ∧ QueueGrows l s' l' := by
  have htick := h.schedulerTick
  -- The last step, from the state in which the flag is read.
  have hlast : ∀ s₁, Queued A s₁ l → s₁.current = s.current →
      (s₁.scheduleNeeded = true → ∀ c, s.current = some c → tickDue s) →
      ∃ s' l', some (if s₁.scheduleNeeded then tickSwitch s₁ else s₁) = some s' ∧
        Queued A s' l' ∧ QueueGrows l s' l' := by
    intro s₁ h₁ hcurrent hdue
    split
    · rename_i hneeded
      obtain ⟨l', hl', hgrows⟩ := h₁.tickSwitch hA fun c hc => by
        rw [hcurrent] at hc
        exact hback (hdue hneeded c hc) c hc
      exact ⟨_, l', rfl, hl', hgrows⟩
    · exact ⟨_, l, rfl, h₁, .same _ l⟩
  cases hc : s.current with
  | none =>
    have hc' : (schedulerTick s).current = none := by simp [hc]
    simp only [switchTimerTick, hc', htick.runnableCount, map_some]
    have hnone : ∀ b : Prop, ∀ c, s.current = some c → b := by simp [hc]
    split
    · exact hlast _ htick.reschedule (schedulerTick_current s) fun _ => hnone _
    · exact hlast _ htick (schedulerTick_current s) fun _ => hnone _
  | some c =>
    have hc' : (schedulerTick s).current = some c := by simp [hc]
    simp only [switchTimerTick, hc', map_some]
    exact hlast _ htick (schedulerTick_current s)
      fun hneeded d hd => (schedulerTick_needed hd).mp hneeded

theorem zombieChild_state {c : ProcId} (h : zombieChild s c = some p) :
    s.state p = .zombie ∧ p ≠ c := by
  simpa using find?_some h

/-- What a call can do that neither switches nor looks for sleepers. -/
inductive PlainStep (s : Sched) (call : SchedCall) : Sched → Prop where
  | stay (b : Bool) : PlainStep s call { s with scheduleNeeded := b }
  | created (p : ProcId) (hcall : call = .processCreate true) (hslot : allocProcess s = some p) :
    PlainStep s call (schedulerAdd ({ s with nextPid := u64 (s.nextPid + 1) }.setProc p
      { s.procs p with pid := s.nextPid, state := .ready, cpuTime := 0, wakeTime := 0 }) p)
  | woken (p : ProcId) (hcall : call = .processWake (some p)) (hblocked : s.state p = .blocked) :
    PlainStep s call (schedulerAdd (s.setState p .ready) p)
  | blocked (c : ProcId) (time : Nat) (hcall : blocks call) (hc : s.current = some c) :
    PlainStep s call
      (schedulerReschedule (s.setProc c { s.procs c with wakeTime := time, state := .blocked }))
  | died (p : ProcId) (b : Bool) (hdies : dies s call = some p) :
    PlainStep s call { s.setState p .zombie with scheduleNeeded := b }
  | reaped (c p : ProcId) (hcall : call = .sysWait) (hc : s.current = some c)
      (hp : zombieChild s c = some p) :
    PlainStep s call (s.setProc p { s.procs p with state := .unused, pid := 0 })

theorem schedStep_cases (s : Sched) (call : SchedCall) :
    (∃ s', schedStep s call = some s' ∧ PlainStep s call s') ∨
      (∃ now, call = .processCheckSleepers now) ∨ (∃ now, call = .switchSchedule now) ∨
      call = .switchTimerTick := by
  cases call with
  | processCheckSleepers now => exact .inr (.inl ⟨now, rfl⟩)
  | switchSchedule now => exact .inr (.inr (.inl ⟨now, rfl⟩))
  | switchTimerTick => exact .inr (.inr (.inr rfl))
  | processCreate stack =>
    refine .inl ⟨_, rfl, ?_⟩
    unfold processCreate
    cases halloc : allocProcess s with
    | none => exact .stay _
    | some p =>
      cases stack with
      | false => exact .stay _
      | true => exact .created p rfl halloc
  | processBlock =>
    refine .inl ⟨_, rfl, ?_⟩
    unfold processBlock
    cases hc : s.current with
    | none => exact .stay true
    | some c => exact .blocked c _ trivial hc
  | processWake r =>
    refine .inl ⟨_, rfl, ?_⟩
    cases r with
    | none => exact .stay _
    | some p =>
      rw [processWake]
      split
      · rename_i hblocked
        exact .woken p rfl hblocked
      · exact .stay _
  | processSleep now ms =>
    refine .inl ⟨_, rfl, ?_⟩
    unfold processSleep
    cases hc : s.current with
    | none => exact .stay _
    | some c => exact .blocked c _ trivial hc
  | processYield => exact .inl ⟨_, rfl, .stay true⟩
  | processExit =>
    refine .inl ⟨_, rfl, ?_⟩
    unfold processExit
    cases hc : s.current with
    | none => exact .stay _
    | some c => exact .died c _ hc
  | sysExit =>
    refine .inl ⟨_, rfl, ?_⟩
    unfold sysExit
    cases hc : s.current with
    | none => exact .stay _
    | some c => exact .died c true hc
  | sysKill pid =>
    refine .inl ⟨_, rfl, ?_⟩
    unfold sysKill
    cases hp : processGet s pid with
    | none => exact .stay _
    | some p => exact .died p _ hp
  | sysWait =>
    refine .inl ⟨_, rfl, ?_⟩
    unfold sysWait
    cases hc : s.current with
    | none => exact .stay _
    | some c =>
      dsimp only
      cases hp : zombieChild s c with
      | none => exact .stay true
      | some p => exact .reaped c p rfl hc hp

/-- One call that puts no queued process back and reaps none keeps the queue a
    proper list. Where zombies are not allowed in it, the call must not kill a
    queued process either. Who joins the queue was woken or is ready now. -/
theorem Queued.schedStep (h : Queued A s l) (hA : Live A) {call : SchedCall}
    (hok : schedCallOk s call) (hdies : A .zombie ∨ ∀ p, dies s call = some p → p ∉ s.ready) :
    ∃ s' l', schedStep s call = some s' ∧ Queued A s' l' ∧
      ∀ q ∈ l', q ∈ l ∨ wakes s call q ∨ s'.state q = .ready := by
  have hready := h.ready_eq
  obtain ⟨s', hs', hplain⟩ | ⟨now, rfl⟩ | ⟨now, rfl⟩ | rfl := schedStep_cases s call
  · rw [hs']
    have hadd : ∀ s₁ p, Queued A s₁ l → p ∉ l → s' = schedulerAdd s₁ p → ∃ s'' l',
        some s' = some s'' ∧ Queued A s'' l' ∧
          ∀ q ∈ l', q ∈ l ∨ wakes s call q ∨ s''.state q = .ready := by
      rintro s₁ p h₁ hp rfl
      exact ⟨_, l ++ [p], rfl, h₁.add hA.ready hp, fun q hq =>
        (QueueGrows.add s₁ l p q hq).imp_right .inr⟩
    have hsame (hl : Queued A s' l) : ∃ s'' l', some s' = some s'' ∧ Queued A s'' l' ∧
        ∀ q ∈ l', q ∈ l ∨ wakes s call q ∨ s''.state q = .ready := ⟨s', l, rfl, hl, fun _ => .inl⟩
    cases hplain with
    | stay b => exact hsame (h.congr rfl rfl rfl)
    | created p _ halloc =>
      have hpid : Queued A { s with nextPid := u64 (s.nextPid + 1) } l := h.congr rfl rfl rfl
      refine hadd _ p ?_ (fun hmem => hA.unused ?_) rfl
      · exact hpid.setProc rfl rfl fun _ => hA.ready
      · exact allocProcess_state halloc ▸ h.allowed p hmem
    | woken p hcall hblocked =>
      subst hcall
      refine hadd _ p ?_ (hready ▸ hok hblocked) rfl
      exact h.setState fun _ => hA.ready
    | blocked c time => exact hsame (Queued.reschedule (h.setProc rfl rfl fun _ => hA.blocked))
    | died p b hp =>
      have hkill : p ∈ l → A .zombie := fun hmem =>
        hdies.resolve_right fun hnot => hnot p hp (hready ▸ hmem)
      exact hsame ((h.setState hkill).congr rfl rfl rfl)
    | reaped c p hcall hc hp =>
      subst hcall
      have hnot : p ∉ l := hready ▸ hok c p hc hp
      exact hsame (h.setProc rfl rfl fun hmem => absurd hmem hnot)
  · obtain ⟨w, hw, hwoken, -⟩ := h.processCheckSleepers hA fun p hp => hready ▸ hok p hp
    refine ⟨_, l ++ w, rfl, hw, fun q hq => ?_⟩
    exact (mem_append.mp hq).imp_right fun hqw => .inl (hwoken q hqw)
  · obtain ⟨l', hl', hgrows⟩ := h.switchSchedule hA (hready ▸ hok.1) (hready ▸ hok.2)
    exact ⟨_, l', rfl, hl', hgrows⟩
  · obtain ⟨s', l', hs', hl', hgrows⟩ := h.switchTimerTick hA (hready ▸ hok)
    exact ⟨s', l', hs', hl', fun q hq => (hgrows q hq).imp_right .inr⟩

/-! ## Well-formed in every state -/

/-- The ready queue is a proper list: the links from its head end, meet no process
    twice and agree with the backward links and the tail, and no queued slot is
    free. -/
def QueueWellFormed (s : Sched) : Prop :=
  ∃ l, IsQueue s.links l ∧ ∀ p ∈ l, s.state p ≠ .unused

theorem processInit_queued (hA : Live A) (s : Sched) : Queued A (processInit s) [0] := by
  have hempty : ∀ s₁ : Sched, Queued A (schedulerInit s₁) [] := fun s₁ =>
    ⟨⟨nodup_nil, rfl, rfl, trivial⟩, by simp⟩
  exact (hempty _).add hA.ready (not_mem_nil)

theorem live_ne_unused : Live (· ≠ .unused) := by
  constructor <;> simp

theorem queued_step (s : Sched) (call : SchedCall) (h : ∃ l, Queued (· ≠ .unused) s l)
    (hcall : schedCallOk s call) :
    ∃ s', schedStep s call = some s' ∧ ∃ l, Queued (· ≠ .unused) s' l := by
  obtain ⟨l, hl⟩ := h
  obtain ⟨s', l', hs', hl', -⟩ := hl.schedStep live_ne_unused hcall (.inl (by simp))
  exact ⟨s', hs', l', hl'⟩

/-- From `process_init`, a run in which no call queues a process twice or reaps a
    queued one has a well-formed ready queue in every state. -/
theorem ready_queue_well_formed (s : Sched) (calls : List SchedCall)
    (hok : Run.AllOk schedStep schedCallOk (processInit s) calls) :
    Run.Always schedStep QueueWellFormed (processInit s) calls := by
  have hinit := processInit_queued live_ne_unused s
  exact (Run.always_of_allOk queued_step ⟨[0], hinit⟩ hok).mono fun s ⟨l, hl⟩ => ⟨l, hl.queue, hl.allowed⟩

/-- The table before `process_init`. -/
def schedBoot : Sched where
  procs _ := ⟨0, .unused, 0, 0, 0, none, none⟩
  nextPid := 1
  readyQueue := none
  readyQueueTail := none
  current := none
  scheduleNeeded := false
  timeSliceCounter := 0

/-- A second process is created, the idle process runs and kills it while it is
    queued, and waits for it: its slot is free and queued. -/
theorem ready_queue_not_well_formed : ¬ Run.Always schedStep QueueWellFormed (processInit schedBoot)
      [.processCreate true, .switchSchedule 0, .sysKill 2, .sysWait] := by
  intro h
  obtain ⟨s', hrun, l, hqueue, hstate⟩ := h.last
  have hfinal : (Run.run schedStep (processInit schedBoot)
      [.processCreate true, .switchSchedule 0, .sysKill 2, .sysWait]).map
        (fun s => (s.ready, s.state 1)) = some ([1], .unused) := by decide +kernel
  rw [hrun, map_some, some.injEq, Prod.mk.injEq] at hfinal
  have hl : l = [1] := hqueue.walk_eq.symm.trans hfinal.1
  exact hstate 1 (by simp [hl]) hfinal.2

/-- A process is created, the idle process blocks and is woken by it, and a tick
    switches back. -/
theorem ready_queue_well_formed_wake : Run.Always schedStep QueueWellFormed (processInit schedBoot)
      [.processCreate true, .switchSchedule 0, .processBlock, .switchSchedule 0,
        .processWake (some 0), .switchTimerTick] :=
  ready_queue_well_formed schedBoot _ (by decide +kernel)

end OpenSys
