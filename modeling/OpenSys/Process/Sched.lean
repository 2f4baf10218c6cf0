-- SUMMARY: The process table, the ready queue, and the two context-switch paths.
import Mathlib.Data.List.FinRange
import OpenSys.Lib.Queue
import OpenSys.Lib.Word

/-!
# Processes and the scheduler

`src/process/scheduler.c`, the parts of `src/process/process.c` and
`src/kernel/sys.c` that change a process's state, and the two callers of
`context_switch` in `src/kernel/switch.c`. A process is named by its slot in the
table. The saved registers, stacks, names, address spaces and descriptor tables
of a process play no part in scheduling and are left out.
-/

namespace OpenSys

/-- An index of `process_table`, `MAX_PROCESSES` being 64. -/
abbrev ProcId := Fin 64

def timeSliceMs : Nat := 10

inductive ProcState where
  | unused
  | ready
  | running
  | blocked
  | zombie
  deriving DecidableEq

structure Proc where
  pid : Nat
  state : ProcState
  wakeTime : Nat
  cpuTime : Nat
  exitCode : Int
  next : Option ProcId
  prev : Option ProcId

structure Sched where
  procs : ProcId → Proc
  nextPid : Nat
  readyQueue : Option ProcId
  readyQueueTail : Option ProcId
  current : Option ProcId
  scheduleNeeded : Bool
  timeSliceCounter : Nat

def Sched.state (s : Sched) (p : ProcId) : ProcState := (s.procs p).state

def Sched.setProc (s : Sched) (p : ProcId) (proc : Proc) : Sched :=
  { s with procs := Function.update s.procs p proc }

def Sched.setState (s : Sched) (p : ProcId) (state : ProcState) : Sched :=
  s.setProc p { s.procs p with state := state }

def Sched.setNext (s : Sched) (p : ProcId) (n : Option ProcId) : Sched :=
  s.setProc p { s.procs p with next := n }

def Sched.setPrev (s : Sched) (p : ProcId) (n : Option ProcId) : Sched :=
  s.setProc p { s.procs p with prev := n }

/-! ## `scheduler.c` -/

def schedulerInit (s : Sched) : Sched :=
  { s with readyQueue := none, readyQueueTail := none, current := none, scheduleNeeded := false }

def schedulerAdd (s : Sched) (p : ProcId) : Sched :=
  let s := s.setNext p none
  let s := s.setPrev p s.readyQueueTail
  let s := match s.readyQueueTail with
    | some t => s.setNext t (some p)
    | none => { s with readyQueue := some p }
  { s with readyQueueTail := some p }.setState p .ready

def schedulerPick (s : Sched) : Option (ProcId × Sched) :=
  s.readyQueue.map fun p =>
    (p, match (s.procs p).next with
      | some n => { s with readyQueue := some n }.setPrev n none
      | none => { s with readyQueue := none, readyQueueTail := none })

def schedulerTick (s : Sched) : Sched :=
  match s.current with
  | none => s
  | some c =>
    if timeSliceMs ≤ s.timeSliceCounter + 1 then
      { s with timeSliceCounter := 0, scheduleNeeded := true }.setProc c
        { s.procs c with cpuTime := u64 ((s.procs c).cpuTime + timeSliceMs) }
    else { s with timeSliceCounter := s.timeSliceCounter + 1 }

def schedulerReschedule (s : Sched) : Sched := { s with scheduleNeeded := true }

def schedulerClearReschedule (s : Sched) : Sched := { s with scheduleNeeded := false }

/-- `scheduler_runnable_count`, or `none` where its walk does not end. A walk that
    has passed 64 slots has passed one twice. -/
def schedulerRunnableCount (s : Sched) : Option Nat :=
  Queue.countFrom (fun p => (s.procs p).next) 64 s.readyQueue

def schedulerSetCurrent (s : Sched) (p : ProcId) : Sched :=
  { s with current := some p }.setState p .running

/-! ## `process.c` -/

def allocProcess (s : Sched) : Option ProcId :=
  (List.finRange 64).find? fun p => s.state p == .unused

def processInit (s : Sched) : Sched :=
  let s := { s with
    procs := fun p => { s.procs p with state := .unused, pid := 0 }
    nextPid := 2 }
  -- All slots are unused, so the idle process gets the first one and pid 1.
  let s := s.setProc 0 { s.procs 0 with pid := 1, state := .ready }
  schedulerAdd (schedulerInit s) 0

/-- `process_create`; `stack` says whether `kmalloc` returned a kernel stack. -/
def processCreate (s : Sched) (stack : Bool) : Nat × Sched :=
  match allocProcess s with
  | none => (0, s)
  | some p =>
    if !stack then (0, s)
    else
      let proc := { s.procs p with pid := s.nextPid, state := .ready, cpuTime := 0, wakeTime := 0 }
      let s := { s with nextPid := u64 (s.nextPid + 1) }.setProc p proc
      (proc.pid, schedulerAdd s p)

def processGet (s : Sched) (pid : Nat) : Option ProcId :=
  (List.finRange 64).find? fun p => (s.procs p).pid == pid && s.state p != .unused

/-- `process_exit`: the process is a zombie and halts; interrupts go on. -/
def processExit (s : Sched) : Sched :=
  match s.current with
  | none => s
  | some c => s.setState c .zombie

def processBlock (s : Sched) : Sched :=
  schedulerReschedule <| match s.current with
    | none => s
    | some c => s.setState c .blocked

def processWake (s : Sched) (p : Option ProcId) : Sched :=
  match p with
  | none => s
  | some p => if s.state p = .blocked then schedulerAdd (s.setState p .ready) p else s

/-- `process_sleep`, with the time `timer_get_ms` returned. -/
def processSleep (s : Sched) (now ms : Nat) : Sched :=
  match s.current with
  | none => s
  | some c =>
    schedulerReschedule
      (s.setProc c { s.procs c with wakeTime := u64 (now + ms), state := .blocked })

def processYield (s : Sched) : Sched := schedulerReschedule s

/-- The test of `process_check_sleepers`. -/
def wakesAt (s : Sched) (now : Nat) (p : ProcId) : Bool :=
  s.state p == .blocked && decide (0 < (s.procs p).wakeTime) && decide ((s.procs p).wakeTime ≤ now)

/-- One round of the loop of `process_check_sleepers`. -/
def checkSleeper (now : Nat) (s : Sched) (p : ProcId) : Sched :=
  if wakesAt s now p then
    schedulerAdd (s.setProc p { s.procs p with wakeTime := 0, state := .ready }) p
  else s

def processCheckSleepers (s : Sched) (now : Nat) : Sched :=
  (List.finRange 64).foldl (checkSleeper now) s

/-! ## `sys.c` -/

def sysExit (s : Sched) : Sched :=
  match s.current with
  | none => s
  | some c => schedulerReschedule (s.setState c .zombie)

def sysKill (s : Sched) (pid : Nat) : Int × Sched :=
  match processGet s pid with
  | none => (-1, s)
  | some p => (0, s.setState p .zombie)

/-- The child that `sys_wait` stops at: the first zombie that is not the caller. -/
def zombieChild (s : Sched) (parent : ProcId) : Option ProcId :=
  (List.finRange 64).find? fun p => s.state p == .zombie && p != parent

/-- `sys_wait`: the pid and the exit status of the reaped child, or `none` for -1. -/
def sysWait (s : Sched) : Option (Nat × Int) × Sched :=
  match s.current with
  | none => (none, s)
  | some parent =>
    match zombieChild s parent with
    | none => (none, processYield s)
    | some p =>
      (some ((s.procs p).pid, (s.procs p).exitCode),
        s.setProc p { s.procs p with state := .unused, pid := 0 })

/-! ## `switch.c` -/

/-- `switch_schedule` after the sleepers were woken, up to the register switch. -/
def scheduleSwitch (s : Sched) : Sched :=
  match schedulerPick s with
  | none => if s.current.isSome then schedulerClearReschedule s else s
  | some (n, s) =>
    match s.current with
    | none => schedulerClearReschedule (schedulerSetCurrent s n)
    | some c =>
      let s := if s.state c = .running then schedulerAdd (s.setState c .ready) c else s
      schedulerClearReschedule (schedulerSetCurrent s n)

def switchSchedule (s : Sched) (now : Nat) : Sched := scheduleSwitch (processCheckSleepers s now)

/-- The switching part of `switch_timer_tick`. Unlike `switch_schedule` it puts the
    current process back whatever its state is. -/
def tickSwitch (s : Sched) : Sched :=
  match schedulerPick s with
  | none => schedulerClearReschedule s
  | some (n, s) =>
    match s.current with
    | none => schedulerClearReschedule (schedulerSetCurrent s n)
    | some c =>
      schedulerClearReschedule (schedulerSetCurrent (schedulerAdd (s.setState c .ready) c) n)

/-- `switch_timer_tick` up to the register switch, or `none` where the count of
    runnable processes does not end. -/
def switchTimerTick (s : Sched) : Option Sched :=
  let s := schedulerTick s
  let forced : Option Sched :=
    match s.current with
    | some _ => some s
    | none => (schedulerRunnableCount s).map fun n => if 0 < n then schedulerReschedule s else s
  forced.map fun s => if s.scheduleNeeded then tickSwitch s else s

/-! ## Calls -/

inductive SchedCall where
  | processCreate (stack : Bool)
  | processBlock
  | processWake (p : Option ProcId)
  | processSleep (now ms : Nat)
  | processCheckSleepers (now : Nat)
  | processYield
  | processExit
  | sysExit
  | sysKill (pid : Nat)
  | sysWait
  | switchSchedule (now : Nat)
  | switchTimerTick
  deriving DecidableEq

def schedStep (s : Sched) : SchedCall → Option Sched
  | .processCreate stack => some (processCreate s stack).2
  | .processBlock => some (processBlock s)
  | .processWake p => some (processWake s p)
  | .processSleep now ms => some (processSleep s now ms)
  | .processCheckSleepers now => some (processCheckSleepers s now)
  | .processYield => some (processYield s)
  | .processExit => some (processExit s)
  | .sysExit => some (sysExit s)
  | .sysKill pid => some (sysKill s pid).2
  | .sysWait => some (sysWait s).2
  | .switchSchedule now => some (switchSchedule s now)
  | .switchTimerTick => switchTimerTick s

end OpenSys
