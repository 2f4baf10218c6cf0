-- SUMMARY: sys_fork, and what its failures leave behind.
import OpenSys.Memory.Kheap
import OpenSys.Process.ReadyQueue
import OpenSys.Process.VmProtect

/-!
# `sys_fork`

The child has its slot, its kernel stack and its place in the ready queue before its address space
is cloned. What `process_create` pushes on the new stack stays inside of the stack's block and is
left out.
-/

namespace OpenSys

open Option

/-- `STACK_SIZE`. -/
def stackSize : Nat := 16384

/-- The size of a `vm_space_t`. -/
def vmSpaceBytes : Nat := 72

structure ForkSys where
  sched : Sched
  heap : Kheap
  vm : Vm
  spaces : ProcId → Option VmSpace

/-- `vm_clone_space` of the space that the pointer `src` leads to. The new space is made before the
    pointer is followed, so only the copy needs a source; `none` where a null pointer is followed. -/
def vmCloneFrom (s : Vm) : (src : Option VmSpace) → Option (Option VmSpace × Vm)
  | some src => some (vmCloneSpace s src)
  | none =>
    match vmCreateSpace s with
    | (none, s) => some (none, s)
    | (some _, _) => none

/-- The same, with the record of the new space on the heap. -/
def cloneOnHeap (t : ForkSys) (src : Option VmSpace) : Option (Option VmSpace × ForkSys) :=
  (kmalloc t.heap vmSpaceBytes).bind fun (space, heap) =>
    if space = 0 then some (none, { t with heap := heap })
    else
      (vmCloneFrom t.vm src).bind fun
        | (some dst, vm) => some (some dst, { t with heap := heap, vm := vm })
        | (none, vm) => (kfree heap space).map fun heap => (none, { t with heap := heap, vm := vm })

/-- `sys_fork`; `none` where the heap's list does not end and where a null pointer is followed. -/
def sysFork (t : ForkSys) : Option (Int × ForkSys) :=
  match t.sched.current with
  | none => some (-1, t)
  | some parent =>
    match allocProcess t.sched with
    | none => some (-1, t)
    | some slot => (kmalloc t.heap stackSize).bind fun (stack, heap) =>
      if stack = 0 then some (-1, { t with heap := heap })
      else
        let (pid, sched) := processCreate t.sched true
        let t := { t with
          heap := heap, sched := sched, spaces := Function.update t.spaces slot none }
        if pid = 0 then some (-1, t)
        else
          (cloneOnHeap t (t.spaces parent)).bind fun
            | (none, t) => some (-1, t)
            | (some dst, t) => (processGet sched pid).map fun child =>
                ((BitVec.ofNat 32 pid).toInt,
                  { t with spaces := Function.update t.spaces child (some dst) })

/-- Nothing is left of a fork. -/
structure ForkKept (t t' : ForkSys) : Prop where
  slots : ∀ p, t'.sched.state p = .unused ↔ t.sched.state p = .unused
  queue : t'.sched.links = t.sched.links
  heap : t'.heap = t.heap
  freePages : t'.vm.pmm.freePages = t.vm.pmm.freePages

variable {t t' : ForkSys} {r : Int}

theorem cloneOnHeap_sched {src dst : Option VmSpace} (h : cloneOnHeap t src = some (dst, t')) :
    t'.sched = t.sched := by
  obtain ⟨⟨space, heap⟩, -, h⟩ := bind_eq_some_iff.mp h
  dsimp only at h
  split_ifs at h with hspace
  · cases h
    rfl
  obtain ⟨⟨dst, vm⟩, -, h⟩ := bind_eq_some_iff.mp h
  split at h
  · cases h
    rfl
  · obtain ⟨heap', -, heq⟩ := map_eq_some_iff.mp h
    cases heq
    rfl

/-- The slot of the child is in use. -/
theorem not_forkKept {slot : ProcId} (hslot : allocProcess t.sched = some slot)
    (h : t'.sched = (processCreate t.sched true).2) : ¬ ForkKept t t' := by
  intro hkept
  have hstate := (hkept.slots slot).mpr (allocProcess_state hslot)
  rw [h] at hstate
  simp [processCreate, hslot, schedulerAdd_state] at hstate

/-- A failed fork leaves the slots, the queue, the heap and the pages alone exactly when it had no
caller, no slot or no kernel stack: where the space cannot be cloned the child stays. -/
theorem fork_failed_kept_iff (t t' : ForkSys) (h : sysFork t = some (-1, t')) :
    ForkKept t t' ↔ t.sched.current = none ∨ allocProcess t.sched = none ∨
      kmalloc t.heap stackSize = some (0, t.heap) := by
  unfold sysFork at h
  split at h
  · next hcurrent =>
    cases h
    exact iff_of_true ⟨fun _ => Iff.rfl, rfl, rfl, rfl⟩ (.inl hcurrent)
  next parent hcurrent =>
  split at h
  · next hslot =>
    cases h
    exact iff_of_true ⟨fun _ => Iff.rfl, rfl, rfl, rfl⟩ (.inr (.inl hslot))
  next slot hslot =>
  obtain ⟨⟨stack, heap⟩, hstack, h⟩ := bind_eq_some_iff.mp h
  simp only [hcurrent, hslot, hstack, reduceCtorEq, false_or, some.injEq, Prod.mk.injEq]
  dsimp only at h
  split_ifs at h with hzero hpid
  · cases h
    exact ⟨fun hkept => ⟨hzero, hkept.heap⟩, fun hheap => ⟨fun _ => Iff.rfl, rfl, hheap.2, rfl⟩⟩
  · cases h
    exact iff_of_false (not_forkKept hslot rfl) fun hheap => hzero hheap.1
  obtain ⟨⟨dst, t₁⟩, hclone, h⟩ := bind_eq_some_iff.mp h
  refine iff_of_false (not_forkKept hslot (Eq.trans ?_ (cloneOnHeap_sched hclone)))
    fun hheap => hzero hheap.1
  cases dst with
  | none => rw [← (Prod.mk.inj (some.inj h)).2]
  | some dst =>
    obtain ⟨child, -, h⟩ := map_eq_some_iff.mp h
    rw [← (Prod.mk.inj h).2]

/-- The idle process runs, a kernel process without an address space, with memory for one kernel
    stack. -/
def forkBoot : ForkSys where
  sched := { processInit schedBoot with current := (processInit schedBoot).readyQueue }
  heap := kheapInit (fun _ => 0) 0x1000 (headerSize + stackSize + headerSize)
  vm := smallVm
  spaces _ := none

/-- The same with a heap that is too small for a kernel stack. -/
def crampedBoot : ForkSys := { forkBoot with heap := kheapInit (fun _ => 0) 0x1000 stackSize }

/-- The idle process forks, and there is no memory for the child's stack. -/
theorem fork_failed_kept_no_stack : crampedBoot.sched.current = some 0 ∧
    ∃ t', sysFork crampedBoot = some (-1, t') ∧ ForkKept crampedBoot t' := by
  have hrun : (sysFork crampedBoot).map Prod.fst = some (-1) := by decide
  obtain ⟨⟨r, t'⟩, hfork, rfl⟩ := map_eq_some_iff.mp hrun
  have hfit : findFit crampedBoot.heap.mem (alignUp stackSize 16) walkFuel
      crampedBoot.heap.heapFirst = some none := by decide
  refine ⟨rfl, t', hfork, (fork_failed_kept_iff crampedBoot t' hfork).mpr (.inr (.inr ?_))⟩
  rw [kmalloc, if_neg (by decide)]
  dsimp only
  rw [hfit, map_some]

/-- There is no memory for the record of the space: the child has slot 1 and is queued. -/
theorem fork_failed_child_stays :
    ∃ t', sysFork forkBoot = some (-1, t') ∧ ¬ ForkKept forkBoot t' := by
  have hrun : (sysFork forkBoot).map (fun r => (r.1, r.2.sched.state 1)) = some (-1, .ready) := by
    decide
  obtain ⟨⟨r, t'⟩, hfork, heq⟩ := map_eq_some_iff.mp hrun
  obtain ⟨rfl, hstate⟩ := Prod.mk.inj heq
  refine ⟨t', hfork, fun hkept => ?_⟩
  have hunused := (hkept.slots 1).mpr (by decide)
  exact absurd (hstate.symm.trans hunused) (by decide)

end OpenSys
