-- SUMMARY: Creating a user process: which address space is loaded into.
import OpenSys.Kernel.ElfMemory
import OpenSys.Lib.Text

/-!
# Creating a user process

`process_create_user` of `src/process/process.c`, on the user half of two address spaces: the
one of the calling process and the new one. The new space is made active while the image is
loaded, but `elf_load` maps its pages into the space of the current process, which is still
the caller. The arguments are stored after the caller's space has been made active again.

What `vm_map_page` answers is not looked at, so a page that it finds no table for is lost.
-/

namespace OpenSys

open Mem Paged List

/-! ## The call -/

structure CreateArgs where
  img : Mem
  size : BitVec 64
  argv : List (List UInt8)
  /-- `alloc_process` finds an unused slot. -/
  slot : Bool
  /-- `kmalloc` has memory for the kernel stack. -/
  kernelStack : Bool
  /-- `vm_create_space` succeeds. -/
  space : Bool
  /-- The pages of the user stack, as `pmm_alloc_page` answers. -/
  stackFrame : Nat → Option Nat
  /-- Whether `vm_map_page` has the tables for a page of the user stack. -/
  stackTakes : Nat → Bool
  /-- The answers of `pmm_alloc_page` to the loader. -/
  alloc : Nat → Option Nat
  /-- Whether `vm_map_page` has the tables for the page of an answer. -/
  takes : Nat → Bool
  /-- There is a current process with an address space. -/
  current : Bool

/-- The page maps of the caller and of the new process, and the frames. -/
structure CreateMem where
  caller : Nat → Option Nat
  own : Nat → Option Nat
  ram : Nat → Nat → UInt8

def CreateMem.callerView (m : CreateMem) : UserMem := ⟨m.caller, m.ram⟩

def CreateMem.ownView (m : CreateMem) : UserMem := ⟨m.own, m.ram⟩

inductive LoadEnd where
  | fault
  | failed
  | loaded

inductive CreateEnd where
  | fault
  | failed
  | created

def userStack : Nat := 0x7FFFFFFFFFFF

/-- The 16 pages of the user stack, from the top down. -/
def CreateArgs.stackMap (a : CreateArgs) (page : Nat) : Option Nat :=
  if page ≤ userStack / 4096 ∧ userStack / 4096 < page + 16 ∧
      a.stackTakes (userStack / 4096 - page) then
    a.stackFrame (userStack / 4096 - page)
  else none

/-- The stores of the loader for one segment. -/
def segmentStores (img : Mem) (h : Phdr) : List (Nat × UInt8) :=
  ((List.range (h.stop - h.start)).map fun j => (h.start + j, 0)) ++
    (List.range h.filesz).map fun j => (u64 (h.vaddr + j), img (u64 (h.offset + j)))

/-- The loop of `elf_load`: pages are mapped in the space of the current process, and stores
    go through the active space. -/
def createSegments (img : Mem) (alloc : Nat → Option Nat) (takes : Nat → Bool) :
    (n i k : Nat) → CreateMem → LoadEnd × CreateMem
  | 0, _, _, m => (.loaded, m)
  | n + 1, i, k, m =>
    if (phdrAt img i).type ≠ 1 then createSegments img alloc takes n (i + 1) k m
    else
      match mapSegment alloc takes (phdrAt img i).pages (phdrAt img i).start k m.callerView with
      | (false, _, c) => (.failed, { m with caller := c.map })
      | (true, k, c) =>
        match m.ownView.storeEach 4096 (segmentStores img (phdrAt img i)) with
        | (false, o) => (.fault, { m with caller := c.map, ram := o.ram })
        | (true, o) =>
          createSegments img alloc takes n (i + 1) k { m with caller := c.map, ram := o.ram }

/-- `elf_load` as it is called here. -/
def CreateArgs.load (a : CreateArgs) (m : CreateMem) : LoadEnd × CreateMem :=
  if a.size.toNat < 64 ∨ elfValidate a.img = false ∨ a.current = false then (.failed, m)
  else createSegments a.img a.alloc a.takes (ePhnum a.img) 0 0 m

def bytesAt (v : Nat) (l : List UInt8) : List (Nat × UInt8) :=
  l.zipIdx.map fun p => (u64 (v + p.2), p.1)

def wordAt (v n : Nat) : List (Nat × UInt8) :=
  (List.range 8).map fun j => (u64 (v + j), UInt8.ofNat (n / 256 ^ j))

/-- The strings, each below the one before; with the address of the last. -/
def stringStores : (top : Nat) → List (List UInt8) → Nat × List (Nat × UInt8)
  | top, [] => (top, [])
  | top, arg :: args =>
    let top := sub64 top (arg.length + 1)
    let rest := stringStores top args
    (rest.1, bytesAt top (arg ++ [0]) ++ rest.2)

/-- The pointers to the strings, from the last one on. -/
def pointerStores (ptrTop : Nat) : (strTop : Nat) → List (List UInt8 × Nat) → List (Nat × UInt8)
  | _, [] => []
  | strTop, (arg, i) :: args =>
    wordAt (u64 (ptrTop + i * 8)) strTop ++
      pointerStores ptrTop (u64 (strTop + (arg.length + 1))) args

/-- The stores that build the user stack, in their order. -/
def stackStores (argv : List (List UInt8)) : List (Nat × UInt8) :=
  let args := argv.take 32
  let strings := stringStores userStack args
  let ptrTop := sub64 strings.1 ((args.length + 1) * 8)
  strings.2 ++ wordAt (u64 (ptrTop + args.length * 8)) 0 ++
    pointerStores ptrTop strings.1 args.zipIdx.reverse ++ wordAt (sub64 ptrTop 8) args.length

/-- The end of `process_create_user`, behind the loader. The new space is destroyed when the
    loader fails; otherwise the stack is built through the caller's space. -/
def CreateArgs.finish (a : CreateArgs) : LoadEnd → CreateMem → CreateEnd × CreateMem
  | .fault, m => (.fault, m)
  | .failed, m => (.failed, { m with own := fun _ => none })
  | .loaded, m =>
    let r := m.callerView.storeEach 4096 (stackStores a.argv)
    (if r.1 then .created else .fault, { m with ram := r.2.ram })

def processCreateUser (a : CreateArgs) (m : CreateMem) : CreateEnd × CreateMem :=
  if a.slot = false ∨ a.kernelStack = false ∨ a.space = false ∨
      ∃ i ∈ List.range 16, a.stackFrame i = none then
    (.failed, m)
  else
    let r := a.load { m with own := a.stackMap }
    a.finish r.1 r.2

/-! ## The caller's space -/

/-- What is loaded and the arguments are in the new process's own space. -/
structure OwnSpace (a : CreateArgs) (m : CreateMem) : Prop where
  pages : ∀ i < ePhnum a.img, (phdrAt a.img i).type = 1 → ∀ p < (phdrAt a.img i).pages,
    (m.own (u64 ((phdrAt a.img i).start + p * 4096) / 4096)).isSome
  strings : ∀ p ∈ (stringStores userStack (a.argv.take 32)).2,
    m.ownView.read 4096 p.1 = some p.2

/-- The call works on the new address space only, whatever is in memory: the mappings of the
    caller and what its memory holds stay the same, and a process that is created has
    everything in its own space. -/
def WorksOnOwnSpace (a : CreateArgs) (caller : Nat → Option Nat) : Prop :=
  ∀ ram, (processCreateUser a ⟨caller, fun _ => none, ram⟩).2.caller = caller ∧
    (∀ v, (processCreateUser a ⟨caller, fun _ => none, ram⟩).2.callerView.read 4096 v =
      (⟨caller, ram⟩ : UserMem).read 4096 v) ∧
    ((processCreateUser a ⟨caller, fun _ => none, ram⟩).1 = .created →
      OwnSpace a (processCreateUser a ⟨caller, fun _ => none, ram⟩).2)

/-- The call fails before the loader comes to the program headers. -/
def FailsEarly (a : CreateArgs) : Prop :=
  (a.slot = false ∨ a.kernelStack = false ∨ a.space = false ∨
      ∃ i ∈ List.range 16, a.stackFrame i = none) ∨
    (a.size.toNat < 64 ∨ elfValidate a.img = false ∨ a.current = false)

/-- The first byte that is stored on the user stack. -/
def firstStackByte : List (List UInt8) → Nat
  | [] => userStack - 8
  | arg :: _ => sub64 userStack (arg.length + 1)

/-- None of `n` pages from the answer `k` on is mapped: each is one that there are no tables for
    or one that is not asked for any more. -/
def MapsNothing (alloc : Nat → Option Nat) (takes : Nat → Bool) (k n : Nat) : Prop :=
  ∀ p < n, (∀ q ≤ p, alloc (k + q) ≠ none) → takes (k + p) = false

/-- The call ends before it reaches the caller's space: no page of a segment is mapped, and there
    is no memory for one of them, or what is stored does not lie on the new stack, or at the end
    the caller has no page where the arguments are stored. -/
def EndsQuietly (a : CreateArgs) (caller : Nat → Option Nat) : (n i k : Nat) → Prop
  | 0, _, _ => caller (firstStackByte a.argv / 4096) = none
  | n + 1, i, k =>
    if (phdrAt a.img i).type ≠ 1 then EndsQuietly a caller n (i + 1) k
    else MapsNothing a.alloc a.takes k (phdrAt a.img i).pages ∧
      ((∃ p < (phdrAt a.img i).pages, a.alloc (k + p) = none) ∨
        (∃ st ∈ segmentStores a.img (phdrAt a.img i), a.stackMap (st.1 / 4096) = none) ∨
          EndsQuietly a caller n (i + 1) (k + (phdrAt a.img i).pages))

section Segments

variable {a : CreateArgs} {caller : Nat → Option Nat} {m : CreateMem} {c : UserMem} {n i k : Nat}

/-- A page that the loader was given is mapped. -/
def Drawn (alloc : Nat → Option Nat) (map : Nat → Option Nat) : Prop :=
  ∃ p j f, alloc j = some f ∧ map p = some f

variable {alloc : Nat → Option Nat} {takes : Nat → Bool} {virt : Nat}

protected theorem Drawn.mapSegment (h : Drawn alloc c.map) :
    Drawn alloc (mapSegment alloc takes n virt k c).2.2.map := by
  induction n generalizing virt k c with
  | zero => exact h
  | succ n ih =>
    cases hf : alloc k with
    | none =>
      simp only [mapSegment, hf]
      exact h
    | some f =>
      simp only [mapSegment, hf]
      refine ih ?_
      split
      · exact ⟨_, k, f, hf, Function.update_self _ _ _⟩
      · exact h

/-- The loader never takes a page out of the caller's space again. -/
theorem Drawn.createSegments {img : Mem} (h : Drawn alloc m.caller) :
    Drawn alloc (createSegments img alloc takes n i k m).2.caller := by
  induction n generalizing i k m with
  | zero => exact h
  | succ n ih =>
    rw [OpenSys.createSegments]
    split_ifs with htype
    · exact ih h
    have hmap : Drawn alloc (mapSegment alloc takes (phdrAt img i).pages
      (phdrAt img i).start k m.callerView).2.2.map := Drawn.mapSegment h
    revert hmap
    rcases mapSegment alloc takes (phdrAt img i).pages
      (phdrAt img i).start k m.callerView with ⟨_ | _, k₁, c⟩
    · exact fun hmap => hmap
    · rcases m.ownView.storeEach 4096 (segmentStores img (phdrAt img i)) with ⟨_ | _, o⟩
      · exact fun hmap => hmap
      · exact fun hmap => ih hmap

theorem MapsNothing.next (h : MapsNothing alloc takes k (n + 1)) (hk : alloc k ≠ none) :
    MapsNothing alloc takes (k + 1) n := by
  intro p hp hq
  rw [Nat.add_assoc, Nat.add_comm 1]
  refine h (p + 1) (by omega) fun q hle => ?_
  cases q with
  | zero => exact hk
  | succ q =>
    have := hq q (by omega)
    rwa [Nat.add_assoc, Nat.add_comm 1] at this

/-- Pages that are not mapped leave the space alone, and all of them are asked for unless the
    memory gives out. -/
theorem MapsNothing.mapSegment (h : MapsNothing alloc takes k n) (virt : Nat) (c : UserMem) :
    (∃ p < n, alloc (k + p) = none) ∧ (∃ k', mapSegment alloc takes n virt k c = (false, k', c)) ∨
      (∀ p < n, alloc (k + p) ≠ none) ∧ mapSegment alloc takes n virt k c = (true, k + n, c) := by
  induction n generalizing virt k c with
  | zero => exact .inr ⟨fun p hp => absurd hp (Nat.not_lt_zero p), rfl⟩
  | succ n ih =>
    cases hf : alloc k with
    | none => exact .inl ⟨⟨0, by omega, hf⟩, k + 1, by simp only [OpenSys.mapSegment, hf]⟩
    | some f =>
      have hk : alloc k ≠ none := by simp [hf]
      have hlost : takes k = false := h 0 (by omega) fun q hq => by
        obtain rfl : q = 0 := by omega
        exact hk
      simp only [OpenSys.mapSegment, hf, hlost, Bool.false_eq_true, if_false]
      rcases ih (h.next hk) (virt + 4096) _ with ⟨⟨p, hp, hnone⟩, hmap⟩ | ⟨hall, hmap⟩
      · exact .inl ⟨⟨p + 1, by omega, by rw [← hnone]; congr 1; omega⟩, hmap⟩
      · refine .inr ⟨fun p hp => ?_, by rw [hmap]; congr 2; omega⟩
        cases p with
        | zero => exact hk
        | succ p =>
          rw [show k + (p + 1) = k + 1 + p by omega]
          exact hall p (by omega)

/-- Otherwise a page is mapped. -/
theorem drawn_of_not_mapsNothing (h : ¬ MapsNothing alloc takes k n) :
    Drawn alloc (mapSegment alloc takes n virt k c).2.2.map := by
  induction n generalizing virt k c with
  | zero => exact absurd (fun p hp => absurd hp (Nat.not_lt_zero p)) h
  | succ n ih =>
    cases hf : alloc k with
    | none => exact absurd (fun p _ hq => absurd hf (hq 0 (by omega))) h
    | some f =>
      simp only [mapSegment, hf]
      split
      · exact Drawn.mapSegment ⟨_, k, f, hf, Function.update_self _ _ _⟩
      · next hlost =>
        refine ih fun hnext => h fun p hp hq => ?_
        cases p with
        | zero => simpa using hlost
        | succ p =>
          have := hnext p (by omega) fun q hle => by
            rw [Nat.add_assoc, Nat.add_comm 1]
            exact hq (q + 1) (by omega)
          rwa [Nat.add_assoc, Nat.add_comm 1] at this

theorem segment_completes_iff (hown : m.own = a.stackMap) :
    (m.ownView.storeEach 4096 (segmentStores a.img (phdrAt a.img i))).1 = true ↔
      ¬ ∃ st ∈ segmentStores a.img (phdrAt a.img i), a.stackMap (st.1 / 4096) = none := by
  rw [storeEach_completes_iff]
  simp only [CreateMem.ownView, hown, not_exists, not_and, Option.isSome_iff_ne_none, ne_eq]

/-- The loader ends quietly: the caller keeps its pages, and only the new stack is written. -/
theorem EndsQuietly.segments (h : EndsQuietly a caller n i k) (hcaller : m.caller = caller)
    (hown : m.own = a.stackMap) :
    (createSegments a.img a.alloc a.takes n i k m).2.caller = caller ∧
      (∀ f, (∀ q, a.stackMap q ≠ some f) →
        (createSegments a.img a.alloc a.takes n i k m).2.ram f = m.ram f) ∧
      ((createSegments a.img a.alloc a.takes n i k m).1 = .loaded →
        caller (firstStackByte a.argv / 4096) = none) := by
  induction n generalizing i k m with
  | zero => exact ⟨hcaller, fun _ _ => rfl, fun _ => h⟩
  | succ n ih =>
    rw [EndsQuietly] at h
    rw [createSegments]
    by_cases htype : (phdrAt a.img i).type ≠ 1
    · rw [if_pos htype] at h ⊢
      exact ih h hcaller hown
    rw [if_neg htype] at h ⊢
    obtain ⟨hnothing, h⟩ := h
    rcases hnothing.mapSegment (phdrAt a.img i).start m.callerView with
      ⟨-, k', hmap⟩ | ⟨hall, hmap⟩
    · rw [hmap]
      exact ⟨hcaller, fun _ _ => rfl, fun hl => by cases hl⟩
    have hdone := segment_completes_iff (i := i) hown
    have hram : ∀ f, (∀ q, a.stackMap q ≠ some f) →
        (m.ownView.storeEach 4096 (segmentStores a.img (phdrAt a.img i))).2.ram f = m.ram f := by
      rw [← hown]
      exact fun f hf => storeEach_frame m.ownView _ hf
    rw [hmap]
    revert hdone hram
    rcases m.ownView.storeEach 4096 (segmentStores a.img (phdrAt a.img i)) with ⟨_ | _, o⟩
    · exact fun _ hram => ⟨hcaller, hram, fun hl => by cases hl⟩
    intro hdone hram
    have hrest := (h.resolve_left fun ⟨p, hp, hnone⟩ => hall p hp hnone).resolve_left (hdone.mp rfl)
    obtain ⟨hc, hr, hl⟩ := ih (m := { m with caller := m.callerView.map, ram := o.ram })
      hrest hcaller hown
    exact ⟨hc, fun f hf => (hr f hf).trans (hram f hf), hl⟩

/-- Otherwise the loader maps a page for the caller, or it comes to its end. -/
theorem not_endsQuietly_segments (h : ¬ EndsQuietly a caller n i k) (hcaller : m.caller = caller)
    (hown : m.own = a.stackMap) :
    Drawn a.alloc (createSegments a.img a.alloc a.takes n i k m).2.caller ∨
      (createSegments a.img a.alloc a.takes n i k m).1 = .loaded ∧
        (createSegments a.img a.alloc a.takes n i k m).2.caller = caller ∧
        caller (firstStackByte a.argv / 4096) ≠ none := by
  induction n generalizing i k m with
  | zero => exact Or.inr ⟨rfl, hcaller, h⟩
  | succ n ih =>
    rw [EndsQuietly] at h
    rw [createSegments]
    by_cases htype : (phdrAt a.img i).type ≠ 1
    · rw [if_pos htype] at h ⊢
      exact ih h hcaller hown
    rw [if_neg htype] at h ⊢
    by_cases hnothing : MapsNothing a.alloc a.takes k (phdrAt a.img i).pages
    · rw [not_and, not_or, not_or] at h
      obtain ⟨hall, hstores, hrest⟩ := h hnothing
      have hmap := (hnothing.mapSegment (phdrAt a.img i).start m.callerView).resolve_left fun hout => hall hout.1
      have hdone := (segment_completes_iff hown).mpr hstores
      rw [hmap.2]
      revert hdone
      rcases m.ownView.storeEach 4096 (segmentStores a.img (phdrAt a.img i)) with ⟨_ | _, o⟩
      · exact fun hdone => absurd hdone (by simp)
      · intro _
        exact ih (m := { m with caller := m.callerView.map, ram := o.ram }) hrest hcaller hown
    · have hdrawn : Drawn a.alloc (mapSegment a.alloc a.takes (phdrAt a.img i).pages
        (phdrAt a.img i).start k m.callerView).2.2.map := drawn_of_not_mapsNothing hnothing
      left
      revert hdrawn
      rcases mapSegment a.alloc a.takes (phdrAt a.img i).pages
        (phdrAt a.img i).start k m.callerView with ⟨_ | _, k₁, c⟩
      · exact fun hdrawn => hdrawn
      · rcases m.ownView.storeEach 4096 (segmentStores a.img (phdrAt a.img i)) with ⟨_ | _, o⟩
        · exact fun hdrawn => hdrawn
        · exact fun hdrawn => Drawn.createSegments hdrawn

end Segments

/-! ## The whole call -/

section Create

variable {a : CreateArgs} {caller : Nat → Option Nat} {ram : Nat → Nat → UInt8}

theorem stackStores_cons (argv : List (List UInt8)) :
    ∃ b l, stackStores argv = (firstStackByte argv, b) :: l := by
  cases argv with
  | nil => exact ⟨0, _, rfl⟩
  | cons arg args =>
    have htop : u64 (sub64 userStack (arg.length + 1)) = sub64 userStack (arg.length + 1) :=
      Nat.mod_mod _ _
    obtain ⟨b, l, hl⟩ : ∃ b l, stackStores (arg :: args) =
        (u64 (sub64 userStack (arg.length + 1) + 0), b) :: l := by
      cases arg with
      | nil => exact ⟨0, _, rfl⟩
      | cons b arg => exact ⟨b, _, rfl⟩
    exact ⟨b, l, by rw [hl, Nat.add_zero, htop, firstStackByte]⟩

theorem processCreateUser_early (h : FailsEarly a) :
    (processCreateUser a ⟨caller, fun _ => none, ram⟩).1 = .failed ∧
      (processCreateUser a ⟨caller, fun _ => none, ram⟩).2 = ⟨caller, fun _ => none, ram⟩ := by
  rw [processCreateUser]
  split_ifs with hfail
  · exact ⟨rfl, rfl⟩
  · rw [CreateArgs.load, if_pos (h.resolve_left hfail)]
    exact ⟨rfl, rfl⟩

/-- The memory of the loader when the call comes to the program headers. -/
def CreateArgs.loads (a : CreateArgs) (caller : Nat → Option Nat) (ram : Nat → Nat → UInt8) :
    LoadEnd × CreateMem :=
  createSegments a.img a.alloc a.takes (ePhnum a.img) 0 0 ⟨caller, a.stackMap, ram⟩

theorem processCreateUser_eq (h : ¬ FailsEarly a) :
    processCreateUser a ⟨caller, fun _ => none, ram⟩ =
      a.finish (a.loads caller ram).1 (a.loads caller ram).2 := by
  rw [processCreateUser, if_neg fun hf => h (Or.inl hf), CreateArgs.load,
    if_neg fun hf => h (Or.inr hf), CreateArgs.loads]

variable {m : CreateMem}

theorem finish_caller {e : LoadEnd} : (a.finish e m).2.caller = m.caller := by
  cases e <;> rfl

/-- When the caller has no page for the stack, the first store on it faults. -/
theorem finish_fault {e : LoadEnd}
    (h : e = .loaded → m.caller (firstStackByte a.argv / 4096) = none) :
    (a.finish e m).2.ram = m.ram ∧ (a.finish e m).1 ≠ .created := by
  cases e with
  | fault => exact ⟨rfl, by simp [CreateArgs.finish]⟩
  | failed => exact ⟨rfl, by simp [CreateArgs.finish]⟩
  | loaded =>
    obtain ⟨b, l, hstores⟩ := stackStores_cons a.argv
    have hfault : m.callerView.storeEach 4096 (stackStores a.argv) = (false, m.callerView) := by
      rw [hstores, PagedMem.storeEach, store_none (h rfl)]
    rw [CreateArgs.finish, hfault]
    exact ⟨rfl, by simp⟩

theorem stackMap_ne {f : Nat} (h : ∀ i, a.stackFrame i ≠ some f) (q : Nat) :
    a.stackMap q ≠ some f := by
  rw [CreateArgs.stackMap]
  split_ifs
  · exact h _
  · simp

/-- A caller with the same mappings sees the same bytes, if only other frames were written. -/
theorem callerView_read_eq (hcaller : m.caller = caller)
    (hram : ∀ p f, caller p = some f → m.ram f = ram f) (v : Nat) :
    m.callerView.read 4096 v = (⟨caller, ram⟩ : UserMem).read 4096 v := by
  change (m.caller (v / 4096)).map (fun f => m.ram f (v % 4096)) =
    (caller (v / 4096)).map fun f => ram f (v % 4096)
  rw [hcaller]
  cases hf : caller (v / 4096) with
  | none => rfl
  | some f => rw [Option.map_some, Option.map_some, hram _ f hf]

/-- A byte that the caller sees and that building the stack overwrites is not kept for every
    content of the memory. -/
theorem not_kept_of_stack {f : Nat} (hf : caller (firstStackByte a.argv / 4096) = some f)
    (hloads : ∀ ram, (a.loads caller ram).1 = .loaded ∧ (a.loads caller ram).2.caller = caller) :
    ¬ ∀ ram, (a.finish (a.loads caller ram).1 (a.loads caller ram).2).2.callerView.read 4096
      (firstStackByte a.argv) = (⟨caller, ram⟩ : UserMem).read 4096 (firstStackByte a.argv) := by
  intro hread
  obtain ⟨b₀, l, hstores⟩ := stackStores_cons a.argv
  -- The first byte on the stack is the same whatever the memory held before.
  obtain ⟨b, hb⟩ : ∃ b, ∀ ram, (PagedMem.storeEach 4096 ⟨caller, ram⟩
      ((firstStackByte a.argv, b₀) :: l)).2.ram f (firstStackByte a.argv % 4096) = b :=
    storeEach_first hf
  have hbyte (ram : Nat → Nat → UInt8) : ram f (firstStackByte a.argv % 4096) = b := by
    obtain ⟨hend, hcaller⟩ := hloads ram
    have hkept := hread ram
    rw [hend] at hkept
    change (((a.loads caller ram).2.caller (firstStackByte a.argv / 4096)).map fun g =>
      (PagedMem.storeEach 4096 ⟨(a.loads caller ram).2.caller, (a.loads caller ram).2.ram⟩
        (stackStores a.argv)).2.ram g (firstStackByte a.argv % 4096)) =
      (caller (firstStackByte a.argv / 4096)).map fun g => ram g (firstStackByte a.argv % 4096)
      at hkept
    rw [hcaller, hf, hstores] at hkept
    exact (Option.some.inj hkept).symm.trans (hb _)
  have hzero := hbyte fun _ _ => 0
  have hone := hbyte fun _ _ => 1
  rw [← hone] at hzero
  exact absurd hzero (by decide)

end Create

/-- A call for a valid image of two segments with one argument. -/
def loadTwoSegments (alloc : Nat → Option Nat) : CreateArgs where
  img := twoSegments 0x401000
  size := 178
  argv := [[0x69]]
  slot := true
  kernelStack := true
  space := true
  stackFrame := fun i => some (200 + i)
  stackTakes := fun _ => true
  alloc := alloc
  takes := fun _ => true
  current := true

/-- A caller with one page. -/
def onePageMap (page : Nat) : Option Nat := if page = 0x500 then some 100 else none

theorem onePageMap_eq {p f : Nat} (h : onePageMap p = some f) : f = 100 := by
  rw [onePageMap] at h
  split_ifs at h
  exact (Option.some.inj h).symm

/-- `final_rsp`, the address of the last word that `stackStores` has. -/
def finalRsp (argv : List (List UInt8)) : Nat :=
  let args := argv.take 32
  let ptrTop := sub64 (stringStores userStack args).1 ((args.length + 1) * 8)
  sub64 ptrTop 8

theorem sub64_mod16 {a b : Nat} (h : b ≤ 2 ^ 64) : (sub64 a b + b) % 16 = a % 16 := by
  unfold sub64 u64
  omega

theorem stringStores_mod16 (args : List (List UInt8)) (top : Nat)
    (h : ∀ arg ∈ args, arg.length < 2 ^ 64) :
    ((stringStores top args).1 + (args.map (·.length + 9)).sum) % 16 =
      (top + 8 * args.length) % 16 := by
  induction args generalizing top with
  | nil => rfl
  | cons arg args ih =>
    have hrest := ih (sub64 top (arg.length + 1)) fun x hx => h x (mem_cons_of_mem _ hx)
    have htop := sub64_mod16 (a := top) (b := arg.length + 1) (h arg mem_cons_self)
    simp only [stringStores, map_cons, sum_cons, length_cons]
    omega

/-- The stack pointer is not rounded: it is aligned only when the strings and the pointers to
    them happen to fill up the last 15 bytes. -/
theorem final_rsp_aligned_iff (argv : List (List UInt8)) (h : ∀ arg ∈ argv, arg.length < 2 ^ 64) :
    16 ∣ finalRsp argv ↔ ((argv.take 32).map (·.length + 9)).sum % 16 = 15 := by
  have hstrings := stringStores_mod16 (argv.take 32) userStack
    fun arg harg => h arg (mem_of_mem_take harg)
  have hcount : (argv.take 32).length ≤ 32 := length_take_le _ _
  have hptr := sub64_mod16 (a := (stringStores userStack (argv.take 32)).1)
    (b := ((argv.take 32).length + 1) * 8) (by omega)
  have hargc := sub64_mod16 (b := 8) (by decide)
    (a := sub64 (stringStores userStack (argv.take 32)).1 (((argv.take 32).length + 1) * 8))
  rw [finalRsp, Nat.dvd_iff_mod_eq_zero]
  rw [userStack] at *
  omega

/-- One name of six letters is right. -/
theorem final_rsp_aligned_six : 16 ∣ finalRsp [cstr "editor"] :=
  (final_rsp_aligned_iff [cstr "editor"] (by decide)).mpr (by decide)

/-- A name of two letters is not. -/
theorem final_rsp_not_aligned : ¬ 16 ∣ finalRsp [cstr "sh"] := by decide

end OpenSys
