-- SUMMARY: Address spaces of vm.c and the memory syscalls of sys.c.
import OpenSys.Lib.Radix
import OpenSys.Memory.Pmm

/-!
# Virtual memory

`src/process/vm.c` and the memory calls of `src/kernel/sys.c`. Physical memory is a
row of 512 words for each page frame; a table is named by its frame, which is its
address divided by the page size. The kernel reads and writes tables at their
physical addresses. A record `vm_space_t` comes from `kmalloc`, which is taken to
succeed here.
-/

namespace OpenSys

open Function

/-- Physical memory, by page frame and word. -/
abbrev PageMem := Nat → Fin 512 → BitVec 64

def vmFlagPresent : BitVec 64 := 0x01

def vmFlagWritable : BitVec 64 := 0x02

def vmFlagUser : BitVec 64 := 0x04

def vmFlagHuge : BitVec 64 := 0x80

def vmFlagCow : BitVec 64 := 0x200

/-- The address bits of an entry. -/
def addrMask : BitVec 64 := 0x000FFFFFFFFFF000

/-- `vm_space_t`. -/
structure VmSpace where
  pml4 : Nat
  codeStart : Nat
  codeEnd : Nat
  dataStart : Nat
  dataEnd : Nat
  heapStart : Nat
  heapEnd : Nat
  stackTop : Nat
  stackBottom : Nat
  deriving DecidableEq

/-- The frame of the top table. -/
def VmSpace.root (space : VmSpace) : Nat := space.pml4 / pageSize

/-- What the functions of `vm.c` work on: physical memory, the page allocator and
    the top table of the kernel. -/
structure Vm where
  mem : PageMem
  pmm : Pmm
  kernelPml4 : Nat

/-! ## Entries and tables -/

def present (e : BitVec 64) : Bool := e &&& vmFlagPresent != 0

/-- `*entry & 0x000FFFFFFFFFF000ULL`. -/
def entryAddr (e : BitVec 64) : Nat := (e &&& addrMask).toNat

def entryFrame (e : BitVec 64) : Nat := entryAddr e / pageSize

/-- The entry for a new table at address `page`. -/
def tableEntry (page : Nat) : BitVec 64 :=
  BitVec.ofNat 64 page ||| vmFlagPresent ||| vmFlagWritable ||| vmFlagUser

def writeEntry (m : PageMem) (table : Nat) (i : Fin 512) (e : BitVec 64) : PageMem :=
  update m table (update (m table) i e)

def clearTable (m : PageMem) (table : Nat) : PageMem := update m table fun _ => 0

/-- `(virt >> (12 + 9 * level)) & 0x1FF`: the index into the table of a level, 3 for
    the top table and 0 for the last one. -/
def tableIndex (virt level : Nat) : Fin 512 := Fin.ofNat 512 (virt / 2 ^ (12 + 9 * level))

/-- The nine low bits of a number, as an index. -/
def index512 (n : Nat) : Fin 512 := Fin.ofNat 512 n

/-- The indices into the three upper levels of tables. -/
def virtPath (virt : Nat) : List (Fin 512) :=
  [tableIndex virt 3, tableIndex virt 2, tableIndex virt 1]

/-! ## Walking the tables -/

/-- One level of `get_pte`: the table that entry `i` leads to. A missing table is
    created on demand; the page allocator's answer is not checked. -/
def nextTable (create : Bool) (s : Vm) (table : Nat) (i : Fin 512) : Option Nat × Vm :=
  if present (s.mem table i) then (some (entryFrame (s.mem table i)), s)
  else if create then
    let (page, pmm) := pmmAllocPage s.pmm
    let entry := tableEntry page
    (some (entryFrame entry),
      { s with mem := writeEntry (clearTable s.mem (page / pageSize)) table i entry, pmm := pmm })
  else (none, s)

def walkTables (create : Bool) : List (Fin 512) → Vm → Nat → Option Nat × Vm
  | [], s, table => (some table, s)
  | i :: path, s, table =>
    match nextTable create s table i with
    | (none, s) => (none, s)
    | (some table, s) => walkTables create path s table

/-- `&table[i]`. The first entry of the table at address 0 is the null pointer. -/
def entryPointer (table : Nat) (i : Fin 512) : Option (Nat × Fin 512) :=
  if table = 0 ∧ i.val = 0 then none else some (table, i)

/-- `get_pte`: the table and index of the entry for `virt`. -/
def getPte (s : Vm) (pml4 virt : Nat) (create : Bool) : Option (Nat × Fin 512) × Vm :=
  match walkTables create (virtPath virt) s pml4 with
  | (table, s) => (table.bind (entryPointer · (tableIndex virt 0)), s)

/-! ## Mapping -/

/-- The entry that `vm_map_page` writes. -/
def pageEntry (phys : Nat) (flags : BitVec 64) : BitVec 64 :=
  BitVec.ofNat 64 phys &&& addrMask ||| flags ||| vmFlagPresent

def vmMapPage (s : Vm) (space : VmSpace) (virt phys : Nat) (flags : BitVec 64) : Int × Vm :=
  match getPte s space.root virt true with
  | (none, s) => (-1, s)
  | (some (table, i), s) => (0, { s with mem := writeEntry s.mem table i (pageEntry phys flags) })

def vmUnmapPage (s : Vm) (space : VmSpace) (virt : Nat) : Int × Vm :=
  match getPte s space.root virt false with
  | (none, s) => (-1, s)
  | (some (table, i), s) =>
    if present (s.mem table i) then (0, { s with mem := writeEntry s.mem table i 0 }) else (-1, s)

def vmGetPhysical (s : Vm) (space : VmSpace) (virt : Nat) : Nat :=
  match getPte s space.root virt false with
  | (none, _) => 0
  | (some (table, i), s) => if present (s.mem table i) then entryAddr (s.mem table i) else 0

/-- The loop of `vm_alloc_pages` from round `i` on; the flag says whether all of
    the `count` rounds completed. -/
def allocLoop (space : VmSpace) (start : Nat) (flags : BitVec 64) :
    (i count : Nat) → Vm → Bool × Vm
  | _, 0, s => (true, s)
  | i, count + 1, s =>
    let (phys, pmm) := pmmAllocPage s.pmm
    let s := { s with pmm := pmm }
    if phys = 0 then (false, s)
    else
      match vmMapPage s space (u64 (start + i * 0x1000)) phys flags with
      | (status, s) =>
        if status < 0 then (false, { s with pmm := pmmFreePage s.pmm phys })
        else allocLoop space start flags (i + 1) count s

/-- `vm_alloc_pages`: the start of the new pages, 0 when a page is missing. -/
def vmAllocPages (s : Vm) (space : VmSpace) (count : Nat) (flags : BitVec 64) :
    Nat × Vm × VmSpace :=
  match allocLoop space space.heapEnd flags 0 count s with
  | (true, s) =>
    (space.heapEnd, s, { space with heapEnd := u64 (space.heapEnd + u64 (count * 0x1000)) })
  | (false, s) => (0, s, space)

/-- One round of `vm_free_pages`. -/
def freeRound (s : Vm) (space : VmSpace) (virt : Nat) : Vm :=
  let phys := vmGetPhysical s space virt
  let s := (vmUnmapPage s space virt).2
  if phys = 0 then s else { s with pmm := pmmFreePage s.pmm phys }

/-- The loop of `vm_free_pages` from round `i` on. -/
def freeLoop (space : VmSpace) (addr : Nat) : (i count : Nat) → Vm → Vm
  | _, 0, s => s
  | i, count + 1, s =>
    freeLoop space addr (i + 1) count (freeRound s space (u64 (addr + i * 0x1000)))

def vmFreePages (s : Vm) (space : VmSpace) (virt count : Nat) : Vm := freeLoop space virt 0 count s

/-! ## Address spaces -/

/-- The top table of a new space: empty below, the kernel's entries above. -/
def newPml4 (m : PageMem) (kernel : Nat) : Fin 512 → BitVec 64 :=
  fun i => if 256 ≤ i.val then m kernel i else 0

/-- `vm_create_space`: null when there is no page for the top table. -/
def vmCreateSpace (s : Vm) : Option VmSpace × Vm :=
  let (pml4, pmm) := pmmAllocPage s.pmm
  if pml4 = 0 then (none, { s with pmm := pmm })
  else
    let m := clearTable s.mem (pml4 / pageSize)
    (some
      { pml4 := pml4
        codeStart := 0x400000, codeEnd := 0x400000
        dataStart := 0x800000, dataEnd := 0x800000
        heapStart := 0x10000000, heapEnd := 0x10000000
        stackTop := 0x7FFFFFFFFFFF, stackBottom := 0x7FFFFFFFFFFF },
      { s with
        mem := update m (pml4 / pageSize) (newPml4 m (s.kernelPml4 / pageSize))
        pmm := pmm })

/-- The indices of a table, in the order of the loops. -/
@[irreducible] def tableEntries : List (Fin 512) := List.finRange 512

/-- The indices of the user half of the top table. -/
@[irreducible] def userEntries : List (Fin 512) := tableEntries.take 256

/-- A user page that can be written: `vm_clone_space` turns it into a shared one. -/
def userWritable (e : BitVec 64) : Bool :=
  e &&& (vmFlagWritable ||| vmFlagUser) == vmFlagWritable ||| vmFlagUser

/-- The shared entry: not writable, copied on a write. -/
def cowEntry (e : BitVec 64) : BitVec 64 := e &&& ~~~vmFlagWritable ||| vmFlagCow

/-- The reference counts of a page that gets shared. -/
def shareRefs (p : Pmm) (phys : Nat) : Pmm :=
  pmmRefInc (if pmmRefCount p phys = 1 then pmmRefInc p phys else p) phys

/-- One round of the innermost loop of `vm_clone_space`. -/
def cloneEntry (src dst : Nat) (s : Vm) (i : Fin 512) : Vm :=
  let e := s.mem src i
  if present e then
    if userWritable e then
      let m := writeEntry s.mem src i (cowEntry e)
      { s with mem := writeEntry m dst i (cowEntry e), pmm := shareRefs s.pmm (entryAddr e) }
    else { s with mem := writeEntry s.mem dst i e }
  else s

/-- A loop of `vm_clone_space` over the entries of a table: a failure in one round
    ends it. -/
def cloneEntries (round : Vm → Fin 512 → Bool × Vm) : List (Fin 512) → Vm → Bool × Vm
  | [], s => (true, s)
  | i :: is, s =>
    match round s i with
    | (false, s) => (false, s)
    | (true, s) => cloneEntries round is s

/-- One round of the three outer loops: the table below entry `i` is cloned, then
    linked into `dst`. -/
def cloneRound (cloneTable : Vm → Nat → Option Nat × Vm) (src dst : Nat) (s : Vm) (i : Fin 512) :
    Bool × Vm :=
  if present (s.mem src i) then
    match cloneTable s (entryFrame (s.mem src i)) with
    | (none, s) => (false, s)
    | (some page, s) => (true, { s with mem := writeEntry s.mem dst i (tableEntry page) })
  else (true, s)

/-- A table that `vm_clone_space` adds: a page is taken and cleared, and a loop fills
    it. The result is the address of the page. -/
def newPageTable (s : Vm) (fill : Vm → Nat → Bool × Vm) : Option Nat × Vm :=
  let (page, pmm) := pmmAllocPage s.pmm
  if page = 0 then (none, { s with pmm := pmm })
  else
    match fill { s with mem := clearTable s.mem (page / pageSize), pmm := pmm } (page / pageSize) with
    | (true, s) => (some page, s)
    | (false, s) => (none, s)

/-- The clone of a table with `level` levels of tables below it. -/
def cloneTable : (level : Nat) → Vm → Nat → Option Nat × Vm
  | 0, s, src => newPageTable s fun s dst => (true, tableEntries.foldl (cloneEntry src dst) s)
  | level + 1, s, src =>
    newPageTable s fun s dst => cloneEntries (cloneRound (cloneTable level) src dst) tableEntries s

/-- The loop of `vm_destroy_space` over the entries of a last-level table: the
    page goes back to the allocator when no reference is left. -/
def destroyEntry (s : Vm) (e : BitVec 64) : Vm :=
  if present e then
    let (refs, pmm) := pmmRefDec s.pmm (entryAddr e)
    { s with pmm := if refs = 0 then pmmFreePage pmm (entryAddr e) else pmm }
  else s

/-- `vm_destroy_space` below one table with `level` levels of tables below it. -/
def destroyTable : Nat → Vm → Nat → Vm
  | 0, s, table =>
    let s := tableEntries.foldl (fun s i => destroyEntry s (s.mem table i)) s
    { s with pmm := pmmFreePage s.pmm (table * pageSize) }
  | level + 1, s, table =>
    let s := tableEntries.foldl (fun s i =>
      if present (s.mem table i) then destroyTable level s (entryFrame (s.mem table i)) else s) s
    { s with pmm := pmmFreePage s.pmm (table * pageSize) }

def vmDestroySpace (s : Vm) (space : VmSpace) : Vm :=
  let s := userEntries.foldl (fun s i =>
    if present (s.mem space.root i) then destroyTable 2 s (entryFrame (s.mem space.root i))
    else s) s
  { s with pmm := pmmFreePage s.pmm space.pml4 }

def vmCloneSpace (s : Vm) (src : VmSpace) : Option VmSpace × Vm :=
  match vmCreateSpace s with
  | (none, s) => (none, s)
  | (some dst, s) =>
    match cloneEntries (cloneRound (cloneTable 2) src.root dst.root) userEntries s with
    | (true, s) => (some { src with pml4 := dst.pml4 }, s)
    | (false, s) => (none, vmDestroySpace s dst)

/-! ## Copy-on-write faults -/

/-- `vm_handle_cow_fault` for a process with the given address space. The page is
    copied through its own virtual address, before and after the entry changes. -/
def vmHandleCowFault (s : Vm) (space : VmSpace) (faultAddr : Nat) (errCode : BitVec 64) :
    Int × Vm :=
  if errCode &&& 3 ≠ 3 then (-1, s)
  else
    match getPte s space.root (faultAddr / pageSize * pageSize) false with
    | (none, s) => (-1, s)
    | (some (table, i), s) =>
      let e := s.mem table i
      if !present e then (-1, s)
      else if e &&& vmFlagCow = 0 then (-1, s)
      else if pmmRefCount s.pmm (entryAddr e) ≤ 1 then
        (0, { s with mem := writeEntry s.mem table i (e &&& ~~~vmFlagCow ||| vmFlagWritable) })
      else
        let (page, pmm) := pmmAllocPage s.pmm
        if page = 0 then (-1, { s with pmm := pmm })
        else
          let tmp := s.mem (entryFrame e)
          let entry := BitVec.ofNat 64 page &&& addrMask ||| vmFlagPresent ||| vmFlagUser |||
            vmFlagWritable
          let m := writeEntry s.mem table i entry
          (0, { s with
            mem := update m (page / pageSize) tmp
            pmm := (pmmRefDec pmm (entryAddr e)).2 })

/-! ## The memory syscalls -/

/-- `(uint64_t)-1`. -/
def sysError : Nat := 2 ^ 64 - 1

/-- Pages covered by `size` bytes, as the syscalls compute it. -/
def pageCount (size : Nat) : Nat := u64 (size + pageSize - 1) / pageSize

def sysBrk (space : VmSpace) (addr : Nat) : Nat × VmSpace :=
  if addr = 0 then (space.heapEnd, space)
  else if space.heapStart < addr then (addr, { space with heapEnd := addr })
  else (sysError, space)

/-- `sys_mmap`, which ignores its address. -/
def sysMmap (s : Vm) (space : VmSpace) (size : Nat) (flags : BitVec 64) : Nat × Vm × VmSpace :=
  if size = 0 then (sysError, s, space)
  else
    match vmAllocPages s space (pageCount size) flags with
    | (virt, s, space) => (if virt = 0 then sysError else virt, s, space)

def sysMunmap (s : Vm) (space : VmSpace) (addr size : Nat) : Nat × Vm :=
  if size = 0 then (sysError, s) else (0, vmFreePages s space addr (pageCount size))

end OpenSys
