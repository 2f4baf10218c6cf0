-- SUMMARY: The kernel heap of kheap.c: a list of blocks embedded in the bytes it manages.
import OpenSys.Lib.Memory
import OpenSys.Lib.Word

/-!
# Kernel heap

`src/memory/kheap.c`. Every block starts with a header of 24 bytes, of which the
last four are padding; its payload follows. Pointers are addresses, and 0 is the
null pointer. Walks over the list take fuel: `none` means that the walk has not
ended after as many blocks as there are addresses.
-/

namespace OpenSys

/-- `sizeof(kheap_block_t)`. -/
def headerSize : Nat := 24

def minBlockSize : Nat := headerSize + 16

def kheapAllocated : Nat := 1

def kheapMagic : Nat := 0xBEEF

/-- More blocks than fit into the address space. -/
def walkFuel : Nat := 2 ^ 64

/-! ## Header fields -/

def blockNext (m : Mem) (b : Nat) : Nat := m.readLE b 8

def blockSize (m : Mem) (b : Nat) : Nat := m.readLE (b + 8) 8

def blockFlags (m : Mem) (b : Nat) : Nat := m.readLE (b + 16) 2

def blockMagic (m : Mem) (b : Nat) : Nat := m.readLE (b + 18) 2

def setNext (m : Mem) (b v : Nat) : Mem := m.writeLE b 8 v

def setSize (m : Mem) (b v : Nat) : Mem := m.writeLE (b + 8) 8 v

def setFlags (m : Mem) (b v : Nat) : Mem := m.writeLE (b + 16) 2 v

def setMagic (m : Mem) (b v : Nat) : Mem := m.writeLE (b + 18) 2 v

/-- `!(block->flags & KHEAP_ALLOCATED)`. -/
def isFree (m : Mem) (b : Nat) : Bool := blockFlags m b &&& kheapAllocated == 0

/-- The address right behind a block, as the code computes it. -/
def blockEnd (m : Mem) (b : Nat) : Nat := u64 (b + headerSize + blockSize m b)

structure Kheap where
  mem : Mem
  heapFirst : Nat
  bytesUsed : Nat
  bytesFree : Nat

/-! ## Allocation -/

/-- A header written field by field. -/
def writeHeader (m : Mem) (b next size : Nat) : Mem :=
  setMagic (setFlags (setSize (setNext m b next) b size) b 0) b kheapMagic

/-- `kheap_init` on mapped memory. -/
def kheapInit (m : Mem) (start size : Nat) : Kheap where
  mem := writeHeader m start 0 (sub64 size headerSize)
  heapFirst := start
  bytesUsed := 0
  bytesFree := sub64 size headerSize

def splitBlock (h : Kheap) (block size : Nat) : Kheap :=
  let remaining := sub64 (sub64 (blockSize h.mem block) size) headerSize
  if remaining < minBlockSize then h
  else
    let newBlock := u64 (block + headerSize + size)
    let m := writeHeader h.mem newBlock (blockNext h.mem block) remaining
    { h with
      mem := setNext (setSize m block size) block newBlock
      bytesFree := sub64 h.bytesFree headerSize }

/-- The search of `kmalloc`: the first free block of at least `size` bytes. It
    gives up at a block without the magic number. -/
def findFit (m : Mem) (size : Nat) : Nat → Nat → Option (Option Nat)
  | 0, b => if b = 0 then some none else none
  | fuel + 1, b =>
    if b = 0 then some none
    else if blockMagic m b ≠ kheapMagic then some none
    else if isFree m b && decide (size ≤ blockSize m b) then some (some b)
    else findFit m size fuel (blockNext m b)

/-- The rest of `kmalloc` on the block it found. -/
def takeBlock (h : Kheap) (block size : Nat) : Kheap :=
  let h := splitBlock h block size
  let m := setFlags h.mem block kheapAllocated
  { h with
    mem := m
    bytesUsed := u64 (h.bytesUsed + blockSize m block)
    bytesFree := sub64 h.bytesFree (blockSize m block) }

def kmalloc (h : Kheap) (size : Nat) : Option (Nat × Kheap) :=
  if size = 0 then some (0, h)
  else
    let size := alignUp size 16
    (findFit h.mem size walkFuel h.heapFirst).map fun
      | none => (0, h)
      | some block => (u64 (block + headerSize), takeBlock h block size)

/-! ## Release -/

/-- The loop of `merge_blocks` from `block` on. -/
def mergeFrom (h : Kheap) : Nat → Nat → Option Kheap
  | 0, block => if block = 0 ∨ blockNext h.mem block = 0 then some h else none
  | fuel + 1, block =>
    let next := blockNext h.mem block
    if block = 0 ∨ next = 0 then some h
    else if isFree h.mem block && isFree h.mem next && next == blockEnd h.mem block then
      let m := setSize h.mem block
        (u64 (blockSize h.mem block + headerSize + blockSize h.mem next))
      mergeFrom { h with
        mem := setNext m block (blockNext m next)
        bytesFree := u64 (h.bytesFree + headerSize) } fuel block
    else mergeFrom h fuel next

/-- The effect of `kfree` on the block itself. -/
def releaseBlock (h : Kheap) (block : Nat) : Kheap :=
  { h with
    mem := setFlags h.mem block 0
    bytesUsed := sub64 h.bytesUsed (blockSize h.mem block)
    bytesFree := u64 (h.bytesFree + blockSize h.mem block) }

def kfree (h : Kheap) (ptr : Nat) : Option Kheap :=
  if ptr = 0 then some h
  else
    let block := sub64 ptr headerSize
    if blockMagic h.mem block ≠ kheapMagic then some h
    else if isFree h.mem block then some h
    else mergeFrom (releaseBlock h block) walkFuel h.heapFirst

/-- The copy loop of `krealloc`, which reads the size of the old block again in
    every round; `rounds` is what is left of the new size. -/
def copyBytes (m : Mem) (block src dst i : Nat) : Nat → Mem
  | 0 => m
  | rounds + 1 =>
    if i < blockSize m block then
      copyBytes (Function.update m (u64 (dst + i)) (m (u64 (src + i)))) block src dst (i + 1) rounds
    else m

def krealloc (h : Kheap) (ptr newSize : Nat) : Option (Nat × Kheap) :=
  if newSize = 0 then (kfree h ptr).map fun h => (0, h)
  else if ptr = 0 then kmalloc h newSize
  else
    let block := sub64 ptr headerSize
    if blockMagic h.mem block ≠ kheapMagic then some (0, h)
    else if newSize ≤ blockSize h.mem block then some (ptr, h)
    else
      (kmalloc h newSize).bind fun (newPtr, h) =>
        if newPtr = 0 then some (0, h)
        else
          let h := { h with mem := copyBytes h.mem block ptr newPtr 0 newSize }
          (kfree h ptr).map fun h => (newPtr, h)

/-! ## Validation -/

/-- What `walk_blocks` counts. -/
structure HeapWalk where
  corruptions : Nat
  allocated : Nat
  largestFree : Nat

/-- The three tests of `walk_blocks` on a block with the magic number. -/
def visitBlock (m : Mem) (b : Nat) (w : HeapWalk) : HeapWalk :=
  let badFlags := blockFlags m b ≠ 0 ∧ blockFlags m b ≠ kheapAllocated
  let badNext := blockNext m b ≠ 0 ∧ blockNext m b ≠ blockEnd m b
  { corruptions := w.corruptions + (if badFlags then 1 else 0) + (if badNext then 1 else 0)
    allocated := if isFree m b then w.allocated else w.allocated + 1
    largestFree := if isFree m b then max w.largestFree (blockSize m b) else w.largestFree }

def walkBlocks (m : Mem) : Nat → Nat → HeapWalk → Option HeapWalk
  | 0, b, w => if b = 0 then some w else none
  | fuel + 1, b, w =>
    if b = 0 then some w
    else if blockMagic m b ≠ kheapMagic then some { w with corruptions := w.corruptions + 1 }
    else walkBlocks m fuel (blockNext m b) (visitBlock m b w)

/-- `kheap_validate`: the number of corruptions, as an `int`. -/
def kheapValidate (h : Kheap) : Option Int :=
  (walkBlocks h.mem walkFuel h.heapFirst ⟨0, 0, 0⟩).map fun w => Int.bmod w.corruptions (2 ^ 32)

end OpenSys
