-- SUMMARY: Runs of the kernel heap in which every state is healthy.
import OpenSys.Lib.Run
import OpenSys.Memory.KheapOps

/-!
# Heap safety

The state of a run is the heap together with what callers hold: the pointers they
were given and the sizes they asked for. Callers free only pointers they hold and
write only inside the bytes they asked for. The one thing they cannot promise is
what `kmalloc` needs: that the block it selects is not an exact or near fit.
-/

namespace OpenSys

open List

structure HeapState where
  heap : Kheap
  /-- The live allocations: pointer and requested size. -/
  live : List (Nat × Nat)

inductive HeapCall where
  | kmalloc (n : Nat)
  | kfree (ptr : Nat)
  | krealloc (ptr n : Nat)
  /-- A caller writes byte `i` of an allocation. -/
  | write (ptr i : Nat) (v : UInt8)

def dropLive (live : List (Nat × Nat)) (ptr : Nat) : List (Nat × Nat) :=
  live.filter fun a => a.1 != ptr

def heapStep (s : HeapState) : HeapCall → Option HeapState
  | .kmalloc n => (kmalloc s.heap n).map fun (p, h) =>
      ⟨h, if p = 0 then s.live else (p, n) :: s.live⟩
  | .kfree ptr => (kfree s.heap ptr).map fun h => ⟨h, dropLive s.live ptr⟩
  | .krealloc ptr n => (krealloc s.heap ptr n).map fun (p, h) =>
      ⟨h, if n = 0 then dropLive s.live ptr
        else if p = 0 then s.live else (p, n) :: dropLive s.live ptr⟩
  | .write ptr i v =>
      some { s with heap := { s.heap with mem := Function.update s.heap.mem (u64 (ptr + i)) v } }

/-- What callers promise. -/
def HeapCall.Legal (s : HeapState) : HeapCall → Prop
  | .kmalloc n => n < 2 ^ 64
  | .kfree ptr => ptr = 0 ∨ ∃ a ∈ s.live, a.1 = ptr
  | .krealloc ptr n => n < 2 ^ 64 ∧ (ptr = 0 ∨ ∃ a ∈ s.live, a.1 = ptr)
  | .write ptr i _ => ∃ a ∈ s.live, a.1 = ptr ∧ i < a.2

/-- No allocation of the call meets a block that fits too closely. `krealloc`
    allocates when it has no block or the block is too small. -/
def HeapCall.Fits (s : HeapState) : HeapCall → Prop
  | .kmalloc n => 0 < n → requestFits s.heap n
  | .krealloc ptr n => 0 < n → ptr = 0 ∨ blockSize s.heap.mem (sub64 ptr headerSize) < n →
      requestFits s.heap n
  | _ => True

instance (h : Kheap) (n : Nat) : Decidable (requestFits h n) :=
  match hfind : findFit h.mem (alignUp n 16) walkFuel h.heapFirst with
  | some (some b) =>
    decidable_of_iff (n ≤ 2 ^ 64 - 16 ∧ alignUp n 16 + headerSize ≤ blockSize h.mem b)
      (by simp [requestFits, hfind])
  | some none => .isTrue (by simp [requestFits, hfind])
  | none => .isTrue (by simp [requestFits, hfind])

instance (s : HeapState) (call : HeapCall) : Decidable (call.Legal s ∧ call.Fits s) := by
  cases call <;> unfold HeapCall.Legal HeapCall.Fits <;> infer_instance

/-- A live allocation is the payload of a used block of at least the requested size. -/
def HoldsBlock (l : List HBlock) (a : Nat × Nat) (b : HBlock) : Prop :=
  b ∈ l ∧ b.used = true ∧ a.1 = b.addr + headerSize ∧ 0 < a.2 ∧ a.2 ≤ b.size

structure LiveOk (live : List (Nat × Nat)) (l : List HBlock) : Prop where
  nodup : (live.map Prod.fst).Nodup
  held : ∀ a ∈ live, ∃ b, HoldsBlock l a b

def HeapInv (r : Region) (s : HeapState) : Prop := ∃ l, HeapOk r s.heap l ∧ LiveOk s.live l

variable {r : Region} {s s' : HeapState} {l l' : List HBlock} {b c : HBlock} {ptr n k : Nat}
  {live : List (Nat × Nat)} {a : Nat × Nat}

/-! ## Live allocations -/

theorem mem_dropLive : a ∈ dropLive live ptr ↔ a ∈ live ∧ a.1 ≠ ptr := by
  simp [dropLive]

theorem LiveOk.congr (h : LiveOk live l)
    (hl : ∀ d : HBlock, d.used = true → d ∈ l → d ∈ l') : LiveOk live l' := by
  refine ⟨h.nodup, fun a ha => ?_⟩
  obtain ⟨b, hb, hused, hrest⟩ := h.held a ha
  exact ⟨b, hl b hused hb, hused, hrest⟩

/-- Dropping the holder of a block makes the block free to go. -/
theorem LiveOk.drop (h : LiveOk live l)
    (hl : ∀ d : HBlock, d.used = true → d ∈ l → d.addr + headerSize ≠ ptr → d ∈ l') :
    LiveOk (dropLive live ptr) l' := by
  refine ⟨?_, fun a ha => ?_⟩
  · exact h.nodup.sublist (filter_sublist.map Prod.fst)
  · obtain ⟨hlive, hne⟩ := mem_dropLive.mp ha
    obtain ⟨b, hb, hused, hptr, hrest⟩ := h.held a hlive
    exact ⟨b, hl b hused hb (hptr ▸ hne), hused, hptr, hrest⟩

/-- A new allocation in a used block that nobody holds. -/
theorem LiveOk.cons (h : LiveOk live l) (hc : c ∈ l) (hused : c.used = true) (hn : 0 < n)
    (hsize : n ≤ c.size) (hfresh : ∀ a ∈ live, a.1 ≠ c.addr + headerSize) :
    LiveOk ((c.addr + headerSize, n) :: live) l := by
  refine ⟨?_, ?_⟩
  · rw [map_cons, nodup_cons]
    refine ⟨fun hmem => ?_, h.nodup⟩
    obtain ⟨a, ha, heq⟩ := mem_map.mp hmem
    exact hfresh a ha heq
  · intro a ha
    rcases mem_cons.mp ha with rfl | ha
    · exact ⟨c, hc, hused, rfl, hn, hsize⟩
    · exact h.held a ha

theorem LiveOk.fresh (h : LiveOk live l) (halloc : Allocates l l' c n) :
    ∀ a ∈ live, a.1 ≠ c.addr + headerSize := by
  intro a ha heq
  obtain ⟨b, hb, hused, hptr, -⟩ := h.held a ha
  exact halloc.fresh b hb hused (by omega)

/-! ## One call -/

theorem HeapInv.kmalloc (h : HeapInv r s) (hfit : 0 < n → requestFits s.heap n) :
    ∃ s', heapStep s (.kmalloc n) = some s' ∧ HeapInv r s' := by
  obtain ⟨l, hk, hlive⟩ := h
  by_cases hn : n = 0
  · subst hn
    exact ⟨s, by simp [heapStep, OpenSys.kmalloc], l, hk, hlive⟩
  have hpos : 0 < n := Nat.pos_of_ne_zero hn
  rcases hk.kmalloc hpos (hfit hpos) with hnone | ⟨c, h', l', hsome, hk', halloc⟩
  · exact ⟨s, by simp [heapStep, hnone], l, hk, hlive⟩
  have hne : c.addr + headerSize ≠ 0 := by
    have := hk'.addr_pos halloc.mem
    omega
  refine ⟨⟨h', (c.addr + headerSize, n) :: s.live⟩, ?_, l', hk', ?_⟩
  · rw [heapStep, hsome, Option.map_some]
    dsimp only
    rw [if_neg hne]
  · have hkeep : LiveOk s.live l' :=
      hlive.congr fun d hd hmem => (halloc.others d hd).mpr (.inl hmem)
    exact hkeep.cons halloc.mem halloc.used hpos halloc.size (hlive.fresh halloc)

theorem HeapInv.kfree (h : HeapInv r s) (hptr : ptr = 0 ∨ ∃ a ∈ s.live, a.1 = ptr) :
    ∃ s', heapStep s (.kfree ptr) = some s' ∧ HeapInv r s' := by
  obtain ⟨l, hk, hlive⟩ := h
  rcases hptr with rfl | ⟨a, hmem, rfl⟩
  · exact ⟨⟨s.heap, dropLive s.live 0⟩, by simp [heapStep, OpenSys.kfree], l, hk,
      hlive.drop fun d _ hd _ => hd⟩
  obtain ⟨b, hb, hused, hptr, hpos, hsize⟩ := hlive.held a hmem
  rw [hptr]
  obtain ⟨h', l', hfree, hk', hothers⟩ := hk.kfree hb hused
    (hk.ptr_lt hb (Nat.lt_of_lt_of_le hpos hsize))
  refine ⟨⟨h', dropLive s.live (b.addr + headerSize)⟩, by simp [heapStep, hfree], l', hk', ?_⟩
  refine hlive.drop fun d hd hmem hne => (hothers.mem d hd).mpr ⟨hmem, ?_⟩
  rintro rfl
  exact hne rfl

protected theorem HeapInv.krealloc (h : HeapInv r s) (hptr : ptr = 0 ∨ ∃ a ∈ s.live, a.1 = ptr)
    (hfit : 0 < n → ptr = 0 ∨ blockSize s.heap.mem (sub64 ptr headerSize) < n →
      requestFits s.heap n) :
    ∃ s', heapStep s (.krealloc ptr n) = some s' ∧ HeapInv r s' := by
  by_cases hn : n = 0
  · -- `krealloc (p, 0)` is `kfree p`.
    subst hn
    obtain ⟨s', hs', hinv⟩ := h.kfree hptr
    refine ⟨s', ?_, hinv⟩
    rw [← hs']
    simp [heapStep, krealloc, Function.comp_def]
  have hpos : 0 < n := Nat.pos_of_ne_zero hn
  by_cases hzero : ptr = 0
  · -- Without an old block it is `kmalloc`.
    subst hzero
    have hdrop : dropLive s.live 0 = s.live := by
      obtain ⟨l, hk, hlive⟩ := h
      refine filter_eq_self.mpr fun a ha => ?_
      obtain ⟨b, hb, -, hptr, -⟩ := hlive.held a ha
      have := hk.addr_pos hb
      simp only [bne_iff_ne, ne_eq]
      omega
    obtain ⟨s', hs', hinv⟩ := h.kmalloc fun hpos => hfit hpos (.inl rfl)
    refine ⟨s', ?_, hinv⟩
    rw [← hs']
    simp [heapStep, krealloc, hn, hdrop]
  obtain ⟨l, hk, hlive⟩ := h
  obtain ⟨a, hmem, rfl⟩ := hptr.resolve_left hzero
  obtain ⟨b, hb, hused, hptr, hapos, hsize⟩ := hlive.held a hmem
  rw [hptr] at hzero hfit ⊢
  have hbpos : 0 < b.size := Nat.lt_of_lt_of_le hapos hsize
  obtain ⟨next, hheader⟩ := hk.header hb
  have hkeep : LiveOk (dropLive s.live (b.addr + headerSize)) l := hlive.drop fun d _ hd _ => hd
  rcases Nat.lt_or_ge b.size n with hsmall | hlarge
  · have hroom : requestFits s.heap n := by
      refine hfit hpos (.inr ?_)
      rwa [block_of_ptr (hk.ptr_lt hb hbpos), hheader.size_eq]
    rcases hk.krealloc hb hused hbpos hsmall hroom with
      hnone | ⟨c, h', l', l'', hsome, hk', halloc, hothers⟩
    · exact ⟨s, by simp [heapStep, hnone, hn], l, hk, hlive⟩
    have hcb : c ≠ b := by
      rintro rfl
      exact halloc.fresh c hb hused rfl
    have hc : c ∈ l'' := (hothers c halloc.used).mpr ⟨halloc.mem, hcb⟩
    have hdropped : LiveOk (dropLive s.live (b.addr + headerSize)) l'' := by
      refine hlive.drop fun d hd hmem hne => ?_
      refine (hothers d hd).mpr ⟨(halloc.others d hd).mpr (.inl hmem), ?_⟩
      rintro rfl
      exact hne rfl
    refine ⟨⟨h', (c.addr + headerSize, n) :: dropLive s.live (b.addr + headerSize)⟩, ?_, l'', hk',
      hdropped.cons hc halloc.used hpos halloc.size (hkeep.fresh halloc)⟩
    have hnonnull : c.addr + headerSize ≠ 0 := by
      have := hk'.addr_pos hc
      omega
    rw [heapStep, hsome, Option.map_some]
    dsimp only
    rw [if_neg hn, if_neg hnonnull]
  · -- The old block is large enough and stays.
    refine ⟨⟨s.heap, (b.addr + headerSize, n) :: dropLive s.live (b.addr + headerSize)⟩, ?_, l, hk,
      hkeep.cons hb hused hpos hlarge fun a ha => (mem_dropLive.mp ha).2⟩
    have hsame : krealloc s.heap (b.addr + headerSize) n =
        some (b.addr + headerSize, s.heap) := by
      rw [krealloc, if_neg hn, if_neg hzero, block_of_ptr (hk.ptr_lt hb hbpos),
        if_neg (by simp [hheader.magic_eq]), hheader.size_eq, if_pos hlarge]
    rw [heapStep, hsame, Option.map_some]
    dsimp only
    rw [if_neg hn, if_neg hzero]

theorem HeapInv.write (h : HeapInv r s) {i : Nat} {v : UInt8} (hmem : a ∈ s.live)
    (hi : i < a.2) : ∃ s', heapStep s (.write a.1 i v) = some s' ∧ HeapInv r s' := by
  obtain ⟨l, hk, hlive⟩ := h
  obtain ⟨b, hb, hused, hptr, -, hsize⟩ := hlive.held a hmem
  have hstop := hk.stop_le hb
  refine ⟨_, rfl, l, hk.writePayload hb fun x hx => ?_, hlive⟩
  simp only [HBlock.stop] at hstop hx
  rw [u64_of_lt (by omega)]
  exact Function.update_of_ne (by omega) ..

theorem HeapInv.step (h : HeapInv r s) {call : HeapCall} (hlegal : call.Legal s)
    (hfits : call.Fits s) : ∃ s', heapStep s call = some s' ∧ HeapInv r s' := by
  cases call with
  | kmalloc n => exact h.kmalloc hfits
  | kfree ptr => exact h.kfree hlegal
  | krealloc ptr n => exact h.krealloc hlegal.2 hfits
  | write ptr i v =>
    obtain ⟨a, hmem, rfl, hi⟩ := hlegal
    exact h.write hmem hi

/-! ## The start of a run -/

def heapBoot (m : Mem) (r : Region) : HeapState := ⟨kheapInit m r.start r.size, []⟩

theorem heapBoot_inv (m : Mem) (r : Region) : HeapInv r (heapBoot m r) := by
  have hheader : headerSize = 24 := rfl
  have hgt := r.size_gt
  have hpos := r.start_pos
  have hend := r.fits
  have hsize : sub64 r.size headerSize = r.size - headerSize := sub64_of_le (by omega) (by omega)
  have hblock := headerAt_writeHeader m (a := r.start) (show 0 < 2 ^ 64 by decide)
    (show r.size - headerSize < 2 ^ 64 by omega)
  refine ⟨[⟨r.start, r.size - headerSize, false⟩], ⟨rfl, ⟨rfl, ?_, ?_⟩, ?_, ?_⟩, ?_, ?_⟩
  · simpa [heapBoot, kheapInit, hsize] using hblock
  · simp only [Blocks, HBlock.stop, Region.stop]
    omega
  · rfl
  · simp [heapBoot, kheapInit, hsize, sizeSum]
  · exact nodup_nil
  · simp [heapBoot]

/-! ## Safety -/

/-- The bytes of an allocation's block, from the header in front of its pointer. -/
def payloadEnd (m : Mem) (ptr : Nat) : Nat := ptr + blockSize m (ptr - headerSize)

/-- The health of the heap `r` and of what callers hold in it. The blocks `l` start
    at `heap_first`, and each is followed immediately by the next, so the links
    cannot form a cycle. -/
structure HeapSafe (r : Region) (s : HeapState) : Prop where
  tiles : ∃ l, s.heap.heapFirst = r.start ∧ Blocks s.heap.mem r.stop 0 r.start l ∧
    (∀ a ∈ s.live, ∃ b, HoldsBlock l a b) ∧
    s.heap.bytesUsed + s.heap.bytesFree + headerSize * l.length = r.size
  valid : kheapValidate s.heap = some 0
  sized : ∀ a ∈ s.live, a.1 + a.2 ≤ payloadEnd s.heap.mem a.1
  disjoint : s.live.Pairwise fun a a' =>
    payloadEnd s.heap.mem a.1 ≤ a'.1 ∨ payloadEnd s.heap.mem a'.1 ≤ a.1

theorem HeapOk.payloadEnd_eq {h : Kheap} (hk : HeapOk r h l) (hb : b ∈ l) :
    payloadEnd h.mem (b.addr + headerSize) = b.stop := by
  obtain ⟨next, hheader⟩ := hk.header hb
  rw [payloadEnd, Nat.add_sub_cancel, hheader.size_eq, HBlock.stop]

theorem HeapInv.safe (h : HeapInv r s) : HeapSafe r s := by
  obtain ⟨l, hk, hlive⟩ := h
  refine ⟨⟨l, hk.first, hk.blocks, hlive.held, hk.accounting⟩, hk.kheapValidate, fun a ha => ?_, ?_⟩
  · obtain ⟨b, hb, -, hptr, -, hsize⟩ := hlive.held a ha
    rw [hptr, hk.payloadEnd_eq hb, HBlock.stop]
    omega
  have hne : s.live.Pairwise fun a a' => a.1 ≠ a'.1 := pairwise_map.mp hlive.nodup
  refine hne.imp_of_mem fun {a a'} ha ha' hptr => ?_
  obtain ⟨b, hb, -, hab, -⟩ := hlive.held a ha
  obtain ⟨b', hb', -, hab', -⟩ := hlive.held a' ha'
  have hbb : b ≠ b' := by
    rintro rfl
    exact hptr (hab.trans hab'.symm)
  have hdisjoint := hk.blocks.disjoint hb hb' hbb
  rw [hab, hab', hk.payloadEnd_eq hb, hk.payloadEnd_eq hb']
  omega

/-- In every run of legal calls whose allocations never meet a block that fits too
    closely, every call returns and the heap is healthy in every state. -/
theorem heap_safe (m : Mem) (r : Region) (calls : List HeapCall)
    (hok : Run.AllOk heapStep (fun s call => call.Legal s ∧ call.Fits s) (heapBoot m r) calls) :
    Run.Always heapStep (HeapSafe r) (heapBoot m r) calls := by
  have hinv : Run.Always heapStep (HeapInv r) (heapBoot m r) calls :=
    Run.always_of_allOk (fun s call h hcall => h.step hcall.1 hcall.2) (heapBoot_inv m r) hok
  exact hinv.mono fun s => HeapInv.safe

def pageRegion : Region := ⟨0x1000, 4096, by decide, by decide, by decide⟩

/-- Two allocations, of which one grows and moves, and the other is freed. -/
theorem heap_safe_moving :
    Run.Always heapStep (HeapSafe pageRegion) (heapBoot (fun _ => 0) pageRegion)
      [.kmalloc 20, .write 0x1018 19 7, .kmalloc 100, .krealloc 0x1018 64, .kfree 0x1050] :=
  heap_safe _ _ _ (by decide +kernel)

/-- Freeing any allocated block of a healthy heap leaves a healthy heap without two neighbouring free
blocks, in which the other allocated blocks are where they were with the bytes they had. -/
theorem kfree_coalesces (r : Region) (h : Kheap) (l : List HBlock) (b : HBlock) (hk : HeapOk r h l)
    (hb : b ∈ l) (hused : b.used = true) (hptr : b.addr + headerSize < 2 ^ 64) :
    ∃ h' l', kfree h (b.addr + headerSize) = some h' ∧ HeapOk r h' l' ∧ Frees h l b h' l' :=
  hk.kfree hb hused hptr

/-- A free block on either side of an allocated one, and another allocated block at the end. -/
def fragmentedBlocks : List HBlock :=
  [⟨0x1000, 40, false⟩, ⟨0x1040, 40, true⟩, ⟨0x1080, 40, false⟩, ⟨0x10C0, 3880, true⟩]

def fragmentedHeap : Kheap where
  mem :=
    let m := writeHeader (writeHeader (fun _ => 0) 0x1000 0x1040 40) 0x1040 0x1080 40
    let m := writeHeader (writeHeader m 0x1080 0x10C0 40) 0x10C0 0 3880
    setFlags (setFlags m 0x1040 kheapAllocated) 0x10C0 kheapAllocated
  heapFirst := 0x1000
  bytesUsed := 3920
  bytesFree := 80

theorem fragmentedHeap_ok : HeapOk pageRegion fragmentedHeap fragmentedBlocks :=
  ⟨rfl, ⟨rfl, by constructor <;> decide, rfl, by constructor <;> decide, rfl,
    by constructor <;> decide, rfl, by constructor <;> decide, rfl⟩, rfl, rfl⟩

/-- The block between the two free ones is freed, and the block behind them stays. -/
theorem kfree_coalesces_between : ∃ h' l', kfree fragmentedHeap 0x1058 = some h' ∧
    HeapOk pageRegion h' l' ∧ Frees fragmentedHeap fragmentedBlocks ⟨0x1040, 40, true⟩ h' l' :=
  kfree_coalesces pageRegion fragmentedHeap fragmentedBlocks ⟨0x1040, 40, true⟩ fragmentedHeap_ok
    (by decide) rfl (by decide)

/-- A link to the end of the region leaves the list of blocks. -/
theorem Blocks.next_ne_stop {m : Mem} {stop p : Nat} (h : Blocks m stop 0 p l) (hp : p ≠ stop)
    (hstop : 0 < stop) : blockNext m p ≠ stop := by
  cases l with
  | nil => exact absurd h hp
  | cons b l =>
    obtain ⟨rfl, hheader, hrest⟩ := h
    rw [hheader.next_eq]
    cases l with
    | nil => simpa using Nat.ne_of_lt hstop
    | cons c l =>
      obtain ⟨hc, -, hl⟩ := hrest
      have hle := hl.le
      unfold HBlock.stop headerSize at hle
      simp only [isEmpty_cons, Bool.false_eq_true, if_false]
      omega

def tightRegion : Region := ⟨0x1000, 40, by decide, by decide, by decide⟩

/-- A request that fits the only block exactly: the remainder `16 - 16 - 24` wraps, so
    the block is split and its link leads to a header behind the region. -/
theorem heap_not_safe :
    Run.AllOk heapStep (fun s call => call.Legal s) (heapBoot (fun _ => 0) tightRegion)
      [.kmalloc 16] ∧
    ¬ Run.Always heapStep (HeapSafe tightRegion) (heapBoot (fun _ => 0) tightRegion)
      [.kmalloc 16] := by
  refine ⟨⟨show 16 < 2 ^ 64 by decide, fun _ _ => trivial⟩, ?_⟩
  rintro ⟨-, s', hstep, hsafe⟩
  obtain ⟨l, -, hblocks, -⟩ := hsafe.tiles
  have hnext : (heapStep (heapBoot (fun _ => 0) tightRegion) (.kmalloc 16)).map
      (fun s => blockNext s.heap.mem 0x1000) = some 0x1028 := by
    decide
  rw [hstep, Option.map_some, Option.some.injEq] at hnext
  exact hblocks.next_ne_stop (by decide) (by decide) hnext

end OpenSys
