-- SUMMARY: A healthy kernel heap as a list of blocks that tiles a range of addresses.
import OpenSys.Memory.Kheap

/-!
# The shape of the heap

`Blocks m stop last p l` says that the headers in memory `m` describe the blocks
`l`: the first one starts at `p`, each one is followed immediately by the next,
the last one ends at `stop`, and its link is `last`. With `last = 0` this is a
whole heap, with `last = stop` a part that another block follows. All updates of
the heap replace a part of the list by another one over the same addresses.
-/

namespace OpenSys

open List

open Mem (Agree)

structure HBlock where
  addr : Nat
  size : Nat
  used : Bool
  deriving DecidableEq

/-- The address right behind the block. -/
def HBlock.stop (b : HBlock) : Nat := b.addr + headerSize + b.size

/-- The header that describes `b`, linked to `next`. -/
structure HeaderAt (m : Mem) (b : HBlock) (next : Nat) : Prop where
  next_eq : blockNext m b.addr = next
  size_eq : blockSize m b.addr = b.size
  flags_eq : blockFlags m b.addr = if b.used then kheapAllocated else 0
  magic_eq : blockMagic m b.addr = kheapMagic

def Blocks (m : Mem) (stop last : Nat) : Nat → List HBlock → Prop
  | p, [] => p = stop
  | p, b :: l =>
    b.addr = p ∧ HeaderAt m b (if l.isEmpty then last else b.stop) ∧ Blocks m stop last b.stop l

variable {m m' : Mem} {p q r stop last next : Nat} {b c : HBlock} {l l₁ l₂ mid new : List HBlock}

theorem blocks_cons : Blocks m stop last p (b :: l) ↔ b.addr = p ∧
    HeaderAt m b (if l.isEmpty then last else b.stop) ∧ Blocks m stop last b.stop l :=
  Iff.rfl

theorem HeaderAt.isFree_eq (h : HeaderAt m b next) : isFree m b.addr = !b.used := by
  rw [isFree, h.flags_eq]
  cases b.used <;> rfl

/-- A header is the first 20 bytes of its block. -/
theorem HeaderAt.frame (h : HeaderAt m b next) (hm : Agree m m' b.addr 20) :
    HeaderAt m' b next where
  next_eq := (hm.readLE (by omega)).trans h.next_eq
  size_eq := (hm.readLE (by omega)).trans h.size_eq
  flags_eq := (hm.readLE (by omega)).trans h.flags_eq
  magic_eq := (hm.readLE (by omega)).trans h.magic_eq

theorem Blocks.le (h : Blocks m stop last p l) : p ≤ stop := by
  induction l generalizing p with
  | nil => exact Nat.le_of_eq h
  | cons b l ih =>
    obtain ⟨rfl, -, hl⟩ := h
    have := ih hl
    unfold HBlock.stop at this
    omega

theorem Blocks.mem_bounds (h : Blocks m stop last p l) (hb : b ∈ l) :
    p ≤ b.addr ∧ b.stop ≤ stop := by
  induction l generalizing p with
  | nil => cases hb
  | cons c l ih =>
    obtain ⟨rfl, -, hl⟩ := h
    rcases mem_cons.mp hb with rfl | hb
    · exact ⟨Nat.le_refl _, hl.le⟩
    have hbounds := ih hl hb
    have hstop : c.addr ≤ c.stop := by
      unfold HBlock.stop
      omega
    exact ⟨hstop.trans hbounds.1, hbounds.2⟩

/-- The blocks depend on their headers only. -/
theorem Blocks.frame (h : Blocks m stop last p l) (hm : ∀ b ∈ l, Agree m m' b.addr 20) :
    Blocks m' stop last p l := by
  induction l generalizing p with
  | nil => exact h
  | cons b l ih =>
    obtain ⟨haddr, hb, hl⟩ := h
    exact ⟨haddr, hb.frame (hm b mem_cons_self), ih hl fun c hc => hm c (mem_cons_of_mem b hc)⟩

/-- A write outside the range of the blocks does not change them. -/
theorem Blocks.frame_range (h : Blocks m stop last p l)
    (hm : ∀ x, p ≤ x → x < stop → m' x = m x) : Blocks m' stop last p l := by
  refine h.frame fun b hb x hx hx' => ?_
  obtain ⟨hp, hstop⟩ := h.mem_bounds hb
  unfold HBlock.stop headerSize at hstop
  exact hm x (by omega) (by omega)

theorem blocks_append (hne : l₂ ≠ []) :
    Blocks m stop last p (l₁ ++ l₂) ↔ ∃ q, Blocks m q q p l₁ ∧ Blocks m stop last q l₂ := by
  induction l₁ generalizing p with
  | nil =>
    constructor
    · intro h
      exact ⟨p, rfl, h⟩
    · rintro ⟨q, rfl, h⟩
      exact h
  | cons b l ih =>
    have hlink : (l ++ l₂).isEmpty = false := by
      cases l <;> simp [hne]
    rw [cons_append, blocks_cons, hlink]
    constructor
    · rintro ⟨haddr, hb, hl⟩
      obtain ⟨q, hq, h₂⟩ := ih.mp hl
      refine ⟨q, ⟨haddr, ?_, hq⟩, h₂⟩
      cases l with
      | nil =>
        have hstop : b.stop = q := hq
        exact hstop ▸ hb
      | cons c l => exact hb
    · rintro ⟨q, ⟨haddr, hb, hl⟩, h₂⟩
      refine ⟨haddr, ?_, ih.mpr ⟨q, hl, h₂⟩⟩
      cases l with
      | nil =>
        have hstop : b.stop = q := hl
        exact hstop ▸ hb
      | cons c l => exact hb

/-- Replacing the part `mid` of a heap by other blocks over the same addresses,
    when memory changes nowhere else. -/
theorem Blocks.replace (h : Blocks m stop last p (l₁ ++ mid ++ l₂)) (hmid : mid ≠ []) :
    ∃ q r link, Blocks m r link q mid ∧
      ∀ (m' : Mem) (new : List HBlock), new ≠ [] → (∀ x, x < q ∨ r ≤ x → m' x = m x) →
        Blocks m' r link q new → Blocks m' stop last p (l₁ ++ new ++ l₂) := by
  by_cases h₂ : l₂ = []
  · subst h₂
    rw [append_nil, blocks_append hmid] at h
    obtain ⟨q, hq, hrest⟩ := h
    refine ⟨q, stop, last, hrest, fun m' new hnew hm hblocks => ?_⟩
    rw [append_nil, blocks_append hnew]
    exact ⟨q, hq.frame_range fun x _ hx => hm x (.inl hx), hblocks⟩
  rw [blocks_append h₂] at h
  obtain ⟨r, hr, htail⟩ := h
  rw [blocks_append hmid] at hr
  obtain ⟨q, hq, hrest⟩ := hr
  refine ⟨q, r, r, hrest, fun m' new hnew hm hblocks => ?_⟩
  rw [blocks_append h₂]
  refine ⟨r, ?_, htail.frame_range fun x hx _ => hm x (.inr hx)⟩
  rw [blocks_append hnew]
  exact ⟨q, hq.frame_range fun x _ hx => hm x (.inl hx), hblocks⟩

theorem Blocks.nodup (h : Blocks m stop last p l) : l.Nodup := by
  induction l generalizing p with
  | nil => exact nodup_nil
  | cons b l ih =>
    obtain ⟨-, -, hl⟩ := h
    refine nodup_cons.mpr ⟨fun hb => ?_, ih hl⟩
    have hbounds := (hl.mem_bounds hb).1
    unfold HBlock.stop headerSize at hbounds
    omega

/-- Blocks of one heap do not overlap. -/
theorem Blocks.disjoint (h : Blocks m stop last p l) (hb : b ∈ l) (hc : c ∈ l) (hne : b ≠ c) :
    b.stop ≤ c.addr ∨ c.stop ≤ b.addr := by
  induction l generalizing p with
  | nil => cases hb
  | cons d l ih =>
    obtain ⟨rfl, -, hl⟩ := h
    rcases mem_cons.mp hb with rfl | hbl
    · rcases mem_cons.mp hc with rfl | hcl
      · exact absurd rfl hne
      · exact .inl (hl.mem_bounds hcl).1
    · rcases mem_cons.mp hc with rfl | hcl
      · exact .inr (hl.mem_bounds hbl).1
      · exact ih hl hbl hcl

theorem Blocks.eq_of_addr (h : Blocks m stop last p l) (hb : b ∈ l) (hc : c ∈ l)
    (haddr : b.addr = c.addr) : b = c := by
  by_contra hne
  have hdisjoint := h.disjoint hb hc hne
  unfold HBlock.stop headerSize at hdisjoint
  omega

/-! ## Sums -/

/-- The payload bytes of the blocks with the given state. -/
def sizeSum (used : Bool) : List HBlock → Nat
  | [] => 0
  | b :: l => (if b.used = used then b.size else 0) + sizeSum used l

@[simp] theorem sizeSum_append (used : Bool) (l₁ l₂ : List HBlock) :
    sizeSum used (l₁ ++ l₂) = sizeSum used l₁ + sizeSum used l₂ := by
  induction l₁ with
  | nil => simp [sizeSum]
  | cons b l ih =>
    rw [cons_append, sizeSum, sizeSum, ih]
    omega

/-- Headers and payloads fill the range exactly. -/
theorem Blocks.total (h : Blocks m stop last p l) :
    p + sizeSum true l + sizeSum false l + headerSize * l.length = stop := by
  induction l generalizing p with
  | nil =>
    have hp : p = stop := h
    simpa [sizeSum] using hp
  | cons b l ih =>
    obtain ⟨rfl, -, hl⟩ := h
    have htotal := ih hl
    unfold HBlock.stop at htotal
    rw [sizeSum, sizeSum, length_cons, Nat.mul_succ]
    cases b.used
    · simp only [Bool.false_eq_true, if_false, if_true]
      omega
    · simp only [Bool.true_eq_false, if_false, if_true]
      omega

end OpenSys
