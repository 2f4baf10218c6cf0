-- SUMMARY: What net_drv_recv and the packet handlers read and write.
import OpenSys.Lib.Memory
import OpenSys.Lib.Word

/-!
# Receiving packets

`src/drivers/net.c`, `src/net/ip.c` and `src/net/icmp.c`. The registers of the card, the bytes of
the ring and the bytes of a packet are arbitrary. Reads of the ring and of a packet are kept as
their offsets, and so are writes to the caller's buffer.
-/

namespace OpenSys

open List

/-- Truncation to `uint16_t`. -/
def u16 (n : Nat) : Nat := n % 2 ^ 16

/-- `a - b` on `uint16_t`, for `b` below `2 ^ 16`. -/
def sub16 (a b : Nat) : Nat := u16 (a + (2 ^ 16 - b))

/-! ## The driver -/

/-- `RTL_RX_BUF_SIZE` -/
def rtlRxBufSize : Nat := 8192

/-- The bytes that a copy reads from the ring and writes to the buffer. -/
structure RingCopy where
  reads : List Nat
  writes : List Nat

/-- The length of the next chunk, up to the end of the ring. -/
def ringChunk (srcOffset remaining : Nat) : Nat :=
  if rtlRxBufSize < srcOffset + remaining then sub16 rtlRxBufSize srcOffset else remaining

/-- The copy loop of `net_drv_recv`. There is no result when the rounds do not suffice. -/
def copyRing : (rounds : Nat) → (dst srcOffset remaining : Nat) → Option RingCopy
  | 0, _, _, _ => none
  | rounds + 1, dst, srcOffset, remaining =>
    if remaining = 0 then some ⟨[], []⟩
    else
      let chunk := ringChunk srcOffset remaining
      (copyRing rounds (dst + chunk) ((srcOffset + chunk) % rtlRxBufSize)
          (sub16 remaining chunk)).map fun r =>
        ⟨List.range' srcOffset chunk ++ r.reads, List.range' dst chunk ++ r.writes⟩

/-- What a call of `net_drv_recv` does. -/
structure Received extends RingCopy where
  result : Nat
  nextCapr : Option Nat

/-- `net_drv_recv`. `ready` says that there is a card and a buffer; `ring` is the memory from
    `rtl_rx_ring` on. -/
def netDrvRecv (ready : Bool) (isr caprReg len : BitVec 16) (ring : Mem) : Option Received :=
  if ready = false ∨ len = 0 then some ⟨⟨[], []⟩, 0, none⟩
  else if isr.getLsbD 0 = false then some ⟨⟨[], []⟩, 0, none⟩
  else
    let capr := (caprReg &&& 0x3FFC).toNat
    let rxStatus := ring.readLE capr 4
    let rxLenRaw := ring.readLE (capr + 4) 4
    let header := List.range' capr 8
    if rxStatus % 2 = 0 then some ⟨⟨header, []⟩, 0, none⟩
    else
      let pktLen := rxLenRaw % 2 ^ 14
      if pktLen < 4 then some ⟨⟨header, []⟩, 0, none⟩
      else
        let dataOffset := u16 (capr + 4)
        let copyLen := if len.toNat < pktLen - 4 then len.toNat else pktLen - 4
        (copyRing (2 ^ 16 + 1) 0 dataOffset copyLen).map fun r =>
          let nextCapr := u16 (capr + pktLen + 4)
          ⟨⟨header ++ r.reads, r.writes⟩, copyLen,
            some (if rtlRxBufSize ≤ nextCapr then nextCapr - rtlRxBufSize else nextCapr)⟩

section Driver

variable {rounds dst srcOffset remaining : Nat}

theorem ringChunk_bounds (hsrc : srcOffset < rtlRxBufSize) (hpos : remaining ≠ 0) :
    0 < ringChunk srcOffset remaining ∧ ringChunk srcOffset remaining ≤ remaining := by
  unfold ringChunk sub16 u16
  rw [rtlRxBufSize] at *
  split <;> omega

theorem sub16_of_le {a b : Nat} (hle : b ≤ a) (hlt : a < 2 ^ 16) : sub16 a b = a - b := by
  unfold sub16 u16
  omega

/-- Inside the ring every round copies something. -/
theorem copyRing_inside (hsrc : srcOffset < rtlRxBufSize) (hlt : remaining < 2 ^ 16)
    (hrounds : remaining < rounds) : (copyRing rounds dst srcOffset remaining).isSome := by
  induction rounds generalizing dst srcOffset remaining with
  | zero => omega
  | succ rounds ih =>
    unfold copyRing
    split
    · rfl
    next hpos =>
    obtain ⟨hlo, hhi⟩ := ringChunk_bounds hsrc hpos
    rw [Option.isSome_map, sub16_of_le hhi hlt]
    exact ih (Nat.mod_lt _ (by decide)) (by omega) (by omega)

/-- `net_drv_recv` returns, whatever the card holds. -/
theorem netDrvRecv_returns (ready : Bool) (isr caprReg len : BitVec 16) (ring : Mem) :
    (netDrvRecv ready isr caprReg len ring).isSome := by
  unfold netDrvRecv
  split
  · rfl
  split
  · rfl
  dsimp only
  split
  · rfl
  split
  · rfl
  rw [Option.isSome_map]
  have hlen := len.isLt
  generalize u16 ((caprReg &&& 0x3FFC).toNat + 4) = src
  generalize hcopy : (if len.toNat < ring.readLE ((caprReg &&& 0x3FFC).toNat + 4) 4 % 2 ^ 14 - 4
    then len.toNat else ring.readLE ((caprReg &&& 0x3FFC).toNat + 4) 4 % 2 ^ 14 - 4) = n
  have hn : n < 2 ^ 14 := by
    rw [← hcopy]
    split <;> omega
  -- the first round may start behind the ring and may wrap what remains
  unfold copyRing
  split
  · rfl
  · rw [Option.isSome_map]
    exact copyRing_inside (Nat.mod_lt _ (by decide)) (Nat.mod_lt _ (by decide))
      (Nat.mod_lt _ (by decide))

/-- What the first round reads. -/
theorem copyRing_first {r : RingCopy} (h : copyRing (rounds + 1) dst srcOffset remaining = some r)
    (hpos : remaining ≠ 0) :
    ∀ x ∈ List.range' srcOffset (ringChunk srcOffset remaining), x ∈ r.reads := by
  unfold copyRing at h
  rw [if_neg hpos] at h
  obtain ⟨r', -, rfl⟩ := Option.map_eq_some_iff.mp h
  exact fun x hx => mem_append_left _ hx

/-- A copy that does not wrap is one round. -/
theorem copyRing_straight (hfit : srcOffset + remaining ≤ rtlRxBufSize) :
    copyRing (rounds + 2) dst srcOffset remaining =
      some ⟨List.range' srcOffset remaining, List.range' dst remaining⟩ := by
  rw [rtlRxBufSize] at hfit
  unfold copyRing
  split
  · next hzero =>
    rw [hzero]
    rfl
  have hrest : sub16 remaining remaining = 0 := by
    unfold sub16 u16
    omega
  have hchunk : ringChunk srcOffset remaining = remaining := if_neg (by rw [rtlRxBufSize]; omega)
  dsimp only
  rw [hchunk, hrest]
  unfold copyRing
  simp

/-- The bytes that a packet in the ring has for the caller. -/
def packetBytes (ring : Mem) (capr : Nat) (len : BitVec 16) : Nat :=
  min len.toNat (ring.readLE (capr + 4) 4 % 2 ^ 14 - 4)

/-- No packet is there, or its header lies in the page, and, when the header announces a
    packet, so do the bytes that are copied. -/
def RingOk (ready : Bool) (isr caprReg len : BitVec 16) (ring : Mem) : Prop :=
  ready = false ∨ len = 0 ∨ isr.getLsbD 0 = false ∨
    (caprReg &&& 0x3FFC).toNat + 8 ≤ 4096 ∧
      (ring.readLE (caprReg &&& 0x3FFC).toNat 4 % 2 = 0 ∨
        (caprReg &&& 0x3FFC).toNat + 4 + packetBytes ring (caprReg &&& 0x3FFC).toNat len ≤ 4096)

/-- `net_drv_recv` returns, writes inside the caller's buffer and reads inside the page of the
    ring exactly when no packet is there, or the packet lies in the page. -/
theorem recv_inside_iff (ready : Bool) (isr caprReg len : BitVec 16) (ring : Mem) :
    (∃ r, netDrvRecv ready isr caprReg len ring = some r ∧ (∀ w ∈ r.writes, w < len.toNat) ∧
      ∀ x ∈ r.reads, x < 4096) ↔ RingOk ready isr caprReg len ring := by
  obtain ⟨r, hr⟩ := Option.isSome_iff_exists.mp (netDrvRecv_returns ready isr caprReg len ring)
  have hcapr : (caprReg &&& 0x3FFC).toNat ≤ 0x3FFC := by
    rw [BitVec.toNat_and]
    exact Nat.and_le_right
  rw [hr]
  simp only [Option.some.injEq, exists_eq_left']
  unfold netDrvRecv at hr
  unfold RingOk packetBytes
  generalize (caprReg &&& 0x3FFC).toNat = capr at hr hcapr ⊢
  split at hr
  · next hidle =>
    cases hr
    exact iff_of_true (by simp) (by rw [← or_assoc]; exact .inl hidle)
  next hbusy =>
  split at hr
  · next hisr =>
    cases hr
    exact iff_of_true (by simp) (.inr (.inr (.inl hisr)))
  next hisr =>
  rw [not_or] at hbusy
  rw [or_iff_right hbusy.1, or_iff_right hbusy.2, or_iff_right hisr]
  -- the last byte of the header
  have hlast : capr + 7 ∈ List.range' capr 8 := mem_range'_1.mpr ⟨by omega, by omega⟩
  have hheader : (∀ x ∈ List.range' capr 8, x < 4096) ↔ capr + 8 ≤ 4096 :=
    ⟨fun h => by have := h _ hlast; omega, fun h x hx => by
      have := mem_range'_1.mp hx
      omega⟩
  dsimp only at hr
  split at hr
  · next hstatus =>
    cases hr
    simp only [not_mem_nil, false_implies, implies_true, true_and, hheader, hstatus, true_or,
      and_true]
  next hstatus =>
  rw [or_iff_right hstatus]
  split at hr
  · next hshort =>
    cases hr
    have hzero : ring.readLE (capr + 4) 4 % 2 ^ 14 - 4 = 0 := by omega
    rw [hzero, Nat.min_zero]
    simp only [not_mem_nil, false_implies, implies_true, true_and, hheader]
    omega
  next hlong =>
  have hmin : (if len.toNat < ring.readLE (capr + 4) 4 % 2 ^ 14 - 4 then len.toNat
      else ring.readLE (capr + 4) 4 % 2 ^ 14 - 4) =
      min len.toNat (ring.readLE (capr + 4) 4 % 2 ^ 14 - 4) := by
    split <;> omega
  rw [hmin] at hr
  have hcopy : min len.toNat (ring.readLE (capr + 4) 4 % 2 ^ 14 - 4) ≤ len.toNat := Nat.min_le_left ..
  generalize min len.toNat (ring.readLE (capr + 4) 4 % 2 ^ 14 - 4) = n at hr hcopy ⊢
  have hoffset : u16 (capr + 4) = capr + 4 := Nat.mod_eq_of_lt (by omega)
  rw [hoffset] at hr
  obtain ⟨c, hc, rfl⟩ := Option.map_eq_some_iff.mp hr
  simp only [mem_append, or_imp, forall_and, hheader]
  constructor
  · rintro ⟨-, hin, hreads⟩
    refine ⟨hin, ?_⟩
    by_contra hover
    have hfirst := copyRing_first hc (by omega)
    -- the first round reaches the end of the packet or of the ring
    have hchunk : 4096 < capr + 4 + ringChunk (capr + 4) n := by
      unfold ringChunk sub16 u16
      rw [rtlRxBufSize]
      split <;> omega
    have := hreads _ (hfirst (capr + 4 + ringChunk (capr + 4) n - 1)
      (mem_range'_1.mpr ⟨by omega, by omega⟩))
    omega
  · rintro ⟨hin, hfit⟩
    rw [show 2 ^ 16 + 1 = (2 ^ 16 - 1) + 2 from rfl,
      copyRing_straight (by rw [rtlRxBufSize]; omega)] at hc
    obtain rfl := Option.some.inj hc
    refine ⟨fun w hw => ?_, hin, fun x hx => ?_⟩
    · have := mem_range'_1.mp hw
      omega
    · have := mem_range'_1.mp hx
      omega

/-- With `CAPR` at 4096 the header of the packet is read behind the page. -/
theorem recv_behind_page : ¬ ∃ r, netDrvRecv true 1 0x1000 64 (fun _ => 0) = some r ∧
      (∀ w ∈ r.writes, w < (64 : BitVec 16).toNat) ∧ ∀ x ∈ r.reads, x < 4096 := by
  rintro ⟨r, hr, -, hreads⟩
  cases hr
  exact absurd (hreads 4096 (by decide)) (by decide)

end Driver

/-! ## IP and ICMP -/

/-- `sizeof(ipv4_header_t)` -/
def sizeofIpv4Header : Nat := 20

/-- `sizeof(icmp_header_t)` -/
def sizeofIcmpHeader : Nat := 8

/-- `NET_PROTO_ICMP` -/
def netProtoIcmp : UInt8 := 1

/-- `ping_reply_received` and `ping_reply_seq` -/
structure Ping where
  replyReceived : Bool
  replySeq : Nat

/-- What the handling of a packet reads, as offsets from the start of the packet, and what it
    leaves. -/
structure Handled where
  reads : List Nat
  /-- The payload length handed to the transport layer. -/
  passed : Option Nat
  ping : Ping

/-- `icmp_handle_packet`, for a message at `data` in the packet. -/
def icmpHandlePacket (packet : Mem) (data len : Nat) (ping : Ping) : Int × List Nat × Ping :=
  if len < sizeofIcmpHeader then (-1, [], ping)
  else if packet data = 0 then
    if ping.replyReceived then (0, [data], ping)
    else
      let seq := packet.readLE (data + 6) 2
      (0, data :: List.range' (data + 6) 2,
        if seq = ping.replySeq then { ping with replyReceived := true } else ping)
  else (-1, [data], ping)

/-- `version_ihl >> 4` -/
def ipVersion (packet : Mem) : Nat := (packet 0).toNat / 16

/-- `(version_ihl & 0x0F) * 4` -/
def ipHeaderLen (packet : Mem) : Nat := (packet 0).toNat % 16 * 4

/-- `net_handle_packet` -/
def netHandlePacket (packet : Mem) (len : BitVec 16) (ping : Ping) : Handled :=
  if len.toNat < sizeofIpv4Header then ⟨[], none, ping⟩
  else if ipVersion packet ≠ 4 then ⟨[0], none, ping⟩
  else
    let payload := ipHeaderLen packet
    let payloadLen := sub16 len.toNat (ipHeaderLen packet)
    if packet 9 = netProtoIcmp then
      let r := icmpHandlePacket packet payload payloadLen ping
      ⟨0 :: 9 :: r.2.1, some payloadLen, r.2.2⟩
    else ⟨[0, 9], none, ping⟩

/-- The ICMP handler reads inside the message, and its first byte when it is long enough. -/
theorem icmpHandlePacket_reads (packet : Mem) (data len : Nat) (ping : Ping) :
    (∀ x ∈ (icmpHandlePacket packet data len ping).2.1, data ≤ x ∧ x < data + len) ∧
      (sizeofIcmpHeader ≤ len → data ∈ (icmpHandlePacket packet data len ping).2.1) := by
  unfold icmpHandlePacket
  split
  · next hshort => exact ⟨by simp, fun h => by omega⟩
  next hlong =>
  rw [sizeofIcmpHeader] at hlong
  split
  · split
    · exact ⟨by simp; omega, by simp⟩
    refine ⟨fun x hx => ?_, by simp⟩
    rcases mem_cons.mp hx with rfl | hx
    · omega
    · have := mem_range'_1.mp hx
      omega
  · exact ⟨by simp; omega, by simp⟩

/-- An ICMP packet that is shorter than its header says. -/
def HeaderOverruns (packet : Mem) (len : BitVec 16) : Prop :=
  sizeofIpv4Header ≤ len.toNat ∧ ipVersion packet = 4 ∧ packet 9 = netProtoIcmp ∧
    len.toNat < ipHeaderLen packet

/-- Handling a packet stays inside it exactly if it is not an ICMP packet shorter than the
    header length it announces. -/
theorem handlePacket_inside_iff (packet : Mem) (len : BitVec 16) (ping : Ping) :
    ((∀ x ∈ (netHandlePacket packet len ping).reads, x < len.toNat) ∧
      ∀ n, (netHandlePacket packet len ping).passed = some n →
        (n : Int) ≤ (len.toNat : Int) - ipHeaderLen packet) ↔ ¬ HeaderOverruns packet len := by
  have hlen := len.isLt
  have hheader : ipHeaderLen packet < 64 := by
    unfold ipHeaderLen
    omega
  unfold netHandlePacket HeaderOverruns
  split
  · next hshort => exact iff_of_true (by simp) (by omega)
  next hlong =>
  rw [sizeofIpv4Header] at hlong
  split
  · next hversion => exact iff_of_true (by simp; omega) (by tauto)
  next hversion =>
  dsimp only
  split
  · next hicmp =>
    obtain ⟨hin, hfirst⟩ := icmpHandlePacket_reads packet (ipHeaderLen packet)
      (sub16 len.toNat (ipHeaderLen packet)) ping
    simp only [mem_cons, forall_eq_or_imp, Option.some.injEq, forall_eq']
    constructor
    · rintro ⟨⟨-, -, hreads⟩, -⟩ ⟨-, -, -, hover⟩
      -- the payload length wraps, so the handler takes the message for a long one
      have hwrap : sizeofIcmpHeader ≤ sub16 len.toNat (ipHeaderLen packet) := by
        unfold sub16 u16
        rw [sizeofIcmpHeader]
        omega
      have := hreads _ (hfirst hwrap)
      omega
    · intro hok
      have hle : ipHeaderLen packet ≤ len.toNat := by
        by_contra hover
        exact hok ⟨by rw [sizeofIpv4Header]; omega, not_not.mp hversion, hicmp, by omega⟩
      rw [sub16_of_le hle hlen] at hin ⊢
      refine ⟨⟨by omega, by omega, fun x hx => ?_⟩, by omega⟩
      have := hin x hx
      omega
  · next hother => exact iff_of_true (by simp; omega) (by tauto)

/-- A packet of twenty bytes that announces a header of sixty and an ICMP message. -/
def shortPacket : Mem := fun a => if a = 0 then 0x4F else if a = 9 then 1 else 0

/-- The type of the message is read forty bytes behind the packet. -/
theorem handlePacket_reads_behind :
    ¬ ((∀ x ∈ (netHandlePacket shortPacket 20 ⟨false, 0⟩).reads, x < (20 : BitVec 16).toNat) ∧
      ∀ n, (netHandlePacket shortPacket 20 ⟨false, 0⟩).passed = some n →
        (n : Int) ≤ ((20 : BitVec 16).toNat : Int) - ipHeaderLen shortPacket) := by
  rintro ⟨hreads, -⟩
  exact absurd (hreads 60 (by decide)) (by decide)

end OpenSys
