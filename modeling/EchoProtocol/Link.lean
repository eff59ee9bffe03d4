import EchoProtocol.Delivery
import EchoProtocol.RohcRoundTrip

/-!
# A link that loses whole frames

One packet after another is given to the sender, and its frame reaches the receiver undamaged
or not at all.
-/
namespace EchoProtocol.Link
open Bytes RingBits IpChecksum Rohc Frames Endpoint Transmit Receive FrameHeader Delivery

/-- The transmitting and the receiving side of the link. -/
structure Peers where
  sender : Echo
  receiver : Echo

/-- A packet for the sender, the fate of its frame, and the memory the receiver finds. -/
structure Transfer where
  packet : List UInt8
  arrives : Bool
  memory : Memory

/-- The frame that `tun_to_rb` writes for a packet is the one that may arrive. -/
def transfer (lz4 : Lz4) (p : Peers) (t : Transfer) : Peers where
  sender := tunToRb lz4 p.sender t.packet
  receiver :=
    if t.arrives then deliver lz4 t.memory p.receiver (buildFrame lz4 p.sender t.packet).1
    else p.receiver

def freshPeers : Peers := ⟨freshEcho, freshEcho⟩

structure Ipv6Packet (packet : List UInt8) : Prop where
  first : version (byteAt packet 0) = 0x60
  length : 40 ≤ packet.length

/-- A packet that header compression does not know. -/
structure OtherPacket (packet : List UInt8) : Prop where
  notIpv4 : version (byteAt packet 0) ≠ 0x40
  notIpv6 : version (byteAt packet 0) = 0x60 → packet.length < 40

theorem rohcCompress_ipv4 (s : ROHCState) {packet : List UInt8} (h : WellFormedIpv4 packet)
    (hmax : packet.length ≤ 1280) :
    CompressedIpv4 s packet (rohcCompress s packet ROHC_MAX_COMPRESSED) :=
  rohcCompress_wellFormed s h (hmax.trans (by decide))

theorem rohcCompress_ipv6 (s : ROHCState) {packet : List UInt8} (h : Ipv6Packet packet)
    (hmax : packet.length ≤ 1280) :
    CompressedIpv6 s packet (rohcCompress s packet ROHC_MAX_COMPRESSED) :=
  rohcCompress_version6 s h.first h.length (hmax.trans (by decide))

theorem rohcCompress_other (s : ROHCState) {packet : List UInt8} (h : OtherPacket packet) :
    ∃ code, rohcCompress s packet ROHC_MAX_COMPRESSED = (.error code, s) := by
  unfold rohcCompress
  split_ifs with hshort h4 h6
  · exact ⟨_, rfl⟩
  · exact absurd h4 h.notIpv4
  · rw [compressIpv6, if_pos (h.notIpv6 h6)]
    exact ⟨_, rfl⟩
  · exact ⟨_, rfl⟩

theorem transfer_rohcTx (lz4 : Lz4) (p : Peers) {t : Transfer} (hpos : 0 < t.packet.length) :
    (transfer lz4 p t).sender.rohcTx =
      (rohcCompress p.sender.rohcTx t.packet ROHC_MAX_COMPRESSED).2 :=
  tunToRb_rohcTx lz4 p.sender hpos.ne'

theorem transfer_counter (lz4 : Lz4) (p : Peers) {t : Transfer} (hpos : 0 < t.packet.length) :
    (transfer lz4 p t).sender.txRawCounter =
      if p.sender.txRawCounter + 1 ≥ 100 then 0 else p.sender.txRawCounter + 1 :=
  tunToRb_counter lz4 p.sender hpos.ne'

theorem transfer_arrived (lz4 : Lz4) (p : Peers) {t : Transfer} (h : t.arrives = true) :
    (transfer lz4 p t).receiver =
      deliver lz4 t.memory p.receiver (buildFrame lz4 p.sender t.packet).1 := if_pos h

theorem transfer_lost (lz4 : Lz4) (p : Peers) {t : Transfer} (h : ¬ t.arrives = true) :
    (transfer lz4 p t).receiver = p.receiver := if_neg h

def rawFrame (packet : List UInt8) : Frame := ⟨false, false, false, packet⟩

theorem buildFrame_rohc (lz4 : Lz4) (e : Echo) {packet : List UInt8} (hpos : 0 < packet.length)
    (hmax : packet.length ≤ 1280) :
    (buildFrame lz4 e packet).1.rohc = (plainFrame lz4 e packet).rohc :=
  (buildFrame_plain lz4 e hpos (hmax.trans (by decide))).2.1

/-- The payload of a compressed IPv4 frame. -/
def compressedIpv4 (s : ROHCState) (packet : List UInt8) : List UInt8 :=
  sealedIpv4 (ipv4Flags s packet) packet ++ packet.drop 20

/-- An IPv4 packet goes out as it is, or compressed against a context that agrees with it. -/
theorem plainFrame_ipv4 (lz4 : Lz4) (e : Echo) {packet : List UInt8} (h : WellFormedIpv4 packet)
    (hmax : packet.length ≤ 1280) :
    plainFrame lz4 e packet = rawFrame packet ∨
      (plainFrame lz4 e packet = ⟨false, true, false, compressedIpv4 e.rohcTx packet⟩ ∧
        AgreesIpv4 e.rohcTx (ipv4Flags e.rohcTx packet) packet) := by
  have hlen := h.length
  unfold plainFrame
  split_ifs with hforced
  · exact .inl rfl
  · have hspec := rohcCompress_ipv4 e.rohcTx h hmax
    generalize rohcCompress e.rohcTx packet ROHC_MAX_COMPRESSED = result at hspec
    cases hspec with
    | raw s' => exact .inl rfl
    | compressed s' hvalid hmirrors hagree =>
      refine .inr ⟨?_, hagree⟩
      have hheader := ipv4HeaderLen_le (ipv4Flags e.rohcTx packet)
      have hsealed := sealedIpv4_length (ipv4Flags e.rohcTx packet) packet
      have hfive : 0 < ipv4HeaderLen (ipv4Flags e.rohcTx packet) := by
        unfold ipv4HeaderLen
        omega
      simp only [choosePayload, compressedIpv4]
      rw [if_pos]
      rw [List.length_append, List.length_drop, hsealed]
      omega

/-- The payload of a compressed IPv6 frame. -/
def compressedIpv6 (s : ROHCState) (packet : List UInt8) : List UInt8 :=
  sealedIpv6 (ipv6Flags s packet) packet ++ packet.drop 40

theorem plainFrame_ipv6 (lz4 : Lz4) (e : Echo) {packet : List UInt8} (h : Ipv6Packet packet)
    (hmax : packet.length ≤ 1280) :
    plainFrame lz4 e packet = rawFrame packet ∨
      (plainFrame lz4 e packet = ⟨false, true, false, compressedIpv6 e.rohcTx packet⟩ ∧
        byteAt packet 6 = e.rohcTx.ctx 6) := by
  have hlen := h.length
  unfold plainFrame
  split_ifs with hforced
  · exact .inl rfl
  · have hspec := rohcCompress_ipv6 e.rohcTx h hmax
    generalize rohcCompress e.rohcTx packet ROHC_MAX_COMPRESSED = result at hspec
    cases hspec with
    | raw s' => exact .inl rfl
    | compressed s' hvalid hversion hnext =>
      refine .inr ⟨?_, hnext⟩
      have hsealed := sealedIpv6_length (ipv6Flags e.rohcTx packet) packet
      have h1 := flagBytes_le (ipv6Flags e.rohcTx packet) ROHC_V6_FLAG_NEXT_HDR 1
      have h2 := flagBytes_le (ipv6Flags e.rohcTx packet) ROHC_V6_FLAG_HOP_LIMIT 1
      have h3 := flagBytes_le (ipv6Flags e.rohcTx packet) ROHC_V6_FLAG_TC 1
      rw [ipv6PayloadStart] at hsealed
      simp only [choosePayload, compressedIpv6]
      rw [if_pos]
      rw [List.length_append, List.length_drop, hsealed]
      omega

theorem plainFrame_other (lz4 : Lz4) (e : Echo) {packet : List UInt8} (h : OtherPacket packet) :
    plainFrame lz4 e packet = rawFrame packet ∨
      plainFrame lz4 e packet = ⟨true, false, false, lz4.compress packet⟩ := by
  obtain ⟨code, hcode⟩ := rohcCompress_other e.rohcTx h
  simp only [plainFrame, hcode, choosePayload]
  split_ifs
  · exact .inl rfl
  · exact .inr rfl
  · exact .inl rfl

theorem not_badChecksum_ipv4 {packet : List UInt8} (stack : ℕ → UInt8) (h : WellFormedIpv4 packet) :
    ¬ badChecksum stack packet := by
  have hlen := h.length
  have hihl : ihl 0x45 = 20 := by decide
  rintro ⟨-, -, hbad⟩
  rw [h.first, hihl] at hbad
  refine hbad (h.verifies fun i hi => ?_)
  rw [stackByte, if_pos (by omega)]

theorem not_badChecksum_of_version {packet : List UInt8} (stack : ℕ → UInt8)
    (h : version (byteAt packet 0) ≠ 0x40) : ¬ badChecksum stack packet := fun hbad => h hbad.2.1

theorem finish_good {stack : ℕ → UInt8} {packet : List UInt8} (s : ROHCState)
    (hgood : ¬ badChecksum stack packet) (hpos : 0 < packet.length) :
    finish stack (some packet, s) = (.written packet, s) := by
  simp only [finish]
  rw [if_neg hgood, if_pos hpos]

/-- A raw frame that arrives is written and taken as the new context. -/
theorem deliver_raw {lz4 : Lz4} {e sender : Echo} (memory : Memory) {packet : List UInt8}
    (hring : Holds e.rxRb []) (hpos : 0 < packet.length) (hmax : packet.length ≤ 1280)
    (hraw : plainFrame lz4 sender packet = rawFrame packet)
    (hgood : ¬ badChecksum memory.stack packet) :
    (deliver lz4 memory e (buildFrame lz4 sender packet).1).rohcRx =
        rohcSyncContext e.rohcRx packet packet.length ∧
      (deliver lz4 memory e (buildFrame lz4 sender packet).1).tunOut = e.tunOut ++ [packet] := by
  obtain ⟨tail, hrx, htun, -⟩ := deliver_buildFrame lz4 memory sender hring hpos
    (hmax.trans (by decide))
  have hstage : rebuildPacket lz4 memory.past false false e.rohcRx (packet ++ tail) packet.length =
      (some packet, rohcSyncContext e.rohcRx packet packet.length) := by
    simp only [rebuildPacket, Bool.false_eq_true, if_false, List.take_left,
      rohcSyncContext_append e.rohcRx tail hpos]
  simp only [hraw, rawFrame, hstage, finish_good _ hgood hpos] at hrx htun
  exact ⟨hrx, htun⟩

/-- A packet that header compression does not know leaves the receiver's context. -/
theorem deliver_other {lz4 : Lz4} {e sender : Echo} {memory : Memory} {packet : List UInt8}
    (hring : Holds e.rxRb []) (h : OtherPacket packet) (hpos : 0 < packet.length)
    (hmax : packet.length ≤ 1280) :
    (deliver lz4 memory e (buildFrame lz4 sender packet).1).rohcRx = e.rohcRx := by
  rcases plainFrame_other lz4 sender h with hraw | hcomp
  · have hsync : ¬ Syncable packet packet.length := by
      rintro (⟨h4, -⟩ | ⟨h6, hlen⟩)
      · exact h.notIpv4 h4
      · exact absurd (h.notIpv6 h6) (not_lt.mpr hlen)
    rw [(deliver_raw memory hring hpos hmax hraw (not_badChecksum_of_version _ h.notIpv4)).1,
      rohcSyncContext_eq, if_neg hsync]
  · obtain ⟨tail, hrx, -, -⟩ := deliver_buildFrame lz4 memory sender hring hpos
      (hmax.trans (by decide))
    simp only [hcomp, finish_snd] at hrx
    exact hrx

theorem rebuildPacket_rohc (lz4 : Lz4) (past : ℕ → UInt8) (s : ROHCState) {p : List UInt8} {n : ℕ}
    (hsync : ¬ Syncable p n) : rebuildPacket lz4 past true false s p n =
      match rohcDecompress past s p n (SIZE_BUF * 2) with
      | some (out, s') => (some out, s')
      | none => (none, s) := by
  have hsame : rohcSyncContext s p n = s := by
    rw [rohcSyncContext_eq, if_neg hsync]
  simp only [rebuildPacket, if_true, hsame]
  cases rohcDecompress past s p n (SIZE_BUF * 2) <;> rfl

/-- A compressed frame that arrives is written as it was sent exactly when header decompression
gives the packet back. -/
theorem deliver_compressed {lz4 : Lz4} {e sender : Echo} (memory : Memory)
    {packet payload : List UInt8} (hring : Holds e.rxRb []) (hpos : 0 < packet.length)
    (hmax : packet.length ≤ 1280)
    (hframe : plainFrame lz4 sender packet = ⟨false, true, false, payload⟩)
    (hsync : ∀ tail, ¬ Syncable (payload ++ tail) payload.length)
    (hgood : ¬ badChecksum memory.stack packet) :
    ∃ tail,
      (∀ s', rohcDecompress memory.past e.rohcRx (payload ++ tail) payload.length (SIZE_BUF * 2) =
        some (packet, s') →
        (deliver lz4 memory e (buildFrame lz4 sender packet).1).rohcRx = s' ∧
        (deliver lz4 memory e (buildFrame lz4 sender packet).1).tunOut = e.tunOut ++ [packet]) ∧
      ((deliver lz4 memory e (buildFrame lz4 sender packet).1).tunOut = e.tunOut ++ [packet] →
        ∃ s', rohcDecompress memory.past e.rohcRx (payload ++ tail) payload.length (SIZE_BUF * 2) =
          some (packet, s')) := by
  obtain ⟨tail, hrx, htun, -⟩ := deliver_buildFrame lz4 memory sender hring hpos
    (hmax.trans (by decide))
  simp only [hframe, rebuildPacket_rohc lz4 memory.past e.rohcRx (hsync tail)] at hrx htun
  refine ⟨tail, fun s' hout => ?_, fun hwritten => ?_⟩
  · simp only [hout, finish_good _ hgood hpos] at hrx htun
    exact ⟨hrx, htun⟩
  · rw [htun, List.append_cancel_left_eq] at hwritten
    cases hout : rohcDecompress memory.past e.rohcRx (payload ++ tail) payload.length
        (SIZE_BUF * 2) with
    | none =>
      simp only [hout, finish] at hwritten
      exact absurd hwritten (by simp [packets])
    | some result =>
      obtain ⟨out, s'⟩ := result
      simp only [hout, finish] at hwritten
      split_ifs at hwritten
      · exact absurd hwritten (by simp [packets])
      · simp only [packets, List.cons.injEq, and_true] at hwritten
        exact ⟨s', by rw [hwritten]⟩
      · exact absurd hwritten (by simp [packets])

theorem compressedIpv4_not_syncable (s : ROHCState) (packet tail : List UInt8) (n : ℕ) :
    ¬ Syncable (compressedIpv4 s packet ++ tail) n := by
  rw [compressedIpv4, List.append_assoc]
  exact sealedIpv4_not_syncable _ _ _ n

theorem compressedIpv6_not_syncable (s : ROHCState) (packet tail : List UInt8) (n : ℕ) :
    ¬ Syncable (compressedIpv6 s packet ++ tail) n := by
  rw [compressedIpv6, List.append_assoc]
  exact sealedIpv6_not_syncable _ _ _ n

/-- A compressed IPv4 frame is written as it was sent exactly when the receiver's context agrees
with the packet in what the frame does not carry. -/
theorem deliver_compressedIpv4 {lz4 : Lz4} {e sender : Echo} (memory : Memory)
    {packet : List UInt8} (hring : Holds e.rxRb []) (h : WellFormedIpv4 packet)
    (hmax : packet.length ≤ 1280)
    (hframe : plainFrame lz4 sender packet =
      ⟨false, true, false, compressedIpv4 sender.rohcTx packet⟩) :
    ((deliver lz4 memory e (buildFrame lz4 sender packet).1).tunOut = e.tunOut ++ [packet] ↔
      e.rohcRx.contextValid = true ∧ AgreesIpv4 e.rohcRx (ipv4Flags sender.rohcTx packet) packet) ∧
    (e.rohcRx.contextValid = true → AgreesIpv4 e.rohcRx (ipv4Flags sender.rohcTx packet) packet →
      (deliver lz4 memory e (buildFrame lz4 sender packet).1).rohcRx.contextValid = true ∧
      Mirrors (deliver lz4 memory e (buildFrame lz4 sender packet).1).rohcRx packet) := by
  have hlen := h.length
  have hid := (ipv4Flags_spec sender.rohcTx packet).1
  have hfit : packet.length ≤ SIZE_BUF * 2 := hmax.trans (by decide)
  obtain ⟨tail, hsome, hwritten⟩ := deliver_compressed memory (e := e) hring (by omega)
    hmax hframe (fun tail => compressedIpv4_not_syncable _ _ _ _) (not_badChecksum_ipv4 _ h)
  rw [compressedIpv4, List.append_assoc] at hsome hwritten
  have hiff := rohcDecompress_wellFormed_iff memory.past e.rohcRx tail hid h hfit
  refine ⟨⟨fun hout => hiff.mp (hwritten hout), fun hagree => ?_⟩, fun hvalid hagree => ?_⟩
  · obtain ⟨s', hs'⟩ := hiff.mpr hagree
    exact (hsome s' hs').2
  · obtain ⟨s', hs', hvalid', hmirrors⟩ :=
      rohcDecompress_of_agrees memory.past tail hid h hfit hvalid hagree
    rw [(hsome s' hs').1]
    exact ⟨hvalid', hmirrors⟩

/-- The same for a compressed IPv6 frame that carries no traffic class. -/
theorem deliver_compressedIpv6 {lz4 : Lz4} {e sender : Echo} (memory : Memory)
    {packet : List UInt8} (hring : Holds e.rxRb []) (h : Ipv6Packet packet)
    (hmax : packet.length ≤ 1280)
    (hframe : plainFrame lz4 sender packet =
      ⟨false, true, false, compressedIpv6 sender.rohcTx packet⟩)
    (hplain : PlainIpv6 (ipv6Flags sender.rohcTx packet)) :
    (deliver lz4 memory e (buildFrame lz4 sender packet).1).tunOut = e.tunOut ++ [packet] ↔
      e.rohcRx.contextValid = true ∧ AgreesIpv6 e.rohcRx (ipv6Flags sender.rohcTx packet) packet := by
  have hlen := h.length
  have hfit : packet.length ≤ SIZE_BUF * 2 := hmax.trans (by decide)
  have hgood : ¬ badChecksum memory.stack packet :=
    not_badChecksum_of_version _ (by rw [h.first]; decide)
  obtain ⟨tail, hsome, hwritten⟩ := deliver_compressed memory (e := e) hring (by omega) hmax hframe
    (fun tail => compressedIpv6_not_syncable _ _ _ _) hgood
  rw [compressedIpv6, List.append_assoc] at hsome hwritten
  have hiff := rohcDecompress_ipv6_iff memory.past e.rohcRx tail hplain hlen hfit
  refine ⟨fun hout => hiff.mp (hwritten hout), fun hagree => ?_⟩
  obtain ⟨s', hs'⟩ := hiff.mpr hagree
  exact (hsome s' hs').2

end EchoProtocol.Link
