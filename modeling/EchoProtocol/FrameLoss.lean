import EchoProtocol.Lockstep
import EchoProtocol.RejectedFrames

/-!
# What lost frames do to delivered packets

The sender's context moves on with every packet, the receiver's with every frame that arrives.
-/
namespace EchoProtocol.FrameLoss
open Bytes RingBits IpChecksum Rohc Frames Endpoint Transmit Receive FrameHeader Delivery
  RejectedFrames Link Lockstep Runs

structure IpPacket (packet : List UInt8) : Prop where
  max : packet.length ≤ 1280
  kind : WellFormedIpv4 packet ∨ Ipv6Packet packet

def carriesTrafficClass (compressed : List UInt8) : Prop :=
  announcesIpv6 compressed ∧ byteAt compressed 1 &&& ROHC_V6_FLAG_TC ≠ 0

/-- The receiver's context agrees with the packet in what its compressed form does not carry. -/
def Rebuildable (s : ROHCState) (compressed packet : List UInt8) : Prop :=
  s.contextValid = true ∧
    (announcesIpv6 compressed → AgreesIpv6 s (byteAt compressed 1) packet) ∧
    (¬ announcesIpv6 compressed → AgreesIpv4 s (byteAt compressed 1) packet)

/-- The packet of the frame is written, and nothing else. -/
def Written (lz4 : Lz4) (p : Peers) (t : Transfer) : Prop :=
  (transfer lz4 p t).receiver.tunOut = p.receiver.tunOut ++ [t.packet]

/-- Of the frames that arrive, the raw ones are written as they were sent, and the compressed ones
exactly when the receiver's context allows it. -/
def Faithful (lz4 : Lz4) (p : Peers) (t : Transfer) : Prop :=
  t.arrives = true →
    ((plainFrame lz4 p.sender t.packet).rohc = false → Written lz4 p t) ∧
    ((plainFrame lz4 p.sender t.packet).rohc = true →
      ¬ carriesTrafficClass (plainFrame lz4 p.sender t.packet).payload →
      (Written lz4 p t ↔
        Rebuildable p.receiver.rohcRx (plainFrame lz4 p.sender t.packet).payload t.packet))

/-- A packet may be dropped, but is not altered. -/
def Unaltered (lz4 : Lz4) (p : Peers) (t : Transfer) : Prop :=
  t.arrives = true →
    (transfer lz4 p t).receiver.tunOut = p.receiver.tunOut ∨ Written lz4 p t

def initialPeers (a b c d : ℕ → UInt8) (senderFec receiverFec : Bool) : Peers :=
  ⟨echoInit a b senderFec, echoInit c d receiverFec⟩

theorem IpPacket.pos {packet : List UInt8} (h : IpPacket packet) : 1 ≤ packet.length := by
  rcases h.kind with h4 | h6
  · have hlen := h4.length
    omega
  · have hlen := h6.length
    omega

theorem IpPacket.admissible {packet : List UInt8} (h : IpPacket packet) : Admissible packet :=
  ⟨h.pos, h.max, h.kind.imp_right .inl⟩

theorem IpPacket.good {packet : List UInt8} (h : IpPacket packet) (stack : ℕ → UInt8) :
    ¬ badChecksum stack packet := by
  rcases h.kind with h4 | h6
  · exact not_badChecksum_ipv4 stack h4
  · exact not_badChecksum_of_version stack (by rw [h6.first]; decide)

theorem compressedIpv4_header (s : ROHCState) (packet : List UInt8) :
    ¬ announcesIpv6 (compressedIpv4 s packet) ∧
      byteAt (compressedIpv4 s packet) 1 = ipv4Flags s packet :=
  ⟨sealedIpv4_not_announces _ _ _, sealedIpv4_flags _ _ _⟩

theorem compressedIpv6_header (s : ROHCState) (packet : List UInt8) :
    announcesIpv6 (compressedIpv6 s packet) ∧
      byteAt (compressedIpv6 s packet) 1 = ipv6Flags s packet :=
  ⟨sealedIpv6_announces _ _ _, sealedIpv6_flags _ _ _⟩

theorem written_ipv4_iff {lz4 : Lz4} {p : Peers} {t : Transfer} (hring : Holds p.receiver.rxRb [])
    (h : WellFormedIpv4 t.packet) (hmax : t.packet.length ≤ 1280) (harrives : t.arrives = true)
    (hframe : plainFrame lz4 p.sender t.packet =
      ⟨false, true, false, compressedIpv4 p.sender.rohcTx t.packet⟩) :
    Written lz4 p t ↔
      Rebuildable p.receiver.rohcRx (compressedIpv4 p.sender.rohcTx t.packet) t.packet := by
  obtain ⟨hv6, hflags⟩ := compressedIpv4_header p.sender.rohcTx t.packet
  have hiff := (deliver_compressedIpv4 t.memory (e := p.receiver) hring h hmax hframe).1
  rw [Written, transfer_arrived lz4 p harrives, hiff, Rebuildable, hflags]
  exact and_congr_right fun _ => ⟨fun h => ⟨fun h6 => absurd h6 hv6, fun _ => h⟩, fun h => h.2 hv6⟩

/-- A compressed IPv6 frame without a traffic class that arrives. -/
theorem written_ipv6_iff {lz4 : Lz4} {p : Peers} {t : Transfer} (hring : Holds p.receiver.rxRb [])
    (h : Ipv6Packet t.packet) (hmax : t.packet.length ≤ 1280) (harrives : t.arrives = true)
    (hframe : plainFrame lz4 p.sender t.packet =
      ⟨false, true, false, compressedIpv6 p.sender.rohcTx t.packet⟩)
    (hnext : byteAt t.packet 6 = p.sender.rohcTx.ctx 6)
    (htc : ¬ carriesTrafficClass (compressedIpv6 p.sender.rohcTx t.packet)) :
    Written lz4 p t ↔
      Rebuildable p.receiver.rohcRx (compressedIpv6 p.sender.rohcTx t.packet) t.packet := by
  obtain ⟨hv6, hflags⟩ := compressedIpv6_header p.sender.rohcTx t.packet
  have hplain : PlainIpv6 (ipv6Flags p.sender.rohcTx t.packet) := by
    refine ipv6Flags_plain hnext ?_
    by_contra hne
    exact htc ⟨hv6, by rwa [hflags]⟩
  have hiff := deliver_compressedIpv6 t.memory (e := p.receiver) hring h hmax hframe hplain
  rw [Written, transfer_arrived lz4 p harrives, hiff, Rebuildable, hflags]
  exact and_congr_right fun _ => ⟨fun h => ⟨fun _ => h, fun hn => absurd hv6 hn⟩, fun h => h.1 hv6⟩

theorem faithful_step {lz4 : Lz4} {p : Peers} {t : Transfer} (hring : Holds p.receiver.rxRb [])
    (h : IpPacket t.packet) : Faithful lz4 p t := by
  intro harrives
  have hraw : plainFrame lz4 p.sender t.packet = rawFrame t.packet → Written lz4 p t := by
    intro hframe
    rw [Written, transfer_arrived lz4 p harrives]
    exact (deliver_raw t.memory (e := p.receiver) hring h.pos h.max hframe (h.good t.memory.stack)).2
  rcases h.kind with h4 | h6
  · rcases plainFrame_ipv4 lz4 p.sender h4 h.max with hframe | ⟨hframe, -⟩
    · exact ⟨fun _ => hraw hframe, fun hrohc => by rw [hframe] at hrohc; exact Bool.noConfusion hrohc⟩
    · have hiff := written_ipv4_iff hring h4 h.max harrives hframe
      rw [hframe]
      exact ⟨fun hrohc => Bool.noConfusion hrohc, fun _ _ => hiff⟩
  · rcases plainFrame_ipv6 lz4 p.sender h6 h.max with hframe | ⟨hframe, hnext⟩
    · exact ⟨fun _ => hraw hframe, fun hrohc => by rw [hframe] at hrohc; exact Bool.noConfusion hrohc⟩
    · have hiff := written_ipv6_iff hring h6 h.max harrives hframe hnext
      rw [hframe]
      exact ⟨fun hrohc => Bool.noConfusion hrohc, fun _ htc => hiff htc⟩

/-- From fresh peers on, whatever frames are lost, every raw frame that arrives is written as it
was sent, every compressed one exactly when the receiver can rebuild it, and every IPv4 packet
as long as no loss has touched the sender's context since a raw IPv4 frame arrived. -/
theorem lossy_run (lz4 : Lz4) (a b c d : ℕ → UInt8) (senderFec receiverFec : Bool)
    {ts : List Transfer} (hw : ∀ t ∈ ts, IpPacket t.packet) :
    let start := initialPeers a b c d senderFec receiverFec
    Meets (transfer lz4) (Faithful lz4) start ts ∧
      ∀ before t after, ts = before ++ t :: after → WellFormedIpv4 t.packet → t.arrives = true →
        (buildFrame lz4 (run (transfer lz4) start before).sender t.packet).1.rohc = false →
        Meets (transfer lz4) (Quiet lz4) (run (transfer lz4) start (before ++ [t])) after →
        Meets (transfer lz4) (Exact lz4) (run (transfer lz4) start before) (t :: after) := by
  intro start
  have hring : Holds start.receiver.rxRb [] := rbInit_holds d
  refine ⟨?_, ?_⟩
  · have hstep : ∀ (p : Peers) (t : Transfer), Holds p.receiver.rxRb [] → IpPacket t.packet →
        Holds (transfer lz4 p t).receiver.rxRb [] ∧ Faithful lz4 p t :=
      fun p t hp ht => ⟨transfer_ring lz4 hp ht.pos ht.max, faithful_step hp ht⟩
    exact meets_of_step (I := fun p : Peers => Holds p.receiver.rxRb []) hstep hring
      (meets_of_forall fun _ => hw)
  · rintro before t after rfl h4 harrives hraw hquiet
    have hbefore : ∀ u ∈ before, Admissible u.packet := fun u hu =>
      (hw u (List.mem_append_left _ hu)).admissible
    have hafter : ∀ u ∈ t :: after, Admissible u.packet := fun u hu =>
      (hw u (List.mem_append_right _ hu)).admissible
    rw [run_append] at hquiet
    exact resynced_run (run_ring lz4 hring hbefore) hafter h4 harrives hraw hquiet

/-- The small packet with another identification and a smaller time to live. -/
def laterPacket (identification checksumLow : UInt8) : List UInt8 :=
  [0x45, 0x00, 0x00, 0x14, 0x00, identification, 0x40, 0x00, 0x3F, 0x11, 0x27, checksumLow, 0x0A,
    0x00, 0x00, 0x01, 0x0A, 0x00, 0x00, 0x02]

def lostTransfer : Transfer := ⟨laterPacket 0x02 0xD5, false, zeroMemory⟩
def lateTransfer : Transfer := ⟨laterPacket 0x03 0xD4, true, zeroMemory⟩

theorem lossyTransfers_ip : ∀ t ∈ [smallTransfer, lostTransfer, lateTransfer], IpPacket t.packet := by
  simp only [List.mem_cons, List.not_mem_nil, or_false, forall_eq_or_imp, forall_eq]
  exact ⟨⟨by decide, .inl (by decide +kernel)⟩, ⟨by decide, .inl (by decide +kernel)⟩,
    ⟨by decide, .inl (by decide +kernel)⟩⟩

theorem lossy_run_three : Meets (transfer noLz4) (Faithful noLz4) freshPeers
    [smallTransfer, lostTransfer, lateTransfer] :=
  (lossy_run noLz4 (fun _ => 0) (fun _ => 0) (fun _ => 0) (fun _ => 0) false false
    lossyTransfers_ip).1

/-- From every valid context with a possible header length some packet is rebuilt and written. -/
theorem some_written {lz4 : Lz4} {p : Peers} {t : Transfer} (hring : Holds p.receiver.rxRb [])
    (h : WellFormedIpv4 t.packet) (hmax : t.packet.length ≤ 1280) (harrives : t.arrives = true)
    (hframe : plainFrame lz4 p.sender t.packet =
      ⟨false, true, false, compressedIpv4 p.sender.rohcTx t.packet⟩)
    (hvalid : p.receiver.rohcRx.contextValid = true) (hihl : 20 ≤ ihl (p.receiver.rohcRx.ctx 0)) :
    ∃ out, (transfer lz4 p t).receiver.tunOut = p.receiver.tunOut ++ [out] := by
  have hlen := h.length
  have hsixty := ihl_le (p.receiver.rohcRx.ctx 0)
  obtain ⟨tail, -, htun, -⟩ := deliver_buildFrame lz4 t.memory p.sender hring (by omega)
    (hmax.trans (by decide))
  have hid := (ipv4Flags_spec p.sender.rohcTx t.packet).1
  have hv6 : ¬ announcesIpv6 (compressedIpv4 p.sender.rohcTx t.packet ++ tail) := by
    rw [compressedIpv4, List.append_assoc]
    exact sealedIpv4_not_announces _ _ _
  have hsome : ∃ r, rohcDecompress t.memory.past p.receiver.rohcRx
      (compressedIpv4 p.sender.rohcTx t.packet ++ tail)
      (compressedIpv4 p.sender.rohcTx t.packet).length (SIZE_BUF * 2) = some r := by
    rw [compressedIpv4, List.append_assoc, rohcDecompress_sealedIpv4 _ _ _ _ _ _ hid, if_pos]
    · exact ⟨_, rfl⟩
    · refine ⟨hvalid, hihl, ?_⟩
      rw [List.length_drop]
      unfold SIZE_BUF
      omega
  obtain ⟨r, hout⟩ := hsome
  have hr := hout
  rw [rohcDecompress_eq, if_neg hv6] at hr
  split_ifs at hr
  obtain rfl := Option.some.inj hr
  have hpos : 0 < (rebuiltPacketIpv4 t.memory.past p.receiver.rohcRx
      (compressedIpv4 p.sender.rohcTx t.packet ++ tail)
      (compressedIpv4 p.sender.rohcTx t.packet).length).length := by
    rw [rebuiltPacketIpv4, List.length_append, tabulate_length]
    omega
  have hgood := finish_good (refreshedIpv4 t.memory.past p.receiver.rohcRx
      (compressedIpv4 p.sender.rohcTx t.packet ++ tail)
      (compressedIpv4 p.sender.rohcTx t.packet).length)
    (not_badChecksum_rebuiltIpv4 t.memory.stack hihl) hpos
  simp only [hframe, rebuildPacket_rohc lz4 t.memory.past p.receiver.rohcRx
    (compressedIpv4_not_syncable _ _ _ _), hout, hgood] at htun
  rw [transfer_arrived lz4 p harrives]
  exact ⟨_, htun⟩

/-- A compressed IPv4 frame that arrives out of step is altered. -/
theorem altered {lz4 : Lz4} {p : Peers} {t : Transfer} (hring : Holds p.receiver.rxRb [])
    (h : WellFormedIpv4 t.packet) (hmax : t.packet.length ≤ 1280) (harrives : t.arrives = true)
    (hframe : plainFrame lz4 p.sender t.packet =
      ⟨false, true, false, compressedIpv4 p.sender.rohcTx t.packet⟩)
    (hvalid : p.receiver.rohcRx.contextValid = true) (hihl : 20 ≤ ihl (p.receiver.rohcRx.ctx 0))
    (hstep : ¬ AgreesIpv4 p.receiver.rohcRx (ipv4Flags p.sender.rohcTx t.packet) t.packet) :
    ¬ Unaltered lz4 p t := by
  intro hunaltered
  obtain ⟨out, hout⟩ := some_written hring h hmax harrives hframe hvalid hihl
  rcases hunaltered harrives with hdropped | hwritten
  · rw [hout] at hdropped
    exact absurd hdropped (by simp)
  · obtain ⟨hv6, hflags⟩ := compressedIpv4_header p.sender.rohcTx t.packet
    have hrebuildable := (written_ipv4_iff hring h hmax harrives hframe).mp hwritten
    rw [Rebuildable, hflags] at hrebuildable
    exact hstep (hrebuildable.2.2 hv6)

/-- The peers after one packet has arrived and one has been lost. -/
def outOfStep : Peers := transfer noLz4 (transfer noLz4 freshPeers smallTransfer) lostTransfer

def senderContext : ROHCState :=
  (rohcCompress (rohcCompress rohcInit smallPacket ROHC_MAX_COMPRESSED).2 (laterPacket 0x02 0xD5)
    ROHC_MAX_COMPRESSED).2

theorem outOfStep_sender : outOfStep.sender.rohcTx = senderContext ∧
    outOfStep.sender.txRawCounter = 2 := by
  have hsmall : 0 < smallTransfer.packet.length := by decide
  have hlost : 0 < lostTransfer.packet.length := by decide
  refine ⟨?_, ?_⟩
  · rw [outOfStep, transfer_rohcTx noLz4 _ hlost, transfer_rohcTx noLz4 _ hsmall]
    rfl
  · rw [outOfStep, transfer_counter noLz4 _ hlost, transfer_counter noLz4 _ hsmall]
    rfl

theorem outOfStep_receiver : Holds outOfStep.receiver.rxRb [] ∧
    outOfStep.receiver.rohcRx = rohcSyncContext rohcInit smallPacket 20 := by
  have hring : Holds freshPeers.receiver.rxRb [] := rbInit_holds fun _ => 0
  have hsmall := smallPacket_admissible
  have h4 : WellFormedIpv4 smallPacket := by decide +kernel
  have hraw : plainFrame noLz4 freshPeers.sender smallPacket = rawFrame smallPacket := by
    decide +kernel
  have hnext := transfer_ring noLz4 (t := smallTransfer) hring hsmall.pos hsmall.max
  have hrx := (deliver_raw zeroMemory hring hsmall.pos hsmall.max hraw
    (not_badChecksum_ipv4 _ h4)).1
  rw [outOfStep, transfer_lost noLz4 _ (by decide)]
  refine ⟨hnext, ?_⟩
  rw [transfer_arrived noLz4 _ (by decide)]
  exact hrx

/-- A lost frame that changed the time to live makes the next packet arrive with the old one. -/
theorem lost_frame_alters_packet : ¬ ∀ ts : List Transfer, (∀ t ∈ ts, IpPacket t.packet) →
    Meets (transfer noLz4) (Unaltered noLz4) freshPeers ts := by
  intro hall
  obtain ⟨-, -, hlate, -⟩ := hall _ lossyTransfers_ip
  obtain ⟨htx, hcounter⟩ := outOfStep_sender
  obtain ⟨hring, hrx⟩ := outOfStep_receiver
  have hframe : plainFrame noLz4 outOfStep.sender lateTransfer.packet =
      ⟨false, true, false, compressedIpv4 outOfStep.sender.rohcTx lateTransfer.packet⟩ := by
    rw [plainFrame, hcounter, htx]
    decide +kernel
  refine altered hring (by decide +kernel) (by decide) rfl hframe ?_ ?_ ?_ hlate
  · rw [hrx]
    decide +kernel
  · rw [hrx]
    decide +kernel
  · rw [hrx, htx]
    intro hagree
    exact absurd (hagree 8 (by decide) (by decide +kernel) (by decide)) (by decide +kernel)

end EchoProtocol.FrameLoss
