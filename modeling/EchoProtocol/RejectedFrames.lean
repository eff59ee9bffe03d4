import EchoProtocol.Delivery

/-!
# What a rejected frame does to the receive context
-/
namespace EchoProtocol.RejectedFrames
open Bytes RingBits IpChecksum Rohc Frames Endpoint Transmit Receive FrameHeader Delivery

/-- The frame is counted as corrupted and nothing is written to the TUN. -/
def Rejected (before after : Echo) : Prop :=
  after.stats.rxCorrupted = before.stats.rxCorrupted + 1 ∧ after.tunOut = before.tunOut

/-- A compressed IPv6 packet on the context of an IPv4 packet, with new fields under which that
header has no correct checksum. -/
def MixedUp (stack : ℕ → UInt8) (s : ROHCState) (p : List UInt8) (n : ℕ) : Prop :=
  announcesIpv6 p ∧ badChecksum stack (rebuiltPacketIpv6 s p n) ∧
    ∃ i ∈ [0, 1, 4, 5, 6, 7], (readIpv6 s p).2 i ≠ s.ctx i

/-- The stages behind error correction do not disturb the context, unless the frame is accepted. -/
def Harmless (memory : Memory) (rx : RxState) (s : ROHCState) (p : List UInt8) (n : ℕ) : Prop :=
  if rx.isRohc then
    if Decodable s.contextValid (s.ctx 0) p n (SIZE_BUF * 2) then ¬ MixedUp memory.stack s p n
    else Foreign s p n → Decodable true (byteAt p 0) p n (SIZE_BUF * 2)
  else if rx.isCompressed then True
  else badChecksum memory.stack (p.take n) → ¬ Foreign s p n

/-- The same for a payload as it came from the ring. -/
def HarmlessPayload (memory : Memory) (rx : RxState) (s : ROHCState) (payload : List UInt8) : Prop :=
  match decodeFec rx.isFec (payloadArray payload) payload.length with
  | none => True
  | some (p, n) => Harmless memory rx s p n

theorem finish_none (stack : ℕ → UInt8) (s : ROHCState) : finish stack (none, s) = (.rejected, s) :=
  rfl

theorem finish_rejected_iff (stack : ℕ → UInt8) (out : List UInt8) (s : ROHCState) :
    (finish stack (some out, s)).1 = .rejected ↔ badChecksum stack out := by
  simp only [finish]
  split_ifs with hbad hlen
  · exact iff_of_true rfl hbad
  · exact iff_of_false (by simp) hbad
  · exact iff_of_false (by simp) hbad

theorem not_badChecksum_rebuiltIpv4 {past : ℕ → UInt8} {s : ROHCState} {p : List UInt8} {n : ℕ}
    (stack : ℕ → UInt8) (hihl : 20 ≤ ihl (s.ctx 0)) :
    ¬ badChecksum stack (rebuiltPacketIpv4 past s p n) := by
  rintro ⟨-, -, hbad⟩
  refine hbad (rebuiltPacketIpv4_verifies hihl fun i hi => ?_)
  rw [stackByte, if_pos hi]

theorem not_announcesIpv6_of_syncable {p : List UInt8} {n : ℕ} (h : Syncable p n) :
    ¬ announcesIpv6 p := by
  have hversion : byteAt p 0 &&& ROHC_VERSION_V6 = version (byteAt p 0) &&& ROHC_VERSION_V6 := by
    unfold version
    rw [UInt8.and_assoc]
    rfl
  unfold announcesIpv6
  rw [not_not, hversion]
  rcases h with ⟨h4, -⟩ | ⟨h6, -⟩
  · rw [h4]
    rfl
  · rw [h6]
    rfl

theorem synced_valid {s : ROHCState} {p : List UInt8} {n : ℕ} (h : Syncable p n) :
    (rohcSyncContext s p n).contextValid = true := by
  rw [rohcSyncContext_eq, if_pos h]
  rfl

theorem synced_first {s : ROHCState} {p : List UInt8} {n : ℕ} (h : Syncable p n) :
    (rohcSyncContext s p n).ctx 0 = byteAt p 0 := by
  have hpos := syncedBytes_pos h
  rw [rohcSyncContext_eq, if_pos h, ROHCState.ctx_validate, ROHCState.ctx_copyContext,
    if_pos ⟨hpos, by decide⟩]

theorem synced_ihl {s : ROHCState} {p : List UInt8} {n outLen : ℕ} (hsync : Syncable p n)
    (hdec : Decodable true (byteAt p 0) p n outLen) : 20 ≤ ihl ((rohcSyncContext s p n).ctx 0) := by
  rw [synced_first hsync]
  exact (hdec.2.2.2.2 (not_announcesIpv6_of_syncable hsync)).1

theorem rebuildPacket_decodable (lz4 : Lz4) (past : ℕ → UInt8) (isCompressed : Bool) {s : ROHCState}
    {p : List UInt8} {n : ℕ} (hdec : Decodable s.contextValid (s.ctx 0) p n (SIZE_BUF * 2)) :
    rebuildPacket lz4 past true isCompressed s p n =
      if announcesIpv6 p then (some (rebuiltPacketIpv6 s p n), refreshedIpv6 s p)
      else (some (rebuiltPacketIpv4 past s p n), refreshedIpv4 past s p n) := by
  simp only [rebuildPacket, if_true, rohcDecompress_eq, if_pos hdec]
  split_ifs <;> rfl

/-- After a failed decompression the payload itself becomes the context, with which an IPv4 packet
may be decompressed. -/
theorem rebuildPacket_undecodable (lz4 : Lz4) (past : ℕ → UInt8) (isCompressed : Bool)
    {s : ROHCState} {p : List UInt8} {n : ℕ}
    (hdec : ¬ Decodable s.contextValid (s.ctx 0) p n (SIZE_BUF * 2)) :
    rebuildPacket lz4 past true isCompressed s p n =
      if Syncable p n ∧ Decodable true (byteAt p 0) p n (SIZE_BUF * 2) then
        (some (rebuiltPacketIpv4 past (rohcSyncContext s p n) p n),
          refreshedIpv4 past (rohcSyncContext s p n) p n)
      else (none, rohcSyncContext s p n) := by
  by_cases hsync : Syncable p n
  · have hv6 := not_announcesIpv6_of_syncable hsync
    rw [if_congr (and_iff_right hsync) rfl rfl]
    simp only [rebuildPacket, if_true, rohcDecompress_eq, if_neg hdec, synced_valid hsync,
      synced_first hsync, if_neg hv6]
    split_ifs <;> rfl
  · have hsame : rohcSyncContext s p n = s := by
      rw [rohcSyncContext_eq, if_neg hsync]
    rw [if_neg fun h => hsync h.1]
    simp only [rebuildPacket, if_true, rohcDecompress_eq, if_neg hdec, hsame]

theorem finish_ipv6 (lz4 : Lz4) (memory : Memory) (isCompressed : Bool) {s : ROHCState}
    {p : List UInt8} {n : ℕ} (hdec : Decodable s.contextValid (s.ctx 0) p n (SIZE_BUF * 2))
    (hv6 : announcesIpv6 p) :
    ((finish memory.stack (rebuildPacket lz4 memory.past true isCompressed s p n)).1 = .rejected →
      (finish memory.stack (rebuildPacket lz4 memory.past true isCompressed s p n)).2 = s) ↔
      ¬ MixedUp memory.stack s p n := by
  have hsame : refreshedIpv6 s p = s ↔ ¬ ∃ i ∈ [0, 1, 4, 5, 6, 7], (readIpv6 s p).2 i ≠ s.ctx i := by
    rw [refreshedIpv6, ROHCState.store_eq_self_iff]
    push Not
    refine forall_congr' fun i => forall_congr' fun hi => ?_
    have hlt : i < ROHC_CTX_SIZE := by
      simp only [List.mem_cons, List.not_mem_nil, or_false] at hi
      unfold ROHC_CTX_SIZE
      omega
    exact ⟨fun h => h hlt, fun h _ => h⟩
  rw [rebuildPacket_decodable lz4 memory.past isCompressed hdec, if_pos hv6, finish_snd,
    finish_rejected_iff, hsame]
  exact ⟨fun h hmixed => h hmixed.2.1 hmixed.2.2, fun h hbad hnew => h ⟨hv6, hbad, hnew⟩⟩

theorem finish_ipv4 {memory : Memory} {s s' : ROHCState} {p : List UInt8} {n : ℕ}
    (hihl : 20 ≤ ihl (s.ctx 0)) :
    (finish memory.stack (some (rebuiltPacketIpv4 memory.past s p n), s')).1 ≠ .rejected := by
  rw [Ne, finish_rejected_iff]
  exact not_badChecksum_rebuiltIpv4 memory.stack hihl

/-- The context that is taken after a failed decompression stays if the second attempt fails as
well. -/
theorem finish_undecodable (lz4 : Lz4) (memory : Memory) (isCompressed : Bool) {s : ROHCState}
    {p : List UInt8} {n : ℕ} (hdec : ¬ Decodable s.contextValid (s.ctx 0) p n (SIZE_BUF * 2)) :
    ((finish memory.stack (rebuildPacket lz4 memory.past true isCompressed s p n)).1 = .rejected →
      (finish memory.stack (rebuildPacket lz4 memory.past true isCompressed s p n)).2 = s) ↔
      (Foreign s p n → Decodable true (byteAt p 0) p n (SIZE_BUF * 2)) := by
  rw [rebuildPacket_undecodable lz4 memory.past isCompressed hdec]
  by_cases hagain : Syncable p n ∧ Decodable true (byteAt p 0) p n (SIZE_BUF * 2)
  · rw [if_pos hagain]
    exact iff_of_true (fun h => absurd h (finish_ipv4 (synced_ihl hagain.1 hagain.2)))
      fun _ => hagain.2
  · rw [if_neg hagain, finish_none, rohcSyncContext_eq_self_iff]
    constructor
    · exact fun h hforeign => absurd hforeign (h rfl)
    · exact fun h _ hforeign => hagain ⟨hforeign.1, h hforeign⟩

theorem finish_raw (lz4 : Lz4) (memory : Memory) (s : ROHCState) (p : List UInt8) (n : ℕ) :
    ((finish memory.stack (rebuildPacket lz4 memory.past false false s p n)).1 = .rejected →
      (finish memory.stack (rebuildPacket lz4 memory.past false false s p n)).2 = s) ↔
      (badChecksum memory.stack (p.take n) → ¬ Foreign s p n) := by
  have hstage : rebuildPacket lz4 memory.past false false s p n =
      (some (p.take n), rohcSyncContext s p n) := rfl
  rw [hstage, finish_snd, finish_rejected_iff, rohcSyncContext_eq_self_iff]

/-- The stages behind error correction keep the context of a rejected frame under one condition
for each of the three kinds of frames. -/
theorem finish_harmless_iff (lz4 : Lz4) (memory : Memory) (rx : RxState) (s : ROHCState)
    (p : List UInt8) (n : ℕ) :
    ((finish memory.stack (rebuildPacket lz4 memory.past rx.isRohc rx.isCompressed s p n)).1 =
        .rejected →
      (finish memory.stack (rebuildPacket lz4 memory.past rx.isRohc rx.isCompressed s p n)).2 = s) ↔
      Harmless memory rx s p n := by
  unfold Harmless
  cases hrohc : rx.isRohc with
  | true =>
    rw [if_pos rfl]
    by_cases hdec : Decodable s.contextValid (s.ctx 0) p n (SIZE_BUF * 2)
    · rw [if_pos hdec]
      by_cases hv6 : announcesIpv6 p
      · exact finish_ipv6 lz4 memory _ hdec hv6
      · rw [rebuildPacket_decodable lz4 memory.past rx.isCompressed hdec, if_neg hv6]
        exact iff_of_true (fun h => absurd h (finish_ipv4 (hdec.2.2.2.2 hv6).1)) fun h => hv6 h.1
    · rw [if_neg hdec]
      exact finish_undecodable lz4 memory _ hdec
  | false =>
    rw [if_neg Bool.false_ne_true]
    cases hcomp : rx.isCompressed with
    | true =>
      rw [if_pos rfl]
      have hstage : (rebuildPacket lz4 memory.past false true s p n).2 = s := rfl
      rw [finish_snd, hstage]
      exact iff_of_true (fun _ => rfl) trivial
    | false =>
      rw [if_neg Bool.false_ne_true]
      exact finish_raw lz4 memory s p n

theorem rejected_record_iff {before e : Echo} (hstats : e.stats = before.stats)
    (htun : e.tunOut = before.tunOut) (v : Verdict) :
    Rejected before (rxReset (record e v)) ↔ v = .rejected := by
  unfold Rejected
  rw [← hstats, ← htun]
  cases v with
  | rejected => exact iff_of_true ⟨rfl, rfl⟩ rfl
  | empty => exact iff_of_false (fun h => absurd h.1 (by simp [record])) (by simp)
  | written out => exact iff_of_false (fun h => absurd h.1 (by simp [record, tunWrite])) (by simp)

theorem rbToTun_badLength (lz4 : Lz4) (memory : Memory) {e : Echo} {header payload : List Bool}
    {packetLen : ℕ} (h : Holds e.rxRb (header ++ payload)) (hheader : header.length = 16)
    (hlen : packetLen = 0 ∨ packetLen > SIZE_BUF * 2) :
    (rbToTun lz4 memory e packetLen).rohcRx = e.rohcRx := by
  obtain ⟨hfirst, -⟩ := readBits_holds h
  rw [hheader] at hfirst
  simp only [rbToTun, hfirst]
  rw [if_pos hlen]
  rfl

theorem judge_harmless_iff (lz4 : Lz4) (memory : Memory) (rx : RxState) (s : ROHCState)
    (payload : List UInt8) :
    ((judge lz4 memory rx s (payloadArray payload) payload.length).1 = .rejected →
      (judge lz4 memory rx s (payloadArray payload) payload.length).2 = s) ↔
      HarmlessPayload memory rx s payload := by
  unfold HarmlessPayload
  cases hdecode : decodeFec rx.isFec (payloadArray payload) payload.length with
  | none =>
    have hjudge : judge lz4 memory rx s (payloadArray payload) payload.length = (.rejected, s) := by
      simp only [judge, hdecode]
    rw [hjudge]
    exact iff_of_true (fun _ => rfl) trivial
  | some decoded =>
    obtain ⟨p, n⟩ := decoded
    rw [judge_decoded hdecode]
    exact finish_harmless_iff lz4 memory rx s p n

theorem rbToTun_judged (lz4 : Lz4) (memory : Memory) {e : Echo} {header : List Bool}
    {payload : List UInt8} (hring : Holds e.rxRb (header ++ payloadBits payload))
    (hheader : header.length = 16) (hpos : 0 < payload.length)
    (hmax : payload.length ≤ SIZE_BUF * 2) :
    (Rejected e (rbToTun lz4 memory e payload.length) ↔
      (judge lz4 memory e.rx e.rohcRx (payloadArray payload) payload.length).1 = .rejected) ∧
    (rbToTun lz4 memory e payload.length).rohcRx =
      (judge lz4 memory e.rx e.rohcRx (payloadArray payload) payload.length).2 := by
  have hframe : ∃ rb, rbToTun lz4 memory e payload.length = rxReset (processPayload lz4 memory
      { e with rxRb := rb } (packBits (payloadBits payload)) payload.length) :=
    rbToTun_frame hring hheader (payloadBits_length payload) hpos hmax
  obtain ⟨rb, heq⟩ := hframe
  rw [packBits_payloadBits hmax, ← payloadArray] at heq
  rw [heq, rxReset_rohcRx, processPayload_rohcRx]
  exact ⟨rejected_record_iff rfl rfl _, rfl⟩

/-- A rejected frame leaves the receive context as it was exactly when it is harmless. -/
theorem rejected_keeps_context_iff (lz4 : Lz4) (memory : Memory) {e : Echo} {header : List Bool}
    {payload : List UInt8} (hring : Holds e.rxRb (header ++ payloadBits payload))
    (hheader : header.length = 16) :
    (Rejected e (rbToTun lz4 memory e payload.length) →
      (rbToTun lz4 memory e payload.length).rohcRx = e.rohcRx) ↔
      (0 < payload.length → payload.length ≤ SIZE_BUF * 2 →
        HarmlessPayload memory e.rx e.rohcRx payload) := by
  by_cases hlen : 0 < payload.length ∧ payload.length ≤ SIZE_BUF * 2
  · obtain ⟨hpos, hmax⟩ := hlen
    obtain ⟨hrejected, hcontext⟩ := rbToTun_judged lz4 memory hring hheader hpos hmax
    rw [hrejected, hcontext, judge_harmless_iff]
    exact ⟨fun h _ _ => h, fun h => h hpos hmax⟩
  · have hbad : payload.length = 0 ∨ payload.length > SIZE_BUF * 2 := by omega
    exact iff_of_true (fun _ => rbToTun_badLength lz4 memory hring hheader hbad)
      fun hpos hmax => absurd ⟨hpos, hmax⟩ hlen

/-- A compressed header that reaches a receiver without a context. -/
def orphanFrame : Frame := ⟨false, true, false, [0x00, 0x01, 0x00, 0x00, 0x01]⟩

theorem rejected_keeps_context_orphan :
    Rejected (arrive freshEcho orphanFrame) (rbToTun noLz4 zeroMemory (arrive freshEcho orphanFrame) 5) ∧
      (rbToTun noLz4 zeroMemory (arrive freshEcho orphanFrame) 5).rohcRx =
        (arrive freshEcho orphanFrame).rohcRx := by
  have hring := arrive_holds (f := orphanFrame) (rbInit_holds fun _ => 0) (e := freshEcho) (by decide)
  obtain ⟨hrejected, -⟩ := rbToTun_judged noLz4 zeroMemory hring rfl (by decide) (by decide)
  have hrej := hrejected.mpr (by decide +kernel)
  have hharmless : Harmless zeroMemory (arrive freshEcho orphanFrame).rx rohcInit
      (payloadArray orphanFrame.payload) 5 := by
    have hrohc : (arrive freshEcho orphanFrame).rx.isRohc = true := rfl
    rw [Harmless, if_pos hrohc, if_neg fun h => Bool.noConfusion h.1]
    exact fun hforeign => absurd hforeign.1 (by decide)
  exact ⟨hrej, (rejected_keeps_context_iff noLz4 zeroMemory hring rfl).mpr
    (fun _ _ => hharmless) hrej⟩

/-- An IPv4 header with one bit of its destination address flipped. -/
def corruptPacket : List UInt8 :=
  [0x45, 0x00, 0x00, 0x14, 0x00, 0x01, 0x40, 0x00, 0x40, 0x11, 0x26, 0xD6, 0x0A, 0x00, 0x00, 0x01,
    0x0A, 0x00, 0x00, 0x03]

/-- A corrupt raw packet is rejected and becomes the context nevertheless. -/
theorem corrupt_packet_becomes_context :
    ¬ (Rejected (arrive freshEcho ⟨false, false, false, corruptPacket⟩)
        (rbToTun noLz4 zeroMemory (arrive freshEcho ⟨false, false, false, corruptPacket⟩) 20) →
      (rbToTun noLz4 zeroMemory (arrive freshEcho ⟨false, false, false, corruptPacket⟩) 20).rohcRx =
        (arrive freshEcho ⟨false, false, false, corruptPacket⟩).rohcRx) := by
  have hring := arrive_holds (f := ⟨false, false, false, corruptPacket⟩)
    (rbInit_holds fun _ => 0) (e := freshEcho) (by decide)
  obtain ⟨hrejected, hcontext⟩ := rbToTun_judged noLz4 zeroMemory hring rfl (by decide) (by decide)
  intro hkept
  have hsame := hcontext.symm.trans (hkept (hrejected.mpr (by decide +kernel)))
  exact absurd (congrArg ROHCState.contextValid hsame) (by decide +kernel)

end EchoProtocol.RejectedFrames
