import EchoProtocol.RejectedFrames

/-!
# The headers of written packets

Before an IPv4 packet is written to the TUN its checksum is taken over the header length that the
packet states itself. Header compression and the context test that length, the last stage does not.
-/
namespace EchoProtocol.WrittenPackets
open Bytes RingBits IpChecksum Rohc Frames Endpoint Transmit Receive FrameHeader Delivery
  RejectedFrames

/-- The header lies in the packet, and its checksum is right. -/
structure VerifiedHeader (out : List UInt8) : Prop where
  min : 20 ≤ ihl (byteAt out 0)
  max : ihl (byteAt out 0) ≤ out.length
  checksum : ipChecksum (byteAt out) (ihl (byteAt out 0)) = 0

/-- A packet that the last stage takes for IPv4. -/
def TakenForIpv4 (out : List UInt8) : Prop := out.length ≥ 20 ∧ byteAt out 0 &&& 0xF0 = 0x40

/-- Every IPv4 packet that a call writes to the TUN has a verified header. -/
def WritesVerified (before after : Echo) : Prop :=
  ∀ out ∈ after.tunOut.drop before.tunOut.length, TakenForIpv4 out → VerifiedHeader out

/-- The header length is too small or reaches behind the packet, and what is summed up instead of a
header has the right sum. -/
def Overlooked (stack : ℕ → UInt8) (out : List UInt8) : Prop :=
  TakenForIpv4 out ∧ ¬ (20 ≤ ihl (byteAt out 0) ∧ ihl (byteAt out 0) ≤ out.length) ∧
    ipChecksum (stackByte stack out) (ihl (byteAt out 0)) = 0

/-- The three kinds of frames bring no packet that is overlooked. What is rebuilt as an IPv4 packet
is never overlooked. -/
def Checkable (lz4 : Lz4) (memory : Memory) (rx : RxState) (s : ROHCState) (p : List UInt8)
    (n : ℕ) : Prop :=
  if rx.isRohc then
    Decodable s.contextValid (s.ctx 0) p n (SIZE_BUF * 2) → announcesIpv6 p →
      ¬ Overlooked memory.stack (rebuiltPacketIpv6 s p n)
  else if rx.isCompressed then
    ∀ out, lz4.decompressSafe (p.take n) = some out → ¬ Overlooked memory.stack out
  else ¬ Overlooked memory.stack (p.take n)

/-- The same for a payload array as it comes from the ring. -/
def CheckablePayload (lz4 : Lz4) (memory : Memory) (rx : RxState) (s : ROHCState)
    (audioPayload : List UInt8) (packetLen : ℕ) : Prop :=
  match decodeFec rx.isFec audioPayload packetLen with
  | none => True
  | some (p, n) => Checkable lz4 memory rx s p n

/-- The payload array behind a header in the ring. -/
def ringPayload (e : Echo) (packetLen : ℕ) : Option (List UInt8) :=
  let first := readBits 16 e.rxRb
  match first.1 with
  | none => none
  | some _ => (readBits (packetLen * SIZE_BYTE) first.2).1.map packBits

theorem ipChecksum_stackByte {stack : ℕ → UInt8} {out : List UInt8}
    (hlen : ihl (byteAt out 0) ≤ out.length) :
    ipChecksum (stackByte stack out) (ihl (byteAt out 0)) =
      ipChecksum (byteAt out) (ihl (byteAt out 0)) :=
  ipChecksum_congr (ihl_even _) fun _ hi => if_pos (hi.trans_le hlen)

theorem eq_of_mem_finish {stack : ℕ → UInt8} {out out' : List UInt8} {s : ROHCState}
    (h : out' ∈ packets (finish stack (some out, s)).1) : out' = out := by
  simp only [finish] at h
  split_ifs at h
  · cases h
  · exact List.mem_singleton.mp h
  · cases h

theorem finish_verified_iff (stack : ℕ → UInt8) (out : List UInt8) (s : ROHCState) :
    (∀ out' ∈ packets (finish stack (some out, s)).1, TakenForIpv4 out' → VerifiedHeader out') ↔
      ¬ Overlooked stack out := by
  by_cases htaken : TakenForIpv4 out
  · by_cases hsum : ipChecksum (stackByte stack out) (ihl (byteAt out 0)) = 0
    · have hlen : 0 < out.length := lt_of_lt_of_le (by decide) htaken.1
      have hwritten : (finish stack (some out, s)).1 = .written out := by
        simp only [finish]
        rw [if_neg fun hbad => hbad.2.2 hsum, if_pos hlen]
      rw [hwritten, packets, List.forall_mem_singleton, Overlooked, not_and, not_and_or, not_not]
      constructor
      · intro h _
        exact .inl ⟨(h htaken).min, (h htaken).max⟩
      · intro h _
        obtain ⟨hmin, hmax⟩ := (h htaken).resolve_right fun hne => hne hsum
        exact ⟨hmin, hmax, ipChecksum_stackByte hmax ▸ hsum⟩
    · have hrejected : (finish stack (some out, s)).1 = .rejected :=
        (finish_rejected_iff stack out s).mpr ⟨htaken.1, htaken.2, hsum⟩
      rw [hrejected]
      exact iff_of_true (by simp [packets]) fun h => hsum h.2.2
  · exact iff_of_true (fun out' hout' htaken' => absurd (eq_of_mem_finish hout' ▸ htaken') htaken)
      fun h => htaken h.1

theorem finish_none_verified (stack : ℕ → UInt8) (s : ROHCState) :
    ∀ out ∈ packets (finish stack (none, s)).1, TakenForIpv4 out → VerifiedHeader out := by
  rw [finish_none]
  simp [packets]

theorem not_overlooked_rebuiltIpv4 {past : ℕ → UInt8} {s : ROHCState} {p : List UInt8} {n : ℕ}
    (stack : ℕ → UInt8) (hihl : 20 ≤ ihl (s.ctx 0)) :
    ¬ Overlooked stack (rebuiltPacketIpv4 past s p n) := by
  rintro ⟨-, hlen, -⟩
  refine hlen ?_
  rw [rebuiltPacketIpv4_byteAt (by omega), rebuiltIpv4_zero, rebuiltPacketIpv4, List.length_append,
    tabulate_length]
  omega

theorem rebuild_verified_iff (lz4 : Lz4) (memory : Memory) (rx : RxState) (s : ROHCState)
    (p : List UInt8) (n : ℕ) :
    (∀ out ∈ packets (finish memory.stack
        (rebuildPacket lz4 memory.past rx.isRohc rx.isCompressed s p n)).1,
      TakenForIpv4 out → VerifiedHeader out) ↔ Checkable lz4 memory rx s p n := by
  unfold Checkable
  cases hrohc : rx.isRohc with
  | true =>
    rw [if_pos rfl]
    by_cases hdec : Decodable s.contextValid (s.ctx 0) p n (SIZE_BUF * 2)
    · rw [rebuildPacket_decodable lz4 memory.past rx.isCompressed hdec]
      by_cases hv6 : announcesIpv6 p
      · rw [if_pos hv6, finish_verified_iff]
        exact ⟨fun h _ _ => h, fun h => h hdec hv6⟩
      · rw [if_neg hv6, finish_verified_iff]
        exact iff_of_true (not_overlooked_rebuiltIpv4 _ (hdec.2.2.2.2 hv6).1)
          fun _ h6 => absurd h6 hv6
    · rw [rebuildPacket_undecodable lz4 memory.past rx.isCompressed hdec]
      refine iff_of_true ?_ fun h => absurd h hdec
      split_ifs with hagain
      · rw [finish_verified_iff]
        exact not_overlooked_rebuiltIpv4 _ (synced_ihl hagain.1 hagain.2)
      · exact finish_none_verified _ _
  | false =>
    rw [if_neg Bool.false_ne_true]
    cases hcomp : rx.isCompressed with
    | true =>
      rw [if_pos rfl]
      have hstage : rebuildPacket lz4 memory.past false true s p n =
        (lz4.decompressSafe (p.take n), s) := rfl
      rw [hstage]
      cases hout : lz4.decompressSafe (p.take n) with
      | none => exact iff_of_true (finish_none_verified _ _) fun out h => by cases h
      | some out =>
        rw [finish_verified_iff]
        exact ⟨fun h out' heq => Option.some.inj heq ▸ h, fun h => h out rfl⟩
    | false =>
      rw [if_neg Bool.false_ne_true]
      exact finish_verified_iff memory.stack (p.take n) (rohcSyncContext s p n)

theorem judge_verified_iff (lz4 : Lz4) (memory : Memory) (rx : RxState) (s : ROHCState)
    (audioPayload : List UInt8) (packetLen : ℕ) :
    (∀ out ∈ packets (judge lz4 memory rx s audioPayload packetLen).1,
      TakenForIpv4 out → VerifiedHeader out) ↔
      CheckablePayload lz4 memory rx s audioPayload packetLen := by
  unfold CheckablePayload
  cases hdecode : decodeFec rx.isFec audioPayload packetLen with
  | none =>
    have hjudge : judge lz4 memory rx s audioPayload packetLen = (.rejected, s) := by
      simp only [judge, hdecode]
    rw [hjudge]
    exact iff_of_true (by simp [packets]) trivial
  | some decoded =>
    obtain ⟨p, n⟩ := decoded
    rw [judge_decoded hdecode]
    exact rebuild_verified_iff lz4 memory rx s p n

theorem writesVerified_of_tunOut {before after : Echo} {new : List (List UInt8)}
    (h : after.tunOut = before.tunOut ++ new) :
    WritesVerified before after ↔ ∀ out ∈ new, TakenForIpv4 out → VerifiedHeader out := by
  rw [WritesVerified, h, List.drop_left]

theorem rbToTun_tunOut (lz4 : Lz4) (memory : Memory) (e : Echo) (packetLen : ℕ) :
    (rbToTun lz4 memory e packetLen).tunOut = e.tunOut ++
      if packetLen = 0 ∨ packetLen > SIZE_BUF * 2 then []
      else match ringPayload e packetLen with
        | none => []
        | some audioPayload => packets (judge lz4 memory e.rx e.rohcRx audioPayload packetLen).1 := by
  simp only [rbToTun, ringPayload]
  cases (readBits 16 e.rxRb).1 with
  | none =>
    simp only [rxReset_tunOut, ite_self, List.append_nil]
  | some header =>
    by_cases hlen : packetLen = 0 ∨ packetLen > SIZE_BUF * 2
    · simp only [hlen, if_true, rxReset_tunOut, List.append_nil]
      rfl
    · simp only [hlen, if_false]
      cases (readBits (packetLen * SIZE_BYTE) (readBits 16 e.rxRb).2).1 with
      | none => simp only [rxReset_tunOut, Option.map_none, List.append_nil]
      | some bits => simp only [rxReset_tunOut, processPayload_tunOut, Option.map_some]

/-- Every IPv4 packet that the frame handler writes has a verified header, for every state of the
receiver, exactly if the payload in the ring brings none that is overlooked. -/
theorem writes_verified_iff (lz4 : Lz4) (memory : Memory) (e : Echo) (packetLen : ℕ) :
    WritesVerified e (rbToTun lz4 memory e packetLen) ↔
      (0 < packetLen → packetLen ≤ SIZE_BUF * 2 → ∀ audioPayload,
        ringPayload e packetLen = some audioPayload →
          CheckablePayload lz4 memory e.rx e.rohcRx audioPayload packetLen) := by
  rw [writesVerified_of_tunOut (rbToTun_tunOut lz4 memory e packetLen)]
  by_cases hlen : packetLen = 0 ∨ packetLen > SIZE_BUF * 2
  · rw [if_pos hlen]
    exact iff_of_true (by simp) fun hpos hmax => absurd hlen (by omega)
  · rw [if_neg hlen, forall_prop_of_true (by omega), forall_prop_of_true (by omega)]
    cases ringPayload e packetLen with
    | none => exact iff_of_true (by simp) fun _ h => by cases h
    | some audioPayload =>
      rw [judge_verified_iff]
      exact ⟨fun h _ heq => Option.some.inj heq ▸ h, fun h => h _ rfl⟩

/-- A packet that states a header of four bytes, the sum of which is right. -/
def shortHeaderPacket : List UInt8 := [0x41, 0xFF, 0xBE, 0x00] ++ List.replicate 16 0

def shortHeaderFrame : Frame := ⟨false, false, false, shortHeaderPacket⟩

/-- As a raw frame it is written to the TUN. -/
theorem short_header_written : ¬ WritesVerified (arrive freshEcho shortHeaderFrame)
    (rbToTun noLz4 zeroMemory (arrive freshEcho shortHeaderFrame) 20) := by
  have hring := arrive_holds (f := shortHeaderFrame) (rbInit_holds fun _ => 0) (e := freshEcho)
    (by decide)
  obtain ⟨rb, heq⟩ := rbToTun_ring noLz4 zeroMemory hring (by decide) (by decide)
  have hwritten : (judge noLz4 zeroMemory (arrive freshEcho shortHeaderFrame).rx rohcInit
      (payloadArray shortHeaderPacket) 20).1 = .written shortHeaderPacket := by
    decide +kernel
  have htun : (rbToTun noLz4 zeroMemory (arrive freshEcho shortHeaderFrame) 20).tunOut =
      (arrive freshEcho shortHeaderFrame).tunOut ++ [shortHeaderPacket] := by
    refine (congrArg Echo.tunOut heq).trans ?_
    rw [rxReset_tunOut, processPayload_tunOut]
    exact congrArg (_ ++ packets ·) hwritten
  intro hverified
  have hmin := ((writesVerified_of_tunOut htun).mp hverified shortHeaderPacket
    (List.mem_singleton_self _) ⟨by decide, by decide⟩).min
  revert hmin
  decide

end EchoProtocol.WrittenPackets
