import EchoProtocol.Runs
import EchoProtocol.RohcRebuild

/-!
# The family of a rebuilt packet

The first bit of a compressed packet says which header it stands for. The version and the length
of the rebuilt header come from the context, which may hold a packet of the other family.
-/
namespace EchoProtocol.RohcFamilies
open Bytes IpChecksum Rohc Runs

/-- The calls that change a receiver's context. A compressed packet is the beginning of an array;
`past` is the memory behind the context. -/
inductive Call
  | sync (packet : List UInt8) (packetLen : ℕ)
  | decompress (past : ℕ → UInt8) (compressed : List UInt8) (compLen outLen : ℕ)
      (held : compLen ≤ compressed.length)

def call (s : ROHCState) : Call → ROHCState
  | .sync packet packetLen => rohcSyncContext s packet packetLen
  | .decompress past compressed compLen outLen _ =>
      match rohcDecompress past s compressed compLen outLen with
      | some (_, s') => s'
      | none => s

/-- An IPv4 packet whose length and checksum are right. -/
structure VerifiedIpv4 (packet : List UInt8) : Prop where
  version : version (byteAt packet 0) = 0x40
  header : 20 ≤ ihl (byteAt packet 0)
  length : ihl (byteAt packet 0) ≤ packet.length
  total : wordAt (byteAt packet) 2 = packet.length
  checksum : ipChecksum (byteAt packet) (ihl (byteAt packet 0)) = 0

/-- A rebuilt packet is of the family that the compressed packet announces. -/
def AsAnnounced (compressed packet : List UInt8) : Prop :=
  (¬ announcesIpv6 compressed → VerifiedIpv4 packet) ∧
    (announcesIpv6 compressed → version (byteAt packet 0) = 0x60)

/-- What the call returns is of the announced family. -/
def Returns (s : ROHCState) : Call → Prop
  | .sync _ _ => True
  | .decompress past compressed compLen outLen _ => ∀ packet s',
      rohcDecompress past s compressed compLen outLen = some (packet, s') →
        AsAnnounced compressed packet

/-- The context is of the announced family, unless the packet brings a traffic class, which must
then be four bits; a rebuilt IPv4 packet has a length of 16 bits. -/
def OfFamily (s : ROHCState) (compressed : List UInt8) (compLen : ℕ) : Prop :=
  if announcesIpv6 compressed then
    if byteAt compressed 1 &&& ROHC_V6_FLAG_TC ≠ 0 then
      byteAt compressed (ipv6PayloadStart (byteAt compressed 1) - 1) &&& 0x90 = 0
    else version (s.ctx 0) = 0x60
  else version (s.ctx 0) = 0x40 ∧
    ihl (s.ctx 0) + (compLen - ipv4PayloadStart (byteAt compressed 1)) < 2 ^ 16

/-- Every packet that passes the tests of decompression meets a context of its family. -/
def Meeting (s : ROHCState) : Call → Prop
  | .sync _ _ => True
  | .decompress _ compressed compLen outLen _ =>
      Decodable s.contextValid (s.ctx 0) compressed compLen outLen → OfFamily s compressed compLen

theorem rebuiltPacketIpv4_length (past : ℕ → UInt8) (s : ROHCState) {compressed : List UInt8}
    {compLen : ℕ} (hheld : compLen ≤ compressed.length) :
    (rebuiltPacketIpv4 past s compressed compLen).length =
      ihl (s.ctx 0) + (compLen - ipv4PayloadStart (byteAt compressed 1)) := by
  rw [rebuiltPacketIpv4, List.length_append, tabulate_length, List.length_take, List.length_drop]
  omega

theorem finishIpv4_total (r : ℕ → UInt8) (headerSize totalLen : ℕ) :
    wordAt (finishIpv4 r headerSize totalLen) 2 = totalLen % 2 ^ 16 := by
  refine wordAt_of_bytes ?_ ?_
  · simp only [finishIpv4, setChecksum]
    rw [Function.update_of_ne (by decide), Function.update_of_ne (by decide),
      Function.update_of_ne (by decide), Function.update_self]
    rfl
  · simp only [finishIpv4, setChecksum]
    rw [Function.update_of_ne (by decide), Function.update_of_ne (by decide), Function.update_self]
    rfl

theorem rebuiltPacketIpv4_total (past : ℕ → UInt8) {s : ROHCState} (compressed : List UInt8)
    (compLen : ℕ) (hheader : 20 ≤ ihl (s.ctx 0)) :
    wordAt (byteAt (rebuiltPacketIpv4 past s compressed compLen)) 2 =
      (ihl (s.ctx 0) + (compLen - ipv4PayloadStart (byteAt compressed 1))) % 2 ^ 16 := by
  rw [← finishIpv4_total (readIpv4 past s compressed).2 (ihl (s.ctx 0)), ← rebuiltIpv4]
  unfold wordAt
  rw [rebuiltPacketIpv4_byteAt (by omega), rebuiltPacketIpv4_byteAt (by omega)]

theorem verifiedIpv4_iff (past : ℕ → UInt8) {s : ROHCState} {compressed : List UInt8} {compLen : ℕ}
    (hheld : compLen ≤ compressed.length) (hheader : 20 ≤ ihl (s.ctx 0)) :
    VerifiedIpv4 (rebuiltPacketIpv4 past s compressed compLen) ↔ version (s.ctx 0) = 0x40 ∧
      ihl (s.ctx 0) + (compLen - ipv4PayloadStart (byteAt compressed 1)) < 2 ^ 16 := by
  have hfirst : byteAt (rebuiltPacketIpv4 past s compressed compLen) 0 = s.ctx 0 := by
    rw [rebuiltPacketIpv4_byteAt (by omega), rebuiltIpv4_zero]
  have hlen := rebuiltPacketIpv4_length past s hheld
  have htotal := rebuiltPacketIpv4_total past compressed compLen hheader
  constructor
  · intro h
    have hversion := h.version
    have hbound := h.total
    rw [hfirst] at hversion
    rw [htotal, hlen] at hbound
    exact ⟨hversion, by omega⟩
  · rintro ⟨hversion, hbound⟩
    refine ⟨by rw [hfirst, hversion], by rwa [hfirst], ?_, ?_,
      rebuiltPacketIpv4_verifies hheader fun _ _ => rfl⟩
    · rw [hfirst, hlen]
      omega
    · rw [htotal, hlen, Nat.mod_eq_of_lt hbound]

theorem readIpv6_zero (s : ROHCState) (compressed : List UInt8) :
    (readIpv6 s compressed).2 0 =
      if byteAt compressed 1 &&& ROHC_V6_FLAG_TC ≠ 0 then
        0x60 ||| byteAt compressed (ipv6PayloadStart (byteAt compressed 1) - 1)
      else s.ctx 0 := by
  have hstart := readIpv6_fst s compressed
  simp only [readIpv6] at hstart ⊢
  generalize hr : field compressed (hasFlag (byteAt compressed 1) ROHC_V6_FLAG_HOP_LIMIT) [7]
      (field compressed (hasFlag (byteAt compressed 1) ROHC_V6_FLAG_NEXT_HDR) [6]
        (field compressed true [4, 5] (3, s.ctx))) = r at hstart ⊢
  have hzero : r.2 0 = s.ctx 0 := by
    rw [← hr, field_of_notMem (by decide), field_of_notMem (by decide), field_of_notMem (by decide)]
  unfold hasFlag at hstart ⊢
  by_cases htc : byteAt compressed 1 &&& ROHC_V6_FLAG_TC ≠ 0
  · rw [decide_eq_true htc, trafficClass_fst] at hstart
    rw [decide_eq_true htc, if_pos htc, ← hstart]
    simp [trafficClass]
  · rw [decide_eq_false htc, if_neg htc, ← hzero]
    rfl

theorem rebuiltPacketIpv6_version (s : ROHCState) (compressed : List UInt8) (compLen : ℕ) :
    version (byteAt (rebuiltPacketIpv6 s compressed compLen) 0) = 0x60 ↔
      if byteAt compressed 1 &&& ROHC_V6_FLAG_TC ≠ 0 then
        byteAt compressed (ipv6PayloadStart (byteAt compressed 1) - 1) &&& 0x90 = 0
      else version (s.ctx 0) = 0x60 := by
  have hmerge : ∀ b : UInt8, version (0x60 ||| b) = 0x60 ↔ b &&& 0x90 = 0 := by decide +kernel
  have hfirst : byteAt (rebuiltPacketIpv6 s compressed compLen) 0 = (readIpv6 s compressed).2 0 := by
    rw [rebuiltPacketIpv6, byteAt_append_left (by simp), byteAt_tabulate, if_pos (by decide)]
  rw [hfirst, readIpv6_zero]
  split_ifs
  · exact hmerge _
  · rfl

theorem returns_iff_meeting (s : ROHCState) (c : Call) : Returns s c ↔ Meeting s c := by
  cases c with
  | sync packet packetLen => rfl
  | decompress past compressed compLen outLen hheld =>
    simp only [Returns, Meeting, OfFamily, rohcDecompress_eq, AsAnnounced]
    by_cases hdec : Decodable s.contextValid (s.ctx 0) compressed compLen outLen
    · by_cases hv6 : announcesIpv6 compressed
      · simp only [hdec, hv6, if_true, not_true_eq_false, false_implies, true_and, true_implies,
          ← rebuiltPacketIpv6_version s compressed compLen]
        exact ⟨fun h => h _ _ rfl, fun h packet s' hout => (Prod.mk.inj (Option.some.inj hout)).1 ▸ h⟩
      · simp only [hdec, hv6, if_true, if_false, not_false_eq_true, true_implies, false_implies,
          and_true, ← verifiedIpv4_iff past hheld (hdec.2.2.2.2 hv6).1]
        exact ⟨fun h => h _ _ rfl, fun h packet s' hout => (Prod.mk.inj (Option.some.inj hout)).1 ▸ h⟩
    · simp [hdec]

/-- In every run from the start, each packet that decompression returns is of the announced family
exactly if each accepted packet meets a context of its family. -/
theorem returns_announced_iff (cs : List Call) :
    Meets call Returns rohcInit cs ↔ Meets call Meeting rohcInit cs := by
  have heq : Returns = Meeting := funext₂ fun s c => propext (returns_iff_meeting s c)
  rw [heq]

/-- A context taken from an IPv6 packet whose first byte reads as a header of 20 bytes. -/
def syncIpv6 : Call := .sync (0x65 :: List.replicate 39 0) 40

/-- The shortest compressed packet, which announces an IPv4 header. -/
def announcedIpv4 : Call :=
  .decompress (fun _ => 0) [0, 0, crc8 [0, 0, 0, 0, 0], 0, 0] 5 2560 le_rfl

/-- What is announced as an IPv4 packet comes out with the version of IPv6. -/
theorem family_confused : ¬ Meets call Returns rohcInit [syncIpv6, announcedIpv4] := by
  rintro ⟨-, hreturns, -⟩
  have hfirst : (rohcDecompress (fun _ => 0) (call rohcInit syncIpv6)
      [0, 0, crc8 [0, 0, 0, 0, 0], 0, 0] 5 2560).map (fun out => byteAt out.1 0) = some 0x65 := by
    decide +kernel
  obtain ⟨⟨packet, s'⟩, hout, hbyte⟩ := Option.map_eq_some_iff.mp hfirst
  have hversion := ((hreturns packet s' hout).1 (by decide)).version
  rw [show byteAt packet 0 = 0x65 from hbyte] at hversion
  exact absurd hversion (by decide)

end EchoProtocol.RohcFamilies
