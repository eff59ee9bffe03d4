import EchoProtocol.FoldChecksum
import EchoProtocol.RohcCompression

/-!
# Compressed headers with one flipped bit

The CRC notices every flip that leaves the length of the header as it is. Three flags change the
length, and so what the receiver takes for the header.
-/
namespace EchoProtocol.DamagedHeaders
open Bytes IpChecksum Rohc FoldChecksum

/-- A compressed packet with bit `k` of byte `i` inverted. -/
def damage (compressed : List UInt8) (i k : ℕ) : List UInt8 :=
  compressed.set i (byteAt compressed i ^^^ (1 <<< k).toUInt8)

/-- Where the payload of a compressed packet starts. -/
def payloadStart (compressed : List UInt8) : ℕ :=
  if announcesIpv6 compressed then ipv6PayloadStart (byteAt compressed 1)
  else ipv4PayloadStart (byteAt compressed 1)

/-- The flipped flag changes the length of the header, the CRC is right for the wrong length as
well, and the buffers are large enough for what is then taken as the payload. -/
def Mistaken (s : ROHCState) (compressed : List UInt8) (k rebuiltLen : ℕ) : Prop :=
  let damaged := damage compressed 1 k
  let headerLen := ipv4HeaderLen (byteAt damaged 1)
  (k = 1 ∨ k = 2 ∨ k = 3 ∧ ¬ announcesIpv6 compressed) ∧
    byteAt compressed 2 = headerCrc damaged headerLen ∧ headerLen ≤ compressed.length ∧
    (if announcesIpv6 compressed then 40 else ihl (s.ctx 0)) + (compressed.length - headerLen) ≤
      rebuiltLen

theorem damage_length (compressed : List UInt8) (i k : ℕ) :
    (damage compressed i k).length = compressed.length := List.length_set ..

theorem byteAt_damage_self {compressed : List UInt8} {i : ℕ} (k : ℕ) (hi : i < compressed.length) :
    byteAt (damage compressed i k) i = byteAt compressed i ^^^ (1 <<< k).toUInt8 := by
  rw [damage, byteAt_set, if_pos ⟨rfl, hi⟩]

theorem byteAt_damage_of_ne {compressed : List UInt8} {i j : ℕ} (k : ℕ) (h : i ≠ j) :
    byteAt (damage compressed i k) j = byteAt compressed j := by
  rw [damage, byteAt_set, if_neg fun h' => h h'.1]

theorem crcBit_injective : Function.Injective crcBit := by
  have hinverse : Function.LeftInverse (fun c : UInt8 =>
      if c &&& 1 ≠ 0 then ((c ^^^ 0x07) >>> 1) ||| 0x80 else c >>> 1) crcBit := by
    intro c
    revert c
    decide +kernel
  exact hinverse.injective

theorem crcByte_lossless : Lossless crcByte where
  state a := (crcBit_injective.iterate 8).comp fun _ _ h => (UInt8.xor_left_inj a).mp h
  element s := (crcBit_injective.iterate 8).comp fun _ _ h => (UInt8.xor_right_inj s).mp h

theorem headerCrc_eq_take {compressed : List UInt8} {n : ℕ} (hn : n ≤ compressed.length) :
    headerCrc compressed n = crc8 ((compressed.take n).set 2 0) := by
  have hlen : (compressed.take n).length = n := by
    rw [List.length_take]
    omega
  have htabulate : tabulate n (byteAt (compressed.take n ++ compressed.drop n)) = compressed.take n :=
    tabulate_append hlen
  rw [List.take_append_drop] at htabulate
  rw [headerCrc, htabulate]

theorem headerCrc_append {compressed : List UInt8} {n : ℕ} (tail : List UInt8)
    (hn : n ≤ compressed.length) : headerCrc (compressed ++ tail) n = headerCrc compressed n := by
  rw [headerCrc_eq_take hn, headerCrc_eq_take (by rw [List.length_append]; omega),
    List.take_append_of_le_length hn]

/-- A flip in the bytes that the CRC covers, or in the CRC itself, leaves a wrong CRC. -/
theorem crc_damaged_ne {compressed : List UInt8} {n i k : ℕ} (hn : n ≤ compressed.length)
    (hcrc : byteAt compressed 2 = headerCrc compressed n) (htwo : 2 < n) (hi : i < n) (hk : k < 8) :
    byteAt (damage compressed i k) 2 ≠ headerCrc (damage compressed i k) n := by
  have hlen := damage_length compressed i k
  have hflip := xor_bit_ne hk (byteAt compressed i)
  have htake : (damage compressed i k).take n = (compressed.take n).set i
      (byteAt compressed i ^^^ (1 <<< k).toUInt8) := List.take_set ..
  rw [headerCrc_eq_take (hlen ▸ hn), htake]
  rw [headerCrc_eq_take hn] at hcrc
  by_cases h2 : i = 2
  · subst h2
    rw [List.set_set, ← hcrc, byteAt_damage_self k (by omega)]
    exact hflip
  · rw [byteAt_damage_of_ne k h2, hcrc, List.set_comm _ _ h2]
    have hheld : i < ((compressed.take n).set 2 0).length := by
      rw [List.length_set, List.length_take]
      omega
    refine (crcByte_lossless.foldl_set_ne hheld ?_ 0xFF).symm
    rw [List.getElem_set_of_ne (Ne.symm h2), List.getElem_take, ← byteAt_eq_getElem]
    exact hflip

/-- What compression returns: a header with a right CRC in front of the payload. -/
structure Packed (s : ROHCState) (compressed : List UInt8) : Prop where
  valid : s.contextValid = true
  length : ipv4HeaderLen (byteAt compressed 1) ≤ compressed.length
  crc : byteAt compressed 2 = headerCrc compressed (ipv4HeaderLen (byteAt compressed 1))
  ipv4 : ¬ announcesIpv6 compressed →
    byteAt compressed 1 &&& ROHC_FLAG_IP_ID ≠ 0 ∧ 20 ≤ ihl (s.ctx 0)
  ipv6 : announcesIpv6 compressed → SentIpv6 (byteAt compressed 1)

theorem packed_ipv4 {s : ROHCState} {packet : List UInt8} (h : MatchesIpv4 s packet) :
    Packed s (packedIpv4 s packet) := by
  have hflags : byteAt (packedIpv4 s packet) 1 = ipv4Flags s packet := sealedIpv4_flags _ _ _
  refine ⟨h.valid, ?_, ?_, fun _ => ⟨?_, ?_⟩, fun hv6 => absurd hv6 (sealedIpv4_not_announces _ _ _)⟩
  · rw [hflags, packedIpv4, List.length_append, sealedIpv4_length]
    exact Nat.le_add_right _ _
  · rw [hflags]
    exact sealedIpv4_crc _ _ _
  · rw [hflags]
    exact (ipv4Flags_spec s packet).1
  · rw [← h.first]
    exact h.ihl

theorem packed_ipv6 {s : ROHCState} {packet : List UInt8} (h : MatchesIpv6 s packet) :
    Packed s (packedIpv6 s packet) := by
  have hsent : SentIpv6 (ipv6Flags s packet) := ipv6Flags_sent h.next
  have hflags : byteAt (packedIpv6 s packet) 1 = ipv6Flags s packet := sealedIpv6_flags _ _ _
  refine ⟨h.valid, ?_, ?_, fun hv4 => absurd (sealedIpv6_announces _ _ _) hv4, fun _ => hflags ▸ hsent⟩
  · rw [hflags, hsent.headerLen, packedIpv6, List.length_append, sealedIpv6_length]
    exact Nat.le_add_right _ _
  · rw [hflags, hsent.headerLen]
    exact sealedIpv6_crc _ _ _

theorem rohcCompress_packed {s : ROHCState} {packet compressed : List UInt8} {outLen : ℕ}
    (hout : (rohcCompress s packet outLen).1 = .ok compressed) (hne : compressed ≠ []) :
    Packed s compressed := by
  have hcomp := rohcCompress_compression s packet outLen
  generalize rohcCompress s packet outLen = result at hcomp hout
  cases hcomp with
  | refused _ _ => cases hout
  | raw _ _ _ => exact absurd (Except.ok.inj hout).symm hne
  | ipv4 h _ => exact Except.ok.inj hout ▸ packed_ipv4 h
  | ipv6 h _ => exact Except.ok.inj hout ▸ packed_ipv6 h
  | fullIpv4 _ _ => cases hout
  | fullIpv6 _ _ => cases hout

theorem Packed.payloadStart_eq {s : ROHCState} {compressed : List UInt8} (h : Packed s compressed) :
    payloadStart compressed = ipv4HeaderLen (byteAt compressed 1) := by
  unfold payloadStart
  split_ifs with hv6
  · exact (h.ipv6 hv6).headerLen.symm
  · exact ipv4PayloadStart_eq (h.ipv4 hv6).1

theorem headerLen_flip : ∀ flags : UInt8, ∀ k < 8, k ≠ 1 → k ≠ 2 → k ≠ 3 →
    ipv4HeaderLen (flags ^^^ (1 <<< k).toUInt8) = ipv4HeaderLen flags := by
  decide +kernel

theorem ipId_flip : ∀ flags : UInt8, ∀ k, k = 1 ∨ k = 2 ∨ k = 3 → flags &&& ROHC_FLAG_IP_ID ≠ 0 →
    (flags ^^^ (1 <<< k).toUInt8) &&& ROHC_FLAG_IP_ID ≠ 0 := by
  rintro flags k (rfl | rfl | rfl) <;> revert flags <;> decide +kernel

theorem sentIpv6_flip : ∀ flags : UInt8, ∀ k, k = 1 ∨ k = 2 → SentIpv6 flags →
    SentIpv6 (flags ^^^ (1 <<< k).toUInt8) := by
  unfold SentIpv6
  rintro flags k (rfl | rfl) <;> revert flags <;> decide +kernel

theorem ipv6PayloadStart_flip : ∀ flags : UInt8,
    ipv6PayloadStart (flags ^^^ (1 <<< 3).toUInt8) = ipv6PayloadStart flags := by
  decide +kernel

theorem two_lt_headerLen (flags : UInt8) : 2 < ipv4HeaderLen flags := by
  unfold ipv4HeaderLen
  omega

theorem Packed.five_le {s : ROHCState} {compressed : List UInt8} (h : Packed s compressed) :
    5 ≤ compressed.length := by
  have hlen := h.length
  unfold ipv4HeaderLen at hlen
  omega

theorem not_decodable_of_headerLen {s : ROHCState} {compressed : List UInt8} (h : Packed s compressed)
    {i k compLen rebuiltLen : ℕ} (hi : i < ipv4HeaderLen (byteAt compressed 1)) (hk : k < 8)
    (hsame : ipv4HeaderLen (byteAt (damage compressed i k) 1) = ipv4HeaderLen (byteAt compressed 1))
    (tail : List UInt8) (valid : Bool) (first : UInt8) :
    ¬ Decodable valid first (damage compressed i k ++ tail) compLen rebuiltLen := by
  have hlen := h.length
  have hfive := h.five_le
  have hdamaged := damage_length compressed i k
  rintro ⟨-, -, hcrc, -⟩
  rw [byteAt_append_left (by omega), byteAt_append_left (by omega), hsame,
    headerCrc_append tail (by omega)] at hcrc
  exact crc_damaged_ne hlen h.crc (two_lt_headerLen _) hi hk hcrc

/-- What decompression tests of a packet with a flipped flag, besides the state it is given. -/
theorem decodable_flag_iff {s : ROHCState} {compressed : List UInt8} (h : Packed s compressed)
    (k : ℕ) (tail : List UInt8) (rebuiltLen : ℕ) :
    Decodable s.contextValid (s.ctx 0) (damage compressed 1 k ++ tail) compressed.length rebuiltLen ↔
      let flags := byteAt compressed 1 ^^^ (1 <<< k).toUInt8
      byteAt compressed 2 = headerCrc (damage compressed 1 k ++ tail) (ipv4HeaderLen flags) ∧
        (announcesIpv6 compressed →
          byteAt compressed 2 = headerCrc (damage compressed 1 k ++ tail) (ipv6PayloadStart flags) ∧
            ipv6PayloadStart flags ≤ compressed.length ∧
            40 + (compressed.length - ipv6PayloadStart flags) ≤ rebuiltLen) ∧
        (¬ announcesIpv6 compressed →
          ipv4PayloadStart flags ≤ compressed.length ∧
            ihl (s.ctx 0) + (compressed.length - ipv4PayloadStart flags) ≤ rebuiltLen) := by
  have hfive := h.five_le
  have hdamaged := damage_length compressed 1 k
  have hzero : byteAt (damage compressed 1 k ++ tail) 0 = byteAt compressed 0 := by
    rw [byteAt_append_left (by omega), byteAt_damage_of_ne k (by decide)]
  have hone : byteAt (damage compressed 1 k ++ tail) 1 =
      byteAt compressed 1 ^^^ (1 <<< k).toUInt8 := by
    rw [byteAt_append_left (by omega), byteAt_damage_self k (by omega)]
  have htwo : byteAt (damage compressed 1 k ++ tail) 2 = byteAt compressed 2 := by
    rw [byteAt_append_left (by omega), byteAt_damage_of_ne k (by decide)]
  have hv6 : announcesIpv6 (damage compressed 1 k ++ tail) ↔ announcesIpv6 compressed := by
    rw [announcesIpv6, announcesIpv6, hzero]
  simp only [Decodable, FitsIpv6, FitsIpv4, hv6, hone, htwo]
  constructor
  · rintro ⟨-, -, hcrc, hipv6, hipv4⟩
    exact ⟨hcrc, hipv6, fun hv4 => (hipv4 hv4).2⟩
  · rintro ⟨hcrc, hipv6, hipv4⟩
    exact ⟨h.valid, hfive, hcrc, hipv6, fun hv4 => ⟨(h.ipv4 hv4).2, hipv4 hv4⟩⟩

/-- Both CRCs of an IPv6 packet run over the length that the flags announce, apart from the flag
that counts for an IPv4 header alone. -/
theorem decodable_iff_mistaken_ipv6 {s : ROHCState} {compressed : List UInt8}
    (h : Packed s compressed) (hv6 : announcesIpv6 compressed) {k : ℕ} (hk : k = 1 ∨ k = 2 ∨ k = 3)
    (tail : List UInt8) (rebuiltLen : ℕ) :
    Decodable s.contextValid (s.ctx 0) (damage compressed 1 k ++ tail) compressed.length rebuiltLen ↔
      Mistaken s compressed k rebuiltLen := by
  have hfive := h.five_le
  have hlen := h.length
  have hsent := h.ipv6 hv6
  have hdamaged := damage_length compressed 1 k
  simp only [decodable_flag_iff h, Mistaken, byteAt_damage_self k (show 1 < compressed.length by omega),
    hv6, not_true_eq_false, and_false, or_false, false_implies, and_true, true_implies, if_true]
  by_cases h3 : k = 3
  · -- the second CRC runs over the header as it was sent
    subst h3
    refine iff_of_false ?_ (by simp)
    rintro ⟨-, hsecond, -⟩
    rw [ipv6PayloadStart_flip, ← hsent.headerLen, headerCrc_append tail (by omega),
      ← byteAt_damage_of_ne 3 (show 1 ≠ 2 by decide)] at hsecond
    have htwo := two_lt_headerLen (byteAt compressed 1)
    exact crc_damaged_ne hlen h.crc htwo (by omega) (by decide) hsecond
  · have hk2 : k = 1 ∨ k = 2 := by omega
    rw [← (sentIpv6_flip _ k hk2 hsent).headerLen]
    constructor
    · rintro ⟨-, hcrc, hheld, hfits⟩
      rw [headerCrc_append tail (by omega)] at hcrc
      exact ⟨hk2, hcrc, hheld, hfits⟩
    · rintro ⟨-, hcrc, hheld, hfits⟩
      rw [← headerCrc_append tail (by omega)] at hcrc
      exact ⟨hcrc, hcrc, hheld, hfits⟩

theorem decodable_iff_mistaken_ipv4 {s : ROHCState} {compressed : List UInt8}
    (h : Packed s compressed) (hv4 : ¬ announcesIpv6 compressed) {k : ℕ} (hk : k = 1 ∨ k = 2 ∨ k = 3)
    (tail : List UInt8) (rebuiltLen : ℕ) :
    Decodable s.contextValid (s.ctx 0) (damage compressed 1 k ++ tail) compressed.length rebuiltLen ↔
      Mistaken s compressed k rebuiltLen := by
  have hfive := h.five_le
  have hdamaged := damage_length compressed 1 k
  have hstart := ipv4PayloadStart_eq (ipId_flip _ k hk (h.ipv4 hv4).1)
  simp only [decodable_flag_iff h, Mistaken, byteAt_damage_self k (show 1 < compressed.length by omega),
    hv4, not_false_eq_true, and_true, true_implies, false_implies, true_and, if_false, hstart]
  constructor
  · rintro ⟨hcrc, hheld, hfits⟩
    rw [headerCrc_append tail (by omega)] at hcrc
    exact ⟨hk, hcrc, hheld, hfits⟩
  · rintro ⟨-, hcrc, hheld, hfits⟩
    rw [← headerCrc_append tail (by omega)] at hcrc
    exact ⟨hcrc, hheld, hfits⟩

/-- A flipped bit in the header of a compressed packet is noticed by a peer with the context of the
sender, unless it changes the length of the header and is mistaken for it. -/
theorem damage_rejected_iff (past : ℕ → UInt8) {s : ROHCState} {packet compressed : List UInt8}
    {outLen : ℕ} (hout : (rohcCompress s packet outLen).1 = .ok compressed) (hne : compressed ≠ [])
    {i k : ℕ} (hi : i < payloadStart compressed) (hk : k < 8) (tail : List UInt8) (rebuiltLen : ℕ) :
    rohcDecompress past s (damage compressed i k ++ tail) compressed.length rebuiltLen = none ↔
      ¬ (i = 1 ∧ Mistaken s compressed k rebuiltLen) := by
  have h := rohcCompress_packed hout hne
  rw [h.payloadStart_eq] at hi
  have hnone : rohcDecompress past s (damage compressed i k ++ tail) compressed.length rebuiltLen =
      none ↔ ¬ Decodable s.contextValid (s.ctx 0) (damage compressed i k ++ tail) compressed.length
        rebuiltLen := by
    rw [rohcDecompress_eq]
    split_ifs with hdec <;> simp [hdec]
  rw [hnone, not_iff_not]
  by_cases hlength : i = 1 ∧ (k = 1 ∨ k = 2 ∨ k = 3)
  · obtain ⟨rfl, hk3⟩ := hlength
    rw [and_iff_right rfl]
    by_cases hv6 : announcesIpv6 compressed
    · exact decodable_iff_mistaken_ipv6 h hv6 hk3 tail rebuiltLen
    · exact decodable_iff_mistaken_ipv4 h hv6 hk3 tail rebuiltLen
  · have hsame : ipv4HeaderLen (byteAt (damage compressed i k) 1) =
        ipv4HeaderLen (byteAt compressed 1) := by
      by_cases h1 : i = 1
      · subst h1
        have hfive := h.five_le
        rw [byteAt_damage_self k (by omega)]
        exact headerLen_flip _ k hk (fun h => hlength ⟨rfl, .inl h⟩)
          (fun h => hlength ⟨rfl, .inr (.inl h)⟩) (fun h => hlength ⟨rfl, .inr (.inr h)⟩)
      · rw [byteAt_damage_of_ne k h1]
    refine iff_of_false (not_decodable_of_headerLen h hi hk hsame tail _ _) ?_
    rintro ⟨h1, hkind, -⟩
    exact hlength ⟨h1, hkind.imp_right (Or.imp_right And.left)⟩

/-- A context on both sides. -/
def sharedContext : ROHCState := rohcSyncContext rohcInit (0x45 :: List.replicate 19 0) 20

/-- A packet of that context with one byte of payload. -/
def unluckyPacket : List UInt8 := 0x45 :: List.replicate 19 0 ++ [0xCD]

def unluckyCompressed : List UInt8 := [0x00, 0x01, 0x2F, 0x00, 0x00, 0xCD]

theorem unluckyPacket_compressed :
    (rohcCompress sharedContext unluckyPacket ROHC_MAX_COMPRESSED).1 = .ok unluckyCompressed := by
  decide +kernel

theorem damage_rejected_iff_unlucky :
    rohcDecompress (fun _ => 0) sharedContext (damage unluckyCompressed 2 0 ++ [])
      unluckyCompressed.length 2560 = none ↔
        ¬ (2 = 1 ∧ Mistaken sharedContext unluckyCompressed 0 2560) :=
  damage_rejected_iff (fun _ => 0) unluckyPacket_compressed (by decide) (by decide) (by decide) [] 2560

/-- With the flag of a type of service set, the payload is taken for one and the CRC is right. -/
theorem flipped_flag_accepted : ¬ ∀ (s : ROHCState) (packet compressed : List UInt8)
    (outLen i k rebuiltLen : ℕ) (past : ℕ → UInt8),
    (rohcCompress s packet outLen).1 = .ok compressed → compressed ≠ [] →
      i < payloadStart compressed → k < 8 →
        rohcDecompress past s (damage compressed i k) compressed.length rebuiltLen = none := by
  intro hclaim
  have hnone := hclaim sharedContext unluckyPacket unluckyCompressed ROHC_MAX_COMPRESSED 1 2 2560
    (fun _ => 0) unluckyPacket_compressed (by decide) (by decide) (by decide)
  have haccepted : (rohcDecompress (fun _ => 0) sharedContext (damage unluckyCompressed 1 2)
      unluckyCompressed.length 2560).isSome = true := by
    decide +kernel
  rw [hnone] at haccepted
  exact Bool.noConfusion haccepted

end EchoProtocol.DamagedHeaders
