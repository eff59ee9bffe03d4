import EchoProtocol.RohcRoundTrip

/-!
# Which packets are rebuilt byte for byte

Both contexts were set from a packet `p`, and a packet `q` is compressed against it. The parts of
the header of `q` that are neither sent nor compared come from `p`.
-/
namespace EchoProtocol.RohcLossless
open Bytes IpChecksum Rohc

theorem tabulate_append_drop_iff {f : ℕ → UInt8} {q : List UInt8} {n : ℕ} (h : n ≤ q.length) :
    tabulate n f ++ q.drop n = q ↔ ∀ i < n, f i = byteAt q i := by
  constructor
  · intro heq i hi
    rw [← heq, byteAt_append_left (by rwa [tabulate_length]), byteAt_tabulate, if_pos hi]
  · intro hbytes
    have hheader : tabulate n f = q.take n := by
      refine ext_byteAt (by rw [tabulate_length, List.length_take, min_eq_left h]) fun i hi => ?_
      rw [tabulate_length] at hi
      rw [byteAt_tabulate, if_pos hi, byteAt_take hi, hbytes i hi]
    rw [hheader, List.take_append_drop]

/-- The packet that decompression returns. -/
def rebuilt (past : ℕ → UInt8) (rx : ROHCState) (compressed : List UInt8) (rebuiltLen : ℕ) :
    Option (List UInt8) :=
  (rohcDecompress past rx compressed compressed.length rebuiltLen).map Prod.fst

structure IsIpv6 (packet : List UInt8) : Prop where
  version : version (byteAt packet 0) = 0x60
  length : 40 ≤ packet.length

/-- A valid context that holds the first 40 bytes of a packet. -/
structure HoldsHeader (s : ROHCState) (p : List UInt8) : Prop where
  valid : s.contextValid = true
  bytes : ∀ i < 40, s.ctx i = byteAt p i

theorem HoldsHeader.unique {s s' : ROHCState} {p : List UInt8} (h : HoldsHeader s p)
    (h' : HoldsHeader s' p) : s = s' :=
  ROHCState.ext_ctx (h.valid.trans h'.valid.symm) fun i hi => (h.bytes i hi).trans (h'.bytes i hi).symm

def SameFlowLabel (p q : List UInt8) : Prop :=
  byteAt q 1 &&& 0x0F = byteAt p 1 &&& 0x0F ∧ byteAt q 2 = byteAt p 2 ∧ byteAt q 3 = byteAt p 3

def SameTrafficClass (p q : List UInt8) : Prop :=
  byteAt q 0 &&& 0x0F = byteAt p 0 &&& 0x0F ∧ byteAt q 1 >>> 4 = byteAt p 1 >>> 4

/-- The two halves of the traffic class, which lie in two bytes, are equal. -/
def EvenTrafficClass (q : List UInt8) : Prop := byteAt q 0 &&& (0x0F : UInt8) = byteAt q 1 >>> 4

theorem matchesIpv6_of_compressed {tx tx' : ROHCState} {q compressed : List UInt8} {outLen : ℕ}
    (hq : IsIpv6 q) (hout : rohcCompress tx q outLen = (.ok compressed, tx'))
    (hne : compressed ≠ []) : MatchesIpv6 tx q ∧ compressed = packedIpv6 tx q := by
  have hcomp := rohcCompress_compression tx q outLen
  rw [hout] at hcomp
  cases hcomp with
  | raw _ _ _ => exact absurd rfl hne
  | ipv4 h _ =>
    have hversion := h.version
    rw [hq.version] at hversion
    exact absurd hversion (by decide)
  | ipv6 h _ => exact ⟨h, rfl⟩

theorem low_of_merge (b c : UInt8) :
    (((b &&& 0x0F) <<< 4) ||| (c &&& 0x0F)) &&& 0x0F = c &&& 0x0F := by
  apply UInt8.eq_of_toBitVec_eq
  ext i hi
  simp only [UInt8.toBitVec_and, UInt8.toBitVec_or, UInt8.toBitVec_shiftLeft]
  interval_cases i <;> simp

theorem eq_of_halves {b c : UInt8} (hlow : b &&& 0x0F = c &&& 0x0F) (hhigh : b >>> 4 = c >>> 4) :
    b = c := by
  have hhalves : ∀ a : UInt8, ((a >>> 4) <<< 4) ||| (a &&& 0x0F) = a := by decide +kernel
  rw [← hhalves b, ← hhalves c, hlow, hhigh]

theorem mergedIpv6_of_notMem {s : ROHCState} {flags : UInt8} {packet : List UInt8} {i : ℕ}
    (hi : i ∉ [4, 5, 7]) : mergedIpv6 s flags packet i = s.ctx i := by
  simp only [List.mem_cons, List.not_mem_nil, or_false, not_or] at hi
  rw [mergedIpv6, if_neg]
  unfold carriedIpv6
  split_ifs <;> simp [hi]

theorem restoredIpv6_of_four_le {s : ROHCState} {q : List UInt8} (h : MatchesIpv6 s q) {i : ℕ}
    (hi : i < 40) (hfour : 4 ≤ i) : restoredIpv6 s (ipv6Flags s q) q i = byteAt q i := by
  rw [restoredIpv6_of_le (by omega)]
  by_cases hi8 : 8 ≤ i
  · have hsame := h.addresses
    simp only [memoryDiffers, not_exists, not_and, not_not] at hsame
    have hbyte := hsame (i - 8) (by omega)
    rw [Nat.add_sub_cancel' hi8] at hbyte
    rw [mergedIpv6_of_notMem (by simp; omega), hbyte]
  · exact mergedIpv6_eq h (by simp; omega)

theorem restoredIpv6_zero {s : ROHCState} {q : List UInt8} (h : MatchesIpv6 s q) :
    restoredIpv6 s (ipv6Flags s q) q 0 = byteAt q 0 := by
  obtain ⟨-, htc⟩ := ipv6Flags_spec s q
  by_cases hflag : ipv6Flags s q &&& ROHC_V6_FLAG_TC ≠ 0
  · have hversion : byteAt q 0 &&& 0xF0 = 0x60 := h.version
    rw [(restoredIpv6_of_tc s q hflag).1, ← hversion, nibbles]
  · have hsame := mt htc.mpr hflag
    rw [not_or, not_not, not_not] at hsame
    rw [restoredIpv6_of_not_tc hflag (by omega)]
    exact eq_of_nibbles (h.context.trans h.version.symm) hsame.1.symm

/-- Byte 1 holds half of the traffic class, which only byte 0 can restore, and four bits of the
flow label. -/
theorem restoredIpv6_one_iff {s : ROHCState} {q : List UInt8} :
    restoredIpv6 s (ipv6Flags s q) q 1 = byteAt q 1 ↔
      byteAt q 1 &&& 0x0F = s.ctx 1 &&& 0x0F ∧
        ((byteAt q 0 &&& 0x0F = s.ctx 0 &&& 0x0F ∧ byteAt q 1 >>> 4 = s.ctx 1 >>> 4) ∨
          EvenTrafficClass q) := by
  obtain ⟨-, htc⟩ := ipv6Flags_spec s q
  by_cases hflag : ipv6Flags s q &&& ROHC_V6_FLAG_TC ≠ 0
  · have hdiffers := htc.mp hflag
    rw [(restoredIpv6_of_tc s q hflag).2]
    constructor
    · intro hbyte
      rw [← hbyte, low_of_merge, EvenTrafficClass, ← hbyte, high_of_low]
      exact ⟨rfl, .inr rfl⟩
    · rintro ⟨hlow, hsame | heven⟩
      · exact absurd hdiffers (by simp [hsame])
      · exact eq_of_halves ((low_of_merge _ _).trans hlow.symm) ((high_of_low _ _).trans heven)
  · have hsame := mt htc.mpr hflag
    rw [not_or, not_not, not_not] at hsame
    rw [restoredIpv6_of_not_tc hflag (by omega)]
    exact ⟨fun hbyte => ⟨by rw [hbyte], .inl hsame⟩, fun h => eq_of_halves h.1.symm hsame.2.symm⟩

theorem restoredIpv6_iff {s : ROHCState} {p q : List UInt8} (h : MatchesIpv6 s q)
    (hp : HoldsHeader s p) : (∀ i < 40, restoredIpv6 s (ipv6Flags s q) q i = byteAt q i) ↔
      SameFlowLabel p q ∧ (SameTrafficClass p q ∨ EvenTrafficClass q) := by
  have hone := restoredIpv6_one_iff (s := s) (q := q)
  rw [hp.bytes 0 (by omega), hp.bytes 1 (by omega)] at hone
  have hlabel : ∀ i, i = 2 ∨ i = 3 → restoredIpv6 s (ipv6Flags s q) q i = byteAt p i := by
    rintro i (rfl | rfl)
    · rw [restoredIpv6_of_le le_rfl, mergedIpv6_of_notMem (by simp), hp.bytes _ (by omega)]
    · rw [restoredIpv6_of_le (by omega), mergedIpv6_of_notMem (by simp), hp.bytes _ (by omega)]
  constructor
  · intro hall
    obtain ⟨hlow, htraffic⟩ := hone.mp (hall 1 (by omega))
    exact ⟨⟨hlow, (hall 2 (by omega)).symm.trans (hlabel 2 (.inl rfl)),
      (hall 3 (by omega)).symm.trans (hlabel 3 (.inr rfl))⟩, htraffic⟩
  · rintro ⟨⟨hlow, h2, h3⟩, htraffic⟩ i hi
    by_cases hfour : 4 ≤ i
    · exact restoredIpv6_of_four_le h hi hfour
    · have hcases : i = 0 ∨ i = 1 ∨ i = 2 ∨ i = 3 := by omega
      rcases hcases with rfl | rfl | rfl | rfl
      · exact restoredIpv6_zero h
      · exact hone.mpr ⟨hlow, htraffic⟩
      · rw [hlabel 2 (.inl rfl), h2]
      · rw [hlabel 3 (.inr rfl), h3]

/-- A compressed IPv6 packet is rebuilt exactly if its flow label is that of `p` and its traffic
class is that of `p` too or has two equal halves. -/
theorem ipv6_rebuilt_iff (past : ℕ → UInt8) {p q compressed : List UInt8} {tx rx tx' : ROHCState}
    {outLen rebuiltLen : ℕ} (hq : IsIpv6 q) (htx : HoldsHeader tx p) (hrx : HoldsHeader rx p)
    (hout : rohcCompress tx q outLen = (.ok compressed, tx')) (hne : compressed ≠ [])
    (hfits : q.length ≤ rebuiltLen) :
    rebuilt past rx compressed rebuiltLen = some q ↔
      SameFlowLabel p q ∧ (SameTrafficClass p q ∨ EvenTrafficClass q) := by
  obtain ⟨hmatch, rfl⟩ := matchesIpv6_of_compressed hq hout hne
  obtain rfl : tx = rx := htx.unique hrx
  rw [rebuilt, rohcDecompress_packedIpv6 past hmatch hmatch.valid hfits, Option.map_some,
    Option.some_inj, tabulate_append_drop_iff hq.length]
  exact restoredIpv6_iff hmatch htx

/-- An IPv6 packet without payload: the traffic class is the low half of `first` and the high half
of `second`. -/
def bareIpv6 (first second third : UInt8) : List UInt8 :=
  [first, second, third] ++ List.replicate 37 0

def syncedIpv6 : ROHCState := rohcSyncContext rohcInit (bareIpv6 0x60 0 0) 40

theorem synced_holds : HoldsHeader syncedIpv6 (bareIpv6 0x60 0 0) :=
  ⟨by decide +kernel, by decide +kernel⟩

theorem bareIpv6_matches {first second third : UInt8} (h : first &&& 0xF0 = 0x60) :
    MatchesIpv6 syncedIpv6 (bareIpv6 first second third) := by
  have hzero : ∀ i < 32, syncedIpv6.ctx (8 + i) = 0 := by decide +kernel
  have hnext : syncedIpv6.ctx 6 = 0 := by decide +kernel
  refine ⟨by decide +kernel, h, by simp [bareIpv6], by decide +kernel, hnext.symm, ?_⟩
  rintro ⟨i, hi, hne⟩
  rw [hzero i hi, bareIpv6, byteAt_append_right (by simp; omega), byteAt_replicate_zero] at hne
  exact hne rfl

theorem syncedIpv6_compressed {q : List UInt8} (h : MatchesIpv6 syncedIpv6 q)
    (hlen : q.length ≤ 1280) : ∃ tx', rohcCompress syncedIpv6 q ROHC_MAX_COMPRESSED =
      (.ok (packedIpv6 syncedIpv6 q), tx') := by
  refine ⟨_, (Compression.ipv6 h ?_).eq⟩
  rw [packedIpv6_length]
  have hstart := ipv6PayloadStart_le (ipv6Flags syncedIpv6 q)
  unfold ROHC_MAX_COMPRESSED
  omega

/-- Another traffic class, of two equal halves, another hop limit, and four bytes of payload. -/
def hoppedIpv6 : List UInt8 :=
  [0x65, 0x50, 0, 0, 0, 4, 0, 64] ++ List.replicate 32 0 ++ [0xDE, 0xAD, 0xBE, 0xEF]

theorem hoppedIpv6_matches : MatchesIpv6 syncedIpv6 hoppedIpv6 :=
  ⟨by decide +kernel, by decide, by decide, by decide +kernel, by decide +kernel,
    by decide +kernel⟩

theorem hoppedIpv6_rebuilt : ∃ compressed tx',
    rohcCompress syncedIpv6 hoppedIpv6 ROHC_MAX_COMPRESSED = (.ok compressed, tx') ∧
      compressed ≠ [] ∧ rebuilt (fun _ => 0) syncedIpv6 compressed 2560 = some hoppedIpv6 := by
  obtain ⟨tx', hout⟩ := syncedIpv6_compressed hoppedIpv6_matches (by decide)
  have hne := packedIpv6_ne_nil syncedIpv6 hoppedIpv6
  refine ⟨_, tx', hout, hne, ?_⟩
  exact (ipv6_rebuilt_iff (fun _ => 0) ⟨by decide, by decide⟩ synced_holds synced_holds hout hne
    (by decide)).mpr ⟨⟨by decide, by decide, by decide⟩, .inr rfl⟩

/-- Neither a traffic class with two different halves nor a new flow label is rebuilt. -/
theorem ipv6_header_lost : HoldsHeader syncedIpv6 (bareIpv6 0x60 0 0) ∧
    ∀ q ∈ [bareIpv6 0x60 0x50 0, bareIpv6 0x60 0 1], ∃ compressed tx',
      rohcCompress syncedIpv6 q ROHC_MAX_COMPRESSED = (.ok compressed, tx') ∧ compressed ≠ [] ∧
        rebuilt (fun _ => 0) syncedIpv6 compressed 2560 ≠ some q := by
  refine ⟨synced_holds, ?_⟩
  simp only [List.forall_mem_cons, List.not_mem_nil, false_implies, implies_true, and_true]
  have hclass : MatchesIpv6 syncedIpv6 (bareIpv6 0x60 0x50 0) := bareIpv6_matches (by decide)
  have hlabel : MatchesIpv6 syncedIpv6 (bareIpv6 0x60 0 1) := bareIpv6_matches (by decide)
  obtain ⟨tx₁, h₁⟩ := syncedIpv6_compressed hclass (by decide)
  obtain ⟨tx₂, h₂⟩ := syncedIpv6_compressed hlabel (by decide)
  exact ⟨⟨_, tx₁, h₁, packedIpv6_ne_nil _ _, by decide +kernel⟩,
    ⟨_, tx₂, h₂, packedIpv6_ne_nil _ _, by decide +kernel⟩⟩

/-- An IPv4 packet, with options or without, whose total length and checksum are right. -/
structure ValidIpv4 (packet : List UInt8) : Prop where
  version : version (byteAt packet 0) = 0x40
  header : 20 ≤ ihl (byteAt packet 0)
  length : ihl (byteAt packet 0) ≤ packet.length
  total : wordAt (byteAt packet) 2 = packet.length
  checksum : wordAt (byteAt packet) 10 =
    ipChecksum (setChecksum (byteAt packet) 0) (ihl (byteAt packet 0))

instance (packet : List UInt8) : Decidable (ValidIpv4 packet) :=
  decidable_of_iff (version (byteAt packet 0) = 0x40 ∧ 20 ≤ ihl (byteAt packet 0) ∧
      ihl (byteAt packet 0) ≤ packet.length ∧ wordAt (byteAt packet) 2 = packet.length ∧
      wordAt (byteAt packet) 10 = ipChecksum (setChecksum (byteAt packet) 0) (ihl (byteAt packet 0)))
    ⟨fun ⟨hversion, hihl, hlen, htotal, hsum⟩ => ⟨hversion, hihl, hlen, htotal, hsum⟩,
      fun h => ⟨h.version, h.header, h.length, h.total, h.checksum⟩⟩

theorem ValidIpv4.syncable {p : List UInt8} (h : ValidIpv4 p) : Syncable p p.length :=
  .inl ⟨h.version, h.header.trans h.length, h.header, h.length⟩

theorem ValidIpv4.synced {p : List UInt8} (h : ValidIpv4 p) (s : ROHCState) :
    rohcSyncContext s p p.length = (s.copyContext p (contextCopy (ihl (byteAt p 0)))).validate := by
  rw [rohcSyncContext_eq, if_pos h.syncable, syncedBytes, if_pos h.version]

theorem ValidIpv4.synced_ctx {p : List UInt8} (h : ValidIpv4 p) (s : ROHCState) {i : ℕ}
    (hi : i < ihl (byteAt p 0)) (hroom : i < ROHC_CTX_SIZE) :
    (rohcSyncContext s p p.length).ctx i = byteAt p i := by
  have hcopy : i < contextCopy (ihl (byteAt p 0)) := by
    unfold contextCopy
    split_ifs <;> omega
  rw [h.synced, ROHCState.ctx_validate, ROHCState.ctx_copyContext, if_pos ⟨hcopy, hroom⟩]

/-- The option bytes of `q` are those of `p`, and behind the end of the context those of the memory
there. -/
def OptionsKept (past : ℕ → UInt8) (p q : List UInt8) : Prop :=
  ∀ i, 20 ≤ i → i < ihl (byteAt q 0) →
    (if i < ROHC_CTX_SIZE then byteAt p i else past i) = byteAt q i

theorem matchesIpv4_of_compressed {tx tx' : ROHCState} {q compressed : List UInt8} {outLen : ℕ}
    (hq : ValidIpv4 q) (hout : rohcCompress tx q outLen = (.ok compressed, tx'))
    (hne : compressed ≠ []) : MatchesIpv4 tx q ∧ compressed = packedIpv4 tx q := by
  have hcomp := rohcCompress_compression tx q outLen
  rw [hout] at hcomp
  cases hcomp with
  | raw _ _ _ => exact absurd rfl hne
  | ipv4 h _ => exact ⟨h, rfl⟩
  | ipv6 h _ =>
    have hversion := h.version
    rw [hq.version] at hversion
    exact absurd hversion (by decide)

theorem synced_of_raw {tx₀ tx : ROHCState} {p : List UInt8} {outLen : ℕ}
    (hout : rohcCompress tx₀ p outLen = (.ok [], tx)) : tx = rohcSyncContext tx₀ p p.length := by
  have hcomp := rohcCompress_compression tx₀ p outLen
  generalize hres : rohcCompress tx₀ p outLen = res at hcomp hout
  cases hcomp with
  | refused _ _ => cases hout
  | raw _ _ _ => exact (congrArg Prod.snd hout).symm
  | ipv4 _ _ => exact absurd (Except.ok.inj (congrArg Prod.fst hout)) (packedIpv4_ne_nil _ _)
  | ipv6 _ _ => exact absurd (Except.ok.inj (congrArg Prod.fst hout)) (packedIpv6_ne_nil _ _)
  | fullIpv4 _ _ => cases hout
  | fullIpv6 _ _ => cases hout

/-- The header of a matching packet is rebuilt exactly if its options are kept. -/
theorem receivedIpv4_iff (past : ℕ → UInt8) {p q : List UInt8} {tx₀ rx₀ : ROHCState}
    (hp : ValidIpv4 p) (hq : ValidIpv4 q) (h : MatchesIpv4 (rohcSyncContext tx₀ p p.length) q) :
    (∀ i < ihl (byteAt q 0), receivedIpv4 past (rohcSyncContext tx₀ p p.length)
      (rohcSyncContext rx₀ p p.length) q i = byteAt q i) ↔ OptionsKept past p q := by
  have hheader := hp.header
  have hfirst : byteAt q 0 = byteAt p 0 :=
    h.first.trans (hp.synced_ctx tx₀ (by omega) (by decide))
  have hcontext : ∀ i, i < ihl (byteAt q 0) → contextByte past (rohcSyncContext rx₀ p p.length) i =
      if i < ROHC_CTX_SIZE then byteAt p i else past i := by
    intro i hi
    rw [hfirst] at hi
    unfold contextByte
    split_ifs with hroom
    · exact hp.synced_ctx rx₀ hi hroom
    · rfl
  constructor
  · intro hall i h20 hi
    have hplace : i ∉ [2, 3, 10, 11] := by
      simp
      omega
    have hcarried : i ∉ carriedIpv4 (ipv4Flags (rohcSyncContext tx₀ p p.length) q) := by
      intro hmem
      have hsmall := carriedIpv4_subset _ hmem
      simp at hsmall
      omega
    have hbyte := hall i hi
    rwa [receivedIpv4, finishIpv4_of_ne _ _ _ hplace, mergedIpv4, if_neg hcarried,
      hcontext i hi] at hbyte
  · intro hkept
    have hagree := ipv4Flags_agrees h
    refine fun i hi => finishIpv4_completes (ihl_even _) hq.total hq.checksum ?_ hi
    intro j hj hplace
    unfold mergedIpv4
    split_ifs with hcarried
    · rfl
    · rw [hcontext j hj]
      by_cases h20 : 20 ≤ j
      · exact hkept j h20 hj
      · have hroom : j < ROHC_CTX_SIZE := by
          unfold ROHC_CTX_SIZE
          omega
        rw [if_pos hroom, ← hp.synced_ctx tx₀ (hfirst ▸ hj) hroom]
        exact hagree j (by omega) hcarried hplace

/-- A compressed IPv4 packet is rebuilt exactly if its options are kept. -/
theorem ipv4_rebuilt_iff (past : ℕ → UInt8) {p q compressed : List UInt8}
    {tx₀ rx₀ tx tx' : ROHCState} {rawLen outLen rebuiltLen : ℕ} (hp : ValidIpv4 p) (hq : ValidIpv4 q)
    (hset : rohcCompress tx₀ p rawLen = (.ok [], tx))
    (hout : rohcCompress tx q outLen = (.ok compressed, tx')) (hne : compressed ≠ [])
    (hfits : q.length ≤ rebuiltLen) :
    rebuilt past (rohcSyncContext rx₀ p p.length) compressed rebuiltLen = some q ↔
      OptionsKept past p q := by
  obtain rfl := synced_of_raw hset
  obtain ⟨hmatch, rfl⟩ := matchesIpv4_of_compressed hq hout hne
  have hheader := hp.header
  have hvalid : (rohcSyncContext rx₀ p p.length).contextValid = true := by
    rw [hp.synced]
    rfl
  have hfirst : (rohcSyncContext rx₀ p p.length).ctx 0 = byteAt q 0 :=
    (hp.synced_ctx rx₀ (by omega) (by decide)).trans
      (hmatch.first.trans (hp.synced_ctx tx₀ (by omega) (by decide))).symm
  rw [rebuilt, rohcDecompress_packedIpv4 past hmatch hvalid hfirst hfits, Option.map_some,
    Option.some_inj, tabulate_append_drop_iff hq.length]
  exact receivedIpv4_iff past hp hq hmatch

/-- A packet with one word of options. -/
def nopIpv4 : List UInt8 :=
  [0x46, 0, 0, 24, 0, 0, 0, 0, 0, 0, 0xB7, 0xE6, 0, 0, 0, 0, 0, 0, 0, 0, 1, 1, 1, 0]

def alertIpv4 : List UInt8 :=
  [0x46, 0, 0, 24, 0, 0, 0, 0, 0, 0, 0x25, 0xE3, 0, 0, 0, 0, 0, 0, 0, 0, 0x94, 4, 0, 0]

def syncedIpv4 : ROHCState := rohcSyncContext rohcInit nopIpv4 24

theorem nopIpv4_raw : rohcCompress rohcInit nopIpv4 ROHC_MAX_COMPRESSED = (.ok [], syncedIpv4) :=
  (Compression.raw (by decide) (fun h => absurd h.valid (by decide))
    fun h => absurd h.valid (by decide)).eq

theorem syncedIpv4_compressed {q : List UInt8} (h : MatchesIpv4 syncedIpv4 q)
    (hlen : q.length ≤ 1280) : ∃ tx', rohcCompress syncedIpv4 q ROHC_MAX_COMPRESSED =
      (.ok (packedIpv4 syncedIpv4 q), tx') := by
  refine ⟨_, (Compression.ipv4 h ?_).eq⟩
  have hheader := ipv4HeaderLen_le (ipv4Flags syncedIpv4 q)
  rw [packedIpv4, List.length_append, sealedIpv4_length, List.length_drop]
  unfold ROHC_MAX_COMPRESSED
  omega

/-- The same options, another identification and time to live, and four bytes of payload. -/
def nextIpv4 : List UInt8 :=
  [0x46, 0, 0, 28, 0, 7, 0, 0, 63, 0, 0x78, 0xDB, 0, 0, 0, 0, 0, 0, 0, 0, 1, 1, 1, 0,
    0xDE, 0xAD, 0xBE, 0xEF]

theorem nextIpv4_matches : MatchesIpv4 syncedIpv4 nextIpv4 :=
  ⟨by decide +kernel, by decide, by decide, by decide, by decide +kernel, by decide +kernel,
    by decide +kernel⟩

theorem alertIpv4_matches : MatchesIpv4 syncedIpv4 alertIpv4 :=
  ⟨by decide +kernel, by decide, by decide, by decide, by decide +kernel, by decide +kernel,
    by decide +kernel⟩

theorem nextIpv4_rebuilt : ∃ compressed tx',
    rohcCompress syncedIpv4 nextIpv4 ROHC_MAX_COMPRESSED = (.ok compressed, tx') ∧
      compressed ≠ [] ∧ rebuilt (fun _ => 0) syncedIpv4 compressed 2560 = some nextIpv4 := by
  obtain ⟨tx', hout⟩ := syncedIpv4_compressed nextIpv4_matches (by decide)
  have hne := packedIpv4_ne_nil syncedIpv4 nextIpv4
  have hkept : OptionsKept (fun _ => 0) nopIpv4 nextIpv4 := by
    intro i h20 hi
    have hihl : ihl (byteAt nextIpv4 0) = 24 := by decide
    obtain ⟨j, rfl⟩ := Nat.exists_eq_add_of_le h20
    have hj : j < 4 := by omega
    interval_cases j <;> rfl
  refine ⟨_, tx', hout, hne, ?_⟩
  exact (ipv4_rebuilt_iff (fun _ => 0) (by decide +kernel) (by decide +kernel) nopIpv4_raw hout hne
    (by decide)).mpr hkept

/-- The options of a packet are replaced by those of the packet the contexts were set from. -/
theorem options_lost : ValidIpv4 nopIpv4 ∧ ValidIpv4 alertIpv4 ∧
    rohcCompress rohcInit nopIpv4 ROHC_MAX_COMPRESSED = (.ok [], syncedIpv4) ∧
    ∃ compressed tx', rohcCompress syncedIpv4 alertIpv4 ROHC_MAX_COMPRESSED = (.ok compressed, tx') ∧
      compressed ≠ [] ∧ rebuilt (fun _ => 0) syncedIpv4 compressed 2560 ≠ some alertIpv4 := by
  obtain ⟨tx', hout⟩ := syncedIpv4_compressed alertIpv4_matches (by decide)
  exact ⟨by decide +kernel, by decide +kernel, nopIpv4_raw, _, tx', hout, packedIpv4_ne_nil _ _,
    by decide +kernel⟩

end EchoProtocol.RohcLossless
