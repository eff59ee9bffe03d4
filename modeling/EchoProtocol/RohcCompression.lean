import EchoProtocol.RohcSealed

/-!
# What compression does with a packet

The sender sends a packet as it is and takes it as its context, or compresses it against a
context that matches it, or refuses it.
-/
namespace EchoProtocol.Rohc
open Bytes IpChecksum

theorem nibbles (b : UInt8) : (b &&& 0xF0) ||| (b &&& 0x0F) = b := by
  revert b
  decide +kernel

theorem eq_of_nibbles {a b : UInt8} (hhigh : version a = version b)
    (hlow : a &&& 0x0F = b &&& 0x0F) : a = b := by
  unfold version at hhigh
  rw [← nibbles a, ← nibbles b, hhigh, hlow]

theorem ipv4Flags_spec (s : ROHCState) (packet : List UInt8) :
    ipv4Flags s packet &&& ROHC_FLAG_IP_ID ≠ 0 ∧
      (ipv4Flags s packet &&& ROHC_FLAG_TOS ≠ 0 ↔ byteAt packet 1 ≠ s.ctx 1) ∧
      (ipv4Flags s packet &&& ROHC_FLAG_FLAGS ≠ 0 ↔
        byteAt packet 6 ≠ s.ctx 6 ∨ byteAt packet 7 ≠ s.ctx 7) ∧
      (ipv4Flags s packet &&& ROHC_FLAG_TTL ≠ 0 ↔ byteAt packet 8 ≠ s.ctx 8) := by
  unfold ipv4Flags
  split_ifs with htos hflags httl
  all_goals
    refine ⟨by decide, ?_, ?_, ?_⟩ <;>
      first | exact iff_of_true (by decide) (by assumption) |
        exact iff_of_false (by decide) (by assumption)

theorem version_merge (c b : UInt8) : version ((c &&& 0xF0) ||| (b &&& 0x0F)) = version c := by
  unfold version
  apply UInt8.eq_of_toBitVec_eq
  ext i hi
  simp only [UInt8.toBitVec_and, UInt8.toBitVec_or, BitVec.getElem_and, BitVec.getElem_or]
  interval_cases i <;> simp

theorem ipv6Flags_spec (s : ROHCState) (packet : List UInt8) :
    (ipv6Flags s packet &&& ROHC_V6_FLAG_HOP_LIMIT ≠ 0 ↔ byteAt packet 7 ≠ s.ctx 7) ∧
      (ipv6Flags s packet &&& ROHC_V6_FLAG_TC ≠ 0 ↔
        byteAt packet 0 &&& 0x0F ≠ s.ctx 0 &&& 0x0F ∨ byteAt packet 1 >>> 4 ≠ s.ctx 1 >>> 4) := by
  unfold ipv6Flags
  split_ifs with hnext hhop htc
  all_goals
    refine ⟨?_, ?_⟩ <;>
      first | exact iff_of_true (by decide) (by assumption) |
        exact iff_of_false (by decide) (by assumption)

theorem ipv6Flags_sent {s : ROHCState} {packet : List UInt8} (hnext : byteAt packet 6 = s.ctx 6) :
    SentIpv6 (ipv6Flags s packet) := by
  unfold ipv6Flags
  rw [if_neg (not_not.mpr hnext)]
  split_ifs <;> exact ⟨by decide, by decide⟩

theorem high_of_low (b c : UInt8) : (((b &&& 0x0F) <<< 4) ||| (c &&& 0x0F)) >>> 4 = b &&& 0x0F := by
  apply UInt8.eq_of_toBitVec_eq
  ext i hi
  simp only [UInt8.toBitVec_and, UInt8.toBitVec_or, UInt8.toBitVec_shiftLeft,
    UInt8.toBitVec_shiftRight]
  interval_cases i <;> simp

theorem merge_halves {b c : UInt8} (h : b &&& (0x0F : UInt8) = c >>> 4) :
    ((b &&& 0x0F) <<< 4) ||| (c &&& 0x0F) = c := by
  rw [h]
  clear h
  revert c
  decide +kernel

/-- An IPv4 packet that is compressed against the context, if its buffer is large enough. -/
structure MatchesIpv4 (s : ROHCState) (packet : List UInt8) : Prop where
  valid : s.contextValid = true
  version : version (byteAt packet 0) = 0x40
  ihl : 20 ≤ ihl (byteAt packet 0)
  length : Rohc.ihl (byteAt packet 0) ≤ packet.length
  first : byteAt packet 0 = s.ctx 0
  protocol : byteAt packet 9 = s.ctx 9
  addresses : ¬ memoryDiffers packet s 12 8

structure MatchesIpv6 (s : ROHCState) (packet : List UInt8) : Prop where
  valid : s.contextValid = true
  version : version (byteAt packet 0) = 0x60
  length : 40 ≤ packet.length
  context : Rohc.version (s.ctx 0) = 0x60
  next : byteAt packet 6 = s.ctx 6
  addresses : ¬ memoryDiffers packet s 8 32

theorem MatchesIpv6.not_ipv4 {s : ROHCState} {packet : List UInt8} (h : MatchesIpv6 s packet) :
    ¬ MatchesIpv4 s packet := by
  intro h4
  have hversion := h4.version
  rw [h.version] at hversion
  exact absurd hversion (by decide)

theorem MatchesIpv4.syncable {s : ROHCState} {packet : List UInt8} (h : MatchesIpv4 s packet) :
    Syncable packet packet.length := .inl ⟨h.version, h.ihl.trans h.length, h.ihl, h.length⟩

theorem MatchesIpv6.syncable {s : ROHCState} {packet : List UInt8} (h : MatchesIpv6 s packet) :
    Syncable packet packet.length := .inr ⟨h.version, h.length⟩

/-- The compressed packets, with the CRC in place. -/
def packedIpv4 (s : ROHCState) (packet : List UInt8) : List UInt8 :=
  sealedIpv4 (ipv4Flags s packet) packet ++ packet.drop (ihl (byteAt packet 0))

def packedIpv6 (s : ROHCState) (packet : List UInt8) : List UInt8 :=
  sealedIpv6 (ipv6Flags s packet) packet ++ packet.drop 40

theorem packedIpv4_ne_nil (s : ROHCState) (packet : List UInt8) : packedIpv4 s packet ≠ [] := by
  obtain ⟨fields, hcons⟩ := sealedIpv4_cons (ipv4Flags s packet) packet
  simp [packedIpv4, hcons]

theorem packedIpv6_ne_nil (s : ROHCState) (packet : List UInt8) : packedIpv6 s packet ≠ [] := by
  obtain ⟨fields, hcons⟩ := sealedIpv6_cons (ipv6Flags s packet) packet
  simp [packedIpv6, hcons]

theorem packedIpv6_length (s : ROHCState) (packet : List UInt8) :
    (packedIpv6 s packet).length =
      ipv6PayloadStart (ipv6Flags s packet) + (packet.length - 40) := by
  rw [packedIpv6, List.length_append, sealedIpv6_length, List.length_drop]

/-- What the sender does with a packet, by the reason for it. -/
inductive Compression (s : ROHCState) (packet : List UInt8) (outLen : ℕ) :
    Except ℤ (List UInt8) × ROHCState → Prop
  | refused (code : ℤ) (hsync : ¬ Syncable packet packet.length) :
      Compression s packet outLen (.error code, s)
  | raw (hsync : Syncable packet packet.length) (h4 : ¬ MatchesIpv4 s packet)
      (h6 : ¬ MatchesIpv6 s packet) :
      Compression s packet outLen (.ok [], rohcSyncContext s packet packet.length)
  | ipv4 (h : MatchesIpv4 s packet) (hroom : (packedIpv4 s packet).length ≤ outLen) :
      Compression s packet outLen
        (.ok (packedIpv4 s packet), s.store (byteAt packet) [1, 4, 5, 6, 7, 8])
  | ipv6 (h : MatchesIpv6 s packet) (hroom : (packedIpv6 s packet).length ≤ outLen) :
      Compression s packet outLen
        (.ok (packedIpv6 s packet), s.store (ipv6Refresh s packet) [0, 1, 4, 5, 6, 7])
  | fullIpv4 (h : MatchesIpv4 s packet) (hroom : ¬ (packedIpv4 s packet).length ≤ outLen) :
      Compression s packet outLen (.error (-3), s)
  | fullIpv6 (h : MatchesIpv6 s packet) (hroom : ¬ (packedIpv6 s packet).length ≤ outLen) :
      Compression s packet outLen (.error (-3), s)

theorem ROHCState.validate_of_valid {s : ROHCState} (h : s.contextValid = true) : s.validate = s :=
  ROHCState.ext_ctx h.symm fun _ _ => rfl

theorem copyContext_validate {s : ROHCState} {packet : List UInt8}
    (hsync : Syncable packet packet.length) {copy : ℕ}
    (hcopy : syncedBytes (byteAt packet 0) = copy) :
    (s.copyContext packet copy).validate = rohcSyncContext s packet packet.length := by
  rw [rohcSyncContext_eq, if_pos hsync, hcopy]

theorem copyContext_eq_sync {s : ROHCState} {packet : List UInt8} (hvalid : s.contextValid = true)
    (hsync : Syncable packet packet.length) {copy : ℕ}
    (hcopy : syncedBytes (byteAt packet 0) = copy) :
    s.copyContext packet copy = rohcSyncContext s packet packet.length := by
  rw [← copyContext_validate hsync hcopy]
  exact (ROHCState.validate_of_valid (s := s.copyContext packet copy) hvalid).symm

theorem compressIpv4_compression (s : ROHCState) {packet : List UInt8} (outLen : ℕ)
    (hversion : version (byteAt packet 0) = 0x40) :
    Compression s packet outLen (compressIpv4 s packet outLen) := by
  have hv6 : version (byteAt packet 0) ≠ 0x60 := by
    rw [hversion]
    decide
  have hcopy : syncedBytes (byteAt packet 0) = contextCopy (ihl (byteAt packet 0)) := if_pos hversion
  simp only [compressIpv4]
  by_cases hlen : packet.length < 20 ∨ ihl (byteAt packet 0) < 20 ∨
      packet.length < ihl (byteAt packet 0)
  · have hrefused : ¬ Syncable packet packet.length :=
      not_or.mpr ⟨fun h => by omega, fun h => hv6 h.1⟩
    rcases hlen with h | h
    · rw [if_pos h]
      exact .refused _ hrefused
    · rw [if_pos h, ite_self]
      exact .refused _ hrefused
  · have hsync : Syncable packet packet.length :=
      .inl ⟨hversion, by omega, by omega, by omega⟩
    have h6 : ¬ MatchesIpv6 s packet := fun h => hv6 h.version
    rw [if_neg fun h => hlen (.inl h), if_neg fun h => hlen (.inr h)]
    by_cases hvalid : s.contextValid = true
    · rw [if_neg (by simp [hvalid])]
      split_ifs with hstatic hnibble hroom
      · rw [copyContext_eq_sync hvalid hsync hcopy]
        refine .raw hsync (fun h => ?_) h6
        rcases hstatic with h' | h' | h'
        · exact h' (congrArg version h.first)
        · exact h' h.protocol
        · exact h.addresses h'
      · rw [copyContext_eq_sync hvalid hsync hcopy]
        exact .raw hsync (fun h => hnibble (congrArg (· &&& 0x0F) h.first)) h6
      all_goals
        simp only [not_or, not_not] at hstatic hnibble hlen
        have hmatch : MatchesIpv4 s packet := ⟨hvalid, hversion, by omega, by omega,
          eq_of_nibbles hstatic.1 hnibble, hstatic.2.1, hstatic.2.2⟩
        have hsize : (packedIpv4 s packet).length = (ipv4Header (ipv4Flags s packet) packet).length +
            (packet.drop (ihl (byteAt packet 0))).length := by
          rw [packedIpv4, List.length_append, sealedIpv4, List.length_set]
      · exact .fullIpv4 hmatch (by omega)
      · exact .ipv4 hmatch (by omega)
    · rw [if_pos (by simpa using hvalid), copyContext_validate hsync hcopy]
      exact .raw hsync (fun h => hvalid h.valid) h6

theorem compressIpv6_compression (s : ROHCState) {packet : List UInt8} (outLen : ℕ)
    (hversion : version (byteAt packet 0) = 0x60) :
    Compression s packet outLen (compressIpv6 s packet outLen) := by
  have hv4 : version (byteAt packet 0) ≠ 0x40 := by
    rw [hversion]
    decide
  have hcopy : syncedBytes (byteAt packet 0) = ROHC_CTX_SIZE := if_neg hv4
  have h4 : ¬ MatchesIpv4 s packet := fun h => hv4 h.version
  simp only [compressIpv6]
  by_cases hlen : packet.length < 40
  · rw [if_pos hlen]
    exact .refused _ (not_or.mpr ⟨fun h => hv4 h.1, fun h => by omega⟩)
  · have hsync : Syncable packet packet.length := .inr ⟨hversion, by omega⟩
    rw [if_neg hlen]
    by_cases hvalid : s.contextValid = true
    · rw [if_neg (by simp [hvalid])]
      split_ifs with hstatic hroom
      · rw [copyContext_eq_sync hvalid hsync hcopy]
        refine .raw hsync h4 fun h => ?_
        rcases hstatic with h' | h' | h'
        · exact h' (hversion.trans h.context.symm)
        · exact h' h.next
        · exact h.addresses h'
      all_goals
        simp only [not_or, not_not] at hstatic
        have hmatch : MatchesIpv6 s packet := ⟨hvalid, hversion, by omega,
          hstatic.1.symm.trans hversion, hstatic.2.1, hstatic.2.2⟩
        have hsize : (packedIpv6 s packet).length = (ipv6Header (ipv6Flags s packet) packet).length +
            (packet.drop 40).length := by
          rw [packedIpv6, List.length_append, sealedIpv6, List.length_set]
      · exact .fullIpv6 hmatch (by omega)
      · exact .ipv6 hmatch (by omega)
    · rw [if_pos (by simpa using hvalid), copyContext_validate hsync hcopy]
      exact .raw hsync h4 fun h => hvalid h.valid

theorem rohcCompress_compression (s : ROHCState) (packet : List UInt8) (outLen : ℕ) :
    Compression s packet outLen (rohcCompress s packet outLen) := by
  unfold rohcCompress
  split_ifs with hlen h4 h6
  · refine .refused _ (not_or.mpr ⟨fun h => ?_, fun h => ?_⟩) <;> omega
  · exact compressIpv4_compression s outLen h4
  · exact compressIpv6_compression s outLen h6
  · exact .refused _ (not_or.mpr ⟨fun h => h4 h.1, fun h => h6 h.1⟩)

/-- The cases of compression that succeed exclude each other. -/
theorem Compression.eq {s s' : ROHCState} {packet out : List UInt8} {outLen : ℕ}
    (h : Compression s packet outLen (.ok out, s')) :
    rohcCompress s packet outLen = (.ok out, s') := by
  have hcomp := rohcCompress_compression s packet outLen
  generalize rohcCompress s packet outLen = result at hcomp
  cases h with
  | raw hsync hnot4 hnot6 =>
    cases hcomp with
    | refused _ hnot => exact absurd hsync hnot
    | raw _ _ _ => rfl
    | ipv4 h4 _ => exact absurd h4 hnot4
    | ipv6 h6 _ => exact absurd h6 hnot6
    | fullIpv4 h4 _ => exact absurd h4 hnot4
    | fullIpv6 h6 _ => exact absurd h6 hnot6
  | ipv4 h4 hroom =>
    cases hcomp with
    | refused _ hnot => exact absurd h4.syncable hnot
    | raw _ hnot4 _ => exact absurd h4 hnot4
    | ipv4 _ _ => rfl
    | ipv6 h6 _ => exact absurd h4 h6.not_ipv4
    | fullIpv4 _ hfull => exact absurd hroom hfull
    | fullIpv6 h6 _ => exact absurd h4 h6.not_ipv4
  | ipv6 h6 hroom =>
    cases hcomp with
    | refused _ hnot => exact absurd h6.syncable hnot
    | raw _ _ hnot6 => exact absurd h6 hnot6
    | ipv4 h4 _ => exact absurd h4 h6.not_ipv4
    | ipv6 _ _ => rfl
    | fullIpv4 h4 _ => exact absurd h4 h6.not_ipv4
    | fullIpv6 _ hfull => exact absurd hroom hfull

theorem ROHCState.store_congr {s : ROHCState} {f g : ℕ → UInt8} {places : List ℕ}
    (h : ∀ i ∈ places, f i = g i) : s.store f places = s.store g places := by
  refine ROHCState.ext_ctx rfl fun i _ => ?_
  simp only [ROHCState.ctx_store]
  split_ifs with hi
  · exact h i hi.1
  · rfl

theorem rohcDecompress_packedIpv4_tail (past : ℕ → UInt8) (tx rx : ROHCState)
    (packet tail : List UInt8) (outLen : ℕ) :
    rohcDecompress past rx (packedIpv4 tx packet ++ tail) (packedIpv4 tx packet).length outLen =
      rohcDecompress past rx (packedIpv4 tx packet) (packedIpv4 tx packet).length outLen := by
  have hdec := fun behind => rohcDecompress_sealedIpv4 past rx packet
    (packet.drop (ihl (byteAt packet 0))) behind outLen (ipv4Flags_spec tx packet).1
  have hnone := hdec []
  rw [List.append_nil] at hnone
  rw [packedIpv4, List.append_assoc, hdec tail, hnone]

theorem rohcDecompress_packedIpv6_tail (past : ℕ → UInt8) {tx : ROHCState} (rx : ROHCState)
    {packet : List UInt8} (tail : List UInt8) (outLen : ℕ) (hsent : SentIpv6 (ipv6Flags tx packet)) :
    rohcDecompress past rx (packedIpv6 tx packet ++ tail) (packedIpv6 tx packet).length outLen =
      rohcDecompress past rx (packedIpv6 tx packet) (packedIpv6 tx packet).length outLen := by
  have hdec := fun behind => rohcDecompress_sentIpv6 past rx packet (packet.drop 40) behind outLen hsent
  have hnone := hdec []
  rw [List.append_nil] at hnone
  rw [packedIpv6, List.append_assoc, hdec tail, hnone]

/-- The rebuilt header of a compressed IPv4 packet, from the context of the receiver. -/
def receivedIpv4 (past : ℕ → UInt8) (tx rx : ROHCState) (packet : List UInt8) : ℕ → UInt8 :=
  finishIpv4 (mergedIpv4 past rx (ipv4Flags tx packet) packet) (ihl (byteAt packet 0)) packet.length

theorem rohcDecompress_packedIpv4 (past : ℕ → UInt8) {tx rx : ROHCState} {packet : List UInt8}
    {rebuiltLen : ℕ} (h : MatchesIpv4 tx packet) (hvalid : rx.contextValid = true)
    (hfirst : rx.ctx 0 = byteAt packet 0) (hmax : packet.length ≤ rebuiltLen) :
    rohcDecompress past rx (packedIpv4 tx packet) (packedIpv4 tx packet).length rebuiltLen =
      some (tabulate (ihl (byteAt packet 0)) (receivedIpv4 past tx rx packet) ++
          packet.drop (ihl (byteAt packet 0)),
        rx.store (receivedIpv4 past tx rx packet) [1, 4, 5, 6, 7, 8]) := by
  have hdec := rohcDecompress_sealedIpv4 past rx packet (packet.drop (ihl (byteAt packet 0))) []
    rebuiltLen (ipv4Flags_spec tx packet).1
  have hlen : ihl (byteAt packet 0) + (packet.drop (ihl (byteAt packet 0))).length =
      packet.length := by
    have hle := h.length
    rw [List.length_drop]
    omega
  rw [List.append_nil, hfirst, mergedHeader, hfirst, hlen, if_pos ⟨hvalid, h.ihl, hmax⟩] at hdec
  exact hdec

theorem rohcDecompress_packedIpv6 (past : ℕ → UInt8) {tx rx : ROHCState} {packet : List UInt8}
    {rebuiltLen : ℕ} (h : MatchesIpv6 tx packet) (hvalid : rx.contextValid = true)
    (hmax : packet.length ≤ rebuiltLen) :
    rohcDecompress past rx (packedIpv6 tx packet) (packedIpv6 tx packet).length rebuiltLen =
      some (tabulate 40 (restoredIpv6 rx (ipv6Flags tx packet) packet) ++ packet.drop 40,
        rx.store (restoredIpv6 rx (ipv6Flags tx packet) packet) [0, 1, 4, 5, 6, 7]) := by
  have hdec := rohcDecompress_sentIpv6 past rx packet (packet.drop 40) [] rebuiltLen
    (ipv6Flags_sent h.next)
  have hlen : 40 + (packet.drop 40).length = packet.length := by
    have hle := h.length
    rw [List.length_drop]
    omega
  rw [List.append_nil, hlen, if_pos ⟨hvalid, hmax⟩] at hdec
  exact hdec

theorem mergedIpv6_eq {s : ROHCState} {packet : List UInt8} (h : MatchesIpv6 s packet) {i : ℕ}
    (hi : i ∈ [4, 5, 6, 7]) : mergedIpv6 s (ipv6Flags s packet) packet i = byteAt packet i := by
  obtain ⟨hhop, -⟩ := ipv6Flags_spec s packet
  unfold mergedIpv6
  split_ifs with hcarried
  · rfl
  · simp only [carriedIpv6, List.mem_append, List.mem_cons, List.mem_ite_nil_right, hhop,
      List.not_mem_nil, or_false] at hcarried hi
    obtain rfl | rfl | rfl | rfl := hi
    · simp at hcarried
    · simp at hcarried
    · exact h.next.symm
    · simpa [eq_comm] using hcarried

theorem restoredIpv6_of_le {s : ROHCState} {flags : UInt8} {packet : List UInt8} {i : ℕ}
    (hi : 2 ≤ i) : restoredIpv6 s flags packet i = mergedIpv6 s flags packet i := by
  rw [restoredIpv6, if_neg fun h => by omega, if_neg fun h => by omega]

theorem restoredIpv6_of_tc (s : ROHCState) {flags : UInt8} (packet : List UInt8)
    (htc : flags &&& ROHC_V6_FLAG_TC ≠ 0) :
    restoredIpv6 s flags packet 0 = 0x60 ||| (byteAt packet 0 &&& 0x0F) ∧
      restoredIpv6 s flags packet 1 = ((byteAt packet 0 &&& 0x0F) <<< 4) ||| (s.ctx 1 &&& 0x0F) :=
  ⟨if_pos ⟨htc, rfl⟩, (if_neg fun h => absurd h.2 (by decide)).trans (if_pos ⟨htc, rfl⟩)⟩

theorem restoredIpv6_of_not_tc {s : ROHCState} {flags : UInt8} {packet : List UInt8} {i : ℕ}
    (htc : ¬ flags &&& ROHC_V6_FLAG_TC ≠ 0) (hi : i < 2) : restoredIpv6 s flags packet i = s.ctx i := by
  rw [restoredIpv6, if_neg fun h => htc h.1, if_neg fun h => htc h.1, mergedIpv6, if_neg]
  unfold carriedIpv6
  split_ifs <;> simp <;> omega

end EchoProtocol.Rohc
