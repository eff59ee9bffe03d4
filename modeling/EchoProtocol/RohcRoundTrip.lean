import EchoProtocol.RohcCompression

/-!
# Packets rebuilt as they were

A compressed packet is rebuilt as it was exactly when the receiver's context agrees with it in
the bytes that its header does not carry.
-/
namespace EchoProtocol.Rohc
open Bytes IpChecksum

/-- An IPv4 packet without options whose total length and checksum are right. -/
structure WellFormedIpv4 (packet : List UInt8) : Prop where
  first : byteAt packet 0 = 0x45
  length : 20 ≤ packet.length
  total : wordAt (byteAt packet) 2 = packet.length
  checksum : wordAt (byteAt packet) 10 = ipChecksum (setChecksum (byteAt packet) 0) 20

instance (packet : List UInt8) : Decidable (WellFormedIpv4 packet) :=
  decidable_of_iff (byteAt packet 0 = 0x45 ∧ 20 ≤ packet.length ∧
      wordAt (byteAt packet) 2 = packet.length ∧
      wordAt (byteAt packet) 10 = ipChecksum (setChecksum (byteAt packet) 0) 20)
    ⟨fun ⟨h0, hlen, htotal, hsum⟩ => ⟨h0, hlen, htotal, hsum⟩,
      fun h => ⟨h.first, h.length, h.total, h.checksum⟩⟩

theorem WellFormedIpv4.version {packet : List UInt8} (h : WellFormedIpv4 packet) :
    version (byteAt packet 0) = 0x40 := by
  rw [h.first]
  decide

theorem bytes_of_wordAt {header : ℕ → UInt8} {i c : ℕ} (h : wordAt header i = c) :
    header i = checksumHigh c ∧ header (i + 1) = checksumLow c := by
  subst h
  have hlo := (header (i + 1)).toNat_lt
  have hhi := (header i).toNat_lt
  have hword : wordAt header i = (header i).toNat * 256 + (header (i + 1)).toNat := by
    rw [wordAt, ← Nat.shiftLeft_add_eq_or_of_lt hlo, Nat.shiftLeft_eq]
  constructor
  · rw [checksumHigh, show 0xFF = 2 ^ 8 - 1 from rfl, Nat.and_two_pow_sub_one_eq_mod,
      Nat.shiftRight_eq_div_pow, hword,
      show ((header i).toNat * 256 + (header (i + 1)).toNat) / 2 ^ 8 % 2 ^ 8 = (header i).toNat by omega]
    exact UInt8.ofNat_toNat.symm
  · rw [checksumLow, show 0xFF = 2 ^ 8 - 1 from rfl, Nat.and_two_pow_sub_one_eq_mod, hword,
      show ((header i).toNat * 256 + (header (i + 1)).toNat) % 2 ^ 8 = (header (i + 1)).toNat by omega]
    exact UInt8.ofNat_toNat.symm

theorem setChecksum_congr {a b : ℕ → UInt8} {c i : ℕ} (h : i ≠ 10 → i ≠ 11 → a i = b i) :
    setChecksum a c i = setChecksum b c i := by
  unfold setChecksum
  by_cases h11 : i = 11
  · rw [h11, Function.update_self, Function.update_self]
  · rw [Function.update_of_ne h11, Function.update_of_ne h11]
    by_cases h10 : i = 10
    · rw [h10, Function.update_self, Function.update_self]
    · rw [Function.update_of_ne h10, Function.update_of_ne h10]
      exact h h10 h11

theorem setChecksum_self {header : ℕ → UInt8} {c : ℕ} (h10 : header 10 = checksumHigh c)
    (h11 : header 11 = checksumLow c) : setChecksum header c = header := by
  rw [setChecksum, ← h10, Function.update_eq_self, ← h11, Function.update_eq_self]

theorem WellFormedIpv4.verifies {packet : List UInt8} (h : WellFormedIpv4 packet)
    {memory : ℕ → UInt8} (hmemory : ∀ i < 20, memory i = byteAt packet i) :
    ipChecksum memory 20 = 0 := by
  obtain ⟨h10, h11⟩ := bytes_of_wordAt h.checksum
  have hsum : ipChecksum (setChecksum (byteAt packet)
      (ipChecksum (setChecksum (byteAt packet) 0) 20)) 20 = 0 := ipChecksum_setChecksum (by omega)
  rw [setChecksum_self h10 h11] at hsum
  rw [ipChecksum_congr rfl hmemory, hsum]

/-- Filling in length and checksum completes a header that is right in all other bytes. -/
theorem finishIpv4_completes {packet : List UInt8} {r : ℕ → UInt8} {n : ℕ} (heven : n % 2 = 0)
    (htotal : wordAt (byteAt packet) 2 = packet.length)
    (hchecksum : wordAt (byteAt packet) 10 = ipChecksum (setChecksum (byteAt packet) 0) n)
    (hr : ∀ i < n, i ∉ [2, 3, 10, 11] → r i = byteAt packet i) {i : ℕ} (hi : i < n) :
    finishIpv4 r n packet.length i = byteAt packet i := by
  obtain ⟨h2, h3⟩ := bytes_of_wordAt htotal
  obtain ⟨h10, h11⟩ := bytes_of_wordAt hchecksum
  let sized := Function.update (Function.update r 2 (checksumHigh packet.length)) 3
    (checksumLow packet.length)
  have hsized : ∀ j < n, j ≠ 10 → j ≠ 11 → sized j = byteAt packet j := by
    intro j hj hne10 hne11
    by_cases hj3 : j = 3
    · rw [hj3]
      exact (Function.update_self 3 _ _).trans h3.symm
    · refine (Function.update_of_ne hj3 _ _).trans ?_
      by_cases hj2 : j = 2
      · rw [hj2]
        exact (Function.update_self 2 _ _).trans h2.symm
      · exact (Function.update_of_ne hj2 _ _).trans (hr j hj (by simp [hj2, hj3, hne10, hne11]))
  have hsum : ipChecksum (setChecksum sized 0) n = ipChecksum (setChecksum (byteAt packet) 0) n :=
    ipChecksum_congr heven fun j hj => setChecksum_congr (hsized j hj)
  change setChecksum sized (ipChecksum (setChecksum sized 0) n) i = byteAt packet i
  rw [hsum, setChecksum_congr (hsized i hi), setChecksum_self h10 h11]

theorem finishIpv4_eq {packet : List UInt8} {r : ℕ → UInt8} (h : WellFormedIpv4 packet)
    (hr : ∀ i < 20, i ∉ [2, 3, 10, 11] → r i = byteAt packet i) {i : ℕ} (hi : i < 20) :
    finishIpv4 r 20 packet.length i = byteAt packet i :=
  finishIpv4_completes rfl h.total h.checksum hr hi

/-- The places that a compressed IPv4 header neither carries nor lets the receiver compute. -/
def AgreesIpv4 (s : ROHCState) (flags : UInt8) (packet : List UInt8) : Prop :=
  ∀ i < 20, i ∉ carriedIpv4 flags → i ∉ [2, 3, 10, 11] → s.ctx i = byteAt packet i

theorem mergedIpv4_of_agrees {past : ℕ → UInt8} {s : ROHCState} {flags : UInt8}
    {packet : List UInt8} (h : AgreesIpv4 s flags packet) {i : ℕ} (hi : i < 20)
    (hplace : i ∉ [2, 3, 10, 11]) : mergedIpv4 past s flags packet i = byteAt packet i := by
  unfold mergedIpv4 contextByte ROHC_CTX_SIZE
  split_ifs with hcarried
  · rfl
  · exact h i hi hcarried hplace
  · omega

theorem carriedIpv4_zero (flags : UInt8) : 0 ∉ carriedIpv4 flags := by
  unfold carriedIpv4
  split_ifs <;> decide

theorem carriedIpv4_subset (flags : UInt8) {i : ℕ} (hi : i ∈ carriedIpv4 flags) :
    i ∈ [1, 4, 5, 6, 7, 8] := by
  unfold carriedIpv4 at hi
  split_ifs at hi <;> simp only [List.cons_append, List.nil_append, List.append_nil, List.mem_cons,
    List.not_mem_nil, or_false] at hi ⊢ <;> omega

theorem payload_length {packet : List UInt8} (h : WellFormedIpv4 packet) :
    20 + (packet.drop 20).length = packet.length := by
  have hlen := h.length
  rw [List.length_drop]
  omega

theorem AgreesIpv4.first {s : ROHCState} {flags : UInt8} {packet : List UInt8}
    (h : AgreesIpv4 s flags packet) (hw : WellFormedIpv4 packet) : s.ctx 0 = 0x45 :=
  (h 0 (by decide) (carriedIpv4_zero flags) (by decide)).trans hw.first

theorem mergedHeader_of_agrees {past : ℕ → UInt8} {s : ROHCState} {flags : UInt8}
    {packet : List UInt8} (h : AgreesIpv4 s flags packet) (hw : WellFormedIpv4 packet) {i : ℕ}
    (hi : i < 20) : mergedHeader past s flags packet (packet.drop 20).length i = byteAt packet i := by
  have hihl : ihl 0x45 = 20 := by decide
  rw [mergedHeader, h.first hw, hihl, payload_length hw]
  exact finishIpv4_eq hw (fun _ hj hplace => mergedIpv4_of_agrees h hj hplace) hi

theorem agrees_of_merged {past : ℕ → UInt8} {s : ROHCState} {flags : UInt8} {packet : List UInt8}
    {n : ℕ} (h : ∀ i < 20, mergedHeader past s flags packet n i = byteAt packet i) :
    AgreesIpv4 s flags packet := by
  intro i hi hcarried hplace
  have hbyte := h i hi
  rw [mergedHeader, finishIpv4_of_ne _ _ _ hplace, mergedIpv4, if_neg hcarried, contextByte,
    if_pos (by unfold ROHC_CTX_SIZE; omega)] at hbyte
  exact hbyte

/-- The context holds the header of the packet but for its length and its checksum. -/
def Mirrors (s : ROHCState) (packet : List UInt8) : Prop :=
  ∀ i < 20, i ∉ [2, 3, 10, 11] → s.ctx i = byteAt packet i

/-- A valid context that agrees with a well-formed packet rebuilds it and then mirrors it. -/
theorem rohcDecompress_of_agrees (past : ℕ → UInt8) {s : ROHCState} {flags : UInt8}
    {packet : List UInt8} (tail : List UInt8) {outLen : ℕ} (hid : flags &&& ROHC_FLAG_IP_ID ≠ 0)
    (h : WellFormedIpv4 packet) (hmax : packet.length ≤ outLen) (hvalid : s.contextValid = true)
    (hagree : AgreesIpv4 s flags packet) :
    ∃ s', rohcDecompress past s (sealedIpv4 flags packet ++ (packet.drop 20 ++ tail))
        (sealedIpv4 flags packet ++ packet.drop 20).length outLen = some (packet, s') ∧
      s'.contextValid = true ∧ Mirrors s' packet := by
  have hlen := h.length
  have hihl : ihl 0x45 = 20 := by decide
  have hheader : tabulate 20 (mergedHeader past s flags packet (packet.drop 20).length) =
      packet.take 20 := by
    refine ext_byteAt (by rw [tabulate_length, List.length_take]; omega) fun i hi => ?_
    rw [tabulate_length] at hi
    rw [byteAt_tabulate, if_pos hi, byteAt_take hi, mergedHeader_of_agrees hagree h hi]
  rw [rohcDecompress_sealedIpv4 past s packet (packet.drop 20) tail outLen hid, hagree.first h, hihl,
    payload_length h, if_pos ⟨hvalid, le_rfl, hmax⟩, hheader, List.take_append_drop]
  refine ⟨_, rfl, hvalid, fun i hi hplace => ?_⟩
  rw [ROHCState.ctx_store]
  split_ifs with hstored
  · exact mergedHeader_of_agrees hagree h hi
  · refine hagree i hi (fun hcarried => hstored ⟨?_, by unfold ROHC_CTX_SIZE; omega⟩) hplace
    exact carriedIpv4_subset flags hcarried

/-- A well-formed packet is rebuilt as it was exactly from a context that agrees with it. -/
theorem rohcDecompress_wellFormed_iff (past : ℕ → UInt8) (s : ROHCState) {flags : UInt8}
    {packet : List UInt8} (tail : List UInt8) {outLen : ℕ} (hid : flags &&& ROHC_FLAG_IP_ID ≠ 0)
    (h : WellFormedIpv4 packet) (hmax : packet.length ≤ outLen) :
    (∃ s', rohcDecompress past s (sealedIpv4 flags packet ++ (packet.drop 20 ++ tail))
        (sealedIpv4 flags packet ++ packet.drop 20).length outLen = some (packet, s')) ↔
      s.contextValid = true ∧ AgreesIpv4 s flags packet := by
  constructor
  · rintro ⟨s', hout⟩
    rw [rohcDecompress_sealedIpv4 past s packet (packet.drop 20) tail outLen hid] at hout
    split_ifs at hout with hcond
    obtain ⟨hpacket, -⟩ := Prod.mk.inj (Option.some.inj hout)
    have hheader : ∀ i < ihl (s.ctx 0),
        mergedHeader past s flags packet (packet.drop 20).length i = byteAt packet i := by
      intro i hi
      rw [← hpacket, byteAt_append_left (by rwa [tabulate_length]), byteAt_tabulate, if_pos hi, hpacket]
    exact ⟨hcond.1, agrees_of_merged fun i hi => hheader i (hi.trans_le hcond.2.1)⟩
  · rintro ⟨hvalid, hagree⟩
    obtain ⟨s', hout, -⟩ := rohcDecompress_of_agrees past tail hid h hmax hvalid hagree
    exact ⟨s', hout⟩

/-- The places that the sender compares; the identification and the length are always sent. -/
def compared : List ℕ := [0, 1, 6, 7, 8, 9, 12, 13, 14, 15, 16, 17, 18, 19]

theorem mem_compared {i : ℕ} (hi : i < 20) (hplace : i ∉ [2, 3, 10, 11]) (h4 : i ≠ 4)
    (h5 : i ≠ 5) : i ∈ compared := by
  simp only [compared, List.mem_cons, List.not_mem_nil, or_false, not_or] at hplace ⊢
  omega

/-- The sender's context agrees with a packet that it compresses. -/
theorem ipv4Flags_agrees {s : ROHCState} {packet : List UInt8} (h : MatchesIpv4 s packet) :
    AgreesIpv4 s (ipv4Flags s packet) packet := by
  intro i hi hcarried hplace
  obtain ⟨-, htos, hflags, httl⟩ := ipv4Flags_spec s packet
  simp only [carriedIpv4, List.mem_append, List.mem_ite_nil_right, List.mem_cons,
    List.not_mem_nil, or_false, not_or, htos, hflags, httl] at hcarried hplace
  obtain ⟨⟨⟨⟨h4, h5⟩, h1⟩, h67⟩, h8⟩ := hcarried
  by_contra hne
  by_cases hi12 : 12 ≤ i
  · refine h.addresses ⟨i - 12, by omega, ?_⟩
    rw [Nat.add_sub_cancel' hi12]
    exact Ne.symm hne
  · have hcases : i = 0 ∨ i = 1 ∨ i = 6 ∨ i = 7 ∨ i = 8 ∨ i = 9 := by omega
    rcases hcases with rfl | rfl | rfl | rfl | rfl | rfl
    · exact hne h.first.symm
    · exact h1 ⟨Ne.symm hne, rfl⟩
    · exact h67 ⟨.inl (Ne.symm hne), .inl rfl⟩
    · exact h67 ⟨.inr (Ne.symm hne), .inr rfl⟩
    · exact h8 ⟨Ne.symm hne, rfl⟩
    · exact hne h.protocol.symm

/-- What the sender does with an IPv4 packet without options that fits its buffer: it sends the
packet as it is, or a header against a context that agrees with the packet. -/
inductive CompressedIpv4 (s : ROHCState) (packet : List UInt8) :
    Except ℤ (List UInt8) × ROHCState → Prop
  | raw (s' : ROHCState) (hvalid : s'.contextValid = true) (hmirrors : Mirrors s' packet) :
      CompressedIpv4 s packet (.ok [], s')
  | compressed (s' : ROHCState) (hvalid : s'.contextValid = true) (hmirrors : Mirrors s' packet)
      (hagree : AgreesIpv4 s (ipv4Flags s packet) packet) :
      CompressedIpv4 s packet (.ok (sealedIpv4 (ipv4Flags s packet) packet ++ packet.drop 20), s')

theorem copyContext_mirrors (s : ROHCState) (packet : List UInt8) :
    Mirrors (s.copyContext packet 20) packet := by
  intro i hi _
  rw [ROHCState.ctx_copyContext, if_pos ⟨hi, by unfold ROHC_CTX_SIZE; omega⟩]

theorem store_mirrors {s : ROHCState} {flags : UInt8} {packet : List UInt8}
    (h : AgreesIpv4 s flags packet) :
    Mirrors (s.store (byteAt packet) [1, 4, 5, 6, 7, 8]) packet := by
  intro i hi hplace
  rw [ROHCState.ctx_store]
  split_ifs with hstored
  · rfl
  · exact h i hi (fun hcarried => hstored ⟨carriedIpv4_subset flags hcarried,
      by unfold ROHC_CTX_SIZE; omega⟩) hplace

theorem rohcCompress_wellFormed (s : ROHCState) {packet : List UInt8} {outLen : ℕ}
    (h : WellFormedIpv4 packet) (hfit : packet.length ≤ outLen) :
    CompressedIpv4 s packet (rohcCompress s packet outLen) := by
  have hlen := h.length
  have hihl : ihl (byteAt packet 0) = 20 := by
    rw [h.first]
    decide
  have hcopy : syncedBytes (byteAt packet 0) = 20 := by
    rw [syncedBytes, if_pos h.version, hihl]
    decide
  have hsync : Syncable packet packet.length := .inl ⟨h.version, by omega, by omega, by omega⟩
  have h6 : ¬ MatchesIpv6 s packet := fun hmatch => by
    have hversion := hmatch.version
    rw [h.version] at hversion
    exact absurd hversion (by decide)
  have hcomp := rohcCompress_compression s packet outLen
  generalize rohcCompress s packet outLen = result at hcomp
  cases hcomp with
  | refused _ hnot => exact absurd hsync hnot
  | raw _ _ _ =>
    rw [← copyContext_validate hsync hcopy]
    exact .raw _ rfl (copyContext_mirrors s packet)
  | ipv4 hmatch _ =>
    rw [packedIpv4, hihl]
    exact .compressed _ hmatch.valid (store_mirrors (ipv4Flags_agrees hmatch))
      (ipv4Flags_agrees hmatch)
  | ipv6 hmatch _ => exact absurd hmatch h6
  | fullIpv4 _ hfull =>
    have hheader := ipv4HeaderLen_le (ipv4Flags s packet)
    rw [packedIpv4, hihl, List.length_append, sealedIpv4_length, List.length_drop] at hfull
    omega
  | fullIpv6 hmatch _ => exact absurd hmatch h6

/-- Flags that announce no next header and no traffic class. -/
def PlainIpv6 (flags : UInt8) : Prop := flags = 0 ∨ flags = ROHC_V6_FLAG_HOP_LIMIT

theorem PlainIpv6.sent {flags : UInt8} (h : PlainIpv6 flags) : SentIpv6 flags := by
  rcases h with rfl | rfl
  · exact ⟨rfl, rfl⟩
  · exact ⟨rfl, rfl⟩

theorem restoredIpv6_of_plain {s : ROHCState} {flags : UInt8} (packet : List UInt8)
    (h : PlainIpv6 flags) : restoredIpv6 s flags packet = mergedIpv6 s flags packet := by
  have htc : flags &&& ROHC_V6_FLAG_TC = 0 := by
    rcases h with rfl | rfl <;> rfl
  funext i
  simp [restoredIpv6, htc]

theorem rohcDecompress_sealedIpv6 (past : ℕ → UInt8) (s : ROHCState) {flags : UInt8}
    (packet payload tail : List UInt8) (outLen : ℕ) (h : PlainIpv6 flags) :
    rohcDecompress past s (sealedIpv6 flags packet ++ (payload ++ tail))
        (sealedIpv6 flags packet ++ payload).length outLen =
      if s.contextValid = true ∧ 40 + payload.length ≤ outLen then
        some (tabulate 40 (mergedIpv6 s flags packet) ++ payload,
          s.store (mergedIpv6 s flags packet) [0, 1, 4, 5, 6, 7])
      else none := by
  rw [rohcDecompress_sentIpv6 past s packet payload tail outLen h.sent,
    restoredIpv6_of_plain packet h]

/-- The context agrees with the packet in the bytes that the compressed header does not carry. -/
def AgreesIpv6 (s : ROHCState) (flags : UInt8) (packet : List UInt8) : Prop :=
  ∀ i < 40, i ∉ carriedIpv6 flags → s.ctx i = byteAt packet i

/-- An IPv6 packet is rebuilt as it was exactly from a context that agrees with it. -/
theorem rohcDecompress_ipv6_iff (past : ℕ → UInt8) (s : ROHCState) {flags : UInt8}
    {packet : List UInt8} (tail : List UInt8) {outLen : ℕ} (h : PlainIpv6 flags)
    (hmin : 40 ≤ packet.length) (hmax : packet.length ≤ outLen) :
    (∃ s', rohcDecompress past s (sealedIpv6 flags packet ++ (packet.drop 40 ++ tail))
        (sealedIpv6 flags packet ++ packet.drop 40).length outLen = some (packet, s')) ↔
      s.contextValid = true ∧ AgreesIpv6 s flags packet := by
  have hpayload : 40 + (packet.drop 40).length = packet.length := by
    rw [List.length_drop]
    omega
  rw [rohcDecompress_sealedIpv6 past s packet (packet.drop 40) tail outLen h, hpayload]
  constructor
  · rintro ⟨s', hout⟩
    split_ifs at hout with hcond
    obtain ⟨hpacket, -⟩ := Prod.mk.inj (Option.some.inj hout)
    refine ⟨hcond.1, fun i hi hcarried => ?_⟩
    have hbyte := byteAt_append_left (l := tabulate 40 (mergedIpv6 s flags packet))
      (m := packet.drop 40) (by rwa [tabulate_length])
    rw [hpacket, byteAt_tabulate, if_pos hi, mergedIpv6, if_neg hcarried] at hbyte
    exact hbyte.symm
  · rintro ⟨hvalid, hagree⟩
    have hheader : tabulate 40 (mergedIpv6 s flags packet) = packet.take 40 := by
      refine ext_byteAt (by rw [tabulate_length, List.length_take]; omega) fun i hi => ?_
      rw [tabulate_length] at hi
      rw [byteAt_tabulate, if_pos hi, byteAt_take hi, mergedIpv6]
      split_ifs with hcarried
      · rfl
      · exact hagree i hi hcarried
    rw [if_pos ⟨hvalid, hmax⟩, hheader, List.take_append_drop]
    exact ⟨_, rfl⟩

theorem ipv6Flags_plain {s : ROHCState} {packet : List UInt8} (hnext : byteAt packet 6 = s.ctx 6)
    (htc : ipv6Flags s packet &&& ROHC_V6_FLAG_TC = 0) : PlainIpv6 (ipv6Flags s packet) := by
  unfold ipv6Flags at htc ⊢
  rw [if_neg (not_not.mpr hnext)] at htc ⊢
  split_ifs at htc ⊢
  · exact absurd htc (by decide)
  · exact .inr rfl
  · exact absurd htc (by decide)
  · exact .inl rfl

/-- What the sender does with an IPv6 packet that fits its buffer. -/
inductive CompressedIpv6 (s : ROHCState) (packet : List UInt8) :
    Except ℤ (List UInt8) × ROHCState → Prop
  | raw (s' : ROHCState) (hvalid : s'.contextValid = true) (hversion : version (s'.ctx 0) = 0x60) :
      CompressedIpv6 s packet (.ok [], s')
  | compressed (s' : ROHCState) (hvalid : s'.contextValid = true)
      (hversion : version (s'.ctx 0) = 0x60) (hnext : byteAt packet 6 = s.ctx 6) :
      CompressedIpv6 s packet (.ok (sealedIpv6 (ipv6Flags s packet) packet ++ packet.drop 40), s')

theorem copyContext_version {s : ROHCState} {packet : List UInt8}
    (h : version (byteAt packet 0) = 0x60) :
    version ((s.copyContext packet ROHC_CTX_SIZE).ctx 0) = 0x60 := by
  rw [ROHCState.ctx_copyContext, if_pos (by decide)]
  exact h

theorem rohcCompress_version6 (s : ROHCState) {packet : List UInt8} {outLen : ℕ}
    (h : version (byteAt packet 0) = 0x60) (hmin : 40 ≤ packet.length)
    (hfit : packet.length ≤ outLen) : CompressedIpv6 s packet (rohcCompress s packet outLen) := by
  have hv4 : version (byteAt packet 0) ≠ 0x40 := by
    rw [h]
    decide
  have hsync : Syncable packet packet.length := .inr ⟨h, hmin⟩
  have h4 : ¬ MatchesIpv4 s packet := fun hmatch => hv4 hmatch.version
  have hcomp := rohcCompress_compression s packet outLen
  generalize rohcCompress s packet outLen = result at hcomp
  cases hcomp with
  | refused _ hnot => exact absurd hsync hnot
  | raw _ _ _ =>
    rw [← copyContext_validate hsync (if_neg hv4)]
    exact .raw _ rfl (copyContext_version h)
  | ipv4 hmatch _ => exact absurd hmatch h4
  | ipv6 hmatch _ =>
    refine .compressed _ hmatch.valid ?_ hmatch.next
    rw [ROHCState.ctx_store, if_pos (by decide)]
    change version ((s.ctx 0 &&& 0xF0) ||| (byteAt packet 0 &&& 0x0F)) = 0x60
    rw [version_merge, hmatch.context]
  | fullIpv4 hmatch _ => exact absurd hmatch h4
  | fullIpv6 _ hfull =>
    have hheader := ipv6PayloadStart_le (ipv6Flags s packet)
    rw [packedIpv6_length] at hfull
    omega

end EchoProtocol.Rohc
