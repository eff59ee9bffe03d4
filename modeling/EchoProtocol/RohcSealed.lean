import EchoProtocol.RohcRebuild

/-!
# Compressed packets and what they are rebuilt to

A compressed header carries some bytes of the packet; the rebuilt header has these and takes
the others from the receiver's context.
-/
namespace EchoProtocol.Rohc
open Bytes IpChecksum

/-- Writes bytes to places of a header, one after another. -/
def overwrite (r : ℕ → UInt8) : List ℕ → List UInt8 → ℕ → UInt8
  | place :: places, b :: bytes => overwrite (Function.update r place b) places bytes
  | _, _ => r

theorem moveBytes_append {pre bytes rest : List UInt8} {places : List ℕ} {r : ℕ → UInt8}
    (h : bytes.length = places.length) :
    moveBytes (pre ++ bytes ++ rest) places pre.length r = overwrite r places bytes := by
  induction places generalizing pre bytes r with
  | nil =>
    cases bytes
    · rfl
    · rfl
  | cons place places ih =>
    cases bytes with
    | nil => simp at h
    | cons b bytes =>
      have hread : byteAt (pre ++ b :: bytes ++ rest) pre.length = b := by
        rw [List.append_assoc, byteAt_append_right le_rfl, Nat.sub_self]
        rfl
      have hnext : moveBytes (pre ++ [b] ++ bytes ++ rest) places (pre ++ [b]).length
          (Function.update r place b) = overwrite (Function.update r place b) places bytes :=
        ih (Nat.succ.inj h)
      rw [List.length_append, List.length_singleton, List.append_assoc pre] at hnext
      rw [moveBytes, hread]
      exact hnext

theorem overwrite_map (r f : ℕ → UInt8) (places : List ℕ) (i : ℕ) :
    overwrite r places (places.map f) i = if i ∈ places then f i else r i := by
  induction places generalizing r with
  | nil => rfl
  | cons place places ih =>
    rw [List.map_cons, overwrite, ih]
    by_cases hi : i = place
    · subst hi
      simp
    · simp [hi]

theorem optionalField_length (flags flag : UInt8) (bytes : List UInt8) :
    (optionalField flags flag bytes).length = flagBytes flags flag bytes.length := by
  unfold optionalField flagBytes
  split_ifs <;> rfl

theorem field_present {compressed pre rest : List UInt8} {places : List ℕ} {f : ℕ → UInt8}
    (r : ℕ → UInt8) (h : compressed = pre ++ places.map f ++ rest) :
    field compressed true places (pre.length, r) =
      ((pre ++ places.map f).length, fun i => if i ∈ places then f i else r i) := by
  subst h
  refine Prod.ext (by simp [field]) (funext fun i => ?_)
  simp only [field, if_true]
  rw [moveBytes_append (List.length_map f), overwrite_map]

theorem field_optionalField {compressed pre rest : List UInt8} {flags flag : UInt8}
    {places : List ℕ} {f : ℕ → UInt8} (r : ℕ → UInt8)
    (h : compressed = pre ++ optionalField flags flag (places.map f) ++ rest) :
    field compressed (hasFlag flags flag) places (pre.length, r) =
      ((pre ++ optionalField flags flag (places.map f)).length,
        fun i => if flags &&& flag ≠ 0 ∧ i ∈ places then f i else r i) := by
  unfold hasFlag
  by_cases hflag : flags &&& flag ≠ 0
  · rw [optionalField, if_pos hflag] at h
    rw [decide_eq_true hflag, field_present r h, optionalField, if_pos hflag]
    simp [hflag]
  · rw [decide_eq_false hflag, optionalField, if_neg hflag]
    simp [field, hflag]

theorem tabulate_append {l rest : List UInt8} {n : ℕ} (h : l.length = n) :
    tabulate n (byteAt (l ++ rest)) = l := by
  refine ext_byteAt (by rw [tabulate_length, h]) fun i hi => ?_
  rw [tabulate_length] at hi
  rw [byteAt_tabulate, if_pos hi, byteAt_append_left (by omega)]

theorem headerCrc_sealed {header rest : List UInt8} {crc : UInt8} {n : ℕ} (hn : header.length = n)
    (hzero : header.set 2 0 = header) : headerCrc (header.set 2 crc ++ rest) n = crc8 header := by
  rw [headerCrc, tabulate_append (by rwa [List.length_set]), List.set_set, hzero]

theorem ipv4Header_length (flags : UInt8) (packet : List UInt8) :
    (ipv4Header flags packet).length = ipv4HeaderLen flags := by
  simp only [ipv4Header, List.length_append, optionalField_length, List.length_cons, List.length_nil,
    ipv4HeaderLen]

theorem ipv4Header_set {flags : UInt8} (crc : UInt8) (packet : List UInt8)
    (hid : flags &&& ROHC_FLAG_IP_ID ≠ 0) :
    (ipv4Header flags packet).set 2 crc =
      [0, flags, crc] ++ optionalField flags ROHC_FLAG_IP_ID ([4, 5].map (byteAt packet)) ++
      optionalField flags ROHC_FLAG_TOS ([1].map (byteAt packet)) ++
      optionalField flags ROHC_FLAG_FLAGS ([6, 7].map (byteAt packet)) ++
      optionalField flags ROHC_FLAG_TTL ([8].map (byteAt packet)) := by
  have hfield : optionalField flags ROHC_FLAG_IP_ID ([4, 5].map (byteAt packet)) =
      [4, 5].map (byteAt packet) := if_pos hid
  rw [hfield]
  rfl

/-- The places of an IPv4 header that the compressed header carries. -/
def carriedIpv4 (flags : UInt8) : List ℕ :=
  [4, 5] ++ (if flags &&& ROHC_FLAG_TOS ≠ 0 then [1] else []) ++
    (if flags &&& ROHC_FLAG_FLAGS ≠ 0 then [6, 7] else []) ++
    (if flags &&& ROHC_FLAG_TTL ≠ 0 then [8] else [])

/-- The header before its length and checksum are filled in. -/
def mergedIpv4 (past : ℕ → UInt8) (s : ROHCState) (flags : UInt8) (packet : List UInt8) (i : ℕ) :
    UInt8 :=
  if i ∈ carriedIpv4 flags then byteAt packet i else contextByte past s i

theorem readIpv4_header (past : ℕ → UInt8) (s : ROHCState) {flags : UInt8} (crc : UInt8)
    (packet rest : List UInt8) (hid : flags &&& ROHC_FLAG_IP_ID ≠ 0) :
    (readIpv4 past s ((ipv4Header flags packet).set 2 crc ++ rest)).2 =
      mergedIpv4 past s flags packet := by
  have hflags : byteAt ((ipv4Header flags packet).set 2 crc ++ rest) 1 = flags := rfl
  simp only [readIpv4, hflags]
  generalize hC : (ipv4Header flags packet).set 2 crc ++ rest = C
  rw [ipv4Header_set crc packet hid] at hC
  have hstart : 3 = [0, flags, crc].length := rfl
  rw [hstart, field_optionalField _ (by rw [← hC, List.append_assoc, List.append_assoc, List.append_assoc]),
    field_optionalField _ (by rw [← hC, List.append_assoc, List.append_assoc]),
    field_optionalField _ (by rw [← hC, List.append_assoc]), field_optionalField _ hC.symm]
  funext i
  simp only [mergedIpv4, carriedIpv4, List.mem_append, List.mem_ite_nil_right, hid, ne_eq,
    not_false_eq_true, true_and]
  grind

/-- A compressed IPv4 header with its CRC. -/
def sealedIpv4 (flags : UInt8) (packet : List UInt8) : List UInt8 :=
  (ipv4Header flags packet).set 2 (crc8 (ipv4Header flags packet))

theorem sealedIpv4_length (flags : UInt8) (packet : List UInt8) :
    (sealedIpv4 flags packet).length = ipv4HeaderLen flags := by
  rw [sealedIpv4, List.length_set, ipv4Header_length]

theorem sealedIpv4_cons (flags : UInt8) (packet : List UInt8) : ∃ fields,
    sealedIpv4 flags packet = 0 :: flags :: crc8 (ipv4Header flags packet) :: fields := by
  have hset : ∃ fields, ∀ crc, (ipv4Header flags packet).set 2 crc = 0 :: flags :: crc :: fields :=
    ⟨_, fun _ => rfl⟩
  obtain ⟨fields, h⟩ := hset
  exact ⟨fields, h _⟩

theorem sealedIpv4_not_announces (flags : UInt8) (packet rest : List UInt8) :
    ¬ announcesIpv6 (sealedIpv4 flags packet ++ rest) := by
  obtain ⟨fields, hcons⟩ := sealedIpv4_cons flags packet
  have hfirst : byteAt (sealedIpv4 flags packet ++ rest) 0 = 0 := by
    rw [hcons]
    rfl
  rw [announcesIpv6, hfirst]
  decide

theorem sealedIpv4_flags (flags : UInt8) (packet rest : List UInt8) :
    byteAt (sealedIpv4 flags packet ++ rest) 1 = flags := by
  obtain ⟨fields, hcons⟩ := sealedIpv4_cons flags packet
  rw [hcons]
  rfl

theorem sealedIpv4_crc (flags : UInt8) (packet rest : List UInt8) :
    byteAt (sealedIpv4 flags packet ++ rest) 2 =
      headerCrc (sealedIpv4 flags packet ++ rest) (ipv4HeaderLen flags) := by
  obtain ⟨fields, hcons⟩ := sealedIpv4_cons flags packet
  have hsealed : headerCrc (sealedIpv4 flags packet ++ rest) (ipv4HeaderLen flags) =
      crc8 (ipv4Header flags packet) := headerCrc_sealed (ipv4Header_length flags packet) rfl
  rw [hsealed, hcons, List.cons_append, List.cons_append, List.cons_append, byteAt_cons_succ,
    byteAt_cons_succ, byteAt_cons_zero]

theorem not_syncable_of_first {payload : List UInt8} {n : ℕ} (first : UInt8)
    (h : byteAt payload 0 = first) (h4 : version first ≠ 0x40) (h6 : version first ≠ 0x60) :
    ¬ Syncable payload n := by
  rintro (⟨hv, -⟩ | ⟨hv, -⟩)
  · exact h4 (h ▸ hv)
  · exact h6 (h ▸ hv)

theorem sealedIpv4_not_syncable (flags : UInt8) (packet rest : List UInt8) (n : ℕ) :
    ¬ Syncable (sealedIpv4 flags packet ++ rest) n := by
  obtain ⟨fields, hcons⟩ := sealedIpv4_cons flags packet
  refine not_syncable_of_first 0 ?_ (by decide) (by decide)
  rw [hcons]
  rfl

theorem ipv4PayloadStart_eq {flags : UInt8} (hid : flags &&& ROHC_FLAG_IP_ID ≠ 0) :
    ipv4PayloadStart flags = ipv4HeaderLen flags := by
  have hbytes : flagBytes flags ROHC_FLAG_IP_ID 2 = 2 := if_pos hid
  simp only [ipv4PayloadStart, ipv4HeaderLen, hbytes]

/-- The header rebuilt from a compressed IPv4 header. -/
def mergedHeader (past : ℕ → UInt8) (s : ROHCState) (flags : UInt8) (packet : List UInt8)
    (payloadLen : ℕ) : ℕ → UInt8 :=
  finishIpv4 (mergedIpv4 past s flags packet) (ihl (s.ctx 0)) (ihl (s.ctx 0) + payloadLen)

/-- What decompression makes of a compressed IPv4 packet, whatever the context. -/
theorem rohcDecompress_sealedIpv4 (past : ℕ → UInt8) (s : ROHCState) {flags : UInt8}
    (packet payload tail : List UInt8) (outLen : ℕ) (hid : flags &&& ROHC_FLAG_IP_ID ≠ 0) :
    rohcDecompress past s (sealedIpv4 flags packet ++ (payload ++ tail))
        (sealedIpv4 flags packet ++ payload).length outLen =
      if s.contextValid = true ∧ 20 ≤ ihl (s.ctx 0) ∧ ihl (s.ctx 0) + payload.length ≤ outLen then
        some (tabulate (ihl (s.ctx 0)) (mergedHeader past s flags packet payload.length) ++ payload,
          s.store (mergedHeader past s flags packet payload.length) [1, 4, 5, 6, 7, 8])
      else none := by
  have hlen := sealedIpv4_length flags packet
  have hflags := sealedIpv4_flags flags packet (payload ++ tail)
  have hv6 := sealedIpv4_not_announces flags packet (payload ++ tail)
  have hcrc := sealedIpv4_crc flags packet (payload ++ tail)
  have hfive : 5 ≤ ipv4HeaderLen flags := by
    unfold ipv4HeaderLen
    omega
  have hpayload : (sealedIpv4 flags packet ++ payload).length - ipv4HeaderLen flags =
      payload.length := by
    rw [List.length_append, hlen]
    omega
  have hdec : Decodable s.contextValid (s.ctx 0) (sealedIpv4 flags packet ++ (payload ++ tail))
      (sealedIpv4 flags packet ++ payload).length outLen ↔
      s.contextValid = true ∧ 20 ≤ ihl (s.ctx 0) ∧ ihl (s.ctx 0) + payload.length ≤ outLen := by
    simp only [Decodable, FitsIpv4, hflags, ipv4PayloadStart_eq hid, hpayload]
    have hle : ipv4HeaderLen flags ≤ (sealedIpv4 flags packet ++ payload).length := by
      rw [List.length_append, hlen]
      omega
    exact ⟨fun h => ⟨h.1, (h.2.2.2.2 hv6).1, (h.2.2.2.2 hv6).2.2⟩,
      fun h => ⟨h.1, hfive.trans hle, hcrc, fun h6 => absurd h6 hv6, fun _ => ⟨h.2.1, hle, h.2.2⟩⟩⟩
  have hread := readIpv4_header past s (crc8 (ipv4Header flags packet)) packet (payload ++ tail) hid
  rw [← sealedIpv4] at hread
  rw [rohcDecompress_eq, if_congr hdec rfl rfl, if_neg hv6]
  simp only [rebuiltPacketIpv4, refreshedIpv4, rebuiltIpv4, hflags, ipv4PayloadStart_eq hid, hpayload,
    hread]
  rw [← hlen, List.drop_left, List.take_left]
  rfl

/-- A compressed IPv6 header with its CRC. -/
def sealedIpv6 (flags : UInt8) (packet : List UInt8) : List UInt8 :=
  (ipv6Header flags packet).set 2 (crc8 (ipv6Header flags packet))

/-- The flags of a sender that announces no next header, with nothing else in the bits that count
for the length of an IPv4 header. -/
def SentIpv6 (flags : UInt8) : Prop :=
  flags &&& ROHC_V6_FLAG_NEXT_HDR = 0 ∧ flags &&& ROHC_FLAG_FLAGS = 0

theorem SentIpv6.headerLen {flags : UInt8} (h : SentIpv6 flags) :
    ipv4HeaderLen flags = ipv6PayloadStart flags := by
  have hnext : flagBytes flags ROHC_V6_FLAG_NEXT_HDR 1 = 0 := if_neg (not_not.mpr h.1)
  have hfour : flagBytes flags ROHC_FLAG_FLAGS 2 = 0 := if_neg (not_not.mpr h.2)
  have hhop : flagBytes flags ROHC_FLAG_TTL 1 = flagBytes flags ROHC_V6_FLAG_HOP_LIMIT 1 := rfl
  have htc : flagBytes flags ROHC_FLAG_TOS 1 = flagBytes flags ROHC_V6_FLAG_TC 1 := rfl
  unfold ipv4HeaderLen ipv6PayloadStart
  omega

theorem sealedIpv6_length (flags : UInt8) (packet : List UInt8) :
    (sealedIpv6 flags packet).length = ipv6PayloadStart flags := by
  simp only [sealedIpv6, List.length_set, ipv6Header, List.length_append, optionalField_length,
    List.length_cons, List.length_nil, ipv6PayloadStart]

theorem sealedIpv6_cons (flags : UInt8) (packet : List UInt8) : ∃ fields, sealedIpv6 flags packet =
    ROHC_VERSION_V6 :: flags :: crc8 (ipv6Header flags packet) :: fields := by
  have hset : ∃ fields, ∀ crc, (ipv6Header flags packet).set 2 crc =
      ROHC_VERSION_V6 :: flags :: crc :: fields := ⟨_, fun _ => rfl⟩
  obtain ⟨fields, h⟩ := hset
  exact ⟨fields, h _⟩

theorem sealedIpv6_announces (flags : UInt8) (packet rest : List UInt8) :
    announcesIpv6 (sealedIpv6 flags packet ++ rest) := by
  obtain ⟨fields, hcons⟩ := sealedIpv6_cons flags packet
  have hfirst : byteAt (sealedIpv6 flags packet ++ rest) 0 = ROHC_VERSION_V6 := by
    rw [hcons]
    rfl
  rw [announcesIpv6, hfirst]
  decide

theorem sealedIpv6_flags (flags : UInt8) (packet rest : List UInt8) :
    byteAt (sealedIpv6 flags packet ++ rest) 1 = flags := by
  obtain ⟨fields, hcons⟩ := sealedIpv6_cons flags packet
  rw [hcons]
  rfl

theorem sealedIpv6_crc (flags : UInt8) (packet rest : List UInt8) :
    byteAt (sealedIpv6 flags packet ++ rest) 2 =
      headerCrc (sealedIpv6 flags packet ++ rest) (ipv6PayloadStart flags) := by
  obtain ⟨fields, hcons⟩ := sealedIpv6_cons flags packet
  have hheader : (ipv6Header flags packet).length = ipv6PayloadStart flags := by
    rw [← sealedIpv6_length flags packet, sealedIpv6, List.length_set]
  have hsealed : headerCrc (sealedIpv6 flags packet ++ rest) (ipv6PayloadStart flags) =
      crc8 (ipv6Header flags packet) := headerCrc_sealed hheader rfl
  rw [hsealed, hcons, List.cons_append, List.cons_append, List.cons_append, byteAt_cons_succ,
    byteAt_cons_succ, byteAt_cons_zero]

theorem sealedIpv6_not_syncable (flags : UInt8) (packet rest : List UInt8) (n : ℕ) :
    ¬ Syncable (sealedIpv6 flags packet ++ rest) n := by
  obtain ⟨fields, hcons⟩ := sealedIpv6_cons flags packet
  refine not_syncable_of_first ROHC_VERSION_V6 ?_ (by decide) (by decide)
  rw [hcons]
  rfl

/-- The places of an IPv6 header that the compressed header carries as they are. -/
def carriedIpv6 (flags : UInt8) : List ℕ :=
  [4, 5] ++ if flags &&& ROHC_V6_FLAG_HOP_LIMIT ≠ 0 then [7] else []

def mergedIpv6 (s : ROHCState) (flags : UInt8) (packet : List UInt8) (i : ℕ) : UInt8 :=
  if i ∈ carriedIpv6 flags then byteAt packet i else s.ctx i

/-- The rebuilt header: a traffic class field is the low half of byte 0, and goes into both of
its bytes. -/
def restoredIpv6 (s : ROHCState) (flags : UInt8) (packet : List UInt8) (i : ℕ) : UInt8 :=
  if flags &&& ROHC_V6_FLAG_TC ≠ 0 ∧ i = 0 then 0x60 ||| (byteAt packet 0 &&& 0x0F)
  else if flags &&& ROHC_V6_FLAG_TC ≠ 0 ∧ i = 1 then
    ((byteAt packet 0 &&& 0x0F) <<< 4) ||| (s.ctx 1 &&& 0x0F)
  else mergedIpv6 s flags packet i

theorem mergedIpv6_one (s : ROHCState) (flags : UInt8) (packet : List UInt8) :
    mergedIpv6 s flags packet 1 = s.ctx 1 := by
  refine if_neg ?_
  unfold carriedIpv6
  split_ifs <;> decide

/-- The traffic class is read behind the other fields. -/
theorem trafficClass_restored {s : ROHCState} {flags : UInt8} {packet pre rest C : List UInt8}
    (hC : C = pre ++ (optionalField flags ROHC_V6_FLAG_TC [byteAt packet 0 &&& 0x0F] ++ rest)) :
    (trafficClass C (hasFlag flags ROHC_V6_FLAG_TC) (pre.length, mergedIpv6 s flags packet)).2 =
      restoredIpv6 s flags packet := by
  unfold hasFlag
  by_cases htc : flags &&& ROHC_V6_FLAG_TC ≠ 0
  · have hread : byteAt C pre.length = byteAt packet 0 &&& 0x0F := by
      rw [hC, optionalField, if_pos htc, byteAt_append_right le_rfl, Nat.sub_self]
      rfl
    have hone := mergedIpv6_one s flags packet
    rw [decide_eq_true htc]
    funext i
    simp only [trafficClass, if_true, hread, restoredIpv6, htc, ne_eq, not_false_eq_true, true_and]
    by_cases h1 : i = 1
    · subst h1
      rw [Function.update_self, Function.update_of_ne (by decide), hone, if_neg (by decide), if_pos rfl]
    · rw [Function.update_of_ne h1, if_neg h1]
      by_cases h0 : i = 0
      · subst h0
        rw [Function.update_self, if_pos rfl]
      · rw [Function.update_of_ne h0, if_neg h0]
  · rw [decide_eq_false htc]
    funext i
    rw [restoredIpv6, if_neg fun h => htc h.1, if_neg fun h => htc h.1]
    rfl

theorem readIpv6_sealed (s : ROHCState) {flags : UInt8} (packet rest : List UInt8)
    (h : SentIpv6 flags) :
    (readIpv6 s (sealedIpv6 flags packet ++ rest)).2 = restoredIpv6 s flags packet := by
  have hflags := sealedIpv6_flags flags packet rest
  simp only [readIpv6, hflags]
  obtain ⟨crc, hC⟩ : ∃ crc, sealedIpv6 flags packet ++ rest =
      [ROHC_VERSION_V6, flags, crc] ++ [4, 5].map (byteAt packet) ++
        optionalField flags ROHC_V6_FLAG_NEXT_HDR ([6].map (byteAt packet)) ++
        optionalField flags ROHC_V6_FLAG_HOP_LIMIT ([7].map (byteAt packet)) ++
        (optionalField flags ROHC_V6_FLAG_TC [byteAt packet 0 &&& 0x0F] ++ rest) := by
    refine ⟨crc8 (ipv6Header flags packet), ?_⟩
    rw [sealedIpv6, ← List.append_assoc]
    rfl
  have hstart : 3 = [ROHC_VERSION_V6, flags, crc].length := rfl
  rw [hstart, field_present _ (by rw [hC, List.append_assoc, List.append_assoc]),
    field_optionalField _ (by rw [hC, List.append_assoc]), field_optionalField _ hC,
    ← trafficClass_restored hC]
  congr 3
  funext i
  simp only [mergedIpv6, carriedIpv6, List.mem_append, List.mem_ite_nil_right, h.1, ne_eq,
    not_true_eq_false, false_and]
  grind

/-- What decompression makes of a compressed IPv6 packet, whatever the context. -/
theorem rohcDecompress_sentIpv6 (past : ℕ → UInt8) (s : ROHCState) {flags : UInt8}
    (packet payload tail : List UInt8) (outLen : ℕ) (h : SentIpv6 flags) :
    rohcDecompress past s (sealedIpv6 flags packet ++ (payload ++ tail))
        (sealedIpv6 flags packet ++ payload).length outLen =
      if s.contextValid = true ∧ 40 + payload.length ≤ outLen then
        some (tabulate 40 (restoredIpv6 s flags packet) ++ payload,
          s.store (restoredIpv6 s flags packet) [0, 1, 4, 5, 6, 7])
      else none := by
  have hlen := sealedIpv6_length flags packet
  have hflags := sealedIpv6_flags flags packet (payload ++ tail)
  have hv6 := sealedIpv6_announces flags packet (payload ++ tail)
  have hcrc := sealedIpv6_crc flags packet (payload ++ tail)
  have hfive : 5 ≤ ipv6PayloadStart flags := by
    unfold ipv6PayloadStart
    omega
  have hpayload : (sealedIpv6 flags packet ++ payload).length - ipv6PayloadStart flags =
      payload.length := by
    rw [List.length_append, hlen]
    omega
  have hle : ipv6PayloadStart flags ≤ (sealedIpv6 flags packet ++ payload).length := by
    rw [List.length_append, hlen]
    omega
  have hdec : Decodable s.contextValid (s.ctx 0) (sealedIpv6 flags packet ++ (payload ++ tail))
      (sealedIpv6 flags packet ++ payload).length outLen ↔
      s.contextValid = true ∧ 40 + payload.length ≤ outLen := by
    simp only [Decodable, FitsIpv6, hflags, h.headerLen, hpayload]
    exact ⟨fun h => ⟨h.1, (h.2.2.2.1 hv6).2.2⟩,
      fun h => ⟨h.1, hfive.trans hle, hcrc, fun _ => ⟨hcrc, hle, h.2⟩, fun hn => absurd hv6 hn⟩⟩
  rw [rohcDecompress_eq, if_congr hdec rfl rfl, if_pos hv6]
  simp only [rebuiltPacketIpv6, refreshedIpv6, hflags, hpayload, readIpv6_sealed s packet _ h]
  rw [← hlen, List.drop_left, List.take_left]

end EchoProtocol.Rohc
