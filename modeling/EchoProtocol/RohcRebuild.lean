import EchoProtocol.Rohc

/-!
# What decompression rebuilds

Decompression succeeds under a condition on the compressed packet and two facts about the
context, and its result is then a function of both. This module brings the parser with its
exits into that form.
-/
namespace EchoProtocol.Rohc
open Bytes IpChecksum

theorem ROHCState.ctx_of_le (s : ROHCState) {i : ℕ} (hi : ROHC_CTX_SIZE ≤ i) : s.ctx i = 0 :=
  byteAt_of_length_le (s.size ▸ hi)

@[simp] theorem ROHCState.ctx_store (s : ROHCState) (value : ℕ → UInt8) (places : List ℕ) (i : ℕ) :
    (s.store value places).ctx i = if i ∈ places ∧ i < ROHC_CTX_SIZE then value i else s.ctx i := by
  unfold ROHCState.ctx ROHCState.store
  rw [byteAt_tabulate]
  by_cases hi : i < ROHC_CTX_SIZE
  · simp [hi, ROHCState.ctx]
  · have hzero := s.ctx_of_le (not_lt.mp hi)
    simp only [ROHCState.ctx] at hzero
    simp [hi, hzero]

@[simp] theorem ROHCState.contextValid_store (s : ROHCState) (value : ℕ → UInt8) (places : List ℕ) :
    (s.store value places).contextValid = s.contextValid := rfl

@[simp] theorem ROHCState.ctx_validate (s : ROHCState) (i : ℕ) : s.validate.ctx i = s.ctx i := rfl

@[simp] theorem ROHCState.contextValid_validate (s : ROHCState) : s.validate.contextValid = true :=
  rfl

theorem ROHCState.ext_ctx {s s' : ROHCState} (hvalid : s.contextValid = s'.contextValid)
    (h : ∀ i < ROHC_CTX_SIZE, s.ctx i = s'.ctx i) : s = s' := by
  obtain ⟨c, v, hc⟩ := s
  obtain ⟨c', v', hc'⟩ := s'
  have hcontext : c = c' := ext_byteAt (hc.trans hc'.symm) fun i hi => h i (hc ▸ hi)
  subst hcontext
  obtain rfl : v = v' := hvalid
  rfl

theorem ROHCState.store_eq_self_iff (s : ROHCState) (value : ℕ → UInt8) (places : List ℕ) :
    s.store value places = s ↔ ∀ i ∈ places, i < ROHC_CTX_SIZE → value i = s.ctx i := by
  constructor
  · intro h i hi hlt
    have hctx := congrArg (fun t => t.ctx i) h
    simp only [ROHCState.ctx_store] at hctx
    rwa [if_pos ⟨hi, hlt⟩] at hctx
  · intro h
    refine ROHCState.ext_ctx rfl fun i hlt => ?_
    rw [ROHCState.ctx_store]
    split_ifs with hi
    · exact h i hi.1 hlt
    · rfl

/-- A raw packet that is taken as a new context. -/
def Syncable (packet : List UInt8) (packetLen : ℕ) : Prop :=
  (version (byteAt packet 0) = 0x40 ∧ 20 ≤ packetLen ∧ 20 ≤ ihl (byteAt packet 0) ∧
    ihl (byteAt packet 0) ≤ packetLen) ∨
  (version (byteAt packet 0) = 0x60 ∧ 40 ≤ packetLen)

instance (packet : List UInt8) (packetLen : ℕ) : Decidable (Syncable packet packetLen) :=
  inferInstanceAs (Decidable ((_ ∧ _ ∧ _ ∧ _) ∨ (_ ∧ _)))

/-- How many bytes of it are taken. -/
def syncedBytes (first : UInt8) : ℕ :=
  if version first = 0x40 then contextCopy (ihl first) else ROHC_CTX_SIZE

theorem rohcSyncContext_eq (s : ROHCState) (packet : List UInt8) (packetLen : ℕ) :
    rohcSyncContext s packet packetLen = if Syncable packet packetLen then
      (s.copyContext packet (syncedBytes (byteAt packet 0))).validate else s := by
  simp only [rohcSyncContext, syncedBytes]
  by_cases h4 : version (byteAt packet 0) = 0x40
  · have h6 : ¬ version (byteAt packet 0) = 0x60 := by
      rw [h4]
      decide
    have hiff : Syncable packet packetLen ↔ 20 ≤ packetLen ∧ 20 ≤ ihl (byteAt packet 0) ∧
        ihl (byteAt packet 0) ≤ packetLen :=
      ⟨fun h => (h.resolve_right fun h' => h6 h'.1).2, fun h => .inl ⟨h4, h⟩⟩
    rw [if_pos h4, if_pos h4, if_congr hiff rfl rfl]
    split_ifs <;> first | rfl | omega
  · rw [if_neg h4, if_neg h4]
    by_cases h6 : version (byteAt packet 0) = 0x60
    · have hiff : Syncable packet packetLen ↔ 40 ≤ packetLen :=
        ⟨fun h => (h.resolve_left fun h' => h4 h'.1).2, fun h => .inr ⟨h6, h⟩⟩
      rw [if_pos h6, if_congr hiff rfl rfl]
      split_ifs <;> first | rfl | omega
    · rw [if_neg h6, if_neg fun h : Syncable packet packetLen => h.elim (fun h' => h4 h'.1)
        fun h' => h6 h'.1]

theorem syncedBytes_pos {packet : List UInt8} {packetLen : ℕ} (h : Syncable packet packetLen) :
    0 < syncedBytes (byteAt packet 0) := by
  unfold syncedBytes contextCopy ROHC_CTX_SIZE
  rcases h with ⟨h4, -, hihl, -⟩ | ⟨h6, -⟩
  · rw [if_pos h4]
    split_ifs <;> omega
  · rw [h6, if_neg (by decide)]
    decide

theorem syncedBytes_le (first : UInt8) : syncedBytes first ≤ ROHC_CTX_SIZE := by
  unfold syncedBytes contextCopy
  split_ifs <;> omega

@[simp] theorem ROHCState.ctx_copyContext (s : ROHCState) (packet : List UInt8) (copy i : ℕ) :
    (s.copyContext packet copy).ctx i =
      if i < copy ∧ i < ROHC_CTX_SIZE then byteAt packet i else s.ctx i := by
  simp only [ROHCState.copyContext, ROHCState.ctx_store, List.mem_range]

/-- The payload would be taken as a context that differs from the present one. -/
def Foreign (s : ROHCState) (packet : List UInt8) (packetLen : ℕ) : Prop :=
  Syncable packet packetLen ∧
    (s.contextValid = false ∨ memoryDiffers packet s 0 (syncedBytes (byteAt packet 0)))

instance (s : ROHCState) (packet : List UInt8) (packetLen : ℕ) :
    Decidable (Foreign s packet packetLen) :=
  inferInstanceAs (Decidable (_ ∧ (_ ∨ _)))

theorem rohcSyncContext_eq_self_iff (s : ROHCState) (packet : List UInt8) (packetLen : ℕ) :
    rohcSyncContext s packet packetLen = s ↔ ¬ Foreign s packet packetLen := by
  rw [rohcSyncContext_eq]
  by_cases hsync : Syncable packet packetLen
  · have hle := syncedBytes_le (byteAt packet 0)
    rw [if_pos hsync, Foreign, and_iff_right hsync]
    constructor
    · rintro heq (hvalid | ⟨i, hi, hne⟩)
      · rw [← heq] at hvalid
        exact absurd hvalid (Bool.noConfusion)
      · have hctx := congrArg (fun t => t.ctx (0 + i)) heq
        simp only [ROHCState.ctx_validate, ROHCState.ctx_copyContext] at hctx
        rw [if_pos (by omega)] at hctx
        exact hne hctx
    · intro hsame
      rw [not_or, Bool.not_eq_false] at hsame
      refine ROHCState.ext_ctx hsame.1.symm fun i hi => ?_
      rw [ROHCState.ctx_validate, ROHCState.ctx_copyContext]
      split_ifs with h
      · by_contra hne
        exact hsame.2 ⟨i, h.1, by rwa [Nat.zero_add]⟩
      · rfl
  · rw [if_neg hsync]
    exact ⟨fun _ h => hsync h.1, fun _ => rfl⟩

theorem syncedBytes_le_packetLen {packet : List UInt8} {packetLen : ℕ}
    (h : Syncable packet packetLen) : syncedBytes (byteAt packet 0) ≤ packetLen := by
  unfold syncedBytes contextCopy ROHC_CTX_SIZE
  rcases h with ⟨h4, -, -, hle⟩ | ⟨h6, hle⟩
  · rw [if_pos h4]
    split_ifs <;> omega
  · rw [h6, if_neg (by decide)]
    exact hle

/-- What lies behind a packet is not looked at. -/
theorem rohcSyncContext_append (s : ROHCState) {packet : List UInt8} (tail : List UInt8)
    (hpos : 0 < packet.length) :
    rohcSyncContext s (packet ++ tail) packet.length = rohcSyncContext s packet packet.length := by
  have hfirst : byteAt (packet ++ tail) 0 = byteAt packet 0 := byteAt_append_left hpos
  have hiff : Syncable (packet ++ tail) packet.length ↔ Syncable packet packet.length := by
    rw [Syncable, Syncable, hfirst]
  rw [rohcSyncContext_eq, rohcSyncContext_eq, hfirst]
  by_cases hsync : Syncable packet packet.length
  · have hle := syncedBytes_le_packetLen hsync
    rw [if_pos (hiff.mpr hsync), if_pos hsync]
    refine ROHCState.ext_ctx rfl fun i _ => ?_
    simp only [ROHCState.ctx_validate, ROHCState.ctx_copyContext]
    split_ifs with hi
    · exact byteAt_append_left (by omega)
    · rfl
  · rw [if_neg (mt hiff.mp hsync), if_neg hsync]

/-- Reads a field if it is announced, wherever the packet ends. -/
def field (compressed : List UInt8) (present : Bool) (places : List ℕ) (r : Rebuild) : Rebuild :=
  if present then (r.1 + places.length, moveBytes compressed places r.1 r.2) else r

def trafficClass (compressed : List UInt8) (present : Bool) (r : Rebuild) : Rebuild :=
  if present then
    let tcLo := byteAt compressed r.1
    let first := Function.update r.2 0 (0x60 ||| tcLo)
    (r.1 + 1, Function.update first 1 ((tcLo <<< 4) ||| (first 1 &&& 0x0F)))
  else r

theorem field_fst (compressed : List UInt8) (present : Bool) (places : List ℕ) (r : Rebuild) :
    (field compressed present places r).1 = r.1 + if present then places.length else 0 := by
  cases present <;> rfl

theorem trafficClass_fst (compressed : List UInt8) (present : Bool) (r : Rebuild) :
    (trafficClass compressed present r).1 = r.1 + if present then 1 else 0 := by
  cases present <;> rfl

theorem takeField_eq {compressed : List UInt8} {compLen : ℕ} {present : Bool} {places : List ℕ}
    {r : Rebuild} (hr : r.1 ≤ compLen) : takeField compressed compLen present places r =
      if (field compressed present places r).1 ≤ compLen then some (field compressed present places r)
      else none := by
  cases present with
  | false => exact (if_pos hr).symm
  | true =>
    simp only [takeField, field, if_true]
    split_ifs <;> first | rfl | omega

theorem takeTrafficClass_eq {compressed : List UInt8} {compLen : ℕ} {present : Bool} {r : Rebuild}
    (hr : r.1 ≤ compLen) : takeTrafficClass compressed compLen present r =
      if (trafficClass compressed present r).1 ≤ compLen then some (trafficClass compressed present r)
      else none := by
  cases present with
  | false => exact (if_pos hr).symm
  | true =>
    simp only [takeTrafficClass, trafficClass, if_true]
    split_ifs <;> first | rfl | omega

/-- The header as the fields of an IPv4 packet leave it, and where the payload starts. -/
def readIpv4 (past : ℕ → UInt8) (s : ROHCState) (compressed : List UInt8) : Rebuild :=
  let flags := byteAt compressed 1
  field compressed (hasFlag flags ROHC_FLAG_TTL) [8]
    (field compressed (hasFlag flags ROHC_FLAG_FLAGS) [6, 7]
      (field compressed (hasFlag flags ROHC_FLAG_TOS) [1]
        (field compressed (hasFlag flags ROHC_FLAG_IP_ID) [4, 5] (3, contextByte past s))))

def readIpv6 (s : ROHCState) (compressed : List UInt8) : Rebuild :=
  let flags := byteAt compressed 1
  trafficClass compressed (hasFlag flags ROHC_V6_FLAG_TC)
    (field compressed (hasFlag flags ROHC_V6_FLAG_HOP_LIMIT) [7]
      (field compressed (hasFlag flags ROHC_V6_FLAG_NEXT_HDR) [6]
        (field compressed true [4, 5] (3, s.ctx))))

/-- Where the payload of a compressed IPv4 packet starts. -/
def ipv4PayloadStart (flags : UInt8) : ℕ :=
  3 + flagBytes flags ROHC_FLAG_IP_ID 2 + flagBytes flags ROHC_FLAG_TOS 1 +
    flagBytes flags ROHC_FLAG_FLAGS 2 + flagBytes flags ROHC_FLAG_TTL 1

def ipv6PayloadStart (flags : UInt8) : ℕ :=
  5 + flagBytes flags ROHC_V6_FLAG_NEXT_HDR 1 + flagBytes flags ROHC_V6_FLAG_HOP_LIMIT 1 +
    flagBytes flags ROHC_V6_FLAG_TC 1

theorem ite_hasFlag (flags flag : UInt8) (count : ℕ) :
    (if hasFlag flags flag = true then count else 0) = flagBytes flags flag count := by
  unfold hasFlag flagBytes
  simp

theorem readIpv4_fst (past : ℕ → UInt8) (s : ROHCState) (compressed : List UInt8) :
    (readIpv4 past s compressed).1 = ipv4PayloadStart (byteAt compressed 1) := by
  simp only [readIpv4, field_fst, List.length_cons, List.length_nil, ite_hasFlag, ipv4PayloadStart]

theorem readIpv6_fst (s : ROHCState) (compressed : List UInt8) :
    (readIpv6 s compressed).1 = ipv6PayloadStart (byteAt compressed 1) := by
  simp only [readIpv6, trafficClass_fst, field_fst, List.length_cons, List.length_nil, ite_hasFlag,
    ipv6PayloadStart, if_true]

theorem flagBytes_le (flags flag : UInt8) (count : ℕ) : flagBytes flags flag count ≤ count := by
  unfold flagBytes
  split_ifs <;> omega

theorem ipv6PayloadStart_le (flags : UInt8) : ipv6PayloadStart flags ≤ 8 := by
  have h1 := flagBytes_le flags ROHC_V6_FLAG_NEXT_HDR 1
  have h2 := flagBytes_le flags ROHC_V6_FLAG_HOP_LIMIT 1
  have h3 := flagBytes_le flags ROHC_V6_FLAG_TC 1
  unfold ipv6PayloadStart
  omega

def ipv4HeaderLen (flags : UInt8) : ℕ :=
  5 + flagBytes flags ROHC_FLAG_TOS 1 + flagBytes flags ROHC_FLAG_FLAGS 2 +
    flagBytes flags ROHC_FLAG_TTL 1

/-- The second half of the test on a compressed IPv6 packet. -/
def FitsIpv6 (compressed : List UInt8) (compLen outLen : ℕ) : Prop :=
  byteAt compressed 2 = headerCrc compressed (ipv6PayloadStart (byteAt compressed 1)) ∧
    ipv6PayloadStart (byteAt compressed 1) ≤ compLen ∧
    40 + (compLen - ipv6PayloadStart (byteAt compressed 1)) ≤ outLen

/-- The second half of the test on a compressed IPv4 packet. -/
def FitsIpv4 (first : UInt8) (compressed : List UInt8) (compLen outLen : ℕ) : Prop :=
  20 ≤ ihl first ∧ ipv4PayloadStart (byteAt compressed 1) ≤ compLen ∧
    ihl first + (compLen - ipv4PayloadStart (byteAt compressed 1)) ≤ outLen

instance (compressed : List UInt8) (compLen outLen : ℕ) :
    Decidable (FitsIpv6 compressed compLen outLen) :=
  inferInstanceAs (Decidable (_ ∧ _ ∧ _))

instance (first : UInt8) (compressed : List UInt8) (compLen outLen : ℕ) :
    Decidable (FitsIpv4 first compressed compLen outLen) :=
  inferInstanceAs (Decidable (_ ∧ _ ∧ _))

def announcesIpv6 (compressed : List UInt8) : Prop := byteAt compressed 0 &&& ROHC_VERSION_V6 ≠ 0

instance (compressed : List UInt8) : Decidable (announcesIpv6 compressed) :=
  inferInstanceAs (Decidable (_ ≠ _))

/-- When decompression succeeds: of the context it needs only its validity and its first byte. -/
def Decodable (valid : Bool) (first : UInt8) (compressed : List UInt8) (compLen outLen : ℕ) : Prop :=
  valid = true ∧ 5 ≤ compLen ∧
    byteAt compressed 2 = headerCrc compressed (ipv4HeaderLen (byteAt compressed 1)) ∧
    (announcesIpv6 compressed → FitsIpv6 compressed compLen outLen) ∧
    (¬ announcesIpv6 compressed → FitsIpv4 first compressed compLen outLen)

instance (valid : Bool) (first : UInt8) (compressed : List UInt8) (compLen outLen : ℕ) :
    Decidable (Decodable valid first compressed compLen outLen) :=
  inferInstanceAs (Decidable (_ ∧ _ ∧ _ ∧ _ ∧ _))

/-- The IPv4 header that decompression rebuilds. -/
def rebuiltIpv4 (past : ℕ → UInt8) (s : ROHCState) (compressed : List UInt8) (compLen : ℕ) :
    ℕ → UInt8 :=
  finishIpv4 (readIpv4 past s compressed).2 (ihl (s.ctx 0))
    (ihl (s.ctx 0) + (compLen - ipv4PayloadStart (byteAt compressed 1)))

def rebuiltPacketIpv4 (past : ℕ → UInt8) (s : ROHCState) (compressed : List UInt8)
    (compLen : ℕ) : List UInt8 :=
  tabulate (ihl (s.ctx 0)) (rebuiltIpv4 past s compressed compLen) ++
    (compressed.drop (ipv4PayloadStart (byteAt compressed 1))).take
      (compLen - ipv4PayloadStart (byteAt compressed 1))

def rebuiltPacketIpv6 (s : ROHCState) (compressed : List UInt8) (compLen : ℕ) : List UInt8 :=
  tabulate 40 (readIpv6 s compressed).2 ++
    (compressed.drop (ipv6PayloadStart (byteAt compressed 1))).take
      (compLen - ipv6PayloadStart (byteAt compressed 1))

/-- The context after a successful decompression. -/
def refreshedIpv4 (past : ℕ → UInt8) (s : ROHCState) (compressed : List UInt8) (compLen : ℕ) :
    ROHCState :=
  s.store (rebuiltIpv4 past s compressed compLen) [1, 4, 5, 6, 7, 8]

def refreshedIpv6 (s : ROHCState) (compressed : List UInt8) : ROHCState :=
  s.store (readIpv6 s compressed).2 [0, 1, 4, 5, 6, 7]

/-- Four bounds checks in a row are one on the last end. -/
theorem bind_chain {β : Type} {compLen : ℕ} {a b c d : Rebuild} {f g k : Rebuild → Option Rebuild}
    {last : Rebuild → Option β} (hab : a.1 ≤ b.1) (hbc : b.1 ≤ c.1) (hcd : c.1 ≤ d.1)
    (hf : a.1 ≤ compLen → f a = if b.1 ≤ compLen then some b else none)
    (hg : b.1 ≤ compLen → g b = if c.1 ≤ compLen then some c else none)
    (hk : c.1 ≤ compLen → k c = if d.1 ≤ compLen then some d else none) :
    ((if a.1 ≤ compLen then some a else none).bind fun r => (f r).bind fun r => (g r).bind fun r =>
      (k r).bind last) = if d.1 ≤ compLen then last d else none := by
  by_cases ha : a.1 ≤ compLen
  · rw [if_pos ha, Option.bind_some, hf ha]
    by_cases hb : b.1 ≤ compLen
    · rw [if_pos hb, Option.bind_some, hg hb]
      by_cases hc : c.1 ≤ compLen
      · rw [if_pos hc, Option.bind_some, hk hc]
        split_ifs <;> rfl
      · rw [if_neg hc, if_neg (by omega)]
        rfl
    · rw [if_neg hb, if_neg (by omega)]
      rfl
  · rw [if_neg ha, if_neg (by omega)]
    rfl

theorem ite_chain {β : Type} {compLen outLen base : ℕ} {r : Rebuild} (out : β) :
    (if r.1 ≤ compLen then
      if compLen < r.1 then none
      else if base + (compLen - r.1) > outLen then none else some out
    else none) = if r.1 ≤ compLen ∧ base + (compLen - r.1) ≤ outLen then some out else none := by
  by_cases hstart : r.1 ≤ compLen
  · by_cases hfit : base + (compLen - r.1) ≤ outLen
    · rw [if_pos hstart, if_neg (not_lt.mpr hstart), if_neg (not_lt.mpr hfit), if_pos ⟨hstart, hfit⟩]
    · rw [if_pos hstart, if_neg (not_lt.mpr hstart), if_pos (not_le.mp hfit),
        if_neg fun h => hfit h.2]
  · rw [if_neg hstart, if_neg fun h => hstart h.1]

theorem field_le (compressed : List UInt8) (present : Bool) (places : List ℕ) (r : Rebuild) :
    r.1 ≤ (field compressed present places r).1 := by
  rw [field_fst]
  exact Nat.le_add_right _ _

theorem trafficClass_le (compressed : List UInt8) (present : Bool) (r : Rebuild) :
    r.1 ≤ (trafficClass compressed present r).1 := by
  rw [trafficClass_fst]
  exact Nat.le_add_right _ _

theorem rohcDecompressIpv6_eq {s : ROHCState} {compressed : List UInt8} {compLen outLen : ℕ}
    (hlen : 5 ≤ compLen) : rohcDecompressIpv6 s compressed compLen outLen =
      if FitsIpv6 compressed compLen outLen then
        some (rebuiltPacketIpv6 s compressed compLen, refreshedIpv6 s compressed)
      else none := by
  have hshort := ipv6PayloadStart_le (byteAt compressed 1)
  have hlen6 : 5 + flagBytes (byteAt compressed 1) ROHC_V6_FLAG_NEXT_HDR 1 +
      flagBytes (byteAt compressed 1) ROHC_V6_FLAG_HOP_LIMIT 1 +
      flagBytes (byteAt compressed 1) ROHC_V6_FLAG_TC 1 = ipv6PayloadStart (byteAt compressed 1) := rfl
  have hread := readIpv6_fst s compressed
  simp only [rohcDecompressIpv6, hlen6]
  rw [if_neg (by omega), if_neg (by omega)]
  by_cases hcrc : byteAt compressed 2 = headerCrc compressed (ipv6PayloadStart (byteAt compressed 1))
  · rw [if_neg (not_not.mpr hcrc), takeField_eq (by change 3 ≤ compLen; omega)]
    refine (bind_chain (field_le _ _ _ _) (field_le _ _ _ _) (trafficClass_le _ _ _)
      (fun h => takeField_eq h) (fun h => takeField_eq h) (fun h => takeTrafficClass_eq h)).trans ?_
    refine (ite_chain _).trans ?_
    change (if (readIpv6 s compressed).1 ≤ compLen ∧ 40 + (compLen - (readIpv6 s compressed).1) ≤
      outLen then some (tabulate 40 (readIpv6 s compressed).2 ++
        (compressed.drop (readIpv6 s compressed).1).take (compLen - (readIpv6 s compressed).1),
        refreshedIpv6 s compressed) else none) = _
    rw [hread]
    exact if_congr (and_iff_right hcrc).symm rfl rfl
  · rw [if_pos hcrc, if_neg fun h => hcrc h.1]

theorem ipv4HeaderLen_le (flags : UInt8) : ipv4HeaderLen flags ≤ 9 := by
  have h1 := flagBytes_le flags ROHC_FLAG_TOS 1
  have h2 := flagBytes_le flags ROHC_FLAG_FLAGS 2
  have h3 := flagBytes_le flags ROHC_FLAG_TTL 1
  unfold ipv4HeaderLen
  omega

/-- Decompression in closed form. -/
theorem rohcDecompress_eq (past : ℕ → UInt8) (s : ROHCState) (compressed : List UInt8)
    (compLen outLen : ℕ) : rohcDecompress past s compressed compLen outLen =
      if Decodable s.contextValid (s.ctx 0) compressed compLen outLen then
        if announcesIpv6 compressed then
          some (rebuiltPacketIpv6 s compressed compLen, refreshedIpv6 s compressed)
        else
          some (rebuiltPacketIpv4 past s compressed compLen, refreshedIpv4 past s compressed compLen)
      else none := by
  have hshort := ipv4HeaderLen_le (byteAt compressed 1)
  have hlen4 : 5 + flagBytes (byteAt compressed 1) ROHC_FLAG_TOS 1 +
      flagBytes (byteAt compressed 1) ROHC_FLAG_FLAGS 2 +
      flagBytes (byteAt compressed 1) ROHC_FLAG_TTL 1 = ipv4HeaderLen (byteAt compressed 1) := rfl
  have hread := readIpv4_fst past s compressed
  simp only [rohcDecompress, hlen4]
  by_cases hvalid : s.contextValid = true
  · by_cases hlen : 5 ≤ compLen
    · rw [if_neg (by simp [hvalid]), if_neg (not_lt.mpr hlen), if_neg (by omega)]
      by_cases hcrc : byteAt compressed 2 = headerCrc compressed (ipv4HeaderLen (byteAt compressed 1))
      · rw [if_neg (not_not.mpr hcrc)]
        by_cases hv6 : announcesIpv6 compressed
        · rw [if_pos hv6]
          refine (if_pos hv6).trans ((rohcDecompressIpv6_eq hlen).trans ?_)
          exact if_congr ⟨fun h => ⟨hvalid, hlen, hcrc, fun _ => h, fun hn => absurd hv6 hn⟩,
            fun h => h.2.2.2.1 hv6⟩ rfl rfl
        · rw [if_neg hv6]
          refine (if_neg hv6).trans ?_
          by_cases hihl : 20 ≤ ihl (s.ctx 0)
          · rw [if_neg (not_lt.mpr hihl), takeField_eq (by change 3 ≤ compLen; omega)]
            refine (bind_chain (field_le _ _ _ _) (field_le _ _ _ _) (field_le _ _ _ _)
              (fun h => takeField_eq h) (fun h => takeField_eq h) (fun h => takeField_eq h)).trans ?_
            refine (ite_chain _).trans ?_
            change (if (readIpv4 past s compressed).1 ≤ compLen ∧
              ihl (s.ctx 0) + (compLen - (readIpv4 past s compressed).1) ≤ outLen then
              some (tabulate (ihl (s.ctx 0)) (finishIpv4 (readIpv4 past s compressed).2 (ihl (s.ctx 0))
                  (ihl (s.ctx 0) + (compLen - (readIpv4 past s compressed).1))) ++
                (compressed.drop (readIpv4 past s compressed).1).take
                  (compLen - (readIpv4 past s compressed).1),
                s.store (finishIpv4 (readIpv4 past s compressed).2 (ihl (s.ctx 0))
                  (ihl (s.ctx 0) + (compLen - (readIpv4 past s compressed).1))) [1, 4, 5, 6, 7, 8])
              else none) = _
            rw [hread]
            exact if_congr ⟨fun h => ⟨hvalid, hlen, hcrc, fun h6 => absurd h6 hv6, fun _ => ⟨hihl, h⟩⟩,
              fun h => (h.2.2.2.2 hv6).2⟩ rfl rfl
          · rw [if_pos (not_le.mp hihl), if_neg fun h => hihl (h.2.2.2.2 hv6).1]
      · rw [if_pos hcrc, if_neg fun h => hcrc h.2.2.1]
    · rw [if_neg (by simp [hvalid]), if_pos (not_le.mp hlen), if_neg fun h => hlen h.2.1]
  · rw [if_pos (by simpa using hvalid), if_neg fun h => hvalid h.1]

theorem moveBytes_of_notMem {compressed : List UInt8} {places : List ℕ} {pos i : ℕ}
    {r : ℕ → UInt8} (hi : i ∉ places) : moveBytes compressed places pos r i = r i := by
  induction places generalizing pos r with
  | nil => rfl
  | cons place places ih =>
    rw [List.mem_cons, not_or] at hi
    rw [moveBytes, ih hi.2, Function.update_of_ne hi.1]

theorem field_of_notMem {compressed : List UInt8} {present : Bool} {places : List ℕ} {r : Rebuild}
    {i : ℕ} (hi : i ∉ places) : (field compressed present places r).2 i = r.2 i := by
  cases present
  · rfl
  · exact moveBytes_of_notMem hi

theorem readIpv4_of_notMem (past : ℕ → UInt8) (s : ROHCState) (compressed : List UInt8) {i : ℕ}
    (hi : i ∉ [1, 4, 5, 6, 7, 8]) :
    (readIpv4 past s compressed).2 i = contextByte past s i := by
  simp only [List.mem_cons, List.not_mem_nil, or_false, not_or] at hi
  obtain ⟨h1, h4, h5, h6, h7, h8⟩ := hi
  unfold readIpv4
  rw [field_of_notMem (by simp [h8]), field_of_notMem (by simp [h6, h7]),
    field_of_notMem (by simp [h1]), field_of_notMem (by simp [h4, h5])]

theorem finishIpv4_of_ne (r : ℕ → UInt8) (headerSize totalLen : ℕ) {i : ℕ}
    (hi : i ∉ [2, 3, 10, 11]) : finishIpv4 r headerSize totalLen i = r i := by
  simp only [List.mem_cons, List.not_mem_nil, or_false, not_or] at hi
  obtain ⟨h2, h3, h10, h11⟩ := hi
  simp only [finishIpv4, setChecksum]
  rw [Function.update_of_ne h11, Function.update_of_ne h10, Function.update_of_ne h3,
    Function.update_of_ne h2]

theorem rebuiltIpv4_zero (past : ℕ → UInt8) (s : ROHCState) (compressed : List UInt8)
    (compLen : ℕ) : rebuiltIpv4 past s compressed compLen 0 = s.ctx 0 := by
  rw [rebuiltIpv4, finishIpv4_of_ne _ _ _ (by decide), readIpv4_of_notMem _ _ _ (by decide)]
  exact if_pos (by decide)

theorem ihl_even (first : UInt8) : ihl first % 2 = 0 := by
  unfold ihl
  omega

theorem ihl_le (first : UInt8) : ihl first ≤ 60 := by
  have hnibble : (first &&& 0x0F).toNat ≤ 15 := by
    rw [UInt8.toNat_and]
    exact Nat.and_le_right
  unfold ihl
  omega

theorem rebuiltPacketIpv4_byteAt {past : ℕ → UInt8} {s : ROHCState} {compressed : List UInt8}
    {compLen i : ℕ} (hi : i < ihl (s.ctx 0)) :
    byteAt (rebuiltPacketIpv4 past s compressed compLen) i = rebuiltIpv4 past s compressed compLen i := by
  rw [rebuiltPacketIpv4, byteAt_append_left (by rwa [tabulate_length]), byteAt_tabulate, if_pos hi]

theorem rebuiltPacketIpv4_verifies {past memory : ℕ → UInt8} {s : ROHCState}
    {compressed : List UInt8} {compLen : ℕ} (hihl : 20 ≤ ihl (s.ctx 0))
    (hmemory : ∀ i < (rebuiltPacketIpv4 past s compressed compLen).length,
      memory i = byteAt (rebuiltPacketIpv4 past s compressed compLen) i) :
    ipChecksum memory (ihl (byteAt (rebuiltPacketIpv4 past s compressed compLen) 0)) = 0 := by
  have hlen : ihl (s.ctx 0) ≤ (rebuiltPacketIpv4 past s compressed compLen).length := by
    rw [rebuiltPacketIpv4, List.length_append, tabulate_length]
    omega
  rw [rebuiltPacketIpv4_byteAt (by omega), rebuiltIpv4_zero]
  have hheader : ∀ i < ihl (s.ctx 0), memory i = rebuiltIpv4 past s compressed compLen i :=
    fun i hi => (hmemory i (by omega)).trans (rebuiltPacketIpv4_byteAt hi)
  rw [ipChecksum_congr (ihl_even _) hheader, rebuiltIpv4]
  exact ipChecksum_setChecksum (by omega)

end EchoProtocol.Rohc
