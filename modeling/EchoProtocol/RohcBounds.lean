import EchoProtocol.AccessTrace
import EchoProtocol.Runs
import EchoProtocol.RohcRebuild

/-!
# The arrays of decompression

Decompression with a record of the elements it reads and writes. Two lengths are used before they
are checked: that of the header, which the flags announce, and that of the context, which is a
nibble of its first byte.
-/
namespace EchoProtocol.RohcBounds
open Bytes IpChecksum Rohc Runs AccessTrace

/-- An element of an array that decompression reads or writes. -/
inductive Access
  | compressed (i : ℕ)
  | context (i : ℕ)
  | rebuilt (i : ℕ)
  | out (i : ℕ)
  deriving DecidableEq

/-- The element lies in its array. -/
def Inside (compLen outLen : ℕ) : Access → Prop
  | .compressed i => i < compLen
  | .context i => i < ROHC_CTX_SIZE
  | .rebuilt i => i < 64
  | .out i => i < outLen

instance (compLen outLen : ℕ) : DecidablePred (Inside compLen outLen)
  | .compressed _ => inferInstanceAs (Decidable (_ < _))
  | .context _ => inferInstanceAs (Decidable (_ < _))
  | .rebuilt _ => inferInstanceAs (Decidable (_ < _))
  | .out _ => inferInstanceAs (Decidable (_ < _))

/-- One side of a `memcpy`: `count` elements of an array from `start` on. -/
def block (array : ℕ → Access) (start count : ℕ) : List Access := (List.range' start count).map array

/-- The accesses of `moveBytes`. -/
def moveAccesses : List ℕ → ℕ → List Access
  | [], _ => []
  | place :: places, pos => .compressed pos :: .rebuilt place :: moveAccesses places (pos + 1)

def takeFieldTraced (compressed : List UInt8) (compLen : ℕ) (present : Bool) (places : List ℕ)
    (r : Rebuild) : Traced Access Rebuild :=
  if present then do
    stopIf (r.1 + places.length > compLen)
    note (moveAccesses places r.1)
    pure (r.1 + places.length, moveBytes compressed places r.1 r.2)
  else pure r

def takeTrafficClassTraced (compressed : List UInt8) (compLen : ℕ) (present : Bool) (r : Rebuild) :
    Traced Access Rebuild :=
  if present then do
    stopIf (r.1 + 1 > compLen)
    note [.compressed r.1, .rebuilt 0, .rebuilt 1]
    let tcLo := byteAt compressed r.1
    let first := Function.update r.2 0 (0x60 ||| tcLo)
    pure (r.1 + 1, Function.update first 1 ((tcLo <<< 4) ||| (first 1 &&& 0x0F)))
  else pure r

/-- The context is written from the rebuilt header. -/
def storeAccesses (places : List ℕ) : List Access :=
  places.flatMap fun i => [.rebuilt i, .context i]

def rohcDecompressIpv6Traced (s : ROHCState) (compressed : List UInt8) (compLen outLen : ℕ) :
    Traced Access (List UInt8 × ROHCState) := do
  stopIf (compLen < 5)
  note [.compressed 1, .compressed 2]
  let flags := byteAt compressed 1
  let headerLen := 5 + flagBytes flags ROHC_V6_FLAG_NEXT_HDR 1 +
    flagBytes flags ROHC_V6_FLAG_HOP_LIMIT 1 + flagBytes flags ROHC_V6_FLAG_TC 1
  stopIf (headerLen > 32)
  note (block .compressed 0 headerLen)
  stopIf (byteAt compressed 2 ≠ headerCrc compressed headerLen)
  note (block .context 0 40 ++ block .rebuilt 0 40)
  let r ← takeFieldTraced compressed compLen true [4, 5] (3, s.ctx)
  let r ← takeFieldTraced compressed compLen (hasFlag flags ROHC_V6_FLAG_NEXT_HDR) [6] r
  let r ← takeFieldTraced compressed compLen (hasFlag flags ROHC_V6_FLAG_HOP_LIMIT) [7] r
  let (pos, rebuilt) ←
    takeTrafficClassTraced compressed compLen (hasFlag flags ROHC_V6_FLAG_TC) r
  stopIf (compLen < pos)
  let payloadLen := compLen - pos
  let totalLen := 40 + payloadLen
  stopIf (totalLen > outLen)
  note (block .rebuilt 0 40 ++ block .out 0 40)
  note (block .compressed pos payloadLen ++ block .out 40 payloadLen)
  note (storeAccesses [0, 1, 4, 5, 6, 7])
  pure (tabulate 40 rebuilt ++ (compressed.drop pos).take payloadLen,
    s.store rebuilt [0, 1, 4, 5, 6, 7])

/-- What `rohc_decompress` does behind its test of the version bit. -/
def rebuildIpv4Traced (past : ℕ → UInt8) (s : ROHCState) (compressed : List UInt8)
    (compLen outLen : ℕ) : Traced Access (List UInt8 × ROHCState) := do
  note [.context 0]
  let flags := byteAt compressed 1
  let ctxHeaderSize := ihl (s.ctx 0)
  stopIf (ctxHeaderSize < 20)
  note (block .context 0 ctxHeaderSize ++ block .rebuilt 0 ctxHeaderSize)
  let r ← takeFieldTraced compressed compLen (hasFlag flags ROHC_FLAG_IP_ID) [4, 5]
    (3, contextByte past s)
  let r ← takeFieldTraced compressed compLen (hasFlag flags ROHC_FLAG_TOS) [1] r
  let r ← takeFieldTraced compressed compLen (hasFlag flags ROHC_FLAG_FLAGS) [6, 7] r
  let (pos, rebuilt) ← takeFieldTraced compressed compLen (hasFlag flags ROHC_FLAG_TTL) [8] r
  stopIf (compLen < pos)
  let payloadLen := compLen - pos
  let totalLen := ctxHeaderSize + payloadLen
  note ([2, 3, 10, 11].map .rebuilt)
  -- `ip_checksum` reads pairs of bytes, of which the header is made up exactly
  note (block .rebuilt 0 ctxHeaderSize)
  note ([10, 11].map .rebuilt)
  let header := finishIpv4 rebuilt ctxHeaderSize totalLen
  stopIf (totalLen > outLen)
  note (block .rebuilt 0 ctxHeaderSize ++ block .out 0 ctxHeaderSize)
  note (block .compressed pos payloadLen ++ block .out ctxHeaderSize payloadLen)
  note (storeAccesses [1, 4, 5, 6, 7, 8])
  pure (tabulate ctxHeaderSize header ++ (compressed.drop pos).take payloadLen,
    s.store header [1, 4, 5, 6, 7, 8])

/-- `rohc_decompress` with the elements that it reads and writes. The copy of the header that the
CRC runs over is an array of its own. -/
def rohcDecompressTraced (past : ℕ → UInt8) (s : ROHCState) (compressed : List UInt8)
    (compLen outLen : ℕ) : Traced Access (List UInt8 × ROHCState) := do
  stopIf (!s.contextValid)
  stopIf (compLen < 5)
  note [.compressed 2, .compressed 1]
  let flags := byteAt compressed 1
  let headerLen := 5 + flagBytes flags ROHC_FLAG_TOS 1 + flagBytes flags ROHC_FLAG_FLAGS 2 +
    flagBytes flags ROHC_FLAG_TTL 1
  stopIf (headerLen > 32)
  note (block .compressed 0 headerLen)
  stopIf (byteAt compressed 2 ≠ headerCrc compressed headerLen)
  note [.compressed 0]
  if byteAt compressed 0 &&& ROHC_VERSION_V6 ≠ 0 then
    rohcDecompressIpv6Traced s compressed compLen outLen
  else rebuildIpv4Traced past s compressed compLen outLen

theorem takeFieldTraced_result (compressed : List UInt8) (compLen : ℕ) (present : Bool)
    (places : List ℕ) (r : Rebuild) : (takeFieldTraced compressed compLen present places r).result =
      takeField compressed compLen present places r := by
  cases present with
  | false => rfl
  | true =>
    simp only [takeFieldTraced, if_true, result_bind, result_stopIf_bind, result_note,
      Option.bind_some, result_pure]
    rfl

theorem takeTrafficClassTraced_result (compressed : List UInt8) (compLen : ℕ) (present : Bool)
    (r : Rebuild) : (takeTrafficClassTraced compressed compLen present r).result =
      takeTrafficClass compressed compLen present r := by
  cases present with
  | false => rfl
  | true =>
    simp only [takeTrafficClassTraced, if_true, result_bind, result_stopIf_bind, result_note,
      Option.bind_some, result_pure]
    rfl

theorem rohcDecompressIpv6Traced_result (s : ROHCState) (compressed : List UInt8)
    (compLen outLen : ℕ) : (rohcDecompressIpv6Traced s compressed compLen outLen).result =
      rohcDecompressIpv6 s compressed compLen outLen := by
  simp only [rohcDecompressIpv6Traced, result_bind, result_stopIf_bind, result_note,
    Option.bind_some, takeFieldTraced_result, takeTrafficClassTraced_result, result_pure]
  rfl

/-- Recording the accesses leaves the result. -/
theorem rohcDecompressTraced_result (past : ℕ → UInt8) (s : ROHCState) (compressed : List UInt8)
    (compLen outLen : ℕ) : (rohcDecompressTraced past s compressed compLen outLen).result =
      rohcDecompress past s compressed compLen outLen := by
  simp only [rohcDecompressTraced, rebuildIpv4Traced, result_bind, result_stopIf_bind, result_note,
    Option.bind_some, apply_ite Traced.result, takeFieldTraced_result, rohcDecompressIpv6Traced_result,
    result_pure]
  rfl

variable {compLen outLen : ℕ}

theorem block_inside {array : ℕ → Access} {start count : ℕ} :
    (∀ e ∈ block array start count, Inside compLen outLen e) ↔
      ∀ i, start ≤ i → i < start + count → Inside compLen outLen (array i) := by
  simp only [block, List.forall_mem_map, List.mem_range'_1, and_imp]

theorem moveAccesses_inside {places : List ℕ} {pos : ℕ} (hpos : pos + places.length ≤ compLen)
    (hplaces : ∀ place ∈ places, place < 64) :
    ∀ e ∈ moveAccesses places pos, Inside compLen outLen e := by
  induction places generalizing pos with
  | nil => simp [moveAccesses]
  | cons place places ih =>
    rw [List.length_cons] at hpos
    rw [List.forall_mem_cons] at hplaces
    rw [moveAccesses, List.forall_mem_cons, List.forall_mem_cons]
    exact ⟨show pos < compLen by omega, hplaces.1, ih (by omega) hplaces.2⟩

theorem takeFieldTraced_within (compressed : List UInt8) (present : Bool) {places : List ℕ}
    (r : Rebuild) (hplaces : ∀ place ∈ places, place < 64) :
    (takeFieldTraced compressed compLen present places r).Within (Inside compLen outLen) := by
  cases present with
  | false => exact within_pure _
  | true =>
    simp only [takeFieldTraced, if_true, within_stopIf, within_note]
    intro hlen
    exact ⟨moveAccesses_inside (not_lt.mp hlen) hplaces, within_pure _⟩

theorem takeTrafficClassTraced_within (compressed : List UInt8) (present : Bool) (r : Rebuild) :
    (takeTrafficClassTraced compressed compLen present r).Within (Inside compLen outLen) := by
  cases present with
  | false => exact within_pure _
  | true =>
    simp only [takeTrafficClassTraced, if_true, within_stopIf, within_note, List.forall_mem_cons]
    intro hlen
    exact ⟨⟨not_lt.mp hlen, show 0 < 64 by decide, show 1 < 64 by decide, by simp⟩, within_pure _⟩

theorem storeAccesses_inside {places : List ℕ} (hplaces : ∀ i ∈ places, i < ROHC_CTX_SIZE) :
    ∀ e ∈ storeAccesses places, Inside compLen outLen e := by
  intro e he
  obtain ⟨i, hi, he⟩ := List.mem_flatMap.mp he
  have hlt := hplaces i hi
  have hsmall : i < 64 := hlt.trans (by decide)
  rcases List.mem_pair.mp he with rfl | rfl
  · exact hsmall
  · exact hlt

theorem copyPayload_inside {pos base : ℕ} (hpos : pos ≤ compLen)
    (hfit : base + (compLen - pos) ≤ outLen) :
    ∀ e ∈ block .compressed pos (compLen - pos) ++ block .out base (compLen - pos),
      Inside compLen outLen e := by
  rw [List.forall_mem_append, block_inside, block_inside]
  exact ⟨fun i _ hi => show i < compLen by omega, fun i _ hi => show i < outLen by omega⟩

theorem copyHeader_inside {size : ℕ} (hsize : size ≤ 64) (hfit : size ≤ outLen) :
    ∀ e ∈ block .rebuilt 0 size ++ block .out 0 size, Inside compLen outLen e := by
  rw [List.forall_mem_append, block_inside, block_inside]
  exact ⟨fun i _ hi => show i < 64 by omega, fun i _ hi => show i < outLen by omega⟩

theorem headerBlock_inside {count : ℕ} :
    (∀ e ∈ block .compressed 0 count, Inside compLen outLen e) ↔ count ≤ compLen := by
  rw [block_inside]
  constructor
  · intro h
    by_contra hlt
    exact lt_irrefl compLen (h compLen (Nat.zero_le _) (by omega))
  · intro h i _ hi
    exact show i < compLen by omega

theorem rohcDecompressIpv6Traced_within {s : ROHCState} {compressed : List UInt8}
    (hlen : 5 ≤ compLen) :
    (rohcDecompressIpv6Traced s compressed compLen outLen).Within (Inside compLen outLen) ↔
      ipv6PayloadStart (byteAt compressed 1) ≤ compLen := by
  have hshort := ipv6PayloadStart_le (byteAt compressed 1)
  have hlen6 : 5 + flagBytes (byteAt compressed 1) ROHC_V6_FLAG_NEXT_HDR 1 +
      flagBytes (byteAt compressed 1) ROHC_V6_FLAG_HOP_LIMIT 1 +
      flagBytes (byteAt compressed 1) ROHC_V6_FLAG_TC 1 = ipv6PayloadStart (byteAt compressed 1) := rfl
  simp only [rohcDecompressIpv6Traced, hlen6, within_stopIf, within_note, headerBlock_inside]
  constructor
  · intro h
    exact ((h (by omega)).2 (by omega)).1
  · intro hheader _
    refine ⟨?_, fun _ => ⟨hheader, fun _ => ⟨?_, ?_⟩⟩⟩
    · simp only [List.forall_mem_cons, List.not_mem_nil, false_implies, implies_true, and_true]
      exact ⟨show 1 < compLen by omega, show 2 < compLen by omega⟩
    · rw [List.forall_mem_append, block_inside, block_inside]
      exact ⟨fun i _ hi => show i < ROHC_CTX_SIZE by unfold ROHC_CTX_SIZE; omega,
        fun i _ hi => show i < 64 by omega⟩
    refine within_bind.mpr ⟨takeFieldTraced_within _ _ _ (by decide), fun r₁ _ => ?_⟩
    refine within_bind.mpr ⟨takeFieldTraced_within _ _ _ (by decide), fun r₂ _ => ?_⟩
    refine within_bind.mpr ⟨takeFieldTraced_within _ _ _ (by decide), fun r₃ _ => ?_⟩
    refine within_bind.mpr ⟨takeTrafficClassTraced_within _ _ _, fun r _ => ?_⟩
    simp only [within_stopIf, within_note, within_pure, and_true]
    intro hpos hfit
    rw [not_lt] at hpos hfit
    exact ⟨copyHeader_inside (by decide) (by omega), copyPayload_inside hpos hfit,
      storeAccesses_inside (by decide)⟩

/-- The length of the header is used before it is compared with that of the packet, and the length
of the context before it is compared with the size of its array. -/
def LengthsFit (s : ROHCState) (compressed : List UInt8) : Prop :=
  s.contextValid = true → 5 ≤ compressed.length →
    ipv4HeaderLen (byteAt compressed 1) ≤ compressed.length ∧
      (byteAt compressed 2 = headerCrc compressed (ipv4HeaderLen (byteAt compressed 1)) →
        if announcesIpv6 compressed then ipv6PayloadStart (byteAt compressed 1) ≤ compressed.length
        else ihl (s.ctx 0) ≤ ROHC_CTX_SIZE)

theorem contextBlock_inside {size : ℕ} (hsize : size ≤ 60) :
    (∀ e ∈ block .context 0 size ++ block .rebuilt 0 size, Inside compLen outLen e) ↔
      size ≤ ROHC_CTX_SIZE := by
  rw [List.forall_mem_append, block_inside, block_inside]
  constructor
  · rintro ⟨hcontext, -⟩
    by_contra hlt
    exact lt_irrefl ROHC_CTX_SIZE (hcontext ROHC_CTX_SIZE (Nat.zero_le _) (by omega))
  · intro h
    exact ⟨fun i _ hi => show i < ROHC_CTX_SIZE by omega, fun i _ hi => show i < 64 by omega⟩

/-- Behind the CRC an IPv4 packet is read within its length, and the context up to the length that
it states itself. -/
theorem rebuildIpv4Traced_within {past : ℕ → UInt8} {s : ROHCState} {compressed : List UInt8} :
    (rebuildIpv4Traced past s compressed compLen outLen).Within (Inside compLen outLen) ↔
      ihl (s.ctx 0) ≤ ROHC_CTX_SIZE := by
  have hmax := ihl_le (s.ctx 0)
  simp only [rebuildIpv4Traced, within_stopIf, within_note, contextBlock_inside hmax, not_lt]
  constructor
  · rintro ⟨-, h⟩
    by_cases hihl : 20 ≤ ihl (s.ctx 0)
    · exact (h hihl).1
    · unfold ROHC_CTX_SIZE
      omega
  · intro hctx
    refine ⟨?_, fun _ => ⟨hctx, ?_⟩⟩
    · exact List.forall_mem_singleton.mpr (show 0 < ROHC_CTX_SIZE by decide)
    refine within_bind.mpr ⟨takeFieldTraced_within _ _ _ (by decide), fun r₁ _ => ?_⟩
    refine within_bind.mpr ⟨takeFieldTraced_within _ _ _ (by decide), fun r₂ _ => ?_⟩
    refine within_bind.mpr ⟨takeFieldTraced_within _ _ _ (by decide), fun r₃ _ => ?_⟩
    refine within_bind.mpr ⟨takeFieldTraced_within _ _ _ (by decide), fun r _ => ?_⟩
    simp only [within_stopIf, within_note, within_pure, and_true, not_lt, List.forall_mem_map]
    intro hpos
    refine ⟨?_, ?_, ?_, fun hfit => ⟨copyHeader_inside (by omega) (by omega),
      copyPayload_inside hpos hfit, storeAccesses_inside (by decide)⟩⟩
    · exact show ∀ i ∈ [2, 3, 10, 11], i < 64 by decide
    · exact block_inside.mpr fun i _ hi => show i < 64 by omega
    · exact show ∀ i ∈ [10, 11], i < 64 by decide

theorem rohcDecompressTraced_within (past : ℕ → UInt8) (s : ROHCState) (compressed : List UInt8)
    (outLen : ℕ) :
    (rohcDecompressTraced past s compressed compressed.length outLen).Within
      (Inside compressed.length outLen) ↔ LengthsFit s compressed := by
  have hshort := ipv4HeaderLen_le (byteAt compressed 1)
  have hlen4 : 5 + flagBytes (byteAt compressed 1) ROHC_FLAG_TOS 1 +
      flagBytes (byteAt compressed 1) ROHC_FLAG_FLAGS 2 +
      flagBytes (byteAt compressed 1) ROHC_FLAG_TTL 1 = ipv4HeaderLen (byteAt compressed 1) := rfl
  simp only [rohcDecompressTraced, hlen4, within_stopIf, within_note, headerBlock_inside,
    LengthsFit, Bool.not_eq_true', Bool.not_eq_false, not_lt, not_not, List.forall_mem_cons,
    List.not_mem_nil, false_implies, implies_true, and_true]
  refine forall_congr' fun hvalid => forall_congr' fun hlen => ?_
  have hfirst : ∀ i < 5, Inside compressed.length outLen (.compressed i) :=
    fun i hi => show i < compressed.length by omega
  rw [and_iff_right ⟨hfirst 2 (by decide), hfirst 1 (by decide)⟩, forall_prop_of_true (by omega)]
  refine and_congr_right fun _ => forall_congr' fun _ => ?_
  rw [and_iff_right (hfirst 0 (by decide))]
  by_cases hv6 : announcesIpv6 compressed
  · have hbit : byteAt compressed 0 &&& ROHC_VERSION_V6 ≠ 0 := hv6
    rw [if_pos hbit, if_pos hv6]
    exact rohcDecompressIpv6Traced_within hlen
  · have hbit : ¬ byteAt compressed 0 &&& ROHC_VERSION_V6 ≠ 0 := hv6
    rw [if_neg hbit, if_neg hv6]
    exact rebuildIpv4Traced_within

/-- The calls of the interface that change a state; the lengths are those of the buffers, and
`past` is the memory behind the context. -/
inductive Call
  | compress (packet : List UInt8) (outLen : ℕ)
  | sync (packet : List UInt8) (packetLen : ℕ)
  | decompress (past : ℕ → UInt8) (compressed : List UInt8) (outLen : ℕ)

def call (s : ROHCState) : Call → ROHCState
  | .compress packet outLen => (rohcCompress s packet outLen).2
  | .sync packet packetLen => rohcSyncContext s packet packetLen
  | .decompress past compressed outLen =>
      match rohcDecompress past s compressed compressed.length outLen with
      | some (_, s') => s'
      | none => s

/-- Every element that a call of decompression reads or writes lies in its array. -/
def StaysInside (s : ROHCState) : Call → Prop
  | .decompress past compressed outLen =>
      (rohcDecompressTraced past s compressed compressed.length outLen).Within
        (Inside compressed.length outLen)
  | _ => True

/-- The two lengths fit whenever a packet is decompressed. -/
def Fitting (s : ROHCState) : Call → Prop
  | .decompress _ compressed _ => LengthsFit s compressed
  | _ => True

theorem staysInside_iff_fitting (s : ROHCState) (c : Call) : StaysInside s c ↔ Fitting s c := by
  cases c with
  | compress packet outLen => exact Iff.rfl
  | sync packet packetLen => exact Iff.rfl
  | decompress past compressed outLen => exact rohcDecompressTraced_within past s compressed outLen

/-- Decompression stays in its arrays all along a run exactly if the lengths fit in each call. -/
theorem stays_inside_iff (cs : List Call) :
    Meets call StaysInside rohcInit cs ↔ Meets call Fitting rohcInit cs := by
  have heq : StaysInside = Fitting := funext₂ fun s c => propext (staysInside_iff_fitting s c)
  rw [heq]

/-- A packet that becomes the context. -/
def syncIpv4 : Call := .sync (0x45 :: List.replicate 19 0) 20

/-- Five bytes whose flags announce a header of nine. -/
def shortHeader : Call := .decompress (fun _ => 0) [0, 0x0E, 0, 0, 0] 2560

/-- A packet with all options that an IPv4 header can have. -/
def syncOptions : Call := .sync (0x4F :: List.replicate 59 0) 60

def shortestPacket : Call :=
  .decompress (fun _ => 0) [0, 1, crc8 [0, 1, 0, 0, 0], 0, 0] 2560

/-- The copy of the header reads behind the packet, the copy of the context behind its array. -/
theorem reads_past_packet_and_context :
    ¬ Meets call StaysInside rohcInit [syncIpv4, shortHeader] ∧
      ¬ Meets call StaysInside rohcInit [syncOptions, shortestPacket] := by
  constructor
  · rintro ⟨-, hinside, -⟩
    have hlen := ((rohcDecompressTraced_within (fun _ => 0) (call rohcInit syncIpv4)
      [0, 0x0E, 0, 0, 0] 2560).mp hinside (by decide +kernel) (by decide)).1
    revert hlen
    decide
  · rintro ⟨-, hinside, -⟩
    have hsize := ((rohcDecompressTraced_within (fun _ => 0) (call rohcInit syncOptions)
      [0, 1, crc8 [0, 1, 0, 0, 0], 0, 0] 2560).mp hinside (by decide +kernel) (by decide)).2
      (by decide +kernel)
    revert hsize
    decide +kernel

end EchoProtocol.RohcBounds
