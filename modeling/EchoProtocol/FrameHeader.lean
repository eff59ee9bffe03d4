import EchoProtocol.Receive

/-!
# What the receiver accepts of what the sender builds
-/
namespace EchoProtocol.FrameHeader
open Bytes Fec ReedSolomon Rohc Frames Endpoint Transmit Receive

theorem encoded_le_iff {n m : ℕ} (hpos : 0 < n) (hm : (m : ℤ) = fecEncodedLen n) :
    m ≤ SIZE_BUF ↔ n ≤ 1784 := by
  by_cases hn : n ≤ 183
  · have hecc : fecEccBytes n ≤ 72 := by
      unfold fecEccBytes
      simp only
      split_ifs <;> omega
    rw [fecEncodedLen_single hpos hn] at hm
    unfold SIZE_BUF
    omega
  · rw [fecEncodedLen_multi (by omega)] at hm
    unfold blockCount FEC_RS_MAX_N FEC_RS_MSGBLK at hm
    unfold SIZE_BUF
    omega

theorem isValidFecLen_encoded {n m : ℕ} (hpos : 0 < n) (hm : (m : ℤ) = fecEncodedLen n) :
    isValidFecLen m = true := by
  have hthree : 3 ≤ m := by
    by_cases hn : n ≤ 183
    · rw [fecEncodedLen_single hpos hn] at hm
      omega
    · rw [fecEncodedLen_multi (by omega)] at hm
      unfold blockCount FEC_RS_MAX_N FEC_RS_MSGBLK at hm
      omega
  unfold isValidFecLen
  rw [if_neg (by omega)]
  by_cases hn : n ≤ 223
  · have hle : m ≤ FEC_RS_MAX_N + 2 := by
      by_cases hs : n ≤ 183
      · have hblock := (single_block_iff n).mpr hs
        rw [fecEncodedLen_single hpos hs] at hm
        omega
      · rw [fecEncodedLen_multi (by omega)] at hm
        unfold blockCount FEC_RS_MAX_N FEC_RS_MSGBLK at *
        omega
    rw [if_pos hle, List.any_eq_true]
    refine ⟨n - 1, List.mem_range.mpr ?_, ?_⟩
    · unfold FEC_RS_MAX_N
      omega
    · rw [Nat.sub_add_cancel hpos, ← hm]
      exact decide_eq_true rfl
  · have hblocks : 2 ≤ blockCount n := by
      unfold blockCount FEC_RS_MSGBLK
      omega
    rw [fecEncodedLen_multi (by omega)] at hm
    have hm' : m = blockCount n * FEC_RS_MAX_N + 2 := by exact_mod_cast hm
    have hdiv : (m - 2) / FEC_RS_MAX_N = blockCount n := by
      rw [hm', Nat.add_sub_cancel, Nat.mul_div_cancel _ (by decide)]
    have hmod : (m - 2) % FEC_RS_MAX_N = 0 := by
      rw [hm', Nat.add_sub_cancel, Nat.mul_mod_left]
    have hagain : blockCount (blockCount n * FEC_RS_MSGBLK) = blockCount n := by
      generalize blockCount n = k
      unfold blockCount FEC_RS_MSGBLK
      omega
    have hbig : ¬ m ≤ FEC_RS_MAX_N + 2 := by
      rw [hm']
      unfold FEC_RS_MAX_N
      omega
    simp only
    rw [if_neg hbig, if_pos hmod, hdiv,
      fecEncodedLen_multi (by unfold FEC_RS_MSGBLK; omega), hagain, ← hm']
    exact decide_eq_true rfl

theorem isValidFecLen_pos {m : ℕ} (h : isValidFecLen m = true) : 0 < m := by
  unfold isValidFecLen at h
  by_contra hz
  rw [if_pos (by omega)] at h
  exact absurd h (by decide)

theorem isValidHeader_iff {f : Frame} (hlen : f.payload.length < 8192) :
    isValidHeader (header f) = true ↔ ¬ (f.comp = true ∧ f.rohc = true) ∧
      0 < f.payload.length ∧ f.payload.length ≤ SIZE_BUF ∧
      (f.fec = true → isValidFecLen f.payload.length = true) := by
  obtain ⟨hc, hr, hf, hl⟩ := header_fields hlen
  unfold isValidHeader
  simp only [hc, hr, hf, hl]
  generalize f.payload.length = n
  cases f.comp <;> cases f.rohc <;> cases f.fec <;> simp <;> grind

/-- The receiver accepts the frame and reads its flags and its length back. -/
def Accepted (f : Frame) : Prop :=
  isValidHeader (header f) = true ∧ headerComp (header f) = f.comp ∧
    headerRohc (header f) = f.rohc ∧ headerFec (header f) = f.fec ∧
    headerLen (header f) = f.payload.length

theorem accepted_iff {f : Frame} (hlen : f.payload.length < 8192) :
    Accepted f ↔ isValidHeader (header f) = true :=
  and_iff_left (header_fields hlen)

/-- The payload before error correction is the packet or something shorter, and never compressed
twice. -/
theorem choosePayload_spec (lz4 : Lz4) {raw : List UInt8} (hraw : 0 < raw.length)
    (result : Except ℤ (List UInt8)) :
    0 < (choosePayload lz4 raw result).payload.length ∧
      (choosePayload lz4 raw result).payload.length ≤ raw.length ∧
      ¬ ((choosePayload lz4 raw result).comp = true ∧ (choosePayload lz4 raw result).rohc = true) := by
  cases result with
  | ok out =>
    simp only [choosePayload]
    split_ifs with h
    · exact ⟨h.1, h.2.le, fun hb => absurd hb.1 (by decide)⟩
    · exact ⟨hraw, le_rfl, fun hb => absurd hb.1 (by decide)⟩
  | error code =>
    simp only [choosePayload]
    split_ifs with h
    · exact ⟨h.1, h.2.le, fun hb => absurd hb.2 (by decide)⟩
    · exact ⟨hraw, le_rfl, fun hb => absurd hb.2 (by decide)⟩

theorem addFec_spec {f : Frame} (hpos : 0 < f.payload.length) (hlen : f.payload.length ≤ SIZE_BUF) :
    ∃ out, fecEncode f.payload (SIZE_BUF * 2) = some out ∧
      addFec f = { f with fec := true, payload := out } ∧
      (out.length : ℤ) = fecEncodedLen f.payload.length ∧ out.length < 4096 := by
  have hlen' : f.payload.length ≤ 2048 := hlen
  obtain ⟨out, hout⟩ := fecEncode_isSome (List.ne_nil_of_length_pos hpos) (by omega)
  have hcode := fecEncode_length hout
  have hbound : 0 < out.length ∧ out.length < 4096 := by
    by_cases hn : f.payload.length ≤ 183
    · have hblock := (single_block_iff _).mpr hn
      rw [fecEncodedLen_single hpos hn] at hcode
      unfold FEC_RS_MAX_N at hblock
      omega
    · rw [fecEncodedLen_multi (by omega)] at hcode
      unfold blockCount FEC_RS_MAX_N FEC_RS_MSGBLK at hcode
      omega
  refine ⟨out, hout, ?_, hcode, hbound.2⟩
  have hcap : fecEncode f.payload (SIZE_BUF * 2) = some out := hout
  have hfits : fecEncodedLen f.payload.length > 0 ∧
      fecEncodedLen f.payload.length ≤ ↑SIZE_BUF * 2 := by
    rw [← hcode]
    unfold SIZE_BUF
    omega
  have hout' : 0 < out.length ∧ out.length ≤ SIZE_BUF * 2 := by
    unfold SIZE_BUF
    omega
  simp only [addFec]
  rw [if_pos hfits, hcap]
  exact if_pos hout'

/-- The length of the payload before error correction. -/
def chosenLength (lz4 : Lz4) (e : Echo) (raw : List UInt8) : ℕ :=
  (choosePayload lz4 raw (rohcCompress e.rohcTx raw ROHC_MAX_COMPRESSED).1).payload.length

theorem accepted_addFec {f : Frame} (hpos : 0 < f.payload.length)
    (hlen : f.payload.length ≤ SIZE_BUF) (hflags : ¬ (f.comp = true ∧ f.rohc = true)) :
    Accepted (addFec f) ↔ f.payload.length ≤ 1784 := by
  obtain ⟨out, -, haddFec, hcode, hlt⟩ := addFec_spec hpos hlen
  have hlt' : out.length < 8192 := by omega
  have hposOut := isValidFecLen_pos (isValidFecLen_encoded hpos hcode)
  rw [haddFec, accepted_iff hlt', isValidHeader_iff hlt', ← encoded_le_iff hpos hcode]
  exact ⟨fun h => h.2.2.1, fun h => ⟨hflags, hposOut, h, fun _ => isValidFecLen_encoded hpos hcode⟩⟩

/-- The receiver accepts what the sender builds exactly when the frame is a forced raw one or
holds at most eight blocks of 223 bytes. -/
theorem buildFrame_accepted_iff (lz4 : Lz4) (e : Echo) {raw : List UInt8} (hpos : 1 ≤ raw.length)
    (hlen : raw.length ≤ SIZE_BUF) :
    Accepted (buildFrame lz4 e raw).1 ↔
      e.txRawCounter + 1 ≥ 100 ∨ chosenLength lz4 e raw ≤ 1784 := by
  have hlen' : raw.length ≤ 2048 := hlen
  by_cases hforced : e.txRawCounter + 1 ≥ 100
  · have hlt : (⟨false, false, false, raw⟩ : Frame).payload.length < 8192 := by
      change raw.length < 8192
      omega
    rw [buildFrame_forced hforced, accepted_iff hlt, isValidHeader_iff hlt]
    exact ⟨fun _ => .inl hforced, fun _ => ⟨by simp, hpos, hlen, by simp⟩⟩
  · obtain ⟨hchosen, hle, hflags⟩ := choosePayload_spec lz4 hpos
      (rohcCompress e.rohcTx raw ROHC_MAX_COMPRESSED).1
    rw [buildFrame_chosen hforced, accepted_addFec hchosen (hle.trans hlen) hflags]
    exact ⟨.inr, fun h => h.resolve_left hforced⟩

/-- A compressor that never succeeds. -/
def noLz4 : Lz4 := ⟨fun _ => [], fun _ => none⟩

def freshEcho : Echo := echoInit (fun _ => 0) (fun _ => 0) false

def zeroMemory : Memory := ⟨fun _ => 0, fun _ => 0⟩

theorem buildFrame_accepted_small : Accepted (buildFrame noLz4 freshEcho [0x00, 0x01]).1 :=
  (buildFrame_accepted_iff noLz4 freshEcho (by decide) (by decide)).mpr (.inr (by decide))

theorem choosePayload_zeros (s : ROHCState) {n : ℕ} (hn : 20 ≤ n) :
    choosePayload noLz4 (List.replicate n 0)
      (rohcCompress s (List.replicate n 0) ROHC_MAX_COMPRESSED).1 =
      ⟨false, false, false, List.replicate n 0⟩ := by
  have hcode : rohcCompress s (List.replicate n 0) ROHC_MAX_COMPRESSED = (.error (-1), s) := by
    unfold rohcCompress
    rw [if_neg (by rw [List.length_replicate]; omega), byteAt_replicate_zero, if_neg (by decide),
      if_neg (by decide)]
  rw [hcode]
  rfl

/-- A packet of 1785 bytes that no compressor shortens needs nine blocks. -/
theorem nine_blocks_refused :
    ¬ Accepted (buildFrame noLz4 freshEcho (List.replicate 1785 0)).1 := by
  have hlen : (List.replicate 1785 (0 : UInt8)).length = 1785 := List.length_replicate
  rw [buildFrame_chosen (by decide), choosePayload_zeros _ (by omega), accepted_addFec]
  · rw [hlen]
    omega
  · rw [hlen]
    omega
  · rw [hlen]
    unfold SIZE_BUF
    omega
  · exact fun h => absurd h.1 (by decide)

end EchoProtocol.FrameHeader
