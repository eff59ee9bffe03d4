import EchoProtocol.BoundedDistance
import EchoProtocol.Fec

/-!
# Frames with a damaged length prefix

The two bytes that state the length of a payload lie outside the block code. A damaged prefix
goes unnoticed when the length it states has encodings of the same size.
-/
namespace EchoProtocol.DamagedPrefix
open Bytes ReedSolomon Fec

theorem fecEccBytes_mono {n m : ℕ} (h : n ≤ m) : fecEccBytes n ≤ fecEccBytes m := by
  simp only [fecEccBytes]
  split_ifs <;> omega

theorem blockCount_pos {n : ℕ} (hn : 183 < n) : 1 ≤ blockCount n := by
  unfold blockCount FEC_RS_MSGBLK
  omega

theorem single_size_lt {n m : ℕ} (h : n < m) : n + fecEccBytes n < m + fecEccBytes m :=
  Nat.add_lt_add_of_lt_of_le h (fecEccBytes_mono h.le)

theorem single_size_eq_iff {n m : ℕ} : m + fecEccBytes m = n + fecEccBytes n ↔ m = n := by
  rcases lt_trichotomy m n with h | rfl | h
  · exact iff_of_false (single_size_lt h).ne h.ne
  · exact iff_of_true rfl rfl
  · exact iff_of_false (single_size_lt h).ne' h.ne'

theorem single_size_eq_blocks_iff {n b : ℕ} (hn : n ≤ 183) (hb : 1 ≤ b) :
    n + fecEccBytes n = b * FEC_RS_MAX_N ↔ n = 183 ∧ b = 1 := by
  have hfull : 183 + fecEccBytes 183 = 255 := rfl
  rw [FEC_RS_MAX_N]
  rcases hn.lt_or_eq with hlt | rfl
  · have := single_size_lt hlt
    omega
  · omega

/-- Two lengths that share a size are both sent in blocks, or one of them is 183, whose single
block is as long as one block of the other form. -/
theorem fecEncodedLen_eq_iff {n m : ℕ} (hn : 0 < n) (hm : 0 < m) :
    fecEncodedLen m = fecEncodedLen n ↔ m = n ∨
      (183 < n ∧ 183 < m ∧ blockCount m = blockCount n) ∨
      (n = 183 ∧ 183 < m ∧ blockCount m = 1) ∨ (m = 183 ∧ 183 < n ∧ blockCount n = 1) := by
  by_cases hns : n ≤ 183
  · by_cases hms : m ≤ 183
    · have hsize := @single_size_eq_iff n m
      rw [fecEncodedLen_single hn hns, fecEncodedLen_single hm hms]
      omega
    · have hsize := single_size_eq_blocks_iff hns (blockCount_pos (not_le.mp hms))
      rw [fecEncodedLen_single hn hns, fecEncodedLen_multi (by omega)]
      omega
  · by_cases hms : m ≤ 183
    · have hsize := single_size_eq_blocks_iff hms (blockCount_pos (not_le.mp hns))
      rw [fecEncodedLen_single hm hms, fecEncodedLen_multi (by omega)]
      omega
    · rw [fecEncodedLen_multi (by omega), fecEncodedLen_multi (by omega), FEC_RS_MAX_N]
      constructor
      · intro h
        exact .inr (.inl ⟨by omega, by omega, by omega⟩)
      · rintro (rfl | ⟨-, -, h⟩ | ⟨h, -⟩ | ⟨h, -⟩)
        · rfl
        · rw [h]
        · omega
        · omega

theorem row_deinterleave_one {l : List UInt8} (hl : l.length = FEC_RS_MAX_N) :
    row (fecDeinterleave l 1 FEC_RS_MAX_N) FEC_RS_MAX_N 0 = l := by
  rw [fecDeinterleave, row_grid _ Nat.one_pos]
  refine Eq.trans ?_ (tabulate_byteAt hl)
  refine congrArg (tabulate FEC_RS_MAX_N) ?_
  funext c
  rw [Nat.mul_one, Nat.add_zero]

section Rows

variable {blocks : List UInt8} {dataLen nblocks : ℕ}

theorem decodeRows_isSome
    (hrows : ∀ r < nblocks,
      ∃ dec, rsDecodeBlock (row blocks FEC_RS_MAX_N r) FEC_RS_MSGBLK = some dec)
    {n r : ℕ} (hn : r + n = nblocks) (out : List UInt8) :
    ∃ res, decodeRows blocks dataLen n r out = some res := by
  induction n generalizing r out with
  | zero => exact ⟨out, rfl⟩
  | succ n ih =>
    obtain ⟨dec, hdec⟩ := hrows r (by omega)
    rw [decodeRows, hdec, Option.bind_some]
    exact ih (by omega) _

theorem decodeRows_length
    (hrows : ∀ r < nblocks, (row blocks FEC_RS_MAX_N r).length = FEC_RS_MAX_N)
    {n r : ℕ} (hn : r + n = nblocks) {out res : List UInt8}
    (hout : out.length = min dataLen (r * FEC_RS_MSGBLK))
    (h : decodeRows blocks dataLen n r out = some res) :
    res.length = min dataLen (nblocks * FEC_RS_MSGBLK) := by
  induction n generalizing r out with
  | zero =>
    obtain rfl := Option.some.inj h
    rw [hout, ← hn, Nat.add_zero]
  | succ n ih =>
    have hrow := hrows r (by omega)
    rw [decodeRows, Option.bind_eq_some_iff] at h
    obtain ⟨dec, hdec, h⟩ := h
    have hdeclen : dec.length = FEC_RS_MSGBLK :=
      ((rsDecodeBlock_eq_some_iff (by decide) (by rw [hrow]; decide) hrow.le).mp hdec).1
    refine ih (by omega) ?_ h
    rw [List.length_append, List.length_take, hdeclen, hout, copyLen]
    split_ifs <;> rw [Nat.add_mul] <;> omega

end Rows

theorem fecDecode_length {inp out : List UInt8} {cap : ℕ} (h : fecDecode inp cap = some out) :
    out.length = statedLen inp := by
  simp only [fecDecode, statedLen_read] at h
  split_ifs at h with hshort hrange hblock hlen hlen
  · refine ((rsDecodeBlock_eq_some_iff ?_ ?_ ?_).mp h).1
    · omega
    · omega
    · omega
  · have hall : statedLen inp ≤ blockCount (statedLen inp) * FEC_RS_MSGBLK := by
      unfold blockCount FEC_RS_MSGBLK
      omega
    rw [decodeRows_length (fun r hr => row_deinterleave_length _ hr) (Nat.zero_add _)
      (by simp) h, min_eq_left hall]

/-- A wrong stated length with which the body of a frame still decodes: both lengths are sent
in equally many blocks, or the single block of 183 bytes is taken for a block of the other form,
or a block of that form lies near the encoding of some message of 183 bytes. -/
def Misread (sent stated : ℕ) (body : List UInt8) : Prop :=
  stated ≠ sent ∧
    ((183 < sent ∧ 183 < stated ∧ blockCount stated = blockCount sent) ∨
      (sent = 183 ∧ 183 < stated ∧ blockCount stated = 1) ∨
      (stated = 183 ∧ 183 < sent ∧ blockCount sent = 1 ∧
        ∃ msg : List UInt8, msg.length = 183 ∧
          mismatches (rsEncodeBlock msg (fecEccBytes 183)) body ≤ fecEccBytes 183 / 2))

theorem Misread.same_size {sent stated : ℕ} {body : List UInt8} (h : Misread sent stated body)
    (hpos : 0 < sent) : fecEncodedLen stated = fecEncodedLen sent := by
  obtain ⟨-, hforms⟩ := h
  have hstated : 0 < stated := by omega
  rw [fecEncodedLen_eq_iff hpos hstated]
  rcases hforms with hrows | hblock | ⟨h1, h2, h3, -⟩
  · exact .inr (.inl hrows)
  · exact .inr (.inr (.inl hblock))
  · exact .inr (.inr (.inr ⟨h1, h2, h3⟩))

/-- The code of 183 bytes lies in that of 223 bytes, so some blocks belong to both. -/
theorem body_of_nested {data F msg : List UInt8} {outCap : ℕ} (hmsg : msg.length = 183)
    (hnested : data = (rsEncodeBlock msg (fecEccBytes 183)).take FEC_RS_MSGBLK)
    (hF : fecEncode data outCap = some F) : F.drop 2 = rsEncodeBlock msg (fecEccBytes 183) := by
  have hecc : fecEccBytes 183 = 72 := rfl
  have hclen : (rsEncodeBlock msg (fecEccBytes 183)).length = FEC_RS_MSGBLK + FEC_RS_PARITY_BLK := by
    rw [rsEncodeBlock_length (by omega), hmsg, hecc]
    rfl
  have hdata : data.length = FEC_RS_MSGBLK := by
    rw [hnested, List.length_take_of_le (by omega)]
  have hone : blockCount data.length = 1 := by rw [hdata]; rfl
  have hrow : messageRow data 0 = data := by
    rw [messageRow, Nat.zero_mul, List.drop_zero, List.take_of_length_le hdata.le, hdata, Nat.sub_self,
      List.replicate_zero, List.append_nil]
  obtain ⟨hblock, -⟩ | ⟨-, rfl⟩ := fecEncode_cases hF
  · rw [single_block_iff, hdata] at hblock
    exact absurd hblock (by decide)
  · have hbody := row_interleaved data Nat.one_pos
    rw [hrow, row_deinterleave_one (by rw [fecInterleave_length, Nat.mul_one]), hnested,
      rsEncodeBlock_of_roots hclen (by rw [hclen]; decide) (by decide) fun i hi =>
        rsEncodeBlock_root (by omega) (by unfold FEC_RS_PARITY_BLK at hi; omega)] at hbody
    rw [List.drop_left' (lengthPrefix_length _), encodedBlocks, hone, hnested]
    exact hbody

/-- The third kind of misread length occurs. -/
theorem misread_of_nested {data F msg : List UInt8} {outCap : ℕ} (hmsg : msg.length = 183)
    (hnested : data = (rsEncodeBlock msg (fecEccBytes 183)).take FEC_RS_MSGBLK)
    (hF : fecEncode data outCap = some F) : Misread data.length 183 (F.drop 2) := by
  have hdata : data.length = FEC_RS_MSGBLK := by
    rw [hnested, List.length_take_of_le]
    rw [rsEncodeBlock_length (by decide), hmsg]
    decide
  rw [hdata, body_of_nested hmsg hnested hF]
  refine ⟨by decide, .inr (.inr ⟨rfl, by decide, rfl, msg, hmsg, ?_⟩)⟩
  rw [mismatches_self]
  exact Nat.zero_le _

section Accepted

variable {data F F' : List UInt8} {outCap cap : ℕ} (hF : fecEncode data outCap = some F)
  (hlen : F'.length = F.length) (hbody : F'.drop 2 = F.drop 2) (hcap : 65535 ≤ cap)

include hF hlen hbody hcap

theorem accepted_rows (hsent : 183 < data.length) (hstated : 183 < statedLen F')
    (hblocks : blockCount (statedLen F') = blockCount data.length) :
    ∃ out, fecDecode F' cap = some out := by
  have hle := statedLen_le F'
  obtain ⟨hblock, -⟩ | ⟨-, rfl⟩ := fecEncode_cases hF
  · rw [single_block_iff] at hblock
    omega
  · rw [List.length_append, lengthPrefix_length, fecInterleave_length, mul_comm] at hlen
    rw [List.drop_left' (lengthPrefix_length _)] at hbody
    rw [fecDecode_rows (by omega) hstated (by rw [hblocks]; omega), hblocks, hbody]
    refine decodeRows_isSome (fun r hr => ⟨messageRow data r, ?_⟩) (Nat.zero_add _) []
    rw [encodedBlocks, row_interleaved data hr]
    exact rsDecodeBlock_messageRow (encodedRow_length data r) (by rw [mismatches_self]; omega)

theorem accepted_single (hsent : data.length = 183) (hstated : 183 < statedLen F')
    (hblocks : blockCount (statedLen F') = 1) : ∃ out, fecDecode F' cap = some out := by
  have hle := statedLen_le F'
  have hecc : fecEccBytes data.length = 72 := by rw [hsent]; rfl
  obtain ⟨-, rfl⟩ | ⟨hblock, -⟩ := fecEncode_cases hF
  · set c := rsEncodeBlock data (fecEccBytes data.length) with hc
    have hclen : c.length = 255 := by
      rw [hc, rsEncodeBlock_length (by omega)]
      omega
    rw [List.length_append, lengthPrefix_length] at hlen
    rw [List.drop_left' (lengthPrefix_length _)] at hbody
    have hagain : rsEncodeBlock (c.take FEC_RS_MSGBLK) (c.length - FEC_RS_MSGBLK) = c := by
      have hparity : c.length - FEC_RS_MSGBLK = 32 := by rw [hclen]; rfl
      rw [hparity]
      exact rsEncodeBlock_of_roots hclen hclen.le (by omega) fun i hi =>
        rsEncodeBlock_root (by omega) (by omega)
    have hdec : rsDecodeBlock c FEC_RS_MSGBLK = some (c.take FEC_RS_MSGBLK) := by
      rw [rsDecodeBlock_eq_some_iff (by decide) (by rw [hclen]; decide) (by rw [hclen]; decide),
        hagain, mismatches_self]
      exact ⟨List.length_take_of_le (by rw [hclen]; decide), Nat.zero_le _⟩
    rw [fecDecode_rows (by omega) hstated (by rw [hblocks, FEC_RS_MAX_N]; omega), hblocks, hbody]
    refine decodeRows_isSome (fun r hr => ⟨c.take FEC_RS_MSGBLK, ?_⟩) (Nat.zero_add _) []
    obtain rfl : r = 0 := by omega
    rw [row_deinterleave_one hclen, hdec]
  · rw [single_block_iff] at hblock
    omega

omit hbody in
theorem accepted_block_iff (hsent : 183 < data.length) (hone : blockCount data.length = 1)
    (hstated : statedLen F' = 183) :
    (∃ out, fecDecode F' cap = some out) ↔ ∃ msg : List UInt8, msg.length = 183 ∧
      mismatches (rsEncodeBlock msg (fecEccBytes 183)) (F'.drop 2) ≤ fecEccBytes 183 / 2 := by
  have hsize : F'.length = 257 := by
    have hencoded := fecEncode_length hF
    rw [fecEncodedLen_multi (by omega), hone, FEC_RS_MAX_N] at hencoded
    omega
  have hbodylen : (F'.drop 2).length = 255 := by
    rw [List.length_drop]
    omega
  have hecc : (F'.drop 2).length - 183 = fecEccBytes 183 := by rw [hbodylen]; rfl
  rw [fecDecode_block (by omega) (by omega) hstated.le (by rw [hstated, hsize]; rfl), hstated]
  refine exists_congr fun out => ?_
  rw [rsDecodeBlock_eq_some_iff (by omega) (by omega) hbodylen.le, hecc]

theorem accepted_iff_misread (hpos : 1 ≤ data.length) (hne : statedLen F' ≠ data.length) :
    (∃ out, fecDecode F' cap = some out) ↔
      Misread data.length (statedLen F') (F'.drop 2) := by
  have hencoded : (F'.length : ℤ) = fecEncodedLen data.length := by
    rw [hlen]
    exact fecEncode_length hF
  by_cases hsize : fecEncodedLen (statedLen F') = fecEncodedLen data.length
  · have hstated : 0 < statedLen F' := by
      by_contra hzero
      rw [Nat.eq_zero_of_not_pos hzero] at hsize
      have : fecEncodedLen 0 = -1 := rfl
      omega
    rcases (fecEncodedLen_eq_iff hpos hstated).mp hsize with h | h | h | h
    · exact absurd h hne
    · exact iff_of_true (accepted_rows hF hlen hbody hcap h.1 h.2.1 h.2.2) ⟨hne, .inl h⟩
    · exact iff_of_true (accepted_single hF hlen hbody hcap h.1 h.2.1 h.2.2) ⟨hne, .inr (.inl h)⟩
    · obtain ⟨h183, hlarge, hone⟩ := h
      rw [accepted_block_iff hF hlen hcap hlarge hone h183, Misread]
      constructor
      · intro hmsg
        exact ⟨hne, .inr (.inr ⟨h183, hlarge, hone, hmsg⟩)⟩
      · rintro ⟨-, ⟨-, hlt, -⟩ | ⟨hsent, -⟩ | ⟨-, -, -, hmsg⟩⟩
        · omega
        · omega
        · exact hmsg
  · refine iff_of_false ?_ fun hmis => hsize (hmis.same_size hpos)
    rw [fecDecode_wrong_size (by rw [hencoded]; exact Ne.symm hsize)]
    rintro ⟨out, hout⟩
    exact Option.some_ne_none out hout.symm

end Accepted

/-- A frame with one damaged byte is refused or decoded to the original payload, unless its
prefix is misread. -/
theorem refused_or_original_iff {data F F' : List UInt8} {outCap cap : ℕ}
    (hpos : 1 ≤ data.length) (hmax : data.length ≤ 65535) (hF : fecEncode data outCap = some F)
    (hlen : F'.length = F.length) (hone : mismatches F F' ≤ 1) (hcap : 65535 ≤ cap) :
    (fecDecode F' cap = none ∨ fecDecode F' cap = some data) ↔
      ¬ Misread data.length (statedLen F') (F'.drop 2) := by
  have hfirst : F.take 2 = lengthPrefix data.length := by
    obtain ⟨-, rfl⟩ | ⟨-, rfl⟩ := fecEncode_cases hF
    · exact List.take_left' (lengthPrefix_length _)
    · exact List.take_left' (lengthPrefix_length _)
  by_cases htake : F'.take 2 = F.take 2
  · -- an intact prefix states the right length, and the body is corrected
    have hstated := statedLen_of_take hmax (htake.trans hfirst)
    refine iff_of_true (.inr ?_) fun hmis => hmis.1 hstated
    exact fecDecode_one_damaged hpos hmax hF hlen htake hone (hmax.trans hcap)
  · have hbody := drop_eq_of_take_ne hlen hone htake
    have htwo : 2 ≤ F'.length := by
      have htakelen := congrArg List.length hfirst
      rw [List.length_take, lengthPrefix_length] at htakelen
      omega
    have hne : statedLen F' ≠ data.length := by
      intro h
      apply htake
      rw [hfirst, ← h, lengthPrefix_statedLen htwo]
    rw [← accepted_iff_misread hF hlen hbody hcap hpos hne]
    constructor
    · rintro (h | h) ⟨out, hout⟩
      · rw [h] at hout
        exact Option.some_ne_none out hout.symm
      · exact hne (fecDecode_length h).symm
    · intro h
      exact .inl (Option.eq_none_iff_forall_ne_some.mpr fun out hout => h ⟨out, hout⟩)

/-- A payload of three bytes whose prefix states another length is refused. -/
theorem refused_or_original_short : ∃ F, fecEncode [0x45, 0x00, 0x1C] 4096 = some F ∧
    (fecDecode (F.set 1 0x04) 65535 = none ∨
      fecDecode (F.set 1 0x04) 65535 = some [0x45, 0x00, 0x1C]) := by
  have hdata : ([0x45, 0x00, 0x1C] : List UInt8) ≠ [] := by decide
  obtain ⟨F, hF⟩ := fecEncode_isSome hdata (by decide)
  refine ⟨F, hF, ?_⟩
  rw [refused_or_original_iff (by decide) (by decide) hF (List.length_set ..)
    (mismatches_set_le _ _ _) le_rfl]
  rintro ⟨-, ⟨h, -⟩ | ⟨h, -⟩ | ⟨-, h, -⟩⟩
  all_goals exact absurd h (by decide)

/-- 184 zeros whose prefix is changed to 185: one zero too many is returned. -/
theorem longer_payload_returned : ∃ F, fecEncode (List.replicate 184 0) 4096 = some F ∧
    (F.set 1 185).length = F.length ∧ mismatches F (F.set 1 185) ≤ 1 ∧
    ¬ (fecDecode (F.set 1 185) 65535 = none ∨
      fecDecode (F.set 1 185) 65535 = some (List.replicate 184 0)) := by
  have hlen : (List.replicate 184 (0 : UInt8)).length = 184 := List.length_replicate
  obtain ⟨F, hF⟩ := fecEncode_isSome (List.ne_nil_of_length_pos (hlen.symm ▸ by decide))
    (hlen.trans_le (by decide))
  refine ⟨F, hF, List.length_set .., mismatches_set_le _ _ _, ?_⟩
  have hstated : statedLen (F.set 1 185) = 185 := by
    obtain ⟨-, rfl⟩ | ⟨-, rfl⟩ := fecEncode_cases hF
    all_goals
      rw [hlen]
      rfl
  have hbody : (F.set 1 185).drop 2 = F.drop 2 := by
    rw [List.drop_set, if_pos (by decide)]
  obtain ⟨out, hout⟩ := accepted_rows hF (List.length_set ..) hbody (le_refl 65535)
    (by rw [hlen]; decide) (by rw [hstated]; decide) (by rw [hstated, hlen]; rfl)
  have hother := fecDecode_length hout
  rw [hstated] at hother
  rw [hout]
  rintro (h | h)
  · exact Option.some_ne_none out h
  · rw [Option.some.inj h, hlen] at hother
    exact absurd hother (by decide)

end EchoProtocol.DamagedPrefix
