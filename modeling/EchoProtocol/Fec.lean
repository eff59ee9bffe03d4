import EchoProtocol.ReedSolomonDecoding

/-!
# Forward error correction of a payload

A payload that fits one block is sent as a length prefix and a single Reed-Solomon block;
a longer one as blocks of 223 bytes, encoded row by row and sent column by column.
-/
namespace EchoProtocol.Fec
open Bytes ReedSolomon

/-- Interleaving writes the columns of `nblocks` rows of `blockSize` bytes one after another. -/
def fecInterleave (blocks : List UInt8) (nblocks blockSize : ℕ) : List UInt8 :=
  grid blockSize nblocks fun c r => byteAt blocks (r * blockSize + c)

def fecDeinterleave (inp : List UInt8) (nblocks blockSize : ℕ) : List UInt8 :=
  grid nblocks blockSize fun r c => byteAt inp (c * nblocks + r)

def fecEccBytes (dataLen : ℕ) : ℕ :=
  if dataLen < 4 then 2
  else
    let e := 2 * (dataLen / 5)
    if e < 4 then 4 else e

/-- The number of blocks of the multi-block form. -/
def blockCount (dataLen : ℕ) : ℕ := (dataLen + FEC_RS_MSGBLK - 1) / FEC_RS_MSGBLK

def fecEncodedLen (dataLen : ℕ) : ℤ :=
  if dataLen = 0 then -1
  else
    let ecc := fecEccBytes dataLen
    if dataLen + ecc ≤ FEC_RS_MAX_N then dataLen + 2 + ecc
    else blockCount dataLen * FEC_RS_MAX_N + 2

/-- The big-endian length prefix. -/
def lengthPrefix (dataLen : ℕ) : List UInt8 := [(dataLen >>> 8).toUInt8, dataLen.toUInt8]

/-- The message bytes of row `r`, padded with zeros by the `memset` of the row buffer. -/
def messageRow (data : List UInt8) (r : ℕ) : List UInt8 :=
  let chunk := (data.drop (r * FEC_RS_MSGBLK)).take FEC_RS_MSGBLK
  chunk ++ List.replicate (FEC_RS_MSGBLK - chunk.length) 0

/-- `none` is the return value `-1`. -/
def fecEncode (data : List UInt8) (outCap : ℕ) : Option (List UInt8) :=
  let dataLen := data.length
  let ecc := fecEccBytes dataLen
  if dataLen = 0 then none
  else if dataLen + 2 + ecc > outCap ∧ dataLen + ecc ≤ FEC_RS_MAX_N then none
  else if dataLen + 2 + ecc > outCap ∧ dataLen + ecc > FEC_RS_MAX_N then none
  else if dataLen + ecc ≤ FEC_RS_MAX_N then
    if dataLen + 2 + ecc > outCap then none
    else some (lengthPrefix dataLen ++ rsEncodeBlock data ecc)
  else
    let nblocks := blockCount dataLen
    if nblocks * FEC_RS_MAX_N + 2 > outCap then none
    else
      let blocks := (List.range nblocks).flatMap fun r =>
        rsEncodeBlock (messageRow data r) FEC_RS_PARITY_BLK
      some (lengthPrefix dataLen ++ fecInterleave blocks nblocks FEC_RS_MAX_N)

/-- How much of a decoded row is copied out while `remain` bytes are missing. -/
def copyLen (remain : ℕ) : ℕ := if remain > FEC_RS_MSGBLK then FEC_RS_MSGBLK else remain

/-- The row loop of `fec_decode`, from row `r` on for `n` rows; an undecodable row ends it. -/
def decodeRows (blocks : List UInt8) (dataLen : ℕ) :
    ℕ → ℕ → List UInt8 → Option (List UInt8)
  | 0, _, out => some out
  | n + 1, r, out =>
      (rsDecodeBlock (row blocks FEC_RS_MAX_N r) FEC_RS_MSGBLK).bind fun dec =>
        decodeRows blocks dataLen n (r + 1) (out ++ dec.take (copyLen (dataLen - out.length)))

/-- `none` is the return value `-1`. -/
def fecDecode (inp : List UInt8) (outCap : ℕ) : Option (List UInt8) :=
  if inp.length < 3 then none
  else
    let dataLen := ((byteAt inp 0).toNat <<< 8) ||| (byteAt inp 1).toNat
    if dataLen = 0 ∨ dataLen > outCap then none
    else
      let fecData := inp.drop 2
      let ecc := fecEccBytes dataLen
      if dataLen + ecc ≤ FEC_RS_MAX_N then
        if fecData.length ≠ dataLen + ecc then none
        else rsDecodeBlock fecData dataLen
      else
        let nblocks := blockCount dataLen
        if fecData.length ≠ nblocks * FEC_RS_MAX_N then none
        else decodeRows (fecDeinterleave fecData nblocks FEC_RS_MAX_N) dataLen nblocks 0 []

theorem fecEccBytes_pos (dataLen : ℕ) : 2 ≤ fecEccBytes dataLen := by
  simp only [fecEccBytes]
  split_ifs <;> omega

theorem single_block_iff (dataLen : ℕ) :
    dataLen + fecEccBytes dataLen ≤ FEC_RS_MAX_N ↔ dataLen ≤ 183 := by
  simp only [fecEccBytes, FEC_RS_MAX_N]
  split_ifs <;> omega

theorem fecEncodedLen_single {n : ℕ} (hpos : 0 < n) (hn : n ≤ 183) :
    fecEncodedLen n = ↑(n + 2 + fecEccBytes n) := by
  unfold fecEncodedLen
  simp only
  rw [if_neg (by omega), if_pos ((single_block_iff n).mpr hn)]
  push_cast
  rfl

theorem fecEncodedLen_multi {n : ℕ} (hn : 184 ≤ n) :
    fecEncodedLen n = ↑(blockCount n * FEC_RS_MAX_N + 2) := by
  unfold fecEncodedLen
  simp only
  rw [if_neg (by omega), if_neg (by rw [single_block_iff]; omega)]
  push_cast
  rfl

theorem lengthPrefix_length (dataLen : ℕ) : (lengthPrefix dataLen).length = 2 := rfl

theorem lengthPrefix_value {dataLen : ℕ} (h : dataLen ≤ 65535) :
    (((dataLen >>> 8).toUInt8.toNat <<< 8) ||| dataLen.toUInt8.toNat) = dataLen := by
  have hhi : (dataLen >>> 8).toUInt8.toNat = dataLen / 256 := by
    rw [Nat.shiftRight_eq_div_pow]
    exact UInt8.toNat_ofNat_of_lt' (by rw [UInt8.size]; omega)
  have hlo : dataLen.toUInt8.toNat = dataLen % 256 := UInt8.toNat_ofNat'
  rw [hhi, hlo, ← Nat.shiftLeft_add_eq_or_of_lt (Nat.mod_lt _ (by norm_num)), Nat.shiftLeft_eq]
  omega

/-- The length that the first two bytes of a frame state. -/
def statedLen (inp : List UInt8) : ℕ := ((byteAt inp 0).toNat <<< 8) ||| (byteAt inp 1).toNat

theorem statedLen_read (inp : List UInt8) :
    ((byteAt inp 0).toNat <<< 8) ||| (byteAt inp 1).toNat = statedLen inp := by
  rw [statedLen]

theorem statedLen_eq_add (inp : List UInt8) :
    statedLen inp = (byteAt inp 0).toNat * 256 + (byteAt inp 1).toNat := by
  rw [statedLen, ← Nat.shiftLeft_add_eq_or_of_lt (byteAt inp 1).toNat_lt, Nat.shiftLeft_eq]

theorem statedLen_le (inp : List UInt8) : statedLen inp ≤ 65535 := by
  have hhi := (byteAt inp 0).toNat_lt
  have hlo := (byteAt inp 1).toNat_lt
  rw [statedLen_eq_add]
  omega

theorem statedLen_of_take {F' : List UInt8} {dataLen : ℕ} (hmax : dataLen ≤ 65535)
    (hlead : F'.take 2 = lengthPrefix dataLen) : statedLen F' = dataLen := by
  have hread : ∀ i < 2, byteAt F' i = byteAt (lengthPrefix dataLen) i := by
    intro i hi
    rw [← byteAt_take hi, hlead]
  rw [statedLen, hread 0 (by omega), hread 1 (by omega)]
  exact lengthPrefix_value hmax

theorem lengthPrefix_statedLen {inp : List UInt8} (h : 2 ≤ inp.length) :
    lengthPrefix (statedLen inp) = inp.take 2 := by
  obtain ⟨hi, lo, rest, rfl⟩ : ∃ hi lo rest, inp = hi :: lo :: rest := by
    match inp with
    | hi :: lo :: rest => exact ⟨hi, lo, rest, rfl⟩
    | [_] => simp at h
    | [] => simp at h
  have hlo := lo.toNat_lt
  have hfirst : (hi.toNat * 256 + lo.toNat) / 2 ^ 8 = hi.toNat := by omega
  have hsecond : (hi.toNat * 256 + lo.toNat).toUInt8 = lo := by
    apply UInt8.toNat_inj.mp
    rw [Nat.toUInt8_eq, UInt8.toNat_ofNat']
    omega
  rw [lengthPrefix, statedLen_eq_add, byteAt_cons_zero, byteAt_cons_succ, byteAt_cons_zero,
    Nat.shiftRight_eq_div_pow, hfirst, hsecond, Nat.toUInt8_eq,
    UInt8.ofNat_toNat]
  rfl

section Stated

variable {inp : List UInt8} {cap : ℕ} (hpos : 0 < statedLen inp) (hcap : statedLen inp ≤ cap)

include hpos hcap in
theorem fecDecode_block (hsmall : statedLen inp ≤ 183)
    (hsize : inp.length = statedLen inp + fecEccBytes (statedLen inp) + 2) :
    fecDecode inp cap = rsDecodeBlock (inp.drop 2) (statedLen inp) := by
  have hrest : (inp.drop 2).length = statedLen inp + fecEccBytes (statedLen inp) := by
    rw [List.length_drop]
    omega
  simp only [fecDecode, statedLen_read]
  rw [if_neg (by omega), if_neg (by omega), if_pos ((single_block_iff _).mpr hsmall),
    if_neg (not_not.mpr hrest)]

include hcap in
theorem fecDecode_rows (hlarge : 183 < statedLen inp)
    (hsize : inp.length = blockCount (statedLen inp) * FEC_RS_MAX_N + 2) :
    fecDecode inp cap = decodeRows
      (fecDeinterleave (inp.drop 2) (blockCount (statedLen inp)) FEC_RS_MAX_N)
      (statedLen inp) (blockCount (statedLen inp)) 0 [] := by
  have hrest : (inp.drop 2).length = blockCount (statedLen inp) * FEC_RS_MAX_N := by
    rw [List.length_drop]
    omega
  have hbig : 1 ≤ blockCount (statedLen inp) * FEC_RS_MAX_N := by
    have hone : 1 ≤ blockCount (statedLen inp) := by
      unfold blockCount FEC_RS_MSGBLK
      omega
    unfold FEC_RS_MAX_N
    omega
  simp only [fecDecode, statedLen_read]
  rw [if_neg (by omega), if_neg (by omega), if_neg (by rw [single_block_iff]; omega),
    if_neg (not_not.mpr hrest)]

theorem fecDecode_wrong_size (hsize : (inp.length : ℤ) ≠ fecEncodedLen (statedLen inp)) :
    fecDecode inp cap = none := by
  simp only [fecDecode, statedLen_read]
  split_ifs with hshort hrange hblock hlen hlen
  · rfl
  · rfl
  · rfl
  · rw [List.length_drop] at hlen
    rw [fecEncodedLen_single (by omega) ((single_block_iff _).mp hblock)] at hsize
    omega
  · rfl
  · rw [List.length_drop] at hlen
    rw [single_block_iff] at hblock
    rw [fecEncodedLen_multi (by omega)] at hsize
    omega

end Stated

theorem messageRow_length (data : List UInt8) (r : ℕ) :
    (messageRow data r).length = FEC_RS_MSGBLK := by
  simp only [messageRow, List.length_append, List.length_take, List.length_drop,
    List.length_replicate]
  omega

theorem encodedRow_length (data : List UInt8) (r : ℕ) :
    (rsEncodeBlock (messageRow data r) FEC_RS_PARITY_BLK).length = FEC_RS_MAX_N := by
  rw [rsEncodeBlock_length (by decide), messageRow_length]
  rfl

theorem fecInterleave_length (blocks : List UInt8) (nblocks blockSize : ℕ) :
    (fecInterleave blocks nblocks blockSize).length = blockSize * nblocks := grid_length _ _ _

theorem fecEncode_length {data F : List UInt8} {outCap : ℕ} (h : fecEncode data outCap = some F) :
    (F.length : ℤ) = fecEncodedLen data.length := by
  simp only [fecEncode] at h
  unfold fecEncodedLen
  split_ifs at h with h0 h1 h2 h3 h4 h5
  · obtain rfl := Option.some.inj h
    have hecc : fecEccBytes data.length < 256 := by
      unfold FEC_RS_MAX_N at h3
      omega
    simp only [if_neg h0, if_pos h3, List.length_append, lengthPrefix_length,
      rsEncodeBlock_length hecc]
    push_cast
    ring
  · obtain rfl := Option.some.inj h
    simp only [if_neg h0, if_neg h3, List.length_append, lengthPrefix_length, fecInterleave_length]
    push_cast
    ring

theorem fecEncode_isSome {data : List UInt8} (hpos : data ≠ []) (hlen : data.length ≤ 2924) :
    ∃ F, fecEncode data 4096 = some F := by
  have h0 : data.length ≠ 0 := fun h => hpos (List.length_eq_zero_iff.mp h)
  have hecc : fecEccBytes data.length ≤ 1168 := by
    simp only [fecEccBytes]
    split_ifs <;> omega
  have hblocks : blockCount data.length * FEC_RS_MAX_N ≤ 14 * 255 := by
    unfold blockCount FEC_RS_MAX_N FEC_RS_MSGBLK
    omega
  simp only [fecEncode]
  rw [if_neg h0, if_neg fun h => absurd h.1 (by omega), if_neg fun h => absurd h.1 (by omega)]
  split_ifs with h1 h2 h3
  · omega
  · exact ⟨_, rfl⟩
  · omega
  · exact ⟨_, rfl⟩

/-- `F'` is `F` with an intact length prefix and no more damage than the code of a payload of
`dataLen` bytes is designed for: half the parity of the single block, or 16 bytes in each row. -/
def Correctable (dataLen : ℕ) (F F' : List UInt8) : Prop :=
  F'.length = F.length ∧ F'.take 2 = F.take 2 ∧
    if dataLen + fecEccBytes dataLen ≤ FEC_RS_MAX_N then
      mismatches (F.drop 2) (F'.drop 2) ≤ fecEccBytes dataLen / 2
    else
      ∀ r < blockCount dataLen,
        mismatches (row (fecDeinterleave (F.drop 2) (blockCount dataLen) FEC_RS_MAX_N) FEC_RS_MAX_N r)
          (row (fecDeinterleave (F'.drop 2) (blockCount dataLen) FEC_RS_MAX_N) FEC_RS_MAX_N r) ≤ 16

theorem row_interleaved (data : List UInt8) {nblocks r : ℕ} (hr : r < nblocks) :
    row (fecDeinterleave (fecInterleave ((List.range nblocks).flatMap fun r =>
        rsEncodeBlock (messageRow data r) FEC_RS_PARITY_BLK) nblocks FEC_RS_MAX_N)
        nblocks FEC_RS_MAX_N) FEC_RS_MAX_N r =
      rsEncodeBlock (messageRow data r) FEC_RS_PARITY_BLK := by
  have hgrid : ((List.range nblocks).flatMap fun r =>
      rsEncodeBlock (messageRow data r) FEC_RS_PARITY_BLK) =
      grid nblocks FEC_RS_MAX_N fun r c =>
        byteAt (rsEncodeBlock (messageRow data r) FEC_RS_PARITY_BLK) c := by
    unfold grid
    congr 1
    funext r
    exact (tabulate_byteAt (encodedRow_length data r)).symm
  rw [fecDeinterleave, row_grid _ hr]
  refine Eq.trans ?_ (tabulate_byteAt (encodedRow_length data r))
  refine List.map_congr_left fun c hc => ?_
  have hc' := List.mem_range.mp hc
  rw [fecInterleave, byteAt_grid _ hc' hr, hgrid, byteAt_grid _ hr hc']

theorem decodeRows_collects {blocks data : List UInt8} {nblocks : ℕ}
    (hrows : ∀ r < nblocks,
      rsDecodeBlock (row blocks FEC_RS_MAX_N r) FEC_RS_MSGBLK = some (messageRow data r))
    {n r : ℕ} (hn : r + n = nblocks) :
    decodeRows blocks data.length n r (data.take (r * FEC_RS_MSGBLK)) =
      some (data.take (nblocks * FEC_RS_MSGBLK)) := by
  induction n generalizing r with
  | zero => rw [decodeRows, ← hn, add_zero]
  | succ n ih =>
    have hcpy : copyLen (data.length - (data.take (r * FEC_RS_MSGBLK)).length) =
        ((data.drop (r * FEC_RS_MSGBLK)).take FEC_RS_MSGBLK).length := by
      simp only [copyLen, List.length_take, List.length_drop]
      split_ifs <;> omega
    have hnext : data.take (r * FEC_RS_MSGBLK) ++ (messageRow data r).take
        (copyLen (data.length - (data.take (r * FEC_RS_MSGBLK)).length)) =
        data.take ((r + 1) * FEC_RS_MSGBLK) := by
      rw [Nat.add_mul, one_mul, List.take_add, hcpy]
      exact congrArg _ List.take_left
    rw [decodeRows, hrows r (by omega), Option.bind_some, hnext]
    exact ih (by omega)

theorem fecDecode_single {data F' : List UInt8} {cap : ℕ} (hpos : 1 ≤ data.length)
    (hmax : data.length ≤ 65535) (hcap : data.length ≤ cap)
    (hblock : data.length + fecEccBytes data.length ≤ FEC_RS_MAX_N)
    (hlen : F'.length = data.length + fecEccBytes data.length + 2)
    (hlead : F'.take 2 = lengthPrefix data.length)
    (hdamage : mismatches (rsEncodeBlock data (fecEccBytes data.length)) (F'.drop 2) ≤
      fecEccBytes data.length / 2) : fecDecode F' cap = some data := by
  have hdata : data ≠ [] := List.ne_nil_of_length_pos hpos
  have hstated := statedLen_of_take hmax hlead
  have hrest : (F'.drop 2).length = data.length + fecEccBytes data.length := by
    rw [List.length_drop]
    omega
  rw [← hstated] at hblock hlen
  rw [fecDecode_block (by omega) (by omega) ((single_block_iff _).mp hblock) hlen, hstated]
  rw [hstated] at hblock
  exact rsDecodeBlock_corrects hdata hblock hrest hdamage

/-- The bytes of the multi-block form before interleaving. -/
def encodedBlocks (data : List UInt8) : List UInt8 :=
  (List.range (blockCount data.length)).flatMap fun r =>
    rsEncodeBlock (messageRow data r) FEC_RS_PARITY_BLK

theorem rsDecodeBlock_messageRow {data received : List UInt8} {r : ℕ}
    (hlen : received.length = FEC_RS_MAX_N)
    (hdamage : mismatches (rsEncodeBlock (messageRow data r) FEC_RS_PARITY_BLK) received ≤ 16) :
    rsDecodeBlock received FEC_RS_MSGBLK = some (messageRow data r) := by
  rw [← messageRow_length data r]
  apply rsDecodeBlock_corrects _ _ _ hdamage
  · exact List.ne_nil_of_length_pos (by rw [messageRow_length]; decide)
  · rw [messageRow_length]
    decide
  · rw [hlen, messageRow_length]
    rfl

theorem row_deinterleave_length (l : List UInt8) {nblocks r : ℕ} (hr : r < nblocks) :
    (row (fecDeinterleave l nblocks FEC_RS_MAX_N) FEC_RS_MAX_N r).length = FEC_RS_MAX_N := by
  rw [fecDeinterleave, row_grid _ hr, tabulate_length]

theorem fecDecode_multi {data F' : List UInt8} {cap : ℕ} (hpos : 1 ≤ data.length)
    (hmax : data.length ≤ 65535) (hcap : data.length ≤ cap)
    (hblock : ¬ data.length + fecEccBytes data.length ≤ FEC_RS_MAX_N)
    (hlen : F'.length = blockCount data.length * FEC_RS_MAX_N + 2)
    (hlead : F'.take 2 = lengthPrefix data.length)
    (hdamage : ∀ r < blockCount data.length,
      mismatches (row (fecDeinterleave
          (fecInterleave (encodedBlocks data) (blockCount data.length) FEC_RS_MAX_N)
          (blockCount data.length) FEC_RS_MAX_N) FEC_RS_MAX_N r)
        (row (fecDeinterleave (F'.drop 2) (blockCount data.length) FEC_RS_MAX_N)
          FEC_RS_MAX_N r) ≤ 16) : fecDecode F' cap = some data := by
  have hstated := statedLen_of_take hmax hlead
  have hrows : ∀ r < blockCount data.length,
      rsDecodeBlock (row (fecDeinterleave (F'.drop 2) (blockCount data.length) FEC_RS_MAX_N)
        FEC_RS_MAX_N r) FEC_RS_MSGBLK = some (messageRow data r) := by
    intro r hr
    have hdam := hdamage r hr
    rw [encodedBlocks, row_interleaved data hr] at hdam
    exact rsDecodeBlock_messageRow (row_deinterleave_length _ hr) hdam
  have hall : data.length ≤ blockCount data.length * FEC_RS_MSGBLK := by
    unfold blockCount FEC_RS_MSGBLK
    omega
  rw [single_block_iff] at hblock
  have hcollect := decodeRows_collects hrows (n := blockCount data.length) (r := 0) (by omega)
  rw [Nat.zero_mul, List.take_zero, List.take_of_length_le hall] at hcollect
  rw [← hstated] at hlen
  rw [fecDecode_rows (by omega) (by omega) hlen, hstated]
  exact hcollect

theorem fecEncode_cases {data F : List UInt8} {outCap : ℕ} (hF : fecEncode data outCap = some F) :
    (data.length + fecEccBytes data.length ≤ FEC_RS_MAX_N ∧
      F = lengthPrefix data.length ++ rsEncodeBlock data (fecEccBytes data.length)) ∨
    (¬ data.length + fecEccBytes data.length ≤ FEC_RS_MAX_N ∧ F = lengthPrefix data.length ++
      fecInterleave (encodedBlocks data) (blockCount data.length) FEC_RS_MAX_N) := by
  simp only [fecEncode] at hF
  split_ifs at hF with h0 h1 h2 h3 h4 h5
  · exact .inl ⟨h3, (Option.some.inj hF).symm⟩
  · exact .inr ⟨h3, (Option.some.inj hF).symm⟩

/-- The code corrects everything it is designed for, whatever the length of the payload. -/
theorem fecDecode_corrects {data F F' : List UInt8} {outCap cap : ℕ} (hpos : 1 ≤ data.length)
    (hmax : data.length ≤ 65535) (hF : fecEncode data outCap = some F)
    (hF' : Correctable data.length F F') (hcap : data.length ≤ cap) :
    fecDecode F' cap = some data := by
  obtain ⟨hlen, hlead, hdamage⟩ := hF'
  rcases fecEncode_cases hF with ⟨hblock, rfl⟩ | ⟨hblock, rfl⟩
  · rw [List.drop_left' (lengthPrefix_length _), if_pos hblock] at hdamage
    rw [List.length_append, lengthPrefix_length,
      rsEncodeBlock_length (by unfold FEC_RS_MAX_N at hblock; omega)] at hlen
    rw [List.take_left' (lengthPrefix_length _)] at hlead
    exact fecDecode_single hpos hmax hcap hblock (by omega) hlead hdamage
  · rw [List.drop_left' (lengthPrefix_length _), if_neg hblock] at hdamage
    rw [List.length_append, lengthPrefix_length, fecInterleave_length, mul_comm] at hlen
    rw [List.take_left' (lengthPrefix_length _)] at hlead
    exact fecDecode_multi hpos hmax hcap hblock (by omega) hlead hdamage

theorem fecDecode_corrects_damaged_byte : ∃ F, fecEncode [0x45, 0x00, 0x1C] 4096 = some F ∧
    fecDecode (F.set 3 0x99) 4096 = some [0x45, 0x00, 0x1C] := by
  have hdata : ([0x45, 0x00, 0x1C] : List UInt8) ≠ [] := by decide
  obtain ⟨F, hF⟩ := fecEncode_isSome hdata (by decide)
  refine ⟨F, hF, fecDecode_corrects (by decide) (by decide) hF ⟨?_, ?_, ?_⟩ (by decide)⟩
  · rw [List.length_set]
  · exact List.take_set_of_le (by decide)
  · rw [if_pos (by decide), List.drop_set, if_neg (by decide)]
    exact mismatches_set_le _ _ _

/-- A row differs no more often than there are places, among those it is read from, where the
arrays may differ. -/
theorem mismatches_row_le_card {l m : List UInt8} {nblocks blockSize r : ℕ} {places : Finset ℕ}
    (hr : r < nblocks) (hplace : ∀ c < blockSize,
      byteAt l (c * nblocks + r) ≠ byteAt m (c * nblocks + r) → c * nblocks + r ∈ places) :
    mismatches (row (fecDeinterleave l nblocks blockSize) blockSize r)
      (row (fecDeinterleave m nblocks blockSize) blockSize r) ≤ places.card := by
  have hinj : Function.Injective fun c => c * nblocks + r := by
    intro c c' h
    exact Nat.eq_of_mul_eq_mul_right (by omega) (Nat.add_right_cancel h)
  rw [fecDeinterleave, fecDeinterleave, row_grid _ hr, row_grid _ hr]
  refine mismatches_le_card (l := l) (m := m) hinj (fun c hc => ?_) (fun c hc => ?_) fun c hc => ?_
  all_goals rw [tabulate_length] at hc
  · rw [byteAt_tabulate, if_pos hc]
  · rw [byteAt_tabulate, if_pos hc]
  · exact hplace c hc

theorem mismatches_deinterleaved_le {l m : List UInt8} {nblocks r : ℕ} (hr : r < nblocks)
    (hlen : l.length = FEC_RS_MAX_N * nblocks) :
    mismatches (row (fecDeinterleave l nblocks FEC_RS_MAX_N) FEC_RS_MAX_N r)
      (row (fecDeinterleave m nblocks FEC_RS_MAX_N) FEC_RS_MAX_N r) ≤ mismatches l m := by
  rw [mismatches_eq_card l m]
  refine mismatches_row_le_card hr fun c hc hne => ?_
  have hle := Nat.mul_le_mul_right nblocks (Nat.succ_le_of_lt hc)
  rw [Nat.succ_mul] at hle
  exact Finset.mem_filter.mpr ⟨Finset.mem_range.mpr (by omega), hne⟩

theorem fecDecode_one_damaged {data F F' : List UInt8} {outCap cap : ℕ} (hpos : 1 ≤ data.length)
    (hmax : data.length ≤ 65535) (hF : fecEncode data outCap = some F)
    (hlen : F'.length = F.length) (hlead : F'.take 2 = F.take 2) (hone : mismatches F F' ≤ 1)
    (hcap : data.length ≤ cap) : fecDecode F' cap = some data := by
  have hdrop := (mismatches_drop_le F F' 2).trans hone
  have hecc := fecEccBytes_pos data.length
  rcases fecEncode_cases hF with ⟨hblock, rfl⟩ | ⟨hblock, rfl⟩
  · rw [List.take_left' (lengthPrefix_length _)] at hlead
    rw [List.drop_left' (lengthPrefix_length _)] at hdrop
    rw [List.length_append, lengthPrefix_length,
      rsEncodeBlock_length (by unfold FEC_RS_MAX_N at hblock; omega)] at hlen
    exact fecDecode_single hpos hmax hcap hblock (by omega) hlead (by omega)
  · rw [List.take_left' (lengthPrefix_length _)] at hlead
    rw [List.drop_left' (lengthPrefix_length _)] at hdrop
    rw [List.length_append, lengthPrefix_length, fecInterleave_length, mul_comm] at hlen
    refine fecDecode_multi hpos hmax hcap hblock (by omega) hlead fun r hr => ?_
    refine (mismatches_deinterleaved_le hr ?_).trans (hdrop.trans (by omega))
    rw [fecInterleave_length]

theorem fecDecode_fecEncode {data F : List UInt8} {outCap cap : ℕ} (hpos : 1 ≤ data.length)
    (hmax : data.length ≤ 65535) (hF : fecEncode data outCap = some F) (hcap : data.length ≤ cap) :
    fecDecode F cap = some data :=
  fecDecode_one_damaged hpos hmax hF rfl rfl (by rw [mismatches_self]; omega) hcap

end EchoProtocol.Fec
