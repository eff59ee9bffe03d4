import EchoProtocol.Fec

/-!
# The room that the encoder asks for

`fec_encode` with the capacity as the source has it and every index of `out` that it stores to.
It stores only what `fec_encoded_len` announces, but its tests of the capacity use the size of
the single block for both forms.
-/
namespace EchoProtocol.Fec
open Bytes ReedSolomon

/-- The indices that the division loop of `rs_encode_block` stores to. -/
def divisionStores (gen : List UInt8) (ecc : ℕ) : List UInt8 → List ℕ → List ℕ
  | _, [] => []
  | out, i :: rest =>
      (if byteAt out i = 0 then [] else (List.range (ecc + 1)).map (i + ·)) ++
        divisionStores gen ecc (cancelLeading gen ecc out i) rest

/-- The indices of `out` that `rs_encode_block` stores to: `memset`, `memcpy`, the division and
`memcpy` again. -/
def rsEncodeBlockStores (data : List UInt8) (ecc : ℕ) : List ℕ :=
  let k := data.length
  List.range (k + ecc) ++ List.range k ++
    divisionStores (rsGeneratorPoly ecc) ecc (data ++ List.replicate ecc 0) (List.range k) ++
    List.range k

def fecInterleaveStores (nblocks blockSize : ℕ) : List ℕ :=
  (List.range blockSize).flatMap fun c => (List.range nblocks).map fun r => c * nblocks + r

/-- The return value and the indices of `out` that are stored to. -/
def fecEncodeStores (data : List UInt8) (outCap : ℤ) : ℤ × List ℕ :=
  let dataLen := data.length
  let ecc := fecEccBytes dataLen
  if dataLen = 0 then (-1, [])
  else if ↑(dataLen + 2 + ecc) > outCap ∧ dataLen + ecc ≤ FEC_RS_MAX_N then (-1, [])
  else if ↑(dataLen + 2 + ecc) > outCap ∧ dataLen + ecc > FEC_RS_MAX_N then (-1, [])
  else if dataLen + ecc ≤ FEC_RS_MAX_N then
    if ↑(dataLen + 2 + ecc) > outCap then (-1, [0, 1])
    else (↑(dataLen + 2 + ecc), [0, 1] ++ (rsEncodeBlockStores data ecc).map (2 + ·))
  else
    let nblocks := blockCount dataLen
    if ↑(nblocks * FEC_RS_MAX_N + 2) > outCap then (-1, [0, 1])
    else (↑(nblocks * FEC_RS_MAX_N + 2),
      [0, 1, 0, 1] ++ (fecInterleaveStores nblocks FEC_RS_MAX_N).map (2 + ·))

theorem divisionStores_lt {gen : List UInt8} {ecc k : ℕ} {out : List UInt8} {l : List ℕ}
    (hl : ∀ i ∈ l, i < k) : ∀ i ∈ divisionStores gen ecc out l, i < k + ecc := by
  induction l generalizing out with
  | nil => simp [divisionStores]
  | cons j l ih =>
    intro i hi
    rw [divisionStores, List.mem_append] at hi
    rcases hi with hi | hi
    · have hj := hl j List.mem_cons_self
      split_ifs at hi
      · exact absurd hi List.not_mem_nil
      · obtain ⟨m, hm, rfl⟩ := List.mem_map.mp hi
        have := List.mem_range.mp hm
        omega
    · exact ih (fun i hi => hl i (List.mem_cons_of_mem j hi)) i hi

theorem rsEncodeBlockStores_lt {data : List UInt8} {ecc i : ℕ}
    (hi : i ∈ rsEncodeBlockStores data ecc) : i < data.length + ecc := by
  simp only [rsEncodeBlockStores, List.mem_append, List.mem_range, or_assoc] at hi
  rcases hi with hi | hi | hi | hi
  · exact hi
  · omega
  · exact divisionStores_lt (fun i hi => List.mem_range.mp hi) i hi
  · omega

theorem fecInterleaveStores_lt {nblocks blockSize i : ℕ}
    (hi : i ∈ fecInterleaveStores nblocks blockSize) : i < nblocks * blockSize := by
  obtain ⟨c, hc, hi⟩ := List.mem_flatMap.mp hi
  obtain ⟨r, hr, rfl⟩ := List.mem_map.mp hi
  have hc' := List.mem_range.mp hc
  have hr' := List.mem_range.mp hr
  calc c * nblocks + r < (c + 1) * nblocks := by rw [Nat.add_mul]; omega
    _ ≤ blockSize * nblocks := Nat.mul_le_mul_right nblocks hc'
    _ = nblocks * blockSize := Nat.mul_comm _ _

/-- The return value is the length of the encoding, or `-1`. -/
theorem fecEncodeStores_return (data : List UInt8) (outCap : ℤ) :
    (fecEncodeStores data outCap).1 =
      match fecEncode data outCap.toNat with
      | some F => ↑F.length
      | none => -1 := by
  have hcap : ∀ n : ℕ, (↑(n + 2) > outCap) = (n + 2 > outCap.toNat) := by
    intro n
    exact propext (by omega)
  have hcap' : ∀ n m : ℕ, (↑(n + 2 + m) > outCap) = (n + 2 + m > outCap.toNat) := by
    intro n m
    exact propext (by omega)
  simp only [fecEncodeStores, fecEncode, hcap, hcap']
  split_ifs with h0 h1 h2 h3 h4 h5
  · rfl
  · rfl
  · rfl
  · rfl
  · have hecc : fecEccBytes data.length < 256 := by
      unfold FEC_RS_MAX_N at h3
      omega
    simp only [List.length_append, lengthPrefix_length, rsEncodeBlock_length hecc]
    push_cast
    ring
  · rfl
  · simp only [List.length_append, lengthPrefix_length, fecInterleave_length]
    push_cast
    ring

/-- `fec_encode` succeeds exactly in the room that `fec_encoded_len` announces, and then returns
this length and stores nothing beyond it. -/
def KeepsContract (data : List UInt8) (outCap : ℤ) : Prop :=
  ((fecEncodeStores data outCap).1 ≠ -1 ↔ fecEncodedLen data.length ≤ outCap) ∧
    ((fecEncodeStores data outCap).1 ≠ -1 →
      (fecEncodeStores data outCap).1 = fecEncodedLen data.length ∧
        ∀ i ∈ (fecEncodeStores data outCap).2, (i : ℤ) < fecEncodedLen data.length)

section Contract

variable {data : List UInt8} {outCap : ℤ}

theorem fecEncodeStores_single (hpos : 1 ≤ data.length) (hsmall : data.length ≤ 183)
    (hroom : fecEncodedLen data.length ≤ outCap) :
    fecEncodeStores data outCap = (fecEncodedLen data.length,
      [0, 1] ++ (rsEncodeBlockStores data (fecEccBytes data.length)).map (2 + ·)) := by
  have hblock := (single_block_iff data.length).mpr hsmall
  rw [fecEncodedLen_single hpos hsmall] at hroom ⊢
  simp only [fecEncodeStores]
  rw [if_neg (by omega), if_neg fun h => absurd h.1 (by omega),
    if_neg fun h => absurd h.1 (by omega), if_pos hblock, if_neg (by omega)]

theorem fecEncodeStores_multi (hlarge : 184 ≤ data.length)
    (hroom : fecEncodedLen data.length ≤ outCap)
    (htest : ↑(data.length + 2 + fecEccBytes data.length) ≤ outCap) :
    fecEncodeStores data outCap = (fecEncodedLen data.length,
      [0, 1, 0, 1] ++
        (fecInterleaveStores (blockCount data.length) FEC_RS_MAX_N).map (2 + ·)) := by
  have hblock : ¬ data.length + fecEccBytes data.length ≤ FEC_RS_MAX_N := by
    rw [single_block_iff]
    omega
  rw [fecEncodedLen_multi hlarge] at hroom ⊢
  simp only [fecEncodeStores]
  rw [if_neg (by omega), if_neg fun h => hblock h.2, if_neg fun h => absurd h.1 (by omega),
    if_neg hblock, if_neg (by omega)]

theorem fecEncodeStores_refused (hpos : 1 ≤ data.length)
    (hfull : outCap < fecEncodedLen data.length ∨
      outCap < ↑(data.length + 2 + fecEccBytes data.length)) :
    (fecEncodeStores data outCap).1 = -1 := by
  simp only [fecEncodeStores]
  split_ifs with h0 h1 h2 h3 h4 h5
  · rfl
  · rfl
  · rfl
  · rfl
  · rw [fecEncodedLen_single hpos ((single_block_iff _).mp h3)] at hfull
    omega
  · rfl
  · have hlarge : 184 ≤ data.length := by
      rw [single_block_iff] at h3
      omega
    rw [fecEncodedLen_multi hlarge] at hfull
    omega

theorem fecEncodeStores_lt {i : ℕ} (hpos : 1 ≤ data.length)
    (hroom : fecEncodedLen data.length ≤ outCap)
    (htest : ↑(data.length + 2 + fecEccBytes data.length) ≤ outCap)
    (hi : i ∈ (fecEncodeStores data outCap).2) : (i : ℤ) < fecEncodedLen data.length := by
  rcases Nat.lt_or_ge data.length 184 with hsmall | hlarge
  · rw [fecEncodeStores_single hpos (by omega) hroom] at hi
    rw [fecEncodedLen_single hpos (by omega)]
    rcases List.mem_append.mp hi with hi | hi
    · simp only [List.mem_cons, List.not_mem_nil, or_false] at hi
      omega
    · obtain ⟨j, hj, rfl⟩ := List.mem_map.mp hi
      have := rsEncodeBlockStores_lt hj
      omega
  · rw [fecEncodeStores_multi hlarge hroom htest] at hi
    have hone : 1 ≤ blockCount data.length := by
      unfold blockCount FEC_RS_MSGBLK
      omega
    have hbytes : blockCount data.length ≤ blockCount data.length * FEC_RS_MAX_N :=
      Nat.le_mul_of_pos_right _ (by decide)
    rw [fecEncodedLen_multi hlarge]
    rcases List.mem_append.mp hi with hi | hi
    · simp only [List.mem_cons, List.not_mem_nil, or_false] at hi
      omega
    · obtain ⟨j, hj, rfl⟩ := List.mem_map.mp hi
      have := fecInterleaveStores_lt hj
      omega

theorem fecEncodeStores_accepted (hpos : 1 ≤ data.length)
    (hroom : fecEncodedLen data.length ≤ outCap)
    (htest : ↑(data.length + 2 + fecEccBytes data.length) ≤ outCap) :
    (fecEncodeStores data outCap).1 = fecEncodedLen data.length := by
  rcases Nat.lt_or_ge data.length 184 with hsmall | hlarge
  · rw [fecEncodeStores_single hpos (by omega) hroom]
  · rw [fecEncodeStores_multi hlarge hroom htest]

end Contract

theorem fecEncodedLen_pos {n : ℕ} (hpos : 1 ≤ n) : 0 < fecEncodedLen n := by
  rcases Nat.lt_or_ge n 184 with hsmall | hlarge
  · rw [fecEncodedLen_single hpos (by omega)]
    omega
  · rw [fecEncodedLen_multi hlarge]
    omega

theorem sizes_of_large {n : ℕ} (hlarge : 184 ≤ n) :
    fecEncodedLen n = 255 * ((n + 222) / 223) + 2 ∧ fecEccBytes n = 2 * (n / 5) := by
  rw [fecEncodedLen_multi hlarge, blockCount, FEC_RS_MAX_N, FEC_RS_MSGBLK]
  simp only [fecEccBytes]
  constructor
  · omega
  · split_ifs <;> omega

/-- The contract is kept up to 183 bytes. Beyond that the test of the single block's size
refuses every capacity between the announced length and that size. -/
theorem keepsContract_iff {data : List UInt8} (hpos : 1 ≤ data.length) (outCap : ℤ) :
    KeepsContract data outCap ↔ data.length ≤ 183 ∨
      outCap < 255 * ((data.length + 222) / 223) + 2 ∨
      (data.length + 2 + 2 * (data.length / 5) : ℤ) ≤ outCap := by
  have hlenpos := fecEncodedLen_pos hpos
  have hcond : (outCap < fecEncodedLen data.length ∨
      ↑(data.length + 2 + fecEccBytes data.length) ≤ outCap) ↔ data.length ≤ 183 ∨
        outCap < 255 * ((data.length + 222) / 223) + 2 ∨
        (data.length + 2 + 2 * (data.length / 5) : ℤ) ≤ outCap := by
    rcases Nat.lt_or_ge data.length 184 with hsmall | hlarge
    · rw [fecEncodedLen_single hpos (by omega)]
      omega
    · obtain ⟨hlen, hecc⟩ := sizes_of_large hlarge
      rw [hlen, hecc]
      omega
  rw [← hcond]
  rcases lt_or_ge outCap (fecEncodedLen data.length) with hless | hroom
  · have hrefused := fecEncodeStores_refused hpos (Or.inl hless)
    refine iff_of_true ⟨iff_of_false (not_not.mpr hrefused) (not_le.mpr hless), ?_⟩ (Or.inl hless)
    exact fun h => absurd hrefused h
  · rw [or_iff_right (not_lt.mpr hroom)]
    constructor
    · intro hkeeps
      by_contra hsmall
      exact hkeeps.1.mpr hroom (fecEncodeStores_refused hpos (Or.inr (not_le.mp hsmall)))
    · intro htest
      have haccepted := fecEncodeStores_accepted hpos hroom htest
      refine ⟨iff_of_true (by omega) hroom, fun _ => ⟨haccepted, fun i hi => ?_⟩⟩
      exact fecEncodeStores_lt hpos hroom htest hi

theorem keepsContract_iff_three :
    KeepsContract [0x45, 0x00, 0x1C] 7 ↔ ([0x45, 0x00, 0x1C] : List UInt8).length ≤ 183 ∨
      7 < 255 * ((([0x45, 0x00, 0x1C] : List UInt8).length + 222) / 223 : ℤ) + 2 ∨
      (([0x45, 0x00, 0x1C] : List UInt8).length + 2 +
        2 * (([0x45, 0x00, 0x1C] : List UInt8).length / 5) : ℤ) ≤ 7 :=
  keepsContract_iff (by decide) 7

/-- A payload of 184 bytes is refused in a buffer of the 257 bytes that it would fill. -/
theorem refused_in_announced_room : fecEncodedLen 184 = 257 ∧
    (fecEncodeStores (List.replicate 184 0) 257).1 = -1 ∧
    ¬ ∀ data : List UInt8, 1 ≤ data.length → data.length ≤ 65535 →
      ∀ outCap, KeepsContract data outCap := by
  have hlen : (List.replicate 184 (0 : UInt8)).length = 184 := List.length_replicate
  have hannounced : fecEncodedLen 184 = 257 := by decide
  have hrefused : (fecEncodeStores (List.replicate 184 0) 257).1 = -1 :=
    fecEncodeStores_refused (by rw [hlen]; decide) (Or.inr (by rw [hlen]; decide))
  refine ⟨hannounced, hrefused, fun h => ?_⟩
  have hkeeps := h (List.replicate 184 0) (by rw [hlen]; decide) (by rw [hlen]; decide) 257
  exact hkeeps.1.mpr (by rw [hlen, hannounced]) hrefused

end EchoProtocol.Fec
