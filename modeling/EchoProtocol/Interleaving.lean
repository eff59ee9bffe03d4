import EchoProtocol.Fec
import EchoProtocol.MatrixOrder

/-!
# The interleaver

Interleaving moves every byte of the blocks to the place that the column order of their
matrix gives it, and deinterleaving is the same move with the two dimensions exchanged. A
burst on the way is thereby shared out among the rows, and the blocks correct it as long as
no row receives more than 16 of its bytes.
-/
namespace EchoProtocol.Fec
open Bytes ReedSolomon MatrixOrder

variable {nblocks blockSize : ℕ}

theorem fecDeinterleave_eq (inp : List UInt8) :
    fecDeinterleave inp nblocks blockSize = fecInterleave inp blockSize nblocks := rfl

theorem byteAt_fecInterleave (blocks : List UInt8) (p : Fin (blockSize * nblocks)) :
    byteAt (fecInterleave blocks nblocks blockSize) p =
      byteAt blocks (columnOrder nblocks blockSize p) := by
  have hplace : (p : ℕ) = p / nblocks * nblocks + p % nblocks :=
    (Nat.div_add_mod' p nblocks).symm
  have hrow : (p : ℕ) % nblocks < nblocks := p.modNat.isLt
  have hcol : (p : ℕ) / nblocks < blockSize := p.divNat.isLt
  rw [columnOrder_val, hplace, fecInterleave, byteAt_grid _ hcol hrow, ← hplace]

theorem fecInterleave_fecInterleave {blocks : List UInt8}
    (hlen : blocks.length = nblocks * blockSize) :
    fecInterleave (fecInterleave blocks nblocks blockSize) blockSize nblocks = blocks := by
  apply ext_byteAt
  · rw [fecInterleave_length, hlen]
  · intro q hq
    rw [fecInterleave_length] at hq
    have hback := byteAt_fecInterleave (fecInterleave blocks nblocks blockSize) ⟨q, hq⟩
    have hthere := byteAt_fecInterleave blocks ((columnOrder nblocks blockSize).symm ⟨q, hq⟩)
    rw [Equiv.apply_symm_apply, columnOrder_symm] at hthere
    exact hback.trans hthere

theorem fecDeinterleave_fecInterleave {blocks : List UInt8}
    (hlen : blocks.length = nblocks * blockSize) :
    fecDeinterleave (fecInterleave blocks nblocks blockSize) nblocks blockSize = blocks := by
  rw [fecDeinterleave_eq]
  exact fecInterleave_fecInterleave hlen

theorem fecInterleave_fecDeinterleave {inp : List UInt8}
    (hlen : inp.length = nblocks * blockSize) :
    fecInterleave (fecDeinterleave inp nblocks blockSize) nblocks blockSize = inp := by
  rw [fecDeinterleave_eq]
  exact fecInterleave_fecInterleave (hlen.trans (Nat.mul_comm _ _))

/-- Whatever the blocks hold, place `p` of the interleaved array holds a byte of row `r`. -/
def HoldsRow (nblocks blockSize p r : ℕ) : Prop :=
  ∃ c < blockSize, ∀ blocks : List UInt8, blocks.length = nblocks * blockSize →
    byteAt (fecInterleave blocks nblocks blockSize) p = byteAt blocks (r * blockSize + c)

theorem holdsRow_iff {p r : ℕ} (hp : p < blockSize * nblocks) :
    HoldsRow nblocks blockSize p r ↔ p % nblocks = r := by
  have hread (blocks : List UInt8) := byteAt_fecInterleave blocks ⟨p, hp⟩
  set source := columnOrder nblocks blockSize ⟨p, hp⟩ with hsource
  have hrow : (source : ℕ) / blockSize = p % nblocks := columnOrder_div _
  constructor
  · rintro ⟨c, hc, hsame⟩
    -- an array that is zero but for the byte that is read at `p`
    have hmark := hsame ((List.replicate (nblocks * blockSize) 0).set source 1) (by simp)
    rw [hread, byteAt_set, byteAt_set, List.length_replicate, if_pos ⟨rfl, source.isLt⟩,
      byteAt_replicate_zero] at hmark
    have heq : (source : ℕ) = r * blockSize + c := by
      by_contra hne
      rw [if_neg fun h => hne h.1] at hmark
      exact absurd hmark (by decide)
    rw [← hrow, heq, Nat.add_comm, Nat.add_mul_div_right _ _ (Nat.zero_lt_of_lt hc),
      Nat.div_eq_of_lt hc, Nat.zero_add]
  · rintro rfl
    refine ⟨p / nblocks, Nat.div_lt_of_lt_mul (by rwa [Nat.mul_comm]), fun blocks _ => ?_⟩
    rw [← columnOrder_val ⟨p, hp⟩]
    exact hread blocks

open Classical in
theorem card_holdsRow_le {start L : ℕ} (hwindow : start + L ≤ blockSize * nblocks) (r : ℕ) :
    ((Finset.Ico start (start + L)).filter fun p => HoldsRow nblocks blockSize p r).card ≤
      ⌈(L : ℚ) / nblocks⌉₊ := by
  have hplaces : ((Finset.Ico start (start + L)).filter fun p => HoldsRow nblocks blockSize p r) =
      (Finset.Ico start (start + L)).filter fun p => p % nblocks = r := by
    refine Finset.filter_congr fun p hp => holdsRow_iff ?_
    have := Finset.mem_Ico.mp hp
    omega
  rw [hplaces]
  rcases Nat.eq_zero_or_pos nblocks with rfl | hpos
  · have hL : L = 0 := by omega
    simp [hL]
  · exact card_remainder_le hpos start L r

open Classical in
/-- The interleaver is one permutation of the places for all arrays, deinterleaving undoes it
and is undone by it, and a burst is shared out among the rows. -/
theorem interleaver_spreads_bursts (nblocks blockSize : ℕ) :
    (∃ place : Fin (blockSize * nblocks) ≃ Fin (nblocks * blockSize),
      ∀ (blocks : List UInt8) (p : Fin (blockSize * nblocks)),
        byteAt (fecInterleave blocks nblocks blockSize) p = byteAt blocks (place p)) ∧
    (∀ blocks : List UInt8, blocks.length = nblocks * blockSize →
      fecDeinterleave (fecInterleave blocks nblocks blockSize) nblocks blockSize = blocks) ∧
    (∀ inp : List UInt8, inp.length = nblocks * blockSize →
      fecInterleave (fecDeinterleave inp nblocks blockSize) nblocks blockSize = inp) ∧
    ∀ start L r, start + L ≤ nblocks * blockSize →
      ((Finset.Ico start (start + L)).filter fun p => HoldsRow nblocks blockSize p r).card ≤
        ⌈(L : ℚ) / nblocks⌉₊ := by
  refine ⟨⟨columnOrder nblocks blockSize, byteAt_fecInterleave⟩,
    fun _ => fecDeinterleave_fecInterleave, fun _ => fecInterleave_fecDeinterleave,
    fun start L r hwindow => ?_⟩
  rw [Nat.mul_comm] at hwindow
  exact card_holdsRow_le hwindow r

/-- Two arrays that differ in a burst of `L` bytes differ in at most `⌈L / nblocks⌉` bytes of
each row. -/
theorem mismatches_burst_le {l m : List UInt8} {start L r : ℕ} (hr : r < nblocks)
    (hsame : ∀ p, p < start ∨ start + L ≤ p → byteAt l p = byteAt m p) :
    mismatches (row (fecDeinterleave l nblocks blockSize) blockSize r)
      (row (fecDeinterleave m nblocks blockSize) blockSize r) ≤ ⌈(L : ℚ) / nblocks⌉₊ := by
  refine le_trans ?_ (card_remainder_le (Nat.zero_lt_of_lt hr) start L r)
  refine mismatches_row_le_card hr fun c _ hne => ?_
  have hin : start ≤ c * nblocks + r ∧ c * nblocks + r < start + L := by
    by_contra hout
    exact hne (hsame _ (by omega))
  have hrow : (c * nblocks + r) % nblocks = r := by
    rw [Nat.add_comm, Nat.add_mul_mod_self_right, Nat.mod_eq_of_lt hr]
  exact Finset.mem_filter.mpr ⟨Finset.mem_Ico.mpr hin, hrow⟩

/-- The multi-block form corrects a burst of up to 16 bytes for each block, wherever it
strikes behind the length prefix. -/
theorem fecDecode_burst {data F F' : List UInt8} {outCap cap start L : ℕ}
    (hlong : 184 ≤ data.length) (hmax : data.length ≤ 65535)
    (hF : fecEncode data outCap = some F) (hlen : F'.length = F.length) (hstart : 2 ≤ start)
    (hL : L ≤ 16 * blockCount data.length)
    (hsame : ∀ p, p < start ∨ start + L ≤ p → byteAt F p = byteAt F' p)
    (hcap : data.length ≤ cap) : fecDecode F' cap = some data := by
  have hblock : ¬ data.length + fecEccBytes data.length ≤ FEC_RS_MAX_N := by
    rw [single_block_iff]
    omega
  rcases fecEncode_cases hF with ⟨hsingle, -⟩ | ⟨-, rfl⟩
  · exact absurd hsingle hblock
  have hlead : F'.take 2 = lengthPrefix data.length := by
    rw [List.length_append, lengthPrefix_length] at hlen
    refine ext_byteAt (by rw [List.length_take, lengthPrefix_length]; omega) fun i hi => ?_
    rw [List.length_take] at hi
    rw [byteAt_take (by omega), ← hsame i (by omega),
      byteAt_append_left (by rw [lengthPrefix_length]; omega)]
  rw [List.length_append, lengthPrefix_length, fecInterleave_length, Nat.mul_comm] at hlen
  have hrest : ∀ p, p < start - 2 ∨ start - 2 + L ≤ p →
      byteAt (fecInterleave (encodedBlocks data) (blockCount data.length) FEC_RS_MAX_N) p =
        byteAt (F'.drop 2) p := by
    intro p hp
    rw [byteAt_drop, ← hsame (2 + p) (by omega),
      byteAt_append_right (by rw [lengthPrefix_length]; omega), lengthPrefix_length,
      Nat.add_sub_cancel_left]
  refine fecDecode_multi (by omega) hmax hcap hblock (by omega) hlead fun r hr => ?_
  have hpos : (0 : ℚ) < blockCount data.length := by exact_mod_cast Nat.zero_lt_of_lt hr
  have hshare : ⌈(L : ℚ) / blockCount data.length⌉₊ ≤ 16 := by
    rw [Nat.ceil_le, div_le_iff₀ hpos]
    exact_mod_cast hL
  exact (mismatches_burst_le hr hrest).trans hshare

end EchoProtocol.Fec
