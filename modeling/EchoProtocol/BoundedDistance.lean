import EchoProtocol.ReedSolomonDecoding

/-!
# Which blocks the decoder accepts

A block is accepted exactly when some encoded block lies within half the parity of it, and
then its data are those of this encoded block: the decoder never invents a block of its own,
and its test for a vanishing derivative never rejects anything.
-/
namespace EchoProtocol.ReedSolomon
open Bytes ByteField Polynomial LinearRecurrence ErrorLocator

theorem rsEncodeBlock_of_roots {c : List UInt8} {k ecc : ℕ} (hlen : c.length = k + ecc)
    (hn : c.length ≤ 255) (hecc : ecc < 256) (hroot : ∀ i < ecc, wordEval (alpha ^ i) c = 0) :
    rsEncodeBlock (c.take k) ecc = c := by
  have htake : (c.take k).length = k := List.length_take_of_le (by omega)
  have hslen : (rsEncodeBlock (c.take k) ecc).length = c.length := by
    rw [rsEncodeBlock_length hecc, htake, hlen]
  -- the two can only differ in the parity
  have hsame : ∀ j < k, byteAt (rsEncodeBlock (c.take k) ecc) j = byteAt c j := by
    intro j hj
    have hdata := rsEncodeBlock_take (c.take k) ecc
    rw [htake] at hdata
    rw [← byteAt_take hj, hdata, byteAt_take hj]
  have hdiff : mismatches (rsEncodeBlock (c.take k) ecc) c ≤ ecc := by
    rw [mismatches_eq_card, hslen, hlen]
    have hsub : (Finset.range (k + ecc)).filter
        (fun j => byteAt (rsEncodeBlock (c.take k) ecc) j ≠ byteAt c j) ⊆
        Finset.Ico k (k + ecc) := by
      intro j hj
      obtain ⟨hj, hne⟩ := Finset.mem_filter.mp hj
      rw [Finset.mem_Ico]
      refine ⟨not_lt.mp fun hjk => hne (hsame j hjk), Finset.mem_range.mp hj⟩
    exact (Finset.card_le_card hsub).trans (by simp)
  exact (eq_of_roots hslen.symm (hslen.trans_le hn)
    (fun i hi => rsEncodeBlock_root hecc hi) hroot hdiff).symm

/-- The block with the values of a pattern taken off at its positions. -/
def withoutErrors (p : Pattern GF256 ℕ) (r : List UInt8) : List UInt8 :=
  tabulate r.length fun j => if j ∈ p.positions then byteAt r j ^^^ (p.value j).byte else byteAt r j

theorem withoutErrors_length (p : Pattern GF256 ℕ) (r : List UInt8) :
    (withoutErrors p r).length = r.length := tabulate_length _ _

section Undo

variable {p : Pattern GF256 ℕ} {r : List UInt8}

theorem withoutErrors_mismatches : mismatches (withoutErrors p r) r ≤ p.positions.card := by
  rw [mismatches_eq_card, withoutErrors_length]
  refine Finset.card_le_card fun j hj => ?_
  obtain ⟨hj, hne⟩ := Finset.mem_filter.mp hj
  rw [withoutErrors, byteAt_tabulate, if_pos (Finset.mem_range.mp hj)] at hne
  by_contra hnot
  exact hne (if_neg hnot)

theorem withoutErrors_wordEval (hpos : ∀ j ∈ p.positions, j < r.length) (x : GF256) :
    wordEval x (withoutErrors p r) =
      wordEval x r + ∑ j ∈ p.positions, p.value j * x ^ (r.length - 1 - j) := by
  have hinter : Finset.range r.length ∩ p.positions = p.positions :=
    Finset.inter_eq_right.mpr fun j hj => Finset.mem_range.mpr (hpos j hj)
  rw [wordEval_eq_sum, wordEval_eq_sum, withoutErrors_length, ← hinter, ← Finset.sum_ite_mem,
    ← Finset.sum_add_distrib]
  refine Finset.sum_congr rfl fun j hj => ?_
  rw [withoutErrors, byteAt_tabulate, if_pos (Finset.mem_range.mp hj)]
  split_ifs with hmem
  · rw [gf_xor, add_mul]
  · rw [add_zero]

theorem exists_encoded_of_pattern {k : ℕ} (hk : k ≤ r.length) (hn : r.length ≤ 255)
    (hecc : r.length - k < 256) (hpos : ∀ j ∈ p.positions, j < r.length)
    (hnum : p.number = fun j => alpha ^ (r.length - 1 - j))
    (hsynd : ∀ i < r.length - k, wordEval (alpha ^ i) r = p.syndrome i) :
    ∃ msg, msg.length = k ∧
      mismatches (rsEncodeBlock msg (r.length - k)) r ≤ p.positions.card := by
  have hlen : (withoutErrors p r).length = k + (r.length - k) := by
    rw [withoutErrors_length]
    omega
  have hroot : ∀ i < r.length - k, wordEval (alpha ^ i) (withoutErrors p r) = 0 := by
    intro i hi
    have hsum : p.syndrome i =
        ∑ j ∈ p.positions, p.value j * (alpha ^ i) ^ (r.length - 1 - j) := by
      refine Finset.sum_congr rfl fun j _ => ?_
      rw [hnum, ← pow_mul, ← pow_mul, mul_comm i]
    rw [withoutErrors_wordEval hpos, hsynd i hi, ← hsum, add_self]
  refine ⟨(withoutErrors p r).take k, List.length_take_of_le (by omega), ?_⟩
  rw [rsEncodeBlock_of_roots hlen (by omega) hecc hroot]
  exact withoutErrors_mismatches

end Undo

/-- The tests that stand before the correction of errors all pass. -/
def ReachesCorrection (r : List UInt8) (k : ℕ) : Prop :=
  let ecc := r.length - k
  let synd := rsSyndromes r ecc
  let loc := (rsFindErrorLocator synd ecc).1
  let locDeg := (rsFindErrorLocator synd ecc).2
  ¬ synd.all (· = 0) ∧ ¬ (locDeg = 0 ∨ locDeg > ecc / 2) ∧
    (rsErrorPositions loc locDeg r.length).length = locDeg

/-- When the correction is reached, the positions that the search found carry errors that
explain every syndrome, so an encoded block is near. -/
theorem exists_encoded_of_reached {r : List UInt8} {k : ℕ} (hk : 0 < k) (hkr : k ≤ r.length)
    (hn : r.length ≤ 255) (h : ReachesCorrection r k) :
    ∃ msg, msg.length = k ∧
      mismatches (rsEncodeBlock msg (r.length - k)) r ≤ (r.length - k) / 2 := by
  have hr : r ≠ [] := List.ne_nil_of_length_pos (by omega)
  set ecc := r.length - k with hecc
  set synd := rsSyndromes r ecc with hsynd
  have hinv := synthesis_invariant synd (n := ecc) (by omega)
  change Shortest _ _ (toPoly (rsFindErrorLocator synd ecc).1) _ (rsFindErrorLocator synd ecc).2 _ _
    at hinv
  have hgen := hinv.generates
  obtain ⟨-, hdegree, hcount⟩ := h
  generalize (rsFindErrorLocator synd ecc).1 = loc at hgen hcount
  generalize (rsFindErrorLocator synd ecc).2 = locDeg at hgen hdegree hcount
  have hcard : ((Finset.range r.length).filter fun j =>
      IsErrorPosition loc locDeg r.length j).card = locDeg := by
    rw [rsErrorPositions_eq hn, List.length_map] at hcount
    exact hcount
  have hinj : Set.InjOn (fun j => alpha ^ (r.length - 1 - j)) ((Finset.range r.length).filter
      fun j => IsErrorPosition loc locDeg r.length j) := by
    intro i hi j hj heq
    have hi' := Finset.mem_range.mp (Finset.mem_filter.mp hi).1
    have hj' := Finset.mem_range.mp (Finset.mem_filter.mp hj).1
    have := alpha_pow_inj (by omega) (by omega) heq
    omega
  obtain ⟨p, hpos, hnum, hexplain⟩ := exists_pattern hgen
    (fun _ _ => pow_ne_zero _ alpha_ne_zero) hinj hcard fun j hj => by
      obtain ⟨hj, htest⟩ := Finset.mem_filter.mp hj
      rw [IsErrorPosition, ← gf_eq_zero, gf_polyEval _ hgen.degree,
        (chien_number hn (Finset.mem_range.mp hj)).2] at htest
      exact htest
  obtain ⟨msg, hmsg, hnear⟩ := exists_encoded_of_pattern hkr hn (by omega)
    (fun j hj => Finset.mem_range.mp (Finset.mem_filter.mp (hpos hj)).1) hnum fun i hi => by
      rw [← hexplain i hi, coeff_toPoly, hsynd, gf_rsSyndromes hr (by omega) hi]
  refine ⟨msg, hmsg, hnear.trans ?_⟩
  have := Finset.card_le_card hpos
  omega

/-- When the decoder accepts a block, an encoded block is near: either all syndromes vanish,
or the correction is reached. -/
theorem exists_encoded_of_accepted {r out : List UInt8} {k : ℕ} (hk : 0 < k) (hkr : k ≤ r.length)
    (hn : r.length ≤ 255) (h : rsDecodeBlock r k = some out) :
    ∃ msg, msg.length = k ∧
      mismatches (rsEncodeBlock msg (r.length - k)) r ≤ (r.length - k) / 2 := by
  have hr : r ≠ [] := List.ne_nil_of_length_pos (by omega)
  simp only [rsDecodeBlock] at h
  split_ifs at h with hall hdegree hcount
  · have hzero := (rsSyndromes_all_zero_iff hr (by omega)).mp hall
    refine ⟨r.take k, List.length_take_of_le hkr, ?_⟩
    rw [rsEncodeBlock_of_roots (by omega) hn (by omega) hzero, mismatches_self]
    omega
  · exact exists_encoded_of_reached hk hkr hn ⟨hall, hdegree, not_not.mp hcount⟩

theorem rsDecodeBlock_eq_some_iff {r out : List UInt8} {k : ℕ} (hk : 0 < k) (hkr : k ≤ r.length)
    (hn : r.length ≤ FEC_RS_MAX_N) :
    rsDecodeBlock r k = some out ↔
      out.length = k ∧ mismatches (rsEncodeBlock out (r.length - k)) r ≤ (r.length - k) / 2 := by
  have hnear : ∀ msg : List UInt8, msg.length = k →
      mismatches (rsEncodeBlock msg (r.length - k)) r ≤ (r.length - k) / 2 →
      rsDecodeBlock r k = some msg := by
    intro msg hmsg hdist
    rw [← hmsg] at hdist ⊢
    exact rsDecodeBlock_corrects (List.ne_nil_of_length_pos (by omega)) (by omega) (by omega) hdist
  constructor
  · intro h
    obtain ⟨msg, hmsg, hdist⟩ := exists_encoded_of_accepted hk hkr hn h
    have hout := (hnear msg hmsg hdist).symm.trans h
    rw [← Option.some.inj hout]
    exact ⟨hmsg, hdist⟩
  · rintro ⟨hlen, hdist⟩
    exact hnear out hlen hdist

theorem rsCorrectErrors_eq_none_iff {synd loc : List UInt8} {ecc locDeg : ℕ}
    (found : List (ℕ × UInt8)) (buf : List UInt8) :
    rsCorrectErrors synd ecc loc locDeg found buf = none ↔
      ∃ f ∈ found, rsDerivativeEval loc locDeg (gfInv f.2) = 0 := by
  induction found generalizing buf with
  | nil => simp [rsCorrectErrors]
  | cons f found ih =>
    obtain ⟨pos, num⟩ := f
    simp only [rsCorrectErrors, List.mem_cons, exists_eq_or_imp]
    split_ifs with hderiv
    · simp [hderiv]
    · rw [ih]
      simp [hderiv]

/-- The decoder leaves through the test of the derivative. -/
def TakesDerivativeExit (r : List UInt8) (k : ℕ) : Prop :=
  let ecc := r.length - k
  let loc := (rsFindErrorLocator (rsSyndromes r ecc) ecc).1
  let locDeg := (rsFindErrorLocator (rsSyndromes r ecc) ecc).2
  ReachesCorrection r k ∧
    ∃ f ∈ rsErrorPositions loc locDeg r.length, rsDerivativeEval loc locDeg (gfInv f.2) = 0

theorem not_takesDerivativeExit {r : List UInt8} {k : ℕ} (hk : 0 < k) (hkr : k ≤ r.length)
    (hn : r.length ≤ FEC_RS_MAX_N) : ¬ TakesDerivativeExit r k := by
  rintro ⟨hreach, hzero⟩
  obtain ⟨msg, hmsg, hnear⟩ := exists_encoded_of_reached hk hkr hn hreach
  have hsome := (rsDecodeBlock_eq_some_iff hk hkr hn).mpr ⟨hmsg, hnear⟩
  obtain ⟨hall, hdegree, hcount⟩ := hreach
  have hstop : rsCorrectErrors (rsSyndromes r (r.length - k)) (r.length - k) _ _ _ r = none :=
    (rsCorrectErrors_eq_none_iff _ r).mpr hzero
  simp only [rsDecodeBlock] at hsome
  rw [if_neg hall, if_neg hdegree, if_neg (not_not.mpr hcount), hstop] at hsome
  exact Option.some_ne_none _ hsome.symm

theorem rsDecodeBlock_eq_none_iff {r : List UInt8} {k : ℕ} (hk : 0 < k) (hkr : k ≤ r.length)
    (hn : r.length ≤ FEC_RS_MAX_N) :
    rsDecodeBlock r k = none ↔ ∀ msg : List UInt8, msg.length = k →
      (r.length - k) / 2 < mismatches (rsEncodeBlock msg (r.length - k)) r := by
  rw [Option.eq_none_iff_forall_ne_some]
  refine forall_congr' fun msg => ?_
  rw [ne_eq, rsDecodeBlock_eq_some_iff hk hkr hn, not_and, not_le]

/-- Soundness of the block decoder: an accepted block lies within half the parity of the
encoding of its output, a rejected one does not lie that near to any encoded block, and the
test of the derivative never rejects. -/
theorem rsDecodeBlock_sound {r : List UInt8} {k ecc : ℕ} (hk : 1 ≤ k) (hr : r.length = k + ecc)
    (hn : k + ecc ≤ 255) :
    (∀ out, rsDecodeBlock r k = some out → ∃ data : List UInt8, data.length = k ∧
      mismatches (rsEncodeBlock data ecc) r ≤ ecc / 2 ∧ (rsEncodeBlock data ecc).take k = out) ∧
    ¬ TakesDerivativeExit r k ∧
    (rsDecodeBlock r k = none → ¬ ∃ data : List UInt8, data.length = k ∧
      mismatches (rsEncodeBlock data ecc) r ≤ ecc / 2) := by
  have hkr : k ≤ r.length := by omega
  have hlen : r.length ≤ FEC_RS_MAX_N := hr.trans_le hn
  have hsub : r.length - k = ecc := by omega
  refine ⟨fun out hout => ?_, not_takesDerivativeExit hk hkr hlen, fun hnone => ?_⟩
  · obtain ⟨hdata, hnear⟩ := (rsDecodeBlock_eq_some_iff hk hkr hlen).mp hout
    rw [hsub] at hnear
    have htake := rsEncodeBlock_take out ecc
    rw [hdata] at htake
    exact ⟨out, hdata, hnear, htake⟩
  · rintro ⟨data, hdata, hnear⟩
    have hfar := (rsDecodeBlock_eq_none_iff hk hkr hlen).mp hnone data hdata
    rw [hsub] at hfar
    omega

theorem rsDecodeBlock_sound_three :
    (∀ out, rsDecodeBlock [7, 0, 0] 1 = some out → ∃ data : List UInt8, data.length = 1 ∧
      mismatches (rsEncodeBlock data 2) [7, 0, 0] ≤ 2 / 2 ∧ (rsEncodeBlock data 2).take 1 = out) ∧
    ¬ TakesDerivativeExit [7, 0, 0] 1 ∧
    (rsDecodeBlock [7, 0, 0] 1 = none → ¬ ∃ data : List UInt8, data.length = 1 ∧
      mismatches (rsEncodeBlock data 2) [7, 0, 0] ≤ 2 / 2) :=
  rsDecodeBlock_sound (by decide) (by decide) (by decide)

end EchoProtocol.ReedSolomon
