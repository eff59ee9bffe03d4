import EchoProtocol.ReedSolomon
import EchoProtocol.ErrorLocator

/-!
# Block decoding within half the parity

The loops of the block decoder are read as operations on polynomials over the byte field;
the general theory of error locators then gives back every block that was damaged in at
most half as many bytes as it has parity.
-/
namespace EchoProtocol.ReedSolomon
open Bytes ByteField Polynomial LinearRecurrence ErrorLocator

theorem coeff_toPoly_mul {loc synd : List UInt8} {L n : ℕ} (hdeg : (toPoly loc).natDegree ≤ L)
    (hn : L ≤ n) : (toPoly loc * toPoly synd).coeff n =
      ∑ i ∈ Finset.range (L + 1), gf (byteAt loc i) * gf (byteAt synd (n - i)) := by
  rw [coeff_mul_range hdeg hn]
  exact Finset.sum_congr rfl fun i _ => by rw [coeff_toPoly, coeff_toPoly]

theorem gf_discrepancy (synd : List UInt8) {s : Synthesis} {n : ℕ}
    (h0 : (toPoly s.C).coeff 0 = 1) (hdeg : (toPoly s.C).natDegree ≤ s.L) (hn : s.L ≤ n) :
    gf (discrepancy synd s n) = (toPoly s.C * toPoly synd).coeff n := by
  rw [coeff_toPoly] at h0
  rw [coeff_toPoly_mul hdeg hn, Finset.sum_range_succ', h0, one_mul, Nat.sub_zero, discrepancy,
    gf_foldl_xor, add_comm]
  congr 1

theorem toPoly_subtractShifted {D B : List UInt8} {coef : UInt8} {m : ℕ}
    (hD : (toPoly D).natDegree < 256) (hB : (toPoly B).natDegree + m < 256) :
    toPoly (subtractShifted D B coef m) = toPoly D - C (gf coef) * (X ^ m * toPoly B) := by
  ext1 j
  rw [coeff_toPoly, subtractShifted, byteAt_tabulate, sub_eq_add_neg, coeff_add, coeff_neg,
    coeff_C_mul, coeff_X_pow_mul', neg_eq, coeff_toPoly, coeff_toPoly]
  by_cases hj : j < 256
  · rw [if_pos hj]
    by_cases hm : m ≤ j
    · rw [if_pos hm, if_pos hm, gf_xor, gf_mul]
    · rw [if_neg hm, if_neg hm, mul_zero, add_zero]
  · have hDj : gf (byteAt D j) = 0 := by
      rw [← coeff_toPoly]
      exact coeff_eq_zero_of_natDegree_lt (by omega)
    have hBj : gf (byteAt B (j - m)) = 0 := by
      rw [← coeff_toPoly]
      exact coeff_eq_zero_of_natDegree_lt (by omega)
    rw [if_neg hj, hDj, hBj, ite_self, mul_zero, add_zero, gf_zero]

/-- The loop state after `n` syndromes, as a shortest recurrence. -/
def SynthesisInvariant (synd : List UInt8) (n : ℕ) (s : Synthesis) : Prop :=
  Shortest (toPoly synd) n (toPoly s.C) (toPoly s.B) s.L s.m (gf s.b)

theorem initialSynthesis_invariant (synd : List UInt8) :
    SynthesisInvariant synd 0 initialSynthesis := by
  have hone : toPoly ((List.replicate 256 0).set 0 1) = 1 := by
    ext1 j
    rw [coeff_toPoly, byteAt_set, byteAt_replicate_zero, List.length_replicate, coeff_one]
    by_cases hj : j = 0
    · subst hj; rfl
    · rw [if_neg hj, if_neg fun h => hj h.1.symm, gf_zero]
  unfold SynthesisInvariant initialSynthesis
  rw [hone]
  exact Shortest.initial _

theorem synthesisStep_invariant {synd : List UInt8} {n : ℕ} {s : Synthesis} (hn : n < 255)
    (h : SynthesisInvariant synd n s) : SynthesisInvariant synd (n + 1) (synthesisStep synd s n) := by
  have hL := h.length_le
  have hshift := h.shift_le
  have hdeg := h.generates.degree
  have hd := gf_discrepancy synd h.generates.constant hdeg hL
  simp only [synthesisStep]
  split_ifs with hzero hgrow
  · rw [hzero, gf_zero] at hd
    exact Shortest.skip h hd.symm
  · have hne : (toPoly s.C * toPoly synd).coeff n ≠ 0 := by
      rw [← hd]
      exact fun hz => hzero (gf_eq_zero.mp hz)
    have hnew := Shortest.grow h hne hgrow
    rw [← hd, ← gf_inv, ← gf_mul, ← toPoly_subtractShifted (by omega) (by omega)] at hnew
    exact hnew
  · have hnew := Shortest.keep h (by omega)
    rw [← hd, ← gf_inv, ← gf_mul, ← toPoly_subtractShifted (by omega) (by omega)] at hnew
    exact hnew

theorem synthesis_invariant (synd : List UInt8) {n : ℕ} (hn : n ≤ 255) :
    SynthesisInvariant synd n ((List.range n).foldl (synthesisStep synd) initialSynthesis) := by
  induction n with
  | zero => exact initialSynthesis_invariant synd
  | succ n ih =>
    rw [List.range_succ, List.foldl_append, List.foldl_cons, List.foldl_nil]
    exact synthesisStep_invariant (by omega) (ih (by omega))

theorem gf_hornerDown (poly : List UInt8) (x y : UInt8) (i : ℕ) :
    gf (hornerDown poly x i y) =
      gf y * gf x ^ i + ∑ j ∈ Finset.range i, gf (byteAt poly j) * gf x ^ j := by
  induction i generalizing y with
  | zero => simp [hornerDown]
  | succ i ih =>
    rw [hornerDown, ih, gf_xor, gf_mul, Finset.sum_range_succ]
    ring

theorem gf_polyEval {poly : List UInt8} {deg : ℕ} (x : UInt8)
    (hdeg : (toPoly poly).natDegree ≤ deg) :
    gf (gfPolyEval poly deg x) = (toPoly poly).eval (gf x) := by
  rw [gfPolyEval, gf_hornerDown, eval_eq_sum_range' (Nat.lt_succ_of_le hdeg),
    Finset.sum_range_succ, add_comm]
  congr 1
  · exact Finset.sum_congr rfl fun j _ => by rw [coeff_toPoly]
  · rw [coeff_toPoly]

theorem gf_omegaCoeff {synd loc : List UInt8} {locDeg : ℕ} (t : ℕ)
    (hdeg : (toPoly loc).natDegree ≤ locDeg) :
    gf (omegaCoeff synd loc locDeg t) = (toPoly loc * toPoly synd).coeff t := by
  have hfold : omegaCoeff synd loc locDeg t = (List.range (t + 1)).foldl (fun acc i =>
      acc ^^^ (if locDeg < t - i then 0 else gfMul (byteAt synd i) (byteAt loc (t - i)))) 0 := by
    unfold omegaCoeff
    congr 1
    funext acc i
    split_ifs
    · rw [UInt8.xor_zero]
    · rfl
  rw [hfold, gf_foldl_xor, gf_zero, zero_add, mul_comm, coeff_mul,
    Finset.Nat.sum_antidiagonal_eq_sum_range_succ
      (f := fun i j => (toPoly synd).coeff i * (toPoly loc).coeff j)]
  refine Finset.sum_congr rfl fun i _ => ?_
  rw [coeff_toPoly]
  split_ifs with hlt
  · rw [coeff_eq_zero_of_natDegree_lt (hdeg.trans_lt hlt), mul_zero, gf_zero]
  · rw [gf_mul, coeff_toPoly]

theorem gf_omegaEval {synd loc : List UInt8} {locDeg : ℕ} (ecc : ℕ) (y : UInt8)
    (hdeg : (toPoly loc).natDegree ≤ locDeg) :
    gf (rsOmegaEval synd ecc loc locDeg y) =
      ∑ t ∈ Finset.range ecc, (toPoly loc * toPoly synd).coeff t * gf y ^ t := by
  rw [rsOmegaEval, gf_foldl_xor, gf_zero, zero_add]
  exact Finset.sum_congr rfl fun t _ => by rw [gf_mul, gf_omegaCoeff t hdeg, gf_pow]

/-- Only the even powers survive in the derivative. -/
theorem derivative_eval_odd (p : GF256[X]) (y : GF256) (L : ℕ) :
    ∑ d ∈ Finset.range L, (derivative p).coeff d * y ^ d =
      ∑ i ∈ Finset.range ((L + 1) / 2), p.coeff (2 * i + 1) * y ^ (2 * i) := by
  induction L with
  | zero => simp
  | succ L ih =>
    rw [Finset.sum_range_succ, ih, coeff_derivative]
    obtain ⟨i, rfl | rfl⟩ := Nat.even_or_odd' L
    · rw [show (2 * i + 1) / 2 = i by omega, show (2 * i + 1 + 1) / 2 = i + 1 by omega,
        Finset.sum_range_succ]
      have := natCast_odd i
      push_cast at this ⊢
      rw [this, mul_one]
    · rw [show (2 * i + 1 + 1) / 2 = i + 1 by omega, show (2 * i + 1 + 1 + 1) / 2 = i + 1 by omega]
      have := natCast_even (i + 1)
      push_cast at this ⊢
      rw [show (2 * (i : GF256) + 1 + 1) = 2 * ((i : GF256) + 1) by ring, this, mul_zero, zero_mul,
        add_zero]

theorem gf_derivativeEval {loc : List UInt8} {locDeg : ℕ} (y : UInt8)
    (hdeg : (toPoly loc).natDegree ≤ locDeg) (hpos : 0 < locDeg) :
    gf (rsDerivativeEval loc locDeg y) = (derivative (toPoly loc)).eval (gf y) := by
  have hlt : (derivative (toPoly loc)).natDegree < locDeg :=
    (natDegree_derivative_le _).trans_lt (by omega)
  rw [eval_eq_sum_range' hlt, derivative_eval_odd, rsDerivativeEval, oddDegrees, List.foldl_map,
    gf_foldl_xor, gf_zero, zero_add]
  refine Finset.sum_congr rfl fun i _ => ?_
  rw [gf_mul, gf_pow, coeff_toPoly, Nat.add_sub_cancel]

theorem gf_rsSyndromes {r : List UInt8} {ecc i : ℕ} (hr : r ≠ []) (hecc : ecc ≤ 255) (hi : i < ecc) :
    gf (byteAt (rsSyndromes r ecc) i) = wordEval (alpha ^ i) r := by
  rw [rsSyndromes, byteAt_tabulate, if_pos hi, rsSyndrome_eq hr, gf_exp (by omega)]

theorem rsSyndromes_all_zero_iff {r : List UInt8} {ecc : ℕ} (hr : r ≠ []) (hecc : ecc ≤ 255) :
    (rsSyndromes r ecc).all (· = 0) = true ↔ ∀ i < ecc, wordEval (alpha ^ i) r = 0 := by
  have hlen : (rsSyndromes r ecc).length = ecc := tabulate_length _ _
  rw [List.all_eq_true]
  constructor
  · intro h i hi
    rw [← gf_rsSyndromes hr hecc hi, gf_eq_zero, byteAt_eq_getElem (by omega)]
    simpa using h _ (List.getElem_mem (by omega))
  · intro h s hs
    obtain ⟨i, hi, rfl⟩ := List.getElem_of_mem hs
    have hz := h i (by omega)
    rw [← gf_rsSyndromes hr hecc (by omega), gf_eq_zero, byteAt_eq_getElem hi] at hz
    simpa using hz

/-- The test of the search at position `j` of a block of `n` bytes. -/
def IsErrorPosition (loc : List UInt8) (locDeg n j : ℕ) : Prop :=
  gfPolyEval loc locDeg (gfExp ((255 - (n - 1 - j) % 255) % 255)) = 0

instance (loc : List UInt8) (locDeg n : ℕ) : DecidablePred (IsErrorPosition loc locDeg n) :=
  fun _ => inferInstanceAs (Decidable (_ = _))

/-- The array of 256 positions never overflows, so the search returns every hit. -/
theorem rsErrorPositions_eq {loc : List UInt8} {locDeg n : ℕ} (hn : n ≤ 255) :
    rsErrorPositions loc locDeg n =
      ((List.range n).filter fun j => IsErrorPosition loc locDeg n j).map
        fun j => (j, gfExp ((n - 1 - j) % 255)) := by
  have hfilter : ∀ l : List ℕ, (l.filterMap fun j =>
      if gfPolyEval loc locDeg (gfExp ((255 - (n - 1 - j) % 255) % 255)) = 0 then
        some (j, gfExp ((n - 1 - j) % 255)) else none) =
      (l.filter fun j => IsErrorPosition loc locDeg n j).map
        fun j => (j, gfExp ((n - 1 - j) % 255)) := by
    intro l
    induction l with
    | nil => rfl
    | cons j l ih =>
      by_cases hj : IsErrorPosition loc locDeg n j
      · rw [List.filterMap_cons_some (by exact if_pos hj), List.filter_cons_of_pos (by simpa using hj),
          List.map_cons, ih]
      · rw [List.filterMap_cons_none (by exact if_neg hj), List.filter_cons_of_neg (by simpa using hj), ih]
  unfold rsErrorPositions
  simp only
  rw [hfilter, List.take_of_length_le]
  rw [List.length_map]
  exact (List.length_filter_le _ _).trans (by rw [List.length_range]; omega)

/-- The bytes in which `r` differs from `c`, numbered as the decoder numbers positions. -/
def damage (c r : List UInt8) (hn : c.length ≤ 255) : Pattern GF256 ℕ where
  positions := (Finset.range c.length).filter fun j => byteAt c j ≠ byteAt r j
  number j := alpha ^ (c.length - 1 - j)
  value j := gf (byteAt c j ^^^ byteAt r j)
  number_ne _ _ := pow_ne_zero _ alpha_ne_zero
  number_inj := by
    intro i hi j hj h
    simp only [Finset.coe_filter, Finset.mem_range, Set.mem_ofPred_eq] at hi hj
    have := alpha_pow_inj (by omega) (by omega) h
    omega
  value_ne j hj h := by
    simp only [Finset.mem_filter, Finset.mem_range] at hj
    exact hj.2 (UInt8.xor_eq_zero_iff.mp (gf_eq_zero.mp h))

section Damaged

variable {c r : List UInt8} (hlen : r.length = c.length) (hn : c.length ≤ 255)

theorem mem_damage {j : ℕ} :
    j ∈ (damage c r hn).positions ↔ j < c.length ∧ byteAt c j ≠ byteAt r j := by
  simp [damage]

include hlen in
theorem wordEval_damage (x : GF256) :
    wordEval x r = wordEval x c +
      ∑ j ∈ (damage c r hn).positions, gf (byteAt c j ^^^ byteAt r j) * x ^ (c.length - 1 - j) := by
  rw [wordEval_eq_sum, wordEval_eq_sum, hlen, damage, Finset.sum_filter, ← Finset.sum_add_distrib]
  refine Finset.sum_congr rfl fun j _ => ?_
  split_ifs with hj
  · rw [gf_xor, add_mul, ← add_assoc, add_self, zero_add]
  · rw [not_not.mp hj, add_zero]

include hlen in
theorem syndrome_damage {i : ℕ} (hroot : wordEval (alpha ^ i) c = 0) :
    wordEval (alpha ^ i) r = (damage c r hn).syndrome i := by
  rw [wordEval_damage hlen hn, hroot, zero_add]
  refine Finset.sum_congr rfl fun j _ => ?_
  simp only [damage]
  rw [← pow_mul, ← pow_mul, mul_comm i]

theorem chien_number {n j : ℕ} (hn : n ≤ 255) (hj : j < n) :
    gf (gfExp ((n - 1 - j) % 255)) = alpha ^ (n - 1 - j) ∧
      gf (gfExp ((255 - (n - 1 - j) % 255) % 255)) = (alpha ^ (n - 1 - j))⁻¹ := by
  have hmod : (n - 1 - j) % 255 = n - 1 - j := Nat.mod_eq_of_lt (by omega)
  rw [hmod, gf_exp (by omega), gf_exp ((Nat.mod_lt _ (by omega)).trans (by omega))]
  refine ⟨rfl, eq_inv_of_mul_eq_one_left ?_⟩
  rw [← pow_add]
  rcases Nat.eq_zero_or_pos (n - 1 - j) with hz | hpos
  · rw [hz]; rfl
  · rw [Nat.mod_eq_of_lt (by omega), show 255 - (n - 1 - j) + (n - 1 - j) = 255 by omega,
      alpha_pow_period]

/-- With the right locator the search returns the damaged positions in order. -/
theorem rsErrorPositions_damage {loc : List UInt8} {locDeg : ℕ}
    (hloc : toPoly loc = (damage c r hn).locator) (hdeg : (toPoly loc).natDegree ≤ locDeg) :
    rsErrorPositions loc locDeg c.length =
      ((List.range c.length).filter fun j => byteAt c j ≠ byteAt r j).map
        fun j => (j, gfExp ((c.length - 1 - j) % 255)) := by
  have htest : ∀ j ∈ List.range c.length,
      (IsErrorPosition loc locDeg c.length j ↔ byteAt c j ≠ byteAt r j) := by
    intro j hj
    have hjc := List.mem_range.mp hj
    rw [IsErrorPosition, ← gf_eq_zero, gf_polyEval _ hdeg, hloc, (chien_number hn hjc).2,
      Pattern.locator_root_iff]
    constructor
    · rintro ⟨j', hj', hone⟩
      obtain ⟨hjc', hne⟩ := (mem_damage hn).mp hj'
      have hpow : alpha ^ (c.length - 1 - j') = alpha ^ (c.length - 1 - j) :=
        (mul_inv_eq_one₀ (pow_ne_zero _ alpha_ne_zero)).mp hone
      have := alpha_pow_inj (by omega) (by omega) hpow
      rwa [show j = j' by omega]
    · intro hne
      exact ⟨j, (mem_damage hn).mpr ⟨hjc, hne⟩,
        mul_inv_cancel₀ (pow_ne_zero _ alpha_ne_zero)⟩
  rw [rsErrorPositions_eq hn]
  congr 1
  exact List.filter_congr fun j hj => decide_eq_decide.mpr (htest j hj)

/-- The magnitude that the decoder computes at a damaged position turns the received byte
back into the sent one. -/
theorem magnitude_damage {synd loc : List UInt8} {ecc locDeg j : ℕ}
    (hS : ∀ i < ecc, (toPoly synd).coeff i = (damage c r hn).syndrome i)
    (hecc : 2 * (damage c r hn).positions.card ≤ ecc)
    (hloc : toPoly loc = (damage c r hn).locator)
    (hdeg : locDeg = (damage c r hn).positions.card)
    (hj : j ∈ (damage c r hn).positions) :
    let num := gfExp ((c.length - 1 - j) % 255)
    let deriv := rsDerivativeEval loc locDeg (gfInv num)
    deriv ≠ 0 ∧ byteAt r j ^^^ gfMul (gfMul num (rsOmegaEval synd ecc loc locDeg (gfInv num)))
      (gfInv deriv) = byteAt c j := by
  intro num deriv
  set p := damage c r hn with hp
  obtain ⟨hjc, hne⟩ := (mem_damage hn).mp hj
  have hcard : 0 < p.positions.card := Finset.card_pos.mpr ⟨j, hj⟩
  have hnum : gf num = p.number j := (chien_number hn hjc).1
  have hlocdeg : (toPoly loc).natDegree ≤ locDeg := by rw [hloc, p.locator_natDegree, hdeg]
  have hderiv : gf deriv = (derivative p.locator).eval (p.number j)⁻¹ := by
    rw [gf_derivativeEval _ hlocdeg (by omega), hloc, gf_inv, hnum]
  have homega : gf (rsOmegaEval synd ecc loc locDeg (gfInv num)) =
      p.evaluator.eval (p.number j)⁻¹ := by
    have hevdeg : p.evaluator.natDegree < ecc := by
      have hle : p.evaluator.natDegree ≤ p.positions.card - 1 :=
        natDegree_le_iff_coeff_eq_zero.mpr fun k hk => p.evaluator_coeff_eq_zero (by omega)
      omega
    rw [gf_omegaEval ecc _ hlocdeg, eval_eq_sum_range' hevdeg, gf_inv, hnum]
    refine Finset.sum_congr rfl fun t ht => ?_
    rw [hloc, p.key_equation hS (Finset.mem_range.mp ht)]
  refine ⟨fun h => ?_, ?_⟩
  · rw [h, gf_zero] at hderiv
    exact p.derivative_eval_ne hj hderiv.symm
  · apply gf_injective
    rw [gf_xor, gf_mul, gf_mul, gf_inv, homega, hnum, hderiv, p.value_eq hj, neg_eq]
    change gf (byteAt r j) + gf (byteAt c j ^^^ byteAt r j) = gf (byteAt c j)
    rw [gf_xor, add_left_comm, add_self, add_zero]

/-- The correction loop repairs the positions it is given and no other byte. -/
theorem rsCorrectErrors_damage {synd loc : List UInt8} {ecc locDeg : ℕ}
    (hS : ∀ i < ecc, (toPoly synd).coeff i = (damage c r hn).syndrome i)
    (hecc : 2 * (damage c r hn).positions.card ≤ ecc)
    (hloc : toPoly loc = (damage c r hn).locator)
    (hdeg : locDeg = (damage c r hn).positions.card)
    (l : List ℕ) (hl : ∀ j ∈ l, j ∈ (damage c r hn).positions) (hnd : l.Nodup)
    (buf : List UInt8) (hbuf : buf.length = c.length) (hsame : ∀ j ∈ l, byteAt buf j = byteAt r j) :
    ∃ out, rsCorrectErrors synd ecc loc locDeg
        (l.map fun j => (j, gfExp ((c.length - 1 - j) % 255))) buf = some out ∧
      out.length = c.length ∧
      ∀ i < c.length, byteAt out i = if i ∈ l then byteAt c i else byteAt buf i := by
  induction l generalizing buf with
  | nil => exact ⟨buf, rfl, hbuf, fun i _ => by simp⟩
  | cons j l ih =>
    obtain ⟨hderiv, hmag⟩ :=
      magnitude_damage hn hS hecc hloc hdeg (hl j List.mem_cons_self)
    obtain ⟨hjl, hnd⟩ := List.nodup_cons.mp hnd
    have hjc := ((mem_damage hn).mp (hl j List.mem_cons_self)).1
    simp only [List.map_cons, rsCorrectErrors]
    rw [if_neg hderiv, hsame j List.mem_cons_self, hmag]
    obtain ⟨out, hout, houtlen, hcells⟩ := ih (fun i hi => hl i (List.mem_cons_of_mem j hi)) hnd
      (buf.set j (byteAt c j)) (by simpa using hbuf) (fun i hi => by
        rw [byteAt_set, if_neg (by rintro ⟨rfl, -⟩; exact hjl hi)]
        exact hsame i (List.mem_cons_of_mem j hi))
    refine ⟨out, hout, houtlen, fun i hi => ?_⟩
    rw [hcells i hi, byteAt_set]
    by_cases hij : j = i
    · subst hij
      rw [if_neg hjl, if_pos ⟨rfl, by omega⟩, if_pos List.mem_cons_self]
    · rw [if_neg (c := j = i ∧ _) fun h => hij h.1]
      simp [Ne.symm hij]

include hlen in
/-- Given all damaged positions, the correction loop gives back the undamaged block. -/
theorem rsCorrectErrors_repairs {synd loc : List UInt8} {ecc locDeg : ℕ}
    (hS : ∀ i < ecc, (toPoly synd).coeff i = (damage c r hn).syndrome i)
    (hecc : 2 * (damage c r hn).positions.card ≤ ecc)
    (hloc : toPoly loc = (damage c r hn).locator)
    (hdeg : locDeg = (damage c r hn).positions.card) :
    rsCorrectErrors synd ecc loc locDeg
      (((List.range c.length).filter fun j => byteAt c j ≠ byteAt r j).map
        fun j => (j, gfExp ((c.length - 1 - j) % 255))) r = some c := by
  have hmem : ∀ j, j ∈ (List.range c.length).filter (fun j => byteAt c j ≠ byteAt r j) ↔
      j < c.length ∧ byteAt c j ≠ byteAt r j := by
    intro j
    rw [List.mem_filter, List.mem_range, decide_eq_true_eq]
  obtain ⟨out, hout, houtlen, hcells⟩ := rsCorrectErrors_damage hn hS hecc hloc hdeg _
    (fun j hj => (mem_damage hn).mpr ((hmem j).mp hj)) (List.nodup_range.filter _) r hlen
    (fun _ _ => rfl)
  rw [hout]
  congr 1
  refine ext_byteAt houtlen fun i hi => ?_
  rw [hcells i (by omega)]
  split_ifs with hin
  · rfl
  · by_contra hne
    exact hin ((hmem i).mpr ⟨by omega, fun h => hne h.symm⟩)

section Search

variable {ecc : ℕ} (hr0 : r ≠ []) (hecc : ecc ≤ 255)
  (hroot : ∀ i < ecc, wordEval (alpha ^ i) c = 0)

include hlen hr0 hecc hroot

theorem coeff_rsSyndromes_damage :
    ∀ i < ecc, (toPoly (rsSyndromes r ecc)).coeff i = (damage c r hn).syndrome i := by
  intro i hi
  rw [coeff_toPoly, gf_rsSyndromes hr0 hecc hi, syndrome_damage hlen hn (hroot i hi)]

theorem rsFindErrorLocator_damage (hcard : 2 * (damage c r hn).positions.card ≤ ecc) :
    toPoly (rsFindErrorLocator (rsSyndromes r ecc) ecc).1 = (damage c r hn).locator ∧
      (rsFindErrorLocator (rsSyndromes r ecc) ecc).2 = (damage c r hn).positions.card :=
  (damage c r hn).shortest_eq_locator (coeff_rsSyndromes_damage hlen hn hr0 hecc hroot) hcard
    (synthesis_invariant (rsSyndromes r ecc) hecc)

end Search

include hlen hn in
/-- Two words that vanish at the roots of the generator and differ in no more bytes than it
has roots are equal. -/
theorem eq_of_roots {ecc : ℕ} (hc : ∀ i < ecc, wordEval (alpha ^ i) c = 0)
    (hr : ∀ i < ecc, wordEval (alpha ^ i) r = 0) (hcard : mismatches c r ≤ ecc) : r = c := by
  have hnone : (damage c r hn).positions = ∅ := by
    by_contra hne
    obtain ⟨i, hi, hsi⟩ :=
      (damage c r hn).syndrome_ne_zero hcard (Finset.nonempty_iff_ne_empty.mpr hne)
    rw [← syndrome_damage hlen hn (hc i hi)] at hsi
    exact hsi (hr i hi)
  refine ext_byteAt hlen fun i hi => ?_
  by_contra hne
  have hi' : i ∈ (damage c r hn).positions :=
    (mem_damage hn).mpr ⟨by omega, fun h => hne h.symm⟩
  rw [hnone] at hi'
  exact Finset.notMem_empty i hi'

end Damaged

/-- A block with at most half as many damaged bytes as it has parity decodes to its data. -/
theorem rsDecodeBlock_corrects {data r : List UInt8} {ecc : ℕ} (hdata : data ≠ [])
    (hn : data.length + ecc ≤ FEC_RS_MAX_N) (hr : r.length = data.length + ecc)
    (hdist : mismatches (rsEncodeBlock data ecc) r ≤ ecc / 2) :
    rsDecodeBlock r data.length = some data := by
  unfold FEC_RS_MAX_N at hn
  have hpos : 0 < data.length := List.length_pos_iff.mpr hdata
  set c := rsEncodeBlock data ecc with hc
  have hclen : c.length = data.length + ecc := rsEncodeBlock_length (by omega)
  have hlen : r.length = c.length := hr.trans hclen.symm
  have hcn : c.length ≤ 255 := by omega
  have hr0 : r ≠ [] := List.ne_nil_of_length_pos (by omega)
  have hroot : ∀ i < ecc, wordEval (alpha ^ i) c = 0 := fun i hi => rsEncodeBlock_root (by omega) hi
  have hctake : c.take data.length = data := rsEncodeBlock_take data ecc
  have hcard : (damage c r hcn).positions.card ≤ ecc / 2 := hdist
  have hsub : r.length - data.length = ecc := by omega
  have hsynd := coeff_rsSyndromes_damage hlen hcn hr0 (by omega) hroot
  obtain ⟨hloc, hL⟩ := rsFindErrorLocator_damage hlen hcn hr0 (by omega) hroot (by omega)
  have hdeg : (toPoly (rsFindErrorLocator (rsSyndromes r ecc) ecc).1).natDegree ≤
      (rsFindErrorLocator (rsSyndromes r ecc) ecc).2 := by
    rw [hloc, Pattern.locator_natDegree, hL]
  have hfound := rsErrorPositions_damage hcn hloc hdeg
  simp only [rsDecodeBlock, hsub]
  split_ifs with hall hdegree hcount
  · -- all syndromes are zero, so nothing was damaged
    have hzero := (rsSyndromes_all_zero_iff hr0 (by omega)).mp hall
    rw [eq_of_roots hlen hcn hroot hzero (hdist.trans (Nat.div_le_self ecc 2)), hctake]
  · -- a locator of degree zero belongs to an undamaged block
    have hnone : (damage c r hcn).positions = ∅ := Finset.card_eq_zero.mp (by omega)
    refine absurd ((rsSyndromes_all_zero_iff hr0 (by omega)).mpr fun i hi => ?_) hall
    rw [syndrome_damage hlen hcn (hroot i hi), Pattern.syndrome, hnone, Finset.sum_empty]
  · rw [hlen, hfound, List.length_map, hL] at hcount
    exact absurd rfl hcount
  · rw [hlen, hfound, rsCorrectErrors_repairs hlen hcn hsynd (by omega) hloc hL, Option.map_some,
      hctake]

end EchoProtocol.ReedSolomon
