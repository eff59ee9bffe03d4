import EchoProtocol.LinearRecurrence

/-!
# Error patterns, their locator and their evaluator

A pattern of errors has finitely many positions with distinct nonzero numbers and nonzero
values. Its power sums obey the recurrence given by the locator polynomial; no other
recurrence of at most that length does, and the values are read off the evaluator.
-/
namespace ErrorLocator
open Polynomial LinearRecurrence

structure Pattern (F ι : Type*) [Field F] where
  positions : Finset ι
  number : ι → F
  value : ι → F
  number_ne : ∀ e ∈ positions, number e ≠ 0
  number_inj : Set.InjOn number positions
  value_ne : ∀ e ∈ positions, value e ≠ 0

namespace Pattern

variable {F ι : Type*} [Field F] [DecidableEq ι] (p : Pattern F ι)

noncomputable def factor (e : ι) : F[X] := 1 - C (p.number e) * X

noncomputable def locator : F[X] := ∏ e ∈ p.positions, p.factor e

noncomputable def cofactor (e : ι) : F[X] := ∏ e' ∈ p.positions.erase e, p.factor e'

noncomputable def evaluator : F[X] := ∑ e ∈ p.positions, C (p.value e) * p.cofactor e

/-- The power sum that an error pattern contributes to the `i`-th syndrome. -/
def syndrome (i : ℕ) : F := ∑ e ∈ p.positions, p.value e * p.number e ^ i

omit [DecidableEq ι] in
theorem factor_eval (e : ι) (x : F) : (p.factor e).eval x = 1 - p.number e * x := by
  simp [factor]

omit [DecidableEq ι] in
theorem factor_natDegree_le (e : ι) : (p.factor e).natDegree ≤ 1 := by
  unfold factor
  apply (natDegree_sub_le _ _).trans
  simpa using natDegree_C_mul_le (p.number e) (X : F[X])

omit [DecidableEq ι] in
theorem factor_natDegree {e : ι} (he : e ∈ p.positions) : (p.factor e).natDegree = 1 := by
  have hlin : p.factor e = C (-p.number e) * X + C 1 := by simp [factor, sub_eq_add_neg, add_comm]
  rw [hlin, natDegree_linear (neg_ne_zero.mpr (p.number_ne e he))]

theorem locator_split {e : ι} (he : e ∈ p.positions) :
    p.locator = p.factor e * p.cofactor e :=
  (Finset.mul_prod_erase _ _ he).symm

omit [DecidableEq ι] in
theorem locator_constant : p.locator.coeff 0 = 1 := by
  rw [coeff_zero_eq_eval_zero, locator, eval_prod]
  exact Finset.prod_eq_one fun e _ => by simp [factor_eval]

omit [DecidableEq ι] in
theorem locator_natDegree : p.locator.natDegree = p.positions.card := by
  unfold locator
  rw [natDegree_prod]
  · rw [Finset.sum_congr rfl fun e he => p.factor_natDegree he]
    simp
  · intro e he h
    have := p.factor_natDegree he
    simp [h] at this

theorem cofactor_natDegree_lt {e : ι} (he : e ∈ p.positions) :
    (p.cofactor e).natDegree < p.positions.card := by
  have hle : (p.cofactor e).natDegree ≤ (p.positions.erase e).card :=
    (natDegree_prod_le _ _).trans <|
      (Finset.sum_le_card_nsmul _ _ 1 fun e' _ => p.factor_natDegree_le e').trans (by simp)
  exact hle.trans_lt (Finset.card_erase_lt_of_mem he)

theorem evaluator_coeff_eq_zero {k : ℕ} (hk : p.positions.card ≤ k) :
    p.evaluator.coeff k = 0 := by
  unfold evaluator
  rw [finsetSum_coeff]
  apply Finset.sum_eq_zero
  intro e he
  rw [coeff_C_mul, coeff_eq_zero_of_natDegree_lt ((p.cofactor_natDegree_lt he).trans_le hk),
    mul_zero]

/-- The geometric series of one error, cut after `N` terms. -/
noncomputable def series (N : ℕ) (e : ι) : F[X] :=
  ∑ i ∈ Finset.range N, (C (p.number e) * X) ^ i

omit [DecidableEq ι] in
theorem series_coeff {N k : ℕ} (hk : k < N) (e : ι) :
    (p.series N e).coeff k = p.number e ^ k := by
  unfold series
  rw [finsetSum_coeff, Finset.sum_eq_single k]
  · rw [mul_pow, ← C_pow, coeff_C_mul, coeff_X_pow_self, mul_one]
  · intro i _ hik
    rw [mul_pow, ← C_pow, coeff_C_mul, coeff_X_pow, if_neg (Ne.symm hik), mul_zero]
  · intro h
    exact absurd (Finset.mem_range.mpr hk) h

theorem locator_mul_series_coeff {N k : ℕ} (hk : k < N) {e : ι} (he : e ∈ p.positions) :
    (p.locator * p.series N e).coeff k = (p.cofactor e).coeff k := by
  have htel : p.locator * p.series N e =
      p.cofactor e - X ^ N * (C (p.number e ^ N) * p.cofactor e) := by
    have hgeom : p.factor e * p.series N e = 1 - (C (p.number e) * X) ^ N := by
      unfold factor series
      rw [mul_comm, ← neg_sub, mul_neg, geom_sum_mul, neg_sub]
    calc p.locator * p.series N e = p.cofactor e * (p.factor e * p.series N e) := by
          rw [p.locator_split he]; ring
      _ = p.cofactor e - X ^ N * (C (p.number e ^ N) * p.cofactor e) := by
          rw [hgeom, mul_pow, C_pow]; ring
  rw [htel, coeff_sub, coeff_X_pow_mul', if_neg (by omega), sub_zero]

omit [DecidableEq ι] in
theorem coeff_mul_congr {P S T : F[X]} {k : ℕ} (h : ∀ j ≤ k, S.coeff j = T.coeff j) :
    (P * S).coeff k = (P * T).coeff k := by
  rw [coeff_mul, coeff_mul]
  refine Finset.sum_congr rfl fun x hx => ?_
  have hsum := Finset.HasAntidiagonal.mem_antidiagonal.mp hx
  rw [h x.2 (by omega)]

omit [DecidableEq ι] in
theorem coeff_cancel {P S T : F[X]} {N : ℕ} (hP : P.coeff 0 = 1)
    (h : ∀ k < N, (P * S).coeff k = (P * T).coeff k) : ∀ k < N, S.coeff k = T.coeff k := by
  have hdvd : (X : F[X]) ^ N ∣ P * (S - T) := by
    rw [X_pow_dvd_iff]
    intro k hk
    rw [mul_sub, coeff_sub, h k hk, sub_self]
  have hX : ¬ (X : F[X]) ∣ P := by
    rw [X_dvd_iff, hP]
    exact one_ne_zero
  have hdiff := X_pow_dvd_iff.mp (prime_X.pow_dvd_of_dvd_mul_left N hX hdvd)
  intro k hk
  have hzero := hdiff k hk
  rwa [coeff_sub, sub_eq_zero] at hzero

theorem key_equation {S : F[X]} {N k : ℕ} (hS : ∀ i < N, S.coeff i = p.syndrome i)
    (hk : k < N) : (p.locator * S).coeff k = p.evaluator.coeff k := by
  have hseries : ∀ j ≤ k,
      S.coeff j = (∑ e ∈ p.positions, C (p.value e) * p.series N e).coeff j := by
    intro j hj
    rw [hS j (by omega), finsetSum_coeff, syndrome]
    refine Finset.sum_congr rfl fun e _ => ?_
    rw [coeff_C_mul, p.series_coeff (by omega)]
  rw [coeff_mul_congr hseries, Finset.mul_sum, evaluator, finsetSum_coeff, finsetSum_coeff]
  refine Finset.sum_congr rfl fun e he => ?_
  rw [mul_left_comm, coeff_C_mul, coeff_C_mul, p.locator_mul_series_coeff hk he]

theorem locator_generates {S : F[X]} {N : ℕ} (hS : ∀ i < N, S.coeff i = p.syndrome i) :
    Generates S N p.locator p.positions.card :=
  ⟨p.locator_constant, p.locator_natDegree.le, fun k hk hkN => by
    rw [p.key_equation hS hkN, p.evaluator_coeff_eq_zero hk]⟩

theorem cofactor_eval_ne {e : ι} (he : e ∈ p.positions) :
    (p.cofactor e).eval (p.number e)⁻¹ ≠ 0 := by
  unfold cofactor
  rw [eval_prod, Finset.prod_ne_zero_iff]
  intro e' he'
  rw [factor_eval, sub_ne_zero, ne_comm]
  intro h
  have heq : p.number e' = p.number e := by
    rw [← div_eq_mul_inv] at h
    exact (div_eq_one_iff_eq (p.number_ne e he)).mp h
  exact Finset.ne_of_mem_erase he' (p.number_inj (Finset.mem_of_mem_erase he') he heq)

theorem cofactor_eval_other {e e' : ι} (he : e ∈ p.positions) (hne : e' ≠ e) :
    (p.cofactor e').eval (p.number e)⁻¹ = 0 := by
  unfold cofactor
  rw [eval_prod]
  apply Finset.prod_eq_zero (Finset.mem_erase.mpr ⟨hne.symm, he⟩)
  rw [factor_eval, mul_inv_cancel₀ (p.number_ne e he), sub_self]

theorem evaluator_eval {e : ι} (he : e ∈ p.positions) :
    p.evaluator.eval (p.number e)⁻¹ = p.value e * (p.cofactor e).eval (p.number e)⁻¹ := by
  unfold evaluator
  rw [eval_finsetSum, Finset.sum_eq_single_of_mem e he]
  · simp
  · intro e' _ hne
    rw [eval_mul, p.cofactor_eval_other he hne, mul_zero]

omit [DecidableEq ι] in
theorem locator_root_iff (x : F) :
    p.locator.eval x = 0 ↔ ∃ e ∈ p.positions, p.number e * x = 1 := by
  unfold locator
  rw [eval_prod, Finset.prod_eq_zero_iff]
  refine exists_congr fun e => and_congr_right fun _ => ?_
  rw [factor_eval, sub_eq_zero, eq_comm]

theorem derivative_eval {e : ι} (he : e ∈ p.positions) :
    (derivative p.locator).eval (p.number e)⁻¹ =
      -(p.number e * (p.cofactor e).eval (p.number e)⁻¹) := by
  rw [p.locator_split he, derivative_mul, eval_add, eval_mul, eval_mul, factor_eval,
    mul_inv_cancel₀ (p.number_ne e he), sub_self, zero_mul, add_zero]
  simp [factor]

theorem derivative_eval_ne {e : ι} (he : e ∈ p.positions) :
    (derivative p.locator).eval (p.number e)⁻¹ ≠ 0 := by
  rw [p.derivative_eval he, neg_ne_zero]
  exact mul_ne_zero (p.number_ne e he) (p.cofactor_eval_ne he)

/-- The value of an error, from the evaluator and the derivative of the locator at the
inverse of its number (syndromes starting at the zeroth power). -/
theorem value_eq {e : ι} (he : e ∈ p.positions) :
    p.number e * p.evaluator.eval (p.number e)⁻¹ *
      ((derivative p.locator).eval (p.number e)⁻¹)⁻¹ = -p.value e := by
  have hX := p.number_ne e he
  have hc := p.cofactor_eval_ne he
  rw [p.evaluator_eval he, p.derivative_eval he]
  generalize (p.cofactor e).eval (p.number e)⁻¹ = c at hc
  rw [inv_neg, mul_neg, neg_inj]
  field_simp

/-- A recurrence no longer than the pattern vanishes at the inverse numbers: multiplying it
with the evaluator leaves a multiple of the locator. -/
theorem root_of_generates {S D : F[X]} {N L : ℕ} (hS : ∀ i < N, S.coeff i = p.syndrome i)
    (hN : 2 * p.positions.card ≤ N) (h : Generates S N D L) (hL : L ≤ p.positions.card)
    {e : ι} (he : e ∈ p.positions) : D.eval (p.number e)⁻¹ = 0 := by
  set v := p.positions.card with hv
  have hv0 : 0 < v := Finset.card_pos.mpr ⟨e, he⟩
  obtain ⟨R, hRhigh, hRcoeff⟩ := h.exists_remainder
  have hRdeg : R.natDegree ≤ L - 1 :=
    natDegree_le_iff_coeff_eq_zero.mpr fun k hk => hRhigh k (by omega)
  have hEdeg : p.evaluator.natDegree ≤ v - 1 := by
    refine natDegree_le_iff_coeff_eq_zero.mpr fun k hk => ?_
    exact p.evaluator_coeff_eq_zero (by omega)
  have hcross : D * p.evaluator = p.locator * R := by
    ext k
    by_cases hk : k < N
    · calc (D * p.evaluator).coeff k = (D * (p.locator * S)).coeff k :=
            coeff_mul_congr fun j hj => (p.key_equation hS (by omega)).symm
        _ = (p.locator * (D * S)).coeff k := by rw [mul_left_comm]
        _ = (p.locator * R).coeff k :=
            coeff_mul_congr fun j hj => (hRcoeff j (by omega)).symm
    · have hdeg := h.degree
      have hlocdeg := p.locator_natDegree
      rw [coeff_eq_zero_of_natDegree_lt (natDegree_mul_le.trans_lt (by omega)),
        coeff_eq_zero_of_natDegree_lt (natDegree_mul_le.trans_lt (by omega))]
  have heval := congrArg (eval (p.number e)⁻¹) hcross
  rw [eval_mul, eval_mul, (p.locator_root_iff _).mpr
    ⟨e, he, mul_inv_cancel₀ (p.number_ne e he)⟩, zero_mul] at heval
  refine (mul_eq_zero.mp heval).resolve_right ?_
  rw [p.evaluator_eval he]
  exact mul_ne_zero (p.value_ne e he) (p.cofactor_eval_ne he)

omit [DecidableEq ι] in
/-- The locator is determined by its degree, its constant term and its roots. -/
theorem eq_locator {D : F[X]} (hdeg : D.natDegree ≤ p.positions.card) (hone : D.coeff 0 = 1)
    (hroot : ∀ e ∈ p.positions, D.eval (p.number e)⁻¹ = 0) : D = p.locator := by
  classical
  -- both have value one at zero and the inverse numbers as roots, one point too many
  let points : Finset F := insert 0 (p.positions.image fun e => (p.number e)⁻¹)
  have hcard : points.card = p.positions.card + 1 := by
    rw [Finset.card_insert_of_notMem, Finset.card_image_of_injOn]
    · intro e he e' he' heq
      exact p.number_inj he he' (inv_injective heq)
    · simp only [Finset.mem_image, not_exists, not_and]
      intro e he
      exact inv_ne_zero (p.number_ne e he)
  have hshort : ∀ Q : F[X], Q.natDegree ≤ p.positions.card → Q.degree < points.card := by
    intro Q hQ
    rw [hcard]
    exact (degree_le_natDegree).trans_lt (by exact_mod_cast Nat.lt_succ_of_le hQ)
  apply eq_of_degrees_lt_of_eval_finset_eq points (hshort _ hdeg)
    (hshort _ p.locator_natDegree.le)
  intro x hx
  rcases Finset.mem_insert.mp hx with rfl | hx
  · rw [← coeff_zero_eq_eval_zero, ← coeff_zero_eq_eval_zero, hone, p.locator_constant]
  · obtain ⟨e, he, rfl⟩ := Finset.mem_image.mp hx
    rw [hroot e he, (p.locator_root_iff _).mpr ⟨e, he, mul_inv_cancel₀ (p.number_ne e he)⟩]

theorem generates_unique {S D : F[X]} {N L : ℕ} (hS : ∀ i < N, S.coeff i = p.syndrome i)
    (hN : 2 * p.positions.card ≤ N) (h : Generates S N D L) (hL : L ≤ p.positions.card) :
    D = p.locator :=
  p.eq_locator (h.degree.trans hL) h.constant fun _ he => p.root_of_generates hS hN h hL he

theorem shortest_eq_locator {S D B : F[X]} {N L m : ℕ} {b : F}
    (hS : ∀ i < N, S.coeff i = p.syndrome i) (hN : 2 * p.positions.card ≤ N)
    (h : Shortest S N D B L m b) : D = p.locator ∧ L = p.positions.card := by
  have hL : L ≤ p.positions.card := h.minimal _ _ (p.locator_generates hS)
  have hD := p.generates_unique hS hN h.generates hL
  refine ⟨hD, hL.antisymm ?_⟩
  have hdeg := h.generates.degree
  rwa [hD, p.locator_natDegree] at hdeg

theorem syndrome_ne_zero {N : ℕ} (hN : p.positions.card ≤ N) (hp : p.positions.Nonempty) :
    ∃ i < N, p.syndrome i ≠ 0 := by
  by_contra hzero
  push Not at hzero
  have hS : ∀ i < N, (0 : F[X]).coeff i = p.syndrome i := fun i hi => by simp [hzero i hi]
  have hevaluator : p.evaluator = 0 := by
    ext k
    by_cases hk : k < N
    · rw [← p.key_equation hS hk, mul_zero]
    · rw [p.evaluator_coeff_eq_zero (by omega), coeff_zero]
  obtain ⟨e, he⟩ := hp
  have heval := p.evaluator_eval he
  rw [hevaluator, eval_zero] at heval
  exact mul_ne_zero (p.value_ne e he) (p.cofactor_eval_ne he) heval.symm

end Pattern

section Realized

variable {F ι : Type*} [Field F] [DecidableEq ι]

/-- Partial fractions: a polynomial shorter than the locator is a sum of cofactors. -/
theorem exists_cofactor_sum (q : Pattern F ι) {R : F[X]}
    (hR : ∀ k, q.positions.card ≤ k → R.coeff k = 0) :
    ∃ v : ι → F, R = ∑ e ∈ q.positions, C (v e) * q.cofactor e := by
  refine ⟨fun e => R.eval (q.number e)⁻¹ * ((q.cofactor e).eval (q.number e)⁻¹)⁻¹, ?_⟩
  have hinj : Set.InjOn (fun e => (q.number e)⁻¹) q.positions := fun e he e' he' heq =>
    q.number_inj he he' (inv_injective heq)
  apply eq_of_degrees_lt_of_eval_index_eq q.positions hinj
  · exact (degree_lt_iff_coeff_zero _ _).mpr hR
  · rw [degree_lt_iff_coeff_zero]
    intro k hk
    rw [finsetSum_coeff]
    refine Finset.sum_eq_zero fun e he => ?_
    rw [coeff_C_mul, coeff_eq_zero_of_natDegree_lt ((q.cofactor_natDegree_lt he).trans_le hk),
      mul_zero]
  · intro e he
    rw [eval_finsetSum, Finset.sum_eq_single_of_mem e he]
    · rw [eval_mul, eval_C, inv_mul_cancel_right₀ (q.cofactor_eval_ne he)]
    · intro e' _ hne
      rw [eval_mul, q.cofactor_eval_other he hne, mul_zero]

/-- A recurrence whose connection polynomial has as many roots among the inverse numbers as
it is long comes from a pattern of errors at these positions. -/
theorem exists_pattern {S D : F[X]} {N L : ℕ} (h : Generates S N D L) {positions : Finset ι}
    {number : ι → F} (hne : ∀ e ∈ positions, number e ≠ 0) (hinj : Set.InjOn number positions)
    (hcard : positions.card = L) (hroot : ∀ e ∈ positions, D.eval (number e)⁻¹ = 0) :
    ∃ p : Pattern F ι, p.positions ⊆ positions ∧ p.number = number ∧
      ∀ i < N, S.coeff i = p.syndrome i := by
  classical
  let q : Pattern F ι := ⟨positions, number, fun _ => 1, hne, hinj, fun _ _ => one_ne_zero⟩
  have hD : D = q.locator := q.eq_locator (h.degree.trans hcard.ge) h.constant hroot
  obtain ⟨R, hRhigh, hRcoeff⟩ := h.exists_remainder
  obtain ⟨v, hv⟩ := exists_cofactor_sum q fun k hk => hRhigh k (hcard.symm.le.trans hk)
  have hsame := Pattern.coeff_cancel (T := ∑ e ∈ q.positions, C (v e) * q.series N e)
    h.constant fun k hk => by
      rw [← hRcoeff k hk, hv, hD, Finset.mul_sum, finsetSum_coeff, finsetSum_coeff]
      refine Finset.sum_congr rfl fun e he => ?_
      rw [mul_left_comm, coeff_C_mul, coeff_C_mul, q.locator_mul_series_coeff hk he]
  -- positions with value zero are no errors
  refine ⟨⟨positions.filter fun e => v e ≠ 0, number, v,
    fun e he => hne e (Finset.mem_filter.mp he).1,
    fun e he e' he' heq => hinj (Finset.mem_filter.mp he).1 (Finset.mem_filter.mp he').1 heq,
    fun e he => (Finset.mem_filter.mp he).2⟩, Finset.filter_subset _ _, rfl, fun i hi => ?_⟩
  rw [hsame i hi, finsetSum_coeff, Pattern.syndrome, Finset.sum_filter]
  refine Finset.sum_congr rfl fun e _ => ?_
  rw [coeff_C_mul, q.series_coeff hi]
  split_ifs with hz
  · rfl
  · rw [not_not.mp hz, zero_mul]

end Realized
end ErrorLocator
