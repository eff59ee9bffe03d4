import Mathlib

/-!
# Shortest linear recurrences over a field

A sequence is the coefficient list of a polynomial `S`, and a recurrence is a connection
polynomial `C` with constant term one. `Shortest` is the loop invariant of the classical
synthesis algorithm: a shortest recurrence for the first `n` terms together with the
connection polynomial that was in force before the last change of length.
-/
namespace LinearRecurrence
open Polynomial

variable {F : Type*} [Field F]

/-- The recurrence `C` of length `L` predicts the terms `L, ..., n - 1` of `S`. -/
structure Generates (S : F[X]) (n : ℕ) (C : F[X]) (L : ℕ) : Prop where
  constant : C.coeff 0 = 1
  degree : C.natDegree ≤ L
  predicts : ∀ k, L ≤ k → k < n → (C * S).coeff k = 0

theorem Generates.mono {S C : F[X]} {n m L : ℕ} (h : Generates S n C L) (hm : m ≤ n) :
    Generates S m C L :=
  ⟨h.constant, h.degree, fun k hk hkm => h.predicts k hk (hkm.trans_le hm)⟩

theorem Generates.succ {S C : F[X]} {n L : ℕ} (h : Generates S n C L)
    (hd : (C * S).coeff n = 0) : Generates S (n + 1) C L := by
  refine ⟨h.constant, h.degree, fun k hk hkn => ?_⟩
  rcases Nat.lt_succ_iff_lt_or_eq.mp hkn with hlt | rfl
  · exact h.predicts k hk hlt
  · exact hd

theorem Generates.exists_remainder {S C : F[X]} {n L : ℕ} (h : Generates S n C L) :
    ∃ R : F[X], (∀ k, L ≤ k → R.coeff k = 0) ∧ ∀ k < n, R.coeff k = (C * S).coeff k := by
  let R : F[X] := ∑ j ∈ Finset.range L, Polynomial.C ((C * S).coeff j) * X ^ j
  have hcoeff : ∀ k, R.coeff k = if k < L then (C * S).coeff k else 0 := by
    intro k
    simp [R, finsetSum_coeff, coeff_X_pow]
  refine ⟨R, fun k hk => ?_, fun k hk => ?_⟩
  · rw [hcoeff, if_neg (by omega)]
  · rw [hcoeff]
    split_ifs with hkL
    · rfl
    · exact (h.predicts k (by omega) hk).symm

/-- The coefficient of a product with a recurrence of length at most `n`, as a sum over
the recurrence. -/
theorem coeff_mul_range {C S : F[X]} {L n : ℕ} (hC : C.natDegree ≤ L) (hn : L ≤ n) :
    (C * S).coeff n = ∑ i ∈ Finset.range (L + 1), C.coeff i * S.coeff (n - i) := by
  rw [coeff_mul, Finset.Nat.sum_antidiagonal_eq_sum_range_succ
    (f := fun i j => C.coeff i * S.coeff j)]
  symm
  apply Finset.sum_subset
  · intro i hi
    simp only [Finset.mem_range] at hi ⊢
    omega
  · intro i _ hi
    simp only [Finset.mem_range, not_lt] at hi
    rw [coeff_eq_zero_of_natDegree_lt (by omega), zero_mul]

/-- A recurrence that fails at term `n` forces every recurrence that covers term `n` to be
at least `n + 1 - L` long: both readings of the `n`-th coefficient of `C * C' * S` would
otherwise disagree. -/
theorem length_bound {S C C' : F[X]} {n L L' : ℕ} (h : Generates S n C L)
    (hd : (C * S).coeff n ≠ 0) (h' : Generates S (n + 1) C' L') : n + 1 ≤ L + L' := by
  by_contra hlt
  have hsum : L + L' ≤ n := by omega
  have hzero : (C * (C' * S)).coeff n = 0 := by
    rw [coeff_mul_range h.degree (by omega)]
    apply Finset.sum_eq_zero
    intro i hi
    have hi' := Finset.mem_range.mp hi
    rw [h'.predicts (n - i) (by omega) (by omega), mul_zero]
  have hdisc : (C' * (C * S)).coeff n = (C * S).coeff n := by
    rw [coeff_mul_range h'.degree (by omega), Finset.sum_range_succ']
    rw [Finset.sum_eq_zero, zero_add, h'.constant, one_mul, Nat.sub_zero]
    intro i hi
    have hi' := Finset.mem_range.mp hi
    rw [h.predicts (n - (i + 1)) (by omega) (by omega), mul_zero]
  apply hd
  rw [← hdisc, ← hzero]
  congr 1
  ring

/-- The invariant of the synthesis loop before term `n` is examined. `B` is the recurrence
of length `LB` that was replaced at the last change of length, `b` its discrepancy there
and `m` the number of terms since. -/
structure Shortest (S : F[X]) (n : ℕ) (C B : F[X]) (L m : ℕ) (b : F) : Prop where
  generates : Generates S n C L
  minimal : ∀ C' L', Generates S n C' L' → L ≤ L'
  b_ne : b ≠ 0
  m_pos : 1 ≤ m
  previous : ∃ LB, L + LB + m = n + 1 ∧ B.natDegree ≤ LB ∧
    (∀ k, LB ≤ k → k + m < n → (B * S).coeff k = 0) ∧
    (m ≤ n → (B * S).coeff (n - m) = b)

theorem Shortest.length_le {S C B : F[X]} {n L m : ℕ} {b : F} (h : Shortest S n C B L m b) :
    L ≤ n := by
  obtain ⟨LB, hLB, _⟩ := h.previous
  have := h.m_pos
  omega

theorem Shortest.shift_le {S C B : F[X]} {n L m : ℕ} {b : F} (h : Shortest S n C B L m b) :
    B.natDegree + m ≤ n + 1 := by
  obtain ⟨LB, hLB, hB, _⟩ := h.previous
  omega

theorem Shortest.initial (S : F[X]) : Shortest S 0 1 1 0 1 (1 : F) := by
  refine ⟨⟨by simp, by simp, by simp⟩, by simp, one_ne_zero, le_rfl, 0, by simp, by simp, ?_, ?_⟩
  · intro k _ hk; omega
  · intro h; omega

theorem Shortest.skip {S C B : F[X]} {n L m : ℕ} {b : F} (h : Shortest S n C B L m b)
    (hd : (C * S).coeff n = 0) : Shortest S (n + 1) C B L (m + 1) b := by
  obtain ⟨LB, hLB, hB, hpre, hdisc⟩ := h.previous
  refine ⟨h.generates.succ hd, fun C' L' h' => h.minimal C' L' (h'.mono (by omega)), h.b_ne,
    by omega, LB, by omega, hB, fun k hk hkn => hpre k hk (by omega), fun hm => ?_⟩
  rw [Nat.add_sub_add_right]
  exact hdisc (by omega)

/-- The corrected connection polynomial covers one more term. -/
theorem Shortest.corrected {S B C : F[X]} {n L m : ℕ} {b : F} (h : Shortest S n C B L m b)
    {L' : ℕ} (hL : L ≤ L') (hn : n + 1 ≤ L + L') :
    Generates S (n + 1) (C - Polynomial.C ((C * S).coeff n * b⁻¹) * (X ^ m * B)) L' := by
  obtain ⟨LB, hLB, hB, hpre, hdisc⟩ := h.previous
  have hm := h.m_pos
  refine ⟨?_, ?_, ?_⟩
  · have hX : (X ^ m * B).coeff 0 = 0 := by
      rw [coeff_X_pow_mul', if_neg (by omega)]
    rw [coeff_sub, coeff_C_mul, hX, mul_zero, sub_zero, h.generates.constant]
  · apply (natDegree_sub_le _ _).trans
    apply max_le (h.generates.degree.trans hL)
    apply (natDegree_C_mul_le _ _).trans
    apply natDegree_mul_le.trans
    rw [natDegree_X_pow]
    omega
  · intro k hk hkn
    have hsplit : ((C - Polynomial.C ((C * S).coeff n * b⁻¹) * (X ^ m * B)) * S).coeff k =
        (C * S).coeff k - (C * S).coeff n * b⁻¹ * (B * S).coeff (k - m) := by
      rw [sub_mul, coeff_sub, mul_assoc (Polynomial.C _), coeff_C_mul, mul_assoc (X ^ m),
        coeff_X_pow_mul', if_pos (by omega)]
    rw [hsplit]
    rcases Nat.lt_succ_iff_lt_or_eq.mp hkn with hlt | rfl
    · rw [h.generates.predicts k (by omega) hlt, hpre (k - m) (by omega) (by omega),
        mul_zero, sub_zero]
    · rw [hdisc (by omega), mul_assoc, inv_mul_cancel₀ h.b_ne, mul_one, sub_self]

theorem Shortest.keep {S C B : F[X]} {n L m : ℕ} {b : F} (h : Shortest S n C B L m b)
    (hn : n < 2 * L) :
    Shortest S (n + 1) (C - Polynomial.C ((C * S).coeff n * b⁻¹) * (X ^ m * B)) B L (m + 1) b := by
  obtain ⟨LB, hLB, hB, hpre, hdisc⟩ := h.previous
  refine ⟨h.corrected le_rfl (by omega), fun C' L' h' => h.minimal C' L' (h'.mono (by omega)),
    h.b_ne, by omega, LB, by omega, hB, fun k hk hkn => hpre k hk (by omega), fun hm => ?_⟩
  rw [Nat.add_sub_add_right]
  exact hdisc (by omega)

theorem Shortest.grow {S C B : F[X]} {n L m : ℕ} {b : F} (h : Shortest S n C B L m b)
    (hd : (C * S).coeff n ≠ 0) (hn : 2 * L ≤ n) :
    Shortest S (n + 1) (C - Polynomial.C ((C * S).coeff n * b⁻¹) * (X ^ m * B)) C
      (n + 1 - L) 1 ((C * S).coeff n) := by
  refine ⟨h.corrected (by omega) (by omega), fun C' L' h' => ?_, hd, le_rfl,
    L, by omega, h.generates.degree, fun k hk hkn => ?_, fun _ => by simp⟩
  · have := length_bound h.generates hd h'
    omega
  · exact h.generates.predicts k hk (by omega)

end LinearRecurrence
