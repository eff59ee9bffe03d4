import EchoProtocol.ReedSolomonDecoding

/-!
# The recurrence of a syndrome sequence

A locator of degree `L` states how each syndrome follows from the `L` before it. The search
for the locator returns such a recurrence, no recurrence is shorter, and as long as it is at
most half as long as the sequence there is no other of its length.
-/
namespace EchoProtocol.ReedSolomon
open Bytes ByteField Polynomial LinearRecurrence

/-- The recurrence of length `L` with coefficients `loc` holds for the first `ecc` syndromes. -/
structure Recurrence (synd : List UInt8) (ecc : ℕ) (loc : List UInt8) (L : ℕ) : Prop where
  constant : byteAt loc 0 = 1
  degree : ∀ i, L < i → byteAt loc i = 0
  predicts : ∀ n, L ≤ n → n < ecc →
    ∑ i ∈ Finset.range (L + 1), gf (byteAt loc i) * gf (byteAt synd (n - i)) = 0

section Polynomials

variable {synd loc : List UInt8} {ecc L : ℕ}

theorem toPoly_natDegree_le_iff : (toPoly loc).natDegree ≤ L ↔ ∀ i, L < i → byteAt loc i = 0 := by
  rw [natDegree_le_iff_coeff_eq_zero]
  refine forall_congr' fun i => imp_congr_right fun _ => ?_
  rw [coeff_toPoly, gf_eq_zero]

theorem toPoly_constant_iff : (toPoly loc).coeff 0 = 1 ↔ byteAt loc 0 = 1 := by
  rw [coeff_toPoly, ← gf_one]
  exact gf_injective.eq_iff

theorem recurrence_iff_generates :
    Recurrence synd ecc loc L ↔ Generates (toPoly synd) ecc (toPoly loc) L := by
  constructor
  · intro h
    have hdeg := toPoly_natDegree_le_iff.mpr h.degree
    refine ⟨toPoly_constant_iff.mpr h.constant, hdeg, fun n hL hn => ?_⟩
    rw [coeff_toPoly_mul hdeg hL]
    exact h.predicts n hL hn
  · intro h
    refine ⟨toPoly_constant_iff.mp h.constant, toPoly_natDegree_le_iff.mp h.degree,
      fun n hL hn => ?_⟩
    rw [← coeff_toPoly_mul h.degree hL]
    exact h.predicts n hL hn

end Polynomials

section Search

variable (synd : List UInt8) {ecc : ℕ} (hecc : ecc ≤ 255)

include hecc

theorem rsFindErrorLocator_recurrence :
    Recurrence synd ecc (rsFindErrorLocator synd ecc).1 (rsFindErrorLocator synd ecc).2 :=
  recurrence_iff_generates.mpr (synthesis_invariant synd hecc).generates

theorem rsFindErrorLocator_le {loc : List UInt8} {L : ℕ} (h : Recurrence synd ecc loc L) :
    (rsFindErrorLocator synd ecc).2 ≤ L :=
  (synthesis_invariant synd hecc).minimal _ _ (recurrence_iff_generates.mp h)

/-- The search returns a recurrence of the syndromes, and none is shorter. -/
theorem rsFindErrorLocator_shortest :
    Recurrence synd ecc (rsFindErrorLocator synd ecc).1 (rsFindErrorLocator synd ecc).2 ∧
      ∀ loc L, L < (rsFindErrorLocator synd ecc).2 → ¬ Recurrence synd ecc loc L := by
  refine ⟨rsFindErrorLocator_recurrence synd hecc, fun loc L hL h => ?_⟩
  have := rsFindErrorLocator_le synd hecc h
  omega

end Search

theorem rsFindErrorLocator_shortest_four :
    Recurrence [1, 2, 4, 8] 4 (rsFindErrorLocator [1, 2, 4, 8] 4).1
        (rsFindErrorLocator [1, 2, 4, 8] 4).2 ∧
      ∀ loc L, L < (rsFindErrorLocator [1, 2, 4, 8] 4).2 → ¬ Recurrence [1, 2, 4, 8] 4 loc L :=
  rsFindErrorLocator_shortest _ (by decide)

end EchoProtocol.ReedSolomon
