import Mathlib

/-!
# Cyclic redundancy checks

Bits are the coefficients of a polynomial, the first one being the highest. A check symbol is the
remainder of a message modulo a generator, and an error is noticed unless the generator divides it.
-/
namespace CyclicCode
open Polynomial

section Divides
variable {g e : (ZMod 2)[X]}

theorem isCoprime_X_pow (h0 : g.coeff 0 ≠ 0) (k : ℕ) : IsCoprime g (X ^ k) := by
  have hX : IsCoprime (X : (ZMod 2)[X]) g :=
    prime_X.irreducible.coprime_iff_not_dvd.mpr fun hdvd => h0 (X_dvd_iff.mp hdvd)
  exact hX.symm.pow_right

theorem dvd_X_pow_mul (h0 : g.coeff 0 ≠ 0) (k : ℕ) : g ∣ X ^ k * e ↔ g ∣ e :=
  ⟨(isCoprime_X_pow h0 k).dvd_of_dvd_mul_left, fun h => h.mul_left _⟩

theorem not_dvd_burst (h0 : g.coeff 0 ≠ 0) {b : (ZMod 2)[X]} (hb : b ≠ 0) (hdeg : b.degree < g.degree)
    (k : ℕ) : ¬ g ∣ X ^ k * b := by
  rw [dvd_X_pow_mul h0]
  exact fun hdvd => hb (eq_zero_of_dvd_of_degree_lt hdvd hdeg)

theorem eq_one_of_ne_zero {c : ZMod 2} (h : c ≠ 0) : c = 1 := by
  revert c
  decide

theorem eval_one_eq_card (e : (ZMod 2)[X]) : e.eval 1 = (e.support.card : ZMod 2) := by
  rw [eval_eq_sum, sum_def, Finset.card_eq_sum_ones, Nat.cast_sum]
  refine Finset.sum_congr rfl fun i hi => ?_
  rw [eq_one_of_ne_zero (mem_support_iff.mp hi), one_pow, one_mul, Nat.cast_one]

theorem even_card_of_dvd (h1 : g.eval 1 = 0) (hdvd : g ∣ e) : Even e.support.card := by
  obtain ⟨q, rfl⟩ := hdvd
  have hzero : (g * q).eval 1 = 0 := by rw [eval_mul, h1, zero_mul]
  rw [eval_one_eq_card, ZMod.natCast_eq_zero_iff] at hzero
  exact even_iff_two_dvd.mpr hzero

theorem not_dvd_two (h0 : g.coeff 0 ≠ 0) {n : ℕ} (hperiod : ∀ d, 0 < d → d < n → ¬ g ∣ X ^ d + 1)
    (hdeg : e.degree < n) (htwo : e.support.card = 2) : ¬ g ∣ e := by
  obtain ⟨k, m, hkm, x, y, hx, hy, rfl⟩ := card_support_eq_two.mp htwo
  obtain rfl := eq_one_of_ne_zero hx
  obtain rfl := eq_one_of_ne_zero hy
  have hm : m < n := by
    have hcoeff : (C 1 * X ^ k + C 1 * X ^ m : (ZMod 2)[X]).coeff m ≠ 0 := by
      simp [coeff_X_pow, hkm.ne']
    exact_mod_cast (le_degree_of_ne_zero hcoeff).trans_lt hdeg
  have hfactor : (C 1 * X ^ k + C 1 * X ^ m : (ZMod 2)[X]) = X ^ k * (X ^ (m - k) + 1) := by
    rw [C_1, one_mul, one_mul, mul_add, ← pow_add, Nat.add_sub_cancel' hkm.le, mul_one, add_comm]
  rw [hfactor, dvd_X_pow_mul h0]
  exact hperiod (m - k) (Nat.sub_pos_of_lt hkm) (by omega)

theorem not_dvd_of_card_le_three (h0 : g.coeff 0 ≠ 0) (h1 : g.eval 1 = 0) {n : ℕ}
    (hperiod : ∀ d, 0 < d → d < n → ¬ g ∣ X ^ d + 1) (hdeg : e.degree < n) (hne : e ≠ 0)
    (hcard : e.support.card ≤ 3) : ¬ g ∣ e := by
  intro hdvd
  have hpos : 0 < e.support.card := Finset.card_pos.mpr (nonempty_support_iff.mpr hne)
  obtain ⟨m, hm⟩ := even_card_of_dvd h1 hdvd
  exact not_dvd_two h0 hperiod hdeg (by omega) hdvd

end Divides

/-- A register that multiplies its contents and the symbol that comes in by a power of `X`, and
reduces the product modulo the generator. -/
structure Register (g : (ZMod 2)[X]) (σ α : Type*) where
  width : ℕ
  val : σ → (ZMod 2)[X]
  sym : α → (ZMod 2)[X]
  absorb : σ → α → σ
  absorb_val : ∀ s a,
    AdjoinRoot.mk g (val (absorb s a)) = AdjoinRoot.mk g (X ^ width * (val s + sym a))
  val_inj : ∀ s t, AdjoinRoot.mk g (val s) = AdjoinRoot.mk g (val t) → s = t

section Register
variable {g : (ZMod 2)[X]} {σ α : Type*} (r : Register g σ α)

/-- The polynomial of a message. -/
noncomputable def Register.message (as : List α) : (ZMod 2)[X] :=
  as.foldl (fun m a => X ^ r.width * m + r.sym a) 0

theorem Register.message_concat (as : List α) (a : α) :
    r.message (as ++ [a]) = X ^ r.width * r.message as + r.sym a := List.foldl_concat _ _ _ _

theorem Register.foldl_val (s : σ) (as : List α) : AdjoinRoot.mk g (r.val (as.foldl r.absorb s)) =
    AdjoinRoot.mk g (X ^ (r.width * as.length) * r.val s + X ^ r.width * r.message as) := by
  induction as using List.reverseRecOn with
  | nil => simp [Register.message]
  | append_singleton as a ih =>
    rw [List.foldl_concat, r.absorb_val, r.message_concat, map_mul, map_add, ih, ← map_add, ← map_mul]
    congr 1
    rw [List.length_append, List.length_singleton, Nat.mul_add, Nat.mul_one, pow_add]
    ring

/-- A message of the same length and another check symbol pass for each other exactly when the
generator divides the error. -/
theorem Register.foldl_eq_iff (s t : σ) {as bs : List α} (hlen : as.length = bs.length) :
    bs.foldl r.absorb s = t ↔ g ∣ X ^ r.width * (r.message as + r.message bs) +
      (r.val (as.foldl r.absorb s) + r.val t) := by
  have hval : bs.foldl r.absorb s = t ↔
      AdjoinRoot.mk g (r.val (bs.foldl r.absorb s)) = AdjoinRoot.mk g (r.val t) :=
    ⟨fun h => by rw [h], r.val_inj _ _⟩
  -- the message that both share drops out
  have herror : AdjoinRoot.mk g (X ^ r.width * (r.message as + r.message bs) +
      (r.val (as.foldl r.absorb s) + r.val t)) =
        AdjoinRoot.mk g (r.val (bs.foldl r.absorb s) + r.val t) := by
    rw [← add_assoc, map_add, map_add, map_add _ (r.val (bs.foldl r.absorb s)), r.foldl_val s as,
      r.foldl_val s bs, ← hlen, ← map_add (AdjoinRoot.mk g) (X ^ r.width * _)]
    congr 2
    linear_combination CharTwo.add_self_eq_zero (X ^ r.width * r.message as)
  rw [hval, ← AdjoinRoot.mk_eq_zero, herror, AdjoinRoot.mk_eq_zero, ← CharTwo.sub_eq_add,
    AdjoinRoot.mk_eq_mk]

end Register

/-- Bits as coefficients, the first one being the highest. -/
noncomputable def poly : List Bool → (ZMod 2)[X]
  | [] => 0
  | bit :: bits => (if bit then X ^ bits.length else 0) + poly bits

theorem poly_append (xs ys : List Bool) : poly (xs ++ ys) = X ^ ys.length * poly xs + poly ys := by
  induction xs with
  | nil => simp [poly]
  | cons x xs ih =>
    rw [List.cons_append, poly, poly, ih, List.length_append, mul_add, mul_ite, mul_zero, ← pow_add,
      Nat.add_comm ys.length, add_assoc]

theorem degree_poly_lt (bits : List Bool) : (poly bits).degree < bits.length := by
  induction bits with
  | nil => simp [poly]
  | cons bit bits ih =>
    have hlt : ((bits.length : ℕ) : WithBot ℕ) < (bit :: bits).length := by
      rw [List.length_cons]
      exact_mod_cast Nat.lt_succ_self bits.length
    refine (degree_add_le _ _).trans_lt (max_lt ?_ (ih.trans hlt))
    cases bit with
    | false => simp
    | true => simpa using hlt

/-- Bits that are added one by one. -/
theorem poly_xor {xs ys : List Bool} (hlen : xs.length = ys.length) :
    poly (List.zipWith xor xs ys) = poly xs + poly ys := by
  induction xs generalizing ys with
  | nil =>
    obtain rfl : ys = [] := List.length_eq_zero_iff.mp hlen.symm
    simp [poly]
  | cons x xs ih =>
    cases ys with
    | nil => exact absurd hlen (by simp)
    | cons y ys =>
      have hrest : xs.length = ys.length := by simpa using hlen
      have hbit : (if xor x y then X ^ ys.length else 0 : (ZMod 2)[X]) =
          (if x then X ^ ys.length else 0) + if y then X ^ ys.length else 0 := by
        cases x <;> cases y <;> simp [CharTwo.add_self_eq_zero]
      rw [List.zipWith_cons_cons, poly, poly, poly, ih hrest, List.length_zipWith, hrest, min_self,
        hbit]
      ring

/-- Every bit that is set is a term. -/
theorem card_support_poly (bits : List Bool) : (poly bits).support.card = bits.count true := by
  induction bits with
  | nil => simp [poly]
  | cons bit bits ih =>
    cases bit with
    | false => simpa [poly] using ih
    | true =>
      have hnew : (poly bits).coeff bits.length = 0 := coeff_eq_zero_of_degree_lt (degree_poly_lt bits)
      have hsupport : (poly (true :: bits)).support = insert bits.length (poly bits).support := by
        ext k
        rw [mem_support_iff, Finset.mem_insert, mem_support_iff, poly, if_pos rfl, coeff_add,
          coeff_X_pow]
        by_cases hk : k = bits.length
        · simp [hk, hnew]
        · simp [hk]
      rw [hsupport, Finset.card_insert_of_notMem (notMem_support_iff.mpr hnew), ih,
        List.count_cons_self]

theorem poly_eq_zero_iff (bits : List Bool) : poly bits = 0 ↔ bits.count true = 0 := by
  rw [← card_support_poly, Finset.card_eq_zero, support_eq_empty]

/-- Bits that are set within a window only are a short polynomial, moved. -/
theorem poly_window {bits : List Bool} {a w : ℕ} (h : ∀ k, bits[k]? = some true → a ≤ k ∧ k < a + w) :
    ∃ j mid, poly bits = X ^ j * poly mid ∧ mid.length ≤ w := by
  have hbefore : poly (bits.take a) = 0 := by
    rw [poly_eq_zero_iff, List.count_eq_zero]
    intro hmem
    obtain ⟨k, hk⟩ := List.mem_iff_getElem?.mp hmem
    rw [List.getElem?_take] at hk
    split_ifs at hk with hlt
    have hat := h k hk
    omega
  have hbehind : poly (bits.drop (a + w)) = 0 := by
    rw [poly_eq_zero_iff, List.count_eq_zero]
    intro hmem
    obtain ⟨k, hk⟩ := List.mem_iff_getElem?.mp hmem
    rw [List.getElem?_drop] at hk
    have hat := h _ hk
    omega
  refine ⟨(bits.drop (a + w)).length, (bits.drop a).take w, ?_, List.length_take_le _ _⟩
  have hsplit : bits = bits.take a ++ ((bits.drop a).take w ++ bits.drop (a + w)) := by
    rw [← List.drop_drop, List.take_append_drop, List.take_append_drop]
  rw [hsplit, poly_append, poly_append, hbefore, mul_zero, zero_add]
  rw [← hsplit, hbehind, add_zero]

end CyclicCode
