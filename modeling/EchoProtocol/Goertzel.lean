import Mathlib

/-!
# Measuring a tone

A recurrence with two memory cells measures how much of one frequency a signal contains. Its
power is the squared length of a sum of rotated samples, and for a tone that sum is a geometric
one.
-/
namespace Goertzel
open Complex

/-- The last two values of the recurrence. -/
structure Filter where
  q1 : ℝ
  q2 : ℝ

def silent : Filter := ⟨0, 0⟩

def step (coeff : ℝ) (s : Filter) (x : ℝ) : Filter := ⟨x + coeff * s.q1 - s.q2, s.q1⟩

def power (coeff : ℝ) (s : Filter) : ℝ := s.q1 * s.q1 + s.q2 * s.q2 - s.q1 * s.q2 * coeff

noncomputable section

/-- The unit vector at an angle. -/
def turn (α : ℝ) : ℂ := exp (I * α)

def response (ω : ℝ) (s : Filter) : ℂ := s.q1 - turn (-ω) * s.q2

/-- The sum of the samples, sample `k` turned back by `k` steps. -/
def spectrum (ω : ℝ) : List ℝ → ℂ
  | [] => 0
  | x :: xs => x + turn (-ω) * spectrum ω xs

/-- `n` samples of a sine from the phase `φ` on. -/
def tone (φ θ : ℝ) : ℕ → List ℝ
  | 0 => []
  | n + 1 => Real.sin φ :: tone (φ + θ) θ n

/-- The sum of the distances of two signals, sample by sample. -/
def distance : List ℝ → List ℝ → ℝ
  | x :: xs, y :: ys => |x - y| + distance xs ys
  | _, _ => 0

@[simp] theorem tone_length (φ θ : ℝ) (n : ℕ) : (tone φ θ n).length = n := by
  induction n generalizing φ with
  | zero => rfl
  | succ n ih => rw [tone, List.length_cons, ih]

theorem turn_add (α β : ℝ) : turn (α + β) = turn α * turn β := by
  rw [turn, turn, turn, ← exp_add]
  push_cast
  ring_nf

@[simp] theorem turn_zero : turn 0 = 1 := by simp [turn]

theorem turn_mul_neg (α : ℝ) : turn α * turn (-α) = 1 := by
  rw [← turn_add, add_neg_cancel, turn_zero]

@[simp] theorem norm_turn (α : ℝ) : ‖turn α‖ = 1 := by
  rw [turn, mul_comm, norm_exp_ofReal_mul_I]

theorem turn_eq (α : ℝ) : turn α = Real.cos α + Real.sin α * I := by
  rw [turn, mul_comm, exp_mul_I, ofReal_cos, ofReal_sin]

theorem turn_add_neg (α : ℝ) : turn α + turn (-α) = (2 * Real.cos α : ℝ) := by
  rw [turn_eq, turn_eq, Real.cos_neg, Real.sin_neg]
  push_cast
  ring

theorem turn_sub_neg (α : ℝ) : turn α - turn (-α) = 2 * I * (Real.sin α : ℝ) := by
  rw [turn_eq, turn_eq, Real.cos_neg, Real.sin_neg]
  push_cast
  ring

theorem power_eq (ω : ℝ) (s : Filter) : power (2 * Real.cos ω) s = ‖response ω s‖ ^ 2 := by
  have hre : (response ω s).re = s.q1 - Real.cos ω * s.q2 := by
    simp [response, turn_eq, cos_ofReal_re]
  have him : (response ω s).im = Real.sin ω * s.q2 := by
    simp [response, turn_eq, sin_ofReal_re]
  have hunit := Real.sin_sq_add_cos_sq ω
  rw [← normSq_eq_norm_sq, normSq_apply, hre, him, power]
  linear_combination -(s.q2 ^ 2) * hunit

theorem response_step (ω : ℝ) (s : Filter) (x : ℝ) :
    response ω (step (2 * Real.cos ω) s x) = x + turn ω * response ω s := by
  have hsum := turn_add_neg ω
  have hunit := turn_mul_neg ω
  simp only [response, step]
  push_cast at hsum ⊢
  linear_combination -(s.q1 : ℂ) * hsum + (s.q2 : ℂ) * hunit

theorem response_foldl (ω : ℝ) (s : Filter) (xs : List ℝ) :
    response ω (xs.foldl (step (2 * Real.cos ω)) s) =
      turn ω ^ xs.length * (response ω s + turn (-ω) * spectrum ω xs) := by
  induction xs generalizing s with
  | nil => simp [spectrum]
  | cons x xs ih =>
    have hunit := turn_mul_neg ω
    rw [List.foldl_cons, ih, response_step, spectrum, List.length_cons, pow_succ]
    linear_combination -(turn ω ^ xs.length * (x + turn (-ω) * spectrum ω xs)) * hunit

theorem power_foldl (ω : ℝ) (xs : List ℝ) :
    power (2 * Real.cos ω) (xs.foldl (step (2 * Real.cos ω)) silent) = ‖spectrum ω xs‖ ^ 2 := by
  have hsilent : response ω silent = 0 := by simp [response, silent]
  rw [power_eq, response_foldl, hsilent, zero_add, norm_mul, norm_pow, norm_mul, norm_turn,
    norm_turn, one_pow, one_mul, one_mul]

/-- The spectral sum moves at most as far as the signal. -/
theorem norm_spectrum_sub_le (ω : ℝ) {xs ys : List ℝ} (hlen : xs.length = ys.length) :
    ‖spectrum ω xs - spectrum ω ys‖ ≤ distance xs ys := by
  induction xs generalizing ys with
  | nil =>
    obtain rfl : ys = [] := List.length_eq_zero_iff.mp hlen.symm
    simp [spectrum, distance]
  | cons x xs ih =>
    cases ys with
    | nil => exact absurd hlen (by simp)
    | cons y ys =>
      have hrest := ih (Nat.succ.inj hlen)
      have hsplit : spectrum ω (x :: xs) - spectrum ω (y :: ys) =
          ((x - y : ℝ) : ℂ) + turn (-ω) * (spectrum ω xs - spectrum ω ys) := by
        simp only [spectrum]
        push_cast
        ring
      calc ‖spectrum ω (x :: xs) - spectrum ω (y :: ys)‖
          ≤ ‖((x - y : ℝ) : ℂ)‖ + ‖turn (-ω) * (spectrum ω xs - spectrum ω ys)‖ := by
            rw [hsplit]
            exact norm_add_le _ _
        _ = |x - y| + ‖spectrum ω xs - spectrum ω ys‖ := by
            rw [norm_mul, norm_turn, one_mul, norm_real, Real.norm_eq_abs]
        _ ≤ distance (x :: xs) (y :: ys) := add_le_add_right hrest _

theorem spectrum_map_mul (ω a : ℝ) (xs : List ℝ) :
    spectrum ω (xs.map (a * ·)) = a * spectrum ω xs := by
  induction xs with
  | nil => simp [spectrum]
  | cons x xs ih =>
    rw [List.map_cons, spectrum, spectrum, ih]
    push_cast
    ring

/-- The sum of a rotation's powers. -/
def windings (α : ℝ) (n : ℕ) : ℂ := ∑ k ∈ Finset.range n, turn α ^ k

theorem windings_succ (α : ℝ) (n : ℕ) : windings α (n + 1) = turn α * windings α n + 1 :=
  geom_sum_succ

@[simp] theorem windings_zero_angle (n : ℕ) : windings 0 n = n := by
  simp [windings]

theorem norm_windings_le {α s : ℝ} (n : ℕ) (hs : 0 < s) (hα : s ≤ |Real.sin (α / 2)|) :
    ‖windings α n‖ ≤ 1 / s := by
  have hchord : ‖turn α - 1‖ = 2 * |Real.sin (α / 2)| := by
    rw [turn, norm_exp_I_mul_ofReal_sub_one, Real.norm_eq_abs, abs_mul, abs_two]
  have hprod : ‖windings α n‖ * ‖turn α - 1‖ = ‖turn α ^ n - 1‖ := by
    rw [← norm_mul, windings, geom_sum_mul]
  have hends : ‖turn α ^ n - 1‖ ≤ 2 := by
    calc ‖turn α ^ n - 1‖ ≤ ‖turn α ^ n‖ + ‖(1 : ℂ)‖ := norm_sub_le _ _
      _ = 2 := by rw [norm_pow, norm_turn, one_pow, norm_one]; norm_num
  rw [hchord] at hprod
  rw [le_div_iff₀ hs]
  have hnonneg := norm_nonneg (windings α n)
  nlinarith

/-- A tone is two rotations, forwards and backwards. -/
theorem spectrum_tone (ω φ θ : ℝ) (n : ℕ) : 2 * I * spectrum ω (tone φ θ n) =
    turn φ * windings (θ - ω) n - turn (-φ) * windings (-(θ + ω)) n := by
  induction n generalizing φ with
  | zero => simp [tone, spectrum, windings]
  | succ n ih =>
    have hsin := turn_sub_neg φ
    have hforth : turn (-ω) * turn (φ + θ) = turn φ * turn (θ - ω) := by
      rw [← turn_add, ← turn_add]
      ring_nf
    have hback : turn (-ω) * turn (-(φ + θ)) = turn (-φ) * turn (-(θ + ω)) := by
      rw [← turn_add, ← turn_add]
      ring_nf
    rw [tone, spectrum, windings_succ, windings_succ]
    linear_combination turn (-ω) * ih (φ + θ) + windings (θ - ω) n * hforth -
      windings (-(θ + ω)) n * hback - hsin

/-- At its own frequency a tone fills its window up to a constant. -/
theorem tone_own_le {ω s : ℝ} (φ : ℝ) (n : ℕ) (hs : 0 < s) (hω : s ≤ |Real.sin ω|) :
    n - 1 / s ≤ 2 * ‖spectrum ω (tone φ ω n)‖ := by
  have hback : ‖windings (-(ω + ω)) n‖ ≤ 1 / s := by
    refine norm_windings_le n hs ?_
    rwa [show -(ω + ω) / 2 = -ω by ring, Real.sin_neg, abs_neg]
  have hsum := spectrum_tone ω φ ω n
  rw [sub_self, windings_zero_angle] at hsum
  have hnorm : ‖2 * I * spectrum ω (tone φ ω n)‖ = 2 * ‖spectrum ω (tone φ ω n)‖ := by simp
  have hforth : ‖turn φ * (n : ℂ)‖ = n := by
    rw [norm_mul, norm_turn, one_mul, norm_natCast]
  have hturned : ‖turn (-φ) * windings (-(ω + ω)) n‖ = ‖windings (-(ω + ω)) n‖ := by
    rw [norm_mul, norm_turn, one_mul]
  have htri := norm_sub_norm_le (turn φ * (n : ℂ)) (turn (-φ) * windings (-(ω + ω)) n)
  rw [← hsum, hnorm, hforth, hturned] at htri
  linarith

/-- At another frequency a tone leaves a constant, however long it lasts. -/
theorem tone_other_le {ω θ s s' : ℝ} (φ : ℝ) (n : ℕ) (hs : 0 < s)
    (hdiff : s ≤ |Real.sin ((θ - ω) / 2)|) (hs' : 0 < s') (hsum : s' ≤ |Real.sin ((θ + ω) / 2)|) :
    2 * ‖spectrum ω (tone φ θ n)‖ ≤ 1 / s + 1 / s' := by
  have hforth : ‖windings (θ - ω) n‖ ≤ 1 / s := norm_windings_le n hs hdiff
  have hback : ‖windings (-(θ + ω)) n‖ ≤ 1 / s' := by
    refine norm_windings_le n hs' ?_
    rwa [neg_div, Real.sin_neg, abs_neg]
  have hnorm : ‖2 * I * spectrum ω (tone φ θ n)‖ = 2 * ‖spectrum ω (tone φ θ n)‖ := by simp
  calc 2 * ‖spectrum ω (tone φ θ n)‖
      = ‖turn φ * windings (θ - ω) n - turn (-φ) * windings (-(θ + ω)) n‖ := by
        rw [← hnorm, spectrum_tone]
    _ ≤ ‖turn φ * windings (θ - ω) n‖ + ‖turn (-φ) * windings (-(θ + ω)) n‖ := norm_sub_le _ _
    _ = ‖windings (θ - ω) n‖ + ‖windings (-(θ + ω)) n‖ := by
        rw [norm_mul, norm_mul, norm_turn, norm_turn, one_mul, one_mul]
    _ ≤ 1 / s + 1 / s' := add_le_add hforth hback

end

end Goertzel
