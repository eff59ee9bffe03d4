import EchoProtocol.Modem

/-!
# Symbols from tones

Four filters listen to the same samples, and the strongest one names the symbol. Over the real
numbers it is the symbol that was sent, at any phase and any gain, as long as the error within a
window stays below the gain.
-/
namespace EchoProtocol.Demodulation
open Goertzel Modem

theorem foldl_strongest {mag : Fin 4 → ℝ} {i : Fin 4} (h : ∀ j, j ≠ i → mag j < mag i)
    {l : List (Fin 4)} {start : Fin 4} (hi : i = start ∨ i ∈ l) :
    l.foldl (fun maxIdx j => if realArithmetic.gt (mag j) (mag maxIdx) then j else maxIdx) start =
      i := by
  induction l generalizing start with
  | nil => exact (hi.resolve_right List.not_mem_nil).symm
  | cons j l ih =>
    refine ih ?_
    simp only [realArithmetic, decide_eq_true_eq]
    rw [List.mem_cons] at hi
    split_ifs with hgreater
    · rcases hi with rfl | rfl | hmem
      · -- nothing is larger than the power of `i`
        by_cases hj : j = i
        · exact .inl hj.symm
        · exact absurd hgreater (h j hj).not_gt
      · exact .inl rfl
      · exact .inr hmem
    · rcases hi with rfl | rfl | hmem
      · exact .inl rfl
      · by_cases hstart : start = i
        · exact .inl hstart.symm
        · exact absurd (h start hstart) hgreater
      · exact .inr hmem

theorem strongest_real {mag : Fin 4 → ℝ} {i : Fin 4} (h : ∀ j, j ≠ i → mag j < mag i) :
    strongest realArithmetic mag = i :=
  foldl_strongest h (by fin_cases i <;> decide)

def cells (s : StateGoertzel ℝ) : Filter := ⟨s.q1, s.q2⟩

theorem preCalcGoertzel_tuned (freq : ℤ) : Tuned (preCalcGoertzel realArithmetic freq) freq := by
  have homega : 2 * Real.pi * (((SAMPLES_PER_SYMBOL : ℕ) : ℝ) * freq / (SAMPLE_RATE : ℕ)) /
      (SAMPLES_PER_SYMBOL : ℕ) = angle freq := by
    simp only [angle, SAMPLES_PER_SYMBOL, SAMPLE_RATE, SYMBOL_RATE]
    norm_num
    ring
  have hcos := congrArg (fun ω => 2 * Real.cos ω) homega
  simpa [Tuned, preCalcGoertzel, realArithmetic] using hcos

theorem processGoertzel_tuned {s : StateGoertzel ℝ} {freq : ℤ} (h : Tuned s freq) (x : ℝ) :
    let c := 2 * Real.cos (angle freq)
    Tuned (processGoertzel realArithmetic s x).2 freq ∧
      cells (processGoertzel realArithmetic s x).2 = step c (cells s) x ∧
      (processGoertzel realArithmetic s x).1 = power c (step c (cells s) x) := by
  have hcoeff : s.coeff = 2 * Real.cos (angle freq) := h
  refine ⟨hcoeff, ?_, ?_⟩
  · simp only [processGoertzel, realArithmetic, cells, step, hcoeff]
  · simp only [processGoertzel, realArithmetic, cells, step, power, hcoeff]

theorem angle_freqs (i : Fin 4) : angle (freqs i) = (4 + 2 * (i : ℕ)) * (Real.pi / 48) := by
  fin_cases i <;>
    simp [angle, freqs, FREQ_00, FREQ_01, FREQ_10, FREQ_11, SAMPLE_RATE] <;> ring

theorem cube_le_abs_sin {a t : ℝ} (ha : 0 < a) (hat : a ≤ |t|) (ht : |t| ≤ Real.pi / 2) :
    a - a ^ 3 / 6 ≤ |Real.sin t| := by
  have hpi := Real.pi_pos
  have hmono : Real.sin a ≤ Real.sin |t| :=
    Real.sin_le_sin_of_le_of_le_pi_div_two (by linarith) ht hat
  rw [Real.abs_sin_eq_sin_abs_of_abs_le_pi (by linarith)]
  exact (Real.sin_gt_sub_cube ha).le.trans hmono

theorem sin_own_ge (i : Fin 4) : 1 / 4 ≤ |Real.sin (angle (freqs i))| := by
  have hpi := Real.pi_gt_d2
  have hi : ((i : ℕ) : ℝ) ≤ 3 := by exact_mod_cast Nat.le_of_lt_succ i.isLt
  have hi0 : (0 : ℝ) ≤ ((i : ℕ) : ℝ) := Nat.cast_nonneg _
  have habs : |angle (freqs i)| = (4 + 2 * (i : ℕ)) * (Real.pi / 48) := by
    rw [angle_freqs, abs_of_nonneg (by positivity)]
  refine le_trans ?_ (cube_le_abs_sin (a := 0.26) (by norm_num) ?_ ?_)
  · norm_num
  · rw [habs]
    nlinarith
  · rw [habs]
    nlinarith

theorem sin_diff_ge {i j : Fin 4} (hij : i ≠ j) :
    1 / 16 ≤ |Real.sin ((angle (freqs i) - angle (freqs j)) / 2)| := by
  have hpi := Real.pi_gt_d2
  have hangle : (angle (freqs i) - angle (freqs j)) / 2 =
      ((i : ℕ) - (j : ℕ) : ℝ) * (Real.pi / 48) := by
    rw [angle_freqs, angle_freqs]
    ring
  have hone : (1 : ℝ) ≤ |((i : ℕ) - (j : ℕ) : ℝ)| := by
    have hne : ((i : ℕ) : ℤ) - (j : ℕ) ≠ 0 := by
      intro h
      exact hij (Fin.ext (by omega))
    exact_mod_cast Int.one_le_abs hne
  have hthree : |((i : ℕ) - (j : ℕ) : ℝ)| ≤ 3 := by
    have hle : |((i : ℕ) : ℤ) - (j : ℕ)| ≤ 3 := by
      rw [abs_le]
      omega
    exact_mod_cast hle
  have habs : |((i : ℕ) - (j : ℕ) : ℝ) * (Real.pi / 48)| =
      |((i : ℕ) - (j : ℕ) : ℝ)| * (Real.pi / 48) := by
    rw [abs_mul, abs_of_nonneg (by positivity : 0 ≤ Real.pi / 48)]
  rw [hangle]
  refine le_trans ?_ (cube_le_abs_sin (a := 0.065) (by norm_num) ?_ ?_)
  · norm_num
  · rw [habs]
    nlinarith
  · rw [habs]
    nlinarith

theorem sin_sum_ge {i j : Fin 4} (hij : i ≠ j) :
    5 / 16 ≤ |Real.sin ((angle (freqs i) + angle (freqs j)) / 2)| := by
  have hpi := Real.pi_gt_d2
  have hangle : (angle (freqs i) + angle (freqs j)) / 2 =
      (4 + ((i : ℕ) + (j : ℕ)) : ℝ) * (Real.pi / 48) := by
    rw [angle_freqs, angle_freqs]
    ring
  have hone : (1 : ℝ) ≤ (i : ℕ) + (j : ℕ) := by
    have hsum : 1 ≤ (i : ℕ) + (j : ℕ) := by
      by_contra h
      exact hij (Fin.ext (by omega))
    exact_mod_cast hsum
  have hsix : ((i : ℕ) + (j : ℕ) : ℝ) ≤ 6 := by
    have hsum : (i : ℕ) + (j : ℕ) ≤ 6 := by omega
    exact_mod_cast hsum
  have habs : |(4 + ((i : ℕ) + (j : ℕ)) : ℝ) * (Real.pi / 48)| =
      (4 + ((i : ℕ) + (j : ℕ)) : ℝ) * (Real.pi / 48) := abs_of_nonneg (by positivity)
  rw [hangle]
  refine le_trans ?_ (cube_le_abs_sin (a := 0.32) (by norm_num) ?_ ?_)
  · norm_num
  · rw [habs]
    nlinarith
  · rw [habs]
    nlinarith

/-- The sum at the frequency of the symbol outweighs every other one. -/
theorem own_louder {i j : Fin 4} {window : List ℝ} (h : Heard i window) (hij : i ≠ j) :
    ‖spectrum (angle (freqs j)) window‖ < ‖spectrum (angle (freqs i)) window‖ := by
  obtain ⟨φ, g, hg, hlen, herror⟩ := h
  generalize hsent : tone φ (angle (freqs i)) SAMPLES_PER_SYMBOL = sent at herror
  have hg' : 0 < |g| := abs_pos.mpr hg
  have hnear : ∀ k, ‖spectrum (angle (freqs k)) window‖ ≤
        |g| / 2 * ‖spectrum (angle (freqs k)) sent‖ + |g| ∧
      |g| / 2 * ‖spectrum (angle (freqs k)) sent‖ ≤
        ‖spectrum (angle (freqs k)) window‖ + |g| := by
    intro k
    have hlength : window.length = (sent.map (g / 2 * ·)).length := by
      rw [hlen, List.length_map, ← hsent, tone_length]
    have hdist := (norm_spectrum_sub_le (angle (freqs k)) hlength).trans herror
    have hscale : ‖spectrum (angle (freqs k)) (sent.map (g / 2 * ·))‖ =
        |g| / 2 * ‖spectrum (angle (freqs k)) sent‖ := by
      rw [spectrum_map_mul, norm_mul, Complex.norm_real, Real.norm_eq_abs, abs_div, abs_two]
    have hle := norm_sub_norm_le (spectrum (angle (freqs k)) window)
      (spectrum (angle (freqs k)) (sent.map (g / 2 * ·)))
    have hge := norm_sub_norm_le (spectrum (angle (freqs k)) (sent.map (g / 2 * ·)))
      (spectrum (angle (freqs k)) window)
    rw [norm_sub_rev] at hge
    rw [hscale] at hle hge
    exact ⟨by linarith, by linarith⟩
  have hown := tone_own_le φ SAMPLES_PER_SYMBOL (by norm_num) (sin_own_ge i)
  have hother := tone_other_le φ SAMPLES_PER_SYMBOL (by norm_num) (sin_diff_ge hij) (by norm_num)
    (sin_sum_ge hij)
  have hcount : ((SAMPLES_PER_SYMBOL : ℕ) : ℝ) = 32 := by
    norm_num [SAMPLES_PER_SYMBOL, SAMPLE_RATE, SYMBOL_RATE]
  rw [hsent, hcount] at hown
  rw [hsent] at hother
  have hj := (hnear j).1
  have hi := (hnear i).2
  nlinarith

end EchoProtocol.Demodulation
