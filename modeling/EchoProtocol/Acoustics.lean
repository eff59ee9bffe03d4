import EchoProtocol.Windows

/-!
# From loudspeaker to microphone

The output of a station has one symbol in each window. A channel that changes the gain and adds a
bounded error in a window leaves its symbol as it is, over the real numbers.
-/
namespace EchoProtocol.Acoustics
open Goertzel hiding step
open SymbolFetch (symbolBits)
open SyncWord Endpoint Transmit Modem Demodulation Callback Playback Reception Windows Runs

/-- The input carries an output but for some windows, in which anything may be heard: every other
window is heard with a gain of its own and an error that is at most the gain, summed up over the
window. -/
def Carries (noise : Set ℕ) (out heard : List ℝ) : Prop :=
  heard.length ≤ out.length ∧ ∀ k ∉ noise, SAMPLES_PER_SYMBOL * (k + 1) ≤ heard.length →
    ∃ g : ℝ, g ≠ 0 ∧ distance (window k heard) ((window k out).map (g * ·)) ≤ |g|

/-- Every symbol for the 32 samples that it is held. -/
def held (xs : List UInt8) : List UInt8 := xs.flatMap fun x => List.replicate SAMPLES_PER_SYMBOL x

noncomputable section

/-- The samples of a list of symbols. -/
def tones (xs : List UInt8) : List ℝ :=
  (samples (generateFsk realArithmetic) (preCalcFsk realArithmetic) (held xs)).1

theorem samples_replicate {s : StateFSK ℝ} {φ : ℝ} (h : Rotating s φ) (x : UInt8) (n : ℕ) :
    (samples (generateFsk realArithmetic) s (List.replicate n x)).1 =
        (tone (φ + fskStep x) (fskStep x) n).map (1 / 2 * ·) ∧
      ∃ φ', Rotating (samples (generateFsk realArithmetic) s (List.replicate n x)).2 φ' := by
  induction n generalizing s φ with
  | zero => exact ⟨rfl, φ, h⟩
  | succ n ih =>
    obtain ⟨hout, hnext⟩ := generateFsk_rotating h x
    obtain ⟨htone, hlast⟩ := ih hnext
    simp only [List.replicate_succ, samples, tone, List.map_cons, hout, htone]
    exact ⟨trivial, hlast⟩

theorem window_succ {k : ℕ} {xs ys : List ℝ} (h : xs.length = SAMPLES_PER_SYMBOL) :
    window (k + 1) (xs ++ ys) = window k ys := by
  have hdrop : SAMPLES_PER_SYMBOL * (k + 1) = xs.length + SAMPLES_PER_SYMBOL * k := by
    rw [h]
    ring
  rw [window, window, hdrop, List.drop_length_add_append]

/-- In window `k` symbol `k` is played. -/
theorem window_samples {s : StateFSK ℝ} {φ : ℝ} (h : Rotating s φ) {xs : List UInt8} {k : ℕ}
    {x : UInt8} (hx : xs[k]? = some x) :
    ∃ φ', window k (samples (generateFsk realArithmetic) s (held xs)).1 =
      (tone φ' (fskStep x) SAMPLES_PER_SYMBOL).map (1 / 2 * ·) := by
  induction xs generalizing s φ k with
  | nil => simp at hx
  | cons y ys ih =>
    obtain ⟨htone, φ', hnext⟩ := samples_replicate h y SAMPLES_PER_SYMBOL
    have hlen : (samples (generateFsk realArithmetic) s
        (List.replicate SAMPLES_PER_SYMBOL y)).1.length = SAMPLES_PER_SYMBOL := by
      rw [samples_length, List.length_replicate]
    rw [held, List.flatMap_cons, samples_append]
    cases k with
    | zero =>
      obtain rfl : y = x := by simpa using hx
      refine ⟨φ + fskStep y, ?_⟩
      rw [← htone, window, Nat.mul_zero, List.drop_zero]
      exact List.take_left' hlen
    | succ k =>
      rw [window_succ hlen]
      exact ih hnext hx

theorem held_length (xs : List UInt8) : (held xs).length = SAMPLES_PER_SYMBOL * xs.length := by
  induction xs with
  | nil => rfl
  | cons x xs ih =>
    rw [held, List.flatMap_cons, List.length_append, List.length_replicate]
    rw [held] at ih
    rw [ih, List.length_cons]
    ring

theorem tones_length (xs : List UInt8) : (tones xs).length = SAMPLES_PER_SYMBOL * xs.length := by
  rw [tones, samples_length, held_length]

theorem filtered_tuned (xs : List ℝ) (i : Fin 4) :
    Tuned ((filtered realArithmetic xs).2 i) (freqs i) ∧
      cells ((filtered realArithmetic xs).2 i) =
        xs.foldl (Goertzel.step (2 * Real.cos (angle (freqs i)))) silent := by
  induction xs using List.reverseRecOn with
  | nil =>
    refine ⟨preCalcGoertzel_tuned (freqs i), ?_⟩
    simp [filtered, cells, preCalcGoertzel, realArithmetic, silent]
  | append_singleton xs x ih =>
    obtain ⟨htuned, hcells, -⟩ := processGoertzel_tuned ih.1 x
    rw [filtered_concat, List.foldl_concat, ← ih.2]
    exact ⟨htuned, hcells⟩

theorem filtered_power {xs : List ℝ} (h : xs ≠ []) (i : Fin 4) :
    (filtered realArithmetic xs).1 i = ‖spectrum (angle (freqs i)) xs‖ ^ 2 := by
  obtain ⟨ys, y, rfl⟩ := (List.eq_nil_or_concat' xs).resolve_left h
  obtain ⟨htuned, hcells⟩ := filtered_tuned ys i
  obtain ⟨-, -, hpower⟩ := processGoertzel_tuned htuned y
  rw [← power_foldl, List.foldl_concat, ← hcells, ← hpower, filtered_concat]
  rfl

theorem decision_heard {i : Fin 4} {xs : List ℝ} (h : Heard i xs) :
    decision realArithmetic xs = i := by
  have hne : xs ≠ [] := by
    obtain ⟨φ, g, hg, hlen, herror⟩ := h
    exact List.ne_nil_of_length_pos (by rw [hlen]; decide)
  refine strongest_real fun j hij => ?_
  rw [filtered_power hne, filtered_power hne]
  exact pow_lt_pow_left₀ (own_louder h hij.symm) (norm_nonneg _) two_ne_zero

/-- In every complete window without noise the symbol is heard that was played in it. -/
theorem decision_carried {noise : Set ℕ} {xs : List UInt8} {out heard : List ℝ}
    (hout : out <+: tones xs) (h : Carries noise out heard) {k : ℕ}
    (hk : SAMPLES_PER_SYMBOL * (k + 1) ≤ heard.length) (hclean : k ∉ noise) :
    ∃ x, xs[k]? = some x ∧ decision realArithmetic (window k heard) = tableIndex x := by
  have hlong : SAMPLES_PER_SYMBOL * (k + 1) ≤ out.length := hk.trans h.1
  have hcount : k < xs.length := by
    have hle := hlong.trans hout.length_le
    rw [tones_length] at hle
    exact Nat.le_of_mul_le_mul_left hle (by decide)
  obtain ⟨g, hg, herror⟩ := h.2 k hclean hk
  obtain ⟨φ, htone⟩ := window_samples preCalcFsk_rotating (List.getElem?_eq_getElem hcount)
  have hsame : window k out = window k (tones xs) := by
    obtain ⟨rest, hrest⟩ := hout
    rw [← hrest, window_append hlong]
  refine ⟨xs[k], List.getElem?_eq_getElem hcount, decision_heard ⟨φ, g, hg, window_length hk, ?_⟩⟩
  rw [hsame, tones, htone, List.map_map] at herror
  have hgain : ((g * ·) ∘ (1 / 2 * ·) : ℝ → ℝ) = (g / 2 * ·) := by
    funext y
    simp only [Function.comp_apply]
    ring
  rw [hgain] at herror
  exact herror

theorem pairs_getElem? {α : Type} {bits : α → List Bool} (h : ∀ x, (bits x).length = 2) (xs : List α)
    (p : ℕ) : (xs.flatMap bits)[p]? = xs[p / 2]?.bind fun x => (bits x)[p % 2]? := by
  induction xs generalizing p with
  | nil => simp
  | cons x xs ih =>
    rw [List.flatMap_cons]
    by_cases hp : p < 2
    · rw [List.getElem?_append_left (by rw [h]; exact hp), Nat.div_eq_of_lt hp, Nat.mod_eq_of_lt hp]
      rfl
    · obtain ⟨q, rfl⟩ := Nat.exists_eq_add_of_le' (not_lt.mp hp)
      rw [List.getElem?_append_right (by rw [h]; omega), h, Nat.add_sub_cancel, ih, Nat.add_mod_right,
        Nat.add_div_right q two_pos]
      rfl

/-- The bits that a station hears outside the noise are those of the symbols that were played. -/
theorem heardBits_carried (lz4 : Lz4) (txJunk rxJunk : ℕ → UInt8) (isFec : Bool)
    (events : List (Event ℝ)) {noise : Set ℕ} {xs : List UInt8} {out : List ℝ}
    (hout : out <+: tones xs) (h : Carries noise out (heardSamples
      (trace (step realArithmetic lz4) (stationInit realArithmetic txJunk rxJunk isFec) events))) :
    let hist := trace (step realArithmetic lz4) (stationInit realArithmetic txJunk rxJunk isFec) events
    (heardBits realArithmetic hist).length ≤ (xs.flatMap symbolBits).length ∧
      ∀ p < (heardBits realArithmetic hist).length, p / 2 ∉ noise →
        (heardBits realArithmetic hist)[p]? = (xs.flatMap symbolBits)[p]? := by
  intro hist
  have hpair : ∀ i, (bitsOf i).length = 2 := fun _ => rfl
  have hsymbol : ∀ x, (symbolBits x).length = 2 := fun _ => rfl
  have hcount : (heardBits realArithmetic hist).length =
      2 * ((heardSamples hist).length / SAMPLES_PER_SYMBOL) :=
    heardBits_length realArithmetic lz4 txJunk rxJunk isFec events
  refine ⟨?_, fun p hp hclean => ?_⟩
  · have hle := (h.1.trans hout.length_le).trans_eq (tones_length xs)
    have hwindows : (heardSamples hist).length / SAMPLES_PER_SYMBOL ≤ xs.length :=
      (Nat.div_le_div_right hle).trans_eq (Nat.mul_div_cancel_left _ (by decide))
    have hbits : (xs.flatMap symbolBits).length = xs.length * 2 := by
      rw [List.length_flatMap]
      simp [hsymbol]
    rw [hcount, hbits]
    omega
  · have hin : p / 2 < (heardSamples hist).length / SAMPLES_PER_SYMBOL := by omega
    have hk : SAMPLES_PER_SYMBOL * (p / 2 + 1) ≤ (heardSamples hist).length :=
      (Nat.mul_le_mul_left _ hin).trans (Nat.mul_div_le _ _)
    obtain ⟨x, hx, hdecision⟩ := decision_carried hout h hk hclean
    rw [(run_cut realArithmetic lz4 txJunk rxJunk isFec events).bits, pairs_getElem? (fun k => hpair _),
      pairs_getElem? hsymbol, List.getElem?_range hin, hx, Option.bind_some, Option.bind_some,
      hdecision, bitsOf_tableIndex]

end

end EchoProtocol.Acoustics
