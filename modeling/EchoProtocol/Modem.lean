import EchoProtocol.Goertzel
import EchoProtocol.SymbolFetch

/-!
# Tones for symbols

The generators that turn symbols into samples and the filter that measures a tone, over an
arbitrary arithmetic of `float`. Over the real numbers the generators are a sine whose phase
advances by the step of the symbol.
-/
namespace EchoProtocol.Modem

/-- The operations of C on `float` that the modem uses, and those on `double` for the products
that are computed in double precision. -/
structure Arithmetic (F D : Type) where
  lit : ℚ → F
  ofInt : ℤ → F
  add : F → F → F
  sub : F → F → F
  mul : F → F → F
  div : F → F → F
  cosf : F → F
  sinf : F → F
  gt : F → F → Bool
  dlit : ℚ → D
  dofInt : ℤ → D
  dmul : D → D → D
  ddiv : D → D → D
  M_PI : D
  toDouble : F → D
  toFloat : D → F

def FREQ_00 : ℤ := 2000
def FREQ_01 : ℤ := 3000
def FREQ_10 : ℤ := 4000
def FREQ_11 : ℤ := 5000
def FREQ_SPACE : ℤ := 2400
def FREQ_MARK : ℤ := 4800
def SAMPLE_RATE : ℕ := 48000
def SYMBOL_RATE : ℕ := 1500
def SAMPLES_PER_SYMBOL : ℕ := SAMPLE_RATE / SYMBOL_RATE

def freqs : Fin 4 → ℤ := ![FREQ_00, FREQ_01, FREQ_10, FREQ_11]

variable {F D : Type}

structure StateFSK (F : Type) where
  stepCos : Fin 4 → F
  stepSin : Fin 4 → F
  currentCos : F
  currentSin : F

def preCalcFsk (ar : Arithmetic F D) : StateFSK F :=
  let f := fun i => ar.div (ar.mul (ar.mul (ar.lit 2) (ar.toFloat ar.M_PI)) (ar.ofInt (freqs i)))
    (ar.ofInt SAMPLE_RATE)
  { stepCos := fun i => ar.cosf (f i)
    stepSin := fun i => ar.sinf (f i)
    currentCos := ar.lit 1
    currentSin := ar.lit 0 }

/-- The next cosine and sine. -/
def rotate (ar : Arithmetic F D) (currentCos currentSin stepCos stepSin : F) : F × F :=
  (ar.sub (ar.mul currentCos stepCos) (ar.mul currentSin stepSin),
    ar.add (ar.mul currentSin stepCos) (ar.mul currentCos stepSin))

/-- `*symbol & 3`. -/
def tableIndex (symbol : UInt8) : Fin 4 := Fin.ofNat 4 (symbol &&& 3).toNat

def generateFsk (ar : Arithmetic F D) (s : StateFSK F) (symbol : UInt8) : F × StateFSK F :=
  let idx := tableIndex symbol
  let next := rotate ar s.currentCos s.currentSin (s.stepCos idx) (s.stepSin idx)
  (ar.mul next.2 (ar.lit (1 / 2)), { s with currentCos := next.1, currentSin := next.2 })

structure StateAFSK (F : Type) where
  stepCosSpace : F
  stepCosMark : F
  stepSinSpace : F
  stepSinMark : F
  currentSin : F
  currentCos : F

def preCalcAfsk (ar : Arithmetic F D) : StateAFSK F :=
  let samples := fun freq => ar.div
    (ar.toFloat (ar.dmul (ar.dmul (ar.dlit 2) ar.M_PI) (ar.dofInt freq))) (ar.ofInt SAMPLE_RATE)
  { stepCosMark := ar.cosf (samples FREQ_MARK)
    stepCosSpace := ar.cosf (samples FREQ_SPACE)
    stepSinMark := ar.sinf (samples FREQ_MARK)
    stepSinSpace := ar.sinf (samples FREQ_SPACE)
    currentCos := ar.lit 1
    currentSin := ar.lit 0 }

def generateAfsk (ar : Arithmetic F D) (s : StateAFSK F) (bit : UInt8) : F × StateAFSK F :=
  let stepCos := if bit = 1 then s.stepCosMark else s.stepCosSpace
  let stepSin := if bit = 1 then s.stepSinMark else s.stepSinSpace
  let next := rotate ar s.currentCos s.currentSin stepCos stepSin
  (ar.mul next.2 (ar.lit (1 / 2)), { s with currentCos := next.1, currentSin := next.2 })

/-- One sample for each symbol of a list, by either generator. -/
def samples {S : Type} (generate : S → UInt8 → F × S) : S → List UInt8 → List F × S
  | s, [] => ([], s)
  | s, x :: xs =>
      let generated := generate s x
      let rest := samples generate generated.2 xs
      (generated.1 :: rest.1, rest.2)

structure StateGoertzel (F : Type) where
  n : ℤ
  k : F
  omega : F
  coeff : F
  q1 : F
  q2 : F

def preCalcGoertzel (ar : Arithmetic F D) (freq : ℤ) : StateGoertzel F :=
  let n := SAMPLES_PER_SYMBOL
  let k := ar.div (ar.mul (ar.ofInt n) (ar.ofInt freq)) (ar.ofInt SAMPLE_RATE)
  let omega := ar.toFloat (ar.ddiv
    (ar.dmul (ar.dmul (ar.dlit 2) ar.M_PI) (ar.toDouble k)) (ar.dofInt n))
  { n := n
    k := k
    omega := omega
    coeff := ar.mul (ar.lit 2) (ar.cosf omega)
    q1 := ar.lit 0
    q2 := ar.lit 0 }

/-- The power so far, and the filter after the sample. -/
def processGoertzel (ar : Arithmetic F D) (s : StateGoertzel F) (sample : F) :
    F × StateGoertzel F :=
  let q0 := ar.sub (ar.add sample (ar.mul s.coeff s.q1)) s.q2
  let q2 := s.q1
  let q1 := q0
  (ar.sub (ar.add (ar.mul q1 q1) (ar.mul q2 q2)) (ar.mul (ar.mul q1 q2) s.coeff),
    { s with q1 := q1, q2 := q2 })

def resetState (ar : Arithmetic F D) (s : StateGoertzel F) : StateGoertzel F :=
  { s with q1 := ar.lit 0, q2 := ar.lit 0 }

/-- The loop over `max_idx`. -/
def strongest (ar : Arithmetic F D) (mag : Fin 4 → F) : Fin 4 :=
  [1, 2, 3].foldl (fun maxIdx i => if ar.gt (mag i) (mag maxIdx) then i else maxIdx) 0

/-- The filters after a sample, and their powers. -/
def measure (ar : Arithmetic F D) (freqStates : Fin 4 → StateGoertzel F) (sample : F) :
    (Fin 4 → F) × (Fin 4 → StateGoertzel F) :=
  (fun i => (processGoertzel ar (freqStates i) sample).1,
    fun i => (processGoertzel ar (freqStates i) sample).2)

noncomputable section
open Classical in
/-- The real numbers in place of `float` and of `double`. -/
def realArithmetic : Arithmetic ℝ ℝ where
  lit q := q
  ofInt n := n
  add x y := x + y
  sub x y := x - y
  mul x y := x * y
  div x y := x / y
  cosf := Real.cos
  sinf := Real.sin
  gt x y := decide (y < x)
  dlit q := q
  dofInt n := n
  dmul x y := x * y
  ddiv x y := x / y
  M_PI := Real.pi
  toDouble x := x
  toFloat x := x

/-- The phase that a frequency gains from one sample to the next. -/
def angle (freq : ℤ) : ℝ := 2 * Real.pi * freq / SAMPLE_RATE

/-- A filter tuned to a frequency. -/
def Tuned (s : StateGoertzel ℝ) (freq : ℤ) : Prop := s.coeff = 2 * Real.cos (angle freq)

/-- A window of samples that brings the tone of a symbol, at any phase and any gain. -/
def Heard (i : Fin 4) (window : List ℝ) : Prop :=
  ∃ φ g : ℝ, g ≠ 0 ∧ window.length = SAMPLES_PER_SYMBOL ∧
    Goertzel.distance window
      ((Goertzel.tone φ (angle (freqs i)) SAMPLES_PER_SYMBOL).map (g / 2 * ·)) ≤ |g|

/-- A generator at the phase `φ`. -/
structure Rotating (s : StateFSK ℝ) (φ : ℝ) : Prop where
  stepCos : ∀ i, s.stepCos i = Real.cos (angle (freqs i))
  stepSin : ∀ i, s.stepSin i = Real.sin (angle (freqs i))
  currentCos : s.currentCos = Real.cos φ
  currentSin : s.currentSin = Real.sin φ

structure RotatingAfsk (s : StateAFSK ℝ) (φ : ℝ) : Prop where
  stepCosMark : s.stepCosMark = Real.cos (angle FREQ_MARK)
  stepSinMark : s.stepSinMark = Real.sin (angle FREQ_MARK)
  stepCosSpace : s.stepCosSpace = Real.cos (angle FREQ_SPACE)
  stepSinSpace : s.stepSinSpace = Real.sin (angle FREQ_SPACE)
  currentCos : s.currentCos = Real.cos φ
  currentSin : s.currentSin = Real.sin φ

/-- The phase step of a symbol. -/
def fskStep (symbol : UInt8) : ℝ := angle (freqs (tableIndex symbol))

def afskStep (bit : UInt8) : ℝ := if bit = 1 then angle FREQ_MARK else angle FREQ_SPACE

theorem rotate_real (φ θ : ℝ) :
    rotate realArithmetic (Real.cos φ) (Real.sin φ) (Real.cos θ) (Real.sin θ) =
      (Real.cos (φ + θ), Real.sin (φ + θ)) := by
  rw [Real.cos_add, Real.sin_add]
  rfl

theorem preCalcFsk_rotating : Rotating (preCalcFsk realArithmetic) 0 := by
  have hstep : ∀ i, (((2 : ℚ) : ℝ) * Real.pi * (freqs i : ℝ)) / ((SAMPLE_RATE : ℤ) : ℝ) =
      angle (freqs i) := by
    intro i
    simp [angle]
  refine ⟨fun i => congrArg Real.cos (hstep i), fun i => congrArg Real.sin (hstep i), ?_, ?_⟩
  · simp [preCalcFsk, realArithmetic]
  · simp [preCalcFsk, realArithmetic]

theorem preCalcAfsk_rotating : RotatingAfsk (preCalcAfsk realArithmetic) 0 := by
  have hstep : ∀ freq : ℤ, (((2 : ℚ) : ℝ) * Real.pi * (freq : ℝ)) / ((SAMPLE_RATE : ℤ) : ℝ) =
      angle freq := by
    intro freq
    simp [angle]
  refine ⟨congrArg Real.cos (hstep _), congrArg Real.sin (hstep _), congrArg Real.cos (hstep _),
    congrArg Real.sin (hstep _), ?_, ?_⟩
  · simp [preCalcAfsk, realArithmetic]
  · simp [preCalcAfsk, realArithmetic]

theorem generateFsk_rotating {s : StateFSK ℝ} {φ : ℝ} (h : Rotating s φ) (x : UInt8) :
    (generateFsk realArithmetic s x).1 = 1 / 2 * Real.sin (φ + fskStep x) ∧
      Rotating (generateFsk realArithmetic s x).2 (φ + fskStep x) := by
  have hnext := rotate_real φ (fskStep x)
  rw [← h.currentCos, ← h.currentSin, fskStep, ← h.stepCos, ← h.stepSin] at hnext
  simp only [generateFsk, hnext]
  refine ⟨?_, h.stepCos, h.stepSin, rfl, rfl⟩
  simp only [realArithmetic, fskStep]
  push_cast
  ring

theorem generateAfsk_rotating {s : StateAFSK ℝ} {φ : ℝ} (h : RotatingAfsk s φ) (bit : UInt8) :
    (generateAfsk realArithmetic s bit).1 = 1 / 2 * Real.sin (φ + afskStep bit) ∧
      RotatingAfsk (generateAfsk realArithmetic s bit).2 (φ + afskStep bit) := by
  have hnext := rotate_real φ (afskStep bit)
  rw [← h.currentCos, ← h.currentSin] at hnext
  have hcos : Real.cos (afskStep bit) = if bit = 1 then s.stepCosMark else s.stepCosSpace := by
    rw [afskStep, apply_ite Real.cos, h.stepCosMark, h.stepCosSpace]
  have hsin : Real.sin (afskStep bit) = if bit = 1 then s.stepSinMark else s.stepSinSpace := by
    rw [afskStep, apply_ite Real.sin, h.stepSinMark, h.stepSinSpace]
  rw [hcos, hsin] at hnext
  simp only [generateAfsk, hnext]
  refine ⟨?_, h.stepCosMark, h.stepSinMark, h.stepCosSpace, h.stepSinSpace, rfl, rfl⟩
  simp only [realArithmetic]
  push_cast
  ring

/-- The phase that a list of symbols adds up to. -/
def totalPhase (stepOf : UInt8 → ℝ) (xs : List UInt8) : ℝ := (xs.map stepOf).sum

section Phase
variable {S : Type} {generate : S → UInt8 → ℝ × S} {At : S → ℝ → Prop} {stepOf : UInt8 → ℝ}

/-- A generator whose phase advances with every symbol draws a sine without jumps. -/
theorem samples_phase
    (hstep : ∀ s φ x, At s φ → (generate s x).1 = 1 / 2 * Real.sin (φ + stepOf x) ∧
      At (generate s x).2 (φ + stepOf x)) {s : S} {φ : ℝ} (h : At s φ) (xs : List UInt8) :
    (∀ k < xs.length, (samples generate s xs).1[k]? =
      some (1 / 2 * Real.sin (φ + totalPhase stepOf (xs.take (k + 1))))) ∧
    At (samples generate s xs).2 (φ + totalPhase stepOf xs) := by
  induction xs generalizing s φ with
  | nil => exact ⟨fun k hk => absurd hk (by simp), by simpa [samples, totalPhase] using h⟩
  | cons x xs ih =>
    obtain ⟨hout, hnext⟩ := hstep s φ x h
    obtain ⟨hall, hlast⟩ := ih hnext
    refine ⟨fun k hk => ?_, ?_⟩
    · cases k with
      | zero => simp [samples, hout, totalPhase]
      | succ k =>
        have hrest := hall k (by simpa using hk)
        simpa [samples, totalPhase, add_assoc] using hrest
    · simpa [samples, totalPhase, add_assoc] using hlast

end Phase

/-- Both generators are sines of constant amplitude whose phase never jumps: sample `k` is half
the sine of the steps of the first `k + 1` symbols together, and the pair they keep stays on the
unit circle. -/
theorem generators_keep_phase (xs : List UInt8) :
    (∀ k < xs.length,
      (samples (generateFsk realArithmetic) (preCalcFsk realArithmetic) xs).1[k]? =
        some (1 / 2 * Real.sin (totalPhase fskStep (xs.take (k + 1)))) ∧
      (samples (generateAfsk realArithmetic) (preCalcAfsk realArithmetic) xs).1[k]? =
        some (1 / 2 * Real.sin (totalPhase afskStep (xs.take (k + 1))))) ∧
    (samples (generateFsk realArithmetic) (preCalcFsk realArithmetic) xs).2.currentCos ^ 2 +
      (samples (generateFsk realArithmetic) (preCalcFsk realArithmetic) xs).2.currentSin ^ 2 = 1 ∧
    (samples (generateAfsk realArithmetic) (preCalcAfsk realArithmetic) xs).2.currentCos ^ 2 +
      (samples (generateAfsk realArithmetic) (preCalcAfsk realArithmetic) xs).2.currentSin ^ 2 = 1 := by
  obtain ⟨hfsk, hfskLast⟩ := @samples_phase _ (generateFsk realArithmetic) Rotating fskStep
    (fun _ _ x h => generateFsk_rotating h x) _ 0 preCalcFsk_rotating xs
  obtain ⟨hafsk, hafskLast⟩ := @samples_phase _ (generateAfsk realArithmetic) RotatingAfsk afskStep
    (fun _ _ x h => generateAfsk_rotating h x) _ 0 preCalcAfsk_rotating xs
  simp only [zero_add] at hfsk hafsk
  refine ⟨fun k hk => ⟨hfsk k hk, hafsk k hk⟩, ?_, ?_⟩
  · rw [hfskLast.currentCos, hfskLast.currentSin, Real.cos_sq_add_sin_sq]
  · rw [hafskLast.currentCos, hafskLast.currentSin, Real.cos_sq_add_sin_sq]

end

end EchoProtocol.Modem
