import EchoProtocol.Agc
import EchoProtocol.Runs

/-!
# The limits of the gains

Over exact reals every path of the gain control that writes a gain ends in a clamp, a one-sided
stop on the side it moves to, or the fixed values of the reset, all inside the limits.
-/
namespace EchoProtocol.Agc
open Runs

/-- The arithmetic of the reals. -/
noncomputable def realOps : FloatOps ℝ where
  lit q := q
  ofInt n := n
  add x y := x + y
  sub x y := x - y
  mul x y := x * y
  div x y := x / y
  powf x y := x ^ y
  log10f x := Real.logb 10 x
  fabsf x := |x|
  lt x y := open Classical in decide (x < y)
  le x y := open Classical in decide (x ≤ y)
  eq x y := open Classical in decide (x = y)

theorem dbToLinear_real (db : ℝ) : dbToLinear realOps db = 10 ^ (db / 20) := by
  simp [dbToLinear, realOps]

theorem linearToDb_real {x : ℝ} (hx : 0 < x) : linearToDb realOps x = 20 * Real.logb 10 x := by
  simp [linearToDb, realOps, hx]

theorem dbToLinear_pos (db : ℝ) : 0 < dbToLinear realOps db := by
  rw [dbToLinear_real]
  positivity

theorem dbToLinear_mono {x y : ℝ} (h : x ≤ y) : dbToLinear realOps x ≤ dbToLinear realOps y := by
  rw [dbToLinear_real, dbToLinear_real]
  exact Real.rpow_le_rpow_of_exponent_le (by norm_num) (by linarith)

/-- A gain between the linear values of two limits in dB. -/
def InRange (lo hi gain : ℝ) : Prop := dbToLinear realOps lo ≤ gain ∧ gain ≤ dbToLinear realOps hi

section Range

variable {lo hi gain : ℝ}

theorem inRange_dbToLinear {db : ℝ} (hlo : lo ≤ db) (hhi : db ≤ hi) :
    InRange lo hi (dbToLinear realOps db) := ⟨dbToLinear_mono hlo, dbToLinear_mono hhi⟩

theorem InRange.db (h : InRange lo hi gain) :
    lo ≤ linearToDb realOps gain ∧ linearToDb realOps gain ≤ hi := by
  have hpos : 0 < gain := (dbToLinear_pos lo).trans_le h.1
  have hlo := h.1
  have hhi := h.2
  rw [dbToLinear_real] at hlo hhi
  rw [linearToDb_real hpos]
  have hlo' := (Real.le_logb_iff_rpow_le (by norm_num) hpos).mpr hlo
  have hhi' := (Real.logb_le_iff_le_rpow (by norm_num) hpos).mpr hhi
  constructor <;> linarith

theorem InRange.lower (h : InRange lo hi gain) {step : ℝ} (hstep : 0 ≤ step) :
    InRange lo hi (lowerGain realOps gain step lo) := by
  obtain ⟨hlo, hhi⟩ := h.db
  simp only [lowerGain]
  split_ifs with hstop
  · exact inRange_dbToLinear le_rfl (hlo.trans hhi)
  · have hge : lo ≤ linearToDb realOps gain - step := by
      simpa [realOps] using hstop
    exact inRange_dbToLinear hge ((sub_le_self _ hstep).trans hhi)

theorem InRange.raise (h : InRange lo hi gain) {step : ℝ} (hstep : 0 ≤ step) :
    InRange lo hi (raiseGain realOps gain step hi) := by
  obtain ⟨hlo, hhi⟩ := h.db
  simp only [raiseGain]
  split_ifs with hstop
  · exact inRange_dbToLinear (hlo.trans hhi) le_rfl
  · have hle : linearToDb realOps gain + step ≤ hi := by
      simpa [realOps] using hstop
    exact inRange_dbToLinear (hlo.trans (le_add_of_nonneg_right hstep)) hle

theorem agcClamp_real {v lo hi : ℝ} (h : lo ≤ hi) :
    lo ≤ agcClamp realOps v lo hi ∧ agcClamp realOps v lo hi ≤ hi := by
  unfold agcClamp
  split_ifs with hlow hhigh
  · exact ⟨le_rfl, h⟩
  · exact ⟨h, le_rfl⟩
  · simp only [realOps, decide_eq_true_eq, not_lt] at hlow hhigh
    exact ⟨hlow, hhigh⟩

end Range

/-- Both gains are inside the limits that the state holds. -/
def WithinLimits (agc : AGCState ℝ) (audio : AudioState ℝ) : Prop :=
  InRange agc.txGainDbMin agc.txGainDbMax audio.txGain ∧
    InRange agc.rxGainDbMin agc.rxGainDbMax audio.rxGain

/-- The limits of `agc_init`. -/
structure InitialLimits (agc : AGCState ℝ) : Prop where
  txMin : agc.txGainDbMin = -20
  txMax : agc.txGainDbMax = 10
  rxMin : agc.rxGainDbMin = 0
  rxMax : agc.rxGainDbMax = 24

theorem reset_inRange : InRange (-20) 10 (0.5 : ℝ) ∧ InRange 0 24 (4 : ℝ) := by
  have hone : (1 : ℝ) ≤ 10 ^ ((10 : ℝ) / 20) := Real.one_le_rpow (by norm_num) (by norm_num)
  have hten : (10 : ℝ) ^ (1 : ℝ) ≤ 10 ^ ((24 : ℝ) / 20) :=
    Real.rpow_le_rpow_of_exponent_le (by norm_num) (by norm_num)
  have htenth : (10 : ℝ) ^ ((-20 : ℝ) / 20) = 0.1 := by
    rw [show (-20 : ℝ) / 20 = -1 by norm_num, Real.rpow_neg_one]
    norm_num
  have hunit : (10 : ℝ) ^ ((0 : ℝ) / 20) = 1 := by rw [zero_div, Real.rpow_zero]
  rw [Real.rpow_one] at hten
  unfold InRange
  simp only [dbToLinear_real, htenth, hunit]
  refine ⟨⟨by norm_num, ?_⟩, by norm_num, ?_⟩ <;> linarith

section Step

variable {agc : AGCState ℝ} {audio : AudioState ℝ} {call : Call ℝ}
  (hops : call.ops = realOps) (hlim : InitialLimits agc) (hin : WithinLimits agc audio)

include hops hlim hin

theorem searchGains_within (w : Window) :
    WithinLimits agc (searchGains agc audio call w).audio := by
  obtain ⟨htx, hrx⟩ := hin
  have htxdb : agc.txGainDbMin ≤ agc.txGainDbMax := by rw [hlim.txMin, hlim.txMax]; norm_num
  have hrxdb : agc.rxGainDbMin ≤ agc.rxGainDbMax := by rw [hlim.rxMin, hlim.rxMax]; norm_num
  simp only [searchGains, hops]
  split_ifs
  · exact ⟨htx.lower (by norm_num [realOps]), hrx⟩
  · exact ⟨htx, hrx.lower (by norm_num [realOps])⟩
  · exact ⟨agcClamp_real (dbToLinear_mono htxdb), hrx⟩
  · exact ⟨htx, agcClamp_real (dbToLinear_mono hrxdb)⟩
  · have hreset := reset_inRange
    unfold WithinLimits
    rw [hlim.txMin, hlim.txMax, hlim.rxMin, hlim.rxMax]
    simpa [realOps] using hreset
  · exact ⟨htx, hrx⟩

theorem steadyGains_within (w : Window) :
    WithinLimits agc (steadyGains agc audio call w) := by
  obtain ⟨htx, hrx⟩ := hin
  have hrxdb : agc.rxGainDbMin ≤ agc.rxGainDbMax := by rw [hlim.rxMin, hlim.rxMax]; norm_num
  simp only [steadyGains, hops]
  split_ifs
  · exact ⟨htx.lower (by norm_num [realOps]), hrx⟩
  · exact ⟨htx, hrx.raise (by norm_num [realOps])⟩
  · exact ⟨htx, hrx.lower (by norm_num [realOps])⟩
  · obtain ⟨hlo, hhi⟩ := agcClamp_real (v := realOps.add (linearToDb realOps audio.rxGain) _) hrxdb
    exact ⟨htx, inRange_dbToLinear hlo hhi⟩
  · exact ⟨htx, hrx.raise (by norm_num [realOps])⟩
  · exact ⟨htx.raise (by norm_num [realOps]), hrx⟩
  · exact ⟨htx, hrx⟩

theorem agcCalibrate_within : WithinLimits agc (agcCalibrate agc audio call).audio := by
  have hsearch := searchGains_within hops hlim hin (window false agc call.stats)
  obtain ⟨htx, hrx⟩ := hin
  simp only [agcCalibrate]
  split_ifs
  · exact ⟨htx, hrx⟩
  · exact ⟨htx, hrx⟩
  · rw [hops]
    exact ⟨htx, hrx.lower (by norm_num [realOps])⟩
  · exact hsearch

theorem trackGains_within (w : Window) (unlocked : Bool) :
    WithinLimits agc (trackGains agc audio call w unlocked).audio := by
  have hsteady := steadyGains_within hops hlim hin w
  simp only [trackGains]
  split_ifs
  · exact hin
  · exact hsteady

theorem agcSteady_within : WithinLimits agc (agcSteady agc audio call).audio := by
  simp only [agcSteady]
  split_ifs
  · exact hin
  · have hreleased : InitialLimits (release (sample agc call) call.now) :=
      ⟨hlim.txMin, hlim.txMax, hlim.rxMin, hlim.rxMax⟩
    exact trackGains_within hops hreleased hin _ _
  · exact hin
  · have hsampled : InitialLimits (sample agc call) :=
      ⟨hlim.txMin, hlim.txMax, hlim.rxMin, hlim.rxMax⟩
    exact trackGains_within hops hsampled hin _ _

end Step

/-- The limits that a state holds. -/
def limits (agc : AGCState ℝ) : ℝ × ℝ × ℝ × ℝ :=
  (agc.txGainDbMin, agc.txGainDbMax, agc.rxGainDbMin, agc.rxGainDbMax)

theorem endCalibration_limits (agc : AGCState ℝ) (now : ℤ) :
    limits (endCalibration (elapse agc now)) = limits agc := by
  unfold endCalibration
  split_ifs <;> rfl

/-- No call writes the limits. -/
theorem agcTune_limits (agc : AGCState ℝ) (audio : AudioState ℝ) (call : Call ℝ) :
    limits (agcTune agc audio call).agc = limits agc := by
  have hcalibrate : ∀ agc : AGCState ℝ,
      limits (agcCalibrate agc audio call).agc = limits agc := by
    intro agc
    simp only [agcCalibrate]
    split_ifs <;> rfl
  have htrack : ∀ (agc : AGCState ℝ) (w : Window) (unlocked : Bool),
      limits (trackGains agc audio call w unlocked).agc = limits agc := by
    intro agc w unlocked
    simp only [trackGains]
    split_ifs <;> rfl
  have hsteady : ∀ agc : AGCState ℝ, limits (agcSteady agc audio call).agc = limits agc := by
    intro agc
    simp only [agcSteady]
    split_ifs
    · rfl
    · exact htrack _ _ _
    · rfl
    · exact htrack _ _ _
  have hend := endCalibration_limits agc call.now
  simp only [agcTune]
  split_ifs
  · rfl
  · exact (hcalibrate _).trans hend
  · exact (hsteady _).trans hend

theorem InitialLimits.of_limits {agc agc' : AGCState ℝ} (h : InitialLimits agc)
    (heq : limits agc' = limits agc) : InitialLimits agc' := by
  simp only [limits, Prod.mk.injEq] at heq
  obtain ⟨htxMin, htxMax, hrxMin, hrxMax⟩ := heq
  exact ⟨htxMin.trans h.txMin, htxMax.trans h.txMax, hrxMin.trans h.rxMin, hrxMax.trans h.rxMax⟩

theorem WithinLimits.of_limits {agc agc' : AGCState ℝ} {audio : AudioState ℝ}
    (h : WithinLimits agc audio) (heq : limits agc' = limits agc) : WithinLimits agc' audio := by
  simp only [limits, Prod.mk.injEq] at heq
  obtain ⟨htxMin, htxMax, hrxMin, hrxMax⟩ := heq
  unfold WithinLimits at h ⊢
  rwa [htxMin, htxMax, hrxMin, hrxMax]

theorem agcInit_limits (enabled : Bool) : InitialLimits (agcInit realOps enabled) := by
  constructor <;> norm_num [agcInit, realOps]

theorem agcTune_within {agc : AGCState ℝ} {audio : AudioState ℝ} {call : Call ℝ}
    (hops : call.ops = realOps) (hlim : InitialLimits agc) (hin : WithinLimits agc audio) :
    WithinLimits (agcTune agc audio call).agc (agcTune agc audio call).audio := by
  have hend := endCalibration_limits agc call.now
  have hlim' := hlim.of_limits hend
  have hin' := hin.of_limits hend
  have haudio : WithinLimits agc (agcTune agc audio call).audio := by
    simp only [agcTune]
    split_ifs
    · exact hin
    · exact (agcCalibrate_within hops hlim' hin').of_limits hend.symm
    · exact (agcSteady_within hops hlim' hin').of_limits hend.symm
  exact haudio.of_limits (agcTune_limits agc audio call)

theorem tuneStep_within (s : Tuned ℝ) (call : Call ℝ)
    (h : InitialLimits s.agc ∧ WithinLimits s.agc s.audio) (hops : call.ops = realOps) :
    InitialLimits (tuneStep s call).agc ∧
      WithinLimits (tuneStep s call).agc (tuneStep s call).audio := by
  have hlimits := agcTune_limits s.agc s.audio call
  have hwithin := agcTune_within hops h.1 h.2
  unfold tuneStep
  exact ⟨h.1.of_limits hlimits, hwithin⟩

/-- Gains that start inside the limits stay there, whatever the statistics, the readings and the
clock are. -/
theorem gains_stay_within_limits (enabled : Bool) {audio : AudioState ℝ} {calls : List (Call ℝ)}
    (hops : ∀ call ∈ calls, call.ops = realOps)
    (hstart : WithinLimits (agcInit realOps enabled) audio) :
    Always tuneStep (fun s => WithinLimits s.agc s.audio) (tuned realOps enabled audio) calls := by
  have hmeets : Meets tuneStep (fun _ call => call.ops = realOps) (tuned realOps enabled audio)
      calls := meets_of_forall fun _ call hcall => hops call hcall
  have hfirst : InitialLimits (tuned realOps enabled audio).agc ∧
      WithinLimits (tuned realOps enabled audio).agc (tuned realOps enabled audio).audio :=
    ⟨agcInit_limits enabled, hstart⟩
  have hall := always_of_meets (I := fun s : Tuned ℝ => InitialLimits s.agc ∧ WithinLimits s.agc s.audio)
    tuneStep_within hfirst hmeets
  exact hall.mono fun s h => h.2

/-- A clipped input, then four sync words with nothing but corrupted frames behind them. -/
noncomputable def clippedCalls : List (Call ℝ) :=
  [⟨realOps, ⟨0, 0, 0, 0, 0, 0, 0⟩, 1, false, 0.9⟩,
    ⟨realOps, ⟨0, 0, 0, 0, 4, 4, 0⟩, 2, false, 0.01⟩]

theorem gains_stay_within_limits_two_calls :
    Always tuneStep (fun s => WithinLimits s.agc s.audio) (tuned realOps true ⟨0.5, 4⟩)
      clippedCalls := by
  have hops : ∀ call ∈ clippedCalls, call.ops = realOps := by
    intro call hcall
    simp only [clippedCalls, List.mem_cons, List.not_mem_nil, or_false] at hcall
    rcases hcall with rfl | rfl
    · rfl
    · rfl
  have hstart : WithinLimits (agcInit realOps true) ⟨0.5, 4⟩ := by
    have hlim := agcInit_limits true
    unfold WithinLimits
    rw [hlim.txMin, hlim.txMax, hlim.rxMin, hlim.rxMax]
    exact reset_inRange
  exact gains_stay_within_limits true hops hstart

end EchoProtocol.Agc
