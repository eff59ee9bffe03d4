import EchoProtocol.Endpoint

/-!
# The automatic gain control

`agc_tune` as the source has it, over an arbitrary arithmetic of `float`: nothing is assumed of
its operations and comparisons. Each call reports the window of statistics that it sampled and
whether it released or locked the gains.
-/
namespace EchoProtocol.Agc
open Endpoint

/-- The operations of C on `float` that the gain control uses. -/
structure FloatOps (F : Type) where
  lit : ℚ → F
  ofInt : ℤ → F
  add : F → F → F
  sub : F → F → F
  mul : F → F → F
  div : F → F → F
  powf : F → F → F
  log10f : F → F
  fabsf : F → F
  lt : F → F → Bool
  le : F → F → Bool
  eq : F → F → Bool

inductive AGCPhase
  | calibrating
  | steady
  | locked
  deriving DecidableEq

structure AGCState (F : Type) where
  lastRxSync : UInt64
  lastRxPackets : UInt64
  lastRxCorrupted : UInt64
  txGainDbMin : F
  txGainDbMax : F
  rxGainDbMin : F
  rxGainDbMax : F
  rmsMin : F
  rmsMax : F
  targetDb : F
  loopBw : F
  alpha : F
  echoSyncThresh : ℤ
  settleSecs : ℤ
  lastAdjust : ℤ
  echoStreak : ℤ
  powerAvg : F
  enabled : Bool
  phase : AGCPhase
  calibSecsElapsed : ℤ
  calibTxGainStep : ℤ
  calibRxGainStep : ℤ
  bestRms : F
  bestTxGain : F
  bestRxGain : F
  calibDone : Bool
  calibStartTime : ℤ
  lockGoodStreak : ℤ
  lockThreshold : ℤ
  locked : Bool
  lockedTxGainDb : F
  lockedRxGainDb : F
  unlockCorruptThresh : ℤ
  unlockRssiDropDb : ℤ
  lastUnlockTime : ℤ
  unlockCooldownSecs : ℤ

/-- The gains in `AudioState`. -/
structure AudioState (F : Type) where
  txGain : F
  rxGain : F

/-- What a call of `agc_tune` finds around it: the counters, `time(NULL)`, `agc_freeze` and
`in_rms`. The arithmetic may change from call to call. -/
structure Call (F : Type) where
  ops : FloatOps F
  stats : ProtocolStats
  now : ℤ
  agcFreeze : Bool
  inRms : F

/-- The increments of the counters since the last sample. -/
structure Window where
  steady : Bool
  dSync : UInt64
  dPkts : UInt64
  dCorrupt : UInt64
  deriving DecidableEq

structure Report where
  window : Option Window
  unlocked : Bool
  locked : Bool
  deriving DecidableEq

def quiet : Report := ⟨none, false, false⟩

structure Outcome (F : Type) where
  agc : AGCState F
  audio : AudioState F
  report : Report

variable {F : Type}

def dbToLinear (ops : FloatOps F) (db : F) : F := ops.powf (ops.lit 10) (ops.div db (ops.lit 20))

def linearToDb (ops : FloatOps F) (linear : F) : F :=
  if ops.le linear (ops.lit 0) then ops.lit (-120) else ops.mul (ops.lit 20) (ops.log10f linear)

def agcClamp (ops : FloatOps F) (v min max : F) : F :=
  if ops.lt v min then min else if ops.lt max v then max else v

/-- A step down in dB that stops at the minimum. -/
def lowerGain (ops : FloatOps F) (gain step dbMin : F) : F :=
  let newDb := ops.sub (linearToDb ops gain) step
  dbToLinear ops (if ops.lt newDb dbMin then dbMin else newDb)

/-- A step up in dB that stops at the maximum. -/
def raiseGain (ops : FloatOps F) (gain step dbMax : F) : F :=
  let newDb := ops.add (linearToDb ops gain) step
  dbToLinear ops (if ops.lt dbMax newDb then dbMax else newDb)

/-- The moving average of the power. -/
def updatePower (ops : FloatOps F) (powerAvg alpha rms : F) : F :=
  let power := ops.mul rms rms
  if ops.eq powerAvg (ops.lit 0) then power
  else ops.add (ops.mul (ops.sub (ops.lit 1) alpha) powerAvg) (ops.mul alpha power)

/-- The cast to `int`. -/
def toInt (x : ℤ) : ℤ := x.bmod (2 ^ 32)

/-- `enabled` is cleared by `ECHO_AGC=0`. -/
def agcInit (ops : FloatOps F) (enabled : Bool) : AGCState F where
  lastRxSync := 0
  lastRxPackets := 0
  lastRxCorrupted := 0
  txGainDbMin := ops.lit (-20)
  txGainDbMax := ops.lit 10
  rxGainDbMin := ops.lit 0
  rxGainDbMax := ops.lit 24
  rmsMin := ops.lit 0.05
  rmsMax := ops.lit 0.7
  targetDb := ops.lit (-20)
  loopBw := ops.lit 0.001
  alpha := ops.lit 0.1
  echoSyncThresh := 3
  settleSecs := 5
  lastAdjust := 0
  echoStreak := 0
  powerAvg := ops.lit 0
  enabled := enabled
  phase := .calibrating
  calibSecsElapsed := 0
  calibTxGainStep := 0
  calibRxGainStep := 0
  bestRms := ops.lit 0
  bestTxGain := ops.lit 1
  bestRxGain := ops.lit 1
  calibDone := false
  calibStartTime := 0
  lockGoodStreak := 0
  lockThreshold := 20
  locked := false
  lockedTxGainDb := ops.lit 0
  lockedRxGainDb := ops.lit 0
  unlockCorruptThresh := 5
  unlockRssiDropDb := 6
  lastUnlockTime := 0
  unlockCooldownSecs := 30

/-- The increments since the last sample, on 64-bit counters. -/
def window (steady : Bool) (agc : AGCState F) (stats : ProtocolStats) : Window :=
  ⟨steady, stats.rxSyncFound - agc.lastRxSync, stats.rxPackets - agc.lastRxPackets,
    stats.rxCorrupted - agc.lastRxCorrupted⟩

def sample (agc : AGCState F) (call : Call F) : AGCState F :=
  { agc with
    lastRxSync := call.stats.rxSyncFound
    lastRxPackets := call.stats.rxPackets
    lastRxCorrupted := call.stats.rxCorrupted
    powerAvg := updatePower call.ops agc.powerAvg agc.alpha call.inRms }

/-- What the search of `agc_calibrate` changes. -/
structure Search (F : Type) where
  echoStreak : ℤ
  calibTxGainStep : ℤ
  calibRxGainStep : ℤ
  audio : AudioState F

/-- Sync words with nothing but corrupted frames behind them. -/
def Echoes (w : Window) : Prop := w.dSync > 0 ∧ w.dPkts = 0 ∧ w.dCorrupt ≥ w.dSync

instance (w : Window) : Decidable (Echoes w) := inferInstanceAs (Decidable (_ ∧ _ ∧ _))

def calibrateEchoStreak (agc : AGCState F) (w : Window) : ℤ :=
  if Echoes w then agc.echoStreak + 1 else if w.dPkts > 0 then 0 else agc.echoStreak

/-- The paths of `agc_calibrate` behind the test for clipping. -/
def searchGains (agc : AGCState F) (audio : AudioState F) (call : Call F) (w : Window) : Search F :=
  let ops := call.ops
  let rms := call.inRms
  let echoStreak := calibrateEchoStreak agc w
  let newTx := agcClamp ops (ops.mul audio.txGain (ops.lit 1.3)) (dbToLinear ops agc.txGainDbMin)
    (dbToLinear ops agc.txGainDbMax)
  let newRx := agcClamp ops (ops.mul audio.rxGain (ops.lit 1.4)) (dbToLinear ops agc.rxGainDbMin)
    (dbToLinear ops agc.rxGainDbMax)
  if Echoes w ∧ echoStreak ≥ agc.echoSyncThresh ∧
      ops.lt (dbToLinear ops agc.txGainDbMin) audio.txGain then
    ⟨0, agc.calibTxGainStep, agc.calibRxGainStep,
      { audio with txGain := lowerGain ops audio.txGain (ops.lit 3) agc.txGainDbMin }⟩
  else if w.dSync = 0 ∧ ops.lt agc.rmsMin rms ∧ ops.lt rms agc.rmsMax ∧
      ops.lt (dbToLinear ops agc.rxGainDbMin) audio.rxGain then
    ⟨echoStreak, agc.calibTxGainStep, agc.calibRxGainStep,
      { audio with rxGain := lowerGain ops audio.rxGain (ops.lit 1.5) agc.rxGainDbMin }⟩
  else if agc.calibTxGainStep < 5 ∧ !ops.eq newTx audio.txGain then
    ⟨echoStreak, agc.calibTxGainStep + 1, agc.calibRxGainStep, { audio with txGain := newTx }⟩
  else if agc.calibRxGainStep < 5 ∧ !ops.eq newRx audio.rxGain then
    ⟨echoStreak, agc.calibTxGainStep, agc.calibRxGainStep + 1, { audio with rxGain := newRx }⟩
  else if ops.le (ops.mul (dbToLinear ops agc.txGainDbMax) (ops.lit 0.95)) audio.txGain ∧
      ops.le (ops.mul (dbToLinear ops agc.rxGainDbMax) (ops.lit 0.95)) audio.rxGain then
    ⟨echoStreak, 0, 0, ⟨ops.lit 0.5, ops.lit 4⟩⟩
  else ⟨echoStreak, agc.calibTxGainStep, agc.calibRxGainStep, audio⟩

def calibInterval (agc : AGCState F) : ℤ := if agc.calibSecsElapsed < 5 then 1 else 2

/-- Every path behind the first test writes `last_adjust`. -/
def agcCalibrate (agc : AGCState F) (audio : AudioState F) (call : Call F) : Outcome F :=
  let ops := call.ops
  let rms := call.inRms
  let w := window false agc call.stats
  if call.now - agc.lastAdjust < calibInterval agc then ⟨agc, audio, quiet⟩
  else if w.dPkts > 0 ∧ ops.le agc.rmsMin rms ∧ ops.le rms agc.rmsMax then
    ⟨{ sample agc call with
        bestRms := rms, bestTxGain := audio.txGain, bestRxGain := audio.rxGain,
        calibDone := true, lastAdjust := call.now }, audio, ⟨some w, false, false⟩⟩
  else if ops.lt agc.rmsMax rms ∧ ops.lt (dbToLinear ops agc.rxGainDbMin) audio.rxGain then
    ⟨{ sample agc call with lastAdjust := call.now },
      { audio with rxGain := lowerGain ops audio.rxGain (ops.lit 3) agc.rxGainDbMin },
      ⟨some w, false, false⟩⟩
  else
    let found := searchGains agc audio call w
    ⟨{ sample agc call with
        echoStreak := found.echoStreak, calibTxGainStep := found.calibTxGainStep,
        calibRxGainStep := found.calibRxGainStep, lastAdjust := call.now },
      found.audio, ⟨some w, false, false⟩⟩

/-- The conditions that release locked gains. -/
def unlockTest (agc : AGCState F) (call : Call F) (w : Window) : Bool :=
  let ops := call.ops
  let currentRssiDb := ops.mul (ops.lit 20) (ops.log10f (ops.add call.inRms (ops.lit 1e-12)))
  let lockedRssiDb := ops.mul (ops.lit 20) (ops.log10f (ops.add agc.bestRms (ops.lit 1e-12)))
  w.dCorrupt.toNat ≥ agc.unlockCorruptThresh ||
    ops.le (ops.ofInt agc.unlockRssiDropDb) (ops.sub lockedRssiDb currentRssiDb) ||
    (w.dSync == 0 && w.dPkts == 0) ||
    (decide (w.dPkts > 10) &&
      ops.lt (ops.lit 0.2) (ops.div (ops.ofInt w.dCorrupt.toNat) (ops.ofInt w.dPkts.toNat)))

def release (agc : AGCState F) (now : ℤ) : AGCState F :=
  { agc with
    locked := false, lockGoodStreak := 0, phase := .steady, settleSecs := 5, lastUnlockTime := now }

/-- `good_this_window`. -/
def goodThisWindow (w : Window) : ℤ :=
  if w.dPkts > w.dCorrupt then toInt (w.dPkts - w.dCorrupt).toNat else 0

/-- A window whose packets count for the streak. -/
def Good (w : Window) : Prop := goodThisWindow w > 0 ∧ w.dCorrupt = 0

instance (w : Window) : Decidable (Good w) := inferInstanceAs (Decidable (_ ∧ _))

/-- `lock_good_streak` behind a window: a corrupted packet ends the streak. -/
def streakAfter (streak : ℤ) (w : Window) : ℤ :=
  if Good w then toInt (streak + goodThisWindow w) else if w.dCorrupt > 0 then 0 else streak

def steadyEchoStreak (agc : AGCState F) (w : Window) : ℤ :=
  if w.dPkts > 0 then 0
  else if w.dSync > 0 ∧ w.dCorrupt ≥ w.dSync then agc.echoStreak + 1
  else agc.echoStreak

/-- The streak is cleared when it triggers an adjustment. -/
def clearedEchoStreak (agc : AGCState F) (w : Window) : ℤ :=
  if steadyEchoStreak agc w ≥ agc.echoSyncThresh then 0 else steadyEchoStreak agc w

/-- The gains after the adjustments at the end of `agc_steady`. -/
def steadyGains (agc : AGCState F) (audio : AudioState F) (call : Call F) (w : Window) :
    AudioState F :=
  let ops := call.ops
  let rms := call.inRms
  let powerDb := ops.mul (ops.lit 10) (ops.log10f (ops.add agc.powerAvg (ops.lit 1e-12)))
  let errorDb := ops.sub agc.targetDb powerDb
  let gainDbStep := ops.mul (ops.mul (ops.lit 4) agc.loopBw) errorDb
  let echo := steadyEchoStreak agc w ≥ agc.echoSyncThresh
  let newRx := dbToLinear ops (agcClamp ops (ops.add (linearToDb ops audio.rxGain) gainDbStep)
    agc.rxGainDbMin agc.rxGainDbMax)
  let silent := w.dSync = 0 ∧ w.dPkts = 0 ∧ ops.lt rms agc.rmsMin
  if echo ∧ ops.lt (dbToLinear ops agc.txGainDbMin) audio.txGain then
    { audio with txGain := lowerGain ops audio.txGain (ops.lit 3) agc.txGainDbMin }
  else if echo ∧ ops.lt rms agc.rmsMin ∧
      ops.lt audio.rxGain (dbToLinear ops agc.rxGainDbMax) then
    { audio with rxGain := raiseGain ops audio.rxGain (ops.lit 3) agc.rxGainDbMax }
  else if ops.lt agc.rmsMax rms ∧ ops.lt (dbToLinear ops agc.rxGainDbMin) audio.rxGain then
    { audio with rxGain := lowerGain ops audio.rxGain (ops.lit 3) agc.rxGainDbMin }
  else if ops.lt (ops.lit 1) (ops.fabsf errorDb) ∧ !ops.eq newRx audio.rxGain then
    { audio with rxGain := newRx }
  else if silent ∧ ops.lt audio.rxGain (dbToLinear ops agc.rxGainDbMax) then
    { audio with rxGain := raiseGain ops audio.rxGain (ops.lit 3) agc.rxGainDbMax }
  else if silent ∧ ops.lt audio.txGain (dbToLinear ops agc.txGainDbMax) then
    { audio with txGain := raiseGain ops audio.txGain (ops.lit 1.5) agc.txGainDbMax }
  else audio

/-- The part of `agc_steady` for gains that are not locked: the streak of good packets, the
lock, and the adjustments. -/
def trackGains (agc : AGCState F) (audio : AudioState F) (call : Call F) (w : Window)
    (unlocked : Bool) : Outcome F :=
  let ops := call.ops
  let streak := streakAfter agc.lockGoodStreak w
  if Good w ∧ streak ≥ agc.lockThreshold ∧ !agc.locked ∧
      ¬ (agc.lastUnlockTime > 0 ∧ call.now - agc.lastUnlockTime < agc.unlockCooldownSecs) then
    ⟨{ agc with
        locked := true
        lockedTxGainDb := linearToDb ops audio.txGain
        lockedRxGainDb := linearToDb ops audio.rxGain
        bestRms := call.inRms
        phase := .locked
        lockGoodStreak := 0
        lastAdjust := call.now }, audio, ⟨some w, unlocked, true⟩⟩
  else
    ⟨{ agc with
        lockGoodStreak := streak, echoStreak := clearedEchoStreak agc w, lastAdjust := call.now },
      steadyGains agc audio call w, ⟨some w, unlocked, false⟩⟩

def agcSteady (agc : AGCState F) (audio : AudioState F) (call : Call F) : Outcome F :=
  let w := window true agc call.stats
  if call.now - agc.lastAdjust < agc.settleSecs then ⟨agc, audio, quiet⟩
  else if agc.locked then
    if unlockTest (sample agc call) call w then
      trackGains (release (sample agc call) call.now) audio call w true
    else
      ⟨{ sample agc call with lastAdjust := call.now, lockGoodStreak := 0 }, audio,
        ⟨some w, false, false⟩⟩
  else trackGains (sample agc call) audio call w false

/-- The clock of the calibration. -/
def elapse (agc : AGCState F) (now : ℤ) : AGCState F :=
  let calibStartTime := if agc.calibStartTime = 0 then now else agc.calibStartTime
  { agc with calibStartTime, calibSecsElapsed := toInt (now - calibStartTime) }

def endCalibration (agc : AGCState F) : AGCState F :=
  if agc.phase = .calibrating ∧ (agc.calibSecsElapsed ≥ 20 ∨ agc.calibDone) then
    { agc with phase := .steady, settleSecs := 5 }
  else agc

def agcTune (agc : AGCState F) (audio : AudioState F) (call : Call F) : Outcome F :=
  if !agc.enabled ∨ call.agcFreeze then ⟨agc, audio, quiet⟩
  else
    let agc := endCalibration (elapse agc call.now)
    if agc.phase = .calibrating then agcCalibrate agc audio call else agcSteady agc audio call

/-- A call with what it reported and the gains that it left. -/
structure Entry (F : Type) where
  call : Call F
  report : Report
  audio : AudioState F

/-- The gain control after some calls, with its history, newest call first. -/
structure Tuned (F : Type) where
  agc : AGCState F
  audio : AudioState F
  trace : List (Entry F)

def tuneStep (s : Tuned F) (call : Call F) : Tuned F :=
  let o := agcTune s.agc s.audio call
  ⟨o.agc, o.audio, ⟨call, o.report, o.audio⟩ :: s.trace⟩

/-- After `agc_init`, with the gains found there. -/
def tuned (ops : FloatOps F) (enabled : Bool) (audio : AudioState F) : Tuned F :=
  ⟨agcInit ops enabled, audio, []⟩

end EchoProtocol.Agc
