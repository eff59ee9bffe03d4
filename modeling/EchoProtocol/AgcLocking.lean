import EchoProtocol.Agc
import EchoProtocol.Runs

/-!
# When the gains are locked

The lock of the gain control is a small machine of its own: a streak of good packets, a flag
that the phase repeats, and the time of the last release. What a call does to it is said once,
in `Moves`, and the discipline of locking holds along every run.
-/
namespace EchoProtocol.Agc
open Runs

variable {F : Type}

/-- The part of the state that the lock depends on. -/
structure LockState where
  phase : AGCPhase
  locked : Bool
  lockGoodStreak : ℤ
  lockThreshold : ℤ
  lastUnlockTime : ℤ
  unlockCooldownSecs : ℤ
  lastRxPackets : UInt64

def lockState (agc : AGCState F) : LockState where
  phase := agc.phase
  locked := agc.locked
  lockGoodStreak := agc.lockGoodStreak
  lockThreshold := agc.lockThreshold
  lastUnlockTime := agc.lastUnlockTime
  unlockCooldownSecs := agc.unlockCooldownSecs
  lastRxPackets := agc.lastRxPackets

/-- The lock after a window was sampled and the gains, if need be, released. -/
def opened (l : LockState) (call : Call F) : Bool → LockState
  | true => { l with
      phase := .steady, locked := false, lockGoodStreak := 0, lastUnlockTime := call.now,
      lastRxPackets := call.stats.rxPackets }
  | false => { l with lastRxPackets := call.stats.rxPackets }

/-- A window of the steady state, with the packets since the last sample. -/
def Sampled (l : LockState) (call : Call F) (w : Window) : Prop :=
  w.steady = true ∧ w.dPkts = call.stats.rxPackets - l.lastRxPackets

/-- All that a call can do to the lock. -/
inductive Moves (l : LockState) (audio : AudioState F) (call : Call F) : Outcome F → Prop
  | idle {o} (hreport : o.report = quiet) (hlock : lockState o.agc = l)
      (hgains : o.audio = audio) : Moves l audio call o
  | calibrated {o} {w : Window} (hphase : l.phase = .calibrating) (hw : w.steady = false)
      (hreport : o.report = ⟨some w, false, false⟩)
      (hlock : lockState o.agc = opened l call false) : Moves l audio call o
  | held {o} {w : Window} (hlocked : l.locked = true) (hw : Sampled l call w)
      (hreport : o.report = ⟨some w, false, false⟩)
      (hlock : lockState o.agc = { opened l call false with lockGoodStreak := 0 })
      (hgains : o.audio = audio) : Moves l audio call o
  | tracked {o} {w : Window} (hphase : l.phase ≠ .calibrating) (hw : Sampled l call w)
      (hreport : o.report = ⟨some w, l.locked, false⟩)
      (hlock : lockState o.agc = { opened l call l.locked with
        lockGoodStreak := streakAfter (opened l call l.locked).lockGoodStreak w }) :
      Moves l audio call o
  | taken {o} {w : Window} (hw : Sampled l call w) (hgood : Good w)
      (hstreak : l.lockThreshold ≤ streakAfter (opened l call l.locked).lockGoodStreak w)
      (hcool : ¬ ((opened l call l.locked).lastUnlockTime > 0 ∧
        call.now - (opened l call l.locked).lastUnlockTime < l.unlockCooldownSecs))
      (hreport : o.report = ⟨some w, l.locked, true⟩)
      (hlock : lockState o.agc = { opened l call l.locked with
        phase := .locked, locked := true, lockGoodStreak := 0 })
      (hgains : o.audio = audio) : Moves l audio call o

theorem opened_lockThreshold (l : LockState) (call : Call F) (released : Bool) :
    (opened l call released).lockThreshold = l.lockThreshold := by
  cases released <;> rfl

theorem opened_unlockCooldownSecs (l : LockState) (call : Call F) (released : Bool) :
    (opened l call released).unlockCooldownSecs = l.unlockCooldownSecs := by
  cases released <;> rfl

theorem opened_lastRxPackets (l : LockState) (call : Call F) (released : Bool) :
    (opened l call released).lastRxPackets = call.stats.rxPackets := by
  cases released <;> rfl

theorem opened_locked (l : LockState) (call : Call F) :
    (opened l call l.locked).locked = false := by
  cases h : l.locked with
  | false => exact h
  | true => rfl

theorem agcCalibrate_moves {agc : AGCState F} (audio : AudioState F) (call : Call F)
    (hphase : agc.phase = .calibrating) :
    Moves (lockState agc) audio call (agcCalibrate agc audio call) := by
  simp only [agcCalibrate]
  split_ifs with hwait hgood hclip
  · exact .idle rfl rfl rfl
  · exact .calibrated hphase rfl rfl rfl
  · exact .calibrated hphase rfl rfl rfl
  · exact .calibrated hphase rfl rfl rfl

theorem trackGains_moves {l : LockState} {agc : AGCState F} {w : Window} {released : Bool}
    (audio : AudioState F) {call : Call F} (hphase : l.phase ≠ .calibrating)
    (hw : Sampled l call w) (hreleased : l.locked = released)
    (hagc : lockState agc = opened l call released) :
    Moves l audio call (trackGains agc audio call w released) := by
  rw [← hreleased] at hagc ⊢
  have hstreak : agc.lockGoodStreak = (opened l call l.locked).lockGoodStreak :=
    congrArg LockState.lockGoodStreak hagc
  have hthreshold : agc.lockThreshold = l.lockThreshold :=
    (congrArg LockState.lockThreshold hagc).trans (opened_lockThreshold l call _)
  have hunlock : agc.lastUnlockTime = (opened l call l.locked).lastUnlockTime :=
    congrArg LockState.lastUnlockTime hagc
  have hcooldown : agc.unlockCooldownSecs = l.unlockCooldownSecs :=
    (congrArg LockState.unlockCooldownSecs hagc).trans (opened_unlockCooldownSecs l call _)
  simp only [trackGains]
  rw [hstreak]
  split_ifs with htake
  · obtain ⟨hgood, hreach, -, hcool⟩ := htake
    rw [hunlock, hcooldown] at hcool
    refine .taken hw hgood (hthreshold ▸ hreach) hcool rfl ?_ rfl
    rw [← hagc]
    simp [lockState]
  · refine .tracked hphase hw rfl ?_
    rw [← hagc]
    rfl

theorem agcSteady_moves {agc : AGCState F} (audio : AudioState F) (call : Call F)
    (hphase : agc.phase ≠ .calibrating) :
    Moves (lockState agc) audio call (agcSteady agc audio call) := by
  have hw : Sampled (lockState agc) call (window true agc call.stats) := ⟨rfl, rfl⟩
  simp only [agcSteady]
  split_ifs with hwait hlocked hunlock
  · exact .idle rfl rfl rfl
  · refine trackGains_moves audio hphase hw hlocked ?_
    simp [lockState, release, sample, opened]
  · exact .held hlocked hw rfl rfl rfl
  · exact trackGains_moves audio hphase hw (Bool.eq_false_iff.mpr hlocked) rfl

theorem agcTune_moves (agc : AGCState F) (audio : AudioState F) (call : Call F) :
    Moves (lockState agc) audio call (agcTune agc audio call) ∨
      agc.phase = .calibrating ∧
        Moves { lockState agc with phase := .steady } audio call (agcTune agc audio call) := by
  simp only [agcTune]
  by_cases hoff : (!agc.enabled) = true ∨ call.agcFreeze = true
  · rw [if_pos hoff]
    exact Or.inl (.idle rfl rfl rfl)
  · rw [if_neg hoff]
    by_cases hend : agc.phase = .calibrating ∧
        ((elapse agc call.now).calibSecsElapsed ≥ 20 ∨ agc.calibDone = true)
    · have hagc : endCalibration (elapse agc call.now) =
          { elapse agc call.now with phase := .steady, settleSecs := 5 } := if_pos hend
      have hsteady : (endCalibration (elapse agc call.now)).phase ≠ .calibrating := by
        rw [hagc]
        exact AGCPhase.noConfusion
      rw [if_neg hsteady]
      refine Or.inr ⟨hend.1, ?_⟩
      have hmoves := agcSteady_moves audio call hsteady
      rw [hagc] at hmoves ⊢
      exact hmoves
    · have hagc : endCalibration (elapse agc call.now) = elapse agc call.now := if_neg hend
      rw [hagc]
      left
      split_ifs with hphase
      · exact agcCalibrate_moves audio call hphase
      · exact agcSteady_moves audio call hphase

/-- The packets counted in steady windows since the latest of the start, the last release (its
own window included) and the end of the last window with a corrupted packet; newest call
first. -/
def counted : List (Entry F) → ℕ
  | [] => 0
  | e :: past =>
    match e.report.window with
    | none => counted past
    | some w =>
      let here := if w.steady then w.dPkts.toNat else 0
      if w.dCorrupt ≠ 0 then 0 else if e.report.unlocked then here else here + counted past

theorem counted_window (call : Call F) (audio : AudioState F) (w : Window)
    (unlocked locked : Bool) (past : List (Entry F)) :
    counted (⟨call, ⟨some w, unlocked, locked⟩, audio⟩ :: past) =
      if w.dCorrupt ≠ 0 then 0
      else if unlocked then (if w.steady then w.dPkts.toNat else 0)
      else (if w.steady then w.dPkts.toNat else 0) + counted past := rfl

theorem goodThisWindow_clean {w : Window} (hpkts : w.dPkts.toNat < 2 ^ 31) (hclean : w.dCorrupt = 0) :
    goodThisWindow w = w.dPkts.toNat := by
  unfold goodThisWindow toInt
  rw [hclean, UInt64.sub_zero]
  split_ifs with hpos
  · exact Int.bmod_eq_of_le (by omega) (by omega)
  · have hzero : w.dPkts = 0 := by
      rw [gt_iff_lt, UInt64.lt_iff_toNat_lt] at hpos
      exact UInt64.toNat_inj.mp (by simpa using hpos)
    rw [hzero]
    rfl

theorem streakAfter_eq {streak : ℤ} {w : Window} (hstreak : 0 ≤ streak)
    (hbound : streak + w.dPkts.toNat < 2 ^ 31) :
    streakAfter streak w = if w.dCorrupt ≠ 0 then 0 else streak + w.dPkts.toNat := by
  unfold streakAfter
  by_cases hclean : w.dCorrupt = 0
  · have hgood := goodThisWindow_clean (w := w) (by omega) hclean
    rw [if_neg (not_not.mpr hclean)]
    split_ifs with h hcorrupt
    · rw [hgood]
      exact Int.bmod_eq_of_le (by omega) (by omega)
    · exact absurd hcorrupt (by rw [hclean]; decide)
    · have hnone : ¬ goodThisWindow w > 0 := fun hpos => h ⟨hpos, hclean⟩
      omega
  · have hcorrupt : w.dCorrupt > 0 := UInt64.pos_iff_ne_zero.mpr hclean
    rw [if_neg fun h => hclean h.2, if_pos hcorrupt, if_pos hclean]

/-- The order of two calls: neither the clock nor the counters go back. -/
def Call.Before (c d : Call F) : Prop :=
  c.now ≤ d.now ∧ c.stats.rxSyncFound ≤ d.stats.rxSyncFound ∧
    c.stats.rxPackets ≤ d.stats.rxPackets ∧ c.stats.rxCorrupted ≤ d.stats.rxCorrupted

/-- What the surroundings of a run provide. -/
structure Proper (calls : List (Call F)) : Prop where
  clock : ∀ c ∈ calls, 0 < c.now
  packets : ∀ c ∈ calls, c.stats.rxPackets.toNat < 2 ^ 31
  ordered : calls.Pairwise Call.Before

/-- The same for one call after a history. -/
def Follows (s : Tuned F) (call : Call F) : Prop :=
  0 < call.now ∧ call.stats.rxPackets.toNat < 2 ^ 31 ∧ ∀ e ∈ s.trace, e.call.Before call

theorem Proper.meets {calls : List (Call F)} (h : Proper calls) {s : Tuned F}
    (hs : ∀ e ∈ s.trace, ∀ c ∈ calls, e.call.Before c) : Meets tuneStep Follows s calls := by
  induction calls generalizing s with
  | nil => trivial
  | cons c calls ih =>
    obtain ⟨hnext, hrest⟩ := List.pairwise_cons.mp h.ordered
    refine ⟨⟨h.clock c List.mem_cons_self, h.packets c List.mem_cons_self,
      fun e he => hs e he c List.mem_cons_self⟩, ih ?_ ?_⟩
    · exact ⟨fun d hd => h.clock d (List.mem_cons_of_mem c hd),
        fun d hd => h.packets d (List.mem_cons_of_mem c hd), hrest⟩
    · intro e he d hd
      rcases List.mem_cons.mp he with rfl | he
      · exact hnext d hd
      · exact hs e he d (List.mem_cons_of_mem c hd)

/-- What the lock knows of the history. -/
structure LockInvariant (l : LockState) (trace : List (Entry F)) : Prop where
  phase : l.phase = .locked ↔ l.locked = true
  calibrating : l.phase = .calibrating → counted trace = 0
  threshold : l.lockThreshold = 20
  cooldown : l.unlockCooldownSecs = 30
  streak : l.locked = false → l.lockGoodStreak = counted trace
  counted_le : counted trace ≤ l.lastRxPackets.toNat
  packets : l.lastRxPackets = 0 ∨ ∃ e ∈ trace, l.lastRxPackets = e.call.stats.rxPackets
  released : ∀ e ∈ trace, e.report.unlocked = true →
    0 < e.call.now ∧ e.call.now ≤ l.lastUnlockTime

section Step

variable {s : Tuned F} {call : Call F} {l : LockState} (hinv : LockInvariant l s.trace)
  (hcall : Follows s call)

include hinv hcall

theorem LockInvariant.sampled_le : l.lastRxPackets ≤ call.stats.rxPackets := by
  rcases hinv.packets with hzero | ⟨e, he, hlast⟩
  · rw [hzero]
    exact UInt64.zero_le
  · rw [hlast]
    exact (hcall.2.2 e he).2.2.1

theorem LockInvariant.pkts {w : Window} (hw : Sampled l call w) :
    w.dPkts.toNat + l.lastRxPackets.toNat = call.stats.rxPackets.toNat := by
  have hle := hinv.sampled_le hcall
  rw [hw.2, UInt64.toNat_sub_of_le _ _ hle]
  exact Nat.sub_add_cancel (UInt64.le_iff_toNat_le.mp hle)

theorem LockInvariant.streak_counted {w : Window} (hw : Sampled l call w) {locked : Bool}
    (audio : AudioState F) :
    streakAfter (opened l call l.locked).lockGoodStreak w =
      counted (⟨call, ⟨some w, l.locked, locked⟩, audio⟩ :: s.trace) := by
  have hpkts := hinv.pkts hcall hw
  have hle := hinv.counted_le
  have hbound := hcall.2.1
  rw [counted_window, if_pos hw.1]
  cases hl : l.locked with
  | true =>
    have hzero : (opened l call true).lockGoodStreak = 0 := rfl
    rw [hzero, streakAfter_eq le_rfl (by omega), if_pos rfl]
    split_ifs <;> simp
  | false =>
    have hsame : (opened l call false).lockGoodStreak = counted s.trace := hinv.streak hl
    rw [hsame, streakAfter_eq (by omega) (by omega), if_neg Bool.false_ne_true]
    split_ifs
    · rfl
    · push_cast
      ring

theorem LockInvariant.counted_le_packets {w : Window} (hw : w.steady = true → Sampled l call w)
    (audio : AudioState F) (unlocked locked : Bool) :
    counted (⟨call, ⟨some w, unlocked, locked⟩, audio⟩ :: s.trace) ≤ call.stats.rxPackets.toNat := by
  have hle := hinv.counted_le
  have hlast := UInt64.le_iff_toNat_le.mp (hinv.sampled_le hcall)
  rw [counted_window]
  by_cases hsteady : w.steady = true
  · have hpkts := hinv.pkts hcall (hw hsteady)
    split_ifs <;> omega
  · split_ifs <;> omega

theorem LockInvariant.released_opened {e : Entry F} (he : e ∈ s.trace)
    (hunlocked : e.report.unlocked = true) (released : Bool) :
    0 < e.call.now ∧ e.call.now ≤ (opened l call released).lastUnlockTime := by
  obtain ⟨hpos, hle⟩ := hinv.released e he hunlocked
  cases released with
  | false => exact ⟨hpos, hle⟩
  | true => exact ⟨hpos, (hcall.2.2 e he).1⟩

omit hcall in
theorem LockInvariant.opened_phase (hphase : l.phase ≠ .calibrating) :
    (opened l call l.locked).phase = .steady := by
  cases hl : l.locked with
  | true => rfl
  | false =>
    have hnot : l.phase ≠ .locked := fun h => absurd (hinv.phase.mp h) (by rw [hl]; decide)
    change l.phase = .steady
    cases h : l.phase with
    | calibrating => exact absurd h hphase
    | steady => rfl
    | locked => exact absurd h hnot

theorem LockInvariant.window {l' : LockState} {w : Window} {released locked : Bool}
    (audio : AudioState F) (hw : w.steady = true → Sampled l call w)
    (hphase : l'.phase = .locked ↔ l'.locked = true)
    (hcalibrating : l'.phase = .calibrating →
      counted (⟨call, ⟨some w, released, locked⟩, audio⟩ :: s.trace) = 0)
    (hthreshold : l'.lockThreshold = l.lockThreshold)
    (hcooldown : l'.unlockCooldownSecs = l.unlockCooldownSecs)
    (hpackets : l'.lastRxPackets = call.stats.rxPackets)
    (hunlock : l'.lastUnlockTime = (opened l call released).lastUnlockTime)
    (hstreak : l'.locked = false → l'.lockGoodStreak =
      counted (⟨call, ⟨some w, released, locked⟩, audio⟩ :: s.trace)) :
    LockInvariant l' (⟨call, ⟨some w, released, locked⟩, audio⟩ :: s.trace) := by
  refine ⟨hphase, hcalibrating, hthreshold.trans hinv.threshold, hcooldown.trans hinv.cooldown,
    hstreak, ?_, Or.inr ⟨_, List.mem_cons_self, hpackets⟩, fun e he hunlocked => ?_⟩
  · rw [hpackets]
    exact hinv.counted_le_packets hcall hw audio released locked
  · rw [hunlock]
    rcases List.mem_cons.mp he with rfl | he
    · have hreleased : released = true := hunlocked
      rw [hreleased]
      exact ⟨hcall.1, le_rfl⟩
    · exact hinv.released_opened hcall he hunlocked released

theorem LockInvariant.step {o : Outcome F} {audio : AudioState F} (hmove : Moves l audio call o) :
    LockInvariant (lockState o.agc) (⟨call, o.report, o.audio⟩ :: s.trace) := by
  cases hmove with
  | idle hreport hlock _ =>
    rw [hreport, hlock]
    refine ⟨hinv.phase, hinv.calibrating, hinv.threshold, hinv.cooldown, hinv.streak,
      hinv.counted_le, ?_, fun e he hunlocked => ?_⟩
    · exact hinv.packets.imp_right fun ⟨e, he, hlast⟩ => ⟨e, List.mem_cons_of_mem _ he, hlast⟩
    · rcases List.mem_cons.mp he with rfl | he
      · exact absurd hunlocked Bool.false_ne_true
      · exact hinv.released e he hunlocked
  | @calibrated w hphase hw hreport hlock =>
    have hnone : counted (⟨call, ⟨some w, false, false⟩, o.audio⟩ :: s.trace) = 0 := by
      rw [counted_window, hw, hinv.calibrating hphase]
      simp
    have hunlocked : l.locked = false := by
      refine Bool.eq_false_iff.mpr fun h => ?_
      rw [hinv.phase.mpr h] at hphase
      exact absurd hphase (by decide)
    rw [hreport, hlock]
    refine hinv.window hcall _ (fun h => absurd (hw.symm.trans h) Bool.false_ne_true) hinv.phase
      (fun _ => hnone) rfl rfl rfl rfl fun _ => ?_
    rw [hnone]
    exact (hinv.streak hunlocked).trans (congrArg _ (hinv.calibrating hphase))
  | held hlocked hw hreport hlock _ =>
    rw [hreport, hlock]
    refine hinv.window hcall _ (fun _ => hw) hinv.phase (fun h => ?_) rfl rfl rfl rfl fun h => ?_
    · have hphase : l.phase = .locked := hinv.phase.mpr hlocked
      exact absurd (hphase.symm.trans h) (by decide)
    · exact absurd (hlocked.symm.trans h) (by decide)
  | tracked hphase hw hreport hlock =>
    have hsteady : (opened l call l.locked).phase = .steady := hinv.opened_phase hphase
    have hunlocked := opened_locked l call
    rw [hreport, hlock]
    refine hinv.window hcall _ (fun _ => hw) ?_ (fun h => ?_)
      (opened_lockThreshold l call _) (opened_unlockCooldownSecs l call _)
      (opened_lastRxPackets l call _) rfl fun _ => hinv.streak_counted hcall hw o.audio
    · simp [hsteady, hunlocked]
    · exact absurd (hsteady.symm.trans h) (by decide)
  | taken hw hgood hstreak hcool hreport hlock _ =>
    rw [hreport, hlock]
    exact hinv.window hcall _ (fun _ => hw) (by simp) (fun h => AGCPhase.noConfusion h)
      (opened_lockThreshold l call _) (opened_unlockCooldownSecs l call _)
      (opened_lastRxPackets l call _) rfl fun h => Bool.noConfusion h

end Step

theorem LockInvariant.ended {l : LockState} {trace : List (Entry F)}
    (h : LockInvariant l trace) (hphase : l.phase = .calibrating) :
    LockInvariant { l with phase := .steady } trace := by
  refine ⟨iff_of_false AGCPhase.noConfusion fun hl => ?_, fun h => AGCPhase.noConfusion h,
    h.threshold, h.cooldown, h.streak, h.counted_le, h.packets, h.released⟩
  exact absurd (hphase.symm.trans (h.phase.mpr hl)) (by decide)

/-- The last call of a history that locked the gains. -/
def lastLock (trace : List (Entry F)) : Option (Entry F) := trace.find? (·.report.locked)

structure Disciplined (s : Tuned F) : Prop where
  constants : s.agc.lockThreshold = 20 ∧ s.agc.unlockCooldownSecs = 30
  phase : s.agc.phase = .locked ↔ s.agc.locked = true
  gains : s.agc.locked = true → (lastLock s.trace).map Entry.audio = some s.audio
  cooldown : s.trace.Pairwise fun later earlier => earlier.report.unlocked = true →
    later.report.locked = true → earlier.call.now + s.agc.unlockCooldownSecs ≤ later.call.now
  together : ∀ e ∈ s.trace, ¬ (e.report.unlocked = true ∧ e.report.locked = true)
  streak : ∀ e past, e :: past <:+ s.trace → e.report.locked = true →
    s.agc.lockThreshold ≤ counted (e :: past)

section Call

variable {s : Tuned F} {call : Call F} {l : LockState} {audio : AudioState F} {o : Outcome F}

theorem LockInvariant.taken (hinv : LockInvariant l s.trace) (hcall : Follows s call)
    (hmove : Moves l audio call o) (hlocked : o.report.locked = true) :
    o.report.unlocked = false ∧ o.audio = audio ∧ (lockState o.agc).locked = true ∧
      (∀ e ∈ s.trace, e.report.unlocked = true → e.call.now + 30 ≤ call.now) ∧
      20 ≤ counted (⟨call, o.report, o.audio⟩ :: s.trace) := by
  cases hmove with
  | idle hreport _ _ =>
    rw [hreport] at hlocked
    exact Bool.noConfusion hlocked
  | calibrated _ _ hreport _ =>
    rw [hreport] at hlocked
    exact Bool.noConfusion hlocked
  | held _ _ hreport _ _ =>
    rw [hreport] at hlocked
    exact Bool.noConfusion hlocked
  | tracked _ _ hreport _ =>
    rw [hreport] at hlocked
    exact Bool.noConfusion hlocked
  | @taken w hw hgood hstreak hcool hreport hlock hgains =>
    have hfree : l.locked = false := by
      -- a release in this very call would have restarted the cooldown
      refine Bool.eq_false_iff.mpr fun hl => hcool ?_
      have hnow : (opened l call l.locked).lastUnlockTime = call.now := by rw [hl]; rfl
      have hcooldown := hinv.cooldown
      have hpos := hcall.1
      omega
    rw [hreport, hlock]
    refine ⟨hfree, hgains, rfl, fun e he hunlocked => ?_, ?_⟩
    · obtain ⟨hpos, hle⟩ := hinv.released e he hunlocked
      have hsame : (opened l call l.locked).lastUnlockTime = l.lastUnlockTime := by rw [hfree]; rfl
      have hcooldown := hinv.cooldown
      omega
    · have hcount : streakAfter (opened l call l.locked).lockGoodStreak w =
          counted (⟨call, ⟨some w, l.locked, true⟩, o.audio⟩ :: s.trace) :=
        hinv.streak_counted hcall hw o.audio
      rw [hcount, hinv.threshold] at hstreak
      exact_mod_cast hstreak

theorem LockInvariant.locked_after (hinv : LockInvariant l s.trace) (hmove : Moves l audio call o)
    (hlocked : o.agc.locked = true) :
    o.report.locked = true ∨ l.locked = true ∧ o.report.locked = false ∧ o.audio = audio := by
  have hflag : (lockState o.agc).locked = true := hlocked
  cases hmove with
  | idle hreport hlock hgains =>
    rw [hlock] at hflag
    exact Or.inr ⟨hflag, by rw [hreport]; rfl, hgains⟩
  | calibrated hphase _ _ hlock =>
    rw [hlock] at hflag
    have hlockedPhase : l.phase = .locked := hinv.phase.mpr hflag
    exact absurd (hphase.symm.trans hlockedPhase) (by decide)
  | held hheld _ hreport _ hgains => exact Or.inr ⟨hheld, by rw [hreport], hgains⟩
  | tracked _ _ _ hlock =>
    rw [hlock] at hflag
    exact absurd ((opened_locked l call).symm.trans hflag) (by decide)
  | taken _ _ _ _ hreport _ _ => exact Or.inl (by rw [hreport])

end Call

theorem exists_moves {s : Tuned F} (hinv : LockInvariant (lockState s.agc) s.trace)
    (call : Call F) : ∃ l, LockInvariant l s.trace ∧ l.locked = s.agc.locked ∧
      Moves l s.audio call (agcTune s.agc s.audio call) := by
  rcases agcTune_moves s.agc s.audio call with hmove | ⟨hphase, hmove⟩
  · exact ⟨_, hinv, rfl, hmove⟩
  · exact ⟨_, hinv.ended hphase, rfl, hmove⟩

theorem disciplined_step {s : Tuned F} {call : Call F}
    (h : LockInvariant (lockState s.agc) s.trace ∧ Disciplined s) (hcall : Follows s call) :
    LockInvariant (lockState (tuneStep s call).agc) (tuneStep s call).trace ∧
      Disciplined (tuneStep s call) := by
  obtain ⟨hinv, hdis⟩ := h
  obtain ⟨l, hl, hflag, hmove⟩ := exists_moves hinv call
  have hnext : LockInvariant (lockState (tuneStep s call).agc) (tuneStep s call).trace :=
    hl.step hcall hmove
  obtain ⟨hthreshold, hcooldown⟩ := hdis.constants
  have hthreshold' : (tuneStep s call).agc.lockThreshold = 20 := hnext.threshold
  have hcooldown' : (tuneStep s call).agc.unlockCooldownSecs = 30 := hnext.cooldown
  refine ⟨hnext, ⟨hthreshold', hcooldown'⟩, hnext.phase, fun hlocked => ?_, ?_, fun e he => ?_,
    fun e past hsuffix hlocked => ?_⟩
  · rcases hl.locked_after hmove hlocked with htaken | ⟨hheld, hfree, hgains⟩
    · have hfind : lastLock (tuneStep s call).trace =
          some ⟨call, (agcTune s.agc s.audio call).report, (agcTune s.agc s.audio call).audio⟩ :=
        List.find?_cons_of_pos htaken
      rw [hfind]
      rfl
    · have hfind : lastLock (tuneStep s call).trace = lastLock s.trace :=
        List.find?_cons_of_neg (by simp [hfree])
      rw [hfind, hdis.gains (hflag.symm.trans hheld)]
      exact congrArg some hgains.symm
  · refine List.pairwise_cons.mpr ⟨fun e he hunlocked hlocked => ?_, ?_⟩
    · rw [hcooldown']
      exact (hl.taken hcall hmove hlocked).2.2.2.1 e he hunlocked
    · rw [hcooldown', ← hcooldown]
      exact hdis.cooldown
  · rcases List.mem_cons.mp he with rfl | he
    · rintro ⟨hunlocked, hlocked⟩
      exact absurd ((hl.taken hcall hmove hlocked).1.symm.trans hunlocked) (by decide)
    · exact hdis.together e he
  · rw [hthreshold']
    rcases List.suffix_cons_iff.mp hsuffix with hhead | hpast
    · obtain ⟨rfl, rfl⟩ := List.cons.inj hhead
      exact_mod_cast (hl.taken hcall hmove hlocked).2.2.2.2
    · have hold := hdis.streak e past hpast hlocked
      rwa [hthreshold] at hold

theorem tuned_disciplined (ops : FloatOps F) (enabled : Bool) (audio : AudioState F) :
    LockInvariant (lockState (tuned ops enabled audio).agc) (tuned ops enabled audio).trace ∧
      Disciplined (tuned ops enabled audio) := by
  refine ⟨⟨?_, fun _ => rfl, rfl, rfl, fun _ => rfl, le_rfl, Or.inl rfl, ?_⟩, ⟨rfl, rfl⟩, ?_,
    fun h => Bool.noConfusion h, List.Pairwise.nil, ?_, ?_⟩
  · exact iff_of_false AGCPhase.noConfusion Bool.noConfusion
  · exact fun e he => absurd he List.not_mem_nil
  · exact iff_of_false AGCPhase.noConfusion Bool.noConfusion
  · exact fun e he => absurd he List.not_mem_nil
  · exact fun e past hsuffix => absurd (List.suffix_nil.mp hsuffix) (List.cons_ne_nil _ _)

/-- The locking discipline, in every state of every run from `agc_init`. -/
theorem agc_locking_discipline (ops : FloatOps F) (enabled : Bool) (audio : AudioState F)
    {calls : List (Call F)} (hcalls : Proper calls) :
    Always tuneStep Disciplined (tuned ops enabled audio) calls := by
  have hmeets := hcalls.meets (s := tuned ops enabled audio)
    fun e he => absurd he List.not_mem_nil
  have hall := always_of_meets
    (I := fun s : Tuned F => LockInvariant (lockState s.agc) s.trace ∧ Disciplined s)
    (fun s call h hcall => disciplined_step h hcall) (tuned_disciplined ops enabled audio) hmeets
  exact hall.mono fun s h => h.2

/-- Fixed-point numbers in thousandths, with logarithms to whole powers of two. -/
def fixedOps : FloatOps ℤ where
  lit q := ⌊1000 * q⌋
  ofInt n := 1000 * n
  add x y := x + y
  sub x y := x - y
  mul x y := x * y / 1000
  div x y := 1000 * x / y
  powf _ y := 2 ^ (10 + 3322 * y / 1000000).toNat
  log10f x := 301 * (x.toNat.log2 - 10)
  fabsf x := |x|
  lt x y := decide (x < y)
  le x y := decide (x ≤ y)
  eq x y := decide (x = y)

/-- Calls at a time with a number of good packets so far: the gains are locked at 30, released
in the silence at 40, still free at 50 and locked again at 75. -/
def lockingCalls : List (Call ℤ) :=
  [(10, 0), (30, 25), (40, 25), (50, 55), (75, 85)].map fun (now, n) =>
    ⟨fixedOps, ⟨0, 0, n, 40 * n, 0, n, 0⟩, now, false, 200⟩

theorem agc_locking_discipline_relocked :
    Always tuneStep Disciplined (tuned fixedOps true ⟨300, 1000⟩) lockingCalls ∧
      (run tuneStep (tuned fixedOps true ⟨300, 1000⟩) lockingCalls).trace.map
        (fun e => (e.call.now, e.report.unlocked, e.report.locked)) =
        [(75, false, true), (50, false, false), (40, true, false), (30, false, true),
          (10, false, false)] := by
  refine ⟨agc_locking_discipline fixedOps true ⟨300, 1000⟩ ⟨?_, ?_, ?_⟩, by decide +kernel⟩
  · decide
  · decide
  · unfold Call.Before
    decide

end EchoProtocol.Agc
