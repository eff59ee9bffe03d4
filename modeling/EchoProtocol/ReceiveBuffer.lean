import EchoProtocol.ReceiveMachine
import EchoProtocol.Runs

/-!
# The receive ring over whole runs

Bit after bit with arbitrary clock readings, the main loop looking at `packet_ready` after
each of them.
-/
namespace EchoProtocol.ReceiveBuffer
open RingBits Scrambling SyncWord Frames Endpoint Transmit Receive ReceiveMachine FrameHeader Runs

/-- One end of the link with two records: the bits received since the last sync word, and for
every call of `rb_to_tun` the bits it found in the ring and those received since the sync word. -/
structure Trace where
  echo : Echo
  sinceSync : List Bool
  handed : List (List Bool × List Bool)

structure Tick where
  now : ℤ
  bit : Bool
  memory : Memory

/-- The bit completes a sync word. -/
def syncs (e : Echo) (now : ℤ) (bit : Bool) : Prop :=
  ¬ expired e now ∧ e.rx.state = .SEARCHING ∧ (checkSyncWord (detector e) bit).1 = true

instance (e : Echo) (now : ℤ) (bit : Bool) : Decidable (syncs e now bit) :=
  inferInstanceAs (Decidable (_ ∧ _ ∧ _))

def tick (lz4 : Lz4) (t : Trace) (k : Tick) : Trace :=
  let e := processRxBit t.echo k.now k.bit
  let since := if syncs t.echo k.now k.bit then [] else t.sinceSync ++ [k.bit]
  { echo := mainBlock lz4 k.memory e
    sinceSync := since
    handed :=
      if e.rx.packetReady = true ∧ 0 < e.rx.packetLen then t.handed ++ [(unread e.rxRb, since)]
      else t.handed }

def initialTrace (txJunk rxJunk : ℕ → UInt8) (isFec : Bool) : Trace :=
  ⟨echoInit txJunk rxJunk isFec, [], []⟩

def descrambled (bits : List Bool) : List Bool := scrambleBits scramblerReset bits

/-- The ring holds the bits of the current frame and nothing else, and so it did in every call
of `rb_to_tun`. -/
structure OnlyCurrentFrame (t : Trace) : Prop where
  data : t.echo.rx.packetReady = false → t.echo.rx.state = .DATA →
    (unread t.echo.rxRb).length = t.echo.rx.bitsReceived ∧
      unread t.echo.rxRb = descrambled t.sinceSync
  searching : t.echo.rx.packetReady = false → t.echo.rx.state = .SEARCHING →
    unread t.echo.rxRb = []
  handed : ∀ c ∈ t.handed, c.1 = descrambled c.2

/-- No timeout strikes after the first bit of a frame. -/
def NoLateTimeout (t : Trace) (k : Tick) : Prop :=
  ¬ (expired t.echo k.now ∧ t.echo.rx.bitsReceived ≠ 0)

/-- What the state machine keeps between two ticks. -/
structure BufferInvariant (t : Trace) : Prop where
  notReady : t.echo.rx.packetReady = false
  phase : Receiving t.echo (descrambled t.sinceSync) ∨
    (t.echo.rx.state = .SEARCHING ∧ Holds t.echo.rxRb [])
  handed : ∀ c ∈ t.handed, c.1 = descrambled c.2

theorem initialTrace_invariant (txJunk rxJunk : ℕ → UInt8) (isFec : Bool) :
    BufferInvariant (initialTrace txJunk rxJunk isFec) :=
  ⟨rfl, .inr ⟨rfl, rbInit_holds rxJunk⟩, fun _ h => absurd h List.not_mem_nil⟩

theorem BufferInvariant.onlyCurrentFrame {t : Trace} (h : BufferInvariant t) :
    OnlyCurrentFrame t := by
  refine ⟨fun _ hdata => ?_, fun _ hsearch => ?_, h.handed⟩
  · rcases h.phase with hr | ⟨hs, -⟩
    · exact ⟨by rw [hr.ring.unread_eq, hr.count], hr.ring.unread_eq⟩
    · rw [hdata] at hs
      exact absurd hs (by decide)
  · rcases h.phase with hr | ⟨-, hring⟩
    · rw [hr.state] at hsearch
      exact absurd hsearch (by decide)
    · exact hring.unread_eq

theorem descrambled_concat (bits : List Bool) (raw : Bool) :
    descrambled (bits ++ [raw]) = descrambled bits ++
      [(scramblerProcess (after scramblerReset bits.length) raw).1] :=
  scrambleBits_concat _ _ _

theorem mainBlock_complete (lz4 : Lz4) (memory : Memory) {e : Echo} {bits : List Bool}
    (h : Complete e bits) : (mainBlock lz4 memory e).rx.state = .SEARCHING ∧
      (mainBlock lz4 memory e).rx.packetReady = false ∧
      Holds (mainBlock lz4 memory e).rxRb [] := by
  have hpos : 0 < e.rx.packetLen := by
    rw [h.announced.len]
    exact (headerLen_of_valid h.announced.valid).1
  have hidle := rbToTun_idle lz4 memory e e.rx.packetLen
  simp only [mainBlock]
  rw [if_pos h.ready, if_pos hpos]
  exact ⟨hidle.state, rfl, hidle.ring⟩

theorem mainBlock_notReady {lz4 : Lz4} {memory : Memory} {e : Echo}
    (h : e.rx.packetReady = false) : mainBlock lz4 memory e = e := by
  unfold mainBlock
  rw [h]
  rfl

theorem BufferInvariant.quiet {lz4 : Lz4} {t : Trace} {k : Tick} {since : List Bool}
    (h : BufferInvariant t) (hready : (processRxBit t.echo k.now k.bit).rx.packetReady = false)
    (hsince : (if syncs t.echo k.now k.bit then [] else t.sinceSync ++ [k.bit]) = since)
    (hphase : Receiving (processRxBit t.echo k.now k.bit) (descrambled since) ∨
      ((processRxBit t.echo k.now k.bit).rx.state = .SEARCHING ∧
        Holds (processRxBit t.echo k.now k.bit).rxRb [])) : BufferInvariant (tick lz4 t k) := by
  simp only [tick, mainBlock_notReady hready, hsince]
  refine ⟨hready, hphase, ?_⟩
  rw [if_neg (by rw [hready]; exact fun hb => absurd hb.1 (by decide))]
  exact h.handed

/-- A bit of the payload or the header. -/
theorem BufferInvariant.data {lz4 : Lz4} {t : Trace} {k : Tick} (h : BufferInvariant t)
    (hr : Receiving t.echo (descrambled t.sinceSync)) (hfresh : ¬ expired t.echo k.now) :
    BufferInvariant (tick lz4 t k) := by
  have hnosync : ¬ syncs t.echo k.now k.bit := fun hs => by
    have hstate := hs.2.1
    rw [hr.state] at hstate
    exact absurd hstate (by decide)
  have hsince : (if syncs t.echo k.now k.bit then [] else t.sinceSync ++ [k.bit]) =
      t.sinceSync ++ [k.bit] := if_neg hnosync
  have hbits : descrambled (t.sinceSync ++ [k.bit]) =
      descrambled t.sinceSync ++ [(scramblerProcess t.echo.rxScrambler k.bit).1] := by
    rw [descrambled_concat, hr.scrambler]
    unfold descrambled
    rw [scrambleBits_length]
  have hcases := processRxBit_data hr hfresh k.bit
  rw [← hbits] at hcases
  cases hcases with
  | receiving hnext hready _ => exact h.quiet (hready.trans h.notReady) hsince (.inl hnext)
  | refused _ _ hidle =>
    exact h.quiet (hidle.ready.trans h.notReady) hsince (.inr ⟨hidle.state, hidle.ring⟩)
  | complete hdone _ =>
    obtain ⟨hstate, hready, hring⟩ := mainBlock_complete lz4 k.memory hdone
    simp only [tick, hsince]
    refine ⟨hready, .inr ⟨hstate, hring⟩, fun c hc => ?_⟩
    have hmem : c ∈ t.handed ∨
        c = (unread (processRxBit t.echo k.now k.bit).rxRb, t.sinceSync ++ [k.bit]) := by
      split_ifs at hc with hcall
      · simpa using hc
      · exact .inl hc
    rcases hmem with hold | rfl
    · exact h.handed c hold
    · exact hdone.ring.unread_eq

theorem tick_invariant {lz4 : Lz4} {t : Trace} {k : Tick} (h : BufferInvariant t)
    (hok : NoLateTimeout t k) : BufferInvariant (tick lz4 t k) := by
  have hnotReady := h.notReady
  by_cases hexp : expired t.echo k.now
  · have hzero : t.echo.rx.bitsReceived = 0 := by
      by_contra hne
      exact hok ⟨hexp, hne⟩
    have hstep : processRxBit t.echo k.now k.bit =
        { t.echo with
          rx := { t.echo.rx with state := .SEARCHING, bitsReceived := 0 }
          stats := { t.echo.stats with rxTimeouts := t.echo.stats.rxTimeouts + 1 } } := if_pos hexp
    have hring : Holds t.echo.rxRb [] := by
      rcases h.phase with hr | ⟨-, hring⟩
      · have hnil := List.eq_nil_of_length_eq_zero (hr.count.symm.trans hzero)
        exact hnil ▸ hr.ring
      · exact hring
    exact h.quiet (by rw [hstep]; exact hnotReady) rfl (.inr (by rw [hstep]; exact ⟨rfl, hring⟩))
  · rcases h.phase with hr | ⟨hstate, hring⟩
    · exact h.data hr hexp
    · by_cases hsync : (checkSyncWord (detector t.echo) k.bit).1 = true
      · have hsince : (if syncs t.echo k.now k.bit then [] else t.sinceSync ++ [k.bit]) = [] :=
          if_pos ⟨hexp, hstate, hsync⟩
        obtain ⟨hopen, hready, -⟩ := processRxBit_sync k.now hstate hring hsync
        exact h.quiet (hready.trans hnotReady) hsince (.inl hopen)
      · have hsearch := processRxBit_search k.now hstate (Bool.eq_false_of_not_eq_true hsync)
        exact h.quiet (by rw [hsearch]; exact hnotReady) rfl
          (.inr (by rw [hsearch]; exact ⟨hstate, hring⟩))

/-- A late timeout leaves the bits of the abandoned frame in the ring. -/
theorem late_timeout {lz4 : Lz4} {t : Trace} {k : Tick} (h : BufferInvariant t)
    (hlate : ¬ NoLateTimeout t k) : ¬ OnlyCurrentFrame (tick lz4 t k) := by
  obtain ⟨hexp, hne⟩ := not_not.mp hlate
  intro hgood
  have hstep : processRxBit t.echo k.now k.bit =
      { t.echo with
        rx := { t.echo.rx with state := .SEARCHING, bitsReceived := 0 }
        stats := { t.echo.stats with rxTimeouts := t.echo.stats.rxTimeouts + 1 } } := if_pos hexp
  have hecho : (tick lz4 t k).echo = processRxBit t.echo k.now k.bit :=
    mainBlock_notReady (by rw [hstep]; exact h.notReady)
  have hempty := hgood.searching (by rw [hecho, hstep]; exact h.notReady) (by rw [hecho, hstep])
  rw [hecho, hstep] at hempty
  rcases h.phase with hr | ⟨hstate, -⟩
  · have hlen := hr.count
    rw [← hr.ring.unread_eq, hempty] at hlen
    exact hne hlen
  · rw [hexp.1] at hstate
    exact absurd hstate (by decide)

/-- The ring holds nothing but the current frame in every state of a run exactly when no timeout
strikes in the middle of a frame. -/
theorem onlyCurrentFrame_iff (lz4 : Lz4) (txJunk rxJunk : ℕ → UInt8) (isFec : Bool)
    (ticks : List Tick) :
    Always (tick lz4) OnlyCurrentFrame (initialTrace txJunk rxJunk isFec) ticks ↔
      Meets (tick lz4) NoLateTimeout (initialTrace txJunk rxJunk isFec) ticks :=
  always_iff_meets (fun _ _ h hok => tick_invariant h hok) (fun _ _ h hbad => late_timeout h hbad)
    (fun _ h => h.onlyCurrentFrame) (initialTrace_invariant txJunk rxJunk isFec)

/-- A sync word, one bit, and seven seconds of silence. -/
def staleTicks : List Tick :=
  syncBits.map (⟨0, ·, zeroMemory⟩) ++ [⟨0, true, zeroMemory⟩, ⟨7, true, zeroMemory⟩]

theorem stale_bit_left : ∃ ticks,
    ¬ OnlyCurrentFrame (run (tick noLz4) (initialTrace (fun _ => 0) (fun _ => 0) false) ticks) :=
  ⟨staleTicks, fun h => absurd (h.searching (by decide +kernel) (by decide +kernel))
    (by decide +kernel)⟩

end EchoProtocol.ReceiveBuffer
