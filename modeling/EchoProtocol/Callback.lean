import EchoProtocol.Demodulation
import EchoProtocol.WarmUp

/-!
# The audio callback

Once for each sample the callback hands the input to the receiver and asks the modulator for the
output, and every 32 samples it takes a new symbol out of the transmit ring. The main loop works
on the same endpoint in between.
-/
namespace EchoProtocol.Callback
open RingBits SyncWord Endpoint Transmit Receive SymbolFetch Modem Demodulation WarmUp
  Runs

variable {F D : Type}

/-- An endpoint with its modem, the static variables of the callback, and the flag that the
callback sets in `AudioState`. -/
structure Station (F : Type) where
  echo : Echo
  modState : StateFSK F
  freqStates : Fin 4 → StateGoertzel F
  rxSampleCount : ℕ
  txSampleCount : ℕ
  currentTxSymbol : UInt8
  txActiveFrames : ℤ
  agcFreeze : Bool

/-- `echo_init` and `audio_init`. -/
def stationInit (ar : Arithmetic F D) (txJunk rxJunk : ℕ → UInt8) (isFec : Bool) : Station F where
  echo := echoInit txJunk rxJunk isFec
  modState := preCalcFsk ar
  freqStates := fun i => preCalcGoertzel ar (freqs i)
  rxSampleCount := 0
  txSampleCount := SAMPLES_PER_SYMBOL
  currentTxSymbol := 0
  txActiveFrames := 0
  agcFreeze := false

/-- What one iteration of the callback finds: the input sample, unless the stream has no input,
and what `time` returns if the sample completes a symbol. -/
structure Tick (F : Type) where
  input : Option F
  now : ℤ
  now' : ℤ

/-- `(max_idx >> 1) & 1` and `max_idx & 1`. -/
def decidedBits (maxIdx : Fin 4) : Bool × Bool :=
  ((maxIdx : ℕ).testBit 1, (maxIdx : ℕ).testBit 0)

def audioToRb (ar : Arithmetic F D) (st : Station F) (sample : F) (now now' : ℤ) : Station F :=
  let measured := measure ar st.freqStates sample
  let rxSampleCount := (st.rxSampleCount + 1) % 2 ^ 16
  if rxSampleCount < SAMPLES_PER_SYMBOL then
    { st with freqStates := measured.2, rxSampleCount := rxSampleCount }
  else
    let bits := decidedBits (strongest ar measured.1)
    { st with
      freqStates := fun i => resetState ar (measured.2 i)
      rxSampleCount := 0
      echo := processRxBit (processRxBit st.echo now bits.1) now' bits.2 }

/-- The bytes in the transmit ring as the callback counts them. -/
def txUsed (b : Buffer) : ℕ := (b.head + BUFFER_SIZE - b.tail) &&& BUFFER_MASK

/-- What the callback does before its loop. -/
def freeze (st : Station F) : Station F :=
  let txActive : Bool := txUsed st.echo.txRb > 0
  let txActiveFrames :=
    if txActive then 3
    else if st.txActiveFrames > 0 then st.txActiveFrames - 1
    else st.txActiveFrames
  { st with txActiveFrames := txActiveFrames, agcFreeze := txActive || txActiveFrames > 0 }

def hear (ar : Arithmetic F D) (st : Station F) (tick : Tick F) : Station F :=
  match tick.input with
  | none => st
  | some sample => audioToRb ar st sample tick.now tick.now'

/-- The block that fetches a symbol, in one step: the main program puts no bit between its two
`get_bits`. -/
def nextSymbol (st : Station F) : Station F :=
  if st.txSampleCount ≥ SAMPLES_PER_SYMBOL then
    let fetched := fetchSymbol st.echo.txRb
    { st with
      echo := { st.echo with txRb := fetched.2 }
      currentTxSymbol := fetched.1.getD idleSymbol
      txSampleCount := 0 }
  else st

def sampleOut (ar : Arithmetic F D) (st : Station F) : F × Station F :=
  let generated := generateFsk ar st.modState st.currentTxSymbol
  (generated.1,
    { st with modState := generated.2, txSampleCount := (st.txSampleCount + 1) % 2 ^ 16 })

/-- One iteration of the loop: the output sample, and the station. -/
def iteration (ar : Arithmetic F D) (st : Station F) (tick : Tick F) : F × Station F :=
  sampleOut ar (nextSymbol (hear ar st tick))

def iterations (ar : Arithmetic F D) : Station F → List (Tick F) → List F × Station F
  | st, [] => ([], st)
  | st, tick :: ticks =>
      let first := iteration ar st tick
      let rest := iterations ar first.2 ticks
      (first.1 :: rest.1, rest.2)

def paCallback (ar : Arithmetic F D) (st : Station F) (ticks : List (Tick F)) : List F × Station F :=
  iterations ar (freeze st) ticks

theorem audioToRb_within (ar : Arithmetic F D) (st : Station F) (now now' : ℤ) (sample : F)
    (h : (st.rxSampleCount + 1) % 2 ^ 16 < SAMPLES_PER_SYMBOL) :
    audioToRb ar st sample now now' =
      { st with
        freqStates := (measure ar st.freqStates sample).2
        rxSampleCount := (st.rxSampleCount + 1) % 2 ^ 16 } := if_pos h

theorem audioToRb_full (ar : Arithmetic F D) (st : Station F) (now now' : ℤ) (sample : F)
    (h : ¬ (st.rxSampleCount + 1) % 2 ^ 16 < SAMPLES_PER_SYMBOL) :
    let bits := decidedBits (strongest ar (measure ar st.freqStates sample).1)
    audioToRb ar st sample now now' =
      { st with
        freqStates := fun i => resetState ar ((measure ar st.freqStates sample).2 i)
        rxSampleCount := 0
        echo := processRxBit (processRxBit st.echo now bits.1) now' bits.2 } := if_neg h

theorem nextSymbol_due (st : Station F) (h : st.txSampleCount ≥ SAMPLES_PER_SYMBOL) :
    nextSymbol st =
      { st with
        echo := { st.echo with txRb := (fetchSymbol st.echo.txRb).2 }
        currentTxSymbol := (fetchSymbol st.echo.txRb).1.getD idleSymbol
        txSampleCount := 0 } := if_pos h

theorem nextSymbol_held (st : Station F) (h : ¬ st.txSampleCount ≥ SAMPLES_PER_SYMBOL) :
    nextSymbol st = st := if_neg h

/-- A station enters the callback or goes through one iteration of it; its main program sends a
packet of the warm-up, reads a packet from the TUN, or runs the `packet_ready` block. Each of these
is one step, with nothing in between: an iteration with its fetch, a packet with all its bits, the
`packet_ready` block with all its reads. -/
inductive Event (F : Type)
  | enter
  | sample (tick : Tick F)
  | warmUp
  | send (raw : List UInt8)
  | handle (memory : Memory)

def step (ar : Arithmetic F D) (lz4 : Lz4) (st : Station F) : Event F → Station F
  | .enter => freeze st
  | .sample tick => (iteration ar st tick).2
  | .warmUp => { st with echo := warmUpPacket st.echo }
  | .send raw => { st with echo := sendPacket lz4 st.echo raw }
  | .handle memory => { st with echo := mainBlock lz4 memory st.echo }

/-- A call of the callback. -/
def buffer (ticks : List (Tick F)) : List (Event F) := .enter :: ticks.map .sample

/-- The samples that the events of a run put out. -/
def wave (ar : Arithmetic F D) (hist : List (Station F × Event F)) : List F :=
  hist.filterMap fun h =>
    match h.2 with
    | .sample tick => some (iteration ar h.1 tick).1
    | _ => none

theorem iterations_eq (ar : Arithmetic F D) (lz4 : Lz4) (st : Station F) (ticks : List (Tick F)) :
    iterations ar st ticks = (wave ar (trace (step ar lz4) st (ticks.map .sample)),
      run (step ar lz4) st (ticks.map .sample)) := by
  induction ticks generalizing st with
  | nil => rfl
  | cons tick ticks ih =>
    simp only [iterations, ih]
    rfl

/-- A call of the callback is one entry and the iterations of its buffer. -/
theorem paCallback_eq (ar : Arithmetic F D) (lz4 : Lz4) (st : Station F) (ticks : List (Tick F)) :
    paCallback ar st ticks = (wave ar (trace (step ar lz4) st (buffer ticks)),
      run (step ar lz4) st (buffer ticks)) :=
  iterations_eq ar lz4 (freeze st) ticks

def isEnter : Event F → Bool
  | .enter => true
  | _ => false

/-- A station with other values in the two variables that an entry changes. -/
def marked (frames : ℤ) (flag : Bool) (st : Station F) : Station F :=
  { st with txActiveFrames := frames, agcFreeze := flag }

theorem hear_marked (ar : Arithmetic F D) (frames : ℤ) (flag : Bool) (st : Station F)
    (tick : Tick F) : hear ar (marked frames flag st) tick = marked frames flag (hear ar st tick) := by
  rcases tick with ⟨_ | sample, now, now'⟩
  · rfl
  · change audioToRb ar (marked frames flag st) sample now now' =
      marked frames flag (audioToRb ar st sample now now')
    by_cases hwithin : (st.rxSampleCount + 1) % 2 ^ 16 < SAMPLES_PER_SYMBOL
    · rw [audioToRb_within ar st now now' sample hwithin,
        audioToRb_within ar (marked frames flag st) now now' sample hwithin]
      rfl
    · rw [audioToRb_full ar st now now' sample hwithin,
        audioToRb_full ar (marked frames flag st) now now' sample hwithin]
      rfl

theorem nextSymbol_marked (frames : ℤ) (flag : Bool) (st : Station F) :
    nextSymbol (marked frames flag st) = marked frames flag (nextSymbol st) := by
  by_cases hdue : st.txSampleCount ≥ SAMPLES_PER_SYMBOL
  · rw [nextSymbol_due st hdue, nextSymbol_due (marked frames flag st) hdue]
    rfl
  · rw [nextSymbol_held st hdue, nextSymbol_held (marked frames flag st) hdue]

theorem iteration_marked (ar : Arithmetic F D) (frames : ℤ) (flag : Bool) (st : Station F)
    (tick : Tick F) : iteration ar (marked frames flag st) tick =
      ((iteration ar st tick).1, marked frames flag (iteration ar st tick).2) := by
  rw [iteration, hear_marked, nextSymbol_marked]
  rfl

theorem step_marked (ar : Arithmetic F D) (lz4 : Lz4) (frames : ℤ) (flag : Bool) (st : Station F)
    (event : Event F) : ∃ frames' flag', step ar lz4 (marked frames flag st) event =
      marked frames' flag' (if isEnter event then st else step ar lz4 st event) := by
  cases event with
  | enter => exact ⟨_, _, rfl⟩
  | sample tick => exact ⟨frames, flag, congrArg Prod.snd (iteration_marked ar frames flag st tick)⟩
  | warmUp => exact ⟨frames, flag, rfl⟩
  | send raw => exact ⟨frames, flag, rfl⟩
  | handle memory => exact ⟨frames, flag, rfl⟩

theorem run_marked (ar : Arithmetic F D) (lz4 : Lz4) (frames : ℤ) (flag : Bool) (st : Station F)
    (events : List (Event F)) :
    let bare := events.filter fun event => !isEnter event
    wave ar (trace (step ar lz4) (marked frames flag st) events) =
      wave ar (trace (step ar lz4) st bare) ∧
    ∃ frames' flag', run (step ar lz4) (marked frames flag st) events =
      marked frames' flag' (run (step ar lz4) st bare) := by
  induction events generalizing frames flag st with
  | nil => exact ⟨rfl, frames, flag, rfl⟩
  | cons event events ih =>
    obtain ⟨frames', flag', hstep⟩ := step_marked ar lz4 frames flag st event
    simp only [trace, run_cons, hstep]
    cases event with
    | enter => exact ih frames' flag' st
    | sample tick =>
      obtain ⟨hwave, hrun⟩ := ih frames' flag' (step ar lz4 st (.sample tick))
      refine ⟨?_, hrun⟩
      have hout := congrArg Prod.fst (iteration_marked ar frames flag st tick)
      simp only at hout
      simp only [wave, List.filterMap_cons, isEnter, Bool.not_false, List.filter_cons, if_true, trace,
        hout] at hwave ⊢
      exact congrArg _ hwave
    | warmUp => exact ih frames' flag' (step ar lz4 st .warmUp)
    | send raw => exact ih frames' flag' (step ar lz4 st (.send raw))
    | handle memory => exact ih frames' flag' (step ar lz4 st (.handle memory))

/-- How the stream is cut into buffers changes no sample and nothing else of the station, whatever
the main loop does in between: only the two variables for the gain control can differ. -/
theorem buffers_invisible (ar : Arithmetic F D) (lz4 : Lz4) (st : Station F)
    {events events' : List (Event F)}
    (h : (events.filter fun event => !isEnter event) =
      events'.filter fun event => !isEnter event) :
    wave ar (trace (step ar lz4) st events) = wave ar (trace (step ar lz4) st events') ∧
      ∃ frames flag, run (step ar lz4) st events' =
        { run (step ar lz4) st events with txActiveFrames := frames, agcFreeze := flag } := by
  obtain ⟨hwave, a, b, hrun⟩ := run_marked ar lz4 st.txActiveFrames st.agcFreeze st events
  obtain ⟨hwave', a', b', hrun'⟩ := run_marked ar lz4 st.txActiveFrames st.agcFreeze st events'
  rw [h] at hwave hrun
  refine ⟨hwave.trans hwave'.symm, a', b', ?_⟩
  have hevents : run (step ar lz4) st events =
    marked a b (run (step ar lz4) st (events'.filter fun event => !isEnter event)) := hrun
  rw [hevents]
  exact hrun'

/-- Two samples in one call of the callback or in two. -/
theorem buffers_invisible_two_samples :
    let st := stationInit realArithmetic (fun _ => 0) (fun _ => 0) false
    let tick : Tick ℝ := ⟨some 1, 0, 0⟩
    wave realArithmetic (trace (step realArithmetic FrameHeader.noLz4) st (buffer [tick, tick])) =
      wave realArithmetic
        (trace (step realArithmetic FrameHeader.noLz4) st (buffer [tick] ++ buffer [tick])) := by
  intro st tick
  have hsame : ((buffer [tick, tick]).filter fun event => !isEnter event) =
      (buffer [tick] ++ buffer [tick]).filter fun event => !isEnter event := by
    simp [buffer, isEnter]
  exact (buffers_invisible realArithmetic FrameHeader.noLz4 st hsame).1

/-- Whether the transmit ring held a byte at each entry, the last one first. -/
def activity (hist : List (Station F × Event F)) : List Bool :=
  (hist.filterMap fun h =>
    if isEnter h.2 then some (decide (txUsed h.1.echo.txRb > 0)) else none).reverse

theorem activity_concat (hist : List (Station F × Event F)) (st : Station F) (event : Event F) :
    activity (hist ++ [(st, event)]) =
      if isEnter event then decide (txUsed st.echo.txRb > 0) :: activity hist else activity hist := by
  cases event <;> simp [activity, isEnter]

/-- The counter of the callback: three at an entry that finds something to send, and one less at
each of the next ones. -/
def countdown : List Bool → ℤ
  | [] => 0
  | true :: _ => 3
  | false :: acts => if countdown acts > 0 then countdown acts - 1 else countdown acts

theorem lt_countdown_iff (acts : List Bool) (k : ℕ) :
    (k : ℤ) < countdown acts ↔ (acts.take (3 - k)).any id = true := by
  induction acts generalizing k with
  | nil => simp [countdown]
  | cons act acts ih =>
    rcases Nat.lt_or_ge k 3 with hk | hk
    · obtain ⟨n, hn⟩ : ∃ n, 3 - k = n + 1 := ⟨2 - k, by omega⟩
      rw [hn, List.take_succ_cons, List.any_cons]
      cases act with
      | true =>
        simp only [countdown, id_eq, Bool.true_or, iff_true]
        omega
      | false =>
        have hnext := ih (k + 1)
        rw [show 3 - (k + 1) = n by omega] at hnext
        rw [id_eq, Bool.false_or, ← hnext, countdown]
        split_ifs <;> omega
    · rw [Nat.sub_eq_zero_of_le hk]
      cases act with
      | true =>
        simp only [countdown, List.take_zero, List.any_nil, Bool.false_eq_true, iff_false]
        omega
      | false =>
        have hnext := ih k
        rw [Nat.sub_eq_zero_of_le hk] at hnext
        simp only [countdown, List.take_zero, List.any_nil, Bool.false_eq_true, iff_false] at hnext ⊢
        split_ifs <;> omega

/-- What the entries have left in the two variables. -/
structure CountsDown (st : Station F) (acts : List Bool) : Prop where
  counter : st.txActiveFrames = countdown acts
  flag : st.agcFreeze = decide (countdown acts > 0)

theorem freeze_countsDown {st : Station F} {acts : List Bool} (h : CountsDown st acts) :
    CountsDown (freeze st) (decide (txUsed st.echo.txRb > 0) :: acts) := by
  cases hactive : decide (txUsed st.echo.txRb > 0) with
  | true =>
    constructor
    · simp only [freeze, hactive, if_true, countdown]
    · simp only [freeze, hactive, Bool.true_or, countdown, gt_iff_lt, Nat.ofNat_pos, decide_true]
  | false =>
    constructor
    · simp only [freeze, hactive, h.counter, countdown, Bool.false_eq_true, if_false]
    · simp only [freeze, hactive, h.counter, countdown, Bool.false_eq_true, if_false, Bool.false_or]
      congr

theorem step_countsDown (ar : Arithmetic F D) (lz4 : Lz4) {st : Station F}
    {hist : List (Station F × Event F)} (h : CountsDown st (activity hist)) (event : Event F) :
    CountsDown (step ar lz4 st event) (activity (hist ++ [(st, event)])) := by
  rw [activity_concat]
  cases event with
  | enter => exact freeze_countsDown h
  | sample tick =>
    have hmarks := congrArg Prod.snd (iteration_marked ar st.txActiveFrames st.agcFreeze st tick)
    have hsame : (iteration ar st tick).2 =
      marked st.txActiveFrames st.agcFreeze (iteration ar st tick).2 := hmarks
    exact ⟨(congrArg Station.txActiveFrames hsame).trans h.counter,
      (congrArg Station.agcFreeze hsame).trans h.flag⟩
  | warmUp => exact ⟨h.counter, h.flag⟩
  | send raw => exact ⟨h.counter, h.flag⟩
  | handle memory => exact ⟨h.counter, h.flag⟩

/-- The gains are frozen exactly while one of the last three calls of the callback, the current
one included, found something to send. -/
theorem frozen_iff (ar : Arithmetic F D) (lz4 : Lz4) (txJunk rxJunk : ℕ → UInt8) (isFec : Bool)
    (events : List (Event F)) :
    (run (step ar lz4) (stationInit ar txJunk rxJunk isFec) events).agcFreeze =
      ((activity (trace (step ar lz4) (stationInit ar txJunk rxJunk isFec) events)).take 3).any id := by
  have hinit : CountsDown (stationInit ar txJunk rxJunk isFec)
      (activity ([] : List (Station F × Event F))) := ⟨rfl, rfl⟩
  have hall : Meets (step ar lz4) (fun _ _ => True) (stationInit ar txJunk rxJunk isFec) events :=
    meets_of_forall fun _ _ _ => trivial
  have hflag := (trace_invariant (I := fun st hist => CountsDown st (activity hist))
    (fun _ _ event h _ => step_countsDown ar lz4 h event) hinit hall).flag
  rw [hflag, Bool.eq_iff_iff, decide_eq_true_eq]
  exact lt_countdown_iff _ 0

end EchoProtocol.Callback
