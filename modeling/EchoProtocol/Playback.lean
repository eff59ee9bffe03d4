import EchoProtocol.Callback

/-!
# What a station plays

The output of a station is a sequence of symbols, each held for 32 samples. The symbols carry the
frames that the main program has written, one after another, with idle symbols between them.
-/
namespace EchoProtocol.Playback
open RingBits Scrambling SyncWord Frames Endpoint Transmit Receive SymbolFetch Backpressure
  DroppedPackets Link Modem Callback WarmUp Runs

variable {F D : Type}

/-- A piece of what a station sends: an idle bit, or a frame with its announcement. -/
inductive Item
  | idle
  | frame (f : Frame)

def itemBits : Item → List Bool
  | .idle => [true]
  | .frame f => airBits f

def streamBits (items : List Item) : List Bool := items.flatMap itemBits

def itemFrame : Item → Option Frame
  | .idle => none
  | .frame f => some f

def frames (items : List Item) : List Frame := items.filterMap itemFrame

/-- The symbol behind a sample that is put out. -/
def played (ar : Arithmetic F D) (h : Station F × Event F) : Option UInt8 :=
  match h.2 with
  | .sample tick => some (iteration ar h.1 tick).2.currentTxSymbol
  | _ => none

/-- The symbol that an iteration fetches, if it is time for one. -/
def fetched (ar : Arithmetic F D) (h : Station F × Event F) : Option UInt8 :=
  if h.1.txSampleCount ≥ SAMPLES_PER_SYMBOL then played ar h else none

/-- What an event adds to the stream of the station. -/
def added (lz4 : Lz4) (h : Station F × Event F) : List Item :=
  match h.2 with
  | .sample _ =>
      if h.1.txSampleCount ≥ SAMPLES_PER_SYMBOL ∧ (fetchSymbol h.1.echo.txRb).1 = none then
        [.idle, .idle]
      else []
  | .warmUp => [.frame (rawFrame dummyIp)]
  | .send raw =>
      if freeSpace h.1.echo.txRb < MAX_TX_FRAME_BYTES then []
      else [.frame (buildFrame lz4 h.1.echo raw).1]
  | _ => []

def heldSymbols (ar : Arithmetic F D) (hist : List (Station F × Event F)) : List UInt8 :=
  hist.filterMap (played ar)

def symbols (ar : Arithmetic F D) (hist : List (Station F × Event F)) : List UInt8 :=
  hist.filterMap (fetched ar)

def items (lz4 : Lz4) (hist : List (Station F × Event F)) : List Item := hist.flatMap (added lz4)

/-- The transmit ring has room for what the main program writes, and every packet that is read has
at least one byte. -/
def Room (lz4 : Lz4) (st : Station F) : Event F → Prop
  | .warmUp => 288 ≤ freeBits st.echo.txRb
  | .send raw => freeSpace st.echo.txRb < MAX_TX_FRAME_BYTES ∨
      1 ≤ raw.length ∧ 64 + 8 * (buildFrame lz4 st.echo raw).1.payload.length ≤ freeBits st.echo.txRb
  | _ => True

/-- The receiver leaves the sender alone. -/
structure SameSender (e e' : Echo) : Prop where
  txRb : e'.txRb = e.txRb
  rohcTx : e'.rohcTx = e.rohcTx
  txRawCounter : e'.txRawCounter = e.txRawCounter

theorem SameSender.refl (e : Echo) : SameSender e e := ⟨rfl, rfl, rfl⟩

theorem SameSender.trans {e e' e'' : Echo} (h : SameSender e e') (h' : SameSender e' e'') :
    SameSender e e'' :=
  ⟨h'.txRb.trans h.txRb, h'.rohcTx.trans h.rohcTx, h'.txRawCounter.trans h.txRawCounter⟩

theorem handleDataState_sender (e : Echo) (bit : Bool) : SameSender e (handleDataState e bit) := by
  simp only [handleDataState]
  split_ifs <;> exact ⟨rfl, rfl, rfl⟩

theorem processRxBit_sender (e : Echo) (now : ℤ) (bit : Bool) :
    SameSender e (processRxBit e now bit) := by
  simp only [processRxBit]
  split_ifs
  · exact ⟨rfl, rfl, rfl⟩
  · exact ⟨rfl, rfl, rfl⟩
  · exact ⟨rfl, rfl, rfl⟩
  · obtain ⟨htxRb, hrohcTx, hcounter⟩ := handleDataState_sender
      { e with rx := { e.rx with lastRxTime := (now % 2 ^ 32).toNat } } bit
    exact ⟨htxRb, hrohcTx, hcounter⟩

theorem record_sender (e : Echo) (v : Verdict) : SameSender e (record e v) := by
  cases v <;> exact ⟨rfl, rfl, rfl⟩

theorem rbToTun_sender (lz4 : Lz4) (memory : Memory) (e : Echo) (packetLen : ℕ) :
    SameSender e (rbToTun lz4 memory e packetLen) := by
  simp only [rbToTun]
  split
  · exact ⟨rfl, rfl, rfl⟩
  · split_ifs
    · exact ⟨rfl, rfl, rfl⟩
    · split
      · exact ⟨rfl, rfl, rfl⟩
      · obtain ⟨htxRb, hrohcTx, hcounter⟩ := record_sender _ _
        exact ⟨htxRb, hrohcTx, hcounter⟩

theorem mainBlock_sender (lz4 : Lz4) (memory : Memory) (e : Echo) :
    SameSender e (mainBlock lz4 memory e) := by
  simp only [mainBlock]
  split_ifs
  · obtain ⟨htxRb, hrohcTx, hcounter⟩ := rbToTun_sender lz4 memory e e.rx.packetLen
    exact ⟨htxRb, hrohcTx, hcounter⟩
  · exact ⟨rfl, rfl, rfl⟩
  · exact ⟨rfl, rfl, rfl⟩

/-- Hearing a sample leaves the transmitting side. -/
structure SameTransmitter (st st' : Station F) : Prop where
  sender : SameSender st.echo st'.echo
  modState : st'.modState = st.modState
  txSampleCount : st'.txSampleCount = st.txSampleCount
  currentTxSymbol : st'.currentTxSymbol = st.currentTxSymbol

theorem hear_transmitter (ar : Arithmetic F D) (st : Station F) (tick : Tick F) :
    SameTransmitter st (hear ar st tick) := by
  rcases tick with ⟨_ | sample, now, now'⟩
  · exact ⟨.refl _, rfl, rfl, rfl⟩
  · change SameTransmitter st (audioToRb ar st sample now now')
    by_cases hwithin : (st.rxSampleCount + 1) % 2 ^ 16 < SAMPLES_PER_SYMBOL
    · rw [audioToRb_within ar st now now' sample hwithin]
      exact ⟨.refl _, rfl, rfl, rfl⟩
    · rw [audioToRb_full ar st now now' sample hwithin]
      exact ⟨(processRxBit_sender _ _ _).trans (processRxBit_sender _ _ _), rfl, rfl, rfl⟩

theorem iteration_out (ar : Arithmetic F D) (st : Station F) (tick : Tick F) :
    generateFsk ar st.modState (iteration ar st tick).2.currentTxSymbol =
      ((iteration ar st tick).1, (iteration ar st tick).2.modState) := by
  have hmod : (nextSymbol (hear ar st tick)).modState = st.modState := by
    rw [← (hear_transmitter ar st tick).modState]
    unfold nextSymbol
    split_ifs <;> rfl
  rw [← hmod]
  rfl

theorem iteration_due (ar : Arithmetic F D) {st : Station F} (tick : Tick F)
    (h : st.txSampleCount ≥ SAMPLES_PER_SYMBOL) :
    (iteration ar st tick).2.currentTxSymbol = (fetchSymbol st.echo.txRb).1.getD idleSymbol ∧
      (iteration ar st tick).2.echo.txRb = (fetchSymbol st.echo.txRb).2 ∧
      (iteration ar st tick).2.txSampleCount = 1 := by
  obtain ⟨hsender, -, hcount, -⟩ := hear_transmitter ar st tick
  rw [← hsender.txRb]
  rw [← hcount] at h
  simp only [iteration, nextSymbol_due _ h]
  exact ⟨rfl, rfl, rfl⟩

theorem iteration_held (ar : Arithmetic F D) {st : Station F} (tick : Tick F)
    (h : st.txSampleCount < SAMPLES_PER_SYMBOL) :
    (iteration ar st tick).2.currentTxSymbol = st.currentTxSymbol ∧
      (iteration ar st tick).2.echo.txRb = st.echo.txRb ∧
      (iteration ar st tick).2.txSampleCount = st.txSampleCount + 1 := by
  obtain ⟨hsender, -, hcount, hsymbol⟩ := hear_transmitter ar st tick
  rw [← hsender.txRb, ← hsymbol, ← hcount]
  rw [← hcount] at h
  have hsmall : (hear ar st tick).txSampleCount + 1 < 2 ^ 16 := by
    unfold SAMPLES_PER_SYMBOL SAMPLE_RATE SYMBOL_RATE at h
    omega
  simp only [iteration, nextSymbol_held _ (not_le.mpr h)]
  exact ⟨rfl, rfl, Nat.mod_eq_of_lt hsmall⟩

theorem iteration_sender (ar : Arithmetic F D) (st : Station F) (tick : Tick F) :
    (iteration ar st tick).2.echo.rohcTx = st.echo.rohcTx ∧
      (iteration ar st tick).2.echo.txRawCounter = st.echo.txRawCounter := by
  obtain ⟨hsender, -, -, -⟩ := hear_transmitter ar st tick
  rw [← hsender.rohcTx, ← hsender.txRawCounter]
  simp only [iteration, sampleOut, nextSymbol]
  split_ifs <;> exact ⟨rfl, rfl⟩

/-- Every symbol fetched has been played for 32 samples, but for the current one. -/
structure Holding (ar : Arithmetic F D) (start : StateFSK F) (st : Station F)
    (hist : List (Station F × Event F)) : Prop where
  count_pos : 1 ≤ st.txSampleCount
  count_le : st.txSampleCount ≤ SAMPLES_PER_SYMBOL
  held : heldSymbols ar hist ++
      List.replicate (SAMPLES_PER_SYMBOL - st.txSampleCount) st.currentTxSymbol =
    (symbols ar hist).flatMap fun x => List.replicate SAMPLES_PER_SYMBOL x
  output : samples (generateFsk ar) start (heldSymbols ar hist) = (wave ar hist, st.modState)

theorem samples_append {S : Type} (generate : S → UInt8 → F × S) (s : S) (xs ys : List UInt8) :
    samples generate s (xs ++ ys) =
      ((samples generate s xs).1 ++ (samples generate (samples generate s xs).2 ys).1,
        (samples generate (samples generate s xs).2 ys).2) := by
  induction xs generalizing s with
  | nil => rfl
  | cons x xs ih => simp only [List.cons_append, samples, ih]

theorem samples_length {S : Type} (generate : S → UInt8 → F × S) (s : S) (xs : List UInt8) :
    (samples generate s xs).1.length = xs.length := by
  induction xs generalizing s with
  | nil => rfl
  | cons x xs ih => simp only [samples, List.length_cons, ih]

theorem filterMap_concat {α β : Type} (f : α → Option β) (l : List α) (a : α) :
    (l ++ [a]).filterMap f = l.filterMap f ++ (f a).toList := by
  rw [List.filterMap_append]
  cases h : f a <;> simp [h]

theorem Holding.sample {ar : Arithmetic F D} {start : StateFSK F} {st : Station F}
    {hist : List (Station F × Event F)} (h : Holding ar start st hist) (tick : Tick F) :
    Holding ar start (iteration ar st tick).2 (hist ++ [(st, .sample tick)]) := by
  have hheld : heldSymbols ar (hist ++ [(st, .sample tick)]) =
      heldSymbols ar hist ++ [(iteration ar st tick).2.currentTxSymbol] := filterMap_concat _ _ _
  have hwave : wave ar (hist ++ [(st, .sample tick)]) =
      wave ar hist ++ [(iteration ar st tick).1] := filterMap_concat _ _ _
  have hsamples : samples (generateFsk ar) start (heldSymbols ar (hist ++ [(st, .sample tick)])) =
      (wave ar (hist ++ [(st, .sample tick)]), (iteration ar st tick).2.modState) := by
    have hout := iteration_out ar st tick
    rw [hheld, hwave, samples_append, h.output]
    simp only [samples, hout]
  have hsymbols : symbols ar (hist ++ [(st, .sample tick)]) =
      symbols ar hist ++ (fetched ar (st, .sample tick)).toList := filterMap_concat _ _ _
  have hbefore := h.held
  by_cases hdue : st.txSampleCount ≥ SAMPLES_PER_SYMBOL
  · obtain ⟨-, -, hcount⟩ := iteration_due ar tick hdue
    have hnew : fetched ar (st, .sample tick) = some (iteration ar st tick).2.currentTxSymbol :=
      if_pos hdue
    refine ⟨hcount.ge, by rw [hcount]; decide, ?_, hsamples⟩
    rw [show SAMPLES_PER_SYMBOL - st.txSampleCount = 0 by omega, List.replicate_zero,
      List.append_nil] at hbefore
    rw [hheld, hsymbols, hnew, Option.toList_some, List.flatMap_append, List.flatMap_singleton,
      hcount, hbefore, List.append_assoc]
    rfl
  · obtain ⟨hsame, -, hcount⟩ := iteration_held ar tick (not_le.mp hdue)
    have hnew : fetched ar (st, .sample tick) = none := if_neg hdue
    refine ⟨by omega, by rw [hcount]; exact not_le.mp hdue, ?_, hsamples⟩
    obtain ⟨n, hn⟩ : ∃ n, SAMPLES_PER_SYMBOL - st.txSampleCount = n + 1 :=
      ⟨SAMPLES_PER_SYMBOL - st.txSampleCount - 1, by omega⟩
    rw [hn, List.replicate_succ] at hbefore
    rw [hheld, hsymbols, hnew, Option.toList_none, List.append_nil, hcount, hsame, List.append_assoc,
      show SAMPLES_PER_SYMBOL - (st.txSampleCount + 1) = n by omega, List.singleton_append, hbefore]

/-- What happens outside the loop of the callback puts out nothing. -/
theorem Holding.quiet {ar : Arithmetic F D} {start : StateFSK F} {st st' : Station F}
    {hist : List (Station F × Event F)} {event : Event F} (h : Holding ar start st hist)
    (hevent : ∀ tick, event ≠ .sample tick) (hmod : st'.modState = st.modState)
    (hcount : st'.txSampleCount = st.txSampleCount)
    (hsymbol : st'.currentTxSymbol = st.currentTxSymbol) :
    Holding ar start st' (hist ++ [(st, event)]) := by
  have hplayed : played ar (st, event) = none := by
    cases event <;> first | rfl | exact absurd rfl (hevent _)
  have hfetched : fetched ar (st, event) = none := by
    rw [fetched, hplayed, ite_self]
  have hheld : heldSymbols ar (hist ++ [(st, event)]) = heldSymbols ar hist := by
    rw [heldSymbols, filterMap_concat, hplayed, Option.toList_none, List.append_nil, heldSymbols]
  have hsymbols : symbols ar (hist ++ [(st, event)]) = symbols ar hist := by
    rw [symbols, filterMap_concat, hfetched, Option.toList_none, List.append_nil, symbols]
  have hwave : wave ar (hist ++ [(st, event)]) = wave ar hist := by
    rw [wave, filterMap_concat]
    cases event <;> first | exact List.append_nil _ | exact absurd rfl (hevent _)
  refine ⟨?_, ?_, ?_, ?_⟩
  · rw [hcount]
    exact h.count_pos
  · rw [hcount]
    exact h.count_le
  · rw [hheld, hsymbols, hcount, hsymbol]
    exact h.held
  · rw [hheld, hwave, hmod]
    exact h.output

theorem Holding.step {ar : Arithmetic F D} {start : StateFSK F} {st : Station F}
    {hist : List (Station F × Event F)} (lz4 : Lz4) (h : Holding ar start st hist)
    (event : Event F) : Holding ar start (step ar lz4 st event) (hist ++ [(st, event)]) := by
  cases event with
  | sample tick => exact h.sample tick
  | enter => exact h.quiet (by simp) rfl rfl rfl
  | warmUp => exact h.quiet (by simp) rfl rfl rfl
  | send raw => exact h.quiet (by simp) rfl rfl rfl
  | handle memory => exact h.quiet (by simp) rfl rfl rfl

theorem run_holding (ar : Arithmetic F D) (lz4 : Lz4) (txJunk rxJunk : ℕ → UInt8) (isFec : Bool)
    (events : List (Event F)) :
    Holding ar (preCalcFsk ar) (run (step ar lz4) (stationInit ar txJunk rxJunk isFec) events)
      (trace (step ar lz4) (stationInit ar txJunk rxJunk isFec) events) := by
  have hinit : Holding ar (preCalcFsk ar) (stationInit ar txJunk rxJunk isFec) [] :=
    ⟨(by decide : 1 ≤ SAMPLES_PER_SYMBOL), le_rfl, rfl, rfl⟩
  have hall : Meets (step ar lz4) (fun _ _ => True) (stationInit ar txJunk rxJunk isFec) events :=
    meets_of_forall fun _ _ _ => trivial
  exact trace_invariant (fun _ _ event h _ => h.step lz4 event) hinit hall

/-- The output of a run is its symbols, each of them held for 32 samples, and the last one for as
long as the run goes on. -/
theorem wave_held (ar : Arithmetic F D) (lz4 : Lz4) (txJunk rxJunk : ℕ → UInt8) (isFec : Bool)
    (events : List (Event F)) :
    let hist := trace (step ar lz4) (stationInit ar txJunk rxJunk isFec) events
    let held := (symbols ar hist).flatMap fun x => List.replicate SAMPLES_PER_SYMBOL x
    (wave ar hist).length ≤ held.length ∧ held.length < (wave ar hist).length + SAMPLES_PER_SYMBOL ∧
      wave ar hist =
        (samples (generateFsk ar) (preCalcFsk ar) (held.take (wave ar hist).length)).1 := by
  intro hist held
  obtain ⟨hpos, hle, hheld, hout⟩ := run_holding ar lz4 txJunk rxJunk isFec events
  change heldSymbols ar hist ++ _ = held at hheld
  change samples (generateFsk ar) (preCalcFsk ar) (heldSymbols ar hist) = (wave ar hist, _) at hout
  have hlen : (heldSymbols ar hist).length = (wave ar hist).length := by
    rw [← samples_length (generateFsk ar) (preCalcFsk ar), hout]
  have htotal := congrArg List.length hheld
  rw [List.length_append, List.length_replicate, hlen] at htotal
  refine ⟨by omega, by omega, ?_⟩
  rw [← hheld, ← hlen, List.take_left, hout]

/-- The bits of the symbols fetched so far and the bits still in the ring are the stream. -/
structure Streaming (ar : Arithmetic F D) (lz4 : Lz4) (st : Station F)
    (hist : List (Station F × Event F)) : Prop where
  wellFormed : WellFormed st.echo.txRb
  stream : (symbols ar hist).flatMap symbolBits ++ unread st.echo.txRb = streamBits (items lz4 hist)
  whole : (unread st.echo.txRb).length % 2 = 0

theorem items_concat (lz4 : Lz4) (hist : List (Station F × Event F)) (h : Station F × Event F) :
    items lz4 (hist ++ [h]) = items lz4 hist ++ added lz4 h := by
  rw [items, List.flatMap_append, List.flatMap_singleton, items]

theorem streamBits_append (xs ys : List Item) :
    streamBits (xs ++ ys) = streamBits xs ++ streamBits ys := List.flatMap_append

theorem frames_append (xs ys : List Item) : frames (xs ++ ys) = frames xs ++ frames ys :=
  List.filterMap_append

theorem airBits_even (f : Frame) : (airBits f).length % 2 = 0 := by
  rw [airBits_length]
  omega

theorem sendPacket_fits (lz4 : Lz4) {e : Echo} {raw : List UInt8} (h : WellFormed e.txRb)
    (htest : ¬ freeSpace e.txRb < MAX_TX_FRAME_BYTES) (hpos : 1 ≤ raw.length)
    (hroom : 64 + 8 * (buildFrame lz4 e raw).1.payload.length ≤ freeBits e.txRb) :
    Holds (sendPacket lz4 e raw).txRb (unread e.txRb ++ airBits (buildFrame lz4 e raw).1) := by
  rw [← airBits_length] at hroom
  have hwritten : (written (puts (airBits (buildFrame lz4 e raw).1))).length ≤ freeBits e.txRb := by
    rwa [written_puts]
  obtain ⟨b', hb'⟩ := Option.isSome_iff_exists.mp (accesses_isSome h hwritten)
  rw [sendPacket_txRb htest (by omega) hb', ← pushBits_of_accesses hb']
  exact (pushBits_fits h hroom).1

theorem Streaming.write {ar : Arithmetic F D} {lz4 : Lz4} {st st' : Station F}
    {hist : List (Station F × Event F)} {event : Event F} {f : Frame} (h : Streaming ar lz4 st hist)
    (hfetched : fetched ar (st, event) = none) (hadded : added lz4 (st, event) = [.frame f])
    (hholds : Holds st'.echo.txRb (unread st.echo.txRb ++ airBits f)) :
    Streaming ar lz4 st' (hist ++ [(st, event)]) := by
  have heven := airBits_even f
  have hwhole := h.whole
  refine ⟨hholds.wellFormed, ?_, ?_⟩
  · rw [symbols, filterMap_concat, hfetched, Option.toList_none, List.append_nil, items_concat,
      streamBits_append, ← h.stream, hadded, hholds.unread_eq, ← List.append_assoc, symbols]
    simp only [streamBits, List.flatMap_singleton, itemBits]
  · rw [hholds.unread_eq, List.length_append]
    omega

theorem Streaming.pass {ar : Arithmetic F D} {lz4 : Lz4} {st st' : Station F}
    {hist : List (Station F × Event F)} {event : Event F} (h : Streaming ar lz4 st hist)
    (hfetched : fetched ar (st, event) = none) (hadded : added lz4 (st, event) = [])
    (hring : st'.echo.txRb = st.echo.txRb) : Streaming ar lz4 st' (hist ++ [(st, event)]) := by
  refine ⟨by rw [hring]; exact h.wellFormed, ?_, by rw [hring]; exact h.whole⟩
  rw [symbols, filterMap_concat, hfetched, Option.toList_none, List.append_nil, items_concat, hadded,
    List.append_nil, hring]
  exact h.stream

/-- A fetch moves two bits from the ring to the symbols, or adds an idle symbol. -/
theorem Streaming.fetch {ar : Arithmetic F D} {lz4 : Lz4} {st : Station F}
    {hist : List (Station F × Event F)} (h : Streaming ar lz4 st hist) (tick : Tick F)
    (hdue : st.txSampleCount ≥ SAMPLES_PER_SYMBOL) :
    Streaming ar lz4 (iteration ar st tick).2 (hist ++ [(st, .sample tick)]) := by
  obtain ⟨hsymbol, hring, -⟩ := iteration_due ar tick hdue
  have hstream := h.stream
  have hwhole := h.whole
  have hsymbols : symbols ar (hist ++ [(st, .sample tick)]) =
      symbols ar hist ++ [(fetchSymbol st.echo.txRb).1.getD idleSymbol] := by
    have hnew : fetched ar (st, .sample tick) = some (iteration ar st tick).2.currentTxSymbol :=
      if_pos hdue
    rw [symbols, filterMap_concat, hnew, hsymbol]
    rfl
  rcases fetchSymbol_cases h.wellFormed with ⟨hq, hfetch⟩ | ⟨bit, b', hq, -, -⟩ |
    ⟨bit0, bit1, q, b', hq, hfetch, hb'⟩
  · have hadded : added lz4 (st, .sample tick) = [.idle, .idle] := if_pos ⟨hdue, by rw [hfetch]⟩
    have hidle : symbolBits idleSymbol = streamBits [.idle, .idle] := by decide
    refine ⟨by rw [hring, hfetch]; exact h.wellFormed, ?_, by rw [hring, hfetch]; exact hwhole⟩
    rw [hsymbols, items_concat, hadded, streamBits_append, hring, hfetch, ← hstream, hq,
      List.flatMap_append, List.flatMap_singleton, ← hidle, List.append_nil, List.append_nil]
    rfl
  · rw [hq] at hwhole
    exact absurd hwhole (by simp)
  · have hadded : added lz4 (st, .sample tick) = [] :=
      if_neg fun hnone => by rw [hfetch] at hnone; exact absurd hnone.2 (by simp)
    rw [hq] at hwhole hstream
    refine ⟨by rw [hring, hfetch]; exact hb'.wellFormed, ?_, ?_⟩
    · rw [hsymbols, items_concat, hadded, List.append_nil, hring, hfetch, ← hstream,
        List.flatMap_append, List.flatMap_singleton, Option.getD_some, symbolBits_symbol,
        hb'.unread_eq, List.append_assoc]
      rfl
    · rw [hring, hfetch, hb'.unread_eq]
      simp only [List.length_cons] at hwhole
      omega

theorem Streaming.step {ar : Arithmetic F D} {lz4 : Lz4} {st : Station F}
    {hist : List (Station F × Event F)} (h : Streaming ar lz4 st hist) {event : Event F}
    (hroom : Room lz4 st event) : Streaming ar lz4 (step ar lz4 st event) (hist ++ [(st, event)]) := by
  cases event with
  | enter => exact h.pass (ite_self _) rfl rfl
  | sample tick =>
    by_cases hdue : st.txSampleCount ≥ SAMPLES_PER_SYMBOL
    · exact h.fetch tick hdue
    · exact h.pass (if_neg hdue) (if_neg fun hnone => hdue hnone.1)
        (iteration_held ar tick (not_le.mp hdue)).2.1
  | warmUp => exact h.write (ite_self _) rfl (warmUpPacket_fits h.wellFormed hroom).1
  | send raw =>
    by_cases htest : freeSpace st.echo.txRb < MAX_TX_FRAME_BYTES
    · exact h.pass (ite_self _) (if_pos htest) (by rw [Callback.step, sendPacket, if_pos htest])
    · obtain ⟨hpos, hfits⟩ := hroom.resolve_left htest
      exact h.write (ite_self _) (if_neg htest) (sendPacket_fits lz4 h.wellFormed htest hpos hfits)
  | handle memory =>
    exact h.pass (ite_self _) rfl (mainBlock_sender lz4 memory st.echo).txRb

end EchoProtocol.Playback
