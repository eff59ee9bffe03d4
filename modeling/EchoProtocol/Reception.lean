import EchoProtocol.GappedStream

/-!
# A station that listens

Every 32 samples the callback hands two bits to the receiver, while the main program takes
completed frames and sends packets of its own. When the bits are those of another station's
stream, the frames that the main program takes are those of the stream.
-/
namespace EchoProtocol.Reception
open RingBits SyncWord Rohc Frames Endpoint Transmit Receive ReceiveMachine FrameRoundTrip
  FrameStream ReceiveBuffer Delivery Modem Demodulation Callback WarmUp Playback GappedStream Runs

variable {F D : Type}

/-- The bits that an event hands to the receiver. -/
def decided (ar : Arithmetic F D) (h : Station F × Event F) : List Bool :=
  match h.2 with
  | .sample ⟨some sample, _, _⟩ =>
      if (h.1.rxSampleCount + 1) % 2 ^ 16 < SAMPLES_PER_SYMBOL then []
      else
        let bits := decidedBits (strongest ar (measure ar h.1.freqStates sample).1)
        [bits.1, bits.2]
  | _ => []

def heardBits (ar : Arithmetic F D) (hist : List (Station F × Event F)) : List Bool :=
  hist.flatMap (decided ar)

/-- The receiver has not timed out at a symbol, and the clock moves on by at most six seconds
between its two bits. -/
def OnTime (ar : Arithmetic F D) (h : Station F × Event F) : Prop :=
  match h.2 with
  | .sample tick => decided ar h ≠ [] →
      ¬ expired h.1.echo tick.now ∧ 0 ≤ tick.now ∧ tick.now < 2 ^ 32 ∧ tick.now' ≤ tick.now + 6
  | _ => True

/-- The main program has taken the last frame when the sync word of the next one begins. -/
def Timely (ar : Arithmetic F D) (items : List Item) (hist : List (Station F × Event F)) : Prop :=
  ∀ past h, past ++ [h] <+: hist → decided ar h ≠ [] → AtSync items (heardBits ar past).length →
    h.1.echo.rx.packetReady = false

/-- An endpoint after the frames it has been handed, each with the memory that was found. -/
def received (lz4 : Lz4) (r : Echo) (arrivals : List (Frame × Memory)) : Echo :=
  arrivals.foldl (fun r a => deliver lz4 a.2 r a.1) r

theorem received_concat (lz4 : Lz4) (r : Echo) (arrivals : List (Frame × Memory)) (f : Frame)
    (memory : Memory) : received lz4 r (arrivals ++ [(f, memory)]) =
      deliver lz4 memory (received lz4 r arrivals) f := List.foldl_concat _ _ _ _

/-- A stream of whole symbols whose sync words begin with a symbol. -/
structure Paired (items : List Item) : Prop where
  whole : (streamBits items).length % 2 = 0
  aligned : ∀ n, AtSync items n → n % 2 = 0

theorem paired_nil : Paired [] :=
  ⟨rfl, fun _ ⟨past, f, rest, split, _⟩ => absurd split (by simp)⟩

theorem Paired.append {xs ys : List Item} (hx : Paired xs) (hy : Paired ys) : Paired (xs ++ ys) := by
  have hxw := hx.whole
  have hyw := hy.whole
  refine ⟨by rw [streamBits_append, List.length_append]; omega, ?_⟩
  rintro n ⟨past, f, rest, split, rfl⟩
  rcases List.append_eq_append_iff.mp split with ⟨mid, hpast, hys⟩ | ⟨mid, hxs, hrest⟩
  · have hin := hy.aligned _ ⟨mid, f, rest, hys, rfl⟩
    rw [hpast, streamBits_append, List.length_append]
    omega
  · cases mid with
    | nil =>
      rw [List.append_nil] at hxs
      rw [← hxs]
      omega
    | cons item mid =>
      rw [List.cons_append, List.cons.injEq] at hrest
      exact hx.aligned _ ⟨past, f, mid, by rw [hxs, ← hrest.1], rfl⟩

theorem added_paired (lz4 : Lz4) (h : Station F × Event F) : Paired (added lz4 h) := by
  have hframe : ∀ f, Paired [.frame f] := fun f => by
    refine ⟨?_, ?_⟩
    · have heven := airBits_even f
      simpa [streamBits, itemBits] using heven
    · rintro n ⟨past, f', rest, split, rfl⟩
      cases past with
      | nil => rfl
      | cons item past => exact absurd split (by simp)
  have hidle : Paired [.idle, .idle] := by
    refine ⟨rfl, ?_⟩
    rintro n ⟨past, f', rest, split, rfl⟩
    have hmem : Item.frame f' ∈ [Item.idle, .idle] := split ▸ by simp
    exact absurd hmem (by simp)
  rcases h with ⟨st, event⟩
  cases event with
  | sample tick =>
    simp only [added]
    split_ifs
    · exact hidle
    · exact paired_nil
  | warmUp => exact hframe _
  | send raw =>
    simp only [added]
    split_ifs
    · exact paired_nil
    · exact hframe _
  | enter => exact paired_nil
  | handle memory => exact paired_nil

theorem decided_length (ar : Arithmetic F D) (h : Station F × Event F) :
    decided ar h = [] ∨ (decided ar h).length = 2 := by
  rcases h with ⟨st, event⟩
  cases event with
  | sample tick =>
    rcases tick with ⟨_ | sample, now, now'⟩
    · exact .inl rfl
    · simp only [decided]
      split_ifs
      · exact .inl rfl
      · exact .inr rfl
  | enter => exact .inl rfl
  | warmUp => exact .inl rfl
  | send raw => exact .inl rfl
  | handle memory => exact .inl rfl

theorem heardBits_even (ar : Arithmetic F D) (hist : List (Station F × Event F)) :
    (heardBits ar hist).length % 2 = 0 := by
  induction hist with
  | nil => rfl
  | cons h hist ih =>
    rw [heardBits, List.flatMap_cons, List.length_append]
    rw [heardBits] at ih
    rcases decided_length ar h with hnone | htwo
    · rw [hnone, List.length_nil]
      omega
    · omega

/-- The sender leaves the receiver alone. -/
structure SameReceiver (e e' : Echo) : Prop where
  rx : e'.rx = e.rx
  rxRb : e'.rxRb = e.rxRb
  rxScrambler : e'.rxScrambler = e.rxScrambler
  correlator : e'.correlator = e.correlator
  rohcRx : e'.rohcRx = e.rohcRx
  tunOut : e'.tunOut = e.tunOut

theorem SameReceiver.refl (e : Echo) : SameReceiver e e := ⟨rfl, rfl, rfl, rfl, rfl, rfl⟩

section Same
variable {e e' : Echo}

theorem SameReceiver.detector (h : SameReceiver e e') : detector e' = detector e := by
  rw [Endpoint.detector, h.rx, h.correlator, Endpoint.detector]

theorem SameReceiver.searching (h : SameReceiver e e') (hs : Searching e) : Searching e' :=
  ⟨by rw [h.rx]; exact hs.state, by rw [h.rxRb]; exact hs.ring, by rw [h.rx]; exact hs.notReady⟩

theorem SameReceiver.announced (h : SameReceiver e e') {header : ℕ} (ha : Announced e header) :
    Announced e' header :=
  ⟨ha.valid, by rw [h.rx]; exact ha.comp, by rw [h.rx]; exact ha.rohc, by rw [h.rx]; exact ha.fec,
    by rw [h.rx]; exact ha.len⟩

theorem SameReceiver.receiving (h : SameReceiver e e') {bits : List Bool} (hr : Receiving e bits) :
    Receiving e' bits where
  state := by rw [h.rx]; exact hr.state
  ring := by rw [h.rxRb]; exact hr.ring
  count := by rw [h.rx]; exact hr.count
  scrambler := by rw [h.rxScrambler]; exact hr.scrambler
  header := by rw [h.rx]; exact hr.header
  announced := fun hle => h.announced (hr.announced hle)
  unfinished := by rw [h.rx]; exact hr.unfinished

theorem SameReceiver.complete (h : SameReceiver e e') {bits : List Bool} (hc : Complete e bits) :
    Complete e' bits where
  state := by rw [h.rx]; exact hc.state
  ready := by rw [h.rx]; exact hc.ready
  ring := by rw [h.rxRb]; exact hc.ring
  count := by rw [h.rx]; exact hc.count
  announced := h.announced hc.announced
  finished := by rw [h.rx]; exact hc.finished

theorem SameReceiver.phase (h : SameReceiver e e') {items : List Item} {n : ℕ} {handed : List Frame}
    (hp : Phase items e n handed) : Phase items e' n handed := by
  have hdet := h.detector
  cases hp with
  | searching past rest split hs ready =>
    exact .searching past rest split (h.searching hs) (by rw [hdet]; exact ready)
  | announced past rest f p split hs early ready =>
    exact .announced past rest f p split (h.searching hs) early (by rw [hdet]; exact ready)
  | arriving past rest f k split hr unfinished notReady found =>
    exact .arriving past rest f k split (h.receiving hr) unfinished (by rw [h.rx]; exact notReady)
      (by rw [hdet]; exact found)
  | waiting past rest f handed split last hc quiet =>
    exact .waiting past rest f handed split last (h.complete hc) (by rw [hdet]; exact quiet)
  | overtaken past rest f f' p handed split last hc early quiet =>
    exact .overtaken past rest f f' p handed split last (h.complete hc) early
      (by rw [hdet]; exact quiet)

theorem SameReceiver.follows (h : SameReceiver e e') {r : Echo} (hf : Follows r e) : Follows r e' :=
  ⟨hf.ring, h.rohcRx.trans hf.rohcRx, h.tunOut.trans hf.tunOut⟩

end Same

theorem warmUpPacket_receiver (e : Echo) : SameReceiver e (warmUpPacket e) :=
  ⟨rfl, rfl, rfl, rfl, rfl, rfl⟩

theorem buildFrame_receiver (lz4 : Lz4) (e : Echo) (raw : List UInt8) :
    SameReceiver e (buildFrame lz4 e raw).2 := by
  obtain ⟨len, hbuilt⟩ := buildFrame_snd lz4 e raw
  rw [hbuilt]
  exact ⟨rfl, rfl, rfl, rfl, rfl, rfl⟩

theorem sendPacket_receiver (lz4 : Lz4) (e : Echo) (raw : List UInt8) :
    SameReceiver e (sendPacket lz4 e raw) := by
  simp only [sendPacket, tunToRb]
  split_ifs
  · exact .refl e
  · exact ⟨rfl, rfl, rfl, rfl, rfl, rfl⟩
  · obtain ⟨hrx, hrxRb, hscr, hcorr, hrohc, htun⟩ := buildFrame_receiver lz4
      { e with txRb := pushSyncWord (pushPreamble e.txRb) } raw
    exact ⟨hrx, hrxRb, hscr, hcorr, hrohc, htun⟩

theorem iteration_receiver (ar : Arithmetic F D) (st : Station F) (tick : Tick F) :
    SameReceiver (hear ar st tick).echo (iteration ar st tick).2.echo := by
  simp only [iteration, sampleOut, nextSymbol]
  split_ifs
  · exact ⟨rfl, rfl, rfl, rfl, rfl, rfl⟩
  · exact .refl _

theorem handleDataState_output (e : Echo) (bit : Bool) :
    (handleDataState e bit).rohcRx = e.rohcRx ∧ (handleDataState e bit).tunOut = e.tunOut := by
  simp only [handleDataState]
  split_ifs <;> exact ⟨rfl, rfl⟩

theorem processRxBit_output (e : Echo) (now : ℤ) (bit : Bool) :
    (processRxBit e now bit).rohcRx = e.rohcRx ∧ (processRxBit e now bit).tunOut = e.tunOut := by
  simp only [processRxBit]
  split_ifs
  · exact ⟨rfl, rfl⟩
  · exact ⟨rfl, rfl⟩
  · exact ⟨rfl, rfl⟩
  · exact handleDataState_output { e with rx := { e.rx with lastRxTime := (now % 2 ^ 32).toNat } } bit

/-- A bit that does not expire sets the clock for the next one. -/
theorem processRxBit_fresh {e : Echo} {now now' : ℤ} (bit : Bool) (h : ¬ expired e now)
    (hpos : 0 ≤ now) (hlt : now < 2 ^ 32) (hnext : now' ≤ now + 6) :
    ¬ expired (processRxBit e now bit) now' := by
  rintro ⟨hdata, hgap⟩
  have htime : (processRxBit e now bit).rx.lastRxTime = (now % 2 ^ 32).toNat := by
    cases hstate : e.rx.state with
    | DATA => exact processRxBit_lastRxTime bit hstate h
    | SEARCHING =>
      cases hsync : (checkSyncWord (detector e) bit).1 with
      | false =>
        rw [processRxBit_search now hstate hsync] at hdata
        exact absurd (hstate.symm.trans hdata) (by decide)
      | true =>
        simp only [processRxBit]
        rw [if_neg h, if_pos hstate, if_neg (by simp [hsync])]
  rw [htime, Int.emod_eq_of_lt hpos hlt] at hgap
  omega

theorem processRxBit_time {e : Echo} {now : ℤ} (bit : Bool) (hpos : 0 ≤ now) (hlt : now < 2 ^ 32)
    (h : (e.rx.lastRxTime : ℤ) ≤ now) : ((processRxBit e now bit).rx.lastRxTime : ℤ) ≤ now := by
  have hset : ((now % 2 ^ 32).toNat : ℤ) ≤ now := by
    rw [Int.emod_eq_of_lt hpos hlt, Int.toNat_of_nonneg hpos]
  simp only [processRxBit]
  split_ifs
  · exact h
  · exact h
  · exact hset
  · rw [handleDataState_lastRxTime]
    exact hset

/-- Where a listening station stands after `n` bits of a stream. -/
structure Listening (lz4 : Lz4) (r : Echo) (items : List Item) (e : Echo) (n : ℕ)
    (arrivals : List (Frame × Memory)) : Prop where
  phase : Phase items e n (arrivals.map Prod.fst)
  follows : Follows (received lz4 r arrivals) e

section Listening
variable {lz4 : Lz4} {r e e' : Echo} {items : List Item} {n : ℕ} {arrivals : List (Frame × Memory)}

theorem Listening.of_sameReceiver (h : Listening lz4 r items e n arrivals)
    (hsame : SameReceiver e e') : Listening lz4 r items e' n arrivals :=
  ⟨hsame.phase h.phase, hsame.follows h.follows⟩

theorem Listening.symbol (h : Listening lz4 r items e n arrivals) (hpaired : Paired items)
    (hvalid : ∀ f ∈ frames items, ValidFrame f) {now now' : ℤ} {bit0 bit1 : Bool} (hn : n % 2 = 0)
    (hbits : (streamBits items)[n]? = some bit0 ∧ (streamBits items)[n + 1]? = some bit1)
    (hclock : ¬ expired e now ∧ 0 ≤ now ∧ now < 2 ^ 32 ∧ now' ≤ now + 6)
    (htimely : AtSync items n → e.rx.packetReady = false) :
    Listening lz4 r items (processRxBit (processRxBit e now bit0) now' bit1) (n + 2) arrivals := by
  obtain ⟨hfresh, hpos, hlt, hnext⟩ := hclock
  have hfirst := h.phase.bit hvalid hfresh htimely hbits.1
  have hsecond := hfirst.bit hvalid (processRxBit_fresh bit0 hfresh hpos hlt hnext)
    (fun hat => absurd (hpaired.aligned _ hat) (by omega)) hbits.2
  obtain ⟨hrohc, htun⟩ := processRxBit_output e now bit0
  obtain ⟨hrohc', htun'⟩ := processRxBit_output (processRxBit e now bit0) now' bit1
  exact ⟨hsecond, h.follows.ring, (hrohc'.trans hrohc).trans h.follows.rohcRx,
    (htun'.trans htun).trans h.follows.tunOut⟩

theorem Listening.main (h : Listening lz4 r items e n arrivals)
    (hvalid : ∀ f ∈ frames items, ValidFrame f) (memory : Memory) :
    ∃ arrivals', Listening lz4 r items (mainBlock lz4 memory e) n arrivals' := by
  rcases h.phase.main hvalid lz4 memory h.follows with ⟨hphase, hfollows⟩ | ⟨f, hphase, hfollows⟩
  · exact ⟨arrivals, hphase, hfollows⟩
  · refine ⟨arrivals ++ [(f, memory)], ?_, ?_⟩
    · rw [List.map_append]
      exact hphase
    · rw [received_concat]
      exact hfollows

end Listening

theorem heardBits_append (ar : Arithmetic F D) (past later : List (Station F × Event F)) :
    heardBits ar (past ++ later) = heardBits ar past ++ heardBits ar later := List.flatMap_append

theorem heardBits_concat (ar : Arithmetic F D) (hist : List (Station F × Event F))
    (h : Station F × Event F) : heardBits ar (hist ++ [h]) = heardBits ar hist ++ decided ar h := by
  rw [heardBits_append, heardBits, heardBits, List.flatMap_singleton]

/-- A sample is one of many, or completes a symbol. -/
theorem hear_listening (ar : Arithmetic F D) {lz4 : Lz4} {r : Echo} {items : List Item}
    (hpaired : Paired items) (hvalid : ∀ f ∈ frames items, ValidFrame f) {st : Station F}
    {tick : Tick F} {bits : List Bool} {arrivals : List (Frame × Memory)}
    (h : Listening lz4 r items st.echo bits.length arrivals) (heven : bits.length % 2 = 0)
    (hbits : bits ++ decided ar (st, .sample tick) <+: streamBits items)
    (hclock : OnTime ar (st, .sample tick))
    (htimely : decided ar (st, .sample tick) ≠ [] → AtSync items bits.length →
      st.echo.rx.packetReady = false) :
    Listening lz4 r items (hear ar st tick).echo (bits ++ decided ar (st, .sample tick)).length
      arrivals := by
  rcases tick with ⟨_ | sample, now, now'⟩
  · rw [show decided ar (st, .sample ⟨none, now, now'⟩) = [] from rfl, List.append_nil]
    exact h
  · change Listening lz4 r items (audioToRb ar st sample now now').echo _ arrivals
    by_cases hwithin : (st.rxSampleCount + 1) % 2 ^ 16 < SAMPLES_PER_SYMBOL
    · have hnone : decided ar (st, .sample ⟨some sample, now, now'⟩) = [] := if_pos hwithin
      rw [hnone, List.append_nil, audioToRb_within ar st now now' sample hwithin]
      exact h
    · have htwo : decided ar (st, .sample ⟨some sample, now, now'⟩) =
          [(decidedBits (strongest ar (measure ar st.freqStates sample).1)).1,
            (decidedBits (strongest ar (measure ar st.freqStates sample).1)).2] := if_neg hwithin
      rw [OnTime, htwo] at hclock
      rw [htwo] at hbits htimely ⊢
      obtain ⟨rest, hrest⟩ := hbits
      rw [List.length_append, audioToRb_full ar st now now' sample hwithin]
      refine h.symbol hpaired hvalid heven ?_ (hclock (List.cons_ne_nil _ _))
        (htimely (List.cons_ne_nil _ _))
      rw [← hrest, List.append_assoc]
      constructor
      · rw [List.getElem?_append_right le_rfl, Nat.sub_self]
        rfl
      · rw [List.getElem?_append_right (Nat.le_add_right _ 1), Nat.add_sub_cancel_left]
        rfl

/-- One event of a station that hears a stream. -/
theorem step_listening (ar : Arithmetic F D) (lz4 : Lz4) {r : Echo} {items : List Item}
    (hpaired : Paired items) (hvalid : ∀ f ∈ frames items, ValidFrame f) {st : Station F}
    {past : List (Station F × Event F)} {event : Event F} {arrivals : List (Frame × Memory)}
    (h : Listening lz4 r items st.echo (heardBits ar past).length arrivals)
    (hbits : heardBits ar (past ++ [(st, event)]) <+: streamBits items)
    (hclock : OnTime ar (st, event))
    (htimely : decided ar (st, event) ≠ [] → AtSync items (heardBits ar past).length →
      st.echo.rx.packetReady = false) :
    ∃ arrivals', Listening lz4 r items (Callback.step ar lz4 st event).echo
      (heardBits ar (past ++ [(st, event)])).length arrivals' := by
  rw [heardBits_concat] at hbits ⊢
  cases event with
  | enter =>
    rw [show decided ar (st, .enter) = [] from rfl, List.append_nil]
    exact ⟨arrivals, h⟩
  | warmUp =>
    rw [show decided ar (st, .warmUp) = [] from rfl, List.append_nil]
    exact ⟨arrivals, h.of_sameReceiver (warmUpPacket_receiver st.echo)⟩
  | send raw =>
    rw [show decided ar (st, .send raw) = [] from rfl, List.append_nil]
    exact ⟨arrivals, h.of_sameReceiver (sendPacket_receiver lz4 st.echo raw)⟩
  | handle memory =>
    rw [show decided ar (st, .handle memory) = [] from rfl, List.append_nil]
    exact h.main hvalid memory
  | sample tick =>
    have hheard := hear_listening ar hpaired hvalid h (heardBits_even ar past) hbits hclock htimely
    exact ⟨arrivals, hheard.of_sameReceiver (iteration_receiver ar st tick)⟩

theorem echoInit_ready (txJunk rxJunk : ℕ → UInt8) (isFec : Bool) (lz4 : Lz4) (items : List Item) :
    Listening lz4 (echoInit txJunk rxJunk isFec) items (echoInit txJunk rxJunk isFec) 0 [] :=
  ⟨.searching [] items rfl (echoInit_searching txJunk rxJunk isFec) ready_blank,
    rbInit_holds rxJunk, rfl, rfl⟩

/-- The frames that a listening station takes are those that have passed, in order, each once,
however long the pauses between them are; only the last one may still be waiting. -/
theorem run_listening (ar : Arithmetic F D) (lz4 : Lz4) (txJunk rxJunk : ℕ → UInt8) (isFec : Bool)
    {events : List (Event F)} {items : List Item} (hpaired : Paired items)
    (hvalid : ∀ f ∈ frames items, ValidFrame f)
    (hbits : heardBits ar (trace (step ar lz4) (stationInit ar txJunk rxJunk isFec) events) <+:
      streamBits items)
    (hclock : ∀ h ∈ trace (step ar lz4) (stationInit ar txJunk rxJunk isFec) events, OnTime ar h)
    (htimely : Timely ar items (trace (step ar lz4) (stationInit ar txJunk rxJunk isFec) events)) :
    ∃ arrivals, Listening lz4 (echoInit txJunk rxJunk isFec) items
      (run (step ar lz4) (stationInit ar txJunk rxJunk isFec) events).echo
      (heardBits ar (trace (step ar lz4) (stationInit ar txJunk rxJunk isFec) events)).length
      arrivals := by
  have hinit : ∃ arrivals, Listening lz4 (echoInit txJunk rxJunk isFec) items
      (stationInit ar txJunk rxJunk isFec).echo 0 arrivals :=
    ⟨[], echoInit_ready txJunk rxJunk isFec lz4 items⟩
  refine trace_induction (I := fun st hist => ∃ arrivals, Listening lz4
    (echoInit txJunk rxJunk isFec) items st.echo (heardBits ar hist).length arrivals) hinit ?_
  rintro st past event hpast ⟨arrivals, h⟩
  have hbegins : heardBits ar (past ++ [(st, event)]) <+:
      heardBits ar (trace (step ar lz4) (stationInit ar txJunk rxJunk isFec) events) := by
    obtain ⟨rest, hrest⟩ := hpast
    rw [← hrest]
    exact ⟨heardBits ar rest, (heardBits_append ar _ _).symm⟩
  have hmem : (st, event) ∈ trace (step ar lz4) (stationInit ar txJunk rxJunk isFec) events :=
    hpast.subset (by simp)
  exact step_listening ar lz4 hpaired hvalid h (hbegins.trans hbits) (hclock _ hmem)
    (htimely past _ hpast)

end EchoProtocol.Reception
