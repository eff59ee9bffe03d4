import EchoProtocol.Reception

/-!
# The statistics

Every sync word that is found opens a frame. The counters tell how most of the frames end; four
ways for a frame to end leave no trace in them.
-/
namespace EchoProtocol.Accounting
open Bytes RingBits Scrambling SyncWord Frames Endpoint Transmit Receive Modem Callback WarmUp
  Reception Runs

variable {F D : Type}

/-- How a frame can end without being counted: its header is refused, it still waits for the main
loop when the next one is complete, it is arriving when `rb_to_tun` resets the receiver, or
`rb_to_tun` neither writes nor counts it. -/
inductive Loss
  | refused
  | overtaken
  | interrupted
  | dropped

/-- The bit ends a header that is not valid. -/
def refuses (e : Echo) (bit : Bool) : Prop :=
  let accumulator := (2 * e.rx.headerAccumulator +
    (scramblerProcess e.rxScrambler bit).1.toNat) % 2 ^ 64
  (e.rx.bitsReceived + 1) % 2 ^ 16 = 16 ∧ isValidHeader (accumulator &&& 0xFFFF) = false

/-- The bit ends a frame while another one is waiting. -/
def overtakes (e : Echo) : Prop :=
  let bitsReceived := (e.rx.bitsReceived + 1) % 2 ^ 16
  bitsReceived > 16 ∧ bitsReceived = e.rx.packetLen * 8 + 16 ∧ e.rx.packetReady = true

instance (e : Echo) (bit : Bool) : Decidable (refuses e bit) := inferInstanceAs (Decidable (_ ∧ _))

instance (e : Echo) : Decidable (overtakes e) := inferInstanceAs (Decidable (_ ∧ _ ∧ _))

/-- What is lost with a bit of a frame. -/
def dataLoss (e : Echo) (bit : Bool) : List Loss :=
  if refuses e bit then [.refused] else if overtakes e then [.overtaken] else []

def bitLoss (e : Echo) (now : ℤ) (bit : Bool) : List Loss :=
  if expired e now ∨ e.rx.state = .SEARCHING then [] else dataLoss e bit

/-- The verdict of `rb_to_tun` on what it finds in the ring, unless it finds too few bits. -/
def handled (lz4 : Lz4) (memory : Memory) (e : Echo) : Option Verdict :=
  let first := readBits 16 e.rxRb
  first.1.bind fun _ =>
    if e.rx.packetLen = 0 ∨ e.rx.packetLen > SIZE_BUF * 2 then some .rejected
    else (readBits (e.rx.packetLen * SIZE_BYTE) first.2).1.map fun bits =>
      (judge lz4 memory e.rx e.rohcRx (packBits bits) e.rx.packetLen).1

/-- The frame that waits is neither written nor counted. -/
def drops (lz4 : Lz4) (memory : Memory) (e : Echo) : Prop :=
  e.rx.packetLen = 0 ∨ handled lz4 memory e = none ∨ handled lz4 memory e = some .empty

instance (lz4 : Lz4) (memory : Memory) (e : Echo) : Decidable (drops lz4 memory e) :=
  inferInstanceAs (Decidable (_ ∨ _ ∨ _))

/-- What is lost with a call of `rb_to_tun`. -/
def blockLoss (lz4 : Lz4) (memory : Memory) (e : Echo) : List Loss :=
  if e.rx.packetReady then
    (if 0 < e.rx.packetLen ∧ e.rx.state = .DATA then [.interrupted] else []) ++
      if drops lz4 memory e then [.dropped] else []
  else []

def losses (ar : Arithmetic F D) (lz4 : Lz4) (h : Station F × Event F) : List Loss :=
  match h.2 with
  | .sample tick =>
      match decided ar h with
      | [bit0, bit1] => bitLoss h.1.echo tick.now bit0 ++
          bitLoss (processRxBit h.1.echo tick.now bit0) tick.now' bit1
      | _ => []
  | .handle memory => blockLoss lz4 memory h.1.echo
  | _ => []

/-- A packet is read from the TUN and passed on. -/
def takes (h : Station F × Event F) : Bool :=
  match h.2 with
  | .send raw => decide (¬ (freeSpace h.1.echo.txRb < MAX_TX_FRAME_BYTES ∨ raw.length = 0))
  | _ => false

/-- The frames that are open: one may be arriving while another one waits for the main loop. -/
def underway (e : Echo) : ℕ := (if e.rx.state = .DATA then 1 else 0) + e.rx.packetReady.toNat

/-- The counters agree, up to their wrap-around, with what has been taken from the TUN, written to
it and lost. -/
structure Books (e : Echo) (taken lost : ℕ) : Prop where
  sent : e.stats.txPackets = .ofNat taken
  packets : e.stats.rxPackets = .ofNat e.tunOut.length
  bytes : e.stats.rxBytes = .ofNat (e.tunOut.map List.length).sum
  balance : e.stats.rxSyncFound = e.stats.rxPackets + e.stats.rxCorrupted + e.stats.rxTimeouts +
    .ofNat (underway e + lost)

section Bit
variable {e e' : Echo} {taken lost : ℕ}

theorem Books.of_counters (h : Books e taken lost) {lost' : ℕ} (hstats : e'.stats = e.stats)
    (hout : e'.tunOut = e.tunOut) (hopen : underway e' + lost' = underway e + lost) :
    Books e' taken lost' := by
  refine ⟨hstats ▸ h.sent, ?_, ?_, ?_⟩
  · rw [hstats, hout]
    exact h.packets
  · rw [hstats, hout]
    exact h.bytes
  · rw [hstats, hopen]
    exact h.balance

theorem handleDataState_books (h : Books e taken lost) (hstate : e.rx.state = .DATA) (bit : Bool) :
    Books (handleDataState e bit) taken (lost + (dataLoss e bit).length) := by
  simp only [handleDataState]
  by_cases hpayload : (e.rx.bitsReceived + 1) % 2 ^ 16 > 16
  · have hvalid : ¬ refuses e bit := fun hr => absurd hr.1 (by omega)
    rw [dataLoss, if_neg hvalid, if_pos hpayload]
    by_cases hdone : (e.rx.bitsReceived + 1) % 2 ^ 16 = e.rx.packetLen * 8 + 16
    · -- the frame is complete, and one that was waiting is lost
      rw [if_pos hdone]
      cases hready : e.rx.packetReady with
      | true =>
        rw [if_pos ⟨hpayload, hdone, hready⟩]
        exact h.of_counters rfl rfl (by simp [underway, hstate, hready]; omega)
      | false =>
        rw [if_neg fun ho : overtakes e => absurd (hready.symm.trans ho.2.2) (by decide)]
        exact h.of_counters rfl rfl (by simp [underway, hstate, hready])
    · rw [if_neg hdone, if_neg fun ho : overtakes e => hdone ho.2.1]
      exact h.of_counters rfl rfl rfl
  · have hearly : ¬ overtakes e := fun ho => hpayload ho.1
    rw [dataLoss, if_neg hearly, if_neg hpayload]
    by_cases hheader : (e.rx.bitsReceived + 1) % 2 ^ 16 = 16
    · rw [if_neg (not_not.mpr hheader)]
      by_cases hrefused : refuses e bit
      · rw [if_pos hrefused, if_pos (by simpa using hrefused.2)]
        exact h.of_counters rfl rfl (by simp [underway, hstate, rxReset, RxState.reset]; omega)
      · rw [if_neg hrefused, if_neg fun hinvalid => hrefused ⟨hheader, by simpa using hinvalid⟩]
        exact h.of_counters rfl rfl rfl
    · rw [if_pos hheader, if_neg fun hr : refuses e bit => hheader hr.1]
      exact h.of_counters rfl rfl rfl

theorem processRxBit_books (h : Books e taken lost) (now : ℤ) (bit : Bool) :
    Books (processRxBit e now bit) taken (lost + (bitLoss e now bit).length) := by
  have hbalance := h.balance
  simp only [processRxBit, bitLoss]
  by_cases hexpired : expired e now
  · have hstate := hexpired.1
    simp only [hexpired, if_true, true_or]
    refine ⟨h.sent, h.packets, h.bytes, ?_⟩
    simp [underway, hstate] at hbalance ⊢
    grind
  · by_cases hsearch : e.rx.state = .SEARCHING
    · simp only [hexpired, if_false, hsearch, if_true, or_true]
      split_ifs with hsync
      · exact h.of_counters rfl rfl rfl
      · refine ⟨h.sent, h.packets, h.bytes, ?_⟩
        simp [underway, hsearch, setDetector] at hbalance ⊢
        grind
    · have hdata : e.rx.state = .DATA := by
        cases hstate : e.rx.state with
        | SEARCHING => exact absurd hstate hsearch
        | DATA => rfl
      simp only [hexpired, if_false, hsearch, or_self]
      have htouched :
          Books { e with rx := { e.rx with lastRxTime := (now % 2 ^ 32).toNat } } taken lost :=
        h.of_counters rfl rfl rfl
      exact handleDataState_books htouched hdata bit

end Bit

/-- An endpoint after a verdict, or after none. -/
def outcome (e : Echo) : Option Verdict → Echo
  | none => e
  | some v => record e v

theorem rbToTun_handled (lz4 : Lz4) (memory : Memory) (e : Echo) :
    (rbToTun lz4 memory e e.rx.packetLen).stats = (outcome e (handled lz4 memory e)).stats ∧
      (rbToTun lz4 memory e e.rx.packetLen).tunOut = (outcome e (handled lz4 memory e)).tunOut := by
  simp only [rbToTun, handled]
  cases (readBits 16 e.rxRb).1 with
  | none => exact ⟨rfl, rfl⟩
  | some header =>
    rw [Option.bind_some]
    by_cases hlen : e.rx.packetLen = 0 ∨ e.rx.packetLen > SIZE_BUF * 2
    · rw [if_pos hlen, if_pos hlen]
      exact ⟨rfl, rfl⟩
    · rw [if_neg hlen, if_neg hlen]
      cases (readBits (e.rx.packetLen * SIZE_BYTE) (readBits 16 e.rxRb).2).1 with
      | none => exact ⟨rfl, rfl⟩
      | some bits =>
        simp only [Option.map_some, outcome, processPayload, rxReset]
        generalize judge lz4 memory e.rx e.rohcRx (packBits bits) e.rx.packetLen = judged
        rcases judged with ⟨_ | _ | out, s⟩ <;> exact ⟨rfl, rfl⟩

theorem Books.handled {e e' : Echo} {taken lost : ℕ} (h : Books e taken lost) (verdict : Option Verdict)
    (interrupted : ℕ) (hready : e.rx.packetReady = true) (hnotReady : e'.rx.packetReady = false)
    (hstats : e'.stats = (outcome e verdict).stats) (hout : e'.tunOut = (outcome e verdict).tunOut)
    (hstate : (if e'.rx.state = .DATA then 1 else 0) + interrupted =
      if e.rx.state = .DATA then 1 else 0) :
    Books e' taken (lost + interrupted + if verdict = none ∨ verdict = some .empty then 1 else 0) := by
  have hbalance := h.balance
  have hpackets := h.packets
  have hbytes := h.bytes
  rw [underway, hready, Bool.toNat_true] at hbalance
  have hopen : underway e' = if e'.rx.state = .DATA then 1 else 0 := by
    rw [underway, hnotReady, Bool.toNat_false, Nat.add_zero]
  have hcount : (if e.rx.state = .DATA then 1 else 0) + 1 + lost =
      underway e' + (lost + interrupted) + 1 := by omega
  rw [hcount] at hbalance
  simp only [UInt64.ofNat_add] at hbalance
  refine ⟨?_, ?_, ?_, ?_⟩
  · rw [hstats]
    rcases verdict with _ | _ | _ | out <;> exact h.sent
  · rw [hstats, hout]
    rcases verdict with _ | _ | _ | out
    · exact hpackets
    · exact hpackets
    · exact hpackets
    · simpa [outcome, record, tunWrite, UInt64.ofNat_add] using hpackets
  · rw [hstats, hout]
    rcases verdict with _ | _ | _ | out
    · exact hbytes
    · exact hbytes
    · exact hbytes
    · simpa [outcome, record, tunWrite, UInt64.ofNat_add] using hbytes
  · rw [hstats]
    rcases verdict with _ | _ | _ | out
    all_goals
      simp [outcome, record, countCorrupted, tunWrite, UInt64.ofNat_add]
      grind

theorem mainBlock_books {e : Echo} {taken lost : ℕ} (h : Books e taken lost) (lz4 : Lz4)
    (memory : Memory) : Books (mainBlock lz4 memory e) taken (lost + (blockLoss lz4 memory e).length) := by
  simp only [mainBlock, blockLoss]
  by_cases hready : e.rx.packetReady = true
  · rw [if_pos hready, if_pos hready, List.length_append, ← Nat.add_assoc, apply_ite List.length,
      apply_ite List.length]
    by_cases hpos : 0 < e.rx.packetLen
    · obtain ⟨hstats, hout⟩ := rbToTun_handled lz4 memory e
      have hsearch := (rbToTun_idle lz4 memory e e.rx.packetLen).state
      have hdrops : drops lz4 memory e ↔
          handled lz4 memory e = none ∨ handled lz4 memory e = some .empty :=
        ⟨fun hd => hd.resolve_left hpos.ne', .inr⟩
      simp only [hpos, if_true, true_and, hdrops]
      refine h.handled (handled lz4 memory e) _ hready rfl hstats hout ?_
      rw [hsearch]
      exact Nat.zero_add _
    · -- the next sync word has overwritten the length
      have hzero : e.rx.packetLen = 0 := Nat.eq_zero_of_not_pos hpos
      have hdrops : drops lz4 memory e := .inl hzero
      simp only [hpos, if_false, false_and, hdrops, if_true]
      exact h.handled none 0 hready rfl rfl rfl (Nat.add_zero _)
  · rw [if_neg hready, if_neg hready]
    exact h

theorem sendPacket_books {st : Station F} {taken lost : ℕ} (h : Books st.echo taken lost) (lz4 : Lz4)
    (raw : List UInt8) : Books (sendPacket lz4 st.echo raw)
      (taken + if takes (st, .send raw) then 1 else 0) lost := by
  simp only [sendPacket, tunToRb, takes, decide_eq_true_eq]
  by_cases hfull : freeSpace st.echo.txRb < MAX_TX_FRAME_BYTES
  · rw [if_pos hfull, if_neg (not_not.mpr (.inl hfull))]
    exact h
  · rw [if_neg hfull]
    by_cases hempty : raw.length = 0
    · rw [if_pos hempty, if_neg (not_not.mpr (.inr hempty))]
      exact h.of_counters rfl rfl rfl
    · obtain ⟨len, hbuilt⟩ := buildFrame_snd lz4
        { st.echo with txRb := pushSyncWord (pushPreamble st.echo.txRb) } raw
      rw [if_neg hempty, if_pos (not_or.mpr ⟨hfull, hempty⟩), hbuilt]
      refine ⟨?_, h.packets, h.bytes, h.balance⟩
      simp only [countSent, h.sent, UInt64.ofNat_add]
      rfl

/-- The books of a station. -/
def Balanced (ar : Arithmetic F D) (lz4 : Lz4) (st : Station F) (hist : List (Station F × Event F)) :
    Prop := Books st.echo (hist.countP takes) (hist.flatMap (losses ar lz4)).length

theorem flatMap_losses_concat (ar : Arithmetic F D) (lz4 : Lz4) (hist : List (Station F × Event F))
    (h : Station F × Event F) : ((hist ++ [h]).flatMap (losses ar lz4)).length =
      (hist.flatMap (losses ar lz4)).length + (losses ar lz4 h).length := by
  rw [List.flatMap_append, List.flatMap_singleton, List.length_append]

theorem hear_books (ar : Arithmetic F D) (lz4 : Lz4) {st : Station F} {taken lost : ℕ}
    (h : Books st.echo taken lost) (tick : Tick F) :
    Books (hear ar st tick).echo taken (lost + (losses ar lz4 (st, .sample tick)).length) := by
  rcases tick with ⟨_ | sample, now, now'⟩
  · exact h
  · change Books (audioToRb ar st sample now now').echo taken _
    by_cases hwithin : (st.rxSampleCount + 1) % 2 ^ 16 < SAMPLES_PER_SYMBOL
    · have hnone : decided ar (st, .sample ⟨some sample, now, now'⟩) = [] := if_pos hwithin
      rw [audioToRb_within ar st now now' sample hwithin, losses, hnone]
      exact h
    · have htwo : decided ar (st, .sample ⟨some sample, now, now'⟩) =
          [(decidedBits (strongest ar (measure ar st.freqStates sample).1)).1,
            (decidedBits (strongest ar (measure ar st.freqStates sample).1)).2] := if_neg hwithin
      rw [audioToRb_full ar st now now' sample hwithin, losses, htwo, List.length_append,
        ← Nat.add_assoc]
      exact processRxBit_books (processRxBit_books h now _) now' _

theorem iteration_books (ar : Arithmetic F D) {st : Station F} {tick : Tick F} {taken lost : ℕ}
    (h : Books (hear ar st tick).echo taken lost) : Books (iteration ar st tick).2.echo taken lost := by
  simp only [iteration, sampleOut, nextSymbol]
  split_ifs
  · exact h.of_counters rfl rfl rfl
  · exact h

theorem step_balanced (ar : Arithmetic F D) (lz4 : Lz4) {st : Station F}
    {hist : List (Station F × Event F)} (event : Event F) (h : Balanced ar lz4 st hist) :
    Balanced ar lz4 (step ar lz4 st event) (hist ++ [(st, event)]) := by
  rw [Balanced, List.countP_append, List.countP_singleton, flatMap_losses_concat]
  cases event with
  | enter => exact h.of_counters rfl rfl rfl
  | sample tick => exact iteration_books ar (hear_books ar lz4 h tick)
  | warmUp => exact h.of_counters rfl rfl rfl
  | send raw => exact sendPacket_books h lz4 raw
  | handle memory => exact mainBlock_books h lz4 memory

/-- Over any run the statistics are exact up to the wrap-around of the counters: the packets sent
are those taken from the TUN, the packets and bytes received are those written to it, and every
sync word found is a packet written, a frame counted as corrupted, a timeout, a frame that is still
open, or one of the losses. -/
theorem statistics_balance (ar : Arithmetic F D) (lz4 : Lz4) (txJunk rxJunk : ℕ → UInt8) (isFec : Bool)
    (events : List (Event F)) :
    let hist := trace (step ar lz4) (stationInit ar txJunk rxJunk isFec) events
    let e := (run (step ar lz4) (stationInit ar txJunk rxJunk isFec) events).echo
    e.stats.txPackets = .ofNat (hist.countP takes) ∧
      e.stats.rxPackets = .ofNat e.tunOut.length ∧
      e.stats.rxBytes = .ofNat (e.tunOut.map List.length).sum ∧
      e.stats.rxSyncFound = e.stats.rxPackets + e.stats.rxCorrupted + e.stats.rxTimeouts +
        .ofNat (underway e + (hist.flatMap (losses ar lz4)).length) := by
  intro hist e
  have hinit : Balanced ar lz4 (stationInit ar txJunk rxJunk isFec) [] := ⟨rfl, rfl, rfl, rfl⟩
  have hbooks : Balanced ar lz4 (run (step ar lz4) (stationInit ar txJunk rxJunk isFec) events) hist :=
    trace_induction (I := Balanced ar lz4) hinit fun _ _ event _ h => step_balanced ar lz4 event h
  exact ⟨hbooks.sent, hbooks.packets, hbooks.bytes, hbooks.balance⟩

end EchoProtocol.Accounting
