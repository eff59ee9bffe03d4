import EchoProtocol.Reception
import EchoProtocol.SyncWindow

/-!
# A receiver that hears idle bits

Whatever a receiver has heard before, idle bits bring it back: a frame that is open comes to its
end or has its header refused, and the detector forgets every bit but the idle ones. The time that
this takes does not depend on the ring, so a ring with leftovers in it is replaced by an empty one.
-/
namespace EchoProtocol.IdleReception
open RingBits Scrambling SyncWord Rohc Frames Endpoint Transmit Receive ReceiveMachine ReceiveBuffer
  FrameStream Modem Demodulation Callback WarmUp GappedStream Reception Runs

/-- The last `j` bits of a register are ones. -/
def Ones (j : ℕ) (word : UInt32) : Prop := ∀ i < j, word.toBitVec.getLsbD i = true

theorem Ones.push {j : ℕ} {word : UInt32} (h : Ones j word) (hj : j < 32) :
    Ones (j + 1) (pushBit word true) := by
  intro i hi
  rw [pushBit_toBitVec, BitVec.getLsbD_shiftConcat]
  cases i with
  | zero => rfl
  | succ i => simp [h i (by omega), show i + 1 < 32 by omega]

theorem Ones.full {word : UInt32} (h : Ones 32 word) : word = 0xFFFFFFFF := by
  refine UInt32.toBitVec_inj.mp (BitVec.eq_of_getLsbD_eq fun i hi => ?_)
  rw [h i hi]
  interval_cases i <;> rfl

theorem pushBit_ne_syncWord (word : UInt32) : pushBit word true ≠ SYNC_WORD := by
  intro h
  have hlast : (pushBit word true).toBitVec.getLsbD 0 = true := by
    rw [pushBit_toBitVec, BitVec.getLsbD_shiftConcat]
    rfl
  rw [h] at hlast
  exact absurd hlast (by decide)

/-- The last `j` bits that the detector has heard were idle. -/
structure HeardIdle (j : ℕ) (d : Detector) : Prop where
  checkWord : Ones j d.checkWord
  corrReg : Ones j d.correlator.corrReg

section Detector
variable {j : ℕ} {d : Detector}

theorem heardIdle_zero (d : Detector) : HeardIdle 0 d :=
  ⟨fun i hi => absurd hi (Nat.not_lt_zero i), fun i hi => absurd hi (Nat.not_lt_zero i)⟩

theorem HeardIdle.next (h : HeardIdle j d) (hj : j < 32) (hno : (checkSyncWord d true).1 = false) :
    HeardIdle (j + 1) (checkSyncWord d true).2 := by
  have hcorr := checkSyncWord_correlator d true
  rw [hno, if_neg Bool.false_ne_true] at hcorr
  refine ⟨?_, ?_⟩
  · rw [checkSyncWord_checkWord]
    exact h.checkWord.push hj
  · rw [hcorr]
    exact h.corrReg.push hj

theorem HeardIdle.full (h : HeardIdle 32 d) (hcount : d.correlator.corrBits = 32) :
    d = saturated := by
  rcases d with ⟨checkWord, corrReg, corrBits⟩
  obtain ⟨hword, hreg⟩ := h
  rw [saturated, Detector.mk.injEq, Correlator.mk.injEq]
  exact ⟨hword.full, hreg.full, hcount⟩

theorem HeardIdle.silent (h : HeardIdle j d) (hcount : d.correlator.corrBits = j) (hj : j < 32) :
    (checkSyncWord d true).1 = false := by
  refine Bool.eq_false_of_not_eq_true fun hreport => ?_
  rcases (checkSyncWord_report d true).mp hreport with hexact | ⟨hfull, -, hfew, -⟩
  · exact pushBit_ne_syncWord _ hexact
  · obtain rfl : j = 31 := by omega
    rw [(h.corrReg.push hj).full] at hfew
    exact absurd hfew (by decide)

theorem checkSyncWord_count {bit : Bool} (hno : (checkSyncWord d bit).1 = false) :
    (checkSyncWord d bit).2.correlator.corrBits = min (d.correlator.corrBits + 1) 32 := by
  have hcorr := checkSyncWord_correlator d bit
  rw [hno, if_neg Bool.false_ne_true] at hcorr
  rw [hcorr]
  change (if d.correlator.corrBits < 32 then d.correlator.corrBits + 1 else 32) = _
  by_cases hfill : d.correlator.corrBits < 32
  · rw [if_pos hfill, Nat.min_eq_left hfill]
  · rw [if_neg hfill, Nat.min_eq_right (by omega)]

theorem checkSyncWord_cleared {bit : Bool} (hyes : (checkSyncWord d bit).1 = true) :
    (checkSyncWord d bit).2.correlator = syncCorrelatorReset := by
  rw [checkSyncWord_correlator, if_pos hyes]

end Detector

theorem ready_saturated : ReadyAfterIdle saturated := by
  intro m
  obtain ⟨hreports, hfeed⟩ := idle_steady (d := saturated) (by decide +kernel) m
  have hafter : Ready saturated announcement := by decide +kernel
  have hlen : (idleBits m ++ announcement).length - 1 = m + 47 := by
    rw [List.length_append, idleBits, List.length_replicate, announcement_length]
    omega
  refine ⟨?_, ?_⟩
  · rw [reports_append, hreports, hfeed, hafter.1, hlen, List.replicate_add m, List.append_assoc]
    rfl
  · rw [feed_append, hfeed]
    exact hafter.2

/-- An endpoint with another receive ring. -/
def withRing (b : Buffer) (e : Echo) : Echo := { e with rxRb := b }

theorem handleDataState_withRing (b : Buffer) (e : Echo) (bit : Bool) :
    handleDataState (withRing b e) bit =
      withRing (handleDataState (withRing b e) bit).rxRb (handleDataState e bit) := by
  have hrx : (withRing b e).rx = e.rx := rfl
  have hscr : (withRing b e).rxScrambler = e.rxScrambler := rfl
  simp only [handleDataState, hrx, hscr]
  split_ifs <;> rfl

theorem processRxBit_withRing (b : Buffer) (e : Echo) (now : ℤ) (bit : Bool) :
    ∃ b', processRxBit (withRing b e) now bit = withRing b' (processRxBit e now bit) := by
  have hexp : expired (withRing b e) now ↔ expired e now := Iff.rfl
  have hdet : detector (withRing b e) = detector e := rfl
  have hrx : (withRing b e).rx = e.rx := rfl
  refine ⟨(processRxBit (withRing b e) now bit).rxRb, ?_⟩
  simp only [processRxBit, hexp, hdet, hrx]
  split_ifs
  · rfl
  · rfl
  · rfl
  · exact handleDataState_withRing b
      { e with rx := { e.rx with lastRxTime := (now % 2 ^ 32).toNat } } bit

/-- Whenever the receiver is in a frame, its fields are those of a receiver whose ring holds the
frame, whatever its own ring holds. -/
def Tracked (e : Echo) : Prop := e.rx.state = .DATA → ∃ b bits, Receiving (withRing b e) bits

theorem receiving_noneWaiting {e : Echo} {bits : List Bool} (h : Receiving e bits) :
    Receiving { e with rx := { e.rx with packetReady := false } } bits where
  state := h.state
  ring := h.ring
  count := h.count
  scrambler := h.scrambler
  header := h.header
  announced := fun hle =>
    have hann := h.announced hle
    ⟨hann.valid, hann.comp, hann.rohc, hann.fec, hann.len⟩
  unfinished := h.unfinished

theorem sync_opens {e : Echo} {bit : Bool} (now : ℤ) (hstate : e.rx.state = .SEARCHING)
    (hyes : (checkSyncWord (detector e) bit).1 = true) :
    (∃ b, Receiving (withRing b (processRxBit e now bit)) []) ∧
      (processRxBit e now bit).correlator = syncCorrelatorReset := by
  obtain ⟨b, hb⟩ := processRxBit_withRing (rbReset e.rxRb) e now bit
  obtain ⟨hopen, -, hdet⟩ := processRxBit_sync (e := withRing (rbReset e.rxRb) e) now hstate
    (rbReset_holds e.rxRb) hyes
  rw [hb] at hopen hdet
  exact ⟨⟨b, hopen⟩, (congrArg Detector.correlator hdet).trans (checkSyncWord_cleared hyes)⟩

theorem processRxBit_expired {e : Echo} {now : ℤ} (bit : Bool) (h : expired e now) :
    (processRxBit e now bit).rx.state = .SEARCHING ∧
      detector (processRxBit e now bit) = detector e := by
  unfold processRxBit
  rw [if_pos h]
  exact ⟨rfl, rfl⟩

theorem Tracked.bit {e : Echo} (h : Tracked e) (now : ℤ) (bit : Bool) :
    Tracked (processRxBit e now bit) := by
  intro hdata
  by_cases hexp : expired e now
  · rw [(processRxBit_expired bit hexp).1] at hdata
    cases hdata
  · cases hstate : e.rx.state with
    | SEARCHING =>
      cases hreport : (checkSyncWord (detector e) bit).1 with
      | true =>
        obtain ⟨⟨b, hb⟩, -⟩ := sync_opens now hstate hreport
        exact ⟨b, [], hb⟩
      | false =>
        rw [processRxBit_search now hstate hreport] at hdata
        exact absurd (hstate.symm.trans hdata) (by decide)
    | DATA =>
      obtain ⟨b, bits, hb⟩ := h hstate
      obtain ⟨b', hb'⟩ := processRxBit_withRing b e now bit
      have hcases := processRxBit_data hb (show ¬ expired (withRing b e) now from hexp) bit
      rw [hb'] at hcases
      cases hcases with
      | receiving hnext => exact ⟨b', _, hnext⟩
      | complete hdone => exact absurd (hdata.symm.trans hdone.state) (by decide)
      | refused _ _ hidle => exact absurd (hdata.symm.trans hidle.state) (by decide)

theorem mainBlock_reset (lz4 : Lz4) (memory : Memory) {e : Echo} (hready : e.rx.packetReady = true)
    (hpos : 0 < e.rx.packetLen) : Searching (mainBlock lz4 memory e) ∧
      detector (mainBlock lz4 memory e) = blank := by
  have hidle := rbToTun_idle lz4 memory e e.rx.packetLen
  simp only [mainBlock]
  rw [if_pos hready, if_pos hpos]
  exact ⟨⟨hidle.state, hidle.ring, rfl⟩, hidle.blank⟩

/-- What the `packet_ready` block does to the receiver: nothing, no more than to forget the waiting
frame, or a reset. -/
inductive MainStep (e e' : Echo) : Prop
  | same (h : e' = e)
  | forgotten (h : e' = { e with rx := { e.rx with packetReady := false } })
  | reset (h : Searching e') (cleared : detector e' = blank)

theorem mainBlock_cases (lz4 : Lz4) (memory : Memory) (e : Echo) :
    MainStep e (mainBlock lz4 memory e) := by
  by_cases hready : e.rx.packetReady = true
  · by_cases hpos : 0 < e.rx.packetLen
    · obtain ⟨hsearch, hblank⟩ := mainBlock_reset lz4 memory hready hpos
      exact .reset hsearch hblank
    · refine .forgotten ?_
      simp only [mainBlock]
      rw [if_pos hready, if_neg hpos]
  · exact .same (mainBlock_notReady (Bool.eq_false_of_not_eq_true hready))

theorem rbToTun_time (lz4 : Lz4) (memory : Memory) (e : Echo) (packetLen : ℕ) :
    (rbToTun lz4 memory e packetLen).rx.lastRxTime = e.rx.lastRxTime := by
  simp only [rbToTun]
  split
  · rfl
  · split_ifs
    · rfl
    · split
      · rfl
      · change (record _ _).rx.lastRxTime = _
        rw [record_rx]

theorem mainBlock_time (lz4 : Lz4) (memory : Memory) (e : Echo) :
    (mainBlock lz4 memory e).rx.lastRxTime = e.rx.lastRxTime := by
  simp only [mainBlock]
  split_ifs
  · exact rbToTun_time lz4 memory e _
  · rfl
  · rfl

theorem Tracked.main {e : Echo} (h : Tracked e) (lz4 : Lz4) (memory : Memory) :
    Tracked (mainBlock lz4 memory e) := by
  cases mainBlock_cases lz4 memory e with
  | same heq => rwa [heq]
  | forgotten heq =>
    rw [heq]
    intro hdata
    obtain ⟨b, bits, hb⟩ := h hdata
    exact ⟨b, bits, receiving_noneWaiting hb⟩
  | reset hsearch => exact fun hdata => absurd (hdata.symm.trans hsearch.state) (by decide)

theorem sameReceiver_withRing {e e' : Echo} (h : SameReceiver e e') (b : Buffer) :
    SameReceiver (withRing b e) (withRing b e') :=
  ⟨h.rx, rfl, h.rxScrambler, h.correlator, h.rohcRx, h.tunOut⟩

theorem Tracked.of_sameReceiver {e e' : Echo} (h : Tracked e) (hsame : SameReceiver e e') :
    Tracked e' := by
  intro hdata
  rw [hsame.rx] at hdata
  obtain ⟨b, bits, hb⟩ := h hdata
  exact ⟨b, bits, (sameReceiver_withRing hsame b).receiving hb⟩

section Events
variable {F D : Type} (ar : Arithmetic F D) (lz4 : Lz4)

/-- What an event does to the receiver: nothing, two bits, or what the main program does. -/
inductive ReceiverStep (st : Station F) (event : Event F) : Prop
  | silent (none : decided ar (st, event) = [])
      (h : SameReceiver st.echo (step ar lz4 st event).echo)
  | symbol (now now' : ℤ) (bit0 bit1 : Bool) (two : decided ar (st, event) = [bit0, bit1])
      (clock : OnTime ar (st, event) →
        ¬ expired st.echo now ∧ 0 ≤ now ∧ now < 2 ^ 32 ∧ now' ≤ now + 6)
      (h : SameReceiver (processRxBit (processRxBit st.echo now bit0) now' bit1)
        (step ar lz4 st event).echo)
      (heard : ∃ sample, event = .sample ⟨some sample, now, now'⟩)
  | main (memory : Memory) (none : decided ar (st, event) = [])
      (h : (step ar lz4 st event).echo = mainBlock lz4 memory st.echo)

theorem receiverStep (st : Station F) (event : Event F) : ReceiverStep ar lz4 st event := by
  cases event with
  | enter => exact .silent rfl (.refl st.echo)
  | warmUp => exact .silent rfl (warmUpPacket_receiver st.echo)
  | send raw => exact .silent rfl (sendPacket_receiver lz4 st.echo raw)
  | handle memory => exact .main memory rfl rfl
  | sample tick =>
    have hiter := iteration_receiver ar st tick
    rcases tick with ⟨_ | sample, now, now'⟩
    · exact .silent rfl hiter
    · have hhear : hear ar st ⟨some sample, now, now'⟩ = audioToRb ar st sample now now' := rfl
      rw [hhear] at hiter
      by_cases hwithin : (st.rxSampleCount + 1) % 2 ^ 16 < SAMPLES_PER_SYMBOL
      · rw [audioToRb_within ar st now now' sample hwithin] at hiter
        exact .silent (if_pos hwithin) hiter
      · rw [audioToRb_full ar st now now' sample hwithin] at hiter
        have htwo : decided ar (st, .sample ⟨some sample, now, now'⟩) = _ := if_neg hwithin
        refine .symbol now now' _ _ htwo (fun hclock => ?_) hiter ⟨sample, rfl⟩
        rw [OnTime, htwo] at hclock
        exact hclock (List.cons_ne_nil _ _)

/-- The clock shows `now` at a sample. -/
def ClockAt (now : ℤ) (event : Event F) : Prop :=
  ∀ tick, event = .sample tick → tick.now = now ∧ tick.now' = now

/-- What an event does to the receiver while the clock stands still. -/
inductive StillStep (now : ℤ) (st : Station F) (event : Event F) : Prop
  | silent (none : decided ar (st, event) = [])
      (h : SameReceiver st.echo (step ar lz4 st event).echo)
  | symbol (bit0 bit1 : Bool) (two : decided ar (st, event) = [bit0, bit1])
      (h : SameReceiver (processRxBit (processRxBit st.echo now bit0) now bit1)
        (step ar lz4 st event).echo)
  | main (memory : Memory) (none : decided ar (st, event) = [])
      (h : (step ar lz4 st event).echo = mainBlock lz4 memory st.echo)

variable {now : ℤ}

theorem stillStep (st : Station F) {event : Event F} (hclock : ClockAt now event) :
    StillStep ar lz4 now st event := by
  cases receiverStep ar lz4 st event with
  | silent hnone hsame => exact .silent hnone hsame
  | symbol time time' bit0 bit1 htwo _ hsame hheard =>
    obtain ⟨sample, hevent⟩ := hheard
    obtain ⟨htime, htime'⟩ : time = now ∧ time' = now := hclock _ hevent
    rw [htime, htime'] at hsame
    exact .symbol bit0 bit1 htwo hsame
  | main memory hnone heq => exact .main memory hnone heq

/-- A receiver that has not timed out does not do so while the clock stands still. -/
theorem step_fresh (hpos : 0 ≤ now) (hlt : now < 2 ^ 32) {st : Station F} {event : Event F}
    (hclock : ClockAt now event) (h : ¬ expired st.echo now) :
    ¬ expired (step ar lz4 st event).echo now := by
  have hnext : now ≤ now + 6 := by omega
  cases stillStep ar lz4 st hclock with
  | silent _ hsame => rwa [expired, hsame.rx]
  | symbol bit0 bit1 _ hsame =>
    rw [expired, hsame.rx]
    exact processRxBit_fresh bit1 (processRxBit_fresh bit0 h hpos hlt hnext) hpos hlt hnext
  | main memory _ heq =>
    rw [heq]
    cases mainBlock_cases lz4 memory st.echo with
    | same hsame => rwa [hsame]
    | forgotten hforgotten => rwa [hforgotten]
    | reset hsearch => exact fun hexp => absurd (hexp.1.symm.trans hsearch.state) (by decide)

theorem run_onTime (hpos : 0 ≤ now) (hlt : now < 2 ^ 32) {st : Station F} {events : List (Event F)}
    (hclock : ∀ event ∈ events, ClockAt now event) (h : ¬ expired st.echo now) :
    ∀ m ∈ trace (step ar lz4) st events, OnTime ar m := by
  obtain ⟨-, hfresh⟩ := run_induction (I := fun st : Station F => ¬ expired st.echo now) h
    fun _ event hmem => step_fresh ar lz4 hpos hlt (hclock event (mem_of_mem_trace hmem))
  rintro ⟨st', event⟩ hmem
  cases event with
  | sample tick =>
    obtain ⟨hnow, hnow'⟩ := hclock _ (mem_of_mem_trace hmem) tick rfl
    refine fun _ => ⟨?_, by rwa [hnow], by rwa [hnow], by rw [hnow, hnow']; omega⟩
    rw [hnow]
    exact hfresh _ hmem
  | _ => trivial

theorem step_tracked {st : Station F} (h : Tracked st.echo) (event : Event F) :
    Tracked (step ar lz4 st event).echo := by
  cases receiverStep ar lz4 st event with
  | silent _ hsame => exact h.of_sameReceiver hsame
  | symbol now now' bit0 bit1 _ _ hsame =>
    exact ((h.bit now bit0).bit now' bit1).of_sameReceiver hsame
  | main memory _ heq =>
    rw [heq]
    exact h.main lz4 memory

theorem run_tracked (txJunk rxJunk : ℕ → UInt8) (isFec : Bool) (events : List (Event F)) :
    Tracked (run (step ar lz4) (stationInit ar txJunk rxJunk isFec) events).echo :=
  (run_induction (I := fun st : Station F => Tracked st.echo) (fun hdata => by cases hdata)
    fun _ event _ h => step_tracked ar lz4 h event).1

end Events

/-- The receiver is searching and finds the next sync word, however long the pause before it. -/
structure Settled (e : Echo) : Prop where
  state : e.rx.state = .SEARCHING
  ready : ReadyAfterIdle (detector e)

/-- At most `k` more idle bits, and the receiver has settled. -/
inductive Settling (e : Echo) (k : ℕ) : Prop
  | settled (h : Settled e)
  | cleared (j : ℕ) (state : e.rx.state = .SEARCHING) (heard : HeardIdle j (detector e))
      (count : e.correlator.corrBits = j) (early : j < 32) (left : 32 ≤ j + k)
  | searching (j : ℕ) (state : e.rx.state = .SEARCHING) (heard : HeardIdle j (detector e))
      (count : j ≤ e.correlator.corrBits) (early : j < 32) (left : 80 ≤ j + k)
  | opened (i : ℕ) (b : Buffer) (h : Receiving (withRing b e) (descrambled (idleBits i)))
      (early : i < 16) (clear : e.correlator = syncCorrelatorReset) (left : 48 ≤ i + k)
  | data (b : Buffer) (bits : List Bool) (h : Receiving (withRing b e) bits)
      (left : 16480 ≤ bits.length + k)

theorem Tracked.settling {e : Echo} (h : Tracked e) : Settling e 16480 := by
  cases hstate : e.rx.state with
  | SEARCHING =>
    exact .searching 0 hstate (heardIdle_zero _) (Nat.zero_le _) (by decide) (by decide)
  | DATA =>
    obtain ⟨b, bits, hb⟩ := h hstate
    exact .data b bits hb (Nat.le_add_left _ _)

theorem Settling.done {e : Echo} (h : Settling e 0) : Settled e := by
  cases h with
  | settled h => exact h
  | cleared j _ _ _ early left => omega
  | searching j _ _ _ early left => omega
  | opened i b h early _ left => omega
  | data b bits h left =>
    have hlen := h.length_le
    omega

theorem settled_of_blank {e : Echo} (hstate : e.rx.state = .SEARCHING)
    (hdet : detector e = blank) : Settled e := ⟨hstate, by rw [hdet]; exact ready_blank⟩

theorem idle_header : isValidHeader (bitsValue (descrambled (idleBits 16))) = false := by
  decide +kernel

section Bit
variable {e : Echo} {k : ℕ}

/-- An idle bit that is not reported. -/
theorem idle_unreported {j : ℕ} (now : ℤ) (hstate : e.rx.state = .SEARCHING)
    (heard : HeardIdle j (detector e)) (count : j ≤ e.correlator.corrBits) (early : j < 32)
    (hno : (checkSyncWord (detector e) true).1 = false) :
    Settled (processRxBit e now true) ∨
      j + 1 < 32 ∧ (processRxBit e now true).rx.state = .SEARCHING ∧
        HeardIdle (j + 1) (detector (processRxBit e now true)) ∧
        (processRxBit e now true).correlator.corrBits = min (e.correlator.corrBits + 1) 32 := by
  have hnext := heard.next early hno
  have hcount := checkSyncWord_count hno
  rw [processRxBit_search now hstate hno]
  by_cases hlast : j + 1 < 32
  · exact .inr ⟨hlast, hstate, hnext, hcount⟩
  · obtain rfl : j = 31 := by omega
    have hfull := hnext.full (hcount.trans (Nat.min_eq_right (Nat.succ_le_succ count)))
    refine .inl ⟨hstate, ?_⟩
    change ReadyAfterIdle (checkSyncWord (detector e) true).2
    rw [hfull]
    exact ready_saturated

/-- An idle bit behind a false sync word. -/
theorem opened_bit {i : ℕ} {b : Buffer} {now : ℤ}
    (h : Receiving (withRing b e) (descrambled (idleBits i))) (early : i < 16)
    (hfresh : ¬ expired e now) :
    Settled (processRxBit e now true) ∨
      i + 1 < 16 ∧ (processRxBit e now true).correlator = e.correlator ∧
        ∃ b', Receiving (withRing b' (processRxBit e now true)) (descrambled (idleBits (i + 1))) := by
  obtain ⟨b', hb'⟩ := processRxBit_withRing b e now true
  have hcases := processRxBit_data h (show ¬ expired (withRing b e) now from hfresh) true
  have hlen : ∀ i, (descrambled (idleBits i)).length = i := fun i => by
    rw [descrambled, scrambleBits_length, idleBits, List.length_replicate]
  have hbits : descrambled (idleBits i) ++ [(scramblerProcess (withRing b e).rxScrambler true).1] =
      descrambled (idleBits (i + 1)) := by
    rw [h.scrambler, hlen, idleBits, idleBits, List.replicate_succ', descrambled_concat,
      List.length_replicate]
  rw [hb', hbits] at hcases
  -- sixteen idle bits are no valid header
  have hshort : ∀ e' : Echo,
      (16 ≤ i + 1 → Announced e' (bitsValue ((descrambled (idleBits (i + 1))).take 16))) →
      i + 1 < 16 := by
    intro e' hann
    by_contra hge
    obtain rfl : i = 15 := by omega
    have hvalid := (hann le_rfl).valid
    rw [List.take_of_length_le (hlen 16).le, idle_header] at hvalid
    exact Bool.false_ne_true hvalid
  cases hcases with
  | receiving hnext _ hsame =>
    have hlt := hshort _ fun hle => hnext.announced (by rw [hlen]; exact hle)
    exact .inr ⟨hlt, congrArg Detector.correlator hsame, b', hnext⟩
  | complete hdone =>
    have hlt := hshort _ fun _ => hdone.announced
    have hlong := hdone.finished
    rw [hlen] at hlong
    omega
  | refused _ _ hidle => exact .inl (settled_of_blank hidle.state hidle.blank)

/-- Whatever the clock says, an idle bit brings the receiver closer. -/
theorem Settling.bit (h : Settling e k) (now : ℤ) : Settling (processRxBit e now true) (k - 1) := by
  cases h with
  | settled h =>
    obtain ⟨hreport, hnext⟩ := h.ready.idle
    rw [processRxBit_search now h.state hreport]
    exact .settled ⟨h.state, hnext⟩
  | cleared j state heard count early left =>
    rcases idle_unreported now state heard count.ge early (heard.silent count early) with
      hsettled | ⟨hmore, hstate, hnext, hcount⟩
    · exact .settled hsettled
    · exact .cleared (j + 1) hstate hnext (by omega) hmore (by omega)
  | searching j state heard count early left =>
    cases hreport : (checkSyncWord (detector e) true).1 with
    | true =>
      obtain ⟨⟨b, hopen⟩, hclear⟩ := sync_opens now state hreport
      exact .opened 0 b hopen (by decide) hclear (by omega)
    | false =>
      rcases idle_unreported now state heard count early hreport with
        hsettled | ⟨hmore, hstate, hnext, hcount⟩
      · exact .settled hsettled
      · exact .searching (j + 1) hstate hnext (by omega) hmore (by omega)
  | opened i b h early clear left =>
    by_cases hexp : expired e now
    · obtain ⟨hstate, hdet⟩ := processRxBit_expired true hexp
      have hclear : (processRxBit e now true).correlator = syncCorrelatorReset :=
        (congrArg Detector.correlator hdet).trans clear
      exact .cleared 0 hstate (heardIdle_zero _) (by rw [hclear]; rfl) (by decide) (by omega)
    · rcases opened_bit h early hexp with hsettled | ⟨hmore, hsame, b', hnext⟩
      · exact .settled hsettled
      · exact .opened (i + 1) b' hnext hmore (hsame.trans clear) (by omega)
  | data b bits h left =>
    have hlen := h.length_le
    by_cases hexp : expired e now
    · obtain ⟨hstate, -⟩ := processRxBit_expired true hexp
      exact .searching 0 hstate (heardIdle_zero _) (Nat.zero_le _) (by decide) (by omega)
    · obtain ⟨b', hb'⟩ := processRxBit_withRing b e now true
      have hcases := processRxBit_data h (show ¬ expired (withRing b e) now from hexp) true
      rw [hb'] at hcases
      cases hcases with
      | receiving hnext =>
        exact .data b' _ hnext (by rw [List.length_append, List.length_singleton]; omega)
      | complete hdone =>
        exact .searching 0 hdone.state (heardIdle_zero _) (Nat.zero_le _) (by decide) (by omega)
      | refused _ _ hidle => exact .settled (settled_of_blank hidle.state hidle.blank)

theorem Settling.main (h : Settling e k) (lz4 : Lz4) (memory : Memory) :
    Settling (mainBlock lz4 memory e) k := by
  cases mainBlock_cases lz4 memory e with
  | same heq => rwa [heq]
  | reset hsearch hblank => exact .settled (settled_of_blank hsearch.state hblank)
  | forgotten heq =>
    rw [heq]
    cases h with
    | settled h => exact .settled ⟨h.state, h.ready⟩
    | cleared j state heard count early left => exact .cleared j state heard count early left
    | searching j state heard count early left => exact .searching j state heard count early left
    | opened i b h early clear left => exact .opened i b (receiving_noneWaiting h) early clear left
    | data b bits h left => exact .data b bits (receiving_noneWaiting h) left

theorem Settling.of_sameReceiver {e' : Echo} (h : Settling e k) (hsame : SameReceiver e e') :
    Settling e' k := by
  have hstate : e'.rx.state = e.rx.state := by rw [hsame.rx]
  have hdet := hsame.detector
  cases h with
  | settled h => exact .settled ⟨hstate.trans h.state, by rw [hdet]; exact h.ready⟩
  | cleared j state heard count early left =>
    exact .cleared j (hstate.trans state) (by rw [hdet]; exact heard)
      (by rw [hsame.correlator]; exact count) early left
  | searching j state heard count early left =>
    exact .searching j (hstate.trans state) (by rw [hdet]; exact heard)
      (by rw [hsame.correlator]; exact count) early left
  | opened i b h early clear left =>
    exact .opened i b ((sameReceiver_withRing hsame b).receiving h) early
      (hsame.correlator.trans clear) left
  | data b bits h left => exact .data b bits ((sameReceiver_withRing hsame b).receiving h) left

end Bit

section Run
variable {F D : Type} (ar : Arithmetic F D) (lz4 : Lz4)

theorem step_settling {st : Station F} {k : ℕ} (h : Settling st.echo k) (event : Event F)
    (hidle : ∀ bit ∈ decided ar (st, event), bit = true) :
    Settling (step ar lz4 st event).echo (k - (decided ar (st, event)).length) := by
  cases receiverStep ar lz4 st event with
  | silent hnone hsame =>
    rw [hnone]
    exact h.of_sameReceiver hsame
  | symbol now now' bit0 bit1 htwo _ hsame =>
    rw [htwo] at hidle ⊢
    obtain ⟨rfl, rfl⟩ : bit0 = true ∧ bit1 = true := by simpa using hidle
    exact ((h.bit now).bit now').of_sameReceiver hsame
  | main memory hnone heq =>
    rw [hnone, heq]
    exact h.main lz4 memory

theorem run_settling {st : Station F} {k : ℕ} (h : Settling st.echo k) {events : List (Event F)}
    (hidle : ∀ bit ∈ heardBits ar (trace (step ar lz4) st events), bit = true) :
    Settling (run (step ar lz4) st events).echo
      (k - (heardBits ar (trace (step ar lz4) st events)).length) := by
  induction events generalizing st k with
  | nil => exact h
  | cons event events ih =>
    have hcons : heardBits ar (trace (step ar lz4) st (event :: events)) =
        decided ar (st, event) ++ heardBits ar (trace (step ar lz4) (step ar lz4 st event) events) :=
      List.flatMap_cons
    rw [hcons] at hidle ⊢
    rw [List.length_append, ← Nat.sub_sub]
    exact ih (step_settling ar lz4 h event fun bit hb => hidle bit (List.mem_append_left _ hb))
      fun bit hb => hidle bit (List.mem_append_right _ hb)

theorem idle_settles (txJunk rxJunk : ℕ → UInt8) (isFec : Bool) (past idle : List (Event F))
    (hidle : ∀ bit ∈ heardBits ar (trace (step ar lz4)
      (run (step ar lz4) (stationInit ar txJunk rxJunk isFec) past) idle), bit = true)
    (hlong : 16480 ≤ (heardBits ar (trace (step ar lz4)
      (run (step ar lz4) (stationInit ar txJunk rxJunk isFec) past) idle)).length) :
    Settled (run (step ar lz4) (stationInit ar txJunk rxJunk isFec) (past ++ idle)).echo := by
  have htracked := run_tracked ar lz4 txJunk rxJunk isFec past
  have hrun := run_settling ar lz4 htracked.settling hidle
  rw [Nat.sub_eq_zero_of_le hlong, ← run_append] at hrun
  exact hrun.done

end Run

end EchoProtocol.IdleReception
