import EchoProtocol.ReceiveMachine

/-!
# A frame from the sender's loops to the receiver's

The bits that the loops of `tun_to_rb` write for a header and a payload, received one after
another, end in a completed frame from which the loops of `rb_to_tun` read the payload back.
-/
namespace EchoProtocol.FrameRoundTrip
open Bytes RingBits Scrambling SyncWord Frames Endpoint Transmit Receive ReceiveMachine FrameHeader

/-- Header and payload before scrambling. -/
def plainBits (header : ℕ) (payload : List UInt8) : List Bool :=
  wordBits 16 header ++ payloadBits payload

/-- The receiver after the first `n` of the bits, bit `i` arriving at the time `clock (i + 1)`. -/
def received (e : Echo) (clock : ℕ → ℤ) (bits : List Bool) : ℕ → Echo
  | 0 => e
  | n + 1 => processRxBit (received e clock bits n) (clock (n + 1)) (bits.getD n false)

/-- Clock readings that fit 32 bits and never let the receiver time out within `n` bits. -/
structure Steady (clock : ℕ → ℤ) (n : ℕ) : Prop where
  nonneg : ∀ i ≤ n, 0 ≤ clock i
  lt : ∀ i ≤ n, clock i < 2 ^ 32
  gap : ∀ i < n, clock (i + 1) - clock i ≤ 6

/-- The frame of a header that the validator accepts and a payload of the length it states. -/
structure Fits (header : ℕ) (payload : List UInt8) : Prop where
  lt : header < 2 ^ 16
  valid : isValidHeader header = true
  length : payload.length = headerLen header

/-- The receiver holds the first `n` bits of the frame and has not completed it. -/
structure Halfway (start e : Echo) (now : ℤ) (bits : List Bool) (n : ℕ) : Prop where
  receiving : Receiving e (bits.take n)
  ready : e.rx.packetReady = start.rx.packetReady
  time : (e.rx.lastRxTime : ℤ) = now

@[simp] theorem plainBits_length (header : ℕ) (payload : List UInt8) :
    (plainBits header payload).length = 16 + 8 * payload.length := by
  rw [plainBits, List.length_append, wordBits_length, payloadBits_length, Nat.mul_comm]

theorem bitsValue_plainBits {header : ℕ} (payload : List UInt8) {n : ℕ} (hheader : header < 2 ^ 16)
    (hn : 16 ≤ n) : bitsValue (((plainBits header payload).take n).take 16) = header := by
  rw [List.take_take, Nat.min_eq_left hn]
  exact bitsValue_take_header hheader _

theorem handleDataState_lastRxTime (e : Echo) (bit : Bool) :
    (handleDataState e bit).rx.lastRxTime = e.rx.lastRxTime := by
  simp only [handleDataState]
  split_ifs <;> rfl

theorem processRxBit_lastRxTime {e : Echo} {now : ℤ} (bit : Bool) (hstate : e.rx.state = .DATA)
    (hfresh : ¬ expired e now) :
    (processRxBit e now bit).rx.lastRxTime = (now % 2 ^ 32).toNat := by
  unfold processRxBit
  rw [if_neg hfresh, if_neg (by rw [hstate]; decide), handleDataState_lastRxTime]

theorem frame_bit {e : Echo} {now : ℤ} {header : ℕ} {payload : List UInt8} {n : ℕ}
    (hfits : Fits header payload) (hn : n < 16 + 8 * payload.length)
    (h : Receiving e ((plainBits header payload).take n)) (hfresh : ¬ expired e now) :
    let e' := processRxBit e now
      ((scrambleBits scramblerReset (plainBits header payload)).getD n false)
    detector e' = detector e ∧
      ((n + 1 < 16 + 8 * payload.length ∧ Receiving e' ((plainBits header payload).take (n + 1)) ∧
          e'.rx.packetReady = e.rx.packetReady) ∨
        (n + 1 = 16 + 8 * payload.length ∧ Complete e' (plainBits header payload))) := by
  intro e'
  have hbound : n < (plainBits header payload).length := by rwa [plainBits_length]
  have htake : ((plainBits header payload).take n).length = n := by
    rw [List.length_take]
    omega
  have htake' : ((plainBits header payload).take (n + 1)).length = n + 1 := by
    rw [List.length_take]
    omega
  have hscr := h.scrambler
  rw [htake] at hscr
  have hstep := processRxBit_data h hfresh
    ((scrambleBits scramblerReset (plainBits header payload)).getD n false)
  rw [hscr, take_descrambled scramblerReset hbound] at hstep
  cases hstep with
  | receiving hnext hready hsame =>
    refine ⟨hsame, .inl ⟨?_, hnext, hready⟩⟩
    by_contra hlast
    have hunfinished := hnext.unfinished (by omega)
    have hann := hnext.announced (by omega)
    rw [hann.len, bitsValue_plainBits payload hfits.lt (by omega), ← hfits.length, htake']
      at hunfinished
    omega
  | complete hdone hsame =>
    have hfinished := hdone.finished
    have hlong : 16 ≤ n + 1 := by omega
    rw [hdone.announced.len, bitsValue_plainBits payload hfits.lt hlong, ← hfits.length, htake']
      at hfinished
    have hlast : n + 1 = 16 + 8 * payload.length := by omega
    refine ⟨hsame, .inr ⟨hlast, ?_⟩⟩
    rwa [List.take_of_length_le (by rw [plainBits_length]; omega)] at hdone
  | refused hlen hinvalid _ =>
    rw [htake'] at hlen
    have hvalue := bitsValue_plainBits payload hfits.lt hlen.ge
    rw [List.take_of_length_le (by omega)] at hvalue
    rw [hvalue, hfits.valid] at hinvalid
    exact absurd hinvalid (by decide)

section Arrival
variable {start : Echo} {clock : ℕ → ℤ} {header : ℕ} {payload : List UInt8}

theorem Halfway.next {e : Echo} {n : ℕ} (hfits : Fits header payload)
    (hclock : Steady clock (16 + 8 * payload.length)) (hn : n < 16 + 8 * payload.length)
    (h : Halfway start e (clock n) (plainBits header payload) n) :
    let e' := processRxBit e (clock (n + 1))
      ((scrambleBits scramblerReset (plainBits header payload)).getD n false)
    (n + 1 < 16 + 8 * payload.length ∧
      Halfway start e' (clock (n + 1)) (plainBits header payload) (n + 1)) ∨
    (n + 1 = 16 + 8 * payload.length ∧ Complete e' (plainBits header payload)) := by
  intro e'
  have hfresh : ¬ expired e (clock (n + 1)) := by
    rintro ⟨-, hgap⟩
    have hsmall := hclock.gap n hn
    rw [h.time] at hgap
    omega
  have htime : (e'.rx.lastRxTime : ℤ) = clock (n + 1) := by
    have hnonneg := hclock.nonneg (n + 1) hn
    have hlt := hclock.lt (n + 1) hn
    rw [processRxBit_lastRxTime _ h.receiving.state hfresh, Int.emod_eq_of_lt hnonneg hlt]
    omega
  obtain ⟨-, ⟨hlt, hnext, hready⟩ | hlast⟩ := frame_bit hfits hn h.receiving hfresh
  · exact .inl ⟨hlt, hnext, hready.trans h.ready, htime⟩
  · exact .inr hlast

theorem received_halfway (hfits : Fits header payload)
    (hclock : Steady clock (16 + 8 * payload.length))
    (hstart : Halfway start start (clock 0) (plainBits header payload) 0) {n : ℕ}
    (hn : n < 16 + 8 * payload.length) : Halfway start
      (received start clock (scrambleBits scramblerReset (plainBits header payload)) n) (clock n)
      (plainBits header payload) n := by
  induction n with
  | zero => exact hstart
  | succ n ih =>
    rcases (ih (by omega)).next hfits hclock (by omega) with ⟨-, hnext⟩ | ⟨hlast, -⟩
    · exact hnext
    · omega

theorem received_complete (hfits : Fits header payload)
    (hclock : Steady clock (16 + 8 * payload.length))
    (hstart : Halfway start start (clock 0) (plainBits header payload) 0) :
    Complete (received start clock (scrambleBits scramblerReset (plainBits header payload))
      (16 + 8 * payload.length)) (plainBits header payload) := by
  obtain ⟨n, hn⟩ : ∃ n, 16 + 8 * payload.length = n + 1 := ⟨15 + 8 * payload.length, by omega⟩
  have hhalf := received_halfway hfits hclock hstart (n := n) (by omega)
  rw [hn]
  rcases hhalf.next hfits hclock (by omega) with ⟨hlt, -⟩ | ⟨-, hdone⟩
  · omega
  · exact hdone

end Arrival

theorem read_back {b : Buffer} {header : ℕ} {payload : List UInt8}
    (h : Holds b (plainBits header payload)) (hmax : payload.length ≤ SIZE_BUF * 2) :
    (readBits 16 b).1 = some (wordBits 16 header) ∧
      ∃ bits, (readBits (payload.length * SIZE_BYTE) (readBits 16 b).2).1 = some bits ∧
        (packBits bits).take payload.length = payload := by
  obtain ⟨hfirst, hrest⟩ := readBits_holds h
  rw [wordBits_length] at hfirst hrest
  rw [← List.append_nil (payloadBits payload)] at hrest
  obtain ⟨hbits, -⟩ := readBits_holds hrest
  rw [payloadBits_length] at hbits
  refine ⟨hfirst, _, hbits, ?_⟩
  rw [packBits_payloadBits hmax, List.take_left]

/-- Every frame with a valid header is received as it was sent. -/
theorem frame_received {e : Echo} {syncBit : Bool} {clock : ℕ → ℤ} {header : ℕ}
    {payload : List UInt8} (hstate : e.rx.state = .SEARCHING) (hring : Holds e.rxRb [])
    (hsync : (checkSyncWord (detector e) syncBit).1 = true) (hfits : Fits header payload)
    (hclock : Steady clock (16 + 8 * payload.length)) :
    let start := processRxBit e (clock 0) syncBit
    let after := received start clock (scrambleBits scramblerReset (plainBits header payload))
    let done := after (16 + 8 * payload.length)
    (∀ n < 16 + 8 * payload.length,
      (after n).rx.state = .DATA ∧ (after n).rx.packetReady = start.rx.packetReady) ∧
    done.rx.packetReady = true ∧ done.rx.state = .SEARCHING ∧
    done.rx.packetLen = payload.length ∧ done.rx.isCompressed = headerComp header ∧
    done.rx.isRohc = headerRohc header ∧ done.rx.isFec = headerFec header ∧
    (readBits 16 done.rxRb).1 = some (wordBits 16 header) ∧
    ∃ bits, (readBits (payload.length * SIZE_BYTE) (readBits 16 done.rxRb).2).1 = some bits ∧
      (packBits bits).take payload.length = payload := by
  intro start after done
  obtain ⟨hopen, -, -⟩ := processRxBit_sync (clock 0) hstate hring hsync
  have htime : (start.rx.lastRxTime : ℤ) = clock 0 := by
    have hfresh : ¬ expired e (clock 0) := fun h => absurd (hstate.symm.trans h.1) (by decide)
    have hnonneg := hclock.nonneg 0 (Nat.zero_le _)
    have hmod := Int.emod_eq_of_lt hnonneg (hclock.lt 0 (Nat.zero_le _))
    simp only [start, processRxBit]
    rw [if_neg hfresh, if_pos hstate, if_neg (by simp [hsync])]
    change (((clock 0 % 2 ^ 32).toNat : ℕ) : ℤ) = clock 0
    rw [hmod]
    omega
  have hstart : Halfway start start (clock 0) (plainBits header payload) 0 := ⟨hopen, rfl, htime⟩
  have hdone := received_complete hfits hclock hstart
  have hall : (plainBits header payload).take (16 + 8 * payload.length) = plainBits header payload :=
    List.take_of_length_le (by rw [plainBits_length])
  have hheader := bitsValue_plainBits payload hfits.lt (n := 16 + 8 * payload.length) (by omega)
  rw [hall] at hheader
  have hann := hdone.announced
  rw [hheader] at hann
  have hmax := (headerLen_of_valid hfits.valid).2
  refine ⟨fun n hn => ?_, hdone.ready, hdone.state, hann.len.trans hfits.length.symm, hann.comp,
    hann.rohc, hann.fec, read_back hdone.ring (by rw [hfits.length]; omega)⟩
  have hhalf := received_halfway hfits hclock hstart hn
  exact ⟨hhalf.receiving.state, hhalf.ready⟩

/-- A receiver that has seen all but the last bit of a sync word. -/
def nearlySynced : Echo := setDetector freshEcho ⟨SYNC_WORD >>> 1, syncCorrelatorReset⟩

theorem frame_received_one_byte :
    let done := received (processRxBit nearlySynced 0 false) (fun _ => 0)
      (scrambleBits scramblerReset (plainBits 0x0001 [0x45])) 24
    done.rx.packetReady = true ∧ done.rx.packetLen = 1 ∧
      ∃ bits, (readBits 8 (readBits 16 done.rxRb).2).1 = some bits ∧
        (packBits bits).take 1 = [0x45] := by
  have hring : Holds nearlySynced.rxRb [] := rbInit_holds fun _ => 0
  have hfits : Fits 0x0001 [0x45] := ⟨by decide, by decide, by decide⟩
  have hclock : Steady (fun _ => 0) 24 :=
    ⟨fun _ _ => le_rfl, fun _ _ => by norm_num, fun _ _ => by norm_num⟩
  have hsync : (checkSyncWord (detector nearlySynced) false).1 = true := by decide
  have hone : ([0x45] : List UInt8).length = 1 := rfl
  have hreceived := frame_received rfl hring hsync hfits hclock
  simp only [hone, SIZE_BYTE, Nat.mul_one, Nat.reduceAdd, Nat.one_mul] at hreceived
  obtain ⟨-, hready, -, hlen, -, -, -, -, hread⟩ := hreceived
  exact ⟨hready, hlen, hread⟩

end EchoProtocol.FrameRoundTrip
