import EchoProtocol.FrameHeader

/-!
# The receive state machine

What the receiver's fields say while a frame arrives, and what one more bit can do to them.
-/
namespace EchoProtocol.ReceiveMachine
open RingBits Scrambling SyncWord Frames Endpoint Transmit Receive

/-- The receiver has taken over flags and length from a valid header. -/
structure Announced (e : Echo) (header : ℕ) : Prop where
  valid : isValidHeader header = true
  comp : e.rx.isCompressed = headerComp header
  rohc : e.rx.isRohc = headerRohc header
  fec : e.rx.isFec = headerFec header
  len : e.rx.packetLen = headerLen header

/-- A frame is arriving; `bits` are its descrambled bits so far. -/
structure Receiving (e : Echo) (bits : List Bool) : Prop where
  state : e.rx.state = .DATA
  ring : Holds e.rxRb bits
  count : e.rx.bitsReceived = bits.length
  scrambler : e.rxScrambler = after scramblerReset bits.length
  header : bits.length < 16 → e.rx.headerAccumulator = bitsValue bits
  announced : 16 ≤ bits.length → Announced e (bitsValue (bits.take 16))
  unfinished : 16 ≤ bits.length → bits.length < e.rx.packetLen * 8 + 16

/-- A frame has arrived and waits for the main loop. -/
structure Complete (e : Echo) (bits : List Bool) : Prop where
  state : e.rx.state = .SEARCHING
  ready : e.rx.packetReady = true
  ring : Holds e.rxRb bits
  count : e.rx.bitsReceived = bits.length
  announced : Announced e (bitsValue (bits.take 16))
  finished : bits.length = e.rx.packetLen * 8 + 16

/-- Where a bit of a frame can lead. -/
inductive DataStep (e e' : Echo) (bits : List Bool) : Prop
  | receiving (h : Receiving e' bits) (ready : e'.rx.packetReady = e.rx.packetReady)
      (same : detector e' = detector e)
  | complete (h : Complete e' bits) (same : detector e' = detector e)
  | refused (length : bits.length = 16) (invalid : isValidHeader (bitsValue bits) = false)
      (h : Idle e e')

theorem headerLen_of_valid {header : ℕ} (h : isValidHeader header = true) :
    1 ≤ headerLen header ∧ headerLen header ≤ SIZE_BUF := by
  simp only [isValidHeader] at h
  split_ifs at h with h₁ h₂ h₃
  omega

theorem Receiving.length_le {e : Echo} {bits : List Bool} (h : Receiving e bits) :
    bits.length < 16400 := by
  by_cases hlen : 16 ≤ bits.length
  · have hann := h.announced hlen
    have hmax := (headerLen_of_valid hann.valid).2
    have hlt := h.unfinished hlen
    rw [hann.len] at hlt
    unfold SIZE_BUF at hmax
    omega
  · omega

/-- The ring, the counter and the scrambler after one more bit. -/
structure Extended (e : Echo) (bits : List Bool) (raw : Bool) : Prop where
  ring : Holds (putIgnoring e.rxRb (scramblerProcess e.rxScrambler raw).1)
    (bits ++ [(scramblerProcess e.rxScrambler raw).1])
  count : (e.rx.bitsReceived + 1) % 2 ^ 16 = bits.length + 1
  scrambler : (scramblerProcess e.rxScrambler raw).2 = after scramblerReset (bits.length + 1)

theorem Receiving.extended {e : Echo} {bits : List Bool} (h : Receiving e bits) (raw : Bool) :
    Extended e bits raw := by
  have hlen := h.length_le
  refine ⟨putIgnoring_holds _ h.ring ?_, ?_, ?_⟩
  · unfold BUFFER_SIZE
    omega
  · rw [h.count]
    omega
  · rw [after_succ, ← h.scrambler]
    rfl

theorem handleDataState_cases {e : Echo} {bits : List Bool} (h : Receiving e bits) (raw : Bool) :
    DataStep e (handleDataState e raw) (bits ++ [(scramblerProcess e.rxScrambler raw).1]) := by
  obtain ⟨hring, hcount, hscr⟩ := h.extended raw
  generalize hbit : (scramblerProcess e.rxScrambler raw).1 = bit at hring ⊢
  have hlen : (bits ++ [bit]).length = bits.length + 1 := by simp
  simp only [handleDataState, hcount, hbit]
  by_cases hpayload : bits.length + 1 > 16
  · have hann := h.announced (by omega)
    have htake : (bits ++ [bit]).take 16 = bits.take 16 := List.take_append_of_le_length (by omega)
    have hunfinished := h.unfinished (by omega)
    rw [if_pos hpayload]
    split_ifs with hdone
    · refine .complete ⟨rfl, rfl, hring, hlen.symm, ?_, hlen.trans hdone⟩ rfl
      rw [htake]
      exact ⟨hann.valid, hann.comp, hann.rohc, hann.fec, hann.len⟩
    · refine .receiving ⟨h.state, hring, hlen.symm, by rw [hlen]; exact hscr,
        fun hlt => absurd hlt (by omega), fun _ => ?_, fun _ => ?_⟩ rfl rfl
      · rw [htake]
        exact ⟨hann.valid, hann.comp, hann.rohc, hann.fec, hann.len⟩
      · change (bits ++ [bit]).length < e.rx.packetLen * 8 + 16
        omega
  · have hbits := bitsValue_lt (bits ++ [bit])
    have hpow : 2 ^ (bits ++ [bit]).length ≤ 2 ^ 16 := Nat.pow_le_pow_right (by omega) (by omega)
    have hacc : (2 * e.rx.headerAccumulator + bit.toNat) % 2 ^ 64 = bitsValue (bits ++ [bit]) := by
      rw [h.header (by omega), ← bitsValue_concat]
      exact Nat.mod_eq_of_lt (by omega)
    rw [if_neg hpayload]
    simp only [hacc]
    split_ifs with hshort hinvalid
    · exact .receiving ⟨h.state, hring, hlen.symm, by rw [hlen]; exact hscr, fun _ => rfl,
        fun hle => absurd hle (by omega), fun hle => absurd hle (by omega)⟩ rfl rfl
    · have hlow : bitsValue (bits ++ [bit]) &&& 0xFFFF = bitsValue (bits ++ [bit]) :=
        (Nat.and_two_pow_sub_one_eq_mod _ 16).trans (Nat.mod_eq_of_lt (by omega))
      rw [hlow] at hinvalid
      exact .refused (by omega) (by simpa using hinvalid) (rxReset_idle rfl)
    · have hlow : bitsValue (bits ++ [bit]) &&& 0xFFFF = bitsValue (bits ++ [bit]) :=
        (Nat.and_two_pow_sub_one_eq_mod _ 16).trans (Nat.mod_eq_of_lt (by omega))
      have htake : (bits ++ [bit]).take 16 = bits ++ [bit] := List.take_of_length_le (by omega)
      rw [hlow] at hinvalid ⊢
      have hvalid : isValidHeader (bitsValue (bits ++ [bit])) = true := by simpa using hinvalid
      have hpos := (headerLen_of_valid hvalid).1
      refine .receiving ⟨h.state, hring, hlen.symm, by rw [hlen]; exact hscr,
        fun hlt => absurd hlt (by omega), fun _ => ?_, fun _ => ?_⟩ rfl rfl
      · rw [htake]
        exact ⟨hvalid, rfl, rfl, rfl, rfl⟩
      · change (bits ++ [bit]).length < headerLen (bitsValue (bits ++ [bit])) * 8 + 16
        omega

theorem processRxBit_data {e : Echo} {bits : List Bool} {now : ℤ} (h : Receiving e bits)
    (hfresh : ¬ expired e now) (raw : Bool) :
    DataStep e (processRxBit e now raw) (bits ++ [(scramblerProcess e.rxScrambler raw).1]) := by
  have hstep : processRxBit e now raw = handleDataState
      { e with rx := { e.rx with lastRxTime := (now % 2 ^ 32).toNat } } raw := by
    unfold processRxBit
    rw [if_neg hfresh, if_neg (by rw [h.state]; decide)]
  have htouched : Receiving { e with rx := { e.rx with lastRxTime := (now % 2 ^ 32).toNat } } bits :=
    ⟨h.state, h.ring, h.count, h.scrambler, h.header, fun hle =>
      have hann := h.announced hle
      ⟨hann.valid, hann.comp, hann.rohc, hann.fec, hann.len⟩, h.unfinished⟩
  rw [hstep]
  cases handleDataState_cases htouched raw with
  | receiving hnext hready hsame => exact .receiving hnext hready hsame
  | complete hdone hsame => exact .complete hdone hsame
  | refused hlen hinvalid hidle =>
    exact .refused hlen hinvalid ⟨hidle.state, hidle.count, hidle.ready, hidle.blank, hidle.ring⟩

theorem processRxBit_search {e : Echo} {bit : Bool} (now : ℤ) (hstate : e.rx.state = .SEARCHING)
    (hno : (checkSyncWord (detector e) bit).1 = false) :
    processRxBit e now bit = setDetector e (checkSyncWord (detector e) bit).2 := by
  have hfresh : ¬ expired e now := fun h => absurd (hstate.symm.trans h.1) (by decide)
  simp only [processRxBit]
  rw [if_neg hfresh, if_pos hstate, if_pos (by simp [hno])]

theorem receiving_nil {e : Echo} (hstate : e.rx.state = .DATA) (hring : Holds e.rxRb [])
    (hcount : e.rx.bitsReceived = 0) (hscr : e.rxScrambler = scramblerReset)
    (hacc : e.rx.headerAccumulator = 0) : Receiving e [] :=
  ⟨hstate, hring, hcount, hscr, fun _ => hacc, fun h => absurd h (by decide),
    fun h => absurd h (by decide)⟩

theorem processRxBit_sync {e : Echo} {bit : Bool} (now : ℤ) (hstate : e.rx.state = .SEARCHING)
    (hring : Holds e.rxRb []) (hyes : (checkSyncWord (detector e) bit).1 = true) :
    Receiving (processRxBit e now bit) [] ∧
      (processRxBit e now bit).rx.packetReady = e.rx.packetReady ∧
      detector (processRxBit e now bit) = (checkSyncWord (detector e) bit).2 := by
  have hfresh : ¬ expired e now := fun h => absurd (hstate.symm.trans h.1) (by decide)
  simp only [processRxBit]
  rw [if_neg hfresh, if_pos hstate, if_neg (by simp [hyes])]
  exact ⟨receiving_nil rfl hring rfl rfl rfl, rfl, rfl⟩

end EchoProtocol.ReceiveMachine
