import EchoProtocol.Transmit

/-!
# Receiving

`rb_to_tun` reads a completed frame out of the receive ring, undoes the error correction and
the compression, and writes the packet to the TUN unless its IPv4 checksum is wrong. The
receive state machine feeds it bit by bit.
-/
namespace EchoProtocol.Receive
open Bytes Fec RingBits Scrambling SyncWord IpChecksum Rohc Frames Endpoint Transmit

/-- Memory that is read without having been written by the program: behind the context array,
and on the stack behind a short packet. -/
structure Memory where
  past : ℕ → UInt8
  stack : ℕ → UInt8

/-- `get_bits`, `n` times; `none` when the ring runs empty. -/
def readBits : ℕ → Buffer → Option (List Bool) × Buffer
  | 0, b => (some [], b)
  | n + 1, b =>
      match getBits b with
      | none => (none, b)
      | some (bit, b') =>
          let rest := readBits n b'
          (rest.1.map (bit :: ·), rest.2)

/-- The error correction stage: the payload array and the length after it. -/
def decodeFec (isFec : Bool) (audioPayload : List UInt8) (packetLen : ℕ) :
    Option (List UInt8 × ℕ) :=
  if isFec then
    match fecDecode (audioPayload.take packetLen) (SIZE_BUF * 2) with
    | none => none
    | some fecDecoded =>
        if fecDecoded.length = 0 then none
        else some (fecDecoded ++ audioPayload.drop fecDecoded.length, fecDecoded.length)
  else some (audioPayload, packetLen)

/-- The decompression stages: the packet, or `none` for a rejected frame, and the context. A
failed header decompression is tried once more with the payload taken as a new context. -/
def rebuildPacket (lz4 : Lz4) (past : ℕ → UInt8) (isRohc isCompressed : Bool) (s : ROHCState)
    (audioPayload : List UInt8) (packetLen : ℕ) : Option (List UInt8) × ROHCState :=
  if isRohc then
    match rohcDecompress past s audioPayload packetLen (SIZE_BUF * 2) with
    | some (out, s') => (some out, s')
    | none =>
        let synced := rohcSyncContext s audioPayload packetLen
        match rohcDecompress past synced audioPayload packetLen (SIZE_BUF * 2) with
        | some (out, s') => (some out, s')
        | none => (none, synced)
  else if isCompressed then (lz4.decompressSafe (audioPayload.take packetLen), s)
  else (some (audioPayload.take packetLen), rohcSyncContext s audioPayload packetLen)

/-- The byte `i` of the packet buffer on the stack. -/
def stackByte (stack : ℕ → UInt8) (out : List UInt8) (i : ℕ) : UInt8 :=
  if i < out.length then byteAt out i else stack i

/-- The final test of an IPv4 packet. -/
def badChecksum (stack : ℕ → UInt8) (out : List UInt8) : Prop :=
  out.length ≥ 20 ∧ byteAt out 0 &&& 0xF0 = 0x40 ∧
    ipChecksum (stackByte stack out) (ihl (byteAt out 0)) ≠ 0

instance (stack : ℕ → UInt8) (out : List UInt8) : Decidable (badChecksum stack out) :=
  inferInstanceAs (Decidable (_ ∧ _ ∧ _))

def countCorrupted (e : Echo) : Echo :=
  { e with stats := { e.stats with rxCorrupted := e.stats.rxCorrupted + 1 } }

def tunWrite (e : Echo) (out : List UInt8) : Echo :=
  { e with
    tunOut := e.tunOut ++ [out]
    stats := { e.stats with
      rxPackets := e.stats.rxPackets + 1
      rxBytes := e.stats.rxBytes + .ofNat out.length } }

/-- How the stages after the payload has been read end: with a frame counted as corrupted, with
an empty packet, or with a packet for the TUN. -/
inductive Verdict
  | rejected
  | empty
  | written (out : List UInt8)
  deriving DecidableEq

/-- The verdict on a payload, and the receive context after it. -/
def judge (lz4 : Lz4) (memory : Memory) (rx : RxState) (s : ROHCState) (audioPayload : List UInt8)
    (packetLen : ℕ) : Verdict × ROHCState :=
  match decodeFec rx.isFec audioPayload packetLen with
  | none => (.rejected, s)
  | some (audioPayload, packetLen) =>
      let rebuilt :=
        rebuildPacket lz4 memory.past rx.isRohc rx.isCompressed s audioPayload packetLen
      match rebuilt.1 with
      | none => (.rejected, rebuilt.2)
      | some out =>
          if badChecksum memory.stack out then (.rejected, rebuilt.2)
          else if 0 < out.length then (.written out, rebuilt.2)
          else (.empty, rebuilt.2)

def record (e : Echo) : Verdict → Echo
  | .rejected => countCorrupted e
  | .empty => e
  | .written out => tunWrite e out

def processPayload (lz4 : Lz4) (memory : Memory) (e : Echo) (audioPayload : List UInt8)
    (packetLen : ℕ) : Echo :=
  let judged := judge lz4 memory e.rx e.rohcRx audioPayload packetLen
  record { e with rohcRx := judged.2 } judged.1

def rbToTun (lz4 : Lz4) (memory : Memory) (e : Echo) (packetLen : ℕ) : Echo :=
  let first := readBits 16 e.rxRb
  let e := { e with rxRb := first.2 }
  match first.1 with
  | none => rxReset e
  | some _ =>
      if packetLen = 0 ∨ packetLen > SIZE_BUF * 2 then rxReset (countCorrupted e)
      else
        let rest := readBits (packetLen * SIZE_BYTE) e.rxRb
        let e := { e with rxRb := rest.2 }
        match rest.1 with
        | none => rxReset e
        | some bits => rxReset (processPayload lz4 memory e (packBits bits) packetLen)

def handleDataState (e : Echo) (bit : Bool) : Echo :=
  let descrambled := scramblerProcess e.rxScrambler bit
  let bit := descrambled.1
  let bitsReceived := (e.rx.bitsReceived + 1) % 2 ^ 16
  let e := { e with
    rxScrambler := descrambled.2
    rxRb := putIgnoring e.rxRb bit
    rx := { e.rx with bitsReceived := bitsReceived } }
  if bitsReceived > 16 then
    if bitsReceived = e.rx.packetLen * 8 + 16 then
      { e with rx := { e.rx with state := .SEARCHING, packetReady := true } }
    else e
  else
    let headerAccumulator := (2 * e.rx.headerAccumulator + bit.toNat) % 2 ^ 64
    let e := { e with rx := { e.rx with headerAccumulator := headerAccumulator } }
    if bitsReceived ≠ 16 then e
    else
      let header := headerAccumulator &&& 0xFFFF
      let e := { e with rx := { e.rx with
        isCompressed := headerComp header
        isRohc := headerRohc header
        isFec := headerFec header
        packetLen := headerLen header } }
      if !isValidHeader header then rxReset e else e

def expired (e : Echo) (now : ℤ) : Prop :=
  e.rx.state = .DATA ∧ now - e.rx.lastRxTime > 6

instance (e : Echo) (now : ℤ) : Decidable (expired e now) :=
  inferInstanceAs (Decidable (_ ∧ _))

/-- `now` is the value of `time`, which is stored in 32 bits. -/
def processRxBit (e : Echo) (now : ℤ) (bit : Bool) : Echo :=
  if expired e now then
    { e with
      rx := { e.rx with state := .SEARCHING, bitsReceived := 0 }
      stats := { e.stats with rxTimeouts := e.stats.rxTimeouts + 1 } }
  else if e.rx.state = .SEARCHING then
    let checked := checkSyncWord (detector e) bit
    let e := setDetector e checked.2
    if !checked.1 then e
    else
      { e with
        rx := { e.rx with
          state := .DATA
          bitsReceived := 0
          packetLen := 0
          headerAccumulator := 0
          lastRxTime := (now % 2 ^ 32).toNat }
        rxScrambler := scramblerReset
        stats := { e.stats with rxSyncFound := e.stats.rxSyncFound + 1 } }
  else
    handleDataState { e with rx := { e.rx with lastRxTime := (now % 2 ^ 32).toNat } } bit

/-- The `packet_ready` block of the main loop. -/
def mainBlock (lz4 : Lz4) (memory : Memory) (e : Echo) : Echo :=
  if e.rx.packetReady then
    let e := if 0 < e.rx.packetLen then rbToTun lz4 memory e e.rx.packetLen else e
    { e with rx := { e.rx with packetReady := false } }
  else e

theorem readBits_holds {b : Buffer} {bits q : List Bool} (h : Holds b (bits ++ q)) :
    (readBits bits.length b).1 = some bits ∧ Holds (readBits bits.length b).2 q := by
  induction bits generalizing b with
  | nil => exact ⟨rfl, h⟩
  | cons bit bits ih =>
    obtain ⟨b', hget, hb'⟩ := getBits_cons h
    obtain ⟨hbits, hrest⟩ := ih hb'
    simp only [List.length_cons, readBits, hget, hbits]
    exact ⟨rfl, hrest⟩

theorem putIgnoring_holds {b : Buffer} {q : List Bool} (bit : Bool) (h : Holds b q)
    (hlen : q.length ≤ (BUFFER_SIZE - 2) * 8) : Holds (putIgnoring b bit) (q ++ [bit]) := by
  obtain ⟨b', hb'⟩ := putBits_some h bit hlen
  rw [putIgnoring, hb', Option.getD_some]
  exact putBits_holds h hb'

theorem pushBits_holds {b : Buffer} {q bits : List Bool} (h : Holds b q)
    (hlen : q.length + bits.length ≤ (BUFFER_SIZE - 2) * 8) : Holds (pushBits b bits) (q ++ bits) := by
  induction bits generalizing b q with
  | nil => simpa [pushBits] using h
  | cons bit bits ih =>
    rw [List.length_cons] at hlen
    have hput := putIgnoring_holds bit h (by omega)
    have hrest := ih hput (by rw [List.length_append, List.length_singleton]; omega)
    rwa [List.append_assoc, List.singleton_append] at hrest

theorem rxReset_holds (e : Echo) : Holds (rxReset e).rxRb [] := rbReset_holds e.rxRb

theorem record_rx (e : Echo) (v : Verdict) : (record e v).rx = e.rx := by
  cases v <;> rfl

theorem record_rohcRx (e : Echo) (v : Verdict) : (record e v).rohcRx = e.rohcRx := by
  cases v <;> rfl

/-- The receiver as `rx_reset` leaves it. -/
structure Idle (before after : Echo) : Prop where
  state : after.rx.state = .SEARCHING
  count : after.rx.bitsReceived = 0
  ready : after.rx.packetReady = before.rx.packetReady
  blank : detector after = blank
  ring : Holds after.rxRb []

theorem rxReset_idle {before e : Echo} (h : e.rx.packetReady = before.rx.packetReady) :
    Idle before (rxReset e) :=
  ⟨rfl, rfl, h, rfl, rxReset_holds e⟩

theorem rbToTun_idle (lz4 : Lz4) (memory : Memory) (e : Echo) (packetLen : ℕ) :
    Idle e (rbToTun lz4 memory e packetLen) := by
  simp only [rbToTun]
  split
  · exact rxReset_idle rfl
  · split_ifs
    · exact rxReset_idle rfl
    · split
      · exact rxReset_idle rfl
      · exact rxReset_idle (congrArg RxState.packetReady (record_rx _ _))

theorem rbToTun_frame {lz4 : Lz4} {memory : Memory} {e : Echo} {header payload : List Bool}
    {packetLen : ℕ} (h : Holds e.rxRb (header ++ payload)) (hheader : header.length = 16)
    (hpayload : payload.length = packetLen * 8) (hpos : 0 < packetLen)
    (hmax : packetLen ≤ SIZE_BUF * 2) :
    ∃ rb, rbToTun lz4 memory e packetLen =
      rxReset (processPayload lz4 memory { e with rxRb := rb } (packBits payload) packetLen) := by
  obtain ⟨hfirst, hrest⟩ := readBits_holds h
  rw [hheader] at hfirst hrest
  rw [← List.append_nil payload] at hrest
  obtain ⟨hbits, -⟩ := readBits_holds hrest
  rw [hpayload] at hbits
  refine ⟨(readBits (packetLen * 8) (readBits 16 e.rxRb).2).2, ?_⟩
  simp only [rbToTun, hfirst, SIZE_BYTE, hbits]
  rw [if_neg (by omega)]

end EchoProtocol.Receive
