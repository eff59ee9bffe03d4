import EchoProtocol.Endpoint
import EchoProtocol.Frames

/-!
# Sending

`tun_to_rb` turns a packet into a frame and writes the scrambled frame to the transmit ring.
-/
namespace EchoProtocol.Transmit
open Bytes Fec RingBits Scrambling SyncWord Rohc Frames Endpoint

/-- The compression library, with the empty list for a failed compression. -/
structure Lz4 where
  compress : List UInt8 → List UInt8
  decompressSafe : List UInt8 → Option (List UInt8)

/-- The frame before error correction: compressed by one of the two compressors if that makes
it shorter. LZ4 is tried only when header compression reports an error. -/
def choosePayload (lz4 : Lz4) (raw : List UInt8) : Except ℤ (List UInt8) → Frame
  | .ok out =>
      if 0 < out.length ∧ out.length < raw.length then ⟨false, true, false, out⟩
      else ⟨false, false, false, raw⟩
  | .error _ =>
      let out := lz4.compress raw
      if 0 < out.length ∧ out.length < raw.length then ⟨true, false, false, out⟩
      else ⟨false, false, false, raw⟩

def addFec (f : Frame) : Frame :=
  let fecLen := fecEncodedLen f.payload.length
  if fecLen > 0 ∧ fecLen ≤ SIZE_BUF * 2 then
    match fecEncode f.payload (SIZE_BUF * 2) with
    | none => f
    | some out =>
        if 0 < out.length ∧ out.length ≤ SIZE_BUF * 2 then { f with fec := true, payload := out }
        else f
  else f

def countSent (s : ProtocolStats) (len : ℕ) : ProtocolStats :=
  { s with txPackets := s.txPackets + 1, txBytes := s.txBytes + .ofNat len }

/-- What `tun_to_rb` decides to send for a packet, and its state changes up to there. -/
def buildFrame (lz4 : Lz4) (e : Echo) (raw : List UInt8) : Frame × Echo :=
  let compressed := rohcCompress e.rohcTx raw ROHC_MAX_COMPRESSED
  let f := addFec (choosePayload lz4 raw compressed.1)
  let counter := e.txRawCounter + 1
  let e := { e with
    rohcTx := compressed.2
    stats := countSent e.stats f.payload.length }
  if counter ≥ 100 then (⟨false, false, false, raw⟩, { e with txRawCounter := 0 })
  else (f, { e with txRawCounter := counter })

section Builder
variable (lz4 : Lz4) (e : Echo) (raw : List UInt8)

theorem buildFrame_fst : (buildFrame lz4 e raw).1 =
    if e.txRawCounter + 1 ≥ 100 then ⟨false, false, false, raw⟩
    else addFec (choosePayload lz4 raw (rohcCompress e.rohcTx raw ROHC_MAX_COMPRESSED).1) := by
  simp only [buildFrame]
  split_ifs <;> rfl

theorem buildFrame_snd : ∃ len, (buildFrame lz4 e raw).2 =
    { e with
      rohcTx := (rohcCompress e.rohcTx raw ROHC_MAX_COMPRESSED).2
      stats := countSent e.stats len
      txRawCounter := if e.txRawCounter + 1 ≥ 100 then 0 else e.txRawCounter + 1 } := by
  let chosen := choosePayload lz4 raw (rohcCompress e.rohcTx raw ROHC_MAX_COMPRESSED).1
  refine ⟨(addFec chosen).payload.length, ?_⟩
  simp only [buildFrame]
  split_ifs <;> rfl

@[simp] theorem buildFrame_txRb : (buildFrame lz4 e raw).2.txRb = e.txRb := by
  obtain ⟨len, hbuilt⟩ := buildFrame_snd lz4 e raw
  rw [hbuilt]

@[simp] theorem buildFrame_rohcTx : (buildFrame lz4 e raw).2.rohcTx =
    (rohcCompress e.rohcTx raw ROHC_MAX_COMPRESSED).2 := by
  obtain ⟨len, hbuilt⟩ := buildFrame_snd lz4 e raw
  rw [hbuilt]

@[simp] theorem buildFrame_counter : (buildFrame lz4 e raw).2.txRawCounter =
    if e.txRawCounter + 1 ≥ 100 then 0 else e.txRawCounter + 1 := by
  obtain ⟨len, hbuilt⟩ := buildFrame_snd lz4 e raw
  rw [hbuilt]

variable {lz4 e raw}

theorem buildFrame_forced (h : e.txRawCounter + 1 ≥ 100) :
    (buildFrame lz4 e raw).1 = ⟨false, false, false, raw⟩ := by
  rw [buildFrame_fst, if_pos h]

theorem buildFrame_chosen (h : ¬ e.txRawCounter + 1 ≥ 100) : (buildFrame lz4 e raw).1 =
    addFec (choosePayload lz4 raw (rohcCompress e.rohcTx raw ROHC_MAX_COMPRESSED).1) := by
  rw [buildFrame_fst, if_neg h]

end Builder

/-- Scrambles and writes bit after bit; stops with `false` when the ring refuses one. -/
def sendBits : Scrambler → Buffer → List Bool → Bool × Scrambler × Buffer
  | s, b, [] => (true, s, b)
  | s, b, bit :: bits =>
      let scrambled := scramblerProcess s bit
      match putBits b scrambled.1 with
      | none => (false, scrambled.2, b)
      | some b' => sendBits scrambled.2 b' bits

/-- `raw` is what `tun_read` returns, empty for an error. -/
def tunToRb (lz4 : Lz4) (e : Echo) (raw : List UInt8) : Echo :=
  if raw.length = 0 then e
  else
    let built := buildFrame lz4 e raw
    let sent := sendBits scramblerReset built.2.txRb (frameBits built.1)
    { built.2 with txScrambler := sent.2.1, txRb := sent.2.2 }

theorem tunToRb_rohcTx (lz4 : Lz4) (e : Echo) {raw : List UInt8} (hraw : raw.length ≠ 0) :
    (tunToRb lz4 e raw).rohcTx = (rohcCompress e.rohcTx raw ROHC_MAX_COMPRESSED).2 := by
  simp only [tunToRb]
  rw [if_neg hraw, buildFrame_rohcTx]

theorem tunToRb_counter (lz4 : Lz4) (e : Echo) {raw : List UInt8} (hraw : raw.length ≠ 0) :
    (tunToRb lz4 e raw).txRawCounter =
      if e.txRawCounter + 1 ≥ 100 then 0 else e.txRawCounter + 1 := by
  simp only [tunToRb]
  rw [if_neg hraw, buildFrame_counter]

/-- The bits of one iteration of the main loop: preamble, sync word and the scrambled frame. -/
def airBits (f : Frame) : List Bool :=
  announcement ++ scrambleBits scramblerReset (frameBits f)

/-- Writes bit after bit as the preamble and sync word writers do, ignoring refusals. -/
def pushBits (b : Buffer) (bits : List Bool) : Buffer := bits.foldl putIgnoring b

def pushPreamble (b : Buffer) : Buffer := pushBits b preambleBits
def pushSyncWord (b : Buffer) : Buffer := pushBits b syncBits

def MAX_TX_FRAME_BYTES : ℕ := 1024

/-- The free space as the main loop computes it. -/
def freeSpace (b : Buffer) : ℕ := BUFFER_SIZE - ((b.head + BUFFER_SIZE - b.tail) &&& BUFFER_MASK)

/-- The branch of the main loop that reads the TUN, taken unless the ring is nearly full. -/
def sendPacket (lz4 : Lz4) (e : Echo) (raw : List UInt8) : Echo :=
  if freeSpace e.txRb < MAX_TX_FRAME_BYTES then e
  else tunToRb lz4 { e with txRb := pushSyncWord (pushPreamble e.txRb) } raw

theorem airBits_length (f : Frame) : (airBits f).length = 64 + 8 * f.payload.length := by
  have hannounce : announcement.length = 48 := rfl
  rw [airBits, List.length_append, hannounce, scrambleBits_length, frameBits_length]
  ring

end EchoProtocol.Transmit
