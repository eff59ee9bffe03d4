import EchoProtocol.FrameHeader
import EchoProtocol.RohcRebuild

/-!
# Frames that arrive

A frame that reaches the receiver undamaged is judged on the payload it had before error
correction was added.
-/
namespace EchoProtocol.Delivery
open Bytes Fec RingBits Rohc Frames Endpoint Transmit Receive FrameHeader

/-- The receiver with a completed frame, as the receive state machine leaves it. -/
def arrive (e : Echo) (f : Frame) : Echo :=
  { e with
    rxRb := pushBits e.rxRb (frameBits f)
    rx := { e.rx with
      isCompressed := f.comp
      isRohc := f.rohc
      isFec := f.fec
      packetLen := f.payload.length } }

def deliver (lz4 : Lz4) (memory : Memory) (e : Echo) (f : Frame) : Echo :=
  rbToTun lz4 memory (arrive e f) f.payload.length

/-- What a verdict adds to the TUN. -/
def packets : Verdict → List (List UInt8)
  | .rejected => []
  | .empty => []
  | .written out => [out]

theorem record_tunOut (e : Echo) (v : Verdict) : (record e v).tunOut = e.tunOut ++ packets v := by
  cases v with
  | rejected => exact (List.append_nil _).symm
  | empty => exact (List.append_nil _).symm
  | written out => rfl

theorem processPayload_rohcRx (lz4 : Lz4) (memory : Memory) (e : Echo) (p : List UInt8) (n : ℕ) :
    (processPayload lz4 memory e p n).rohcRx = (judge lz4 memory e.rx e.rohcRx p n).2 :=
  record_rohcRx _ _

theorem processPayload_tunOut (lz4 : Lz4) (memory : Memory) (e : Echo) (p : List UInt8) (n : ℕ) :
    (processPayload lz4 memory e p n).tunOut =
      e.tunOut ++ packets (judge lz4 memory e.rx e.rohcRx p n).1 :=
  record_tunOut _ _

@[simp] theorem rxReset_rohcRx (e : Echo) : (rxReset e).rohcRx = e.rohcRx := rfl

@[simp] theorem rxReset_tunOut (e : Echo) : (rxReset e).tunOut = e.tunOut := rfl

@[simp] theorem rxReset_stats (e : Echo) : (rxReset e).stats = e.stats := rfl

/-- The payload array of `rb_to_tun` after it has read the payload of a frame. -/
def payloadArray (payload : List UInt8) : List UInt8 :=
  payload ++ List.replicate (SIZE_BUF * 2 - payload.length) 0

theorem arrive_holds {e : Echo} {f : Frame} (h : Holds e.rxRb [])
    (hmax : f.payload.length ≤ SIZE_BUF * 2) : Holds (arrive e f).rxRb (frameBits f) := by
  have hroom : ([] : List Bool).length + (frameBits f).length ≤ (BUFFER_SIZE - 2) * 8 := by
    unfold SIZE_BUF at hmax
    unfold BUFFER_SIZE
    rw [frameBits_length, List.length_nil]
    omega
  have hring := pushBits_holds h hroom
  simpa only [arrive, List.nil_append] using hring

theorem rbToTun_ring (lz4 : Lz4) (memory : Memory) {e : Echo} {f : Frame}
    (h : Holds e.rxRb (frameBits f)) (hpos : 0 < f.payload.length)
    (hmax : f.payload.length ≤ SIZE_BUF * 2) : ∃ rb, rbToTun lz4 memory e f.payload.length = rxReset
      (processPayload lz4 memory { e with rxRb := rb } (payloadArray f.payload) f.payload.length) := by
  have hring : Holds e.rxRb (wordBits 16 (header f) ++ payloadBits f.payload) := h
  rw [payloadArray, ← packBits_payloadBits hmax]
  exact rbToTun_frame hring (wordBits_length 16 _) (payloadBits_length f.payload) hpos hmax

theorem deliver_spec (lz4 : Lz4) (memory : Memory) {e : Echo} {f : Frame} (h : Holds e.rxRb [])
    (hpos : 0 < f.payload.length) (hmax : f.payload.length ≤ SIZE_BUF * 2) :
    let judged := judge lz4 memory (arrive e f).rx e.rohcRx (payloadArray f.payload) f.payload.length
    (deliver lz4 memory e f).rohcRx = judged.2 ∧
      (deliver lz4 memory e f).tunOut = e.tunOut ++ packets judged.1 ∧
      Holds (deliver lz4 memory e f).rxRb [] := by
  obtain ⟨rb, heq⟩ := rbToTun_ring lz4 memory (arrive_holds h hmax) hpos hmax
  rw [deliver, heq, rxReset_rohcRx, rxReset_tunOut, processPayload_rohcRx, processPayload_tunOut]
  exact ⟨rfl, rfl, rxReset_holds _⟩

/-- The last stages, on a rebuilt packet. -/
def finish (stack : ℕ → UInt8) (r : Option (List UInt8) × ROHCState) : Verdict × ROHCState :=
  match r.1 with
  | none => (.rejected, r.2)
  | some out =>
      if badChecksum stack out then (.rejected, r.2)
      else if 0 < out.length then (.written out, r.2)
      else (.empty, r.2)

theorem finish_snd (stack : ℕ → UInt8) (r : Option (List UInt8) × ROHCState) :
    (finish stack r).2 = r.2 := by
  rcases r with ⟨_ | out, s⟩
  · rfl
  · simp only [finish]
    split_ifs <;> rfl

theorem judge_decoded {lz4 : Lz4} {memory : Memory} {rx : RxState} {s : ROHCState}
    {p p' : List UInt8} {n n' : ℕ} (h : decodeFec rx.isFec p n = some (p', n')) :
    judge lz4 memory rx s p n = finish memory.stack
      (rebuildPacket lz4 memory.past rx.isRohc rx.isCompressed s p' n') := by
  simp only [judge, h]
  rfl

theorem decodeFec_addFec {f : Frame} (hpos : 0 < f.payload.length)
    (hlen : f.payload.length ≤ SIZE_BUF) : ∃ tail, decodeFec true (payloadArray (addFec f).payload)
      (addFec f).payload.length = some (f.payload ++ tail, f.payload.length) := by
  obtain ⟨out, hout, hadd, -, -⟩ := addFec_spec hpos hlen
  have hback : fecDecode out (SIZE_BUF * 2) = some f.payload :=
    fecDecode_fecEncode hpos (hlen.trans (by decide)) hout (hlen.trans (by decide))
  refine ⟨(payloadArray out).drop f.payload.length, ?_⟩
  rw [hadd]
  simp only [decodeFec, payloadArray, if_true, List.take_left, hback]
  rw [if_neg hpos.ne']

/-- The frame before error correction. -/
def plainFrame (lz4 : Lz4) (e : Echo) (raw : List UInt8) : Frame :=
  if e.txRawCounter + 1 ≥ 100 then ⟨false, false, false, raw⟩
  else choosePayload lz4 raw (rohcCompress e.rohcTx raw ROHC_MAX_COMPRESSED).1

theorem buildFrame_plain (lz4 : Lz4) (e : Echo) {raw : List UInt8} (hpos : 0 < raw.length)
    (hlen : raw.length ≤ SIZE_BUF) :
    (buildFrame lz4 e raw).1.comp = (plainFrame lz4 e raw).comp ∧
      (buildFrame lz4 e raw).1.rohc = (plainFrame lz4 e raw).rohc ∧
      0 < (buildFrame lz4 e raw).1.payload.length ∧
      (buildFrame lz4 e raw).1.payload.length ≤ SIZE_BUF * 2 ∧
      ∃ tail, decodeFec (buildFrame lz4 e raw).1.fec (payloadArray (buildFrame lz4 e raw).1.payload)
        (buildFrame lz4 e raw).1.payload.length =
          some ((plainFrame lz4 e raw).payload ++ tail, (plainFrame lz4 e raw).payload.length) := by
  unfold plainFrame
  by_cases hforced : e.txRawCounter + 1 ≥ 100
  · rw [buildFrame_forced hforced, if_pos hforced]
    exact ⟨rfl, rfl, hpos, hlen.trans (by decide), _, rfl⟩
  · rw [buildFrame_chosen hforced, if_neg hforced]
    obtain ⟨hchosen, hle, -⟩ := choosePayload_spec lz4 hpos
      (rohcCompress e.rohcTx raw ROHC_MAX_COMPRESSED).1
    have hdecode := decodeFec_addFec hchosen (hle.trans hlen)
    obtain ⟨out, hout, hadd, hcode, hlt⟩ := addFec_spec hchosen (hle.trans hlen)
    rw [hadd] at hdecode ⊢
    have hvalid := isValidFecLen_encoded hchosen hcode
    refine ⟨rfl, rfl, ?_, ?_, hdecode⟩
    · exact isValidFecLen_pos hvalid
    · change out.length ≤ 4096
      omega

/-- A built frame that arrives is judged as it was before error correction. -/
theorem deliver_buildFrame (lz4 : Lz4) (memory : Memory) {e : Echo} (sender : Echo) {raw : List UInt8}
    (h : Holds e.rxRb []) (hpos : 0 < raw.length) (hlen : raw.length ≤ SIZE_BUF) :
    ∃ tail,
      let f := plainFrame lz4 sender raw
      let judged := finish memory.stack (rebuildPacket lz4 memory.past f.rohc f.comp e.rohcRx
        (f.payload ++ tail) f.payload.length)
      let after := deliver lz4 memory e (buildFrame lz4 sender raw).1
      after.rohcRx = judged.2 ∧ after.tunOut = e.tunOut ++ packets judged.1 ∧
        Holds after.rxRb [] := by
  obtain ⟨hcomp, hrohc, hframe, hmax, tail, hdecode⟩ := buildFrame_plain lz4 sender hpos hlen
  refine ⟨tail, ?_⟩
  have hspec := deliver_spec lz4 memory h hframe hmax
  rw [judge_decoded hdecode] at hspec
  simp only [← hcomp, ← hrohc]
  exact hspec

end EchoProtocol.Delivery
