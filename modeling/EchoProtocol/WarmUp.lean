import EchoProtocol.Lockstep
import EchoProtocol.DroppedPackets

/-!
# The warm-up

Before its main loop the program sends the same small packet a few times, past `tun_to_rb` and
its header compression. The receiver's context is valid after it, and the sender's is not.
-/
namespace EchoProtocol.WarmUp
open Bytes RingBits Scrambling SyncWord IpChecksum Rohc Frames Endpoint Transmit Receive FrameHeader
  Backpressure Delivery Link Lockstep Runs

/-- `dummy_ip` without its checksum. -/
def zeroedIp : List UInt8 :=
  [0x45, 0x00, 0x00, 0x1C, 0x00, 0x01, 0x40, 0x00, 0x40, 0x01, 0x00, 0x00,
    0x0A, 0x00, 0x00, 0x01, 0x0A, 0x00, 0x00, 0x02] ++ List.replicate 8 0

def dummyIp : List UInt8 :=
  let ck := ipChecksum (byteAt zeroedIp) 20
  (zeroedIp.set 10 ((ck >>> 8) &&& 0xFF).toUInt8).set 11 (ck &&& 0xFF).toUInt8

/-- The two loops over header and payload, which ignore refusals. -/
def pushScrambled : Scrambler → Buffer → List Bool → Scrambler × Buffer
  | s, b, [] => (s, b)
  | s, b, bit :: bits =>
      let scrambled := scramblerProcess s bit
      pushScrambled scrambled.2 (putIgnoring b scrambled.1) bits

/-- One iteration of the warm-up loop. -/
def warmUpPacket (e : Echo) : Echo :=
  let txRb := pushSyncWord (pushPreamble e.txRb)
  let header := 28 &&& 0x3FFF
  let pushed := pushScrambled scramblerReset txRb (wordBits 16 header ++ payloadBits dummyIp)
  { e with txScrambler := pushed.1, txRb := pushed.2 }

theorem pushScrambled_txRb (s : Scrambler) (b : Buffer) (bits : List Bool) :
    (pushScrambled s b bits).2 = pushBits b (scrambleBits s bits) := by
  induction bits generalizing s b with
  | nil => rfl
  | cons bit bits ih => exact ih _ _

theorem pushBits_fits {b : Buffer} {bits : List Bool} (h : WellFormed b)
    (hroom : bits.length ≤ freeBits b) :
    Holds (pushBits b bits) (unread b ++ bits) ∧
      freeBits (pushBits b bits) + bits.length = freeBits b := by
  induction bits generalizing b with
  | nil => exact ⟨⟨h, (List.append_nil _).symm⟩, rfl⟩
  | cons bit bits ih =>
    rw [List.length_cons] at hroom
    obtain ⟨b', hput⟩ := Option.isSome_iff_exists.mp
      ((putBits_isSome_iff_freeBits h bit).mpr (by omega))
    have hfree := freeBits_putBits h hput
    obtain ⟨hwf, hq⟩ := putBits_holds ⟨h, rfl⟩ hput
    obtain ⟨hholds, hrest⟩ := ih hwf (by omega)
    have hstep : pushBits b (bit :: bits) = pushBits b' bits := by
      rw [pushBits, List.foldl_cons, putIgnoring, hput, Option.getD_some]
      rfl
    rw [hstep, List.length_cons]
    rw [hq, List.append_assoc, List.singleton_append] at hholds
    exact ⟨hholds, by omega⟩

theorem pushBits_append (b : Buffer) (bits bits' : List Bool) :
    pushBits b (bits ++ bits') = pushBits (pushBits b bits) bits' := List.foldl_append

theorem warmUpPacket_txRb (e : Echo) :
    (warmUpPacket e).txRb = pushBits e.txRb (airBits (rawFrame dummyIp)) := by
  have hheader : header (rawFrame dummyIp) = 28 &&& 0x3FFF := by decide +kernel
  have hpayload : (rawFrame dummyIp).payload = dummyIp := rfl
  simp only [warmUpPacket, pushScrambled_txRb, pushSyncWord, pushPreamble, airBits, announcement,
    pushBits_append, frameBits, hheader, hpayload]

theorem warmUpPacket_fits {e : Echo} (h : WellFormed e.txRb) (hroom : 288 ≤ freeBits e.txRb) :
    Holds (warmUpPacket e).txRb (unread e.txRb ++ airBits (rawFrame dummyIp)) ∧
      freeBits (warmUpPacket e).txRb + 288 = freeBits e.txRb := by
  have hlen : (airBits (rawFrame dummyIp)).length = 288 := by
    rw [airBits_length]
    rfl
  rw [warmUpPacket_txRb, ← hlen]
  exact pushBits_fits h (by rwa [hlen])

theorem dummyIp_wellFormed : WellFormedIpv4 dummyIp := by decide +kernel

theorem deliver_rawFrame (lz4 : Lz4) {e : Echo} (memory : Memory) {packet : List UInt8}
    (hring : Holds e.rxRb []) (hw : WellFormedIpv4 packet) (hmax : packet.length ≤ 1280) :
    (deliver lz4 memory e (rawFrame packet)).rohcRx =
        rohcSyncContext e.rohcRx packet packet.length ∧
      (deliver lz4 memory e (rawFrame packet)).tunOut = e.tunOut ++ [packet] ∧
      Holds (deliver lz4 memory e (rawFrame packet)).rxRb [] := by
  -- a sender that is about to force a raw frame builds exactly this one
  have hlen := hw.length
  have hforced : ({ freshEcho with txRawCounter := 99 } : Echo).txRawCounter + 1 ≥ 100 := by decide
  have hbuilt : (buildFrame lz4 { freshEcho with txRawCounter := 99 } packet).1 = rawFrame packet := by
    rw [buildFrame_forced hforced]
    rfl
  have hplain : plainFrame lz4 { freshEcho with txRawCounter := 99 } packet = rawFrame packet := by
    rw [plainFrame, if_pos hforced]
    rfl
  have hraw := deliver_raw memory hring (by omega) hmax hplain
    (not_badChecksum_ipv4 memory.stack hw)
  obtain ⟨-, -, -, hring'⟩ := deliver_buildFrame lz4 memory { freshEcho with txRawCounter := 99 }
    hring (by omega) (hmax.trans (by decide))
  rw [hbuilt] at hraw hring'
  exact ⟨hraw.1, hraw.2, hring'⟩

/-- The receiver after the warm-up frames that arrive, each with the memory it finds. -/
def warmedReceiver (lz4 : Lz4) (e : Echo) (arrivals : List Memory) : Echo :=
  arrivals.foldl (fun e memory => deliver lz4 memory e (rawFrame dummyIp)) e

theorem warmedReceiver_spec (lz4 : Lz4) {e : Echo} (arrivals : List Memory)
    (hring : Holds e.rxRb []) :
    Holds (warmedReceiver lz4 e arrivals).rxRb [] ∧
      (warmedReceiver lz4 e arrivals).tunOut =
        e.tunOut ++ List.replicate arrivals.length dummyIp := by
  induction arrivals generalizing e with
  | nil => exact ⟨hring, (List.append_nil _).symm⟩
  | cons memory arrivals ih =>
    obtain ⟨-, htun, hring'⟩ := deliver_rawFrame lz4 memory hring dummyIp_wellFormed (by decide)
    obtain ⟨hlast, hall⟩ := ih hring'
    refine ⟨hlast, ?_⟩
    rw [warmedReceiver, List.foldl_cons]
    rw [warmedReceiver] at hall
    rw [hall, htun, List.append_assoc, List.length_cons, List.replicate_succ, List.singleton_append]

theorem inStep_of_rohcInit {p : Peers} (hring : Holds p.receiver.rxRb [])
    (htx : p.sender.rohcTx = rohcInit) : InStep p := by
  refine ⟨hring, fun hversion => ?_⟩
  rw [htx] at hversion
  exact absurd hversion (by decide)

end EchoProtocol.WarmUp
