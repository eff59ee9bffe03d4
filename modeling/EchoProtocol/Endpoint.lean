import EchoProtocol.RingBits
import EchoProtocol.Scrambling
import EchoProtocol.SyncWord
import EchoProtocol.Rohc

/-!
# The state of one end of the link
-/
namespace EchoProtocol.Endpoint
open RingBits Scrambling SyncWord Rohc

inductive RxStatus
  | SEARCHING
  | DATA
  deriving DecidableEq

structure RxState where
  state : RxStatus
  syncAccumulator : UInt32
  bitsReceived : ℕ
  packetLen : ℕ
  headerAccumulator : ℕ
  lastRxTime : ℕ
  packetReady : Bool
  isCompressed : Bool
  isRohc : Bool
  isFec : Bool

structure ProtocolStats where
  txPackets : UInt64
  txBytes : UInt64
  rxPackets : UInt64
  rxBytes : UInt64
  rxCorrupted : UInt64
  rxSyncFound : UInt64
  rxTimeouts : UInt64

/-- `EchoProtocol` together with the static variables of its functions, the sync correlator and
the counter of `tun_to_rb`, and the packets written to the TUN so far. -/
structure Echo where
  txRb : Buffer
  rxRb : Buffer
  rx : RxState
  rohcTx : ROHCState
  rohcRx : ROHCState
  txScrambler : Scrambler
  rxScrambler : Scrambler
  stats : ProtocolStats
  correlator : Correlator
  txRawCounter : ℤ
  tunOut : List (List UInt8)

/-- `echo_init` on fresh memory; it does not write `is_fec`, and `malloc` does not clear the
rings. -/
def echoInit (txJunk rxJunk : ℕ → UInt8) (isFec : Bool) : Echo where
  txRb := rbInit txJunk
  rxRb := rbInit rxJunk
  rx := ⟨.SEARCHING, 0, 0, 0, 0, 0, false, false, false, isFec⟩
  rohcTx := rohcInit
  rohcRx := rohcInit
  txScrambler := scramblerInit
  rxScrambler := scramblerInit
  stats := ⟨0, 0, 0, 0, 0, 0, 0⟩
  correlator := syncCorrelatorReset
  txRawCounter := 0
  tunOut := []

/-- The fields of the receiver that `rx_reset` clears. -/
def RxState.reset (rx : RxState) : RxState :=
  { rx with
    state := .SEARCHING
    bitsReceived := 0
    packetLen := 0
    headerAccumulator := 0
    syncAccumulator := 0
    isCompressed := false
    isRohc := false
    isFec := false }

def rxReset (e : Echo) : Echo :=
  { e with
    rx := e.rx.reset
    rxRb := rbReset e.rxRb
    rxScrambler := scramblerReset
    correlator := syncCorrelatorReset }

/-- The memory of the sync word detector. -/
def detector (e : Echo) : Detector := ⟨e.rx.syncAccumulator, e.correlator⟩

def setDetector (e : Echo) (d : Detector) : Echo :=
  { e with rx := { e.rx with syncAccumulator := d.checkWord }, correlator := d.correlator }

/-- `put_bits` by a caller that ignores the return value. -/
def putIgnoring (b : Buffer) (bit : Bool) : Buffer := (putBits b bit).getD b

end EchoProtocol.Endpoint
