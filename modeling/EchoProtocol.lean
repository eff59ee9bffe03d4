import EchoProtocol.Runs
import EchoProtocol.BoundedQueue
import EchoProtocol.LinearRecurrence
import EchoProtocol.ErrorLocator
import EchoProtocol.OnesComplement
import EchoProtocol.ShiftRegister
import EchoProtocol.FoldChecksum
import EchoProtocol.CyclicCode
import EchoProtocol.AccessTrace
import EchoProtocol.MatrixOrder
import EchoProtocol.Bytes
import EchoProtocol.ByteField
import EchoProtocol.ReedSolomon
import EchoProtocol.ReedSolomonDecoding
import EchoProtocol.SyndromeRecurrence
import EchoProtocol.BoundedDistance
import EchoProtocol.Fec
import EchoProtocol.Interleaving
import EchoProtocol.EncoderCapacity
import EchoProtocol.DamagedPrefix
import EchoProtocol.RingBits
import EchoProtocol.RingQueue
import EchoProtocol.RingConcurrent
import EchoProtocol.Scrambling
import EchoProtocol.SelfSynchronization
import EchoProtocol.SyncWord
import EchoProtocol.SyncWindow
import EchoProtocol.IpChecksum
import EchoProtocol.Rohc
import EchoProtocol.RohcRebuild
import EchoProtocol.RohcBounds
import EchoProtocol.RohcFamilies
import EchoProtocol.RohcSealed
import EchoProtocol.RohcCompression
import EchoProtocol.DamagedHeaders
import EchoProtocol.RohcRoundTrip
import EchoProtocol.RohcContexts
import EchoProtocol.RohcLossless
import EchoProtocol.Frames
import EchoProtocol.Endpoint
import EchoProtocol.Transmit
import EchoProtocol.SymbolFetch
import EchoProtocol.Receive
import EchoProtocol.HeaderErrors
import EchoProtocol.FrameHeader
import EchoProtocol.Backpressure
import EchoProtocol.DroppedPackets
import EchoProtocol.ReceiveMachine
import EchoProtocol.ReceiveBuffer
import EchoProtocol.FrameRoundTrip
import EchoProtocol.FrameStream
import EchoProtocol.Delivery
import EchoProtocol.RejectedFrames
import EchoProtocol.WrittenPackets
import EchoProtocol.Link
import EchoProtocol.Lockstep
import EchoProtocol.FrameLoss
import EchoProtocol.Recovery
import EchoProtocol.DamagedFrames
import EchoProtocol.Bursts
import EchoProtocol.Agc
import EchoProtocol.AgcLocking
import EchoProtocol.AgcLimits
import EchoProtocol.Goertzel
import EchoProtocol.Modem
import EchoProtocol.Demodulation
import EchoProtocol.WarmUp
import EchoProtocol.Callback
import EchoProtocol.Playback
import EchoProtocol.GappedStream
import EchoProtocol.Reception
import EchoProtocol.Accounting
import EchoProtocol.Noise
import EchoProtocol.Conveyance
import EchoProtocol.Windows
import EchoProtocol.Acoustics
import EchoProtocol.AcousticLink
import EchoProtocol.IdleReception
import EchoProtocol.Resynchronization
import EchoProtocol.Rejoining
