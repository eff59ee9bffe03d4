import EchoProtocol.IpChecksum

/-!
# Header compression

The sender replaces an IP header by the fields that differ from a context it shares with the
receiver, who rebuilds the header from its own copy.
-/
namespace EchoProtocol.Rohc
open Bytes IpChecksum

def ROHC_CTX_SIZE : ℕ := 40
def ROHC_FLAG_IP_ID : UInt8 := 0x01
def ROHC_FLAG_TTL : UInt8 := 0x02
def ROHC_FLAG_TOS : UInt8 := 0x04
def ROHC_FLAG_FLAGS : UInt8 := 0x08
def ROHC_V6_FLAG_NEXT_HDR : UInt8 := 0x01
def ROHC_V6_FLAG_HOP_LIMIT : UInt8 := 0x02
def ROHC_V6_FLAG_TC : UInt8 := 0x04
def ROHC_VERSION_V6 : UInt8 := 0x80
def ROHC_MAX_COMPRESSED : ℕ := 1 + 1 + 2 + 1 + 2 + 2 + 2048

structure ROHCState where
  context : List UInt8
  contextValid : Bool
  size : context.length = ROHC_CTX_SIZE
  deriving DecidableEq

def ROHCState.ctx (s : ROHCState) (i : ℕ) : UInt8 := byteAt s.context i

/-- Overwrites the context at the given places. -/
def ROHCState.store (s : ROHCState) (value : ℕ → UInt8) (places : List ℕ) : ROHCState :=
  { context := tabulate ROHC_CTX_SIZE fun i => if i ∈ places then value i else s.ctx i
    contextValid := s.contextValid
    size := tabulate_length _ _ }

/-- `memcpy(context, packet, copy)`. -/
def ROHCState.copyContext (s : ROHCState) (packet : List UInt8) (copy : ℕ) : ROHCState :=
  s.store (byteAt packet) (List.range copy)

def ROHCState.validate (s : ROHCState) : ROHCState := { s with contextValid := true }

def rohcInit : ROHCState := ⟨List.replicate ROHC_CTX_SIZE 0, false, List.length_replicate⟩

def crcBit (crc : UInt8) : UInt8 := if crc &&& 0x80 ≠ 0 then (crc <<< 1) ^^^ 0x07 else crc <<< 1

def crcByte (crc data : UInt8) : UInt8 := crcBit^[8] (crc ^^^ data)

def crc8 (data : List UInt8) : UInt8 := data.foldl crcByte 0xFF

/-- The version nibble of the first byte of a packet, in place. -/
def version (first : UInt8) : UInt8 := first &&& 0xF0

/-- The header length in bytes that the first byte of an IPv4 packet states. -/
def ihl (first : UInt8) : ℕ := (first &&& 0x0F).toNat * 4

/-- `memcmp(packet + start, context + start, count) != 0`. -/
def memoryDiffers (packet : List UInt8) (s : ROHCState) (start count : ℕ) : Prop :=
  ∃ i, i < count ∧ byteAt packet (start + i) ≠ s.ctx (start + i)

instance (packet : List UInt8) (s : ROHCState) (start count : ℕ) :
    Decidable (memoryDiffers packet s start count) :=
  inferInstanceAs (Decidable (∃ i, i < count ∧ _))

/-- A field of a compressed header, present when its flag is set. -/
def optionalField (flags flag : UInt8) (field : List UInt8) : List UInt8 :=
  if flags &&& flag ≠ 0 then field else []

/-- The length of an IPv4 header, or what of it fits the context. -/
def contextCopy (ihl : ℕ) : ℕ := if ihl < ROHC_CTX_SIZE then ihl else ROHC_CTX_SIZE

def ipv4Flags (s : ROHCState) (packet : List UInt8) : UInt8 :=
  ROHC_FLAG_IP_ID ||| (if byteAt packet 1 ≠ s.ctx 1 then ROHC_FLAG_TOS else 0)
    ||| (if byteAt packet 6 ≠ s.ctx 6 ∨ byteAt packet 7 ≠ s.ctx 7 then ROHC_FLAG_FLAGS else 0)
    ||| (if byteAt packet 8 ≠ s.ctx 8 then ROHC_FLAG_TTL else 0)

/-- The compressed header of an IPv4 packet with the CRC byte still zero. -/
def ipv4Header (flags : UInt8) (packet : List UInt8) : List UInt8 :=
  [0, flags, 0, byteAt packet 4, byteAt packet 5] ++
    optionalField flags ROHC_FLAG_TOS [byteAt packet 1] ++
    optionalField flags ROHC_FLAG_FLAGS [byteAt packet 6, byteAt packet 7] ++
    optionalField flags ROHC_FLAG_TTL [byteAt packet 8]

/-- The result is an error code, `ok []` for the return value 0 (send the packet as it is), or
the compressed packet. -/
def compressIpv4 (s : ROHCState) (packet : List UInt8) (outLen : ℕ) :
    Except ℤ (List UInt8) × ROHCState :=
  if packet.length < 20 then (.error (-2), s)
  else
    let ihl := ihl (byteAt packet 0)
    if ihl < 20 ∨ packet.length < ihl then (.error (-2), s)
    else if !s.contextValid then (.ok [], (s.copyContext packet (contextCopy ihl)).validate)
    else if version (byteAt packet 0) ≠ version (s.ctx 0) ∨ byteAt packet 9 ≠ s.ctx 9 ∨
        memoryDiffers packet s 12 8 then
      (.ok [], s.copyContext packet (contextCopy ihl))
    else if byteAt packet 0 &&& 0x0F ≠ s.ctx 0 &&& 0x0F then
      (.ok [], s.copyContext packet (contextCopy ihl))
    else
      let flags := ipv4Flags s packet
      let header := ipv4Header flags packet
      let payload := packet.drop ihl
      if header.length + payload.length > outLen then (.error (-3), s)
      else (.ok (header.set 2 (crc8 header) ++ payload), s.store (byteAt packet) [1, 4, 5, 6, 7, 8])

def ipv6Flags (s : ROHCState) (packet : List UInt8) : UInt8 :=
  (if byteAt packet 6 ≠ s.ctx 6 then ROHC_V6_FLAG_NEXT_HDR else 0)
    ||| (if byteAt packet 7 ≠ s.ctx 7 then ROHC_V6_FLAG_HOP_LIMIT else 0)
    ||| (if byteAt packet 0 &&& 0x0F ≠ s.ctx 0 &&& 0x0F ∨ byteAt packet 1 >>> 4 ≠ s.ctx 1 >>> 4
        then ROHC_V6_FLAG_TC else 0)

def ipv6Header (flags : UInt8) (packet : List UInt8) : List UInt8 :=
  [ROHC_VERSION_V6, flags, 0, byteAt packet 4, byteAt packet 5] ++
    optionalField flags ROHC_V6_FLAG_NEXT_HDR [byteAt packet 6] ++
    optionalField flags ROHC_V6_FLAG_HOP_LIMIT [byteAt packet 7] ++
    optionalField flags ROHC_V6_FLAG_TC [byteAt packet 0 &&& 0x0F]

/-- What `compress_ipv6` writes back: the traffic class goes into byte 1 from the low half of
byte 0 of the packet. -/
def ipv6Refresh (s : ROHCState) (packet : List UInt8) (i : ℕ) : UInt8 :=
  if i = 0 then (s.ctx 0 &&& 0xF0) ||| (byteAt packet 0 &&& 0x0F)
  else if i = 1 then ((byteAt packet 0 &&& 0x0F) <<< 4) ||| (s.ctx 1 &&& 0x0F)
  else byteAt packet i

def compressIpv6 (s : ROHCState) (packet : List UInt8) (outLen : ℕ) :
    Except ℤ (List UInt8) × ROHCState :=
  if packet.length < 40 then (.error (-2), s)
  else if !s.contextValid then (.ok [], (s.copyContext packet ROHC_CTX_SIZE).validate)
  else if version (byteAt packet 0) ≠ version (s.ctx 0) ∨ byteAt packet 6 ≠ s.ctx 6 ∨
      memoryDiffers packet s 8 32 then
    (.ok [], s.copyContext packet ROHC_CTX_SIZE)
  else
    let flags := ipv6Flags s packet
    let header := ipv6Header flags packet
    let payload := packet.drop 40
    if header.length + payload.length > outLen then (.error (-3), s)
    else (.ok (header.set 2 (crc8 header) ++ payload), s.store (ipv6Refresh s packet) [0, 1, 4, 5, 6, 7])

def rohcCompress (s : ROHCState) (packet : List UInt8) (outLen : ℕ) :
    Except ℤ (List UInt8) × ROHCState :=
  if packet.length < 20 then (.error (-2), s)
  else if version (byteAt packet 0) = 0x40 then compressIpv4 s packet outLen
  else if version (byteAt packet 0) = 0x60 then compressIpv6 s packet outLen
  else (.error (-1), s)

/-- The read position in a compressed packet and the header rebuilt so far. -/
abbrev Rebuild := ℕ × (ℕ → UInt8)

/-- Moves the bytes from `pos` on to the given places of the header, one after another. -/
def moveBytes (compressed : List UInt8) : List ℕ → ℕ → (ℕ → UInt8) → ℕ → UInt8
  | [], _, rebuilt => rebuilt
  | place :: places, pos, rebuilt =>
      moveBytes compressed places (pos + 1) (Function.update rebuilt place (byteAt compressed pos))

/-- Reads a field if it is announced; `none` when the packet ends inside it. -/
def takeField (compressed : List UInt8) (compLen : ℕ) (present : Bool) (places : List ℕ)
    (r : Rebuild) : Option Rebuild :=
  if present then
    if r.1 + places.length > compLen then none
    else some (r.1 + places.length, moveBytes compressed places r.1 r.2)
  else some r

def hasFlag (flags flag : UInt8) : Bool := flags &&& flag ≠ 0

def flagBytes (flags flag : UInt8) (count : ℕ) : ℕ := if flags &&& flag ≠ 0 then count else 0

/-- The CRC over the first `headerLen` bytes of a compressed packet, its own byte taken as zero. -/
def headerCrc (compressed : List UInt8) (headerLen : ℕ) : UInt8 :=
  crc8 ((tabulate headerLen (byteAt compressed)).set 2 0)

/-- The traffic class field of an IPv6 header is written as it was read. -/
def takeTrafficClass (compressed : List UInt8) (compLen : ℕ) (present : Bool) (r : Rebuild) :
    Option Rebuild :=
  if present then
    if r.1 + 1 > compLen then none
    else
      let tcLo := byteAt compressed r.1
      let first := Function.update r.2 0 (0x60 ||| tcLo)
      some (r.1 + 1, Function.update first 1 ((tcLo <<< 4) ||| (first 1 &&& 0x0F)))
  else some r

def rohcDecompressIpv6 (s : ROHCState) (compressed : List UInt8) (compLen outLen : ℕ) :
    Option (List UInt8 × ROHCState) :=
  if compLen < 5 then none
  else
    let flags := byteAt compressed 1
    let headerLen := 5 + flagBytes flags ROHC_V6_FLAG_NEXT_HDR 1 +
      flagBytes flags ROHC_V6_FLAG_HOP_LIMIT 1 + flagBytes flags ROHC_V6_FLAG_TC 1
    if headerLen > 32 then none
    else if byteAt compressed 2 ≠ headerCrc compressed headerLen then none
    else do
      let r ← takeField compressed compLen true [4, 5] (3, s.ctx)
      let r ← takeField compressed compLen (hasFlag flags ROHC_V6_FLAG_NEXT_HDR) [6] r
      let r ← takeField compressed compLen (hasFlag flags ROHC_V6_FLAG_HOP_LIMIT) [7] r
      let (pos, rebuilt) ←
        takeTrafficClass compressed compLen (hasFlag flags ROHC_V6_FLAG_TC) r
      if compLen < pos then none
      else
        let payloadLen := compLen - pos
        let totalLen := 40 + payloadLen
        if totalLen > outLen then none
        else some (tabulate 40 rebuilt ++ (compressed.drop pos).take payloadLen,
          s.store rebuilt [0, 1, 4, 5, 6, 7])

/-- A byte of the context, or of the memory behind it. -/
def contextByte (past : ℕ → UInt8) (s : ROHCState) (i : ℕ) : UInt8 :=
  if i < ROHC_CTX_SIZE then s.ctx i else past i

/-- The rebuilt header of an IPv4 packet with its total length and its checksum filled in. -/
def finishIpv4 (rebuilt : ℕ → UInt8) (headerSize totalLen : ℕ) : ℕ → UInt8 :=
  let sized := Function.update (Function.update rebuilt 2 ((totalLen >>> 8) &&& 0xFF).toUInt8) 3
    (totalLen &&& 0xFF).toUInt8
  setChecksum sized (ipChecksum (setChecksum sized 0) headerSize)

/-- `none` is the return value `-1`, which leaves the context as it was. The packet is
`compLen` bytes of the array `compressed`, `past` is the memory behind the context. -/
def rohcDecompress (past : ℕ → UInt8) (s : ROHCState) (compressed : List UInt8)
    (compLen outLen : ℕ) : Option (List UInt8 × ROHCState) :=
  if !s.contextValid then none
  else if compLen < 5 then none
  else
    let flags := byteAt compressed 1
    let headerLen := 5 + flagBytes flags ROHC_FLAG_TOS 1 + flagBytes flags ROHC_FLAG_FLAGS 2 +
      flagBytes flags ROHC_FLAG_TTL 1
    if headerLen > 32 then none
    else if byteAt compressed 2 ≠ headerCrc compressed headerLen then none
    else if byteAt compressed 0 &&& ROHC_VERSION_V6 ≠ 0 then
      rohcDecompressIpv6 s compressed compLen outLen
    else
      let ctxHeaderSize := ihl (s.ctx 0)
      if ctxHeaderSize < 20 then none
      else do
        let r ← takeField compressed compLen (hasFlag flags ROHC_FLAG_IP_ID) [4, 5]
          (3, contextByte past s)
        let r ← takeField compressed compLen (hasFlag flags ROHC_FLAG_TOS) [1] r
        let r ← takeField compressed compLen (hasFlag flags ROHC_FLAG_FLAGS) [6, 7] r
        let (pos, rebuilt) ← takeField compressed compLen (hasFlag flags ROHC_FLAG_TTL) [8] r
        if compLen < pos then none
        else
          let payloadLen := compLen - pos
          let totalLen := ctxHeaderSize + payloadLen
          let header := finishIpv4 rebuilt ctxHeaderSize totalLen
          if totalLen > outLen then none
          else some (tabulate ctxHeaderSize header ++ (compressed.drop pos).take payloadLen,
            s.store header [1, 4, 5, 6, 7, 8])

/-- Takes a packet that was sent as it is as the new context; `packet` is an array of at least
`packetLen` bytes. -/
def rohcSyncContext (s : ROHCState) (packet : List UInt8) (packetLen : ℕ) : ROHCState :=
  if version (byteAt packet 0) = 0x40 then
    if packetLen < 20 then s
    else
      let ihl := ihl (byteAt packet 0)
      if ihl < 20 ∨ packetLen < ihl then s
      else (s.copyContext packet (contextCopy ihl)).validate
  else if version (byteAt packet 0) = 0x60 then
    if packetLen < 40 then s
    else (s.copyContext packet ROHC_CTX_SIZE).validate
  else s

end EchoProtocol.Rohc
