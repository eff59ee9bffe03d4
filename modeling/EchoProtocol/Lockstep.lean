import EchoProtocol.Link
import EchoProtocol.Runs

/-!
# Contexts in lockstep

From the first raw IPv4 frame on the receiver's context follows the sender's in the bytes that
header compression compares, as long as the sender's context holds an IPv4 header.
-/
namespace EchoProtocol.Lockstep
open Bytes RingBits Rohc Frames Endpoint Transmit Receive FrameHeader Delivery Link Runs

structure InStep (p : Peers) : Prop where
  ring : Holds p.receiver.rxRb []
  agree : version (p.sender.rohcTx.ctx 0) = 0x40 → p.receiver.rohcRx.contextValid = true ∧
    ∀ i ∈ compared, p.receiver.rohcRx.ctx i = p.sender.rohcTx.ctx i

structure Admissible (packet : List UInt8) : Prop where
  pos : 1 ≤ packet.length
  max : packet.length ≤ 1280
  kind : WellFormedIpv4 packet ∨ Ipv6Packet packet ∨ OtherPacket packet

/-- A lost frame leaves the bytes that header compression compares. -/
def Quiet (lz4 : Lz4) (p : Peers) (t : Transfer) : Prop :=
  t.arrives = true ∨
    ∀ i ∈ compared, (transfer lz4 p t).sender.rohcTx.ctx i = p.sender.rohcTx.ctx i

/-- An IPv4 packet whose frame arrives is written byte for byte, and nothing else. -/
def Exact (lz4 : Lz4) (p : Peers) (t : Transfer) : Prop :=
  t.arrives = true → WellFormedIpv4 t.packet →
    (transfer lz4 p t).receiver.tunOut = p.receiver.tunOut ++ [t.packet]

theorem mirrored_of_compared : ∀ i ∈ compared, i < 20 ∧ i ∉ [2, 3, 10, 11] := by decide

theorem transfer_ring (lz4 : Lz4) {p : Peers} {t : Transfer} (h : Holds p.receiver.rxRb [])
    (hpos : 1 ≤ t.packet.length) (hmax : t.packet.length ≤ 1280) :
    Holds (transfer lz4 p t).receiver.rxRb [] := by
  by_cases harrives : t.arrives = true
  · obtain ⟨tail, -, -, hring⟩ := deliver_buildFrame lz4 t.memory p.sender h hpos
      (hmax.trans (by decide))
    rw [transfer_arrived lz4 p harrives]
    exact hring
  · rw [transfer_lost lz4 p harrives]
    exact h

theorem sender_mirrors (lz4 : Lz4) (p : Peers) {t : Transfer} (h : WellFormedIpv4 t.packet)
    (hmax : t.packet.length ≤ 1280) : Mirrors (transfer lz4 p t).sender.rohcTx t.packet := by
  have hlen := h.length
  have hspec := rohcCompress_ipv4 p.sender.rohcTx h hmax
  rw [transfer_rohcTx lz4 p (by omega)]
  generalize rohcCompress p.sender.rohcTx t.packet ROHC_MAX_COMPRESSED = result at hspec
  cases hspec with
  | raw s' hvalid hmirrors => exact hmirrors
  | compressed s' hvalid hmirrors hagree => exact hmirrors

theorem synced_mirrors (s : ROHCState) {packet : List UInt8} (h : WellFormedIpv4 packet) :
    (rohcSyncContext s packet packet.length).contextValid = true ∧
      Mirrors (rohcSyncContext s packet packet.length) packet := by
  have hlen := h.length
  have hihl : ihl (byteAt packet 0) = 20 := by
    rw [h.first]
    decide
  have hsync : Syncable packet packet.length := .inl ⟨h.version, hlen, by omega, by omega⟩
  have hbytes : syncedBytes (byteAt packet 0) = 20 := by
    rw [h.first]
    decide
  rw [rohcSyncContext_eq, if_pos hsync, hbytes]
  exact ⟨rfl, copyContext_mirrors s packet⟩

theorem inStep_of_mirrors {p : Peers} {packet : List UInt8} (hring : Holds p.receiver.rxRb [])
    (htx : Mirrors p.sender.rohcTx packet) (hvalid : p.receiver.rohcRx.contextValid = true)
    (hrx : Mirrors p.receiver.rohcRx packet) : InStep p :=
  ⟨hring, fun _ => ⟨hvalid, fun i hi => by
    obtain ⟨hlt, hplace⟩ := mirrored_of_compared i hi
    rw [hrx i hlt hplace, htx i hlt hplace]⟩⟩

theorem resynced (lz4 : Lz4) {p : Peers} {t : Transfer} (hring : Holds p.receiver.rxRb [])
    (h : WellFormedIpv4 t.packet) (hmax : t.packet.length ≤ 1280) (harrives : t.arrives = true)
    (hraw : plainFrame lz4 p.sender t.packet = rawFrame t.packet) :
    InStep (transfer lz4 p t) ∧ Exact lz4 p t := by
  have hlen := h.length
  obtain ⟨hrx, htun⟩ := deliver_raw t.memory (e := p.receiver) hring (by omega) hmax hraw
    (not_badChecksum_ipv4 t.memory.stack h)
  obtain ⟨hvalid, hmirrors⟩ := synced_mirrors p.receiver.rohcRx h
  rw [← hrx, ← transfer_arrived lz4 p harrives] at hvalid hmirrors
  rw [← transfer_arrived lz4 p harrives] at htun
  exact ⟨inStep_of_mirrors (transfer_ring lz4 hring (by omega) hmax) (sender_mirrors lz4 p h hmax)
    hvalid hmirrors, fun _ _ => htun⟩

theorem InStep.lost {lz4 : Lz4} {p : Peers} {t : Transfer} (h : InStep p)
    (hlost : ¬ t.arrives = true) (hquiet : Quiet lz4 p t) : InStep (transfer lz4 p t) := by
  have hsame := hquiet.resolve_left hlost
  have hreceiver := transfer_lost lz4 p hlost
  refine ⟨hreceiver ▸ h.ring, fun hversion => ?_⟩
  rw [hsame 0 (by decide)] at hversion
  obtain ⟨hvalid, hagree⟩ := h.agree hversion
  rw [hreceiver]
  exact ⟨hvalid, fun i hi => (hagree i hi).trans (hsame i hi).symm⟩

/-- The receiver agrees with a packet that the sender compresses. -/
theorem InStep.agrees {p : Peers} {packet : List UInt8} (h : InStep p)
    (hw : WellFormedIpv4 packet)
    (htx : AgreesIpv4 p.sender.rohcTx (ipv4Flags p.sender.rohcTx packet) packet) :
    p.receiver.rohcRx.contextValid = true ∧
      AgreesIpv4 p.receiver.rohcRx (ipv4Flags p.sender.rohcTx packet) packet := by
  have hversion : version (p.sender.rohcTx.ctx 0) = 0x40 := by
    rw [htx.first hw]
    decide
  obtain ⟨hvalid, hagree⟩ := h.agree hversion
  refine ⟨hvalid, fun i hi hcarried hplace => ?_⟩
  have hmem : ∀ j ∈ [4, 5], j ∈ carriedIpv4 (ipv4Flags p.sender.rohcTx packet) := fun j hj =>
    List.mem_append_left _ (List.mem_append_left _ (List.mem_append_left _ hj))
  have h4 : i ≠ 4 := fun heq => hcarried (heq ▸ hmem 4 (by decide))
  have h5 : i ≠ 5 := fun heq => hcarried (heq ▸ hmem 5 (by decide))
  rw [hagree i (mem_compared hi hplace h4 h5)]
  exact htx i hi hcarried hplace

theorem step_ipv4 {lz4 : Lz4} {p : Peers} {t : Transfer} (h : InStep p)
    (hw : WellFormedIpv4 t.packet) (hmax : t.packet.length ≤ 1280) (harrives : t.arrives = true) :
    InStep (transfer lz4 p t) ∧ Exact lz4 p t := by
  have hlen := hw.length
  rcases plainFrame_ipv4 lz4 p.sender hw hmax with hraw | ⟨hcompressed, htx⟩
  · exact resynced lz4 h.ring hw hmax harrives hraw
  · obtain ⟨hvalid, hagree⟩ := h.agrees hw htx
    obtain ⟨hwritten, hafter⟩ :=
      deliver_compressedIpv4 t.memory (e := p.receiver) h.ring hw hmax hcompressed
    have htun := hwritten.mpr ⟨hvalid, hagree⟩
    obtain ⟨hvalid', hmirrors⟩ := hafter hvalid hagree
    rw [← transfer_arrived lz4 p harrives] at htun hvalid' hmirrors
    exact ⟨inStep_of_mirrors (transfer_ring lz4 h.ring (by omega) hmax)
      (sender_mirrors lz4 p hw hmax) hvalid' hmirrors, fun _ _ => htun⟩

theorem transfer_ipv6 (lz4 : Lz4) (p : Peers) {t : Transfer} (hw : Ipv6Packet t.packet)
    (hmax : t.packet.length ≤ 1280) :
    version ((transfer lz4 p t).sender.rohcTx.ctx 0) = 0x60 := by
  have hlen := hw.length
  have hspec := rohcCompress_ipv6 p.sender.rohcTx hw hmax
  rw [transfer_rohcTx lz4 p (by omega)]
  generalize rohcCompress p.sender.rohcTx t.packet ROHC_MAX_COMPRESSED = result at hspec
  cases hspec with
  | raw s' hvalid hversion => exact hversion
  | compressed s' hvalid hversion hnext => exact hversion

theorem transfer_other (lz4 : Lz4) (p : Peers) {t : Transfer} (hw : OtherPacket t.packet)
    (hpos : 1 ≤ t.packet.length) : (transfer lz4 p t).sender.rohcTx = p.sender.rohcTx := by
  obtain ⟨code, hcode⟩ := rohcCompress_other p.sender.rohcTx hw
  rw [transfer_rohcTx lz4 p hpos, hcode]

theorem step_ipv6 {lz4 : Lz4} {p : Peers} {t : Transfer} (h : InStep p)
    (hw : Ipv6Packet t.packet) (hmax : t.packet.length ≤ 1280) : InStep (transfer lz4 p t) := by
  have hlen := hw.length
  refine ⟨transfer_ring lz4 h.ring (by omega) hmax, fun h4 => ?_⟩
  rw [transfer_ipv6 lz4 p hw hmax] at h4
  exact absurd h4 (by decide)

theorem step_other {lz4 : Lz4} {p : Peers} {t : Transfer} (h : InStep p)
    (hw : OtherPacket t.packet) (hpos : 1 ≤ t.packet.length) (hmax : t.packet.length ≤ 1280) :
    InStep (transfer lz4 p t) := by
  have hrx : (transfer lz4 p t).receiver.rohcRx = p.receiver.rohcRx := by
    by_cases harrives : t.arrives = true
    · rw [transfer_arrived lz4 p harrives]
      exact deliver_other h.ring hw hpos hmax
    · rw [transfer_lost lz4 p harrives]
  refine ⟨transfer_ring lz4 h.ring hpos hmax, ?_⟩
  rw [transfer_other lz4 p hw hpos, hrx]
  exact h.agree

theorem inStep_transfer {lz4 : Lz4} {p : Peers} {t : Transfer} (h : InStep p)
    (hw : Admissible t.packet) (hquiet : Quiet lz4 p t) : InStep (transfer lz4 p t) ∧ Exact lz4 p t := by
  rcases hw.kind with h4 | h6 | hother
  · by_cases harrives : t.arrives = true
    · exact step_ipv4 h h4 hw.max harrives
    · exact ⟨h.lost harrives hquiet, fun ha => absurd ha harrives⟩
  · refine ⟨step_ipv6 h h6 hw.max, fun _ h4 => ?_⟩
    have hversion := h4.version
    rw [h6.first] at hversion
    exact absurd hversion (by decide)
  · exact ⟨step_other h hother hw.pos hw.max, fun _ h4 => absurd h4.version hother.notIpv4⟩

theorem run_exact {lz4 : Lz4} {p : Peers} {ts : List Transfer} (h : InStep p)
    (hw : ∀ t ∈ ts, Admissible t.packet) (hquiet : Meets (transfer lz4) (Quiet lz4) p ts) :
    Meets (transfer lz4) (Exact lz4) p ts :=
  meets_of_step (fun _ _ hstep hok => inStep_transfer hstep hok.1 hok.2) h
    (Meets.and (meets_of_forall fun _ => hw) hquiet)

theorem run_ring (lz4 : Lz4) {p : Peers} {ts : List Transfer} (h : Holds p.receiver.rxRb [])
    (hw : ∀ t ∈ ts, Admissible t.packet) : Holds (run (transfer lz4) p ts).receiver.rxRb [] :=
  run_invariant (I := fun p : Peers => Holds p.receiver.rxRb [])
    (fun _ _ hring ht => transfer_ring lz4 hring ht.pos ht.max) h (meets_of_forall fun _ => hw)

/-- From a raw IPv4 frame that arrives on, quiet losses alter no IPv4 packet. -/
theorem resynced_run {lz4 : Lz4} {p : Peers} {t : Transfer} {ts : List Transfer}
    (hring : Holds p.receiver.rxRb []) (hw : ∀ u ∈ t :: ts, Admissible u.packet)
    (h4 : WellFormedIpv4 t.packet) (harrives : t.arrives = true)
    (hraw : (buildFrame lz4 p.sender t.packet).1.rohc = false)
    (hquiet : Meets (transfer lz4) (Quiet lz4) (transfer lz4 p t) ts) :
    Meets (transfer lz4) (Exact lz4) p (t :: ts) := by
  have ht := hw t List.mem_cons_self
  have hplain : plainFrame lz4 p.sender t.packet = rawFrame t.packet := by
    rw [buildFrame_rohc lz4 p.sender ht.pos ht.max] at hraw
    rcases plainFrame_ipv4 lz4 p.sender h4 ht.max with hframe | ⟨hframe, -⟩
    · exact hframe
    · rw [hframe] at hraw
      exact Bool.noConfusion hraw
  obtain ⟨hstep, hexact⟩ := resynced lz4 hring h4 ht.max harrives hplain
  exact ⟨hexact, run_exact hstep (fun u hu => hw u (List.mem_cons_of_mem _ hu)) hquiet⟩

def ipv4Packets (ts : List Transfer) : List (List UInt8) :=
  (ts.map Transfer.packet).filter fun packet => WellFormedIpv4 packet

theorem transfer_appends (lz4 : Lz4) {p : Peers} {t : Transfer} (h : Holds p.receiver.rxRb [])
    (ht : Admissible t.packet) :
    ∃ w, (transfer lz4 p t).receiver.tunOut = p.receiver.tunOut ++ w := by
  by_cases harrives : t.arrives = true
  · obtain ⟨tail, -, htun, -⟩ := deliver_buildFrame lz4 t.memory p.sender h ht.pos
      (ht.max.trans (by decide))
    rw [transfer_arrived lz4 p harrives]
    exact ⟨_, htun⟩
  · rw [transfer_lost lz4 p harrives]
    exact ⟨[], (List.append_nil _).symm⟩

/-- What is written one by one is written in order. -/
theorem written_inOrder {lz4 : Lz4} {p : Peers} {ts : List Transfer}
    (hring : Holds p.receiver.rxRb []) (hw : ∀ t ∈ ts, Admissible t.packet)
    (harrives : ∀ t ∈ ts, t.arrives = true) (h : Meets (transfer lz4) (Exact lz4) p ts) :
    ∃ w, (run (transfer lz4) p ts).receiver.tunOut = p.receiver.tunOut ++ w ∧
      (ipv4Packets ts).Sublist w := by
  induction ts generalizing p with
  | nil => exact ⟨[], (List.append_nil _).symm, List.Sublist.refl _⟩
  | cons t ts ih =>
    have ht := hw t List.mem_cons_self
    obtain ⟨w, hrun, hsub⟩ := ih (transfer_ring lz4 hring ht.pos ht.max)
      (fun u hu => hw u (List.mem_cons_of_mem _ hu))
      (fun u hu => harrives u (List.mem_cons_of_mem _ hu)) h.2
    obtain ⟨v, hv⟩ := transfer_appends lz4 hring ht
    refine ⟨v ++ w, by rw [run_cons, hrun, hv, List.append_assoc], ?_⟩
    unfold ipv4Packets at hsub ⊢
    rw [List.map_cons, List.filter_cons]
    split_ifs with h4
    · have hexact := h.1 (harrives t List.mem_cons_self) (of_decide_eq_true h4)
      rw [hv, List.append_cancel_left_eq] at hexact
      rw [hexact, List.singleton_append]
      exact hsub.cons_cons _
    · exact hsub.trans (List.sublist_append_right v w)

/-- On a link without loss every IPv4 packet from the first raw IPv4 frame on is written as it
was sent, and they are written in order, whatever the contexts were before. -/
theorem lossless_transparent {lz4 : Lz4} {start : Peers} {before after : List Transfer}
    {t : Transfer} (hring : Holds start.receiver.rxRb [])
    (hw : ∀ u ∈ before ++ t :: after, Admissible u.packet)
    (harrives : ∀ u ∈ before ++ t :: after, u.arrives = true) (h4 : WellFormedIpv4 t.packet)
    (hraw : (buildFrame lz4 (run (transfer lz4) start before).sender t.packet).1.rohc = false) :
    Meets (transfer lz4) (Exact lz4) (run (transfer lz4) start before) (t :: after) ∧
      ∃ w, (run (transfer lz4) start (before ++ t :: after)).receiver.tunOut =
          (run (transfer lz4) start before).receiver.tunOut ++ w ∧
        (ipv4Packets (t :: after)).Sublist w := by
  have hbefore : ∀ u ∈ before, Admissible u.packet := fun u hu => hw u (List.mem_append_left _ hu)
  have hafter : ∀ u ∈ t :: after, Admissible u.packet := fun u hu => hw u (List.mem_append_right _ hu)
  have hall : ∀ u ∈ t :: after, u.arrives = true := fun u hu =>
    harrives u (List.mem_append_right _ hu)
  have hquiet : Meets (transfer lz4) (Quiet lz4)
      (transfer lz4 (run (transfer lz4) start before) t) after :=
    meets_of_forall fun _ u hu => .inl (hall u (List.mem_cons_of_mem _ hu))
  have hring' := run_ring lz4 hring hbefore
  have hexact := resynced_run hring' hafter h4 (hall t List.mem_cons_self) hraw hquiet
  refine ⟨hexact, ?_⟩
  rw [run_append]
  exact written_inOrder hring' hafter hall hexact

/-- An IPv4 header without payload. -/
def smallPacket : List UInt8 :=
  [0x45, 0x00, 0x00, 0x14, 0x00, 0x01, 0x40, 0x00, 0x40, 0x11, 0x26, 0xD6, 0x0A, 0x00, 0x00, 0x01,
    0x0A, 0x00, 0x00, 0x02]

def smallTransfer : Transfer := ⟨smallPacket, true, zeroMemory⟩

theorem smallPacket_admissible : Admissible smallPacket :=
  ⟨by decide, by decide, .inl (by decide +kernel)⟩

theorem lossless_transparent_repeated :
    Meets (transfer noLz4) (Exact noLz4) freshPeers [smallTransfer, smallTransfer] ∧
      ∃ w, (run (transfer noLz4) freshPeers [smallTransfer, smallTransfer]).receiver.tunOut =
          freshPeers.receiver.tunOut ++ w ∧ (ipv4Packets [smallTransfer, smallTransfer]).Sublist w := by
  have hw : ∀ u ∈ [] ++ smallTransfer :: [smallTransfer], Admissible u.packet := by
    simp [smallTransfer, smallPacket_admissible]
  have harrives : ∀ u ∈ [] ++ smallTransfer :: [smallTransfer], u.arrives = true := by
    simp [smallTransfer]
  have hring : Holds freshPeers.receiver.rxRb [] := rbInit_holds fun _ => 0
  have hraw : (buildFrame noLz4 (run (transfer noLz4) freshPeers []).sender
      smallTransfer.packet).1.rohc = false := by
    have ht := hw smallTransfer List.mem_cons_self
    rw [run_nil, buildFrame_rohc noLz4 _ ht.pos ht.max]
    decide +kernel
  have h4 : WellFormedIpv4 smallTransfer.packet := by decide +kernel
  have hall := lossless_transparent hring hw harrives h4 hraw
  simpa only [run_nil, List.nil_append] using hall

end EchoProtocol.Lockstep
