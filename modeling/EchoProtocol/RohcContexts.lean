import EchoProtocol.Runs
import EchoProtocol.RohcRoundTrip

/-!
# The contexts of the two sides

Each packet that the sender accepts reaches the receiver, who updates its context by code of its
own. Both write the same bytes, with one exception: for a compressed IPv6 packet the sender sets
the high half of byte 1 from byte 0, and the receiver does so only with a traffic class field.
-/
namespace EchoProtocol.RohcContexts
open Bytes IpChecksum Rohc Runs

structure Contexts where
  tx : ROHCState
  rx : ROHCState

/-- A packet with the buffers it goes through; `past` is the memory behind the receiver's context. -/
structure Exchange where
  packet : List UInt8
  outLen : ℕ
  rebuiltLen : ℕ
  past : ℕ → UInt8
  fits : packet.length ≤ rebuiltLen

/-- The context of the receiver after it was given the result of `rohcCompress`. -/
def receive (rx : ROHCState) (x : Exchange) : Except ℤ (List UInt8) → ROHCState
  | .error _ => rx
  | .ok [] => rohcSyncContext rx x.packet x.packet.length
  | .ok (b :: compressed) =>
      match rohcDecompress x.past rx (b :: compressed) (b :: compressed).length x.rebuiltLen with
      | some (_, rx') => rx'
      | none => rx

def exchange (p : Contexts) (x : Exchange) : Contexts :=
  let out := rohcCompress p.tx x.packet x.outLen
  ⟨out.2, receive p.rx x out.1⟩

def comparedIpv4 : List ℕ := [1, 4, 5, 6, 7, 8, 9] ++ List.range' 12 8

def comparedIpv6 : List ℕ := [6, 7] ++ List.range' 8 32

/-- The contexts agree on what `rohcCompress` compares for a packet of their family. -/
structure Agree (p : Contexts) : Prop where
  version : version (p.tx.ctx 0) = version (p.rx.ctx 0)
  ipv4 : Rohc.version (p.tx.ctx 0) = 0x40 → p.tx.ctx 0 &&& 0x0F = p.rx.ctx 0 &&& 0x0F ∧
    ∀ i ∈ comparedIpv4, p.tx.ctx i = p.rx.ctx i
  ipv6 : Rohc.version (p.tx.ctx 0) = 0x60 → p.tx.ctx 0 &&& 0x0F = p.rx.ctx 0 &&& 0x0F ∧
    p.tx.ctx 1 >>> 4 = p.rx.ctx 1 >>> 4 ∧ ∀ i ∈ comparedIpv6, p.tx.ctx i = p.rx.ctx i

theorem Agree.of_eq {p : Contexts} (h : p.tx = p.rx) : Agree p :=
  ⟨by rw [h], fun _ => ⟨by rw [h], fun _ _ => by rw [h]⟩,
    fun _ => ⟨by rw [h], by rw [h], fun _ _ => by rw [h]⟩⟩

/-- An IPv6 packet that is compressed without its traffic class, which is that of the context and
has two different halves. -/
structure Drifts (tx : ROHCState) (x : Exchange) : Prop where
  matches6 : MatchesIpv6 tx x.packet
  room : 5 + (if byteAt x.packet 7 ≠ tx.ctx 7 then 1 else 0) + (x.packet.length - 40) ≤ x.outLen
  low : byteAt x.packet 0 &&& 0x0F = tx.ctx 0 &&& 0x0F
  high : byteAt x.packet 1 >>> 4 = tx.ctx 1 >>> 4
  split : byteAt x.packet 0 &&& (0x0F : UInt8) ≠ byteAt x.packet 1 >>> 4

theorem receivedIpv4_eq (past : ℕ → UInt8) {s : ROHCState} {packet : List UInt8}
    (h : MatchesIpv4 s packet) {i : ℕ} (hi : i ∈ [1, 4, 5, 6, 7, 8]) :
    receivedIpv4 past s s packet i = byteAt packet i := by
  have hagree : AgreesIpv4 s (ipv4Flags s packet) packet :=
    ipv4Flags_agrees h
  have hplace : i < 20 ∧ i ∉ [2, 3, 10, 11] := by
    revert i
    decide
  rw [receivedIpv4, finishIpv4_of_ne _ _ _ hplace.2, mergedIpv4_of_agrees hagree hplace.1 hplace.2]

theorem ipv6Refresh_eq {s : ROHCState} {packet : List UInt8} (h : MatchesIpv6 s packet)
    (hkeep : byteAt packet 0 &&& 0x0F = s.ctx 0 &&& 0x0F → byteAt packet 1 >>> 4 = s.ctx 1 >>> 4 →
      byteAt packet 0 &&& (0x0F : UInt8) = byteAt packet 1 >>> 4) {i : ℕ}
    (hi : i ∈ [0, 1, 4, 5, 6, 7]) :
    ipv6Refresh s packet i = restoredIpv6 s (ipv6Flags s packet) packet i := by
  obtain ⟨-, htc⟩ := ipv6Flags_spec s packet
  have hcontext : s.ctx 0 &&& 0xF0 = 0x60 := h.context
  by_cases hi2 : 2 ≤ i
  · have hplace : i ∈ [4, 5, 6, 7] := by
      simp only [List.mem_cons, List.not_mem_nil, or_false] at hi ⊢
      omega
    rw [restoredIpv6_of_le hi2, mergedIpv6_eq h hplace, ipv6Refresh, if_neg (by omega),
      if_neg (by omega)]
  have hcases : i = 0 ∨ i = 1 := by omega
  by_cases hflag : ipv6Flags s packet &&& ROHC_V6_FLAG_TC ≠ 0
  · obtain ⟨hzero, hone⟩ := restoredIpv6_of_tc s packet hflag
    rcases hcases with rfl | rfl
    · rw [hzero, ← hcontext]
      rfl
    · rw [hone]
      rfl
  · have hsame := mt htc.mpr hflag
    rw [not_or, not_not, not_not] at hsame
    rw [restoredIpv6_of_not_tc hflag (by omega)]
    rcases hcases with rfl | rfl
    · change (s.ctx 0 &&& 0xF0) ||| (byteAt packet 0 &&& 0x0F) = s.ctx 0
      rw [hsame.1, nibbles]
    · exact merge_halves ((hkeep hsame.1 hsame.2).trans hsame.2)

theorem receive_compressed {rx rx' : ROHCState} {x : Exchange} {compressed out : List UInt8}
    (hne : compressed ≠ [])
    (hdec : rohcDecompress x.past rx compressed compressed.length x.rebuiltLen = some (out, rx')) :
    receive rx x (.ok compressed) = rx' := by
  cases compressed with
  | nil => exact absurd rfl hne
  | cons b compressed => simp only [receive, hdec]

theorem receive_ipv6 {s : ROHCState} {x : Exchange} (h : MatchesIpv6 s x.packet) :
    receive s x (.ok (packedIpv6 s x.packet)) =
      s.store (restoredIpv6 s (ipv6Flags s x.packet) x.packet) [0, 1, 4, 5, 6, 7] :=
  receive_compressed (packedIpv6_ne_nil _ _)
    (rohcDecompress_packedIpv6 x.past h h.valid x.fits)

theorem packedIpv6_length_of_same {s : ROHCState} {packet : List UInt8}
    (hnext : byteAt packet 6 = s.ctx 6) (hlow : byteAt packet 0 &&& 0x0F = s.ctx 0 &&& 0x0F)
    (hhigh : byteAt packet 1 >>> 4 = s.ctx 1 >>> 4) :
    (packedIpv6 s packet).length =
      5 + (if byteAt packet 7 ≠ s.ctx 7 then 1 else 0) + (packet.length - 40) := by
  obtain ⟨hhop, htc⟩ := ipv6Flags_spec s packet
  have h1 : flagBytes (ipv6Flags s packet) ROHC_V6_FLAG_NEXT_HDR 1 = 0 :=
    if_neg (not_not.mpr (ipv6Flags_sent hnext).1)
  have h2 : flagBytes (ipv6Flags s packet) ROHC_V6_FLAG_HOP_LIMIT 1 =
      if byteAt packet 7 ≠ s.ctx 7 then 1 else 0 := if_congr hhop rfl rfl
  have h3 : flagBytes (ipv6Flags s packet) ROHC_V6_FLAG_TC 1 = 0 :=
    if_neg fun h => (htc.mp h).elim (absurd hlow) (absurd hhigh)
  rw [packedIpv6_length, ipv6PayloadStart, h1, h2, h3]
  rfl

theorem exchange_eq {p : Contexts} {x : Exchange} (heq : p.tx = p.rx) (h : ¬ Drifts p.tx x) :
    (exchange p x).tx = (exchange p x).rx := by
  have hcomp := rohcCompress_compression p.tx x.packet x.outLen
  unfold exchange
  generalize rohcCompress p.tx x.packet x.outLen = out at hcomp ⊢
  rw [← heq]
  cases hcomp with
  | refused _ _ => rfl
  | raw _ _ _ => rfl
  | fullIpv4 _ _ => rfl
  | fullIpv6 _ _ => rfl
  | ipv4 hmatch _ =>
    have hdec := rohcDecompress_packedIpv4 x.past hmatch hmatch.valid hmatch.first.symm x.fits
    refine Eq.trans ?_ (receive_compressed (packedIpv4_ne_nil _ _) hdec).symm
    exact ROHCState.store_congr fun i hi => (receivedIpv4_eq x.past hmatch hi).symm
  | ipv6 hmatch hroom =>
    refine Eq.trans ?_ (receive_ipv6 hmatch).symm
    refine ROHCState.store_congr fun i hi => ipv6Refresh_eq hmatch (fun hlow hhigh => ?_) hi
    by_contra hsplit
    rw [packedIpv6_length_of_same hmatch.next hlow hhigh] at hroom
    exact h ⟨hmatch, hroom, hlow, hhigh, hsplit⟩

theorem not_agree_of_drifts {p : Contexts} {x : Exchange} (heq : p.tx = p.rx)
    (h : Drifts p.tx x) : ¬ Agree (exchange p x) := by
  have hmatch := h.matches6
  have hroom : (packedIpv6 p.tx x.packet).length ≤ x.outLen := by
    rw [packedIpv6_length_of_same hmatch.next h.low h.high]
    exact h.room
  obtain ⟨-, htc⟩ := ipv6Flags_spec p.tx x.packet
  have hflag : ¬ ipv6Flags p.tx x.packet &&& ROHC_V6_FLAG_TC ≠ 0 :=
    fun h' => (htc.mp h').elim (absurd h.low) (absurd h.high)
  have hnext : exchange p x = ⟨p.tx.store (ipv6Refresh p.tx x.packet) [0, 1, 4, 5, 6, 7],
      p.tx.store (restoredIpv6 p.tx (ipv6Flags p.tx x.packet) x.packet) [0, 1, 4, 5, 6, 7]⟩ := by
    rw [exchange, (Compression.ipv6 hmatch hroom).eq, ← heq, receive_ipv6 hmatch]
  rw [hnext]
  intro hagree
  have hversion : version ((p.tx.store (ipv6Refresh p.tx x.packet) [0, 1, 4, 5, 6, 7]).ctx 0) =
      0x60 := by
    rw [ROHCState.ctx_store, if_pos (by decide)]
    exact (version_merge _ _).trans hmatch.context
  have hhalf := (hagree.ipv6 hversion).2.1
  simp only [ROHCState.ctx_store] at hhalf
  rw [if_pos (by decide), if_pos (by decide), restoredIpv6_of_not_tc hflag (by omega)] at hhalf
  exact h.split ((high_of_low _ _).symm.trans (hhalf.trans h.high.symm))

/-- The contexts agree in every state of a run exactly if no packet of the run drifts. -/
theorem agree_iff_no_drift (xs : List Exchange) :
    Always exchange Agree ⟨rohcInit, rohcInit⟩ xs ↔
      Meets exchange (fun p x => ¬ Drifts p.tx x) ⟨rohcInit, rohcInit⟩ xs :=
  always_iff_meets (I := fun p => p.tx = p.rx) (fun _ _ heq hok => exchange_eq heq hok)
    (fun _ _ heq hbad => not_agree_of_drifts heq (not_not.mp hbad)) (fun _ => Agree.of_eq) rfl

/-- An IPv6 packet with traffic class 5. -/
def lowTrafficClass : Exchange where
  packet := [0x60, 0x50] ++ List.replicate 38 0
  outLen := ROHC_MAX_COMPRESSED
  rebuiltLen := 2560
  past := fun _ => 0
  fits := by decide

/-- Sent twice, it leaves two different contexts. -/
theorem traffic_class_drifts :
    ¬ Always exchange Agree ⟨rohcInit, rohcInit⟩ [lowTrafficClass, lowTrafficClass] := by
  intro h
  have hhalf := (h.last.ipv6 (by decide +kernel)).2.1
  revert hhalf
  decide +kernel

end EchoProtocol.RohcContexts
