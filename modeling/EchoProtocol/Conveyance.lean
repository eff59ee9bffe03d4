import EchoProtocol.Noise

/-!
# From main program to main program

One station sends what its main program reads from the TUN; another one hears the bits of its
stream, while its main program takes the frames. Both sides run in any interleaving, and the packets
arrive as they were sent, even with a burst of noise in each of the frames with error correction.
-/
namespace EchoProtocol.Conveyance
open Bytes RingBits IpChecksum Rohc Frames Endpoint Transmit Receive Delivery Link Lockstep WarmUp
  Modem Callback Playback GappedStream Reception Noise Runs

variable {F D : Type}

/-- The packet of the frame that an event adds to the stream. -/
def sentPacket (h : Station F × Event F) : Option (List UInt8) :=
  match h.2 with
  | .warmUp => some dummyIp
  | .send raw => if freeSpace h.1.echo.txRb < MAX_TX_FRAME_BYTES then none else some raw
  | _ => none

def sent (hist : List (Station F × Event F)) : List (List UInt8) := hist.filterMap sentPacket

/-- The warm-up comes before anything has been compressed, and the packets from the TUN are IP
packets within its MTU, or no IP packets. -/
def WarmUpFirst (st : Station F) : Event F → Prop
  | .warmUp => st.echo.rohcTx = rohcInit
  | .send raw => Admissible raw
  | _ => True

/-- An IPv4 packet is written byte for byte, and nothing else. -/
def Faithful (packet : List UInt8) (out : List (List UInt8)) : Prop :=
  WellFormedIpv4 packet → out = [packet]

theorem sendPacket_rohcTx (lz4 : Lz4) {e : Echo} {raw : List UInt8}
    (htest : ¬ freeSpace e.txRb < MAX_TX_FRAME_BYTES) (hpos : 1 ≤ raw.length) :
    (sendPacket lz4 e raw).rohcTx = (rohcCompress e.rohcTx raw ROHC_MAX_COMPRESSED).2 := by
  rw [sendPacket, if_neg htest, tunToRb_rohcTx lz4 _ (by omega)]

theorem inStep_congr {e e' r : Echo} (h : InStep ⟨e, r⟩) (hsame : e'.rohcTx = e.rohcTx) :
    InStep ⟨e', r⟩ := by
  refine ⟨h.ring, fun hversion => ?_⟩
  rw [hsame] at hversion ⊢
  exact h.agree hversion

/-- A frame adds something to the TUN and leaves the receiver in step with the sender. -/
def Lands (lz4 : Lz4) (e e' : Echo) (f : Frame) (packet : List UInt8) : Prop :=
  ∀ r memory, InStep ⟨e, r⟩ → InStep ⟨e', deliver lz4 memory r f⟩ ∧
    ∃ out, (deliver lz4 memory r f).tunOut = r.tunOut ++ out ∧ Faithful packet out

theorem lands_send (lz4 : Lz4) {e : Echo} {raw : List UInt8} (h : Admissible raw)
    (htest : ¬ freeSpace e.txRb < MAX_TX_FRAME_BYTES) :
    Lands lz4 e (sendPacket lz4 e raw) (buildFrame lz4 e raw).1 raw := by
  intro r memory hstep
  obtain ⟨hnext, hexact⟩ : InStep (transfer lz4 ⟨e, r⟩ ⟨raw, true, memory⟩) ∧
    Exact lz4 ⟨e, r⟩ ⟨raw, true, memory⟩ := inStep_transfer hstep h (.inl rfl)
  obtain ⟨out, hout⟩ := transfer_appends lz4 (t := ⟨raw, true, memory⟩) hstep.ring h
  have hsame : (sendPacket lz4 e raw).rohcTx =
      (transfer lz4 ⟨e, r⟩ ⟨raw, true, memory⟩).sender.rohcTx := by
    rw [sendPacket_rohcTx lz4 htest h.pos]
    exact (transfer_rohcTx lz4 ⟨e, r⟩ (t := ⟨raw, true, memory⟩) h.pos).symm
  refine ⟨inStep_congr hnext hsame, out, hout, fun h4 => ?_⟩
  have hwritten := hexact rfl h4
  rw [hout, List.append_cancel_left_eq] at hwritten
  exact hwritten

theorem lands_warmUp (lz4 : Lz4) {e : Echo} (h : e.rohcTx = rohcInit) :
    Lands lz4 e (warmUpPacket e) (rawFrame dummyIp) dummyIp := by
  intro r memory hstep
  obtain ⟨-, htun, hring⟩ := deliver_rawFrame lz4 memory hstep.ring dummyIp_wellFormed (by decide)
  exact ⟨inStep_of_rohcInit hring h, [dummyIp], htun, fun _ => rfl⟩

/-- Of the frames that have been handed over everything has been written. -/
structure Written (lz4 : Lz4) (r : Echo) (packets : List (List UInt8))
    (arrivals : List (Frame × Memory)) : Prop where
  enough : arrivals.length ≤ packets.length
  outs : ∃ outs, (received lz4 r arrivals).tunOut = r.tunOut ++ outs.flatten ∧
    List.Forall₂ Faithful (packets.take arrivals.length) outs

/-- What holds for an endpoint that is handed any number of the frames of a station. -/
structure Conveyed (lz4 : Lz4) (r : Echo) (st : Station F) (hist : List (Station F × Event F)) :
    Prop where
  count : (sent hist).length = (frames (items lz4 hist)).length
  built : ∀ f ∈ frames (items lz4 hist), Built lz4 f
  written : ∀ arrivals, arrivals.map Prod.fst <+: frames (items lz4 hist) →
    Written lz4 r (sent hist) arrivals
  inStep : ∀ arrivals, arrivals.map Prod.fst = frames (items lz4 hist) →
    InStep ⟨st.echo, received lz4 r arrivals⟩

section Step
variable {lz4 : Lz4} {r : Echo} {st st' : Station F} {hist : List (Station F × Event F)}
  {event : Event F}

theorem Conveyed.quiet (h : Conveyed lz4 r st hist) (hpacket : sentPacket (st, event) = none)
    (hframes : frames (added lz4 (st, event)) = []) (hsame : st'.echo.rohcTx = st.echo.rohcTx) :
    Conveyed lz4 r st' (hist ++ [(st, event)]) := by
  have hsent : sent (hist ++ [(st, event)]) = sent hist := by
    rw [sent, filterMap_concat, hpacket, Option.toList_none, List.append_nil, sent]
  have hitems : frames (items lz4 (hist ++ [(st, event)])) = frames (items lz4 hist) := by
    rw [items_concat, frames_append, hframes, List.append_nil]
  refine ⟨?_, ?_, ?_, ?_⟩
  · rw [hsent, hitems]
    exact h.count
  · rw [hitems]
    exact h.built
  · rw [hsent, hitems]
    exact h.written
  · rw [hitems]
    exact fun arrivals heq => inStep_congr (h.inStep arrivals heq) hsame

theorem Conveyed.frame {f : Frame} {packet : List UInt8} (h : Conveyed lz4 r st hist)
    (hpacket : sentPacket (st, event) = some packet) (hadded : added lz4 (st, event) = [.frame f])
    (hbuilt : Built lz4 f) (hlands : Lands lz4 st.echo st'.echo f packet) :
    Conveyed lz4 r st' (hist ++ [(st, event)]) := by
  have hsent : sent (hist ++ [(st, event)]) = sent hist ++ [packet] := by
    rw [sent, filterMap_concat, hpacket, Option.toList_some, sent]
  have hitems : frames (items lz4 (hist ++ [(st, event)])) = frames (items lz4 hist) ++ [f] := by
    rw [items_concat, frames_append, hadded]
    rfl
  have hcount := h.count
  -- the arrivals that end with the new frame
  have hlast : ∀ arrivals : List (Frame × Memory),
      arrivals.map Prod.fst = frames (items lz4 hist) ++ [f] → ∃ before memory,
        arrivals = before ++ [(f, memory)] ∧ before.map Prod.fst = frames (items lz4 hist) := by
    intro arrivals heq
    rcases List.eq_nil_or_concat' arrivals with rfl | ⟨before, ⟨f', memory⟩, rfl⟩
    · exact absurd heq (by simp)
    · rw [List.map_append, List.map_singleton, List.append_singleton_inj] at heq
      exact ⟨before, memory, by rw [← heq.2], heq.1⟩
  refine ⟨?_, ?_, ?_, ?_⟩
  · rw [hsent, hitems, List.length_append, List.length_append, hcount]
    rfl
  · rw [hitems]
    intro g hg
    rcases List.mem_append.mp hg with hold | hnew
    · exact h.built g hold
    · rw [List.mem_singleton.mp hnew]
      exact hbuilt
  · rw [hsent, hitems]
    intro arrivals hbegins
    rcases List.prefix_concat_iff.mp hbegins with heq | hshort
    · obtain ⟨before, memory, rfl, hbefore⟩ := hlast arrivals heq
      obtain ⟨-, out, hout, hfaithful⟩ := hlands _ memory (h.inStep before hbefore)
      obtain ⟨-, outs, houts, hall⟩ := h.written before (by rw [hbefore])
      have hlen : before.length = (sent hist).length := by
        rw [hcount, ← hbefore, List.length_map]
      refine ⟨by simp [hlen], outs ++ [out], ?_, ?_⟩
      · rw [received_concat, hout, houts, List.flatten_append, List.append_assoc,
          List.flatten_singleton]
      · rw [hlen, List.take_length] at hall
        rw [List.take_of_length_le (by simp [hlen])]
        exact List.rel_append hall (.cons hfaithful .nil)
    · obtain ⟨henough, outs, houts, hall⟩ := h.written arrivals hshort
      refine ⟨?_, outs, houts, ?_⟩
      · rw [List.length_append]
        omega
      · rwa [List.take_append_of_le_length henough]
  · rw [hitems]
    intro arrivals heq
    obtain ⟨before, memory, rfl, hbefore⟩ := hlast arrivals heq
    rw [received_concat]
    exact (hlands _ memory (h.inStep before hbefore)).1

theorem Conveyed.step (ar : Arithmetic F D) (h : Conveyed lz4 r st hist)
    (hok : WarmUpFirst st event) : Conveyed lz4 r (step ar lz4 st event) (hist ++ [(st, event)]) := by
  cases event with
  | enter => exact h.quiet rfl rfl rfl
  | sample tick =>
    refine h.quiet rfl ?_ (iteration_sender ar st tick).1
    simp only [added]
    split_ifs <;> rfl
  | warmUp => exact h.frame rfl rfl .warmUp (lands_warmUp lz4 hok)
  | send raw =>
    by_cases htest : freeSpace st.echo.txRb < MAX_TX_FRAME_BYTES
    · have hnone : added lz4 (st, .send raw) = [] := if_pos htest
      have hsame : sendPacket lz4 st.echo raw = st.echo := if_pos htest
      refine h.quiet (if_pos htest) ?_ ?_
      · rw [hnone]
        rfl
      · rw [Callback.step, hsame]
    · exact h.frame (if_neg htest) (if_neg htest) (.packet st.echo hok) (lands_send lz4 hok htest)
  | handle memory => exact h.quiet rfl rfl (mainBlock_sender lz4 memory st.echo).rohcTx

end Step

end EchoProtocol.Conveyance
