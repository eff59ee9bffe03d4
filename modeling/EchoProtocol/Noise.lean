import EchoProtocol.Bursts
import EchoProtocol.DamagedFrames
import EchoProtocol.Reception

/-!
# Frames with a burst

A frame with error correction that arrives with a burst in its payload is judged as the frame that
was sent. A stream may be struck by one burst in each of these frames.
-/
namespace EchoProtocol.Noise
open Bytes Fec RingBits Rohc Frames Endpoint Transmit Receive FrameHeader FrameStream Delivery Link
  Lockstep FrameLoss DamagedFrames WarmUp Playback GappedStream Reception Bursts

/-- What a channel makes of a frame: nothing, or a burst behind the length prefix of a payload with
error correction. -/
inductive Struck : Frame → Frame → Prop
  | intact (f : Frame) : Struck f f
  | burst {f : Frame} {start : ℕ} {payload : List UInt8} (coded : f.fec = true) (behind : 2 ≤ start)
      (h : Burst start (burstLimit (statedLen f.payload)) f.payload payload) :
      Struck f { f with payload := payload }

/-- The frames of a station: those of the warm-up, and those of the packets from the TUN. -/
inductive Built (lz4 : Lz4) : Frame → Prop
  | warmUp : Built lz4 (rawFrame dummyIp)
  | packet (e : Echo) {raw : List UInt8} (h : Admissible raw) : Built lz4 (buildFrame lz4 e raw).1

section Frames
variable {f f' : Frame}

theorem Struck.length (h : Struck f f') : f'.payload.length = f.payload.length := by
  cases h with
  | intact => rfl
  | burst coded behind h => exact h.length

theorem Struck.header (h : Struck f f') : header f' = header f := by
  have hlen := h.length
  cases h with
  | intact => rfl
  | burst coded behind h => rw [Frames.header, Frames.header, hlen]

theorem Struck.validFrame (h : Struck f f') (hvalid : ValidFrame f) : ValidFrame f' := by
  rw [ValidFrame, h.length, h.header]
  exact hvalid

end Frames

theorem Built.validFrame {lz4 : Lz4} {f : Frame} (h : Built lz4 f) : ValidFrame f := by
  cases h with
  | warmUp =>
    have hlt : (rawFrame dummyIp).payload.length < 8192 := by decide
    exact ⟨hlt, (isValidHeader_iff hlt).mpr ⟨by decide, by decide, by decide, by decide⟩⟩
  | @packet e raw h =>
    have hpos := h.pos
    have hmax := h.max
    have hsize : raw.length ≤ SIZE_BUF := hmax.trans (by decide)
    obtain ⟨-, -, -, hlen, -⟩ := buildFrame_plain lz4 e hpos hsize
    have hlt : (buildFrame lz4 e raw).1.payload.length < 8192 := hlen.trans_lt (by decide)
    refine ⟨hlt, ?_⟩
    by_cases hforced : e.txRawCounter + 1 ≥ 100
    · rw [buildFrame_forced hforced] at hlt ⊢
      exact (isValidHeader_iff hlt).mpr ⟨by simp, hpos, hsize, by simp⟩
    · obtain ⟨hchosen, hle, hflags⟩ := choosePayload_spec lz4 hpos
        (rohcCompress e.rohcTx raw ROHC_MAX_COMPRESSED).1
      rw [buildFrame_chosen hforced]
      exact ((accepted_addFec hchosen (hle.trans hsize) hflags).mpr (by omega)).1

theorem decodeFec_struck {f : Frame} (hpos : 0 < f.payload.length) (hlen : f.payload.length ≤ SIZE_BUF)
    {start : ℕ} {payload : List UInt8} (hstart : 2 ≤ start)
    (h : Burst start (burstLimit (statedLen (addFec f).payload)) (addFec f).payload payload) :
    ∃ tail, decodeFec true (payloadArray payload) payload.length =
      some (f.payload ++ tail, f.payload.length) := by
  obtain ⟨out, hout, hadd, -, -⟩ := addFec_spec hpos hlen
  have hmax : f.payload.length ≤ 65535 := hlen.trans (by decide)
  have hlead : out.take 2 = lengthPrefix f.payload.length := by
    rcases fecEncode_cases hout with ⟨-, rfl⟩ | ⟨-, rfl⟩
    · exact List.take_left' (lengthPrefix_length _)
    · exact List.take_left' (lengthPrefix_length _)
  rw [hadd] at h
  change Burst start (burstLimit (statedLen out)) out payload at h
  rw [statedLen_of_take hmax hlead] at h
  have hback : fecDecode payload (SIZE_BUF * 2) = some f.payload :=
    fecDecode_struck hpos hmax hout h hstart (hlen.trans (by decide))
  refine ⟨(payloadArray payload).drop f.payload.length, ?_⟩
  simp only [decodeFec, if_true, payloadArray, List.take_left, hback]
  rw [if_neg hpos.ne']

theorem buildFrame_struck (lz4 : Lz4) (e : Echo) {raw : List UInt8} (h : Admissible raw) {f : Frame}
    (hstruck : Struck (buildFrame lz4 e raw).1 f) :
    f.comp = (plainFrame lz4 e raw).comp ∧ f.rohc = (plainFrame lz4 e raw).rohc ∧
      0 < f.payload.length ∧ f.payload.length ≤ SIZE_BUF * 2 ∧
      ∃ tail, decodeFec f.fec (payloadArray f.payload) f.payload.length =
        some ((plainFrame lz4 e raw).payload ++ tail, (plainFrame lz4 e raw).payload.length) := by
  have hsize : raw.length ≤ SIZE_BUF := h.max.trans (by decide)
  obtain ⟨hcomp, hrohc, hpos, hmax, hdecode⟩ := buildFrame_plain lz4 e h.pos hsize
  have hlen := hstruck.length
  cases hstruck with
  | intact => exact ⟨hcomp, hrohc, hpos, hmax, hdecode⟩
  | @burst start payload coded behind hburst =>
    refine ⟨hcomp, hrohc, hpos.trans_eq hlen.symm, hlen.trans_le hmax, ?_⟩
    have hchosen : ¬ e.txRawCounter + 1 ≥ 100 := by
      intro hforced
      rw [buildFrame_forced hforced] at coded
      cases coded
    have hplain : plainFrame lz4 e raw =
        choosePayload lz4 raw (rohcCompress e.rohcTx raw ROHC_MAX_COMPRESSED).1 := if_neg hchosen
    rw [buildFrame_chosen hchosen, ← hplain] at hburst
    obtain ⟨hfirst, hle, -⟩ := choosePayload_spec lz4 h.pos
      (rohcCompress e.rohcTx raw ROHC_MAX_COMPRESSED).1
    rw [← hplain] at hfirst hle
    rw [coded]
    exact decodeFec_struck hfirst (hle.trans hsize) behind hburst

/-- Two endpoints that have written the same and stand at the same context. -/
structure Alike (r r' : Echo) : Prop where
  ring : Holds r.rxRb []
  ring' : Holds r'.rxRb []
  rohcRx : r.rohcRx = r'.rohcRx
  tunOut : r.tunOut = r'.tunOut

theorem Alike.refl {r : Echo} (h : Holds r.rxRb []) : Alike r r := ⟨h, h, rfl, rfl⟩

section Deliveries
variable {lz4 : Lz4} {f f' : Frame} {r r' : Echo}

theorem deliver_struck (memory : Memory) {e : Echo} {raw : List UInt8} (h : Admissible raw)
    (hstruck : Struck (buildFrame lz4 e raw).1 f) (hring : Holds r.rxRb []) :
    let plain := plainFrame lz4 e raw
    let judged := finish memory.stack (rebuildPacket lz4 memory.past plain.rohc plain.comp r.rohcRx
      plain.payload plain.payload.length)
    (deliver lz4 memory r f).rohcRx = judged.2 ∧
      (deliver lz4 memory r f).tunOut = r.tunOut ++ packets judged.1 ∧
      Holds (deliver lz4 memory r f).rxRb [] := by
  obtain ⟨hcomp, hrohc, hpos, hmax, tail, hdecode⟩ := buildFrame_struck lz4 e h hstruck
  have hplain : 0 < (plainFrame lz4 e raw).payload.length := by
    by_cases hforced : e.txRawCounter + 1 ≥ 100
    · rw [plainFrame, if_pos hforced]
      exact h.pos
    · rw [plainFrame, if_neg hforced]
      exact (choosePayload_spec lz4 h.pos _).1
  have hspec := deliver_spec lz4 memory hring hpos hmax
  rw [judge_decoded hdecode] at hspec
  simp only [arrive, hcomp, hrohc, rebuildPacket_tail lz4 memory.past e r.rohcRx hplain tail] at hspec
  exact hspec

theorem Alike.deliver (h : Alike r r') (hbuilt : Built lz4 f) (hstruck : Struck f f')
    (memory : Memory) : Alike (deliver lz4 memory r f) (deliver lz4 memory r' f') := by
  cases hbuilt with
  | warmUp =>
    cases hstruck with
    | burst coded behind hburst => cases coded
    | intact =>
      have hmax : dummyIp.length ≤ 1280 := by decide
      obtain ⟨hrx, htun, hring⟩ := deliver_rawFrame lz4 memory h.ring dummyIp_wellFormed hmax
      obtain ⟨hrx', htun', hring'⟩ := deliver_rawFrame lz4 memory h.ring' dummyIp_wellFormed hmax
      refine ⟨hring, hring', ?_, ?_⟩
      · rw [hrx, hrx', h.rohcRx]
      · rw [htun, htun', h.tunOut]
  | packet e hraw =>
    obtain ⟨hrx, htun, hring⟩ := deliver_struck memory hraw (.intact _) h.ring
    obtain ⟨hrx', htun', hring'⟩ := deliver_struck memory hraw hstruck h.ring'
    refine ⟨hring, hring', ?_, ?_⟩
    · rw [hrx, hrx', h.rohcRx]
    · rw [htun, htun', h.rohcRx, h.tunOut]

/-- An endpoint that is handed the frames as they arrive writes what one writes that is handed them
as they were sent. -/
theorem Alike.received (h : Alike r r') {sent arrived : List (Frame × Memory)}
    (hall : List.Forall₂ (fun a b => Struck a.1 b.1 ∧ a.2 = b.2) sent arrived)
    (hbuilt : ∀ a ∈ sent, Built lz4 a.1) : Alike (received lz4 r sent) (received lz4 r' arrived) := by
  induction hall generalizing r r' with
  | nil => exact h
  | @cons a b sent arrived hfirst hrest ih =>
    have hnext := h.deliver (hbuilt a List.mem_cons_self) hfirst.1 a.2
    rw [hfirst.2] at hnext
    simp only [Reception.received, List.foldl_cons]
    rw [hfirst.2]
    exact ih hnext fun c hc => hbuilt c (List.mem_cons_of_mem _ hc)

end Deliveries

/-- What a channel makes of an item. -/
inductive Passes : Item → Item → Prop
  | idle : Passes .idle .idle
  | frame {f f' : Frame} (h : Struck f f') : Passes (.frame f) (.frame f')

theorem Passes.refl (item : Item) : Passes item item := by
  cases item with
  | idle => exact .idle
  | frame f => exact .frame (.intact f)

theorem Passes.length {item item' : Item} (h : Passes item item') :
    (itemBits item').length = (itemBits item).length := by
  cases h with
  | idle => rfl
  | frame h => rw [itemBits, itemBits, airBits_length, airBits_length, h.length]

section Streams
variable {items items' : List Item} (h : List.Forall₂ Passes items items')
include h

end Streams

/-- What is heard of a stream is right but for the places in `noise`. -/
structure Overhears (noise : Set ℕ) (stream heard : List Bool) : Prop where
  short : heard.length ≤ stream.length
  right : ∀ p < heard.length, p ∉ noise → heard[p]? = stream[p]?

/-- The bits of a stream that may be wrong lie in frames with error correction, behind the length
prefix of the payload, and in each of them within a burst that the code makes up for. -/
def Bearable (items : List Item) (noise : Set ℕ) : Prop :=
  ∀ past item rest, items = past ++ item :: rest →
    (∀ p < (itemBits item).length, (streamBits past).length + p ∉ noise) ∨
    ∃ f start len, item = .frame f ∧ f.fec = true ∧ 80 ≤ start ∧
      len + 7 ≤ 8 * burstLimit (statedLen f.payload) ∧
      ∀ p < (itemBits item).length, (streamBits past).length + p ∈ noise →
        start ≤ p ∧ p < start + len

theorem Bearable.item {items : List Item} {noise : Set ℕ} (h : Bearable items noise)
    {past rest : List Item} {item : Item} (hsplit : items = past ++ item :: rest) {bits : List Bool}
    (hlen : bits.length = (itemBits item).length)
    (hbits : ∀ p, (streamBits past).length + p ∉ noise → bits[p]? = (itemBits item)[p]?) :
    ∃ item', Passes item item' ∧ bits = itemBits item' := by
  rcases h past item rest hsplit with hclean | ⟨f, start, len, rfl, hfec, hstart, hshort, hburst⟩
  · refine ⟨item, .refl item, List.ext_getElem? fun p => ?_⟩
    by_cases hp : p < (itemBits item).length
    · exact hbits p (hclean p hp)
    · rw [List.getElem?_eq_none (by omega), List.getElem?_eq_none (by omega)]
  · have hstruck : Burst start len (airBits f) bits := by
      refine ⟨hlen, fun p hp => ?_⟩
      by_cases hin : p < (itemBits (.frame f)).length
      · refine hbits p fun hnoise => ?_
        have hwithin := hburst p hin hnoise
        omega
      · rw [List.getElem?_eq_none (by omega)]
        exact (List.getElem?_eq_none (not_lt.mp hin)).symm
    obtain ⟨payload, hair, hpayload⟩ := hstruck.air (by omega) hshort
    exact ⟨_, .frame (.burst hfec (by omega) hpayload), hair⟩

/-- What is heard of a stream with bearable noise is a stream of the same frames, some of them
struck. -/
theorem Bearable.stream {items : List Item} {noise : Set ℕ} (h : Bearable items noise)
    {past rest : List Item} (hsplit : items = past ++ rest) {bits : List Bool}
    (hlen : bits.length = (streamBits rest).length)
    (hbits : ∀ p, (streamBits past).length + p ∉ noise → bits[p]? = (streamBits rest)[p]?) :
    ∃ rest', List.Forall₂ Passes rest rest' ∧ bits = streamBits rest' := by
  induction rest generalizing past bits with
  | nil => exact ⟨[], .nil, List.eq_nil_of_length_eq_zero hlen⟩
  | cons item rest ih =>
    rw [streamBits_cons, List.length_append] at hlen
    have hfront : (bits.take (itemBits item).length).length = (itemBits item).length := by
      rw [List.length_take]
      omega
    have hback : (bits.drop (itemBits item).length).length = (streamBits rest).length := by
      rw [List.length_drop]
      omega
    obtain ⟨item', hitem, hfirst⟩ := h.item hsplit hfront fun p hp => by
      rw [List.getElem?_take]
      split_ifs with hin
      · rw [hbits p hp, streamBits_cons, List.getElem?_append_left hin]
      · exact (List.getElem?_eq_none (by omega)).symm
    rw [List.append_cons] at hsplit
    obtain ⟨rest', hrest, hlast⟩ := ih hsplit hback fun p hp => by
      rw [streamBits_snoc, List.length_append, Nat.add_assoc] at hp
      rw [List.getElem?_drop, hbits _ hp, streamBits_cons,
        List.getElem?_append_right (Nat.le_add_right _ _), Nat.add_sub_cancel_left]
    refine ⟨item' :: rest', .cons hitem hrest, ?_⟩
    rw [streamBits_cons, ← hfirst, ← hlast, List.take_append_drop]

theorem Bearable.heard {items : List Item} {noise : Set ℕ} (h : Bearable items noise)
    {bits : List Bool} (hbits : Overhears noise (streamBits items) bits) :
    ∃ items', List.Forall₂ Passes items items' ∧ bits <+: streamBits items' := by
  obtain ⟨hshort, hright⟩ := hbits
  have hnil : (streamBits []).length = 0 := rfl
  have hlen : (bits ++ (streamBits items).drop bits.length).length = (streamBits items).length := by
    rw [List.length_append, List.length_drop]
    omega
  obtain ⟨items', hpasses, hwhole⟩ := h.stream (List.nil_append items).symm hlen fun p hp => by
    rw [hnil, Nat.zero_add] at hp
    by_cases hin : p < bits.length
    · rw [List.getElem?_append_left hin, hright p hin hp]
    · rw [List.getElem?_append_right (by omega), List.getElem?_drop,
        Nat.add_sub_cancel' (not_lt.mp hin)]
  exact ⟨items', hpasses, hwhole ▸ List.prefix_append _ _⟩

end EchoProtocol.Noise
