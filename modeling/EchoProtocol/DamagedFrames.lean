import EchoProtocol.FrameLoss

/-!
# Frames with one damaged byte

A frame with error correction is judged as if it had not been damaged: the code restores the
payload, and nothing behind the restored payload matters. A forced raw frame has no code.
-/
namespace EchoProtocol.DamagedFrames
open Bytes Fec RingBits Rohc Frames Endpoint Transmit Receive FrameHeader Delivery Link Lockstep
  FrameLoss Runs

def damage (f : Frame) (i : ℕ) (b : UInt8) : Frame := { f with payload := f.payload.set i b }

/-- Whatever one byte of the payload behind its first two is changed to, the receiver writes the
same packets and has the same context afterwards. -/
def Tolerates (lz4 : Lz4) (p : Peers) (t : Transfer) : Prop :=
  let f := (buildFrame lz4 p.sender t.packet).1
  ∀ i b, 2 ≤ i → i < f.payload.length →
    (deliver lz4 t.memory p.receiver (damage f i b)).tunOut =
        (deliver lz4 t.memory p.receiver f).tunOut ∧
      (deliver lz4 t.memory p.receiver (damage f i b)).rohcRx =
        (deliver lz4 t.memory p.receiver f).rohcRx

/-- The frame is not the forced raw one, or it has no byte behind the first two. -/
def Coded (p : Peers) (t : Transfer) : Prop :=
  p.sender.txRawCounter + 1 < 100 ∨ t.packet.length ≤ 2

theorem plainFrame_rohc {lz4 : Lz4} {e : Echo} {raw : List UInt8}
    (h : (plainFrame lz4 e raw).rohc = true) :
    plainFrame lz4 e raw = ⟨false, true, false, packedIpv4 e.rohcTx raw⟩ ∨
      (plainFrame lz4 e raw = ⟨false, true, false, packedIpv6 e.rohcTx raw⟩ ∧
        SentIpv6 (ipv6Flags e.rohcTx raw)) := by
  unfold plainFrame at h ⊢
  split_ifs at h ⊢ with hforced
  · have hcomp := rohcCompress_compression e.rohcTx raw ROHC_MAX_COMPRESSED
    generalize rohcCompress e.rohcTx raw ROHC_MAX_COMPRESSED = result at h hcomp ⊢
    cases hcomp with
    | refused _ _ => simp only [choosePayload] at h; split_ifs at h
    | raw _ _ _ => cases h
    | ipv4 _ _ =>
      simp only [choosePayload] at h ⊢
      split_ifs at h ⊢
      exact .inl rfl
    | ipv6 hmatch _ =>
      simp only [choosePayload] at h ⊢
      split_ifs at h ⊢
      exact .inr ⟨rfl, ipv6Flags_sent hmatch.next⟩
    | fullIpv4 _ _ => simp only [choosePayload] at h; split_ifs at h
    | fullIpv6 _ _ => simp only [choosePayload] at h; split_ifs at h

theorem rebuildPacket_tail (lz4 : Lz4) (past : ℕ → UInt8) (sender : Echo) (s : ROHCState)
    {raw : List UInt8} (hpos : 0 < (plainFrame lz4 sender raw).payload.length)
    (tail : List UInt8) :
    rebuildPacket lz4 past (plainFrame lz4 sender raw).rohc (plainFrame lz4 sender raw).comp s
        ((plainFrame lz4 sender raw).payload ++ tail) (plainFrame lz4 sender raw).payload.length =
      rebuildPacket lz4 past (plainFrame lz4 sender raw).rohc (plainFrame lz4 sender raw).comp s
        (plainFrame lz4 sender raw).payload (plainFrame lz4 sender raw).payload.length := by
  by_cases hrohc : (plainFrame lz4 sender raw).rohc = true
  · rcases plainFrame_rohc hrohc with hframe | ⟨hframe, hsent⟩
    · have hbare : ∀ n, ¬ Syncable (packedIpv4 sender.rohcTx raw) n :=
        sealedIpv4_not_syncable _ _ _
      have hsync : ∀ n, ¬ Syncable (packedIpv4 sender.rohcTx raw ++ tail) n := by
        intro n
        rw [packedIpv4, List.append_assoc]
        exact sealedIpv4_not_syncable _ _ _ n
      simp only [hframe, rebuildPacket_rohc lz4 past s (hsync _),
        rebuildPacket_rohc lz4 past s (hbare _), rohcDecompress_packedIpv4_tail]
    · have hbare : ∀ n, ¬ Syncable (packedIpv6 sender.rohcTx raw) n :=
        sealedIpv6_not_syncable _ _ _
      have hsync : ∀ n, ¬ Syncable (packedIpv6 sender.rohcTx raw ++ tail) n := by
        intro n
        rw [packedIpv6, List.append_assoc]
        exact sealedIpv6_not_syncable _ _ _ n
      simp only [hframe, rebuildPacket_rohc lz4 past s (hsync _),
        rebuildPacket_rohc lz4 past s (hbare _), rohcDecompress_packedIpv6_tail past s tail _ hsent]
  · have hfalse := Bool.eq_false_iff.mpr hrohc
    simp only [rebuildPacket, hfalse, Bool.false_eq_true, if_false, List.take_left, List.take_length,
      rohcSyncContext_append s tail hpos]

theorem decodeFec_damaged {f : Frame} (hpos : 0 < f.payload.length)
    (hlen : f.payload.length ≤ SIZE_BUF) {i : ℕ} (hi : 2 ≤ i) (b : UInt8) :
    ∃ tail, decodeFec true (payloadArray (damage (addFec f) i b).payload)
      (damage (addFec f) i b).payload.length = some (f.payload ++ tail, f.payload.length) := by
  obtain ⟨out, hout, hadd, -, -⟩ := addFec_spec hpos hlen
  have hback : fecDecode (out.set i b) (SIZE_BUF * 2) = some f.payload :=
    fecDecode_one_damaged hpos (hlen.trans (by decide)) hout (List.length_set ..)
      (List.take_set_of_le hi) (mismatches_set_le _ _ _) (hlen.trans (by decide))
  refine ⟨(payloadArray (out.set i b)).drop f.payload.length, ?_⟩
  rw [hadd]
  simp only [damage, decodeFec, payloadArray, if_true, List.take_left, hback]
  rw [if_neg hpos.ne']

theorem deliver_damaged (lz4 : Lz4) (memory : Memory) {e : Echo} (sender : Echo) {raw : List UInt8}
    (h : Holds e.rxRb []) (hpos : 0 < raw.length) (hlen : raw.length ≤ SIZE_BUF)
    (hchosen : ¬ sender.txRawCounter + 1 ≥ 100) {i : ℕ} (hi : 2 ≤ i) (b : UInt8) :
    ∃ tail,
      let f := plainFrame lz4 sender raw
      let judged := finish memory.stack (rebuildPacket lz4 memory.past f.rohc f.comp e.rohcRx
        (f.payload ++ tail) f.payload.length)
      let after := deliver lz4 memory e (damage (buildFrame lz4 sender raw).1 i b)
      after.rohcRx = judged.2 ∧ after.tunOut = e.tunOut ++ packets judged.1 := by
  obtain ⟨hcomp, hrohc, hframe, hmax, -⟩ := buildFrame_plain lz4 sender hpos hlen
  have hset : (damage (buildFrame lz4 sender raw).1 i b).payload.length =
      (buildFrame lz4 sender raw).1.payload.length := List.length_set ..
  have hplain : plainFrame lz4 sender raw =
      choosePayload lz4 raw (rohcCompress sender.rohcTx raw ROHC_MAX_COMPRESSED).1 := if_neg hchosen
  have hbuilt : (buildFrame lz4 sender raw).1 = addFec (plainFrame lz4 sender raw) := by
    rw [hplain, buildFrame_chosen hchosen]
  have hsmall : 0 < (plainFrame lz4 sender raw).payload.length ∧
      (plainFrame lz4 sender raw).payload.length ≤ raw.length := by
    obtain ⟨hfirst, hle, -⟩ := choosePayload_spec lz4 hpos
      (rohcCompress sender.rohcTx raw ROHC_MAX_COMPRESSED).1
    rw [hplain]
    exact ⟨hfirst, hle⟩
  obtain ⟨tail, hdecode⟩ := decodeFec_damaged hsmall.1 (hsmall.2.trans hlen) hi b
  have hfec : (damage (buildFrame lz4 sender raw).1 i b).fec = true := by
    obtain ⟨out, -, hadd, -⟩ := addFec_spec hsmall.1 (hsmall.2.trans hlen)
    rw [hbuilt, hadd]
    rfl
  rw [← hbuilt, ← hfec] at hdecode
  have hspec := deliver_spec lz4 memory (f := damage (buildFrame lz4 sender raw).1 i b) h
    (hset ▸ hframe) (hset ▸ hmax)
  rw [judge_decoded hdecode] at hspec
  refine ⟨tail, ?_⟩
  simp only [← hcomp, ← hrohc]
  exact ⟨hspec.1, hspec.2.1⟩

theorem tolerates_of_coded {lz4 : Lz4} {p : Peers} {t : Transfer} (hring : Holds p.receiver.rxRb [])
    (hpos : 1 ≤ t.packet.length) (hmax : t.packet.length ≤ 1280) (hcoded : Coded p t) :
    Tolerates lz4 p t := by
  simp only [Tolerates]
  intro i b hi hlt
  have hlen : t.packet.length ≤ SIZE_BUF := hmax.trans (by decide)
  by_cases hforced : p.sender.txRawCounter + 1 ≥ 100
  · have hshort : t.packet.length ≤ 2 := hcoded.resolve_left (not_lt.mpr hforced)
    rw [buildFrame_forced hforced] at hlt
    change i < t.packet.length at hlt
    omega
  · obtain ⟨tail, hrx, htun, -⟩ := deliver_buildFrame lz4 t.memory p.sender hring hpos hlen
    obtain ⟨tail', hrx', htun'⟩ := deliver_damaged lz4 t.memory p.sender hring hpos hlen hforced hi b
    have hplain : 0 < (plainFrame lz4 p.sender t.packet).payload.length := by
      rw [plainFrame, if_neg hforced]
      exact (choosePayload_spec lz4 hpos _).1
    have hsame := rebuildPacket_tail lz4 t.memory.past p.sender p.receiver.rohcRx hplain
    rw [hsame] at hrx htun hrx' htun'
    exact ⟨htun'.trans htun.symm, hrx'.trans hrx.symm⟩

theorem deliver_forced (lz4 : Lz4) (memory : Memory) {e : Echo} (sender : Echo) (raw : List UInt8)
    (h : Holds e.rxRb []) (hpos : 0 < raw.length) (hlen : raw.length ≤ SIZE_BUF)
    (hforced : sender.txRawCounter + 1 ≥ 100) :
    (deliver lz4 memory e (rawFrame raw)).tunOut =
      e.tunOut ++ if badChecksum memory.stack raw then [] else [raw] := by
  obtain ⟨tail, -, htun, -⟩ := deliver_buildFrame lz4 memory sender h hpos hlen
  have hplain : plainFrame lz4 sender raw = rawFrame raw := if_pos hforced
  rw [buildFrame_forced hforced] at htun
  refine htun.trans (congrArg _ ?_)
  simp only [hplain, rawFrame, rebuildPacket, Bool.false_eq_true, if_false, List.take_left, finish]
  split_ifs <;> rfl

theorem forced_not_tolerated {lz4 : Lz4} {p : Peers} {t : Transfer} (hring : Holds p.receiver.rxRb [])
    (hmin : 3 ≤ t.packet.length) (hmax : t.packet.length ≤ 1280)
    (hforced : p.sender.txRawCounter + 1 ≥ 100) (hgood : ¬ badChecksum t.memory.stack t.packet) :
    ¬ Tolerates lz4 p t := by
  have hlen : t.packet.length ≤ SIZE_BUF := hmax.trans (by decide)
  let altered := t.packet.set 2 (byteAt t.packet 2 + 1)
  have haltered : altered.length = t.packet.length := List.length_set ..
  have hne : altered ≠ t.packet := by
    intro heq
    have hbyte := congrArg (fun l => byteAt l 2) heq
    simp only [altered, byteAt_set] at hbyte
    rw [if_pos ⟨trivial, by omega⟩] at hbyte
    simp at hbyte
  intro htolerates
  simp only [Tolerates, buildFrame_forced hforced] at htolerates
  have hsame := (htolerates 2 (byteAt t.packet 2 + 1) le_rfl hmin).1
  have hwritten := deliver_forced lz4 t.memory p.sender t.packet hring (by omega) hlen hforced
  have hdamaged := deliver_forced lz4 t.memory p.sender altered hring (by omega)
    (haltered.le.trans hlen) hforced
  have hout := hdamaged.symm.trans (hsame.trans hwritten)
  rw [if_neg hgood, List.append_cancel_left_eq] at hout
  split_ifs at hout
  exact hne (List.cons.inj hout).1

/-- In every run, whatever frames are lost, each frame that carries the code tolerates one damaged
byte, and no forced raw frame does whose packet passes the checksum test of the receiver. -/
theorem coded_frames_tolerate (lz4 : Lz4) (a b c d : ℕ → UInt8) (senderFec receiverFec : Bool)
    {ts : List Transfer} (hw : ∀ t ∈ ts, 1 ≤ t.packet.length ∧ t.packet.length ≤ 1280) :
    let start := initialPeers a b c d senderFec receiverFec
    (Meets (transfer lz4) Coded start ts → Meets (transfer lz4) (Tolerates lz4) start ts) ∧
      ((∀ t ∈ ts, ¬ badChecksum t.memory.stack t.packet) →
        Meets (transfer lz4) (Tolerates lz4) start ts → Meets (transfer lz4) Coded start ts) := by
  intro start
  have hring : Holds start.receiver.rxRb [] := rbInit_holds d
  have hnext : ∀ (p : Peers) (t : Transfer), Holds p.receiver.rxRb [] →
      (1 ≤ t.packet.length ∧ t.packet.length ≤ 1280) → Holds (transfer lz4 p t).receiver.rxRb [] :=
    fun p t hp ht => transfer_ring lz4 hp ht.1 ht.2
  refine ⟨fun hcoded => ?_, fun hgood htolerates => ?_⟩
  · refine meets_of_step (I := fun p : Peers => Holds p.receiver.rxRb []) ?_ hring
      (Meets.and (meets_of_forall fun _ => hw) hcoded)
    intro p t hp hok
    exact ⟨hnext p t hp hok.1, tolerates_of_coded hp hok.1.1 hok.1.2 hok.2⟩
  · refine meets_of_step (I := fun p : Peers => Holds p.receiver.rxRb []) ?_ hring
      (Meets.and (Meets.and (meets_of_forall fun _ => hw) (meets_of_forall fun _ => hgood)) htolerates)
    intro p t hp hok
    obtain ⟨⟨hlen, hverified⟩, hok⟩ := hok
    refine ⟨hnext p t hp hlen, ?_⟩
    by_contra hforced
    rw [Coded, not_or, not_lt, not_le] at hforced
    exact forced_not_tolerated hp hforced.2 hlen.2 hforced.1 hverified hok

/-- Three bytes that are no IP packet. -/
def shortTransfer : Transfer := ⟨[0x10, 0x01, 0x02], true, zeroMemory⟩

theorem coded_until_forced (lz4 : Lz4) {p : Peers} {ts : List Transfer}
    (hpos : ∀ t ∈ ts, 0 < t.packet.length) (hcount : p.sender.txRawCounter + ts.length ≤ 99) :
    Meets (transfer lz4) Coded p ts := by
  induction ts generalizing p with
  | nil => trivial
  | cons t ts ih =>
    rw [List.length_cons] at hcount
    push_cast at hcount
    have hnext := transfer_counter lz4 p (hpos t List.mem_cons_self)
    rw [if_neg (by omega)] at hnext
    refine ⟨.inl (by omega), ih (fun u hu => hpos u (List.mem_cons_of_mem _ hu)) (by omega)⟩

/-- An IPv4 header with another identification each time, every third one lost. -/
def numberedTransfer (n : ℕ) : Transfer :=
  ⟨[0x45, 0, 0, 20, 0, n.toUInt8] ++ List.replicate 14 0, n % 3 ≠ 0, zeroMemory⟩

theorem ninety_nine_frames_tolerate :
    Meets (transfer noLz4) (Tolerates noLz4) freshPeers ((List.range 99).map numberedTransfer) := by
  have hlen : ∀ t ∈ (List.range 99).map numberedTransfer,
      1 ≤ t.packet.length ∧ t.packet.length ≤ 1280 := by
    intro t ht
    obtain ⟨n, -, rfl⟩ := List.mem_map.mp ht
    simp [numberedTransfer]
  have hcoded : Meets (transfer noLz4) Coded freshPeers ((List.range 99).map numberedTransfer) := by
    refine coded_until_forced noLz4 (fun t ht => (hlen t ht).1) ?_
    rw [List.length_map, List.length_range]
    decide
  exact (coded_frames_tolerate noLz4 (fun _ => 0) (fun _ => 0) (fun _ => 0) (fun _ => 0) false false
    hlen).1 hcoded

theorem repeated_counter {n : ℕ} (hn : n ≤ 99) : (run (transfer noLz4) freshPeers
    (List.replicate n shortTransfer)).sender.txRawCounter = n := by
  induction n with
  | zero => rfl
  | succ n ih =>
    have hcount := ih (by omega)
    have hnext := transfer_counter noLz4 (run (transfer noLz4) freshPeers
      (List.replicate n shortTransfer)) (t := shortTransfer) (by decide)
    rw [hcount, if_neg (by omega)] at hnext
    rw [List.replicate_succ', run_append, run_cons, run_nil, hnext]
    push_cast
    rfl

/-- The hundredth frame is sent without error correction. -/
theorem hundredth_frame_damaged : ¬ ∀ ts : List Transfer,
    (∀ t ∈ ts, (1 ≤ t.packet.length ∧ t.packet.length ≤ 1280) ∧ t.arrives = true) →
      Meets (transfer noLz4) (Tolerates noLz4) freshPeers ts := by
  intro hall
  have hw : ∀ n, ∀ t ∈ List.replicate n shortTransfer,
      (1 ≤ t.packet.length ∧ t.packet.length ≤ 1280) ∧ t.arrives = true := by
    intro n t ht
    rw [List.eq_of_mem_replicate ht]
    decide
  have hring : Holds (run (transfer noLz4) freshPeers
      (List.replicate 99 shortTransfer)).receiver.rxRb [] :=
    run_invariant (I := fun p : Peers => Holds p.receiver.rxRb [])
      (fun _ _ hp ht => transfer_ring noLz4 hp ht.1.1 ht.1.2) (rbInit_holds fun _ => 0)
      (meets_of_forall fun _ => hw 99)
  have htolerates := hall _ (hw 100)
  rw [List.replicate_succ' (n := 99), meets_append] at htolerates
  refine forced_not_tolerated hring (by decide) (by decide) ?_ (fun hbad => ?_) htolerates.2.1
  · rw [repeated_counter le_rfl]
    norm_num
  · exact absurd hbad.1 (by decide)

end EchoProtocol.DamagedFrames
