import EchoProtocol.FrameHeader

/-!
# Room for a whole frame

The main loop reads a packet only if the transmit ring has room for 1024 bytes. This module
counts what a frame really needs.
-/
namespace EchoProtocol.Backpressure
open Bytes Fec ReedSolomon RingBits Scrambling SyncWord Rohc Frames Endpoint Transmit FrameHeader
  Receive

/-- One call on the transmit ring, by the main loop or by the audio side. -/
inductive Access
  | put (bit : Bool)
  | get
  deriving DecidableEq

/-- `none` for a refused bit. -/
def access (b : Buffer) : Access → Option Buffer
  | .put bit => putBits b bit
  | .get =>
      match getBits b with
      | none => some b
      | some (_, b') => some b'

/-- Call after call; `none` as soon as a bit is refused. -/
def accesses (b : Buffer) (calls : List Access) : Option Buffer := calls.foldlM access b

/-- The bits written by a list of calls. -/
def written (calls : List Access) : List Bool :=
  calls.filterMap fun
    | .put bit => some bit
    | .get => none

/-- No bit of the frame is refused, whatever the audio side reads in the meantime. -/
def AllFit (b : Buffer) (f : Frame) : Prop :=
  ∀ calls, written calls = airBits f → (accesses b calls).isSome

/-- The transmit ring while the main loop pushes frames and the audio side reads, with the bits
that are still to come: those of preamble and sync word, whose refusal nobody notices, and those
of `tun_to_rb`, where the first refusal ends the frame. -/
inductive Pushing : Buffer → List Bool → List Bool → Prop
  | init (junk : ℕ → UInt8) : Pushing (rbInit junk) [] []
  | packet {b : Buffer} (lz4 : Lz4) (e : Echo) (raw : List UInt8) (h : Pushing b [] [])
      (htest : ¬ freeSpace b < MAX_TX_FRAME_BYTES) (hpos : 1 ≤ raw.length)
      (hlen : raw.length ≤ 1280) : Pushing b announcement
        (scrambleBits scramblerReset (frameBits (buildFrame lz4 e raw).1))
  | announce {b : Buffer} {bit : Bool} {bits frame : List Bool}
      (h : Pushing b (bit :: bits) frame) : Pushing (putIgnoring b bit) bits frame
  | put {b b' : Buffer} {bit : Bool} {frame : List Bool} (h : Pushing b [] (bit :: frame))
      (hput : putBits b bit = some b') : Pushing b' [] frame
  | refused {b : Buffer} {bit : Bool} {frame : List Bool} (h : Pushing b [] (bit :: frame))
      (hput : putBits b bit = none) : Pushing b [] []
  | get {b b' : Buffer} {bit : Bool} {bits frame : List Bool} (h : Pushing b bits frame)
      (hget : getBits b = some (bit, b')) : Pushing b' bits frame

/-- A ring that the main loop may find when it makes its test. -/
def Reachable (b : Buffer) : Prop := Pushing b [] []

/-- The number of payload bytes on the air. -/
def airLength (lz4 : Lz4) (e : Echo) (raw : List UInt8) : ℤ :=
  if e.txRawCounter + 1 ≥ 100 then raw.length else fecEncodedLen (chosenLength lz4 e raw)

theorem access_wellFormed {b b' : Buffer} {call : Access} (h : WellFormed b)
    (hcall : access b call = some b') : WellFormed b' := by
  cases call with
  | put bit => exact putBits_wellFormed h hcall
  | get =>
    simp only [access] at hcall
    split at hcall
    · exact Option.some.inj hcall ▸ h
    · next hget => exact Option.some.inj hcall ▸ getBits_wellFormed h hget

theorem accesses_wellFormed {b b' : Buffer} {calls : List Access} (h : WellFormed b)
    (hcalls : accesses b calls = some b') : WellFormed b' := by
  induction calls generalizing b with
  | nil => exact Option.some.inj hcalls ▸ h
  | cons call calls ih =>
    obtain ⟨c, hcall, hrest⟩ := Option.bind_eq_some_iff.mp hcalls
    exact ih (access_wellFormed h hcall) hrest

theorem putIgnoring_wellFormed {b : Buffer} (h : WellFormed b) (bit : Bool) :
    WellFormed (putIgnoring b bit) := by
  unfold putIgnoring
  cases hput : putBits b bit with
  | none => exact h
  | some b' => exact putBits_wellFormed h hput

theorem Pushing.wellFormed {b : Buffer} {bits frame : List Bool} (h : Pushing b bits frame) :
    WellFormed b := by
  induction h with
  | init junk => exact (rbInit_holds junk).wellFormed
  | packet _ _ _ _ _ _ _ ih => exact ih
  | announce _ ih => exact putIgnoring_wellFormed ih _
  | put _ hput ih => exact putBits_wellFormed ih hput
  | refused _ _ ih => exact ih
  | get _ hget ih => exact getBits_wellFormed ih hget

theorem accesses_isSome {b : Buffer} {calls : List Access} (h : WellFormed b)
    (hroom : (written calls).length ≤ freeBits b) : (accesses b calls).isSome := by
  induction calls generalizing b with
  | nil => rfl
  | cons call calls ih =>
    unfold accesses at ih ⊢
    rw [List.foldlM_cons]
    cases call with
    | put bit =>
      have hlen : (written (Access.put bit :: calls)).length = (written calls).length + 1 := rfl
      rw [hlen] at hroom
      obtain ⟨b', hput⟩ := Option.isSome_iff_exists.mp
        ((putBits_isSome_iff_freeBits h bit).mpr (by omega))
      have hfree := freeBits_putBits h hput
      rw [access, hput]
      exact ih (putBits_wellFormed h hput) (by omega)
    | get =>
      have hlen : written (Access.get :: calls) = written calls := rfl
      rw [hlen] at hroom
      simp only [access]
      cases hget : getBits b with
      | none => exact ih h hroom
      | some r => exact ih (getBits_wellFormed h hget) (hroom.trans (freeBits_getBits h hget))

def puts (bits : List Bool) : List Access := bits.map .put

@[simp] theorem written_puts (bits : List Bool) : written (puts bits) = bits := by
  simp [written, puts, List.filterMap_map]

theorem freeBits_puts {b b' : Buffer} {bits : List Bool} (h : WellFormed b)
    (hputs : accesses b (puts bits) = some b') : freeBits b' + bits.length = freeBits b := by
  induction bits generalizing b with
  | nil => exact Option.some.inj hputs ▸ rfl
  | cons bit bits ih =>
    obtain ⟨c, hput, hrest⟩ := Option.bind_eq_some_iff.mp hputs
    have hfree := freeBits_putBits h hput
    have hrest' := ih (putBits_wellFormed h hput) hrest
    rw [List.length_cons]
    omega

theorem allFit_iff {b : Buffer} {f : Frame} (h : WellFormed b) :
    AllFit b f ↔ 64 + 8 * f.payload.length ≤ freeBits b := by
  rw [← airBits_length]
  constructor
  · intro hfit
    obtain ⟨b', hb'⟩ := Option.isSome_iff_exists.mp (hfit (puts (airBits f)) (written_puts _))
    have hfree := freeBits_puts h hb'
    omega
  · intro hroom calls hcalls
    exact accesses_isSome h (hcalls ▸ hroom)

theorem accesses_append (b : Buffer) (calls calls' : List Access) :
    accesses b (calls ++ calls') = (accesses b calls).bind fun b' => accesses b' calls' :=
  List.foldlM_append

theorem pushBits_of_accesses {b b' : Buffer} {bits : List Bool}
    (h : accesses b (puts bits) = some b') : pushBits b bits = b' := by
  induction bits generalizing b with
  | nil => exact Option.some.inj h
  | cons bit bits ih =>
    obtain ⟨c, hput, hrest⟩ := Option.bind_eq_some_iff.mp h
    have hput' : putBits b bit = some c := hput
    rw [pushBits, List.foldl_cons, putIgnoring, hput', Option.getD_some]
    exact ih hrest

theorem sendBits_of_accesses {s : Scrambler} {b b' : Buffer} {bits : List Bool}
    (h : accesses b (puts (scrambleBits s bits)) = some b') :
    sendBits s b bits = (true, after s bits.length, b') := by
  induction bits generalizing s b with
  | nil =>
    obtain rfl := Option.some.inj h
    rfl
  | cons bit bits ih =>
    obtain ⟨c, hput, hrest⟩ := Option.bind_eq_some_iff.mp h
    have hput' : putBits b (scramblerProcess s bit).1 = some c := hput
    simp only [sendBits, hput']
    exact ih hrest

theorem sendPacket_txRb {lz4 : Lz4} {e : Echo} {raw : List UInt8} {b' : Buffer}
    (htest : ¬ freeSpace e.txRb < MAX_TX_FRAME_BYTES) (hraw : raw.length ≠ 0)
    (hfit : accesses e.txRb (puts (airBits (buildFrame lz4 e raw).1)) = some b') :
    (sendPacket lz4 e raw).txRb = b' := by
  unfold airBits announcement puts at hfit
  rw [List.map_append, List.map_append, List.append_assoc, accesses_append] at hfit
  obtain ⟨b₁, hpre, hfit⟩ := Option.bind_eq_some_iff.mp hfit
  rw [accesses_append] at hfit
  obtain ⟨b₂, hsync, hframe⟩ := Option.bind_eq_some_iff.mp hfit
  have hsame : (buildFrame lz4 { e with txRb := b₂ } raw).1 = (buildFrame lz4 e raw).1 := by
    rw [buildFrame_fst, buildFrame_fst]
  unfold sendPacket
  rw [if_neg htest, pushPreamble, pushBits_of_accesses hpre, pushSyncWord,
    pushBits_of_accesses hsync]
  simp only [tunToRb]
  rw [if_neg hraw, buildFrame_txRb, hsame, sendBits_of_accesses hframe]

theorem buildFrame_length (lz4 : Lz4) (e : Echo) {raw : List UInt8} (hpos : 1 ≤ raw.length)
    (hlen : raw.length ≤ SIZE_BUF) :
    ((buildFrame lz4 e raw).1.payload.length : ℤ) = airLength lz4 e raw := by
  unfold airLength
  split_ifs with hforced
  · rw [buildFrame_forced hforced]
  · obtain ⟨hchosen, hle, -⟩ := choosePayload_spec lz4 hpos
      (rohcCompress e.rohcTx raw ROHC_MAX_COMPRESSED).1
    obtain ⟨out, -, haddFec, hcode, -⟩ := addFec_spec hchosen (hle.trans hlen)
    rw [buildFrame_chosen hforced, haddFec]
    exact hcode

theorem freeSpace_eq (b : Buffer) : freeSpace b = BUFFER_SIZE - used b :=
  congrArg (BUFFER_SIZE - ·) (Nat.and_two_pow_sub_one_eq_mod _ 14)

theorem test_passes {b : Buffer} (h : WellFormed b) (hfree : 8 * 1022 + 9 ≤ freeBits b) :
    ¬ freeSpace b < MAX_TX_FRAME_BYTES := by
  have hu := used_lt b
  have hp := h.countPut_le
  rw [freeSpace_eq]
  unfold freeBits at hfree
  unfold MAX_TX_FRAME_BYTES BUFFER_SIZE at *
  split_ifs at hfree <;> omega

theorem test_leaves {b : Buffer} (h : WellFormed b) (htest : ¬ freeSpace b < MAX_TX_FRAME_BYTES) :
    8 * 1022 + 1 ≤ freeBits b := by
  have hu := used_lt b
  have hp := h.countPut_le
  rw [freeSpace_eq] at htest
  unfold freeBits
  unfold MAX_TX_FRAME_BYTES BUFFER_SIZE at *
  split_ifs <;> omega

theorem Pushing.reachable {b b' : Buffer} {bits frame : List Bool} (h : Pushing b bits frame)
    (hputs : accesses b (puts (bits ++ frame)) = some b') : Reachable b' := by
  induction bits generalizing b with
  | nil =>
    induction frame generalizing b with
    | nil => exact Option.some.inj hputs ▸ h
    | cons bit frame ih =>
      obtain ⟨c, hput, hrest⟩ := Option.bind_eq_some_iff.mp hputs
      exact ih (h.put hput) hrest
  | cons bit bits ih =>
    obtain ⟨c, hput, hrest⟩ := Option.bind_eq_some_iff.mp hputs
    have hput' : putBits b bit = some c := hput
    have hnext := h.announce
    rw [putIgnoring, hput', Option.getD_some] at hnext
    exact ih hnext hrest

theorem Reachable.drain {b : Buffer} {n : ℕ} (h : Reachable b) (hn : n ≤ used b) :
    ∃ b', Reachable b' ∧ used b' = n ∧ b'.countPut = b.countPut := by
  have hwf : WellFormed b := Pushing.wellFormed h
  induction hq : unread b generalizing b with
  | nil =>
    have hcount : unreadCount b = 0 := (Holds.length ⟨hwf, hq⟩).symm
    have hbyte := hwf.other_byte
    have hz := used_eq_zero hwf
    refine ⟨b, h, ?_, rfl⟩
    unfold unreadCount at hcount
    have := hwf.countGet_le
    omega
  | cons bit q ih =>
    rcases hn.eq_or_lt with rfl | hlt
    · exact ⟨b, h, rfl, rfl⟩
    · obtain ⟨c, hget, hc⟩ := getBits_cons ⟨hwf, hq⟩
      obtain ⟨hcount, hused⟩ := getBits_used hwf hget
      obtain ⟨b', hreach, hb', hsame⟩ := ih (h.get hget) (by omega) hc.wellFormed hc.unread_eq
      exact ⟨b', hreach, hb', hsame.trans hcount⟩

/-- A ring that has taken `sent` bits since it was created, after `count` packets. -/
structure Backlog (e : Echo) (count sent : ℕ) : Prop where
  reachable : Reachable e.txRb
  counter : e.txRawCounter = count
  free : freeBits e.txRb + sent = 131065

theorem Backlog.wellFormed {e : Echo} {count sent : ℕ} (h : Backlog e count sent) :
    WellFormed e.txRb := Pushing.wellFormed h.reachable

theorem freshEcho_backlog : Backlog freshEcho 0 0 := ⟨.init _, rfl, by decide⟩

theorem sendPacket_backlog {e : Echo} {count sent : ℕ} (n air : ℕ) (h : Backlog e count sent)
    (hcount : count < 99) (hn : 20 ≤ n) (hn' : n ≤ 1280) (hair : (air : ℤ) = fecEncodedLen n)
    (hroom : sent + 64 + 8 * air ≤ 131065) (hpass : sent + 8185 ≤ 131065) :
    Backlog (sendPacket noLz4 e (List.replicate n 0)) (count + 1) (sent + 64 + 8 * air) := by
  have hlen : (List.replicate n (0 : UInt8)).length = n := List.length_replicate
  have hcounter := h.counter
  have hfree := h.free
  have hforced : ¬ e.txRawCounter + 1 ≥ 100 := by omega
  have hchosen : chosenLength noLz4 e (List.replicate n 0) = n := by
    rw [chosenLength, choosePayload_zeros _ hn]
    exact hlen
  have hframe : (buildFrame noLz4 e (List.replicate n 0)).1.payload.length = air := by
    have hsize : (1280 : ℕ) ≤ SIZE_BUF := by decide
    have hair' : ((buildFrame noLz4 e (List.replicate n 0)).1.payload.length : ℤ) = air := by
      rw [buildFrame_length _ _ (by omega) (by omega), airLength, if_neg hforced, hchosen, hair]
    exact_mod_cast hair'
  have htest : ¬ freeSpace e.txRb < MAX_TX_FRAME_BYTES := test_passes h.wellFormed (by omega)
  have hbits := airBits_length (buildFrame noLz4 e (List.replicate n 0)).1
  rw [hframe] at hbits
  have hfits : (written (puts (airBits (buildFrame noLz4 e (List.replicate n 0)).1))).length ≤
      freeBits e.txRb := by
    rw [written_puts]
    omega
  obtain ⟨b', hb'⟩ := Option.isSome_iff_exists.mp (accesses_isSome h.wellFormed hfits)
  have hafter := freeBits_puts h.wellFormed hb'
  have hring := sendPacket_txRb htest (by omega) hb'
  have hpush : Reachable b' :=
    (Pushing.packet noLz4 e _ h.reachable htest (by omega) (by omega)).reachable hb'
  refine ⟨hring ▸ hpush, ?_, by rw [hring]; omega⟩
  have hcount' : (sendPacket noLz4 e (List.replicate n 0)).txRawCounter = e.txRawCounter + 1 := by
    rw [sendPacket, if_neg htest, tunToRb_counter noLz4 _ (by omega), if_neg hforced]
  rw [hcount', hcounter]
  rfl

theorem packets_backlog {k : ℕ} (hk : k ≤ 10) :
    Backlog ((List.replicate k (List.replicate 1280 0)).foldl (sendPacket noLz4) freshEcho) k
      (12320 * k) := by
  induction k with
  | zero => exact freshEcho_backlog
  | succ k ih =>
    rw [List.replicate_succ', List.foldl_append, List.foldl_cons, List.foldl_nil]
    have hnext := sendPacket_backlog 1280 1532 (ih (by omega)) (by omega) (by decide) (by decide)
      (by decide) (by omega) (by omega)
    rwa [show 12320 * k + 64 + 8 * 1532 = 12320 * (k + 1) by ring] at hnext

theorem Backlog.tight {e : Echo} {count : ℕ} (h : Backlog e count 123200) :
    ∃ b, Reachable b ∧ ¬ freeSpace b < MAX_TX_FRAME_BYTES ∧ freeBits b = 8 * 1022 + 1 := by
  have hfree := h.free
  have hbyte := h.wellFormed.other_byte
  have hput := h.wellFormed.countPut_le
  have hz := used_eq_zero h.wellFormed
  have hlast : used e.txRb = 15399 ∧ e.txRb.countPut = 8 := by
    unfold freeBits BUFFER_SIZE at hfree
    split_ifs at hfree <;> omega
  obtain ⟨b, hreach, hused, hcount⟩ := h.reachable.drain (n := 15360) (by omega)
  refine ⟨b, hreach, ?_, ?_⟩
  · rw [freeSpace_eq, hused]
    decide
  · rw [freeBits, hused, hcount, hlast.2]
    decide

theorem tight_ring :
    ∃ b, Reachable b ∧ ¬ freeSpace b < MAX_TX_FRAME_BYTES ∧ freeBits b = 8 * 1022 + 1 :=
  (packets_backlog (k := 10) le_rfl).tight

theorem test_guarantees_air_iff {f : Frame} :
    (∀ b, Reachable b → ¬ freeSpace b < MAX_TX_FRAME_BYTES → AllFit b f) ↔
      f.payload.length ≤ 1014 := by
  constructor
  · intro hall
    obtain ⟨b, hreach, htest, hfree⟩ := tight_ring
    have hfits := (allFit_iff (Pushing.wellFormed hreach)).mp (hall b hreach htest)
    omega
  · intro hlen b hreach htest
    have hwf : WellFormed b := Pushing.wellFormed hreach
    have hleaves := test_leaves hwf htest
    exact (allFit_iff hwf).mpr (by omega)

theorem fecEncodedLen_le_iff {n : ℕ} (hn : 0 < n) : fecEncodedLen n ≤ 1014 ↔ n ≤ 669 := by
  rcases Nat.lt_or_ge n 184 with hsmall | hlarge
  · rw [fecEncodedLen_single hn (by omega)]
    unfold fecEccBytes
    simp only
    split_ifs <;> omega
  · rw [fecEncodedLen_multi hlarge]
    unfold blockCount FEC_RS_MAX_N FEC_RS_MSGBLK
    omega

/-- The test of the main loop guarantees a place for every bit of a packet's frame exactly if the
packet is sent raw and has at most 1014 bytes, or has at most 669 bytes, three blocks, before
error correction. -/
theorem test_guarantees_room_iff (lz4 : Lz4) (e : Echo) {raw : List UInt8}
    (hpos : 1 ≤ raw.length) (hlen : raw.length ≤ 1280) :
    (∀ b, Reachable b → ¬ freeSpace b < MAX_TX_FRAME_BYTES → AllFit b (buildFrame lz4 e raw).1) ↔
      if e.txRawCounter + 1 ≥ 100 then raw.length ≤ 1014 else chosenLength lz4 e raw ≤ 669 := by
  have hair := buildFrame_length lz4 e hpos (hlen.trans (by decide))
  rw [test_guarantees_air_iff]
  unfold airLength at hair
  split_ifs at hair ⊢ with hforced
  · omega
  · have hchosen : 0 < chosenLength lz4 e raw := (choosePayload_spec lz4 hpos _).1
    rw [← fecEncodedLen_le_iff hchosen, ← hair]
    omega

/-- The longest raw packet, on a ring with one place more than its frame needs. -/
theorem longest_raw_packet_fits : ∃ b, Reachable b ∧ freeBits b = 64 + 8 * 1014 + 1 ∧
    AllFit b (buildFrame noLz4 { freshEcho with txRawCounter := 99 } (List.replicate 1014 0)).1 := by
  obtain ⟨b, hreach, htest, hfree⟩ := tight_ring
  have hlen : (List.replicate 1014 (0 : UInt8)).length = 1014 := List.length_replicate
  have hforced : ({ freshEcho with txRawCounter := 99 } : Echo).txRawCounter + 1 ≥ 100 := by decide
  refine ⟨b, hreach, hfree, (test_guarantees_room_iff noLz4 _ (by omega) (by omega)).mpr ?_ b hreach
    htest⟩
  rw [if_pos hforced, hlen]

/-- After nine packets of 1280 bytes and one of 892 the test passes and the next packet of 1280
bytes does not fit. -/
theorem test_passes_without_room : ∃ packets : List (List UInt8),
    let e := packets.foldl (sendPacket noLz4) freshEcho
    ¬ freeSpace e.txRb < MAX_TX_FRAME_BYTES ∧
      ¬ AllFit e.txRb (buildFrame noLz4 e (List.replicate 1280 0)).1 := by
  refine ⟨List.replicate 9 (List.replicate 1280 0) ++ [List.replicate 892 0], ?_⟩
  rw [List.foldl_append, List.foldl_cons, List.foldl_nil]
  have hlast := sendPacket_backlog 892 1022 (packets_backlog (k := 9) (by omega)) (by omega) (by decide)
    (by decide) (by decide) (by omega) (by omega)
  generalize sendPacket noLz4 _ (List.replicate 892 0) = e at hlast
  have hfree := hlast.free
  have hcounter := hlast.counter
  have hforced : ¬ e.txRawCounter + 1 ≥ 100 := by omega
  refine ⟨test_passes hlast.wellFormed (by omega), ?_⟩
  have hraw : (List.replicate 1280 (0 : UInt8)).length = 1280 := List.length_replicate
  have hlen : ((buildFrame noLz4 e (List.replicate 1280 0)).1.payload.length : ℤ) = 1532 := by
    rw [buildFrame_length _ _ (by omega) (by rw [hraw]; decide), airLength, if_neg hforced,
      chosenLength, choosePayload_zeros _ (by decide), hraw]
    decide
  rw [allFit_iff hlast.wellFormed]
  omega

end EchoProtocol.Backpressure
