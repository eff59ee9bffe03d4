import EchoProtocol.Backpressure

/-!
# What a dropped packet leaves behind

`tun_to_rb` drops a packet when the transmit ring refuses one of its bits, at whatever bit that
happens.
-/
namespace EchoProtocol.DroppedPackets
open Bytes Fec RingBits Scrambling SyncWord Rohc Frames Endpoint Transmit FrameHeader Backpressure

/-- The call ends in one of the two exits that drop the packet. -/
def Dropped (lz4 : Lz4) (e : Echo) (raw : List UInt8) : Prop :=
  raw.length ≠ 0 ∧ (sendBits scramblerReset (buildFrame lz4 e raw).2.txRb
    (frameBits (buildFrame lz4 e raw).1)).1 = false

/-- What a packet that is dropped as a whole leaves as it was. -/
structure Untouched (before after : Echo) : Prop where
  queue : unread after.txRb = unread before.txRb
  context : after.rohcTx = before.rohcTx
  packets : after.stats.txPackets = before.stats.txPackets
  bytes : after.stats.txBytes = before.stats.txBytes

/-- There is a packet and its frame has more bits than the ring has places. -/
def Overflows (lz4 : Lz4) (e : Echo) (raw : List UInt8) : Prop :=
  raw.length ≠ 0 ∧ (freeBits e.txRb : ℤ) < 16 + 8 * airLength lz4 e raw

/-- The call appends a complete header and payload or nothing. -/
def WholeOrNothing (lz4 : Lz4) (e : Echo) (raw : List UInt8) : Prop :=
  unread (tunToRb lz4 e raw).txRb = unread e.txRb ∨ unread (tunToRb lz4 e raw).txRb =
    unread e.txRb ++ scrambleBits scramblerReset (frameBits (buildFrame lz4 e raw).1)

theorem sendBits_spec {b : Buffer} (s : Scrambler) (bits : List Bool) (h : WellFormed b) :
    (sendBits s b bits).1 = decide (bits.length ≤ freeBits b) ∧
      unread (sendBits s b bits).2.2 = unread b ++ (scrambleBits s bits).take (freeBits b) := by
  induction bits generalizing s b with
  | nil => simp [sendBits, scrambleBits]
  | cons bit bits ih =>
    have hroom := putBits_isSome_iff_freeBits h (scramblerProcess s bit).1
    simp only [sendBits, scrambleBits]
    cases hput : putBits b (scramblerProcess s bit).1 with
    | none =>
      have hzero : freeBits b = 0 := by simpa [hput] using hroom
      simp [hzero]
    | some b' =>
      have hfree := freeBits_putBits h hput
      obtain ⟨hwf, hq⟩ := putBits_holds ⟨h, rfl⟩ hput
      obtain ⟨hall, hrest⟩ := ih (scramblerProcess s bit).2 hwf
      refine ⟨?_, ?_⟩
      · simp only [hall, ← hfree, List.length_cons, Nat.add_le_add_iff_right]
      · simp only [hrest, hq, ← hfree, List.take_succ_cons, List.append_assoc, List.singleton_append]

theorem tunToRb_appends (lz4 : Lz4) {e : Echo} {raw : List UInt8} (h : WellFormed e.txRb)
    (hraw : raw.length ≠ 0) : unread (tunToRb lz4 e raw).txRb = unread e.txRb ++
      (scrambleBits scramblerReset (frameBits (buildFrame lz4 e raw).1)).take (freeBits e.txRb) := by
  simp only [tunToRb]
  rw [if_neg hraw, buildFrame_txRb]
  exact (sendBits_spec scramblerReset _ h).2

theorem tunToRb_packets (lz4 : Lz4) (e : Echo) {raw : List UInt8} (hraw : raw.length ≠ 0) :
    (tunToRb lz4 e raw).stats.txPackets = e.stats.txPackets + 1 := by
  simp only [tunToRb]
  obtain ⟨len, hbuilt⟩ := buildFrame_snd lz4 e raw
  rw [if_neg hraw, hbuilt]
  rfl

theorem dropped_iff (lz4 : Lz4) {e : Echo} {raw : List UInt8} (h : WellFormed e.txRb)
    (hlen : raw.length ≤ SIZE_BUF) : Dropped lz4 e raw ↔ Overflows lz4 e raw := by
  refine and_congr_right fun hraw => ?_
  have hair := buildFrame_length lz4 e (Nat.one_le_iff_ne_zero.mpr hraw) hlen
  rw [buildFrame_txRb, (sendBits_spec scramblerReset _ h).1, decide_eq_false_iff_not,
    frameBits_length, not_le]
  omega

theorem Dropped.not_untouched {lz4 : Lz4} {e : Echo} {raw : List UInt8} (h : Dropped lz4 e raw) :
    ¬ Untouched e (tunToRb lz4 e raw) := by
  intro hkept
  have hpackets := hkept.packets
  rw [tunToRb_packets lz4 e h.1] at hpackets
  simp at hpackets

theorem wholeOrNothing_iff (lz4 : Lz4) {e : Echo} {raw : List UInt8} (h : WellFormed e.txRb)
    (hlen : raw.length ≤ SIZE_BUF) :
    WholeOrNothing lz4 e raw ↔ ¬ Overflows lz4 e raw ∨ freeBits e.txRb = 0 := by
  by_cases hraw : raw.length = 0
  · have hnothing : tunToRb lz4 e raw = e := if_pos hraw
    exact ⟨fun _ => .inl fun hover => hover.1 hraw, fun _ => .inl (by rw [hnothing])⟩
  have hair := buildFrame_length lz4 e (Nat.one_le_iff_ne_zero.mpr hraw) hlen
  have hbits : (scrambleBits scramblerReset (frameBits (buildFrame lz4 e raw).1)).length =
      16 + (buildFrame lz4 e raw).1.payload.length * 8 := by
    rw [scrambleBits_length, frameBits_length]
  rw [WholeOrNothing, tunToRb_appends lz4 h hraw, List.append_cancel_left_eq,
    List.append_right_eq_self, List.take_eq_self_iff, List.take_eq_nil_iff,
    ← List.length_eq_zero_iff, hbits, Overflows, and_iff_right hraw]
  omega

/-- Dropping a packet is all or nothing exactly when the frame fits: a packet that is dropped has
been counted before. Nothing of it is in the ring only if the ring was full at once. -/
theorem dropped_untouched_iff (lz4 : Lz4) {e : Echo} {raw : List UInt8} (h : WellFormed e.txRb)
    (hlen : raw.length ≤ SIZE_BUF) :
    ((Dropped lz4 e raw → Untouched e (tunToRb lz4 e raw)) ↔ ¬ Overflows lz4 e raw) ∧
      (WholeOrNothing lz4 e raw ↔ ¬ Overflows lz4 e raw ∨ freeBits e.txRb = 0) := by
  refine ⟨?_, wholeOrNothing_iff lz4 h hlen⟩
  rw [← dropped_iff lz4 h hlen]
  exact ⟨fun hkept hdropped => hdropped.not_untouched (hkept hdropped),
    fun hnot hdropped => absurd hdropped hnot⟩

/-- A raw packet of 1020 bytes on a ring with one place more than it needs. -/
theorem dropped_untouched_tight : ∃ b, freeBits b = 16 + 8 * 1020 + 1 ∧
    let e := { freshEcho with txRb := b, txRawCounter := 99 }
    (Dropped noLz4 e (List.replicate 1020 0) →
      Untouched e (tunToRb noLz4 e (List.replicate 1020 0))) ∧
      WholeOrNothing noLz4 e (List.replicate 1020 0) := by
  obtain ⟨b, hreach, -, hfree⟩ := tight_ring
  refine ⟨b, hfree, ?_⟩
  intro e
  have hwf : WellFormed e.txRb := Pushing.wellFormed hreach
  have hraw : (List.replicate 1020 (0 : UInt8)).length = 1020 := List.length_replicate
  have hforced : e.txRawCounter + 1 ≥ 100 := le_refl (100 : ℤ)
  have hfits : ¬ Overflows noLz4 e (List.replicate 1020 0) := by
    rintro ⟨-, hover⟩
    rw [airLength, if_pos hforced, hraw] at hover
    have hring : freeBits e.txRb = 8 * 1022 + 1 := hfree
    omega
  obtain ⟨hkept, hwhole⟩ :=
    dropped_untouched_iff noLz4 (e := e) hwf (hraw.le.trans (by decide : 1020 ≤ SIZE_BUF))
  exact ⟨hkept.mpr hfits, hwhole.mpr (.inl hfits)⟩

/-- The main loop's writes before it calls `tun_to_rb`. -/
def announced (e : Echo) : Echo := { e with txRb := pushSyncWord (pushPreamble e.txRb) }

theorem announced_wellFormed {e : Echo} (h : WellFormed e.txRb) (hroom : 48 ≤ freeBits e.txRb) :
    WellFormed (announced e).txRb ∧ freeBits (announced e).txRb + 48 = freeBits e.txRb := by
  have hpush : (announced e).txRb = pushBits e.txRb announcement := by
    simp only [announced, pushSyncWord, pushPreamble, pushBits, announcement, List.foldl_append]
  have hwritten : (written (puts announcement)).length ≤ freeBits e.txRb := by
    rw [written_puts]
    exact hroom
  obtain ⟨b', hb'⟩ := Option.isSome_iff_exists.mp (accesses_isSome h hwritten)
  rw [hpush, pushBits_of_accesses hb']
  exact ⟨accesses_wellFormed h hb', freeBits_puts h hb'⟩

theorem backlog_not_untouched {e : Echo} {count sent : ℕ} (h : Backlog e count sent)
    (hcount : count < 99) (hpush : sent + 48 ≤ 131065) (hfull : 131065 < sent + 48 + 12272) :
    ¬ (Dropped noLz4 (announced e) (List.replicate 1280 0) → Untouched (announced e)
      (tunToRb noLz4 (announced e) (List.replicate 1280 0))) := by
  have hfree := h.free
  have hcounter := h.counter
  obtain ⟨hwf, hroom⟩ := announced_wellFormed h.wellFormed (by omega)
  have hraw : (List.replicate 1280 (0 : UInt8)).length = 1280 := List.length_replicate
  have hair : airLength noLz4 (announced e) (List.replicate 1280 0) = 1532 := by
    have hsame : (announced e).txRawCounter = e.txRawCounter := rfl
    rw [airLength, hsame, if_neg (by omega), chosenLength, choosePayload_zeros _ (by decide), hraw]
    decide
  have hdropped : Dropped noLz4 (announced e) (List.replicate 1280 0) := by
    rw [dropped_iff noLz4 hwf (by rw [hraw]; decide), Overflows, hraw, hair]
    omega
  exact fun hkept => hdropped.not_untouched (hkept hdropped)

/-- After nine packets of 1280 bytes and one of 892 the next packet of 1280 bytes is dropped and
leaves its traces. -/
theorem dropped_packet_counted : ∃ packets : List (List UInt8),
    let e := announced (packets.foldl (sendPacket noLz4) freshEcho)
    let raw := List.replicate 1280 0
    ¬ (Dropped noLz4 e raw → Untouched e (tunToRb noLz4 e raw)) := by
  refine ⟨List.replicate 9 (List.replicate 1280 0) ++ [List.replicate 892 0], ?_⟩
  rw [List.foldl_append, List.foldl_cons, List.foldl_nil]
  have hlast := sendPacket_backlog 892 1022 (packets_backlog (k := 9) (by omega)) (by omega)
    (by decide) (by decide) (by decide) (by omega) (by omega)
  exact backlog_not_untouched hlast (by omega) (by omega) (by omega)

end EchoProtocol.DroppedPackets
