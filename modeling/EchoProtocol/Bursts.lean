import EchoProtocol.Interleaving
import EchoProtocol.FrameHeader

/-!
# Bursts on the air

A burst of wrong bits in the scrambled payload of a frame is a burst of wrong bytes in the payload
that the receiver descrambles. The code makes up for it as long as it is short enough.
-/
namespace EchoProtocol.Bursts
open Bytes ReedSolomon Fec Scrambling SyncWord Frames Transmit

/-- The lists differ within `len` places from `start` on, if at all. -/
structure Burst {α : Type} (start len : ℕ) (xs ys : List α) : Prop where
  length : ys.length = xs.length
  outside : ∀ p, p < start ∨ start + len ≤ p → ys[p]? = xs[p]?

/-- The bytes of a burst that the code of a payload of `dataLen` bytes makes up for. -/
def burstLimit (dataLen : ℕ) : ℕ :=
  if dataLen + fecEccBytes dataLen ≤ FEC_RS_MAX_N then fecEccBytes dataLen / 2
  else 16 * blockCount dataLen

theorem Burst.behind {α : Type} {start len : ℕ} {front xs ys : List α}
    (h : Burst start len (front ++ xs) ys) (hstart : front.length ≤ start) :
    ∃ zs, ys = front ++ zs ∧ Burst (start - front.length) len xs zs := by
  have hlen := h.length
  rw [List.length_append] at hlen
  have hfront : ys.take front.length = front := by
    refine List.ext_getElem? fun p => ?_
    rw [List.getElem?_take]
    split_ifs with hp
    · rw [h.outside p (.inl (by omega)), List.getElem?_append_left hp]
    · exact (List.getElem?_eq_none (by omega)).symm
  refine ⟨ys.drop front.length, ?_, ?_, fun p hp => ?_⟩
  · exact (List.take_append_drop _ ys).symm.trans (congrArg (· ++ _) hfront)
  · rw [List.length_drop]
    omega
  · rw [List.getElem?_drop, h.outside _ (by omega), List.getElem?_append_right (by omega),
      Nat.add_sub_cancel_left]

theorem Burst.scramble {start len : ℕ} {xs ys : List Bool} (h : Burst start len xs ys) (s : Scrambler) :
    Burst start len (scrambleBits s xs) (scrambleBits s ys) := by
  refine ⟨by rw [scrambleBits_length, scrambleBits_length, h.length], fun p hp => ?_⟩
  rw [scrambleBits_getElem?, scrambleBits_getElem?, h.outside p hp]

theorem exists_byte {bits : List Bool} (h : bits.length = 8) :
    ∃ byte : UInt8, wordBits 8 byte.toNat = bits := by
  have hall : ∀ a b c d e f g h : Bool,
      wordBits 8 ([a, b, c, d, e, f, g, h].foldl shiftIn 0).toNat = [a, b, c, d, e, f, g, h] := by
    decide
  match bits, h with
  | [a, b, c, d, e, f, g, h], _ => exact ⟨_, hall a b c d e f g h⟩

theorem exists_payload {bits : List Bool} {n : ℕ} (h : bits.length = n * 8) :
    ∃ payload, payloadBits payload = bits := by
  induction n generalizing bits with
  | zero => exact ⟨[], (List.eq_nil_of_length_eq_zero (by omega)).symm⟩
  | succ n ih =>
    have hfront : (bits.take (n * 8)).length = n * 8 := by
      rw [List.length_take]
      omega
    have hlast : (bits.drop (n * 8)).length = 8 := by
      rw [List.length_drop]
      omega
    obtain ⟨payload, hpayload⟩ := ih hfront
    obtain ⟨byte, hbyte⟩ := exists_byte hlast
    refine ⟨payload ++ [byte], ?_⟩
    rw [payloadBits_concat, hpayload, hbyte, List.take_append_drop]

theorem payloadBits_getElem? (payload : List UInt8) {p j : ℕ} (hp : p < payload.length) (hj : j < 8) :
    (payloadBits payload)[8 * p + j]? = some ((byteAt payload p).toNat.testBit (7 - j)) := by
  have hdiv : (8 * p + j) / 8 = p := by omega
  have hmod : (8 * p + j) % 8 = j := by omega
  have hlt : 8 * p + j < payload.length * SIZE_BYTE := by
    unfold SIZE_BYTE
    omega
  rw [payloadBits, List.getElem?_map, List.getElem?_range hlt, Option.map_some, hdiv, hmod]

theorem byteAt_eq_of_bits {xs ys : List UInt8} {p : ℕ} (hlen : ys.length = xs.length)
    (h : ∀ j < 8, (payloadBits ys)[8 * p + j]? = (payloadBits xs)[8 * p + j]?) :
    ys[p]? = xs[p]? := by
  by_cases hp : p < xs.length
  · have hbyte : byteAt ys p = byteAt xs p := by
      refine UInt8.toNat_inj.mp (Nat.eq_of_testBit_eq fun i => ?_)
      by_cases hi : i < 8
      · have hbit := h (7 - i) (by omega)
        rw [payloadBits_getElem? ys (by omega) (by omega), payloadBits_getElem? xs hp (by omega),
          Option.some_inj, show 7 - (7 - i) = i by omega] at hbit
        exact hbit
      · have hpow : 2 ^ 8 ≤ 2 ^ i := Nat.pow_le_pow_right (by norm_num) (by omega)
        rw [Nat.testBit_lt_two_pow ((UInt8.toNat_lt _).trans_le hpow),
          Nat.testBit_lt_two_pow ((UInt8.toNat_lt _).trans_le hpow)]
    rw [byteAt_eq_getElem hp, byteAt_eq_getElem (hlen ▸ hp)] at hbyte
    rw [List.getElem?_eq_getElem hp, List.getElem?_eq_getElem (hlen ▸ hp), hbyte]
  · rw [List.getElem?_eq_none (by omega), List.getElem?_eq_none (by omega)]

theorem Burst.payload {start len L : ℕ} {xs : List UInt8} {bits : List Bool}
    (h : Burst start len (payloadBits xs) bits) (hshort : len + 7 ≤ 8 * L) :
    ∃ ys, bits = payloadBits ys ∧ Burst (start / 8) L xs ys := by
  obtain ⟨ys, rfl⟩ := exists_payload (h.length.trans (payloadBits_length xs))
  have hlen := h.length
  rw [payloadBits_length, payloadBits_length] at hlen
  refine ⟨ys, rfl, by omega, fun p hp => byteAt_eq_of_bits (by omega) fun j hj => ?_⟩
  exact h.outside _ (by omega)

theorem Burst.air {start len L : ℕ} {f : Frame} {bits : List Bool}
    (h : Burst start len (airBits f) bits) (hstart : 64 ≤ start) (hshort : len + 7 ≤ 8 * L) :
    ∃ payload, bits = airBits { f with payload := payload } ∧
      Burst ((start - 64) / 8) L f.payload payload := by
  have hannounce : announcement.length = 48 := rfl
  obtain ⟨scrambled, rfl, hscrambled⟩ := Burst.behind h (hannounce.trans_le (by omega))
  have hplain := hscrambled.scramble scramblerReset
  rw [scrambleBits_scrambleBits, frameBits, hannounce] at hplain
  obtain ⟨rest, hrest, hbehind⟩ := Burst.behind hplain ((wordBits_length 16 _).trans_le (by omega))
  rw [wordBits_length, show start - 48 - 16 = start - 64 by omega] at hbehind
  obtain ⟨payload, rfl, hpayload⟩ := hbehind.payload hshort
  refine ⟨payload, ?_, hpayload⟩
  have hheader : header { f with payload := payload } = header f := by
    rw [header, header, hpayload.length]
  rw [airBits, frameBits, hheader, ← hrest, scrambleBits_scrambleBits]

theorem Burst.byteAt_eq {start len p : ℕ} {xs ys : List UInt8} (h : Burst start len xs ys)
    (hp : p < start ∨ start + len ≤ p) : byteAt ys p = byteAt xs p := by
  rw [byteAt, byteAt, List.getD_eq_getElem?_getD, List.getD_eq_getElem?_getD, h.outside p hp]

theorem Burst.take {start len n : ℕ} {xs ys : List UInt8} (h : Burst start len xs ys) (hn : n ≤ start) :
    ys.take n = xs.take n := by
  refine List.ext_getElem? fun p => ?_
  rw [List.getElem?_take, List.getElem?_take]
  split_ifs with hp
  · exact h.outside p (.inl (by omega))
  · rfl

theorem Burst.mismatches_le {start len : ℕ} {xs ys : List UInt8} (h : Burst start len xs ys) :
    mismatches xs ys ≤ len := by
  rw [mismatches_eq_card]
  have hsub : ((Finset.range xs.length).filter fun p => byteAt xs p ≠ byteAt ys p) ⊆
      Finset.Ico start (start + len) := by
    intro p hp
    have hne := (Finset.mem_filter.mp hp).2
    rw [Finset.mem_Ico]
    by_contra hout
    exact hne (h.byteAt_eq (by omega)).symm
  exact (Finset.card_le_card hsub).trans (by simp)

theorem fecDecode_struck {data F F' : List UInt8} {outCap cap start : ℕ} (hpos : 1 ≤ data.length)
    (hmax : data.length ≤ 65535) (hF : fecEncode data outCap = some F)
    (h : Burst start (burstLimit data.length) F F') (hstart : 2 ≤ start) (hcap : data.length ≤ cap) :
    fecDecode F' cap = some data := by
  by_cases hblock : data.length + fecEccBytes data.length ≤ FEC_RS_MAX_N
  · rcases fecEncode_cases hF with ⟨-, rfl⟩ | ⟨hmulti, -⟩
    · have hlen := h.length
      have hlead := h.take hstart
      have hdamage := (mismatches_drop_le _ _ 2).trans h.mismatches_le
      rw [List.length_append, lengthPrefix_length,
        rsEncodeBlock_length (by unfold FEC_RS_MAX_N at hblock; omega)] at hlen
      rw [List.take_left' (lengthPrefix_length _)] at hlead
      rw [List.drop_left' (lengthPrefix_length _), burstLimit, if_pos hblock] at hdamage
      exact fecDecode_single hpos hmax hcap hblock (by omega) hlead hdamage
    · exact absurd hblock hmulti
  · have hlong : 184 ≤ data.length := by
      rw [single_block_iff] at hblock
      omega
    rw [burstLimit, if_neg hblock] at h
    exact fecDecode_burst hlong hmax hF h.length hstart le_rfl (fun p hp => (h.byteAt_eq hp).symm) hcap

end EchoProtocol.Bursts
