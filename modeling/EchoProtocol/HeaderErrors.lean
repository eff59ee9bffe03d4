import EchoProtocol.CyclicCode
import EchoProtocol.DamagedHeaders
import EchoProtocol.Receive

/-!
# Compressed headers with several flipped bits

The CRC of a compressed header is a cyclic code. Its generator has the root one, and no two powers
of `X` agree modulo it within the length of a header.
-/
namespace EchoProtocol.HeaderErrors
open Polynomial CyclicCode Bytes Rohc Frames Transmit Receive DamagedHeaders

/-- The generator of `crc8`. -/
noncomputable def generator : (ZMod 2)[X] := X ^ 8 + X ^ 2 + X + 1

/-- The polynomial of a byte. -/
noncomputable def val (byte : UInt8) : (ZMod 2)[X] := poly (wordBits 8 byte.toNat)

theorem degree_generator : generator.degree = 8 := by
  unfold generator
  compute_degree!

theorem coeff_generator : generator.coeff 0 ≠ 0 := by
  simp [generator, coeff_X]

theorem eval_generator : generator.eval 1 = 0 := by
  simp only [generator, eval_add, eval_pow, eval_X, eval_one, one_pow]
  decide

theorem wordBits_xor (a b : UInt8) : wordBits 8 (a ^^^ b).toNat =
    List.zipWith xor (wordBits 8 a.toNat) (wordBits 8 b.toNat) := by
  simp [wordBits, List.zipWith_map, Nat.testBit_xor]

theorem val_xor (a b : UInt8) : val (a ^^^ b) = val a + val b := by
  rw [val, wordBits_xor, poly_xor (by simp), val, val]

theorem val_eq_zero : ∀ byte : UInt8, (wordBits 8 byte.toNat).count true = 0 → byte = 0 := by
  decide +kernel

theorem val_inj (a b : UInt8) (h : AdjoinRoot.mk generator (val a) = AdjoinRoot.mk generator (val b)) :
    a = b := by
  rw [AdjoinRoot.mk_eq_mk, CharTwo.sub_eq_add, ← val_xor] at h
  have hdeg : (val (a ^^^ b)).degree < generator.degree := by
    rw [degree_generator]
    exact (degree_poly_lt _).trans_eq (by simp)
  have hzero := val_eq_zero _ ((poly_eq_zero_iff _).mp (eq_zero_of_dvd_of_degree_lt h hdeg))
  exact UInt8.xor_eq_zero_iff.mp hzero

theorem wordBits_crcBit : ∀ byte : UInt8,
    let low := (wordBits 8 byte.toNat).tail
    wordBits 8 byte.toNat = byte.toNat.testBit 7 :: low ∧
      wordBits 8 (crcBit byte).toNat = List.zipWith xor (low ++ [false])
        (if byte.toNat.testBit 7 then wordBits 8 0x07 else List.replicate 8 false) := by
  decide +kernel

theorem poly_low : poly (wordBits 8 0x07) = X ^ 2 + X + 1 := by
  have hbits : wordBits 8 0x07 = [false, false, false, false, false, true, true, true] := by decide
  simp [hbits, poly, add_assoc]

theorem crcBit_val (byte : UInt8) : AdjoinRoot.mk generator (val (crcBit byte)) =
    AdjoinRoot.mk generator (X * val byte) := by
  obtain ⟨hbyte, hnext⟩ := wordBits_crcBit byte
  generalize (wordBits 8 byte.toNat).tail = low at hbyte hnext
  have hlow : low.length = 7 := by simpa using (congrArg List.length hbyte).symm
  have hmoved : poly (low ++ [false]) = X * poly low := by simp [poly_append, poly]
  rw [AdjoinRoot.mk_eq_mk, val, hnext, val, hbyte, poly, hlow]
  cases byte.toNat.testBit 7 with
  | false =>
    simp only [Bool.false_eq_true, if_false]
    have hzero : poly (List.replicate 8 false) = 0 := (poly_eq_zero_iff _).mpr (by simp)
    rw [poly_xor (by simp [hlow]), hmoved, hzero]
    simp
  | true =>
    simp only [if_true]
    rw [poly_xor (by simp [hlow]), hmoved, poly_low]
    refine ⟨1, ?_⟩
    rw [generator]
    linear_combination -CharTwo.add_self_eq_zero (X ^ 8 : (ZMod 2)[X])

theorem crcBit_iterate_val (n : ℕ) (byte : UInt8) :
    AdjoinRoot.mk generator (val (crcBit^[n] byte)) = AdjoinRoot.mk generator (X ^ n * val byte) := by
  induction n with
  | zero => simp
  | succ n ih =>
    rw [Function.iterate_succ_apply', crcBit_val, map_mul, ih, ← map_mul, ← mul_assoc, pow_succ']

theorem crcByte_val (crc byte : UInt8) : AdjoinRoot.mk generator (val (crcByte crc byte)) =
    AdjoinRoot.mk generator (X ^ 8 * (val crc + val byte)) := by
  rw [crcByte, crcBit_iterate_val, val_xor]

/-- `crc8` as a register. -/
noncomputable def crcRegister : Register generator UInt8 UInt8 where
  width := 8
  val := val
  sym := val
  absorb := crcByte
  absorb_val := crcByte_val
  val_inj := val_inj

theorem message_eq (bytes : List UInt8) : crcRegister.message bytes = poly (payloadBits bytes) := by
  induction bytes using List.reverseRecOn with
  | nil => rfl
  | append_singleton bytes byte ih =>
    rw [crcRegister.message_concat, ih, payloadBits_concat, poly_append, wordBits_length]
    rfl

theorem crcBit_iterate_one : ∀ d < 127, 0 < d → crcBit^[d] 1 ≠ 1 := by
  decide +kernel

theorem generator_period (d : ℕ) (hpos : 0 < d) (hd : d < 127) : ¬ generator ∣ X ^ d + 1 := by
  intro hdvd
  have hone : val 1 = 1 := by
    have hbits : wordBits 8 (1 : UInt8).toNat = List.replicate 7 false ++ [true] := by decide
    rw [val, hbits]
    simp [poly]
  refine crcBit_iterate_one d hd hpos (val_inj _ _ ?_)
  rw [crcBit_iterate_val, hone, mul_one, AdjoinRoot.mk_eq_mk, CharTwo.sub_eq_add]
  exact hdvd

theorem payloadBits_append (xs ys : List UInt8) :
    payloadBits (xs ++ ys) = payloadBits xs ++ payloadBits ys := by
  induction ys using List.reverseRecOn with
  | nil => simp [payloadBits]
  | append_singleton ys y ih =>
    rw [← List.append_assoc, payloadBits_concat, payloadBits_concat, ih, List.append_assoc]

/-- The bits in which two arrays of one length differ. -/
def errors (xs ys : List UInt8) : List Bool := List.zipWith xor (payloadBits xs) (payloadBits ys)

theorem errors_length {xs ys : List UInt8} (hlen : xs.length = ys.length) :
    (errors xs ys).length = xs.length * 8 := by
  simp [errors, hlen]

theorem errors_append {xs ys xs' ys' : List UInt8} (hlen : xs.length = ys.length) :
    errors (xs ++ xs') (ys ++ ys') = errors xs ys ++ errors xs' ys' := by
  rw [errors, payloadBits_append, payloadBits_append, List.zipWith_append (by simp [hlen])]
  rfl

theorem errors_self (xs : List UInt8) : errors xs xs = List.replicate (xs.length * 8) false := by
  simp [errors, List.zipWith_self]

theorem poly_errors {xs ys : List UInt8} (hlen : xs.length = ys.length) :
    poly (errors xs ys) = poly (payloadBits xs) + poly (payloadBits ys) := poly_xor (by simp [hlen])

theorem payloadBits_singleton (byte : UInt8) : payloadBits [byte] = wordBits 8 byte.toNat :=
  payloadBits_concat [] byte

theorem errors_singleton_length (a b : UInt8) : (errors [a] [b]).length = 8 := errors_length rfl

theorem poly_errors_singleton (a b : UInt8) : poly (errors [a] [b]) = val a + val b := by
  have hsum : poly (errors [a] [b]) = poly (payloadBits [a]) + poly (payloadBits [b]) := poly_errors rfl
  rw [hsum, payloadBits_singleton, payloadBits_singleton, val, val]

theorem crc8_eq_iff {xs ys : List UInt8} (hlen : xs.length = ys.length) (r : UInt8) :
    crc8 ys = r ↔ generator ∣ poly (errors xs ys ++ errors [crc8 xs] [r]) := by
  have hiff := crcRegister.foldl_eq_iff 0xFF r hlen
  rw [message_eq, message_eq, ← poly_errors hlen] at hiff
  rw [poly_append, errors_singleton_length, poly_errors_singleton]
  exact hiff

theorem errors_cons (a b : UInt8) (xs ys : List UInt8) :
    errors (a :: xs) (b :: ys) = errors [a] [b] ++ errors xs ys :=
  (errors_append rfl : errors ([a] ++ xs) ([b] ++ ys) = _)

section Code
variable {p p' q q' : List UInt8} {b b' : UInt8}

/-- The error of a header, in which the CRC is the third byte, and that of its code, in which the
CRC comes last. -/
theorem count_code (hp : p.length = p'.length) :
    (errors (p ++ 0 :: q) (p' ++ 0 :: q') ++ errors [b] [b']).count true =
      (errors (p ++ b :: q) (p' ++ b' :: q')).count true := by
  rw [errors_append hp, errors_append hp, errors_cons 0 0 q q', errors_cons b b' q q', errors_self [0]]
  simp only [List.count_append, List.count_replicate]
  simp
  omega

/-- Up to three flips leave a wrong CRC. -/
theorem crc8_ne_of_few (hp : p.length = p'.length) (hq : q.length = q'.length)
    (hcrc : b = crc8 (p ++ 0 :: q)) (hshort : p.length + q.length ≤ 12)
    (hsome : true ∈ errors (p ++ b :: q) (p' ++ b' :: q'))
    (hfew : (errors (p ++ b :: q) (p' ++ b' :: q')).count true ≤ 3) : b' ≠ crc8 (p' ++ 0 :: q') := by
  have hlen : (p ++ 0 :: q).length = (p' ++ 0 :: q').length := by simp [hp, hq]
  have hpos := List.count_pos_iff.mpr hsome
  rw [ne_comm, Ne, crc8_eq_iff hlen, ← hcrc]
  rw [← count_code hp] at hpos hfew
  have hcode : (errors (p ++ 0 :: q) (p' ++ 0 :: q') ++ errors [b] [b']).length ≤ 127 := by
    rw [List.length_append, errors_length hlen, errors_singleton_length]
    simp only [List.length_append, List.length_cons]
    omega
  generalize errors (p ++ 0 :: q) (p' ++ 0 :: q') ++ errors [b] [b'] = code at hpos hfew hcode
  refine not_dvd_of_card_le_three coeff_generator eval_generator generator_period ?_ ?_ ?_
  · exact (degree_poly_lt code).trans_le (by exact_mod_cast hcode)
  · rw [Ne, poly_eq_zero_iff]
    omega
  · rwa [card_support_poly]

/-- So does a burst that leaves the CRC itself. -/
theorem crc8_ne_of_burst (hp : p.length = p'.length) (hq : q.length = q'.length)
    (hcrc : b = crc8 (p ++ 0 :: q)) (hsome : true ∈ errors (p ++ b :: q) (p' ++ b :: q')) {a : ℕ}
    (hburst : ∀ k, (errors (p ++ b :: q) (p' ++ b :: q'))[k]? = some true → a ≤ k ∧ k < a + 8) :
    b ≠ crc8 (p' ++ 0 :: q') := by
  have hlen : (p ++ 0 :: q).length = (p' ++ 0 :: q').length := by simp [hp, hq]
  have hsame : errors (p ++ 0 :: q) (p' ++ 0 :: q') = errors (p ++ b :: q) (p' ++ b :: q') := by
    rw [errors_append hp, errors_append hp, errors_cons 0 0 q q', errors_cons b b q q', errors_self [0],
      errors_self [b]]
    rfl
  have hnone : poly (errors [b] [b]) = 0 := by
    rw [errors_self]
    exact (poly_eq_zero_iff _).mpr (by simp)
  have hpos := List.count_pos_iff.mpr hsome
  rw [ne_comm, Ne, crc8_eq_iff hlen, ← hcrc, poly_append, hnone, add_zero, hsame]
  obtain ⟨j, mid, hmid, hshort⟩ := poly_window hburst
  have hne : poly mid ≠ 0 := fun hzero => by
    rw [hzero, mul_zero, poly_eq_zero_iff] at hmid
    omega
  rw [hmid, ← mul_assoc, ← pow_add]
  refine not_dvd_burst coeff_generator hne ((degree_poly_lt mid).trans_le ?_) _
  rw [degree_generator]
  exact_mod_cast hshort

end Code

theorem exists_around_crc {xs : List UInt8} (h : 2 < xs.length) : ∃ p q, p.length = 2 ∧
    q.length = xs.length - 3 ∧ xs = p ++ byteAt xs 2 :: q ∧ xs.set 2 0 = p ++ 0 :: q := by
  refine ⟨xs.take 2, xs.drop 3, ?_, List.length_drop, ?_, ?_⟩
  · rw [List.length_take]
    omega
  · rw [byteAt_eq_getElem h, List.getElem_cons_drop, List.take_append_drop]
  · rw [List.set_eq_take_append_cons_drop, if_pos h]

section Damaged
variable {s : ROHCState} {packet compressed damaged : List UInt8} {outLen : ℕ}

/-- The CRC does not look at the context. -/
theorem rohcDecompress_damaged (hout : (rohcCompress s packet outLen).1 = .ok compressed)
    (hne : compressed ≠ []) (hlen : damaged.length = compressed.length)
    (hflags : byteAt damaged 1 = byteAt compressed 1)
    (hsome : true ∈ errors (compressed.take (payloadStart compressed))
      (damaged.take (payloadStart compressed)))
    (hkind : (errors (compressed.take (payloadStart compressed))
        (damaged.take (payloadStart compressed))).count true ≤ 3 ∨
      byteAt damaged 2 = byteAt compressed 2 ∧
        ∃ a, ∀ k, (errors (compressed.take (payloadStart compressed))
          (damaged.take (payloadStart compressed)))[k]? = some true → a ≤ k ∧ k < a + 8)
    (past : ℕ → UInt8) (r : ROHCState) (tail : List UInt8) (compLen rebuiltLen : ℕ) :
    rohcDecompress past r (damaged ++ tail) compLen rebuiltLen = none := by
  have h := rohcCompress_packed hout hne
  have hn := h.length
  have htwo := two_lt_headerLen (byteAt compressed 1)
  have hnine := ipv4HeaderLen_le (byteAt compressed 1)
  have hcrc := h.crc
  rw [h.payloadStart_eq] at hsome hkind
  rw [rohcDecompress_eq, if_neg]
  rintro ⟨-, -, hcrc', -⟩
  rw [byteAt_append_left (by omega), byteAt_append_left (by omega), hflags,
    headerCrc_append tail (by omega), headerCrc_eq_take (by omega)] at hcrc'
  rw [headerCrc_eq_take hn] at hcrc
  generalize ipv4HeaderLen (byteAt compressed 1) = n at *
  have hheld : 2 < (compressed.take n).length := by
    rw [List.length_take]
    omega
  have hheld' : 2 < (damaged.take n).length := by
    rw [List.length_take]
    omega
  obtain ⟨p, q, hp, hq, hsplit, hzeroed⟩ := exists_around_crc hheld
  obtain ⟨p', q', hp', hq', hsplit', hzeroed'⟩ := exists_around_crc hheld'
  rw [byteAt_take htwo] at hsplit hsplit'
  rw [hzeroed] at hcrc
  rw [hzeroed'] at hcrc'
  rw [hsplit, hsplit'] at hsome hkind
  rw [List.length_take] at hq hq'
  rcases hkind with hfew | ⟨hsame, a, hburst⟩
  · exact crc8_ne_of_few (hp.trans hp'.symm) (by omega) hcrc (by omega) hsome hfew hcrc'
  · rw [hsame] at hsome hburst hcrc'
    exact crc8_ne_of_burst (hp.trans hp'.symm) (by omega) hcrc hsome hburst hcrc'

/-- A header that is damaged in at most three bits, or by a burst of at most eight bits that leaves
the CRC, is rejected whatever the receiver's context and the payload are, as long as its flags are
right, and the second attempt with a new context fails as well. -/
theorem damaged_header_rejected (lz4 : Lz4) (past : ℕ → UInt8) (isCompressed : Bool) (r : ROHCState)
    (hout : (rohcCompress s packet outLen).1 = .ok compressed) (hne : compressed ≠ [])
    (hlen : damaged.length = compressed.length) (hflags : byteAt damaged 1 = byteAt compressed 1)
    (hsome : true ∈ errors (compressed.take (payloadStart compressed))
      (damaged.take (payloadStart compressed)))
    (hkind : (errors (compressed.take (payloadStart compressed))
        (damaged.take (payloadStart compressed))).count true ≤ 3 ∨
      byteAt damaged 2 = byteAt compressed 2 ∧
        ∃ a, ∀ k, (errors (compressed.take (payloadStart compressed))
          (damaged.take (payloadStart compressed)))[k]? = some true → a ≤ k ∧ k < a + 8)
    (tail : List UInt8) (compLen : ℕ) :
    (rebuildPacket lz4 past true isCompressed r (damaged ++ tail) compLen).1 = none := by
  simp only [rebuildPacket, if_true, rohcDecompress_damaged hout hne hlen hflags hsome hkind]

end Damaged

/-- Three flips in the header of a packet, and another payload. -/
def thriceDamaged : List UInt8 := [0x01, 0x01, 0x2E, 0x80, 0x00, 0xAB]

theorem damaged_header_rejected_three :
    (rebuildPacket ⟨fun _ => [], fun _ => none⟩ (fun _ => 0) true false sharedContext
      (thriceDamaged ++ []) 6).1 = none := by
  have hstart : payloadStart unluckyCompressed = 5 := by decide
  have hlen : thriceDamaged.length = unluckyCompressed.length := by decide
  have hflags : byteAt thriceDamaged 1 = byteAt unluckyCompressed 1 := by decide
  have hthree : (errors (unluckyCompressed.take (payloadStart unluckyCompressed))
      (thriceDamaged.take (payloadStart unluckyCompressed))).count true = 3 := by
    rw [hstart]
    decide +kernel
  have hsome := List.count_pos_iff.mp (by rw [hthree]; decide)
  exact damaged_header_rejected ⟨fun _ => [], fun _ => none⟩ (fun _ => 0) false sharedContext
    unluckyPacket_compressed (by decide) hlen hflags hsome (.inl hthree.le) [] 6

end EchoProtocol.HeaderErrors
