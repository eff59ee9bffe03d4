import EchoProtocol.Fec

/-!
# Frames and their bits

A frame is three flags and a payload. On the channel it is a 16-bit header followed by the
bits of the payload, most significant bits first.
-/
namespace EchoProtocol.Frames
open Bytes Fec ReedSolomon

def SIZE_BUF : ℕ := 2048
def SIZE_BYTE : ℕ := 8

structure Frame where
  comp : Bool
  rohc : Bool
  fec : Bool
  payload : List UInt8
  deriving DecidableEq

/-- Bit 15 is the compression flag, 14 the header compression flag, 13 the error correction
flag, and the rest the payload length. -/
def header (f : Frame) : ℕ :=
  (f.comp.toNat <<< 15) ||| (f.rohc.toNat <<< 14) ||| (f.fec.toNat <<< 13) |||
    (f.payload.length &&& 0x1FFF)

def headerComp (header : ℕ) : Bool := header.testBit 15
def headerRohc (header : ℕ) : Bool := header.testBit 14
def headerFec (header : ℕ) : Bool := header.testBit 13
def headerLen (header : ℕ) : ℕ := header &&& 0x1FFF

/-- The low `n` bits of a word, the highest first. -/
def wordBits (n word : ℕ) : List Bool := (List.range n).map fun i => word.testBit (n - 1 - i)

def payloadBits (payload : List UInt8) : List Bool :=
  (List.range (payload.length * SIZE_BYTE)).map fun i =>
    (byteAt payload (i / 8)).toNat.testBit (7 - i % 8)

def frameBits (f : Frame) : List Bool := wordBits 16 (header f) ++ payloadBits f.payload

def isValidFecLen (len : ℕ) : Bool :=
  if len < 3 then false
  else if len ≤ FEC_RS_MAX_N + 2 then
    (List.range FEC_RS_MAX_N).any fun i => fecEncodedLen (i + 1) = len
  else if (len - 2) % FEC_RS_MAX_N = 0 then
    let nblocks := (len - 2) / FEC_RS_MAX_N
    let dataLen := nblocks * FEC_RS_MSGBLK
    fecEncodedLen dataLen = len
  else false

def isValidHeader (header : ℕ) : Bool :=
  let comp := headerComp header
  let rohc := headerRohc header
  let fec := headerFec header
  let len := headerLen header
  if comp && rohc then false
  else if comp && rohc && fec then false
  else if len = 0 ∨ len > SIZE_BUF then false
  else if fec && !isValidFecLen len then false
  else true

/-- `(byte << 1) | bit`. -/
def shiftIn (byte : UInt8) (bit : Bool) : UInt8 := (byte <<< 1) ||| (if bit then 1 else 0)

/-- The payload loop of `rb_to_tun`, from bit `i` on. -/
def packFrom : List UInt8 → ℕ → List Bool → List UInt8
  | payload, _, [] => payload
  | payload, i, bit :: bits =>
      packFrom (payload.set (i / 8) (shiftIn (byteAt payload (i / 8)) bit)) (i + 1) bits

/-- The payload array after all bits have been read into it. -/
def packBits (bits : List Bool) : List UInt8 :=
  packFrom (List.replicate (SIZE_BUF * 2) 0) 0 bits

theorem header_eq {f : Frame} (hlen : f.payload.length < 8192) :
    header f = f.comp.toNat * 32768 + f.rohc.toNat * 16384 + f.fec.toNat * 8192 +
      f.payload.length := by
  have hmask : f.payload.length &&& 0x1FFF = f.payload.length := by
    rw [show 0x1FFF = 2 ^ 13 - 1 from rfl, Nat.and_two_pow_sub_one_eq_mod, Nat.mod_eq_of_lt hlen]
  have hf := Bool.toNat_le f.fec
  have hr := Bool.toNat_le f.rohc
  unfold header
  rw [hmask, Nat.or_assoc, Nat.or_assoc,
    ← Nat.shiftLeft_add_eq_or_of_lt (by omega : f.payload.length < 2 ^ 13),
    ← Nat.shiftLeft_add_eq_or_of_lt (i := 14) (by rw [Nat.shiftLeft_eq]; omega),
    ← Nat.shiftLeft_add_eq_or_of_lt (i := 15) (by simp only [Nat.shiftLeft_eq]; omega)]
  simp only [Nat.shiftLeft_eq]
  ring

theorem header_lt {f : Frame} (hlen : f.payload.length < 8192) : header f < 2 ^ 16 := by
  have hc := Bool.toNat_le f.comp
  have hr := Bool.toNat_le f.rohc
  have hf := Bool.toNat_le f.fec
  rw [header_eq hlen]
  omega

theorem header_fields {f : Frame} (hlen : f.payload.length < 8192) :
    headerComp (header f) = f.comp ∧ headerRohc (header f) = f.rohc ∧
      headerFec (header f) = f.fec ∧ headerLen (header f) = f.payload.length := by
  have hmask : headerLen (header f) = header f % 2 ^ 13 := Nat.and_two_pow_sub_one_eq_mod _ 13
  unfold headerComp headerRohc headerFec
  rw [hmask, header_eq hlen, Nat.testBit_eq_decide_div_mod_eq, Nat.testBit_eq_decide_div_mod_eq,
    Nat.testBit_eq_decide_div_mod_eq]
  rcases f with ⟨comp, rohc, fec, payload⟩
  simp only at hlen ⊢
  refine ⟨?_, ?_, ?_, ?_⟩
  · cases comp <;> cases rohc <;> cases fec <;> simp <;> omega
  · cases comp <;> cases rohc <;> cases fec <;> simp <;> omega
  · cases comp <;> cases rohc <;> cases fec <;> simp <;> omega
  · cases comp <;> cases rohc <;> cases fec <;> simp <;> omega

/-- The value of a list of bits, the highest first. -/
def bitsValue (bits : List Bool) : ℕ := bits.foldl (fun acc bit => 2 * acc + bit.toNat) 0

theorem bitsValue_concat (bits : List Bool) (bit : Bool) :
    bitsValue (bits ++ [bit]) = 2 * bitsValue bits + bit.toNat := by
  simp [bitsValue]

theorem bitsValue_lt (bits : List Bool) : bitsValue bits < 2 ^ bits.length := by
  induction bits using List.reverseRecOn with
  | nil => simp [bitsValue]
  | append_singleton bits bit ih =>
    have hb := Bool.toNat_le bit
    rw [bitsValue_concat, List.length_append, List.length_singleton, pow_succ]
    omega

theorem wordBits_succ (n word : ℕ) :
    wordBits (n + 1) word = wordBits n (word / 2) ++ [word.testBit 0] := by
  unfold wordBits
  rw [List.range_succ, List.map_append, List.map_singleton]
  congr 1
  · refine List.map_congr_left fun i hi => ?_
    have hi' := List.mem_range.mp hi
    rw [← Nat.testBit_succ, show n + 1 - 1 - i = n - 1 - i + 1 by omega]
  · rw [show n + 1 - 1 - n = 0 by omega]

theorem bitsValue_wordBits (n word : ℕ) : bitsValue (wordBits n word) = word % 2 ^ n := by
  induction n generalizing word with
  | zero => simp [wordBits, bitsValue, Nat.mod_one]
  | succ n ih =>
    rw [wordBits_succ, bitsValue_concat, ih, Nat.testBit_zero, pow_succ]
    have hbit : (decide (word % 2 = 1)).toNat = word % 2 := by
      rcases Nat.mod_two_eq_zero_or_one word with h | h <;> simp [h]
    rw [hbit, Nat.mul_comm (2 ^ n) 2, Nat.mod_mul]
    omega

@[simp] theorem wordBits_length (n word : ℕ) : (wordBits n word).length = n := by
  simp [wordBits]

theorem bitsValue_take_header {header : ℕ} (hlt : header < 2 ^ 16) (rest : List Bool) :
    bitsValue ((wordBits 16 header ++ rest).take 16) = header := by
  rw [List.take_left' (wordBits_length 16 header), bitsValue_wordBits, Nat.mod_eq_of_lt hlt]

@[simp] theorem payloadBits_length (payload : List UInt8) :
    (payloadBits payload).length = payload.length * 8 := by
  simp [payloadBits, SIZE_BYTE]

@[simp] theorem frameBits_length (f : Frame) :
    (frameBits f).length = 16 + f.payload.length * 8 := by
  simp [frameBits]

theorem payloadBits_concat (payload : List UInt8) (byte : UInt8) :
    payloadBits (payload ++ [byte]) = payloadBits payload ++ wordBits 8 byte.toNat := by
  unfold payloadBits wordBits SIZE_BYTE
  rw [List.length_append, List.length_singleton, Nat.add_mul, one_mul, List.range_add,
    List.map_append, List.map_map]
  congr 1
  · refine List.map_congr_left fun i hi => ?_
    have hi' := List.mem_range.mp hi
    rw [byteAt_append_left (by omega)]
  · refine List.map_congr_left fun i hi => ?_
    have hi' := List.mem_range.mp hi
    have hdiv : (payload.length * 8 + i) / 8 = payload.length := by omega
    rw [Function.comp_apply, hdiv, byteAt_append_right le_rfl, Nat.sub_self, byteAt_cons_zero,
      show 7 - (payload.length * 8 + i) % 8 = 8 - 1 - i by omega]

theorem shiftIn_wordBits (byte : UInt8) : (wordBits 8 byte.toNat).foldl shiftIn 0 = byte := by
  have hall : ∀ n < 256, (wordBits 8 n).foldl shiftIn 0 = n.toUInt8 := by decide +kernel
  rw [hall _ byte.toNat_lt]
  exact UInt8.ofNat_toNat

/-- The bits of one byte are shifted into one cell. -/
theorem packFrom_byte {payload : List UInt8} {k j : ℕ} {bits : List Bool} (hk : k < payload.length)
    (hj : j + bits.length ≤ 8) : packFrom payload (8 * k + j) bits =
      payload.set k (bits.foldl shiftIn (byteAt payload k)) := by
  induction bits generalizing payload j with
  | nil =>
    refine ext_byteAt (by simp [packFrom]) fun i _ => ?_
    rw [packFrom, List.foldl_nil, byteAt_set]
    split_ifs with h
    · rw [h.1]
    · rfl
  | cons bit bits ih =>
    rw [List.length_cons] at hj
    have hcell : (8 * k + j) / 8 = k := by omega
    rw [packFrom, hcell, Nat.add_assoc, ih (by rw [List.length_set]; exact hk) (by omega),
      List.set_set, byteAt_set, if_pos ⟨rfl, hk⟩, List.foldl_cons]

theorem packFrom_append (payload : List UInt8) (i : ℕ) (bits bits' : List Bool) :
    packFrom payload i (bits ++ bits') = packFrom (packFrom payload i bits) (i + bits.length) bits' := by
  induction bits generalizing payload i with
  | nil => rfl
  | cons bit bits ih =>
    rw [List.cons_append, packFrom, packFrom, ih, List.length_cons, Nat.add_assoc i 1,
      Nat.add_comm 1]

/-- The receiver packs the bits of a payload into the bytes they came from. -/
theorem packBits_payloadBits {payload : List UInt8} (hlen : payload.length ≤ SIZE_BUF * 2) :
    packBits (payloadBits payload) =
      payload ++ List.replicate (SIZE_BUF * 2 - payload.length) 0 := by
  unfold packBits
  induction payload using List.reverseRecOn with
  | nil => rfl
  | append_singleton payload byte ih =>
    rw [List.length_append, List.length_singleton] at hlen
    obtain ⟨m, hm⟩ : ∃ m, SIZE_BUF * 2 - payload.length = m + 1 :=
      ⟨SIZE_BUF * 2 - payload.length - 1, by omega⟩
    have hrest : SIZE_BUF * 2 - (payload ++ [byte]).length = m := by
      rw [List.length_append, List.length_singleton]
      omega
    have hzero : byteAt (payload ++ List.replicate (m + 1) 0) payload.length = 0 := by
      rw [byteAt_append_right le_rfl, byteAt_replicate_zero]
    rw [payloadBits_concat, packFrom_append, ih (by omega), hm, payloadBits_length, zero_add,
      Nat.mul_comm, ← Nat.add_zero (8 * payload.length), packFrom_byte (by simp) (by simp), hzero,
      shiftIn_wordBits, hrest, List.set_append_right _ _ le_rfl, Nat.sub_self, List.replicate_succ,
      List.set_cons_zero, List.append_assoc, List.singleton_append]

end EchoProtocol.Frames
