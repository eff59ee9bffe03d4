import EchoProtocol.OnesComplement
import EchoProtocol.Bytes

/-!
# The IPv4 header checksum

`ip_checksum` is one's complement addition over the 16-bit words of a header, and a header
with its own checksum filled in verifies until one of its bytes changes.
-/
namespace EchoProtocol.IpChecksum
open Bytes OnesComplement

/-- One round of the summing loop on a 32-bit sum. -/
def addWord (sum word : ℕ) : ℕ :=
  let s := sum + word
  if s &&& 0xFFFF0000 ≠ 0 then (s &&& 0xFFFF) + (s >>> 16) else s

def wordAt (header : ℕ → UInt8) (i : ℕ) : ℕ :=
  ((header i).toNat <<< 8) ||| (header (i + 1)).toNat

/-- The words at the even offsets below `len`. -/
def words (header : ℕ → UInt8) (len : ℕ) : List ℕ :=
  (List.range ((len + 1) / 2)).map fun k => wordAt header (2 * k)

/-- `header` reads memory, so that a length beyond the array reads what lies behind it. -/
def ipChecksum (header : ℕ → UInt8) (len : ℕ) : ℕ :=
  0xFFFF ^^^ ((words header len).foldl addWord 0 &&& 0xFFFF)

theorem and_high_ne_zero {s : ℕ} (hs : s < 2 ^ 32) : s &&& 0xFFFF0000 ≠ 0 ↔ 2 ^ 16 ≤ s := by
  have hmask : ∀ i, Nat.testBit 0xFFFF0000 i = decide (16 ≤ i ∧ i < 32) := by
    intro i
    rw [show 0xFFFF0000 = (2 ^ 16 - 1) <<< 16 from rfl, Nat.testBit_shiftLeft,
      Nat.testBit_two_pow_sub_one]
    by_cases h : 16 ≤ i <;> simp [h]
    omega
  constructor
  · intro hne
    by_contra hlt
    apply hne
    refine Nat.eq_of_testBit_eq fun i => ?_
    rw [Nat.testBit_and, hmask, Nat.zero_testBit]
    by_cases hi : 16 ≤ i
    · rw [Nat.testBit_lt_two_pow ((not_le.mp hlt).trans_le (Nat.pow_le_pow_right (by omega) hi)),
        Bool.false_and]
    · simp [hi]
  · intro hle heq
    obtain ⟨i, hi, hbit⟩ := Nat.exists_ge_and_testBit_of_ge_two_pow hle
    have hi32 : i < 32 := by
      by_contra hge
      have hpow : 2 ^ 32 ≤ 2 ^ i := Nat.pow_le_pow_right (by omega) (not_lt.mp hge)
      rw [Nat.testBit_lt_two_pow (hs.trans_le hpow)] at hbit
      exact absurd hbit (by decide)
    have hz := congrArg (fun x => x.testBit i) heq
    simp [Nat.testBit_and, hbit, hmask, hi, hi32] at hz

theorem addWord_eq {sum word : ℕ} (hs : sum < 2 ^ 16) (hw : word < 2 ^ 16) :
    addWord sum word = wrapAdd (2 ^ 16) sum word := by
  have hlow : (sum + word) &&& 0xFFFF = (sum + word) % 2 ^ 16 := Nat.and_two_pow_sub_one_eq_mod _ 16
  simp only [addWord, wrapAdd]
  rw [hlow, Nat.shiftRight_eq_div_pow]
  exact if_congr (and_high_ne_zero (by omega)) rfl rfl

theorem wordAt_eq (header : ℕ → UInt8) (i : ℕ) :
    wordAt header i = (header i).toNat * 256 + (header (i + 1)).toNat := by
  unfold wordAt
  rw [← Nat.shiftLeft_add_eq_or_of_lt (header (i + 1)).toNat_lt, Nat.shiftLeft_eq]

theorem wordAt_lt (header : ℕ → UInt8) (i : ℕ) : wordAt header i < 2 ^ 16 := by
  have hhi := (header i).toNat_lt
  have hlo := (header (i + 1)).toNat_lt
  rw [wordAt_eq]
  omega

theorem words_lt {header : ℕ → UInt8} {len w : ℕ} (hw : w ∈ words header len) : w < 2 ^ 16 := by
  obtain ⟨k, -, rfl⟩ := List.mem_map.mp hw
  exact wordAt_lt header _

theorem words_split (header : ℕ → UInt8) {len k : ℕ} (hk : k < (len + 1) / 2) :
    words header len = (List.range k).map (fun j => wordAt header (2 * j)) ++
      wordAt header (2 * k) ::
        (List.range ((len + 1) / 2 - (k + 1))).map fun j => wordAt header (2 * (k + 1 + j)) := by
  obtain ⟨m, hm⟩ : ∃ m, (len + 1) / 2 = k + (m + 1) := ⟨(len + 1) / 2 - (k + 1), by omega⟩
  have hrest : (List.range (m + 1)).map (fun x => k + x) =
      k :: (List.range m).map fun j => k + 1 + j := by
    rw [List.range_succ_eq_map, List.map_cons, List.map_map]
    refine congrArg _ (List.map_congr_left fun j _ => ?_)
    rw [Function.comp_apply]
    omega
  rw [words, hm, List.range_add, List.map_append, hrest, List.map_cons, List.map_map,
    show k + (m + 1) - (k + 1) = m by omega]
  rfl

theorem foldl_addWord {ws : List ℕ} {s : ℕ} (hs : s < 2 ^ 16) (hw : ∀ w ∈ ws, w < 2 ^ 16) :
    ws.foldl addWord s = ws.foldl (wrapAdd (2 ^ 16)) s := by
  induction ws generalizing s with
  | nil => rfl
  | cons w ws ih =>
    have hwlt := hw w List.mem_cons_self
    rw [List.foldl_cons, List.foldl_cons, addWord_eq hs hwlt]
    exact ih (wrapAdd_lt hs hwlt) fun v hv => hw v (List.mem_cons_of_mem _ hv)

theorem wrapSum_words_lt (header : ℕ → UInt8) (len : ℕ) :
    wrapSum (2 ^ 16) (words header len) < 2 ^ 16 :=
  (foldl_wrapAdd (by norm_num) fun _ hw => words_lt hw).1

theorem xor_ones {x : ℕ} (hx : x < 2 ^ 16) : 0xFFFF ^^^ x = 2 ^ 16 - 1 - x := by
  refine Nat.eq_of_testBit_eq fun i => ?_
  rw [show 2 ^ 16 - 1 - x = 2 ^ 16 - (x + 1) by omega, Nat.testBit_two_pow_sub_succ hx,
    Nat.testBit_xor, show 0xFFFF = 2 ^ 16 - 1 from rfl, Nat.testBit_two_pow_sub_one]
  by_cases hi : i < 16
  · simp [hi]
  · have hpow : 2 ^ 16 ≤ 2 ^ i := Nat.pow_le_pow_right (by omega) (not_lt.mp hi)
    simp [hi, Nat.testBit_lt_two_pow (hx.trans_le hpow)]

theorem ipChecksum_eq (header : ℕ → UInt8) (len : ℕ) :
    ipChecksum header len = 2 ^ 16 - 1 - wrapSum (2 ^ 16) (words header len) := by
  have hlt := wrapSum_words_lt header len
  have hfold : (words header len).foldl addWord 0 = wrapSum (2 ^ 16) (words header len) :=
    foldl_addWord (by norm_num) fun _ hw => words_lt hw
  have hlow : wrapSum (2 ^ 16) (words header len) &&& 0xFFFF =
      wrapSum (2 ^ 16) (words header len) % 2 ^ 16 := Nat.and_two_pow_sub_one_eq_mod _ 16
  rw [ipChecksum, hfold, hlow, Nat.mod_eq_of_lt hlt, xor_ones hlt]

theorem ipChecksum_lt (header : ℕ → UInt8) (len : ℕ) : ipChecksum header len < 2 ^ 16 := by
  rw [ipChecksum_eq]
  omega

theorem ipChecksum_congr {header header' : ℕ → UInt8} {len : ℕ} (heven : len % 2 = 0)
    (h : ∀ i < len, header i = header' i) : ipChecksum header len = ipChecksum header' len := by
  have hwords : words header len = words header' len := by
    refine List.map_congr_left fun k hk => ?_
    have hk' := List.mem_range.mp hk
    unfold wordAt
    rw [h (2 * k) (by omega), h (2 * k + 1) (by omega)]
  rw [ipChecksum_eq, ipChecksum_eq, hwords]

def checksumHigh (c : ℕ) : UInt8 := ((c >>> 8) &&& 0xFF).toUInt8
def checksumLow (c : ℕ) : UInt8 := (c &&& 0xFF).toUInt8

/-- A header with its checksum field set to `c`. -/
def setChecksum (header : ℕ → UInt8) (c : ℕ) : ℕ → UInt8 :=
  Function.update (Function.update header 10 (checksumHigh c)) 11 (checksumLow c)

theorem wordAt_of_bytes {header : ℕ → UInt8} {i c : ℕ} (hhigh : header i = checksumHigh c)
    (hlow : header (i + 1) = checksumLow c) : wordAt header i = c % 2 ^ 16 := by
  have hhi : (checksumHigh c).toNat = c / 256 % 256 := by
    rw [checksumHigh, show 0xFF = 2 ^ 8 - 1 from rfl, Nat.and_two_pow_sub_one_eq_mod,
      Nat.shiftRight_eq_div_pow]
    exact UInt8.toNat_ofNat_of_lt' (by rw [UInt8.size]; omega)
  have hlo : (checksumLow c).toNat = c % 256 := by
    rw [checksumLow, show 0xFF = 2 ^ 8 - 1 from rfl, Nat.and_two_pow_sub_one_eq_mod]
    exact UInt8.toNat_ofNat_of_lt' (by rw [UInt8.size]; omega)
  rw [wordAt, hhigh, hlow, hhi, hlo, ← Nat.shiftLeft_add_eq_or_of_lt (Nat.mod_lt _ (by norm_num)),
    Nat.shiftLeft_eq]
  omega

theorem wordAt_setChecksum {header : ℕ → UInt8} {c : ℕ} (hc : c < 2 ^ 16) :
    wordAt (setChecksum header c) 10 = c := by
  have hhigh : setChecksum header c 10 = checksumHigh c :=
    (Function.update_of_ne (by decide) _ _).trans (Function.update_self _ _ _)
  rw [wordAt_of_bytes hhigh (Function.update_self _ _ _), Nat.mod_eq_of_lt hc]

theorem words_setChecksum (header : ℕ → UInt8) {c len : ℕ} (hc : c < 2 ^ 16) (hlen : 12 ≤ len) :
    words (setChecksum header c) len = (List.range 5).map (fun k => wordAt header (2 * k)) ++
      c :: (List.range ((len + 1) / 2 - 6)).map fun k => wordAt header (2 * (6 + k)) := by
  have hother : ∀ k, k ≠ 5 → wordAt (setChecksum header c) (2 * k) = wordAt header (2 * k) := by
    intro k hk
    unfold wordAt setChecksum
    rw [Function.update_of_ne (by omega), Function.update_of_ne (by omega),
      Function.update_of_ne (by omega), Function.update_of_ne (by omega)]
  have hleft : ∀ k ∈ List.range 5, wordAt (setChecksum header c) (2 * k) = wordAt header (2 * k) :=
    fun k hk => hother k (List.mem_range.mp hk).ne
  have hright : ∀ k ∈ List.range ((len + 1) / 2 - 6),
      wordAt (setChecksum header c) (2 * (6 + k)) = wordAt header (2 * (6 + k)) :=
    fun k _ => hother _ (by omega)
  rw [words_split _ (by omega : 5 < (len + 1) / 2), wordAt_setChecksum hc,
    List.map_congr_left hleft]
  exact congrArg _ (congrArg _ (List.map_congr_left hright))

theorem ipChecksum_setChecksum {header : ℕ → UInt8} {len : ℕ} (hlen : 12 ≤ len) :
    ipChecksum (setChecksum header (ipChecksum (setChecksum header 0) len)) len = 0 := by
  have hlt := ipChecksum_lt (setChecksum header 0) len
  have hzero := words_setChecksum header (by norm_num : (0 : ℕ) < 2 ^ 16) hlen
  have hwords : ∀ w ∈ (List.range 5).map (fun k => wordAt header (2 * k)) ++
      (List.range ((len + 1) / 2 - 6)).map fun k => wordAt header (2 * (6 + k)), w < 2 ^ 16 := by
    intro w hw
    rcases List.mem_append.mp hw with h | h
    · obtain ⟨k, -, rfl⟩ := List.mem_map.mp h
      exact wordAt_lt header _
    · obtain ⟨k, -, rfl⟩ := List.mem_map.mp h
      exact wordAt_lt header _
  rw [ipChecksum_eq, words_setChecksum _ hlt hlen, ipChecksum_eq, hzero,
    wrapSum_complement (by norm_num) hwords, Nat.sub_self]

theorem running_sum_le (header : ℕ → UInt8) (len n : ℕ) :
    ((words header len).take n).foldl addWord 0 ≤ 0xFFFF := by
  have hw : ∀ w ∈ (words header len).take n, w < 2 ^ 16 :=
    fun w hw => words_lt (List.mem_of_mem_take hw)
  rw [foldl_addWord (by norm_num) hw]
  exact Nat.le_of_lt_succ (foldl_wrapAdd (by norm_num) hw).1

/-- Two words that differ in one of their bytes never have the same value: the two names of
zero differ in both. -/
theorem wordAt_update_not_modEq {header : ℕ → UInt8} {i : ℕ} {b : UInt8} (hb : b ≠ header i) :
    ¬ wordAt header (2 * (i / 2)) ≡ wordAt (Function.update header i b) (2 * (i / 2))
      [MOD 2 ^ 16 - 1] := by
  intro hmod
  have hne : b.toNat ≠ (header i).toNat := fun h => hb (UInt8.toNat.inj h)
  have hblt := b.toNat_lt
  have hilt := (header i).toNat_lt
  have hcases := eq_or_zeros_of_modEq (wordAt_lt _ _) (wordAt_lt _ _) hmod
  rw [wordAt_eq, wordAt_eq] at hcases
  rcases Nat.even_or_odd' i with ⟨k, rfl | rfl⟩
  · have hlt := (header (2 * k + 1)).toNat_lt
    rw [show 2 * k / 2 = k by omega, Function.update_self, Function.update_of_ne (by omega)]
      at hcases
    omega
  · have hlt := (header (2 * k)).toNat_lt
    rw [show (2 * k + 1) / 2 = k by omega, Function.update_self, Function.update_of_ne (by omega)]
      at hcases
    omega

/-- Any change of one byte changes the checksum. -/
theorem ipChecksum_update_ne {header : ℕ → UInt8} {len i : ℕ} {b : UInt8} (hi : i < len)
    (hb : b ≠ header i) : ipChecksum (Function.update header i b) len ≠ ipChecksum header len := by
  have hk : i / 2 < (len + 1) / 2 := by omega
  have hother : ∀ k, k ≠ i / 2 →
      wordAt (Function.update header i b) (2 * k) = wordAt header (2 * k) := by
    intro k hki
    unfold wordAt
    rw [Function.update_of_ne (by omega), Function.update_of_ne (by omega)]
  have hsum : wrapSum (2 ^ 16) (words (Function.update header i b) len) ≠
      wrapSum (2 ^ 16) (words header len) := by
    have hw : ∀ w ∈ words header len, w < 2 ^ 16 := fun w hw => words_lt hw
    rw [words_split header hk] at hw ⊢
    rw [words_split (Function.update header i b) hk,
      List.map_congr_left fun k hk => hother k (List.mem_range.mp hk).ne,
      List.map_congr_left fun k _ => hother (i / 2 + 1 + k) (by omega)]
    exact wrapSum_replace_ne hw (wordAt_lt _ _) (wordAt_update_not_modEq hb)
  have hlt := wrapSum_words_lt header len
  have hlt' := wrapSum_words_lt (Function.update header i b) len
  rw [ipChecksum_eq, ipChecksum_eq]
  omega

/-- `header` with bit `b` of byte `i` inverted. -/
def flipBit (header : ℕ → UInt8) (i b : ℕ) : ℕ → UInt8 :=
  Function.update header i (header i ^^^ (1 <<< b).toUInt8)

/-- Insertion and verification agree, any single flipped bit is noticed afterwards, and no
sum ever needs more than a word. -/
theorem checksum_verifies_and_detects {header : ℕ → UInt8} {len : ℕ} (hlen : 12 ≤ len) :
    let filled := setChecksum header (ipChecksum (setChecksum header 0) len)
    ipChecksum filled len = 0 ∧
      (∀ i < len, ∀ b < 8, ipChecksum (flipBit filled i b) len ≠ 0) ∧
      ∀ header n, ((words header len).take n).foldl addWord 0 ≤ 0xFFFF := by
  intro filled
  have hzero : ipChecksum filled len = 0 := ipChecksum_setChecksum hlen
  refine ⟨hzero, fun i hi b hb => ?_, fun header n => running_sum_le header len n⟩
  rw [← hzero]
  exact ipChecksum_update_ne hi (xor_bit_ne hb (filled i))

theorem checksum_verifies_and_detects_twelve :
    let filled := setChecksum (fun _ => 0xFF) (ipChecksum (setChecksum (fun _ => 0xFF) 0) 12)
    ipChecksum filled 12 = 0 ∧
      (∀ i < 12, ∀ b < 8, ipChecksum (flipBit filled i b) 12 ≠ 0) ∧
      ∀ header n, ((words header 12).take n).foldl addWord 0 ≤ 0xFFFF :=
  checksum_verifies_and_detects (by decide)

end EchoProtocol.IpChecksum
