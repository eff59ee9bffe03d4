import EchoProtocol.Scrambling

/-!
# Descrambling from another register state

The feedback never sees the data, so two registers that differ keep differing: the bits that
they add to the stream obey one recurrence, and 17 of them in a row determine the register.
A stream comes back only as far as those bits agree.
-/
namespace EchoProtocol.Scrambling

/-- The receive scrambler gives back every bit of the stream from the 18th on. -/
def Recovers (s t : Scrambler) (bits : List Bool) : Prop :=
  ∀ i, 17 ≤ i → i < bits.length → (scrambleBits t (scrambleBits s bits))[i]? = bits[i]?

def stateBit (s : Scrambler) (i : ℕ) : Bool := s.state.toBitVec.getLsbD i

/-- The bit that the register adds to bit `n` of a stream. -/
def keyBit (s : Scrambler) (n : ℕ) : Bool := stateBit (after s (n + 1)) 0

theorem getLsbD_and_one (x : BitVec 32) (k : ℕ) :
    (x &&& 1#32).getLsbD k = (decide (k = 0) && x.getLsbD 0) := by
  cases k <;> simp

theorem advance_toBitVec (s : Scrambler) : (advance s).state.toBitVec =
    (s.state.toBitVec <<< 1 ||| (((s.state.toBitVec >>> 16) &&& 1#32) ^^^
      ((s.state.toBitVec >>> 11) &&& 1#32))) &&& 131071#32 := rfl

theorem stateBit_advance (s : Scrambler) (i : ℕ) : stateBit (advance s) i =
    (decide (i < 17) && if i = 0 then stateBit s 16 ^^ stateBit s 11 else stateBit s (i - 1)) := by
  have hmask : (131071#32).getLsbD i = decide (i < 17) := by
    rw [show 131071#32 = BitVec.setWidth 32 (BitVec.allOnes 17) from rfl, BitVec.getLsbD_setWidth,
      BitVec.getLsbD_allOnes]
    grind
  unfold stateBit
  rw [advance_toBitVec, BitVec.getLsbD_and, BitVec.getLsbD_or, BitVec.getLsbD_shiftLeft,
    BitVec.getLsbD_xor, getLsbD_and_one, getLsbD_and_one, hmask, BitVec.getLsbD_ushiftRight,
    BitVec.getLsbD_ushiftRight]
  rcases Nat.eq_zero_or_pos i with rfl | hi
  · simp
  · by_cases h17 : i < 17
    · simp [h17, show i ≠ 0 by omega, show i < 32 by omega, show ¬ i < 1 by omega]
    · simp [h17]

theorem scramblerProcess_fst (s : Scrambler) (bit : Bool) :
    (scramblerProcess s bit).1 = (bit ^^ stateBit (advance s) 0) := by
  have hlow : ∀ x : UInt32, (x &&& 1 != 0) = x.toBitVec.getLsbD 0 := by
    intro x
    have hval : x &&& 1 = if x.toBitVec.getLsbD 0 then 1 else 0 := by
      rw [← UInt32.toBitVec_inj]
      change x.toBitVec &&& 1#32 = _
      rw [BitVec.and_one_eq_setWidth_ofBool_getLsbD]
      cases x.toBitVec.getLsbD 0 <;> rfl
    rw [hval]
    cases x.toBitVec.getLsbD 0 <;> rfl
  simp only [scramblerProcess, stateBit]
  rw [hlow]

theorem eq_of_stateBits {s t : Scrambler} (hs : s.state.toNat < 2 ^ 17)
    (ht : t.state.toNat < 2 ^ 17) (h : ∀ i < 17, stateBit s i = stateBit t i) : s = t := by
  have hhigh : ∀ u : Scrambler, u.state.toNat < 2 ^ 17 → ∀ i, 17 ≤ i → stateBit u i = false := by
    intro u hu i hi
    have hpow : 2 ^ 17 ≤ 2 ^ i := Nat.pow_le_pow_right (by norm_num) hi
    exact Nat.testBit_lt_two_pow (hu.trans_le hpow)
  have hstate : s.state.toBitVec = t.state.toBitVec := by
    refine BitVec.eq_of_getLsbD_eq fun i _ => ?_
    rcases Nat.lt_or_ge i 17 with hlt | hge
    · exact h i hlt
    · exact (hhigh s hs i hge).trans (hhigh t ht i hge).symm
  cases s
  cases t
  exact congrArg _ (UInt32.toBitVec_inj.mp hstate)

/-- A register step can be undone. -/
theorem stateBits_of_advance {s t : Scrambler}
    (h : ∀ i < 17, stateBit (advance s) i = stateBit (advance t) i) :
    ∀ i < 17, stateBit s i = stateBit t i := by
  have hlow : ∀ i < 16, stateBit s i = stateBit t i := by
    intro i hi
    have hnext := h (i + 1) (by omega)
    rw [stateBit_advance, stateBit_advance] at hnext
    simpa [show i + 1 < 17 by omega] using hnext
  intro i hi
  rcases Nat.lt_or_ge i 16 with hlt | hge
  · exact hlow i hlt
  · have hfeedback := h 0 (by omega)
    rw [stateBit_advance, stateBit_advance] at hfeedback
    rw [show i = 16 by omega]
    simpa [hlow 11 (by omega)] using hfeedback

theorem stateBits_of_after {s t : Scrambler} (n : ℕ)
    (h : ∀ i < 17, stateBit (after s n) i = stateBit (after t n) i) :
    ∀ i < 17, stateBit s i = stateBit t i := by
  induction n with
  | zero => exact h
  | succ n ih =>
    rw [after_succ, after_succ] at h
    exact ih (stateBits_of_advance h)

/-- The register holds the key bits that it produced last, and behind them its old bits. -/
theorem stateBit_after (s : Scrambler) {n i : ℕ} (hi : i < 17) :
    stateBit (after s n) i = if i < n then keyBit s (n - 1 - i) else stateBit s (i - n) := by
  induction n generalizing i with
  | zero => rfl
  | succ n ih =>
    cases i with
    | zero => rfl
    | succ i =>
      rw [after_succ, stateBit_advance]
      simp only [hi, decide_true, Bool.true_and, Nat.add_eq_zero_iff, one_ne_zero, and_false,
        if_false, Nat.add_sub_cancel, Nat.add_lt_add_iff_right]
      rw [ih (by omega)]
      split_ifs with hlt
      · congr 1
        omega
      · congr 1
        omega

theorem keyBit_eq (s : Scrambler) (n : ℕ) :
    keyBit s n = (stateBit (after s n) 16 ^^ stateBit (after s n) 11) := by
  rw [keyBit, after_succ, stateBit_advance]
  rfl

theorem keyBit_recurrence (s : Scrambler) (n : ℕ) :
    keyBit s (n + 17) = (keyBit s n ^^ keyBit s (n + 5)) := by
  rw [keyBit_eq s (n + 17), stateBit_after s (by omega), stateBit_after s (by omega),
    if_pos (by omega), if_pos (by omega)]
  rfl

theorem keyBit_of_lt (s : Scrambler) {n : ℕ} (hn : n < 12) :
    keyBit s n = (stateBit s (16 - n) ^^ stateBit s (11 - n)) := by
  rw [keyBit_eq, stateBit_after s (by omega), stateBit_after s (by omega), if_neg (by omega),
    if_neg (by omega)]

theorem keyBit_of_lt_seventeen (s : Scrambler) {n : ℕ} (hn : n < 5) :
    keyBit s (n + 12) = (stateBit s (4 - n) ^^ keyBit s n) := by
  rw [keyBit_eq, stateBit_after s (by omega), stateBit_after s (by omega), if_neg (by omega),
    if_pos (by omega), show 16 - (n + 12) = 4 - n by omega, show n + 12 - 1 - 11 = n by omega]

/-- Key bit `17 + j` in terms of the register the stream started with. -/
def freshBit (s : Scrambler) (j : ℕ) : Bool :=
  if j < 7 then stateBit s (16 - j) ^^ stateBit s (6 - j)
  else stateBit s (16 - j) ^^ stateBit s (23 - j) ^^ stateBit s (18 - j)

theorem xor_cancel (a b c : Bool) : ((a ^^ b) ^^ (b ^^ c)) = (a ^^ c) := by
  cases a <;> cases b <;> cases c <;> rfl

theorem keyBit_fresh (s : Scrambler) {j : ℕ} (hj : j < 17) : keyBit s (j + 17) = freshBit s j := by
  have hfirst : ∀ j < 7, keyBit s (j + 17) = (stateBit s (16 - j) ^^ stateBit s (6 - j)) := by
    intro j hj
    rw [keyBit_recurrence, keyBit_of_lt s (by omega), keyBit_of_lt s (by omega),
      show 16 - (j + 5) = 11 - j by omega, show 11 - (j + 5) = 6 - j by omega, xor_cancel]
  unfold freshBit
  split_ifs with h7
  · exact hfirst j h7
  · rcases Nat.lt_or_ge j 12 with h12 | h12
    · obtain ⟨i, rfl⟩ := Nat.exists_eq_add_of_le' (not_lt.mp h7)
      rw [keyBit_recurrence, keyBit_of_lt s h12, show i + 7 + 5 = i + 12 by omega,
        keyBit_of_lt_seventeen s (by omega), keyBit_of_lt s (by omega),
        show 11 - (i + 7) = 4 - i by omega, show 23 - (i + 7) = 16 - i by omega,
        show 18 - (i + 7) = 11 - i by omega, xor_cancel, Bool.xor_assoc]
    · obtain ⟨i, rfl⟩ := Nat.exists_eq_add_of_le' h12
      rw [keyBit_recurrence, keyBit_of_lt_seventeen s (by omega), keyBit_of_lt s (by omega),
        show i + 12 + 5 = i + 17 by omega, hfirst i (by omega),
        show 16 - (i + 12) = 4 - i by omega, show 23 - (i + 12) = 11 - i by omega,
        show 18 - (i + 12) = 6 - i by omega, Bool.xor_comm (stateBit s (16 - i)),
        Bool.xor_assoc, xor_cancel, Bool.xor_assoc]

/-- Key bits from the 18th on agree as far as their first 17 do. -/
theorem keyBits_agree_iff (s t : Scrambler) (n : ℕ) :
    (∀ i, 17 ≤ i → i < n → keyBit s i = keyBit t i) ↔
      ∀ j < 17, j + 17 < n → freshBit s j = freshBit t j := by
  constructor
  · intro h j hj hjn
    rw [← keyBit_fresh s hj, ← keyBit_fresh t hj]
    exact h (j + 17) (by omega) hjn
  · intro h i
    induction i using Nat.strong_induction_on with
    | _ i ih =>
      intro hi hin
      obtain ⟨j, rfl⟩ := Nat.exists_eq_add_of_le' hi
      rcases Nat.lt_or_ge j 17 with hj | hj
      · rw [keyBit_fresh s hj, keyBit_fresh t hj]
        exact h j hj hin
      · rw [keyBit_recurrence, keyBit_recurrence, ih j (by omega) hj (by omega),
          ih (j + 5) (by omega) (by omega) (by omega)]

theorem descrambled_getElem? (s t : Scrambler) (bits : List Bool) (i : ℕ) :
    (scrambleBits t (scrambleBits s bits))[i]? =
      bits[i]?.map fun bit => bit ^^ (keyBit s i ^^ keyBit t i) := by
  rw [scrambleBits_getElem?, scrambleBits_getElem?, Option.map_map]
  congr 1
  funext bit
  rw [Function.comp_apply, scramblerProcess_fst, scramblerProcess_fst, ← after_succ, ← after_succ,
    Bool.xor_assoc]
  rfl

theorem recovers_iff_keyBits (s t : Scrambler) (bits : List Bool) :
    Recovers s t bits ↔ ∀ i, 17 ≤ i → i < bits.length → keyBit s i = keyBit t i := by
  refine forall_congr' fun i => imp_congr_right fun _ => ?_
  refine forall_congr' fun hi => ?_
  have hcancel : ∀ b k l : Bool, (b ^^ (k ^^ l)) = b ↔ k = l := by decide
  rw [descrambled_getElem?, List.getElem?_eq_getElem hi, Option.map_some, Option.some_inj, hcancel]

/-- A stream comes back exactly as far as the first 17 fresh key bits of the two registers
agree, and all of them agree only for equal registers. -/
theorem recovers_iff {s t : Scrambler} (hs : s.state.toNat < 2 ^ 17) (ht : t.state.toNat < 2 ^ 17)
    (bits : List Bool) :
    (Recovers s t bits ↔ ∀ j < 17, j + 17 < bits.length → freshBit s j = freshBit t j) ∧
      (34 ≤ bits.length → (Recovers s t bits ↔ s = t)) := by
  have hfresh : Recovers s t bits ↔
      ∀ j < 17, j + 17 < bits.length → freshBit s j = freshBit t j :=
    (recovers_iff_keyBits s t bits).trans (keyBits_agree_iff s t bits.length)
  refine ⟨hfresh, fun hlong => ⟨fun h => ?_, ?_⟩⟩
  · have hkey := (recovers_iff_keyBits s t bits).mp h
    refine eq_of_stateBits hs ht (stateBits_of_after 34 fun i hi => ?_)
    rw [stateBit_after s hi, stateBit_after t hi, if_pos (by omega), if_pos (by omega)]
    exact hkey _ (by omega) (by omega)
  · rintro rfl
    intro i _ _
    rw [scrambleBits_scrambleBits]

/-- Two states whose key streams first part behind bit 17 at bit 22. -/
theorem two_states_recover_briefly : Recovers ⟨2⟩ ⟨1⟩ (List.replicate 22 false) ∧
    ¬ Recovers ⟨2⟩ ⟨1⟩ (List.replicate 40 false) := by
  have hiff := fun bits => recovers_iff (s := ⟨2⟩) (t := ⟨1⟩) (by decide) (by decide) bits
  refine ⟨(hiff _).1.mpr (by decide), fun h => ?_⟩
  exact absurd (((hiff _).2 (by decide)).mp h) (by decide)

/-- A receiver that has missed one bit does not recover. -/
theorem lost_bit_not_recovered :
    ¬ ∀ s t : Scrambler, s.state.toNat < 2 ^ 17 → t.state.toNat < 2 ^ 17 →
      ∀ bits, Recovers s t bits := by
  intro h
  have hbit := h ⟨2⟩ ⟨1⟩ (by decide) (by decide) (List.replicate 24 false) 22 (by decide) (by decide)
  exact absurd hbit (by decide)

end EchoProtocol.Scrambling
