import Mathlib

/-!
# One's complement sums

Addition of words below `B` with the carry added back in. A sum determines its value modulo
`B - 1`, and the all-ones word `B - 1` is the value of every nonzero multiple of it.
-/
namespace OnesComplement

/-- Addition with end-around carry. -/
def wrapAdd (B a b : ℕ) : ℕ := if B ≤ a + b then (a + b) % B + (a + b) / B else a + b

def wrapSum (B : ℕ) (words : List ℕ) : ℕ := words.foldl (wrapAdd B) 0

variable {B a b : ℕ}

theorem wrapAdd_eq (ha : a < B) (hb : b < B) :
    wrapAdd B a b = if B ≤ a + b then a + b - (B - 1) else a + b := by
  unfold wrapAdd
  split_ifs with h
  · have hdiv : (a + b) / B = 1 := Nat.div_eq_of_lt_le (by omega) (by omega)
    have hmod : (a + b) % B = a + b - B := by
      rw [Nat.mod_eq_sub_mod h, Nat.mod_eq_of_lt (by omega)]
    rw [hdiv, hmod]
    omega
  · rfl

theorem wrapAdd_lt (ha : a < B) (hb : b < B) : wrapAdd B a b < B := by
  rw [wrapAdd_eq ha hb]
  split_ifs <;> omega

theorem wrapAdd_modEq (ha : a < B) (hb : b < B) : wrapAdd B a b ≡ a + b [MOD B - 1] := by
  rw [wrapAdd_eq ha hb]
  split_ifs with h
  · have hsum : a + b - (B - 1) + (B - 1) = a + b := by omega
    have hcarry := Nat.add_modEq_right (n := B - 1) (a := a + b - (B - 1))
    rw [hsum] at hcarry
    exact hcarry.symm
  · rfl

theorem wrapAdd_eq_zero (ha : a < B) (hb : b < B) : wrapAdd B a b = 0 ↔ a = 0 ∧ b = 0 := by
  rw [wrapAdd_eq ha hb]
  split_ifs <;> omega

theorem foldl_wrapAdd {words : List ℕ} (ha : a < B) (hw : ∀ w ∈ words, w < B) :
    words.foldl (wrapAdd B) a < B ∧ words.foldl (wrapAdd B) a ≡ a + words.sum [MOD B - 1] ∧
      (words.foldl (wrapAdd B) a = 0 ↔ a = 0 ∧ words.sum = 0) := by
  induction words generalizing a with
  | nil => simp [ha, Nat.ModEq.refl]
  | cons w words ih =>
    have hwB := hw w List.mem_cons_self
    obtain ⟨hlt, hmod, hzero⟩ := ih (wrapAdd_lt ha hwB) fun v hv => hw v (List.mem_cons_of_mem _ hv)
    rw [List.foldl_cons, List.sum_cons]
    refine ⟨hlt, hmod.trans ?_, ?_⟩
    · rw [← Nat.add_assoc]
      exact (wrapAdd_modEq ha hwB).add_right _
    · rw [hzero, wrapAdd_eq_zero ha hwB]
      omega

theorem wrapSum_eq_ones {words : List ℕ} (hB : 0 < B) (hw : ∀ w ∈ words, w < B)
    (hsum : words.sum ≡ 0 [MOD B - 1]) (hne : words.sum ≠ 0) : wrapSum B words = B - 1 := by
  obtain ⟨hlt, hmod, hzero⟩ := foldl_wrapAdd hB hw
  rw [zero_add] at hmod
  have hdvd : B - 1 ∣ wrapSum B words := (Nat.modEq_zero_iff_dvd).mp (hmod.trans hsum)
  have hpos : 0 < wrapSum B words := Nat.pos_of_ne_zero fun h => hne (hzero.mp h).2
  have hle := Nat.le_of_dvd hpos hdvd
  have hlt' : wrapSum B words < B := hlt
  omega

/-- Replacing a zero word by the complement of the sum turns the sum into all ones. -/
theorem wrapSum_complement {left right : List ℕ} (hB : 1 < B)
    (hw : ∀ w ∈ left ++ right, w < B) :
    wrapSum B (left ++ (B - 1 - wrapSum B (left ++ 0 :: right)) :: right) = B - 1 := by
  have hw0 : ∀ w ∈ left ++ 0 :: right, w < B := by
    intro w hmem
    rcases List.mem_append.mp hmem with h | h
    · exact hw w (List.mem_append_left _ h)
    · rcases List.mem_cons.mp h with rfl | h
      · exact Nat.zero_lt_of_lt hB
      · exact hw w (List.mem_append_right _ h)
  obtain ⟨hlt, hmod, hzero⟩ := foldl_wrapAdd (Nat.zero_lt_of_lt hB) hw0
  set s := wrapSum B (left ++ 0 :: right) with hs
  have hlt' : s < B := hlt
  have htotal : (left ++ 0 :: right).sum = left.sum + right.sum := by simp
  have hnew : (left ++ (B - 1 - s) :: right).sum = left.sum + right.sum + (B - 1 - s) := by
    rw [List.sum_append, List.sum_cons]
    ring
  have hmod' : left.sum + right.sum ≡ s [MOD B - 1] := by
    rw [zero_add, htotal] at hmod
    exact hmod.symm
  have hzero' : s = 0 ↔ left.sum + right.sum = 0 := by
    rw [← htotal]
    exact hzero.trans (and_iff_right rfl)
  apply wrapSum_eq_ones (Nat.zero_lt_of_lt hB)
  · intro w hmem
    rcases List.mem_append.mp hmem with h | h
    · exact hw w (List.mem_append_left _ h)
    · rcases List.mem_cons.mp h with rfl | h
      · omega
      · exact hw w (List.mem_append_right _ h)
  · rw [hnew]
    refine (hmod'.add_right _).trans ?_
    rw [show s + (B - 1 - s) = B - 1 by omega]
    exact Nat.modEq_zero_iff_dvd.mpr dvd_rfl
  · rw [hnew]
    omega

/-- Two words of one value are equal, or the two names of zero. -/
theorem eq_or_zeros_of_modEq (ha : a < B) (hb : b < B) (h : a ≡ b [MOD B - 1]) :
    a = b ∨ a = 0 ∧ b = B - 1 ∨ a = B - 1 ∧ b = 0 := by
  rcases Nat.lt_or_ge a (B - 1) with ha' | ha'
  · rcases Nat.lt_or_ge b (B - 1) with hb' | hb'
    · exact Or.inl (h.eq_of_lt_of_lt ha' hb')
    · have hbB : b = B - 1 := by omega
      rw [hbB] at h
      have hzero : a ≡ 0 [MOD B - 1] := h.trans (Nat.modEq_zero_iff_dvd.mpr dvd_rfl)
      exact Or.inr (Or.inl ⟨hzero.eq_of_lt_of_lt ha' (by omega), hbB⟩)
  · have haB : a = B - 1 := by omega
    rcases Nat.lt_or_ge b (B - 1) with hb' | hb'
    · rw [haB] at h
      have hzero : b ≡ 0 [MOD B - 1] := h.symm.trans (Nat.modEq_zero_iff_dvd.mpr dvd_rfl)
      exact Or.inr (Or.inr ⟨haB, hzero.eq_of_lt_of_lt hb' (by omega)⟩)
    · exact Or.inl (by omega)

/-- Replacing a word by one of another value changes the sum. -/
theorem wrapSum_replace_ne {left right : List ℕ} (hw : ∀ w ∈ left ++ a :: right, w < B)
    (hb : b < B) (hne : ¬ a ≡ b [MOD B - 1]) :
    wrapSum B (left ++ b :: right) ≠ wrapSum B (left ++ a :: right) := by
  intro heq
  have hB : 0 < B := Nat.zero_lt_of_lt hb
  have hw' : ∀ w ∈ left ++ b :: right, w < B := by
    intro w hmem
    rcases List.mem_append.mp hmem with h | h
    · exact hw w (List.mem_append_left _ h)
    · rcases List.mem_cons.mp h with rfl | h
      · exact hb
      · exact hw w (List.mem_append_right _ (List.mem_cons_of_mem _ h))
  have hsum : (left ++ a :: right).sum ≡ (left ++ b :: right).sum [MOD B - 1] := by
    have ha := (foldl_wrapAdd hB hw).2.1
    have hb := (foldl_wrapAdd hB hw').2.1
    rw [zero_add] at ha hb
    exact ha.symm.trans ((congrArg (· % (B - 1)) heq.symm).trans hb)
  rw [List.sum_append, List.sum_append, List.sum_cons, List.sum_cons] at hsum
  exact hne ((Nat.ModEq.add_left_cancel' _ hsum).add_right_cancel' _)

end OnesComplement
