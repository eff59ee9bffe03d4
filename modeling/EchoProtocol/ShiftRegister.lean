import Mathlib

/-!
# Shift registers

A register that takes its bits in at the low end holds a window of the stream: bit `j` is the
one that came `j` bits ago. The ones of the exclusive or of two windows are the places in which
the streams differ.
-/
namespace ShiftRegister

variable {w : ℕ}

/-- The register after a stream of bits. -/
def window (w : ℕ) (bits : List Bool) : BitVec w := bits.foldl BitVec.shiftConcat 0#w

theorem window_concat (bits : List Bool) (b : Bool) :
    window w (bits ++ [b]) = (window w bits).shiftConcat b := by
  simp [window]

theorem window_getLsbD (bits : List Bool) {j : ℕ} (hj : j < w) :
    (window w bits).getLsbD j = bits.reverse.getD j false := by
  induction bits using List.reverseRecOn generalizing j with
  | nil => simp [window]
  | append_singleton bits b ih =>
    rw [window_concat, BitVec.getLsbD_shiftConcat, List.reverse_append, List.reverse_singleton,
      List.singleton_append]
    cases j with
    | zero => simp [hj]
    | succ j =>
      rw [Nat.add_sub_cancel, ih (by omega)]
      simp [hj]

theorem window_rtake (bits : List Bool) : window w (bits.rtake w) = window w bits := by
  refine BitVec.eq_of_getLsbD_eq fun j hj => ?_
  rw [window_getLsbD _ hj, window_getLsbD _ hj, List.rtake_eq_reverse_take_reverse,
    List.reverse_reverse]
  simp [hj]

theorem shiftConcat_agree {x y : BitVec w} {n : ℕ}
    (h : ∀ j < n, x.getLsbD j = y.getLsbD j) (b : Bool) :
    ∀ j < n + 1, (x.shiftConcat b).getLsbD j = (y.shiftConcat b).getLsbD j := by
  intro j hj
  rw [BitVec.getLsbD_shiftConcat, BitVec.getLsbD_shiftConcat]
  cases j with
  | zero => rfl
  | succ j => simp [h j (by omega)]

theorem cpop_eq_card (x : BitVec w) :
    x.cpop.toNat = ((Finset.range w).filter fun j => x.getLsbD j).card := by
  have hcount : ∀ n, x.cpopNatRec n 0 = ((Finset.range n).filter fun j => x.getLsbD j).card := by
    intro n
    induction n with
    | zero => rfl
    | succ n ih =>
      rw [BitVec.cpopNatRec_succ, BitVec.cpopNatRec_eq, ih, Finset.range_add_one,
        Finset.filter_insert]
      cases hbit : x.getLsbD n with
      | false => simp
      | true => simp
  rw [BitVec.toNat_cpop, hcount]

theorem eq_zero_of_cpop {x : BitVec w} (h : x.cpop.toNat = 0) : x = 0#w := by
  rw [cpop_eq_card, Finset.card_eq_zero] at h
  refine BitVec.eq_of_getLsbD_eq fun j hj => ?_
  rw [BitVec.getLsbD_zero]
  have hnot : j ∉ (Finset.range w).filter fun j => x.getLsbD j := h ▸ Finset.notMem_empty j
  rw [Finset.mem_filter, Finset.mem_range] at hnot
  simpa [hj] using hnot

theorem cpop_le_add_xor (x y : BitVec w) :
    x.cpop.toNat ≤ y.cpop.toNat + (x ^^^ y).cpop.toNat := by
  rw [cpop_eq_card, cpop_eq_card, cpop_eq_card]
  refine le_trans (Finset.card_le_card fun j hj => ?_) (Finset.card_union_le _ _)
  obtain ⟨hj, hx⟩ := Finset.mem_filter.mp hj
  cases hy : y.getLsbD j with
  | true => exact Finset.mem_union_left _ (Finset.mem_filter.mpr ⟨hj, hy⟩)
  | false =>
    refine Finset.mem_union_right _ (Finset.mem_filter.mpr ⟨hj, ?_⟩)
    rw [BitVec.getLsbD_xor, hx, hy, Bool.xor_false]

/-- The number of places in which two streams differ. -/
def differences (l m : List Bool) : ℕ :=
  ((List.range l.length).filter fun i => l.getD i false ≠ m.getD i false).length

theorem cpop_xor_window {l m : List Bool} (hl : l.length = w) (hm : m.length = w) :
    (window w l ^^^ window w m).cpop.toNat = differences l m := by
  have hdiff : differences l m =
      ((Finset.range w).filter fun i => l.getD i false ≠ m.getD i false).card := by
    rw [← hl]
    rfl
  rw [cpop_eq_card, hdiff, Finset.card_filter, Finset.card_filter, ← Finset.sum_range_reflect]
  refine Finset.sum_congr rfl fun i hi => ?_
  have hiw := Finset.mem_range.mp hi
  have hplace : ∀ v : List Bool, v.length = w →
      (window w v).getLsbD (w - 1 - i) = v.getD i false := by
    intro v hv
    rw [window_getLsbD _ (by omega), List.getD_eq_getElem?_getD, List.getD_eq_getElem?_getD,
      List.getElem?_reverse (by omega), hv, show w - 1 - (w - 1 - i) = i by omega]
  rw [BitVec.getLsbD_xor, hplace l hl, hplace m hm]
  exact if_congr bne_iff_ne rfl rfl

end ShiftRegister
