import Mathlib

/-!
# Row order and column order of a matrix

The entries of a matrix written out column after column are those written out row after row
at other places. Neighbours in column order lie in different rows, so that any stretch of it
meets every row about equally often.
-/
namespace MatrixOrder

/-- The place in row order of the entry that stands at a place of the column order. -/
def columnOrder (rows cols : ℕ) : Fin (cols * rows) ≃ Fin (rows * cols) :=
  finProdFinEquiv.symm.trans ((Equiv.prodComm _ _).trans finProdFinEquiv)

variable {rows cols : ℕ}

theorem columnOrder_symm : (columnOrder rows cols).symm = columnOrder cols rows := rfl

theorem columnOrder_val (p : Fin (cols * rows)) :
    (columnOrder rows cols p : ℕ) = p % rows * cols + p / rows := by
  have hpair : (columnOrder rows cols p : ℕ) = p / rows + cols * (p % rows) := rfl
  rw [hpair]
  ring

theorem columnOrder_div (p : Fin (cols * rows)) :
    (columnOrder rows cols p : ℕ) / cols = p % rows := by
  have hcol : (p : ℕ) / rows < cols := p.divNat.isLt
  rw [columnOrder_val, Nat.add_comm, Nat.add_mul_div_right _ _ (Nat.zero_lt_of_lt hcol),
    Nat.div_eq_of_lt hcol, Nat.zero_add]

/-- A stretch of `L` numbers holds at most `⌈L / rows⌉` of one remainder. -/
theorem card_remainder_le (hrows : 0 < rows) (start L r : ℕ) :
    ((Finset.Ico start (start + L)).filter fun p => p % rows = r).card ≤ ⌈(L : ℚ) / rows⌉₊ := by
  have hsub : ((Finset.Ico start (start + L)).filter fun p => p % rows = r) ⊆
      (Finset.Ico start (start + L)).filter fun p => p ≡ r [MOD rows] := by
    intro p hp
    obtain ⟨hmem, hr⟩ := Finset.mem_filter.mp hp
    refine Finset.mem_filter.mpr ⟨hmem, ?_⟩
    rw [← hr]
    exact (Nat.mod_modEq p rows).symm
  refine (Finset.card_le_card hsub).trans ?_
  have hcard := Nat.Ico_filter_modEq_card start (start + L) hrows r
  have hsplit : (((start + L : ℕ) : ℚ) - r) / rows = ((start : ℚ) - r) / rows + (L : ℚ) / rows := by
    push_cast
    ring
  have hceil := Int.ceil_add_le (((start : ℚ) - r) / rows) ((L : ℚ) / rows)
  have hnonneg : (0 : ℚ) ≤ (L : ℚ) / rows := by positivity
  have hnat := Int.natCast_ceil_eq_ceil hnonneg
  rw [hsplit] at hcard
  omega

end MatrixOrder
