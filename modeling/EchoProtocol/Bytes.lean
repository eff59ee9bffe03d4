import Mathlib

/-!
# Fixed arrays of bytes

C arrays are lists of bytes read with a default of zero. `tabulate` is a loop that writes
every cell of an array once, `grid` a pair of nested loops that write row after row.
-/
namespace EchoProtocol.Bytes

/-- The byte at an index of an array. -/
def byteAt (l : List UInt8) (i : ℕ) : UInt8 := l.getD i 0

def tabulate (n : ℕ) (f : ℕ → UInt8) : List UInt8 := (List.range n).map f

@[simp] theorem tabulate_length (n : ℕ) (f : ℕ → UInt8) : (tabulate n f).length = n := by
  simp [tabulate]

theorem byteAt_tabulate (n : ℕ) (f : ℕ → UInt8) (i : ℕ) :
    byteAt (tabulate n f) i = if i < n then f i else 0 := by
  unfold byteAt tabulate
  split_ifs with h
  · simp [List.getD_eq_getElem?_getD, h]
  · simp [List.getD_eq_getElem?_getD, h]

theorem byteAt_of_length_le {l : List UInt8} {i : ℕ} (h : l.length ≤ i) : byteAt l i = 0 := by
  simp [byteAt, List.getD_eq_getElem?_getD, h]

theorem byteAt_eq_getElem {l : List UInt8} {i : ℕ} (h : i < l.length) : byteAt l i = l[i] := by
  simp [byteAt, List.getD_eq_getElem?_getD, h]

@[simp] theorem byteAt_cons_zero (b : UInt8) (l : List UInt8) : byteAt (b :: l) 0 = b := rfl

@[simp] theorem byteAt_cons_succ (b : UInt8) (l : List UInt8) (i : ℕ) :
    byteAt (b :: l) (i + 1) = byteAt l i := rfl

theorem byteAt_append_left {l m : List UInt8} {i : ℕ} (h : i < l.length) :
    byteAt (l ++ m) i = byteAt l i := by
  simp [byteAt, List.getD_eq_getElem?_getD, List.getElem?_append_left h]

theorem byteAt_append_right {l m : List UInt8} {i : ℕ} (h : l.length ≤ i) :
    byteAt (l ++ m) i = byteAt m (i - l.length) := by
  simp [byteAt, List.getD_eq_getElem?_getD, List.getElem?_append_right h]

theorem byteAt_drop (l : List UInt8) (k i : ℕ) : byteAt (l.drop k) i = byteAt l (k + i) := by
  simp [byteAt, List.getD_eq_getElem?_getD]

theorem byteAt_take {l : List UInt8} {k i : ℕ} (h : i < k) : byteAt (l.take k) i = byteAt l i := by
  simp [byteAt, List.getD_eq_getElem?_getD, h]

theorem byteAt_replicate_zero (n i : ℕ) : byteAt (List.replicate n 0) i = 0 := by
  simp [byteAt, List.getD_eq_getElem?_getD, List.getElem?_replicate]
  split <;> rfl

theorem byteAt_set (l : List UInt8) (i j : ℕ) (b : UInt8) :
    byteAt (l.set i b) j = if i = j ∧ i < l.length then b else byteAt l j := by
  simp only [byteAt, List.getD_eq_getElem?_getD, List.getElem?_set]
  by_cases hij : i = j
  · subst hij
    by_cases h : i < l.length <;> simp [h]
  · simp [hij]

theorem ext_byteAt {l m : List UInt8} (hl : l.length = m.length)
    (h : ∀ i < l.length, byteAt l i = byteAt m i) : l = m := by
  apply List.ext_getElem hl
  intro i hi hi'
  rw [← byteAt_eq_getElem hi, ← byteAt_eq_getElem hi']
  exact h i hi

theorem tabulate_byteAt {n : ℕ} {l : List UInt8} (h : l.length = n) :
    tabulate n (byteAt l) = l := by
  apply ext_byteAt (by rw [tabulate_length, h])
  intro i hi
  rw [tabulate_length] at hi
  rw [byteAt_tabulate, if_pos hi]

theorem xor_bit_ne {k : ℕ} (hk : k < 8) (b : UInt8) : b ^^^ (1 <<< k).toUInt8 ≠ b := by
  have hbit : ∀ k < 8, (1 <<< k).toUInt8 ≠ 0 := by decide
  intro heq
  refine hbit k hk ?_
  rw [← UInt8.xor_right_inj b, heq, UInt8.xor_zero]

/-- The number of indices at which two arrays of one length differ. -/
def mismatches (l m : List UInt8) : ℕ :=
  ((List.range l.length).filter fun i => byteAt l i ≠ byteAt m i).length

theorem mismatches_self (l : List UInt8) : mismatches l l = 0 := by
  simp [mismatches]

theorem mismatches_set_le (l : List UInt8) (i : ℕ) (b : UInt8) : mismatches l (l.set i b) ≤ 1 := by
  have hsub : (Finset.range l.length).filter (fun j => byteAt l j ≠ byteAt (l.set i b) j) ⊆ {i} := by
    intro j hj
    rw [Finset.mem_filter, byteAt_set] at hj
    rw [Finset.mem_singleton]
    by_contra hne
    exact hj.2 (if_neg fun h => hne h.1.symm).symm
  exact (Finset.card_le_card hsub).trans (by simp)

theorem mismatches_eq_card (l m : List UInt8) : mismatches l m =
    ((Finset.range l.length).filter fun i => byteAt l i ≠ byteAt m i).card := rfl

/-- Two arrays that are read from places of `l` and `m` differ no more often than there are
places where these may differ. -/
theorem mismatches_le_card {l m l' m' : List UInt8} {place : ℕ → ℕ} {places : Finset ℕ}
    (hinj : Function.Injective place) (hl : ∀ i < l'.length, byteAt l' i = byteAt l (place i))
    (hm : ∀ i < l'.length, byteAt m' i = byteAt m (place i))
    (hplace : ∀ i < l'.length, byteAt l (place i) ≠ byteAt m (place i) → place i ∈ places) :
    mismatches l' m' ≤ places.card := by
  rw [mismatches_eq_card]
  refine Finset.card_le_card_of_injOn place (fun i hi => ?_) hinj.injOn
  obtain ⟨hi, hne⟩ := Finset.mem_filter.mp hi
  have hi' := Finset.mem_range.mp hi
  rw [hl i hi', hm i hi'] at hne
  exact hplace i hi' hne

theorem mismatches_drop_le (l m : List UInt8) (k : ℕ) :
    mismatches (l.drop k) (m.drop k) ≤ mismatches l m := by
  rw [mismatches_eq_card l m]
  refine mismatches_le_card (add_right_injective k) (fun i _ => byteAt_drop l k i)
    (fun i _ => byteAt_drop m k i) fun i hi hne => ?_
  rw [List.length_drop] at hi
  exact Finset.mem_filter.mpr ⟨Finset.mem_range.mpr (by omega), hne⟩

/-- When the one damaged byte lies among the first `k`, the rest is undamaged. -/
theorem drop_eq_of_take_ne {l m : List UInt8} {k : ℕ} (hlen : m.length = l.length)
    (hone : mismatches l m ≤ 1) (hne : m.take k ≠ l.take k) : m.drop k = l.drop k := by
  obtain ⟨i, hik, hil, hi⟩ : ∃ i < k, i < l.length ∧ byteAt l i ≠ byteAt m i := by
    by_contra hall
    push Not at hall
    refine hne (ext_byteAt (by simp [hlen]) fun i hi => ?_)
    rw [List.length_take] at hi
    rw [byteAt_take (by omega), byteAt_take (by omega)]
    exact (hall i (by omega) (by omega)).symm
  refine ext_byteAt (by simp [hlen]) fun j hj => ?_
  rw [List.length_drop] at hj
  rw [byteAt_drop, byteAt_drop]
  by_contra hkj
  have hsub : {i, k + j} ⊆
      (Finset.range l.length).filter fun i => byteAt l i ≠ byteAt m i := by
    intro x hx
    rw [Finset.mem_insert, Finset.mem_singleton] at hx
    rw [Finset.mem_filter, Finset.mem_range]
    rcases hx with rfl | rfl
    · exact ⟨hil, hi⟩
    · exact ⟨by omega, fun h => hkj h.symm⟩
  have htwo := Finset.card_le_card hsub
  rw [Finset.card_pair (by omega), ← mismatches_eq_card] at htwo
  omega

/-- Nested loops over `rows` and `cols` that append one byte for each pair. -/
def grid (rows cols : ℕ) (f : ℕ → ℕ → UInt8) : List UInt8 :=
  (List.range rows).flatMap fun r => tabulate cols (f r)

theorem grid_succ (rows cols : ℕ) (f : ℕ → ℕ → UInt8) :
    grid (rows + 1) cols f = grid rows cols f ++ tabulate cols (f rows) := by
  simp [grid, List.range_succ]

@[simp] theorem grid_length (rows cols : ℕ) (f : ℕ → ℕ → UInt8) :
    (grid rows cols f).length = rows * cols := by
  induction rows with
  | zero => simp [grid]
  | succ rows ih => rw [grid_succ, List.length_append, ih, tabulate_length]; ring

theorem byteAt_grid {rows cols r c : ℕ} (f : ℕ → ℕ → UInt8) (hr : r < rows) (hc : c < cols) :
    byteAt (grid rows cols f) (r * cols + c) = f r c := by
  induction rows with
  | zero => omega
  | succ rows ih =>
    rw [grid_succ]
    rcases Nat.lt_succ_iff_lt_or_eq.mp hr with hlt | rfl
    · have hle : (r + 1) * cols ≤ rows * cols := Nat.mul_le_mul_right _ hlt
      rw [byteAt_append_left (by rw [grid_length]; nlinarith)]
      exact ih hlt
    · rw [byteAt_append_right (by simp), grid_length, Nat.add_sub_cancel_left, byteAt_tabulate,
        if_pos hc]

/-- One row of an array laid out row after row. -/
def row (l : List UInt8) (cols r : ℕ) : List UInt8 := (l.drop (r * cols)).take cols

theorem row_grid {rows cols r : ℕ} (f : ℕ → ℕ → UInt8) (hr : r < rows) :
    row (grid rows cols f) cols r = tabulate cols (f r) := by
  have hle : (r + 1) * cols ≤ rows * cols := Nat.mul_le_mul_right _ hr
  apply ext_byteAt
  · simp only [row, List.length_take, List.length_drop, grid_length, tabulate_length]
    rw [Nat.add_mul] at hle
    omega
  · intro i hi
    have hic : i < cols := by
      simp only [row, List.length_take] at hi
      omega
    rw [row, byteAt_take hic, byteAt_drop, byteAt_grid f hr hic, byteAt_tabulate, if_pos hic]

end EchoProtocol.Bytes
