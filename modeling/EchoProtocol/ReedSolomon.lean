import EchoProtocol.ByteField

/-!
# Systematic Reed-Solomon blocks

The block encoder and decoder over arrays of bytes, and the fact that every encoded block
vanishes at the roots of the generator polynomial.
-/
namespace EchoProtocol.ReedSolomon
open Bytes ByteField Polynomial

def FEC_RS_MAX_N : ℕ := 255
def FEC_RS_MSGBLK : ℕ := 223
def FEC_RS_PARITY_BLK : ℕ := 32

/-- The descending loop of `gf_poly_eval`. -/
def hornerDown (poly : List UInt8) (x : UInt8) : ℕ → UInt8 → UInt8
  | 0, y => y
  | i + 1, y => hornerDown poly x i (gfMul y x ^^^ byteAt poly i)

def gfPolyEval (poly : List UInt8) (deg : ℕ) (x : UInt8) : UInt8 :=
  hornerDown poly x deg (byteAt poly deg)

/-- One round of `rs_generator_poly`. The source updates in place from the top index down, so
every cell is computed from old cells. -/
def timesRoot (gen : List UInt8) (deg : ℕ) (root : UInt8) : List UInt8 :=
  tabulate 256 fun j =>
    if j = 0 then gfMul (byteAt gen 0) root
    else if j ≤ deg + 1 then byteAt gen (j - 1) ^^^ gfMul (byteAt gen j) root
    else byteAt gen j

def rsGeneratorPoly (ecc : ℕ) : List UInt8 :=
  (List.range ecc).foldl (fun gen i => timesRoot gen i (gfExp i)) ((List.replicate 256 0).set 0 1)

/-- One round of the long division in `rs_encode_block`. -/
def cancelLeading (gen : List UInt8) (ecc : ℕ) (out : List UInt8) (i : ℕ) : List UInt8 :=
  let coef := byteAt out i
  if coef = 0 then out
  else tabulate out.length fun j =>
    if i ≤ j ∧ j ≤ i + ecc then byteAt out j ^^^ gfMul (byteAt gen (ecc - (j - i))) coef
    else byteAt out j

def rsEncodeBlock (data : List UInt8) (ecc : ℕ) : List UInt8 :=
  let k := data.length
  let gen := rsGeneratorPoly ecc
  let out := (List.range k).foldl (cancelLeading gen ecc) (data ++ List.replicate ecc 0)
  data ++ out.drop k

def rsSyndrome (r : List UInt8) (x : UInt8) : UInt8 :=
  (r.drop 1).foldl (fun s b => gfMul s x ^^^ b) (byteAt r 0)

def rsSyndromes (r : List UInt8) (ecc : ℕ) : List UInt8 :=
  tabulate ecc fun i => rsSyndrome r (gfExp i)

/-- The variables of the loop in `rs_find_error_locator`. -/
structure Synthesis where
  C : List UInt8
  B : List UInt8
  L : ℕ
  m : ℕ
  b : UInt8

def initialSynthesis : Synthesis :=
  ⟨(List.replicate 256 0).set 0 1, (List.replicate 256 0).set 0 1, 0, 1, 1⟩

def discrepancy (synd : List UInt8) (s : Synthesis) (n : ℕ) : UInt8 :=
  (List.range s.L).foldl
    (fun d i => d ^^^ gfMul (byteAt s.C (i + 1)) (byteAt synd (n - (i + 1)))) (byteAt synd n)

def subtractShifted (C B : List UInt8) (coef : UInt8) (m : ℕ) : List UInt8 :=
  tabulate 256 fun j =>
    if m ≤ j then byteAt C j ^^^ gfMul coef (byteAt B (j - m)) else byteAt C j

def synthesisStep (synd : List UInt8) (s : Synthesis) (n : ℕ) : Synthesis :=
  let d := discrepancy synd s n
  if d = 0 then { s with m := s.m + 1 }
  else
    let T := s.C
    let C := subtractShifted s.C s.B (gfMul d (gfInv s.b)) s.m
    if 2 * s.L ≤ n then ⟨C, T, n + 1 - s.L, 1, d⟩
    else { s with C := C, m := s.m + 1 }

/-- The locator and its degree. -/
def rsFindErrorLocator (synd : List UInt8) (ecc : ℕ) : List UInt8 × ℕ :=
  let s := (List.range ecc).foldl (synthesisStep synd) initialSynthesis
  (s.C, s.L)

def omegaCoeff (synd loc : List UInt8) (locDeg t : ℕ) : UInt8 :=
  (List.range (t + 1)).foldl (fun acc i =>
    if locDeg < t - i then acc else acc ^^^ gfMul (byteAt synd i) (byteAt loc (t - i))) 0

def rsOmegaEval (synd : List UInt8) (ecc : ℕ) (loc : List UInt8) (locDeg : ℕ) (y : UInt8) : UInt8 :=
  (List.range ecc).foldl
    (fun acc t => acc ^^^ gfMul (omegaCoeff synd loc locDeg t) (gfPow y t)) 0

/-- The odd degrees `1, 3, ...` up to `locDeg`. -/
def oddDegrees (locDeg : ℕ) : List ℕ := (List.range ((locDeg + 1) / 2)).map fun i => 2 * i + 1

def rsDerivativeEval (loc : List UInt8) (locDeg : ℕ) (y : UInt8) : UInt8 :=
  (oddDegrees locDeg).foldl (fun acc d => acc ^^^ gfMul (byteAt loc d) (gfPow y (d - 1))) 0

/-- The search for error positions: pairs of a position and its locator number. -/
def rsErrorPositions (loc : List UInt8) (locDeg n : ℕ) : List (ℕ × UInt8) :=
  ((List.range n).filterMap fun j =>
    let e := (n - 1 - j) % 255
    if gfPolyEval loc locDeg (gfExp ((255 - e) % 255)) = 0 then some (j, gfExp e) else none).take 256

def rsCorrectErrors (synd : List UInt8) (ecc : ℕ) (loc : List UInt8) (locDeg : ℕ) :
    List (ℕ × UInt8) → List UInt8 → Option (List UInt8)
  | [], buf => some buf
  | (pos, num) :: rest, buf =>
      let xinv := gfInv num
      let omega := rsOmegaEval synd ecc loc locDeg xinv
      let deriv := rsDerivativeEval loc locDeg xinv
      if deriv = 0 then none
      else
        let mag := gfMul (gfMul num omega) (gfInv deriv)
        rsCorrectErrors synd ecc loc locDeg rest (buf.set pos (byteAt buf pos ^^^ mag))

/-- `none` is the return value `-1`. -/
def rsDecodeBlock (r : List UInt8) (k : ℕ) : Option (List UInt8) :=
  let n := r.length
  let ecc := n - k
  let synd := rsSyndromes r ecc
  if synd.all (· = 0) then some (r.take k)
  else
    let (loc, locDeg) := rsFindErrorLocator synd ecc
    if locDeg = 0 ∨ locDeg > ecc / 2 then none
    else
      let found := rsErrorPositions loc locDeg n
      if found.length ≠ locDeg then none
      else (rsCorrectErrors synd ecc loc locDeg found r).map (·.take k)

/-- The polynomial with an array as its ascending coefficients. -/
noncomputable def toPoly (l : List UInt8) : GF256[X] :=
  ∑ i ∈ Finset.range l.length, C (gf (byteAt l i)) * X ^ i

theorem coeff_toPoly (l : List UInt8) (i : ℕ) : (toPoly l).coeff i = gf (byteAt l i) := by
  unfold toPoly
  rw [finsetSum_coeff]
  by_cases hi : i < l.length
  · rw [Finset.sum_eq_single_of_mem i (Finset.mem_range.mpr hi)]
    · rw [coeff_C_mul, coeff_X_pow_self, mul_one]
    · intro j _ hji
      rw [coeff_C_mul, coeff_X_pow, if_neg (Ne.symm hji), mul_zero]
  · rw [byteAt_of_length_le (not_lt.mp hi), gf_zero]
    refine Finset.sum_eq_zero fun j hj => ?_
    have := Finset.mem_range.mp hj
    rw [coeff_C_mul, coeff_X_pow, if_neg (by omega), mul_zero]

/-- The value at `x` of the polynomial with a word as its descending coefficients. -/
def wordEval (x : GF256) : List UInt8 → GF256
  | [] => 0
  | b :: l => gf b * x ^ l.length + wordEval x l

theorem wordEval_append (x : GF256) (l m : List UInt8) :
    wordEval x (l ++ m) = wordEval x l * x ^ m.length + wordEval x m := by
  induction l with
  | nil => simp [wordEval]
  | cons b l ih => simp only [List.cons_append, wordEval, ih, List.length_append, pow_add]; ring

theorem wordEval_replicate_zero (x : GF256) (n : ℕ) : wordEval x (List.replicate n 0) = 0 := by
  induction n with
  | zero => rfl
  | succ n ih => simp [List.replicate_succ, wordEval, ih]

theorem wordEval_eq_sum (x : GF256) (l : List UInt8) :
    wordEval x l = ∑ j ∈ Finset.range l.length, gf (byteAt l j) * x ^ (l.length - 1 - j) := by
  induction l with
  | nil => rfl
  | cons b l ih =>
    rw [wordEval, ih, List.length_cons, Finset.sum_range_succ', add_comm]
    congr 1
    refine Finset.sum_congr rfl fun j _ => ?_
    rw [byteAt_cons_succ]
    congr 2
    omega

theorem rsSyndrome_eq {r : List UInt8} (hr : r ≠ []) (x : UInt8) :
    gf (rsSyndrome r x) = wordEval (gf x) r := by
  have hfold : ∀ (l : List UInt8) (s : UInt8),
      gf (l.foldl (fun s b => gfMul s x ^^^ b) s) = gf s * gf x ^ l.length + wordEval (gf x) l := by
    intro l
    induction l with
    | nil => intro s; simp [wordEval]
    | cons b l ih =>
      intro s
      rw [List.foldl_cons, ih, gf_xor, gf_mul, wordEval, List.length_cons, pow_succ]
      ring
  cases r with
  | nil => exact absurd rfl hr
  | cons b l => exact hfold l b

noncomputable def generator (ecc : ℕ) : GF256[X] :=
  ∏ i ∈ Finset.range ecc, (X + C (alpha ^ i))

theorem generator_natDegree (ecc : ℕ) : (generator ecc).natDegree = ecc := by
  unfold generator
  rw [natDegree_prod_of_monic _ _ fun i _ => monic_X_add_C _]
  simp only [natDegree_X_add_C, Finset.sum_const, Finset.card_range, smul_eq_mul, mul_one]

theorem generator_monic (ecc : ℕ) : (generator ecc).coeff ecc = 1 := by
  have hmonic : (generator ecc).Monic := monic_prod_of_monic _ _ fun i _ => monic_X_add_C _
  have h := hmonic.coeff_natDegree
  rwa [generator_natDegree] at h

theorem generator_root {ecc i : ℕ} (hi : i < ecc) : (generator ecc).eval (alpha ^ i) = 0 := by
  unfold generator
  rw [eval_prod]
  apply Finset.prod_eq_zero (Finset.mem_range.mpr hi)
  rw [eval_add, eval_X, eval_C, add_self]

theorem timesRoot_toPoly {gen : List UInt8} {deg : ℕ} {root : UInt8}
    (hdeg : (toPoly gen).natDegree ≤ deg) (hlt : deg + 1 < 256) :
    toPoly (timesRoot gen deg root) = toPoly gen * (X + C (gf root)) := by
  have hhigh : ∀ j, deg < j → gf (byteAt gen j) = 0 := by
    intro j hj
    rw [← coeff_toPoly]
    exact coeff_eq_zero_of_natDegree_lt (by omega)
  ext1 j
  rw [coeff_toPoly, timesRoot, byteAt_tabulate, mul_add, coeff_add, coeff_mul_C, coeff_toPoly]
  cases j with
  | zero => simp [gf_mul]
  | succ j =>
    rw [coeff_mul_X, coeff_toPoly]
    by_cases hj : j ≤ deg
    · rw [if_pos (by omega), if_neg (by omega), if_pos (by omega), gf_xor, gf_mul,
        Nat.add_sub_cancel]
    · rw [hhigh j (by omega), hhigh (j + 1) (by omega), zero_mul, add_zero]
      by_cases h256 : j + 1 < 256
      · rw [if_pos h256, if_neg (by omega), if_neg (by omega), hhigh _ (by omega)]
      · rw [if_neg h256, gf_zero]

theorem rsGeneratorPoly_toPoly {ecc : ℕ} (hecc : ecc < 256) :
    toPoly (rsGeneratorPoly ecc) = generator ecc := by
  induction ecc with
  | zero =>
    ext1 j
    rw [coeff_toPoly, generator, Finset.prod_range_zero, coeff_one, rsGeneratorPoly,
      List.range_zero, List.foldl_nil, byteAt_set, byteAt_replicate_zero, List.length_replicate]
    by_cases hj : j = 0
    · subst hj; rfl
    · rw [if_neg hj, if_neg fun h => hj h.1.symm, gf_zero]
  | succ ecc ih =>
    have ih := ih (by omega)
    have hstep : rsGeneratorPoly (ecc + 1) = timesRoot (rsGeneratorPoly ecc) ecc (gfExp ecc) := by
      simp only [rsGeneratorPoly, List.range_succ, List.foldl_append, List.foldl_cons,
        List.foldl_nil]
    rw [hstep, timesRoot_toPoly (by rw [ih, generator_natDegree]) hecc, ih, gf_exp (by omega)]
    exact (Finset.prod_range_succ _ _).symm

theorem cancelLeading_length (gen : List UInt8) (ecc : ℕ) (out : List UInt8) (i : ℕ) :
    (cancelLeading gen ecc out i).length = out.length := by
  simp only [cancelLeading]
  split_ifs <;> simp

theorem sum_window (f : ℕ → GF256) {i k n : ℕ} (h : i + k < n) :
    ∑ j ∈ Finset.range n, (if i ≤ j ∧ j ≤ i + k then f j else 0) =
      ∑ m ∈ Finset.range (k + 1), f (i + m) := by
  have hcells : (Finset.range n).filter (fun j => i ≤ j ∧ j ≤ i + k) = Finset.Ico i (i + (k + 1)) := by
    ext j
    simp only [Finset.mem_filter, Finset.mem_range, Finset.mem_Ico]
    omega
  rw [← Finset.sum_filter, hcells, Finset.sum_Ico_eq_sum_range, Nat.add_sub_cancel_left]

theorem generator_window {ecc e d : ℕ} (he : e < ecc) :
    ∑ m ∈ Finset.range (ecc + 1), (generator ecc).coeff (ecc - m) * (alpha ^ e) ^ (d + ecc - m) =
      0 := by
  have hroot := generator_root he
  rw [eval_eq_sum_range, generator_natDegree, ← Finset.sum_range_reflect] at hroot
  calc ∑ m ∈ Finset.range (ecc + 1), (generator ecc).coeff (ecc - m) * (alpha ^ e) ^ (d + ecc - m)
      = ∑ m ∈ Finset.range (ecc + 1), (alpha ^ e) ^ d *
          ((generator ecc).coeff (ecc + 1 - 1 - m) * (alpha ^ e) ^ (ecc + 1 - 1 - m)) := by
        refine Finset.sum_congr rfl fun m hm => ?_
        have := Finset.mem_range.mp hm
        rw [mul_left_comm, ← pow_add]
        congr 2
        omega
    _ = 0 := by rw [← Finset.mul_sum, hroot, mul_zero]

/-- A division round adds a multiple of the generator, which the roots do not see. -/
theorem cancelLeading_wordEval {ecc i e : ℕ} {out : List UInt8} (hecc : ecc < 256)
    (hi : i + ecc < out.length) (he : e < ecc) :
    wordEval (alpha ^ e) (cancelLeading (rsGeneratorPoly ecc) ecc out i) =
      wordEval (alpha ^ e) out := by
  set x := alpha ^ e with hx
  set n := out.length with hn
  have hgen : ∀ j, gf (byteAt (rsGeneratorPoly ecc) j) = (generator ecc).coeff j := fun j => by
    rw [← coeff_toPoly, rsGeneratorPoly_toPoly hecc]
  simp only [cancelLeading]
  split_ifs with hcoef
  · rfl
  · rw [wordEval_eq_sum, wordEval_eq_sum, tabulate_length, ← hn]
    have hcell : ∀ j ∈ Finset.range n,
        gf (byteAt (tabulate n fun j =>
          if i ≤ j ∧ j ≤ i + ecc then
            byteAt out j ^^^ gfMul (byteAt (rsGeneratorPoly ecc) (ecc - (j - i))) (byteAt out i)
          else byteAt out j) j) * x ^ (n - 1 - j) =
        gf (byteAt out j) * x ^ (n - 1 - j) + gf (byteAt out i) *
          (if i ≤ j ∧ j ≤ i + ecc then (generator ecc).coeff (ecc - (j - i)) * x ^ (n - 1 - j)
            else 0) := by
      intro j hj
      rw [byteAt_tabulate, if_pos (Finset.mem_range.mp hj)]
      split_ifs
      · rw [gf_xor, gf_mul, hgen]
        ring
      · rw [mul_zero, add_zero]
    rw [Finset.sum_congr rfl hcell, Finset.sum_add_distrib, ← Finset.mul_sum, sum_window _ hi]
    -- what the inner loop adds, as a sum over the touched cells
    have hadded : ∑ m ∈ Finset.range (ecc + 1),
        (generator ecc).coeff (ecc - (i + m - i)) * x ^ (n - 1 - (i + m)) = 0 := by
      rw [← generator_window (d := n - 1 - i - ecc) he]
      refine Finset.sum_congr rfl fun m hm => ?_
      have := Finset.mem_range.mp hm
      congr 2 <;> omega
    rw [hadded, mul_zero, add_zero]

/-- A division round clears its leading cell and leaves the earlier ones alone. -/
theorem cancelLeading_zero {ecc i j : ℕ} {out : List UInt8} (hecc : ecc < 256)
    (hout : ∀ j < i, byteAt out j = 0) (hi : i < out.length) (hj : j < i + 1) :
    byteAt (cancelLeading (rsGeneratorPoly ecc) ecc out i) j = 0 := by
  have hmonic : byteAt (rsGeneratorPoly ecc) ecc = 1 := by
    apply gf_injective
    rw [← coeff_toPoly, rsGeneratorPoly_toPoly hecc, generator_monic]
    rfl
  simp only [cancelLeading]
  split_ifs with hcoef
  · rcases Nat.lt_succ_iff_lt_or_eq.mp hj with hlt | rfl
    · exact hout j hlt
    · exact hcoef
  · rw [byteAt_tabulate, if_pos (by omega)]
    rcases Nat.lt_succ_iff_lt_or_eq.mp hj with hlt | rfl
    · rw [if_neg (by omega)]
      exact hout j hlt
    · rw [if_pos (by omega), Nat.sub_self, Nat.sub_zero, hmonic, gfMul_comm, gfMul_one,
        UInt8.xor_self]

/-- The invariant of the long division after `i` rounds. -/
theorem division_invariant (data : List UInt8) {ecc : ℕ} (hecc : ecc < 256) {i : ℕ}
    (hi : i ≤ data.length) :
    let out := (List.range i).foldl (cancelLeading (rsGeneratorPoly ecc) ecc)
      (data ++ List.replicate ecc 0)
    out.length = data.length + ecc ∧ (∀ j < i, byteAt out j = 0) ∧
      ∀ e < ecc, wordEval (alpha ^ e) out = wordEval (alpha ^ e) data * (alpha ^ e) ^ ecc := by
  induction i with
  | zero =>
    refine ⟨by simp, by simp, fun e _ => ?_⟩
    rw [List.range_zero, List.foldl_nil, wordEval_append, wordEval_replicate_zero,
      List.length_replicate, add_zero]
  | succ i ih =>
    obtain ⟨hlen, hzero, heval⟩ := ih (by omega)
    simp only [List.range_succ, List.foldl_append, List.foldl_cons, List.foldl_nil]
    refine ⟨by rw [cancelLeading_length, hlen], fun j hj => ?_, fun e he => ?_⟩
    · exact cancelLeading_zero hecc hzero (by omega) hj
    · rw [cancelLeading_wordEval hecc (by omega) he, heval e he]

theorem rsEncodeBlock_length {data : List UInt8} {ecc : ℕ} (hecc : ecc < 256) :
    (rsEncodeBlock data ecc).length = data.length + ecc := by
  obtain ⟨hlen, -, -⟩ := division_invariant data hecc le_rfl
  simp only [rsEncodeBlock, List.length_append, List.length_drop, hlen]
  omega

theorem rsEncodeBlock_take (data : List UInt8) (ecc : ℕ) :
    (rsEncodeBlock data ecc).take data.length = data := by
  simp [rsEncodeBlock]

/-- Every encoded block vanishes at the roots of the generator. -/
theorem rsEncodeBlock_root {data : List UInt8} {ecc e : ℕ} (hecc : ecc < 256) (he : e < ecc) :
    wordEval (alpha ^ e) (rsEncodeBlock data ecc) = 0 := by
  obtain ⟨hlen, hzero, heval⟩ := division_invariant data hecc le_rfl
  simp only [rsEncodeBlock]
  set out := (List.range data.length).foldl (cancelLeading (rsGeneratorPoly ecc) ecc)
    (data ++ List.replicate ecc 0) with hout
  have hcleared : out.take data.length = List.replicate data.length 0 := by
    apply ext_byteAt
    · simp [hlen]
    · intro j hj
      have hj' : j < data.length := by simp [hlen] at hj; exact hj
      rw [byteAt_take hj', hzero j hj', byteAt_replicate_zero]
  have hrest : wordEval (alpha ^ e) (out.drop data.length) =
      wordEval (alpha ^ e) data * (alpha ^ e) ^ ecc := by
    have hsplit := wordEval_append (alpha ^ e) (out.take data.length) (out.drop data.length)
    rw [List.take_append_drop, hcleared, wordEval_replicate_zero, zero_mul, zero_add] at hsplit
    rw [← hsplit, heval e he]
  have hdrop : (out.drop data.length).length = ecc := by simp [hlen]
  rw [wordEval_append, hrest, hdrop, add_self]

end EchoProtocol.ReedSolomon
