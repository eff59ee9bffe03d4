import EchoProtocol.Bytes

/-!
# The byte field behind the error correction

The exponential and logarithm tables are built as the encoder builds them at start-up. The
field laws are then read off the tables: multiplying by a power of the generator is
repeated doubling, and doubling distributes over exclusive or.
-/
namespace EchoProtocol.ByteField
open Bytes

def FEC_GF_POLY : ℕ := 0x11D

/-- The update of `x` at the end of a round of the first loop of `gf_init`. -/
def nextPower (x : ℕ) : ℕ :=
  let x := x <<< 1
  if x &&& 0x100 ≠ 0 then x ^^^ FEC_GF_POLY else x

structure Tables where
  exp : List UInt8
  log : List UInt8

/-- The first loop of `gf_init`, from index `i` on for `n` rounds. -/
def fillPowers : ℕ → ℕ → ℕ → Tables → Tables
  | 0, _, _, t => t
  | n + 1, i, x, t =>
      fillPowers n (i + 1) (nextPower x) ⟨t.exp.set i x.toUInt8, t.log.set x i.toUInt8⟩

/-- The second loop of `gf_init`: the upper part of the table repeats the lower. -/
def repeatPowers : ℕ → ℕ → Tables → Tables
  | 0, _, t => t
  | n + 1, i, t => repeatPowers n (i + 1) { t with exp := t.exp.set i (byteAt t.exp (i - 255)) }

/-- The static arrays before `gf_init` has run. -/
def blankTables : Tables := ⟨List.replicate 512 0, List.replicate 256 0⟩

def gfInit : Tables := repeatPowers 257 255 (fillPowers 255 0 1 blankTables)

def gfExp (i : ℕ) : UInt8 := byteAt gfInit.exp i

def gfLog (a : UInt8) : ℕ := (byteAt gfInit.log a.toNat).toNat

def gfMul (a b : UInt8) : UInt8 :=
  if a = 0 ∨ b = 0 then 0 else gfExp (gfLog a + gfLog b)

def gfInv (a : UInt8) : UInt8 :=
  if a = 0 then 0 else gfExp (255 - gfLog a)

def gfPow (a : UInt8) (e : ℕ) : UInt8 :=
  if a = 0 then if e = 0 then 1 else 0 else gfExp ((gfLog a * e) % 255)

/-- Doubling of a byte modulo the field polynomial. -/
def double (a : UInt8) : UInt8 := (nextPower a.toNat).toUInt8

theorem nextPower_lt : ∀ x < 256, nextPower x < 256 := by decide +kernel

theorem nextPower_eq {x : ℕ} (hx : x < 256) :
    nextPower x = (x <<< 1) ^^^ (if x.testBit 7 then FEC_GF_POLY else 0) := by
  have hbit : ∀ x < 256, (x <<< 1 &&& 0x100 ≠ 0) ↔ x.testBit 7 = true := by decide +kernel
  unfold nextPower
  by_cases h : x.testBit 7
  · rw [if_pos ((hbit x hx).mpr h), if_pos h]
  · rw [if_neg fun h' => h ((hbit x hx).mp h'), if_neg h, Nat.xor_zero]

theorem nextPower_xor {x y : ℕ} (hx : x < 256) (hy : y < 256) :
    nextPower (x ^^^ y) = nextPower x ^^^ nextPower y := by
  have hxy : x ^^^ y < 256 := Nat.xor_lt_two_pow (n := 8) hx hy
  rw [nextPower_eq hxy, nextPower_eq hx, nextPower_eq hy, Nat.testBit_xor, Nat.shiftLeft_xor_distrib]
  generalize x <<< 1 = a
  generalize y <<< 1 = b
  cases x.testBit 7 <;> cases y.testBit 7 <;> simp [Nat.xor_comm, Nat.xor_left_comm]

theorem double_xor (a b : UInt8) : double (a ^^^ b) = double a ^^^ double b := by
  unfold double
  rw [UInt8.toNat_xor, nextPower_xor a.toNat_lt b.toNat_lt]
  exact UInt8.ofNat_xor _ _

@[simp] theorem double_zero : double 0 = 0 := by decide

theorem double_eq_zero {a : UInt8} (h : double a = 0) : a = 0 := by
  have hfin : ∀ x < 256, (nextPower x).toUInt8 = 0 → x = 0 := by decide +kernel
  have := hfin a.toNat a.toNat_lt h
  exact UInt8.toNat_inj.mp this

theorem double_injective : Function.Injective double := by
  intro a b h
  have hz : double (a ^^^ b) = 0 := by rw [double_xor, h, UInt8.xor_self]
  exact UInt8.xor_eq_zero_iff.mp (double_eq_zero hz)

/-- The powers of the generator. -/
def power (i : ℕ) : UInt8 := double^[i] 1

@[simp] theorem power_zero : power 0 = 1 := rfl

theorem power_succ (i : ℕ) : power (i + 1) = double (power i) :=
  Function.iterate_succ_apply' double i 1

theorem power_add (i j : ℕ) : power (i + j) = double^[i] (power j) :=
  Function.iterate_add_apply double i j 1

theorem power_period : power 255 = 1 := by decide +kernel

theorem power_ne_one : ∀ k < 254, power (k + 1) ≠ 1 := by
  intro k hk h
  have hproper : ∀ g < 255, g ∣ 255 → g ∣ 85 ∨ g ∣ 51 ∨ g ∣ 15 := by decide +kernel
  -- a shorter period would divide 255 and so one of its largest proper divisors
  have hperiod : Function.IsPeriodicPt double ((k + 1).gcd 255) 1 :=
    Function.IsPeriodicPt.gcd h power_period
  have hlt : (k + 1).gcd 255 < 255 := (Nat.gcd_le_left 255 k.succ_pos).trans_lt (by omega)
  rcases hproper _ hlt (Nat.gcd_dvd_right _ _) with hd | hd | hd
  · have hne : power 85 ≠ 1 := by decide +kernel
    exact hne (hperiod.trans_dvd hd)
  · have hne : power 51 ≠ 1 := by decide +kernel
    exact hne (hperiod.trans_dvd hd)
  · have hne : power 15 ≠ 1 := by decide +kernel
    exact hne (hperiod.trans_dvd hd)

theorem power_ne_zero (i : ℕ) : power i ≠ 0 := by
  induction i with
  | zero => decide
  | succ i ih =>
    rw [power_succ]
    exact fun h => ih (double_eq_zero h)

theorem power_mod (i : ℕ) : power (i % 255) = power i := by
  have hmul : ∀ q, power (255 * q) = 1 := by
    intro q
    induction q with
    | zero => rfl
    | succ q ih => rw [Nat.mul_succ, power_add, power_period, ← power_zero, ← power_add, add_zero, ih, power_zero]
  conv_rhs => rw [← Nat.mod_add_div i 255, power_add, hmul, ← power_zero, ← power_add, add_zero]

theorem power_inj {i j : ℕ} (hi : i < 255) (hj : j < 255) (h : power i = power j) : i = j := by
  wlog hij : i ≤ j generalizing i j
  · exact (this hj hi h.symm (by omega)).symm
  by_contra hne
  have hd : power (j - i) = 1 := by
    apply double_injective.iterate i
    change double^[i] (power (j - i)) = double^[i] (power 0)
    rw [← power_add, ← power_add, show i + (j - i) = j by omega, add_zero, h]
  apply power_ne_one (j - i - 1) (by omega)
  rwa [show j - i - 1 + 1 = j - i by omega]

/-- Every nonzero byte is a power of the generator. -/
theorem exists_power {a : UInt8} (ha : a ≠ 0) : ∃ i < 255, power i = a := by
  have himage : (Finset.range 255).image (fun i => (power i).toNat) = Finset.Icc 1 255 := by
    apply Finset.eq_of_subset_of_card_le
    · intro x hx
      obtain ⟨i, _, rfl⟩ := Finset.mem_image.mp hx
      have hne : (power i).toNat ≠ 0 := fun h => power_ne_zero i (UInt8.toNat_inj.mp h)
      have := (power i).toNat_lt
      exact Finset.mem_Icc.mpr ⟨by omega, by omega⟩
    · rw [Finset.card_image_of_injOn]
      · simp
      · intro i hi j hj h
        exact power_inj (by simpa using hi) (by simpa using hj) (UInt8.toNat_inj.mp h)
  have hmem : a.toNat ∈ Finset.Icc 1 255 := by
    have hne : a.toNat ≠ 0 := fun h => ha (UInt8.toNat_inj.mp h)
    have := a.toNat_lt
    exact Finset.mem_Icc.mpr ⟨by omega, by omega⟩
  rw [← himage] at hmem
  obtain ⟨i, hi, hai⟩ := Finset.mem_image.mp hmem
  exact ⟨i, by simpa using hi, UInt8.toNat_inj.mp hai⟩

theorem fillPowers_length (n i x : ℕ) (t : Tables) :
    (fillPowers n i x t).exp.length = t.exp.length ∧
      (fillPowers n i x t).log.length = t.log.length := by
  induction n generalizing i x t with
  | zero => exact ⟨rfl, rfl⟩
  | succ n ih => simp [fillPowers, ih]

theorem fillPowers_exp (n i j : ℕ) (t : Tables) (hlen : i + n ≤ t.exp.length) :
    byteAt (fillPowers n i (power i).toNat t).exp j =
      if i ≤ j ∧ j < i + n then power j else byteAt t.exp j := by
  induction n generalizing i t with
  | zero => rw [if_neg (by omega)]; rfl
  | succ n ih =>
    have hnext : nextPower (power i).toNat = (power (i + 1)).toNat := by
      rw [power_succ, double, UInt8.toNat_ofNat_of_lt' (nextPower_lt _ (power i).toNat_lt)]
    rw [fillPowers, hnext, ih _ _ (by simpa using by omega), byteAt_set]
    by_cases hij : i = j
    · subst hij
      rw [if_neg (by omega), if_pos ⟨rfl, by omega⟩, if_pos (by omega)]
      exact UInt8.ofNat_toNat
    · rw [if_neg (c := i = j ∧ _) (fun h => hij h.1)]
      exact if_congr (by omega) rfl rfl

theorem fillPowers_log_other (n i j : ℕ) (t : Tables) (hj : j < i ∨ i + n ≤ j) (hjn : j < 255)
    (hin : i + n ≤ 255) :
    byteAt (fillPowers n i (power i).toNat t).log (power j).toNat =
      byteAt t.log (power j).toNat := by
  induction n generalizing i t with
  | zero => rfl
  | succ n ih =>
    have hnext : nextPower (power i).toNat = (power (i + 1)).toNat := by
      rw [power_succ, double, UInt8.toNat_ofNat_of_lt' (nextPower_lt _ (power i).toNat_lt)]
    rw [fillPowers, hnext, ih _ _ (by omega) (by omega), byteAt_set, if_neg]
    rintro ⟨h, -⟩
    have := power_inj (by omega) hjn (UInt8.toNat_inj.mp h)
    omega

theorem fillPowers_log (n i j : ℕ) (t : Tables) (hj : i ≤ j ∧ j < i + n) (hin : i + n ≤ 255)
    (hlen : t.log.length = 256) :
    byteAt (fillPowers n i (power i).toNat t).log (power j).toNat = j.toUInt8 := by
  induction n generalizing i t with
  | zero => omega
  | succ n ih =>
    have hnext : nextPower (power i).toNat = (power (i + 1)).toNat := by
      rw [power_succ, double, UInt8.toNat_ofNat_of_lt' (nextPower_lt _ (power i).toNat_lt)]
    rw [fillPowers, hnext]
    by_cases hij : i = j
    · subst hij
      rw [fillPowers_log_other n (i + 1) i _ (by omega) (by omega) (by omega), byteAt_set,
        if_pos ⟨rfl, by rw [hlen]; exact (power i).toNat_lt⟩]
    · exact ih _ _ (by omega) (by omega) (by simpa using hlen)

theorem repeatPowers_log (n i : ℕ) (t : Tables) : (repeatPowers n i t).log = t.log := by
  induction n generalizing i t with
  | zero => rfl
  | succ n ih => rw [repeatPowers, ih]

theorem repeatPowers_exp (n i j : ℕ) (t : Tables) (hi : 255 ≤ i) (hlen : i + n ≤ t.exp.length)
    (ht : ∀ k < i, byteAt t.exp k = power k) (hj : j < i + n) :
    byteAt (repeatPowers n i t).exp j = power j := by
  induction n generalizing i t with
  | zero => exact ht j hj
  | succ n ih =>
    rw [repeatPowers]
    refine ih (i + 1) _ (by omega) (by simpa using by omega) (fun k hk => ?_) (by omega)
    rw [byteAt_set]
    by_cases hik : i = k
    · subst hik
      rw [if_pos ⟨rfl, by omega⟩, ht _ (by omega), ← power_mod, ← power_mod i]
      exact congrArg power (by omega)
    · rw [if_neg fun h => hik h.1]
      exact ht k (by omega)

theorem gfExp_eq {i : ℕ} (hi : i < 512) : gfExp i = power i := by
  have hexp : blankTables.exp.length = 512 := List.length_replicate
  have hone : (power 0).toNat = 1 := rfl
  have hfill : ∀ k < 255, byteAt (fillPowers 255 0 1 blankTables).exp k = power k := by
    intro k hk
    have h := fillPowers_exp 255 0 k blankTables (by rw [hexp]; omega)
    rw [if_pos (by omega), hone] at h
    exact h
  have hlen : (fillPowers 255 0 1 blankTables).exp.length = 512 :=
    (fillPowers_length _ _ _ _).1.trans hexp
  unfold gfExp gfInit
  exact repeatPowers_exp 257 255 i _ le_rfl (by rw [hlen]) hfill (by omega)

theorem gfLog_power {i : ℕ} (hi : i < 255) : gfLog (power i) = i := by
  have h := fillPowers_log 255 0 i blankTables (by omega) (by omega) List.length_replicate
  unfold gfLog gfInit
  rw [repeatPowers_log]
  exact (congrArg UInt8.toNat h).trans (UInt8.toNat_ofNat_of_lt' (i.lt_trans hi (by decide)))

theorem gfMul_zero_left (a : UInt8) : gfMul 0 a = 0 := if_pos (Or.inl rfl)

theorem gfMul_zero_right (a : UInt8) : gfMul a 0 = 0 := if_pos (Or.inr rfl)

theorem gfMul_power {i j : ℕ} (hi : i < 255) (hj : j < 255) :
    gfMul (power i) (power j) = power (i + j) := by
  unfold gfMul
  rw [if_neg (by simp [power_ne_zero]), gfLog_power hi, gfLog_power hj, gfExp_eq (by omega)]

theorem gfMul_power_eq_double {i : ℕ} (hi : i < 255) (a : UInt8) :
    gfMul (power i) a = double^[i] a := by
  by_cases ha : a = 0
  · subst ha
    rw [gfMul_zero_right]
    exact (Function.iterate_fixed double_zero i).symm
  · obtain ⟨j, hj, rfl⟩ := exists_power ha
    rw [gfMul_power hi hj, power_add]

theorem iterate_double_xor (i : ℕ) (a b : UInt8) :
    double^[i] (a ^^^ b) = double^[i] a ^^^ double^[i] b := by
  induction i generalizing a b with
  | zero => rfl
  | succ i ih => rw [Function.iterate_succ_apply, double_xor, ih]; rfl

theorem gfMul_comm (a b : UInt8) : gfMul a b = gfMul b a := by
  unfold gfMul
  rw [Nat.add_comm]
  exact if_congr or_comm rfl rfl

theorem gfMul_assoc (a b c : UInt8) : gfMul (gfMul a b) c = gfMul a (gfMul b c) := by
  by_cases ha : a = 0
  · subst ha; simp only [gfMul_zero_left]
  by_cases hb : b = 0
  · subst hb; simp only [gfMul_zero_left, gfMul_zero_right]
  by_cases hc : c = 0
  · subst hc; simp only [gfMul_zero_right]
  obtain ⟨i, hi, rfl⟩ := exists_power ha
  obtain ⟨j, hj, rfl⟩ := exists_power hb
  obtain ⟨k, hk, rfl⟩ := exists_power hc
  rw [gfMul_power hi hj, gfMul_power hj hk, ← power_mod (i + j), ← power_mod (j + k),
    gfMul_power (Nat.mod_lt _ (by omega)) hk, gfMul_power hi (Nat.mod_lt _ (by omega)),
    ← power_mod, ← power_mod (i + _)]
  exact congrArg power (by omega)

theorem gfMul_xor (a b c : UInt8) : gfMul a (b ^^^ c) = gfMul a b ^^^ gfMul a c := by
  by_cases ha : a = 0
  · subst ha; simp [gfMul_zero_left]
  · obtain ⟨i, hi, rfl⟩ := exists_power ha
    simp only [gfMul_power_eq_double hi, iterate_double_xor]

theorem xor_gfMul (a b c : UInt8) : gfMul (a ^^^ b) c = gfMul a c ^^^ gfMul b c := by
  rw [gfMul_comm, gfMul_xor, gfMul_comm c, gfMul_comm c]

theorem gfMul_one (a : UInt8) : gfMul a 1 = a := by
  rw [gfMul_comm, ← power_zero, gfMul_power_eq_double (by omega)]
  rfl

theorem gfMul_inv {a : UInt8} (ha : a ≠ 0) : gfMul a (gfInv a) = 1 := by
  obtain ⟨i, hi, rfl⟩ := exists_power ha
  unfold gfInv
  rw [if_neg (power_ne_zero i), gfLog_power hi, gfExp_eq (by omega), ← power_mod (255 - i),
    gfMul_power hi (Nat.mod_lt _ (by omega)), ← power_mod]
  have hsum : (i + (255 - i) % 255) % 255 = 0 := by omega
  rw [hsum, power_zero]

/-- A byte read as an element of the field with 256 elements. -/
@[ext] structure GF256 where
  byte : UInt8
  deriving DecidableEq

abbrev gf (a : UInt8) : GF256 := ⟨a⟩

theorem gf_injective : Function.Injective gf := fun _ _ h => congrArg GF256.byte h

instance : Zero GF256 := ⟨gf 0⟩
instance : One GF256 := ⟨gf 1⟩
instance : Add GF256 := ⟨fun a b => gf (a.byte ^^^ b.byte)⟩
instance : Neg GF256 := ⟨id⟩
instance : Mul GF256 := ⟨fun a b => gf (gfMul a.byte b.byte)⟩
instance : Inv GF256 := ⟨fun a => gf (gfInv a.byte)⟩

instance : CommRing GF256 where
  add_assoc a b c := congrArg gf (UInt8.xor_assoc a.byte b.byte c.byte)
  zero_add a := congrArg gf (UInt8.zero_xor)
  add_zero a := congrArg gf (UInt8.xor_zero)
  add_comm a b := congrArg gf (UInt8.xor_comm a.byte b.byte)
  neg_add_cancel a := congrArg gf (UInt8.xor_self)
  mul_assoc a b c := congrArg gf (gfMul_assoc a.byte b.byte c.byte)
  mul_comm a b := congrArg gf (gfMul_comm a.byte b.byte)
  one_mul a := congrArg gf ((gfMul_comm 1 a.byte).trans (gfMul_one a.byte))
  mul_one a := congrArg gf (gfMul_one a.byte)
  zero_mul a := congrArg gf (gfMul_zero_left a.byte)
  mul_zero a := congrArg gf (gfMul_zero_right a.byte)
  left_distrib a b c := congrArg gf (gfMul_xor a.byte b.byte c.byte)
  right_distrib a b c := congrArg gf (xor_gfMul a.byte b.byte c.byte)
  nsmul := nsmulRec
  zsmul := zsmulRec

instance : Field GF256 where
  exists_pair_ne := ⟨0, 1, fun h => absurd (congrArg GF256.byte h) (by decide)⟩
  mul_inv_cancel a ha := congrArg gf (gfMul_inv fun h => ha (GF256.ext h))
  inv_zero := rfl
  nnqsmul := _
  qsmul := _

@[simp] theorem gf_zero : gf 0 = 0 := rfl

@[simp] theorem gf_one : gf 1 = 1 := rfl

theorem gf_xor (a b : UInt8) : gf (a ^^^ b) = gf a + gf b := rfl

theorem gf_mul (a b : UInt8) : gf (gfMul a b) = gf a * gf b := rfl

theorem gf_inv (a : UInt8) : gf (gfInv a) = (gf a)⁻¹ := rfl

theorem gf_eq_zero {a : UInt8} : gf a = 0 ↔ a = 0 :=
  ⟨fun h => gf_injective h, fun h => h ▸ rfl⟩

theorem add_self (a : GF256) : a + a = 0 := congrArg gf UInt8.xor_self

theorem neg_eq (a : GF256) : -a = a := rfl

/-- The generator. -/
def alpha : GF256 := gf 2

theorem gf_double (a : UInt8) : gf (double a) = alpha * gf a := by
  have hpow : power 1 = 2 := by decide +kernel
  have h := gfMul_power_eq_double (i := 1) (by omega) a
  rw [hpow] at h
  exact congrArg gf h.symm

theorem gf_power (i : ℕ) : gf (power i) = alpha ^ i := by
  induction i with
  | zero => rfl
  | succ i ih => rw [power_succ, gf_double, ih, pow_succ']

theorem gf_exp {i : ℕ} (hi : i < 512) : gf (gfExp i) = alpha ^ i := by
  rw [gfExp_eq hi, gf_power]

theorem alpha_ne_zero : alpha ≠ 0 := fun h => absurd (gf_eq_zero.mp h) (by decide)

theorem alpha_pow_period : alpha ^ 255 = 1 := by
  rw [← gf_power, power_period]
  rfl

theorem alpha_pow_inj {i j : ℕ} (hi : i < 255) (hj : j < 255) (h : alpha ^ i = alpha ^ j) :
    i = j := by
  rw [← gf_power, ← gf_power] at h
  exact power_inj hi hj (gf_injective h)

theorem gf_pow (a : UInt8) (e : ℕ) : gf (gfPow a e) = gf a ^ e := by
  unfold gfPow
  by_cases ha : a = 0
  · subst ha
    rw [if_pos rfl]
    rcases Nat.eq_zero_or_pos e with rfl | he
    · rfl
    · rw [if_neg (by omega), gf_zero, zero_pow (by omega)]
  · obtain ⟨i, hi, rfl⟩ := exists_power ha
    rw [if_neg ha, gfLog_power hi, gfExp_eq ((Nat.mod_lt _ (by omega)).trans (by omega)),
      power_mod, gf_power, gf_power, pow_mul]

theorem gf_foldl_xor (n : ℕ) (f : ℕ → UInt8) (a : UInt8) :
    gf ((List.range n).foldl (fun acc i => acc ^^^ f i) a) =
      gf a + ∑ i ∈ Finset.range n, gf (f i) := by
  induction n with
  | zero => simp
  | succ n ih =>
    rw [List.range_succ, List.foldl_append, List.foldl_cons, List.foldl_nil, gf_xor, ih,
      Finset.sum_range_succ, add_assoc]

theorem natCast_odd (i : ℕ) : ((2 * i + 1 : ℕ) : GF256) = 1 := by
  have htwo : (2 : GF256) = 0 := by rw [← one_add_one_eq_two, add_self]
  push_cast
  rw [htwo, zero_mul, zero_add]

theorem natCast_even (i : ℕ) : ((2 * i : ℕ) : GF256) = 0 := by
  have htwo : (2 : GF256) = 0 := by rw [← one_add_one_eq_two, add_self]
  push_cast
  rw [htwo, zero_mul]

end EchoProtocol.ByteField
