import Mathlib

/-!
# The bit ring

A ring of bytes written and read one bit at a time. Both sides advance to the next byte
lazily, so a count of eight is a legal resting value. `Holds` connects a ring to the queue
of its unread bits.
-/
namespace EchoProtocol.RingBits

def BUFFER_SIZE : ℕ := 16384
def BUFFER_MASK : ℕ := BUFFER_SIZE - 1

structure Buffer where
  buf : ℕ → UInt8
  head : ℕ
  tail : ℕ
  countPut : ℕ
  countGet : ℕ

def next (i : ℕ) : ℕ := (i + 1) &&& BUFFER_MASK

/-- `x |= bit << i`. -/
def setBit (x : UInt8) (i : ℕ) (bit : Bool) : UInt8 := (x.toNat ||| bit.toNat <<< i).toUInt8

/-- `(x >> i) & 1`. -/
def bitAt (x : UInt8) (i : ℕ) : Bool := x.toNat.testBit i

/-- `junk` is what the allocator left in the cells. -/
def rbInit (junk : ℕ → UInt8) : Buffer := ⟨Function.update junk 0 0, 0, 0, 0, 0⟩

/-- The byte advance of `put_bits`. -/
def advancePut (b : Buffer) : Buffer :=
  if b.countPut = 8 then
    { b with head := next b.head, buf := Function.update b.buf (next b.head) 0, countPut := 0 }
  else b

/-- `buf[h] |= bit << count_put` and the new count. -/
def storeBit (b : Buffer) (bit : Bool) : Buffer :=
  { b with
    buf := Function.update b.buf b.head (setBit (b.buf b.head) b.countPut bit)
    countPut := b.countPut + 1 }

/-- `none` is the return value 0, which leaves the ring as it was. -/
def putBits (b : Buffer) (bit : Bool) : Option Buffer :=
  if next b.head = b.tail then none else some (storeBit (advancePut b) bit)

/-- The byte advance of `get_bits`. -/
def advanceGet (b : Buffer) : Buffer :=
  if b.countGet = 8 then { b with tail := next b.tail, countGet := 0 } else b

/-- `(buf[t] >> count_get) & 1` and the new count. -/
def loadBit (b : Buffer) : Bool × Buffer :=
  (bitAt (b.buf b.tail) b.countGet, { b with countGet := b.countGet + 1 })

/-- `none` is the return value 0, which leaves the ring and the caller's bit as they were. -/
def getBits (b : Buffer) : Option (Bool × Buffer) :=
  if b.tail = b.head ∧ b.countGet = b.countPut then none else some (loadBit (advanceGet b))

def rbReset (b : Buffer) : Buffer := ⟨Function.update b.buf 0 0, 0, 0, 0, 0⟩

theorem next_eq (i : ℕ) : next i = (i + 1) % BUFFER_SIZE :=
  Nat.and_two_pow_sub_one_eq_mod (i + 1) 14

/-- The number of whole bytes from the read to the write position. -/
def used (b : Buffer) : ℕ := (b.head + BUFFER_SIZE - b.tail) % BUFFER_SIZE

def unreadCount (b : Buffer) : ℕ := 8 * used b + b.countPut - b.countGet

/-- The bit `p` places after the start of the byte under the read position. -/
def cell (b : Buffer) (p : ℕ) : Bool := bitAt (b.buf ((b.tail + p / 8) % BUFFER_SIZE)) (p % 8)

def unread (b : Buffer) : List Bool :=
  (List.range (unreadCount b)).map fun i => cell b (b.countGet + i)

structure WellFormed (b : Buffer) : Prop where
  head_lt : b.head < BUFFER_SIZE
  tail_lt : b.tail < BUFFER_SIZE
  countPut_le : b.countPut ≤ 8
  countGet_le : b.countGet ≤ 8
  same_byte : b.head = b.tail → b.countGet ≤ b.countPut
  other_byte : b.head ≠ b.tail → 1 ≤ b.countPut
  cleared : ∀ i, b.countPut ≤ i → i < 8 → bitAt (b.buf b.head) i = false

/-- The ring `b` represents the queue `q` of unread bits. -/
structure Holds (b : Buffer) (q : List Bool) : Prop where
  wellFormed : WellFormed b
  unread_eq : unread b = q

theorem bitAt_setBit {x : UInt8} {i j : ℕ} (bit : Bool) (hi : i < 8)
    (hx : bitAt x i = false) :
    bitAt (setBit x i bit) j = if j = i then bit else bitAt x j := by
  have hlt : x.toNat ||| bit.toNat <<< i < 2 ^ 8 := by
    apply Nat.or_lt_two_pow x.toNat_lt
    rw [Nat.shiftLeft_eq]
    have hb : bit.toNat ≤ 1 := Bool.toNat_le bit
    have hp : 2 ^ i ≤ 2 ^ 7 := Nat.pow_le_pow_right (by omega) (by omega)
    nlinarith
  unfold bitAt setBit at *
  rw [UInt8.toNat_ofNat_of_lt' hlt, Nat.testBit_or, Nat.testBit_shiftLeft]
  split_ifs with hji
  · subst hji
    rw [hx]
    cases bit <;> simp
  · rcases lt_or_gt_of_ne hji with hlt' | hgt
    · simp [Nat.not_le.mpr hlt']
    · obtain ⟨d, hd⟩ : ∃ d, j - i = d + 1 := ⟨j - i - 1, by omega⟩
      cases bit <;> simp [hd, Nat.testBit_succ]

theorem used_lt (b : Buffer) : used b < BUFFER_SIZE := Nat.mod_lt _ (by decide)

theorem head_eq {b : Buffer} (h : WellFormed b) : b.head = (b.tail + used b) % BUFFER_SIZE := by
  have hh := h.head_lt
  have ht := h.tail_lt
  unfold used BUFFER_SIZE at *
  omega

theorem used_eq_zero {b : Buffer} (h : WellFormed b) : used b = 0 ↔ b.head = b.tail := by
  have hh := h.head_lt
  have ht := h.tail_lt
  unfold used BUFFER_SIZE at *
  omega

theorem countGet_le_written {b : Buffer} (h : WellFormed b) :
    b.countGet ≤ 8 * used b + b.countPut := by
  have hg := h.countGet_le
  rcases Nat.eq_zero_or_pos (used b) with hz | hpos
  · have := h.same_byte ((used_eq_zero h).mp hz)
    omega
  · omega

theorem full_iff {b : Buffer} (h : WellFormed b) :
    next b.head = b.tail ↔ used b = BUFFER_SIZE - 1 := by
  have hh := h.head_lt
  have ht := h.tail_lt
  rw [next_eq]
  unfold used BUFFER_SIZE at *
  omega

/-- The empty test of `get_bits` is about bits. -/
theorem empty_iff {b : Buffer} (h : WellFormed b) :
    (b.tail = b.head ∧ b.countGet = b.countPut) ↔ unreadCount b = 0 := by
  have hg := h.countGet_le
  have hz := used_eq_zero h
  have hsame := h.same_byte
  have hother := h.other_byte
  unfold unreadCount
  constructor
  · rintro ⟨ht, hc⟩
    rw [hz.mpr ht.symm]
    omega
  · intro hcount
    by_cases hu : used b = 0
    · have heq := hz.mp hu
      have := hsame heq
      exact ⟨heq.symm, by omega⟩
    · have := hother fun heq => hu (hz.mpr heq)
      omega

theorem rbInit_holds (junk : ℕ → UInt8) : Holds (rbInit junk) [] := by
  refine ⟨⟨Nat.zero_lt_succ _, Nat.zero_lt_succ _, Nat.zero_le _, Nat.zero_le _, by simp [rbInit],
    by simp [rbInit], ?_⟩, ?_⟩
  · intro i _ _
    simp [rbInit, bitAt]
  · simp [rbInit, unread, unreadCount, used]

theorem rbReset_holds (b : Buffer) : Holds (rbReset b) [] := rbInit_holds b.buf

theorem Holds.length {b : Buffer} {q : List Bool} (h : Holds b q) : q.length = unreadCount b := by
  rw [← h.unread_eq, unread, List.length_map, List.length_range]

/-- After the byte advance the write position is the same and has room for a bit. -/
structure Prepared (b a : Buffer) : Prop where
  head_lt : a.head < BUFFER_SIZE
  tail_eq : a.tail = b.tail
  countGet_eq : a.countGet = b.countGet
  countPut_lt : a.countPut < 8
  position : 8 * used a + a.countPut = 8 * used b + b.countPut
  cleared : ∀ i, a.countPut ≤ i → i < 8 → bitAt (a.buf a.head) i = false
  cells : ∀ p < 8 * used b + b.countPut, cell a p = cell b p

theorem advancePut_prepared {b : Buffer} (h : WellFormed b) (hfull : next b.head ≠ b.tail) :
    Prepared b (advancePut b) := by
  have hp := h.countPut_le
  have hh := h.head_lt
  have ht := h.tail_lt
  have hu := used_lt b
  have hheadeq := head_eq h
  rw [Ne, full_iff h] at hfull
  unfold advancePut
  split_ifs with h8
  · refine ⟨?_, rfl, rfl, by simp, ?_, ?_, ?_⟩
    · simp only [next_eq]
      exact Nat.mod_lt _ (by decide)
    · simp only [used, next_eq] at hfull ⊢
      unfold BUFFER_SIZE at *
      omega
    · intro i _ _
      simp [bitAt]
    · intro p hpos
      unfold cell
      simp only
      rw [Function.update_of_ne]
      rw [next_eq, hheadeq]
      unfold BUFFER_SIZE at *
      omega
  · exact ⟨hh, rfl, rfl, by omega, rfl, h.cleared, fun _ _ => rfl⟩

theorem putBits_isSome_iff {b : Buffer} (h : WellFormed b) (bit : Bool) :
    (putBits b bit).isSome ↔ used b ≠ BUFFER_SIZE - 1 := by
  unfold putBits
  rw [Ne, ← full_iff h]
  split_ifs with hf <;> simp [hf]

/-- Storing a bit changes the cell at the write position and no other. -/
theorem storeBit_cell {b a : Buffer} (h : WellFormed b) (ha : Prepared b a) (bit : Bool) {p : ℕ}
    (hp : p ≤ 8 * used a + a.countPut) :
    cell (storeBit a bit) p = if p = 8 * used a + a.countPut then bit else cell a p := by
  have htl := h.tail_lt
  have hlt := ha.countPut_lt
  have hu := used_lt a
  have hheadeq : a.head = (a.tail + used a) % BUFFER_SIZE := by
    have hh := ha.head_lt
    unfold used
    rw [ha.tail_eq]
    unfold BUFFER_SIZE at *
    omega
  unfold cell storeBit
  simp only
  by_cases hsame : (a.tail + p / 8) % BUFFER_SIZE = a.head
  · have hbyte : p / 8 = used a := by
      rw [hheadeq, ha.tail_eq] at hsame
      unfold BUFFER_SIZE at *
      omega
    rw [hsame, Function.update_self, bitAt_setBit bit hlt (ha.cleared _ le_rfl hlt)]
    exact if_congr (by omega) rfl rfl
  · rw [Function.update_of_ne hsame, if_neg]
    rintro rfl
    apply hsame
    rw [show (8 * used a + a.countPut) / 8 = used a by omega, ← hheadeq]

theorem storeBit_wellFormed {b a : Buffer} (h : WellFormed b) (ha : Prepared b a) (bit : Bool) :
    WellFormed (storeBit a bit) := by
  have hlt := ha.countPut_lt
  refine ⟨ha.head_lt, ha.tail_eq ▸ h.tail_lt, hlt, ha.countGet_eq ▸ h.countGet_le, ?_, ?_, ?_⟩
  · intro heq
    have hz : used a = 0 := by
      change a.head = a.tail at heq
      unfold used
      rw [heq]
      unfold BUFFER_SIZE
      omega
    have hpos := ha.position
    have hwritten := countGet_le_written h
    change a.countGet ≤ a.countPut + 1
    rw [ha.countGet_eq]
    omega
  · intro _
    exact Nat.succ_le_succ (Nat.zero_le _)
  · intro i hi hi8
    change a.countPut + 1 ≤ i at hi
    change bitAt (Function.update a.buf a.head (setBit (a.buf a.head) a.countPut bit) a.head) i =
      false
    rw [Function.update_self, bitAt_setBit bit hlt (ha.cleared _ le_rfl hlt), if_neg (by omega)]
    exact ha.cleared i (by omega) hi8

theorem putBits_holds {b b' : Buffer} {q : List Bool} {bit : Bool} (h : Holds b q)
    (hput : putBits b bit = some b') : Holds b' (q ++ [bit]) := by
  unfold putBits at hput
  split_ifs at hput with hfull
  obtain rfl := Option.some.inj hput
  obtain ⟨hwf, rfl⟩ := h
  have ha := advancePut_prepared hwf hfull
  refine ⟨storeBit_wellFormed hwf ha bit, ?_⟩
  have hpos := ha.position
  have hwritten := countGet_le_written hwf
  have hcount : unreadCount (storeBit (advancePut b) bit) = unreadCount b + 1 := by
    change 8 * used (advancePut b) + ((advancePut b).countPut + 1) - (advancePut b).countGet = _
    rw [ha.countGet_eq]
    unfold unreadCount
    omega
  have hget : (storeBit (advancePut b) bit).countGet = b.countGet := ha.countGet_eq
  unfold unread
  rw [hcount, List.range_succ, List.map_append, List.map_singleton, hget]
  unfold unreadCount
  congr 1
  · refine List.map_congr_left fun i hi => ?_
    have hi' := List.mem_range.mp hi
    rw [storeBit_cell hwf ha bit (by omega), if_neg (by omega), ha.cells _ (by omega)]
  · rw [storeBit_cell hwf ha bit (by omega), if_pos (by omega)]

theorem putBits_some {b : Buffer} {q : List Bool} (h : Holds b q) (bit : Bool)
    (hlen : q.length ≤ (BUFFER_SIZE - 2) * 8) : ∃ b', putBits b bit = some b' := by
  rw [← Option.isSome_iff_exists, putBits_isSome_iff h.wellFormed]
  intro hfull
  have hg := h.wellFormed.countGet_le
  have hp : 1 ≤ b.countPut := h.wellFormed.other_byte fun heq => by
    rw [(used_eq_zero h.wellFormed).mpr heq] at hfull
    exact absurd hfull (by decide)
  rw [h.length] at hlen
  unfold unreadCount BUFFER_SIZE at *
  omega

theorem getBits_nil {b : Buffer} (h : Holds b []) : getBits b = none := by
  unfold getBits
  rw [if_pos ((empty_iff h.wellFormed).mpr h.length.symm)]

/-- The byte advance of a reader that has bits to read moves no bit. -/
theorem advanceGet_wellFormed {b : Buffer} (h : WellFormed b) (hne : unreadCount b ≠ 0) :
    WellFormed (advanceGet b) ∧ (advanceGet b).countGet < 8 ∧
      unreadCount (advanceGet b) = unreadCount b ∧
      ∀ i, cell (advanceGet b) ((advanceGet b).countGet + i) = cell b (b.countGet + i) := by
  have hg := h.countGet_le
  have hh := h.head_lt
  have ht := h.tail_lt
  have hp := h.countPut_le
  unfold advanceGet
  split_ifs with h8
  · have hdiff : b.head ≠ b.tail := by
      intro heq
      have := h.same_byte heq
      rw [unreadCount, (used_eq_zero h).mpr heq] at hne
      omega
    have hput := h.other_byte hdiff
    refine ⟨⟨hh, ?_, hp, Nat.zero_le _, fun _ => Nat.zero_le _, fun _ => hput, h.cleared⟩, ?_, ?_, ?_⟩
    · simp only [next_eq]
      exact Nat.mod_lt _ (by decide)
    · exact Nat.zero_lt_succ _
    · simp only [unreadCount, used, next_eq]
      unfold BUFFER_SIZE at *
      omega
    · intro i
      unfold cell
      simp only [next_eq]
      rw [h8, show ((b.tail + 1) % BUFFER_SIZE + (0 + i) / 8) % BUFFER_SIZE =
        (b.tail + (8 + i) / 8) % BUFFER_SIZE by unfold BUFFER_SIZE; omega,
        show (0 + i) % 8 = (8 + i) % 8 by omega]
  · exact ⟨h, by omega, rfl, fun _ => rfl⟩

theorem getBits_cons {b : Buffer} {bit : Bool} {q : List Bool} (h : Holds b (bit :: q)) :
    ∃ b', getBits b = some (bit, b') ∧ Holds b' q := by
  have hcount : unreadCount b = q.length + 1 := h.length.symm
  obtain ⟨hwf, hq⟩ := h
  obtain ⟨hwa, hlt, hua, hcell⟩ := advanceGet_wellFormed hwf (by omega)
  obtain ⟨hbit, hrest⟩ : cell b b.countGet = bit ∧
      (List.range q.length).map (fun i => cell b (b.countGet + (i + 1))) = q := by
    unfold unread at hq
    rw [hcount, List.range_succ_eq_map, List.map_cons, List.map_map] at hq
    exact List.cons.inj hq
  have htl := hwa.tail_lt
  have hempty := empty_iff hwa
  have hg := hwa.countGet_le
  refine ⟨(loadBit (advanceGet b)).2, ?_, ⟨hwa.head_lt, htl, hwa.countPut_le, hlt, ?_,
    hwa.other_byte, hwa.cleared⟩, ?_⟩
  · unfold getBits
    rw [if_neg ((empty_iff hwf).not.mpr (by omega))]
    congr 2
    rw [← hbit, ← add_zero b.countGet, ← hcell 0]
    unfold cell loadBit
    rw [add_zero, Nat.div_eq_of_lt hlt, Nat.mod_eq_of_lt hlt, add_zero, Nat.mod_eq_of_lt htl]
  · intro heq
    have := hwa.same_byte heq
    have hne : (advanceGet b).countGet ≠ (advanceGet b).countPut := fun hc =>
      absurd (hempty.mp ⟨heq.symm, hc⟩) (by omega)
    change (advanceGet b).countGet + 1 ≤ (advanceGet b).countPut
    omega
  · have hcount' : unreadCount (loadBit (advanceGet b)).2 = q.length := by
      change 8 * used (advanceGet b) + (advanceGet b).countPut - ((advanceGet b).countGet + 1) = _
      unfold unreadCount at hua hcount
      omega
    unfold unread
    rw [hcount', ← hrest, List.length_map, List.length_range]
    refine List.map_congr_left fun i _ => ?_
    rw [← hcell (i + 1)]
    change cell (advanceGet b) ((advanceGet b).countGet + 1 + i) = _
    rw [Nat.add_assoc, Nat.add_comm 1 i]

/-- How many bits can be written before the ring refuses one, if nothing is read. -/
def freeBits (b : Buffer) : ℕ :=
  if used b = BUFFER_SIZE - 1 then 0 else 8 - b.countPut + 8 * (BUFFER_SIZE - 2 - used b) + 1

theorem putBits_isSome_iff_freeBits {b : Buffer} (h : WellFormed b) (bit : Bool) :
    (putBits b bit).isSome ↔ 0 < freeBits b := by
  rw [putBits_isSome_iff h]
  unfold freeBits
  split_ifs with hfull <;> simp [hfull]

/-- A written bit takes one place. -/
theorem freeBits_putBits {b b' : Buffer} {bit : Bool} (h : WellFormed b)
    (hput : putBits b bit = some b') : freeBits b' + 1 = freeBits b := by
  have hroom := (putBits_isSome_iff h bit).mp (by simp [hput])
  unfold putBits at hput
  split_ifs at hput with hfull
  obtain rfl := Option.some.inj hput
  have ha := advancePut_prepared h hfull
  have hpos := ha.position
  have hlt := ha.countPut_lt
  have hle := h.countPut_le
  have hu := used_lt b
  have hua := used_lt (advancePut b)
  have hused : used (storeBit (advancePut b) bit) = used (advancePut b) := rfl
  have hcount : (storeBit (advancePut b) bit).countPut = (advancePut b).countPut + 1 := rfl
  unfold freeBits
  rw [hused, hcount, if_neg hroom]
  unfold BUFFER_SIZE at *
  split_ifs <;> omega

theorem putBits_wellFormed {b b' : Buffer} {bit : Bool} (h : WellFormed b)
    (hput : putBits b bit = some b') : WellFormed b' :=
  (putBits_holds ⟨h, rfl⟩ hput).wellFormed

theorem unread_ne_nil {b b' : Buffer} {bit : Bool} (h : WellFormed b)
    (hget : getBits b = some (bit, b')) : unreadCount b ≠ 0 := by
  unfold getBits at hget
  split_ifs at hget with hempty
  exact fun hz => hempty ((empty_iff h).mpr hz)

theorem getBits_wellFormed {b b' : Buffer} {bit : Bool} (h : WellFormed b)
    (hget : getBits b = some (bit, b')) : WellFormed b' := by
  have hne := unread_ne_nil h hget
  rcases hq : unread b with _ | ⟨bit', q⟩
  · exact absurd ((Holds.length ⟨h, hq⟩).symm) hne
  · obtain ⟨b'', hget', hholds⟩ := getBits_cons ⟨h, hq⟩
    rw [hget] at hget'
    obtain ⟨-, rfl⟩ := Prod.mk.inj (Option.some.inj hget')
    exact hholds.wellFormed

/-- Reading leaves the write position and frees a byte at most. -/
theorem getBits_used {b b' : Buffer} {bit : Bool} (h : WellFormed b)
    (hget : getBits b = some (bit, b')) :
    b'.countPut = b.countPut ∧ (used b' = used b ∨ used b' + 1 = used b) := by
  have hne := unread_ne_nil h hget
  have hother := h.other_byte
  have hsame := h.same_byte
  have hz := used_eq_zero h
  have hh := h.head_lt
  have ht := h.tail_lt
  have hg := h.countGet_le
  have hp := h.countPut_le
  unfold getBits at hget
  split_ifs at hget with hempty
  have hb' : b' = (loadBit (advanceGet b)).2 := congrArg Prod.snd (Option.some.inj hget).symm
  rw [hb']
  unfold unreadCount at hne
  unfold loadBit advanceGet
  split_ifs with h8
  · refine ⟨rfl, ?_⟩
    simp only [used, next_eq] at *
    unfold BUFFER_SIZE at *
    omega
  · exact ⟨rfl, .inl rfl⟩

theorem freeBits_getBits {b b' : Buffer} {bit : Bool} (h : WellFormed b)
    (hget : getBits b = some (bit, b')) : freeBits b ≤ freeBits b' := by
  obtain ⟨hcount, hused⟩ := getBits_used h hget
  have hu := used_lt b
  have hle := h.countPut_le
  unfold freeBits
  rw [hcount]
  unfold BUFFER_SIZE at *
  split_ifs <;> omega

end EchoProtocol.RingBits
