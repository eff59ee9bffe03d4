import EchoProtocol.Runs
import EchoProtocol.RingBits

/-!
# The bit ring under concurrent access

`put_bits` and `get_bits` as sequences of their single loads, stores and byte accesses, taken
in any order by one producer and one consumer.
-/
namespace EchoProtocol.RingConcurrent
open RingBits Runs

/-- Where the producer stands in `put_bits`; each constructor is named by the next access and
carries the local variables that are still needed. -/
inductive Producer
  | idle
  | loadTail (bit : Bool) (h : ℕ)
  | loadCountPut (bit : Bool) (h : ℕ)
  | storeHead (bit : Bool) (h : ℕ)
  | clearByte (bit : Bool) (h : ℕ)
  | resetCountPut (bit : Bool) (h : ℕ)
  | loadByte (bit : Bool) (h cp : ℕ)
  | storeByte (bit : Bool) (h cp : ℕ) (byte : UInt8)
  | storeCountPut (h cp : ℕ)
  deriving DecidableEq

/-- Where the consumer stands in `get_bits`. -/
inductive Consumer
  | idle
  | loadTail (h : ℕ)
  | loadCountPut (h t : ℕ)
  | loadCountGet (h t cp : ℕ)
  | storeTail (t : ℕ)
  | resetCountGet (t : ℕ)
  | readByte (t cg : ℕ)
  | storeCountGet (t cg : ℕ) (bit : Bool)
  deriving DecidableEq

/-- The ring, both sides, the bits given to calls of `put_bits` that passed the fullness test,
and the bits returned by successful calls of `get_bits`. -/
structure State where
  ring : Buffer
  producer : Producer
  consumer : Consumer
  given : List Bool
  got : List Bool

/-- The next access of the producer; an idle one calls `put_bits` with `arg`. -/
def produce (s : State) (arg : Bool) : State :=
  match s.producer with
  | .idle => { s with producer := .loadTail arg s.ring.head }
  | .loadTail bit h =>
      if next h = s.ring.tail then { s with producer := .idle }
      else { s with producer := .loadCountPut bit h, given := s.given ++ [bit] }
  | .loadCountPut bit h =>
      if s.ring.countPut = 8 then { s with producer := .storeHead bit (next h) }
      else { s with producer := .loadByte bit h s.ring.countPut }
  | .storeHead bit h =>
      { s with ring := { s.ring with head := h }, producer := .clearByte bit h }
  | .clearByte bit h =>
      { s with
        ring := { s.ring with buf := Function.update s.ring.buf h 0 }
        producer := .resetCountPut bit h }
  | .resetCountPut bit h =>
      { s with ring := { s.ring with countPut := 0 }, producer := .loadByte bit h 0 }
  | .loadByte bit h cp => { s with producer := .storeByte bit h cp (s.ring.buf h) }
  | .storeByte bit h cp byte =>
      { s with
        ring := { s.ring with buf := Function.update s.ring.buf h (setBit byte cp bit) }
        producer := .storeCountPut h cp }
  | .storeCountPut _ cp =>
      { s with ring := { s.ring with countPut := cp + 1 }, producer := .idle }

/-- The next access of the consumer; an idle one calls `get_bits`. -/
def consume (s : State) : State :=
  match s.consumer with
  | .idle => { s with consumer := .loadTail s.ring.head }
  | .loadTail h => { s with consumer := .loadCountPut h s.ring.tail }
  | .loadCountPut h t => { s with consumer := .loadCountGet h t s.ring.countPut }
  | .loadCountGet h t cp =>
      if t = h ∧ s.ring.countGet = cp then { s with consumer := .idle }
      else if s.ring.countGet = 8 then { s with consumer := .storeTail (next t) }
      else { s with consumer := .readByte t s.ring.countGet }
  | .storeTail t =>
      { s with ring := { s.ring with tail := t }, consumer := .resetCountGet t }
  | .resetCountGet t =>
      { s with ring := { s.ring with countGet := 0 }, consumer := .readByte t 0 }
  | .readByte t cg => { s with consumer := .storeCountGet t cg (bitAt (s.ring.buf t) cg) }
  | .storeCountGet _ cg bit =>
      { s with
        ring := { s.ring with countGet := cg + 1 }
        consumer := .idle
        got := s.got ++ [bit] }

inductive Move
  | producer (arg : Bool)
  | consumer
  deriving DecidableEq

def step (s : State) : Move → State
  | .producer arg => produce s arg
  | .consumer => consume s

def initial (junk : ℕ → UInt8) : State := ⟨rbInit junk, .idle, .idle, [], []⟩

/-- No bit is invented, lost, duplicated or reordered. -/
def InOrder (s : State) : Prop := s.got <+: s.given

instance (s : State) : Decidable (InOrder s) := inferInstanceAs (Decidable (_ <+: _))

/-- The producer has published a new byte, or is about to write the first bit of the ring, and
has not yet counted a bit in it. -/
def opening : Producer → Option ℕ
  | .clearByte _ h => some h
  | .resetCountPut _ h => some h
  | .loadByte _ h cp => if cp = 0 then some h else none
  | .storeByte _ h cp _ => if cp = 0 then some h else none
  | .storeCountPut h cp => if cp = 0 then some h else none
  | _ => none

/-- `get_bits` does not read the byte that `put_bits` is opening. -/
def Settled (s : State) : Move → Prop
  | .producer _ => True
  | .consumer =>
      match s.consumer with
      | .readByte t _ => opening s.producer ≠ some t
      | _ => True

instance (s : State) (m : Move) : Decidable (Settled s m) := by
  unfold Settled
  split
  · exact inferInstance
  · split <;> exact inferInstance

def putMoves (bit : Bool) (n : ℕ) : List Move := List.replicate n (.producer bit)
def getMoves (n : ℕ) : List Move := List.replicate n .consumer

def earlyRead : List Move :=
  (List.replicate 8 (putMoves false 6 ++ getMoves 6)).flatten ++ putMoves true 4 ++ getMoves 8

/-- The ninth bit is read out of a byte that has been published but not written. -/
theorem early_read_out_of_order : ∃ moves, ¬ InOrder (run step (initial fun _ => 0) moves) :=
  ⟨earlyRead, by decide +kernel⟩

/-- Bit `p` of all bits ever written, as it stands in the ring. -/
def bitOf (buf : ℕ → UInt8) (p : ℕ) : Bool := bitAt (buf (p / 8 % BUFFER_SIZE)) (p % 8)

/-- The bits of byte `H` from `i` on are clear. -/
def ClearFrom (buf : ℕ → UInt8) (H i : ℕ) : Prop :=
  ∀ j, i ≤ j → j < 8 → bitAt (buf (H % BUFFER_SIZE)) j = false

/-- Between two calls byte `H` holds the last completed bits. -/
structure Resting (buf : ℕ → UInt8) (countPut H n : ℕ) : Prop where
  count_eq : n = 8 * H + countPut
  count_le : countPut ≤ 8
  opened : 1 ≤ H → 1 ≤ countPut
  clear : ClearFrom buf H countPut

/-- The bit at place `cp` of byte `H` is about to be written. -/
structure Writing (buf : ℕ → UInt8) (countPut H n h cp : ℕ) : Prop where
  count_eq : n = 8 * H + cp
  count_lt : cp < 8
  same : countPut = cp
  byte : h = H % BUFFER_SIZE
  clear : ClearFrom buf H cp

/-- Byte `H` has been published and is not yet ready for its first bit. -/
structure Opening (countPut H n h : ℕ) : Prop where
  count_eq : n = 8 * H
  positive : 1 ≤ H
  stale : countPut = 8
  byte : h = H % BUFFER_SIZE

/-- What holds of the producer before each of its accesses. Bytes are numbered without wrapping: `H` is
the byte under the write position, `T` the one under the read position, and `n` counts the completed
calls of `put_bits`. -/
def ProducerOk (buf : ℕ → UInt8) (countPut H T n : ℕ) (given : List Bool) : Producer → Prop
  | .idle => Resting buf countPut H n
  | .loadTail _ h => Resting buf countPut H n ∧ h = H % BUFFER_SIZE
  | .loadCountPut bit h => Resting buf countPut H n ∧ h = H % BUFFER_SIZE ∧
      H + 1 < T + BUFFER_SIZE ∧ given[n]? = some bit
  | .storeHead bit h => Resting buf countPut H n ∧ countPut = 8 ∧ h = (H + 1) % BUFFER_SIZE ∧
      H + 1 < T + BUFFER_SIZE ∧ given[n]? = some bit
  | .clearByte bit h => Opening countPut H n h ∧ given[n]? = some bit
  | .resetCountPut bit h => Opening countPut H n h ∧ ClearFrom buf H 0 ∧ given[n]? = some bit
  | .loadByte bit h cp => Writing buf countPut H n h cp ∧ given[n]? = some bit
  | .storeByte bit h cp byte => Writing buf countPut H n h cp ∧ byte = buf h ∧ given[n]? = some bit
  | .storeCountPut h cp => n = 8 * H + cp ∧ cp < 8 ∧ countPut = cp ∧ h = H % BUFFER_SIZE ∧
      ClearFrom buf H (cp + 1) ∧ given[n]? = some (bitOf buf n)

/-- How many bits have been given to a call that is not completed. -/
def pending : Producer → ℕ
  | .idle => 0
  | .loadTail _ _ => 0
  | _ => 1

/-- Between two calls `r` bits have been returned, the last of them from byte `T`. -/
structure Drained (countGet T n r : ℕ) : Prop where
  count_eq : r = 8 * T + countGet
  count_le : countGet ≤ 8
  read_le : r ≤ n
  opened : 1 ≤ T → 8 * T + 1 ≤ r

def ConsumerOk (countGet H T n r : ℕ) (given : List Bool) : Consumer → Prop
  | .idle => Drained countGet T n r
  | .loadTail h => Drained countGet T n r ∧ (T < H ∨ h = T % BUFFER_SIZE)
  | .loadCountPut h t => Drained countGet T n r ∧ t = T % BUFFER_SIZE ∧ (T < H ∨ h = t)
  | .loadCountGet h t cp => Drained countGet T n r ∧ t = T % BUFFER_SIZE ∧
      (T < H ∨ (h = t ∧ r ≤ 8 * T + cp ∧ 8 * T + cp ≤ n ∧ cp ≤ 8))
  | .storeTail t => r = 8 * T + 8 ∧ r ≤ n ∧ T < H ∧ t = (T + 1) % BUFFER_SIZE
  | .resetCountGet t => r = 8 * T ∧ r ≤ n ∧ 1 ≤ T ∧ t = T % BUFFER_SIZE
  | .readByte t cg => r = 8 * T + cg ∧ cg < 8 ∧ t = T % BUFFER_SIZE ∧
      (r < n ∨ (cg = 0 ∧ 1 ≤ T ∧ r ≤ n))
  | .storeCountGet _ cg bit => r = 8 * T + cg ∧ cg < 8 ∧ r < n ∧ given[r]? = some bit

structure Invariant (s : State) (H T n : ℕ) : Prop where
  head_eq : s.ring.head = H % BUFFER_SIZE
  tail_eq : s.ring.tail = T % BUFFER_SIZE
  tail_le : T ≤ H
  room : H < T + BUFFER_SIZE
  given_length : s.given.length = n + pending s.producer
  cells : ∀ p, 8 * T ≤ p → p < n → s.given[p]? = some (bitOf s.ring.buf p)
  prefix_given : s.got <+: s.given
  producer : ProducerOk s.ring.buf s.ring.countPut H T n s.given s.producer
  consumer : ConsumerOk s.ring.countGet H T n s.got.length s.given s.consumer

theorem initial_invariant (junk : ℕ → UInt8) : Invariant (initial junk) 0 0 0 := by
  refine ⟨rfl, rfl, le_rfl, by decide, rfl, fun p _ hp => absurd hp (Nat.not_lt_zero p),
    List.prefix_rfl, ⟨rfl, Nat.zero_le _, fun h => absurd h (by decide), ?_⟩,
    ⟨rfl, Nat.zero_le _, le_rfl, fun h => absurd h (by decide)⟩⟩
  intro j _ _
  simp [initial, rbInit, bitAt]

theorem ProducerOk.head_le {buf : ℕ → UInt8} {countPut H T n : ℕ} {given : List Bool}
    {p : Producer} (h : ProducerOk buf countPut H T n given p) : 8 * H ≤ n := by
  cases p with
  | idle => exact Resting.count_eq h ▸ Nat.le_add_right _ _
  | loadTail | loadCountPut | storeHead => exact h.1.count_eq ▸ Nat.le_add_right _ _
  | clearByte | resetCountPut => exact h.1.count_eq.ge
  | loadByte | storeByte => exact h.1.count_eq ▸ Nat.le_add_right _ _
  | storeCountPut => exact h.1 ▸ Nat.le_add_right _ _

theorem ProducerOk.counts {buf : ℕ → UInt8} {countPut H T n : ℕ} {given : List Bool}
    {p : Producer} (h : ProducerOk buf countPut H T n given p) (hH : 1 ≤ H → 8 * H + 1 ≤ n) :
    n = 8 * H + countPut ∧ countPut ≤ 8 := by
  cases p with
  | idle => exact ⟨Resting.count_eq h, Resting.count_le h⟩
  | loadTail | loadCountPut | storeHead => exact ⟨h.1.count_eq, h.1.count_le⟩
  | clearByte | resetCountPut =>
    have hn := h.1.count_eq
    have hpos := hH h.1.positive
    omega
  | loadByte | storeByte =>
    have hn := h.1.count_eq
    have hlt := h.1.count_lt
    have hsame := h.1.same
    omega
  | storeCountPut =>
    obtain ⟨hn, hlt, hsame, -⟩ := h
    omega

theorem ProducerOk.counted {buf : ℕ → UInt8} {countPut H T n : ℕ} {given : List Bool}
    {p : Producer} (h : ProducerOk buf countPut H T n given p)
    (hopen : opening p ≠ some (H % BUFFER_SIZE)) (hH : 1 ≤ H) : 8 * H + 1 ≤ n := by
  cases p with
  | idle =>
    have hn := Resting.count_eq h
    have hput := Resting.opened h hH
    omega
  | loadTail | loadCountPut | storeHead =>
    have hn := h.1.count_eq
    have hput := h.1.opened hH
    omega
  | clearByte | resetCountPut => exact absurd (congrArg some h.1.byte) hopen
  | loadByte bit i cp | storeByte bit i cp byte =>
    have hn := h.1.count_eq
    by_cases hcp : cp = 0
    · exact absurd ((if_pos hcp).trans (congrArg some h.1.byte)) hopen
    · omega
  | storeCountPut i cp =>
    obtain ⟨hn, -, -, hbyte, -⟩ := h
    by_cases hcp : cp = 0
    · exact absurd ((if_pos hcp).trans (congrArg some hbyte)) hopen
    · omega

theorem getElem?_of_prefix {l m : List Bool} {i : ℕ} {bit : Bool} (hlm : l <+: m)
    (h : l[i]? = some bit) : m[i]? = some bit := by
  obtain ⟨hi, -⟩ := List.getElem?_eq_some_iff.mp h
  obtain ⟨t, rfl⟩ := hlm
  rw [List.getElem?_append_left hi, h]

theorem ProducerOk.mono {buf : ℕ → UInt8} {countPut H T T' n : ℕ} {given : List Bool}
    {p : Producer} (h : ProducerOk buf countPut H T n given p) (hT : T ≤ T') :
    ProducerOk buf countPut H T' n given p := by
  cases p with
  | loadCountPut => exact ⟨h.1, h.2.1, h.2.2.1.trans_le (Nat.add_le_add_right hT _), h.2.2.2⟩
  | storeHead =>
    obtain ⟨hrest, h8, hi, hlt, hbit⟩ := h
    exact ⟨hrest, h8, hi, hlt.trans_le (Nat.add_le_add_right hT _), hbit⟩
  | _ => exact h

theorem ConsumerOk.mono {countGet H H' T n n' r : ℕ} {given given' : List Bool} {c : Consumer}
    (h : ConsumerOk countGet H T n r given c) (hH : H ≤ H') (hn : n ≤ n')
    (hgiven : given <+: given') : ConsumerOk countGet H' T n' r given' c := by
  have hdrained : Drained countGet T n r → Drained countGet T n' r := fun hd =>
    ⟨hd.count_eq, hd.count_le, hd.read_le.trans hn, hd.opened⟩
  cases c with
  | idle => exact hdrained h
  | loadTail => exact ⟨hdrained h.1, h.2.imp (by omega) id⟩
  | loadCountPut => exact ⟨hdrained h.1, h.2.1, h.2.2.imp (by omega) id⟩
  | loadCountGet =>
    exact ⟨hdrained h.1, h.2.1, h.2.2.imp (by omega) fun hs => ⟨hs.1, hs.2.1, by omega, hs.2.2.2⟩⟩
  | storeTail => exact ⟨h.1, by have := h.2.1; omega, by have := h.2.2.1; omega, h.2.2.2⟩
  | resetCountGet => exact ⟨h.1, by have := h.2.1; omega, h.2.2⟩
  | readByte => exact ⟨h.1, h.2.1, h.2.2.1, h.2.2.2.imp (by omega) fun hs => ⟨hs.1, hs.2.1, by omega⟩⟩
  | storeCountGet =>
    obtain ⟨hr, hcg, hlt, hbit⟩ := h
    exact ⟨hr, hcg, by omega, getElem?_of_prefix hgiven hbit⟩

theorem bitOf_update_of_ne {buf : ℕ → UInt8} {p h : ℕ} (byte : UInt8)
    (hne : p / 8 % BUFFER_SIZE ≠ h) : bitOf (Function.update buf h byte) p = bitOf buf p := by
  unfold bitOf
  rw [Function.update_of_ne hne]

theorem place_ne {T H q : ℕ} (hT : T ≤ q) (hq : q < H) (hroom : H < T + BUFFER_SIZE) :
    q % BUFFER_SIZE ≠ H % BUFFER_SIZE := by
  unfold BUFFER_SIZE at *
  omega

theorem bitOf_write {buf : ℕ → UInt8} {countPut H T n h cp p : ℕ} (bit : Bool)
    (hw : Writing buf countPut H n h cp) (hroom : H < T + BUFFER_SIZE) (hp : 8 * T ≤ p)
    (hpn : p ≤ n) : bitOf (Function.update buf h (setBit (buf h) cp bit)) p =
      if p = n then bit else bitOf buf p := by
  have hn := hw.count_eq
  have hlt := hw.count_lt
  by_cases hbyte : p / 8 = H
  · have hplace : p / 8 % BUFFER_SIZE = h := by rw [hbyte, hw.byte]
    have hclear : bitAt (buf h) cp = false := hw.byte ▸ hw.clear cp le_rfl hlt
    unfold bitOf
    rw [hplace, Function.update_self, bitAt_setBit bit hlt hclear]
    exact if_congr (by omega) rfl rfl
  · have hplace := place_ne (by omega : T ≤ p / 8) (by omega : p / 8 < H) hroom
    rw [bitOf_update_of_ne _ (hw.byte ▸ hplace), if_neg (by omega)]

theorem clearFrom_clearByte (buf : ℕ → UInt8) (H : ℕ) :
    ClearFrom (Function.update buf (H % BUFFER_SIZE) 0) H 0 := by
  intro j _ _
  simp [bitAt]

theorem clearFrom_write {buf : ℕ → UInt8} {countPut H n h cp : ℕ} (bit : Bool)
    (hw : Writing buf countPut H n h cp) :
    ClearFrom (Function.update buf h (setBit (buf h) cp bit)) H (cp + 1) := by
  intro j hj hj8
  rw [← hw.byte, Function.update_self]
  have hzero : bitAt (buf h) cp = false := hw.byte ▸ hw.clear cp le_rfl hw.count_lt
  rw [bitAt_setBit bit hw.count_lt hzero, if_neg (by omega), hw.byte]
  exact hw.clear j (by omega) hj8

theorem Invariant.producer_moves {s : State} {H T n : ℕ} {p : Producer} (h : Invariant s H T n)
    (hp : ProducerOk s.ring.buf s.ring.countPut H T n s.given p)
    (hpend : pending p = pending s.producer) : Invariant { s with producer := p } H T n :=
  { h with given_length := by rw [hpend]; exact h.given_length, producer := hp }

section Producing
variable {s : State} {H T n h cp : ℕ} {arg bit : Bool} {byte : UInt8}

theorem Invariant.produce_loadTail (hinv : Invariant s H T n)
    (hp : s.producer = .loadTail bit h) : Invariant (produce s arg) H T n := by
  have hprod := hinv.producer
  obtain ⟨ring, producer, consumer, given, got⟩ := s
  obtain rfl : producer = .loadTail bit h := hp
  obtain ⟨hrest, hi⟩ := hprod
  simp only [produce]
  split_ifs with hfull
  · exact hinv.producer_moves hrest rfl
  · have hlen : given.length = n := hinv.given_length
    have hmore : given <+: given ++ [bit] := List.prefix_append _ _
    have hcons : ConsumerOk ring.countGet H T n got.length given consumer := hinv.consumer
    have hlt : H + 1 < T + BUFFER_SIZE := by
      have hroom := hinv.room
      have htail := hinv.tail_le
      rw [hi, next_eq, hinv.tail_eq] at hfull
      unfold BUFFER_SIZE at *
      omega
    have hbit : (given ++ [bit])[n]? = some bit := hlen ▸ List.getElem?_concat_length
    exact { hinv with
      given_length := by simp [hlen, pending]
      cells := fun p hp hpn => getElem?_of_prefix hmore (hinv.cells p hp hpn)
      prefix_given := hinv.prefix_given.trans hmore
      producer := ⟨hrest, hi, hlt, hbit⟩
      consumer := hcons.mono le_rfl le_rfl hmore }

theorem Invariant.produce_loadCountPut (hinv : Invariant s H T n)
    (hp : s.producer = .loadCountPut bit h) : Invariant (produce s arg) H T n := by
  have hprod := hinv.producer
  obtain ⟨ring, producer, consumer, given, got⟩ := s
  obtain rfl : producer = .loadCountPut bit h := hp
  obtain ⟨hrest, hi, hlt, hbit⟩ := hprod
  simp only [produce]
  split_ifs with h8
  · have hnext : next h = (H + 1) % BUFFER_SIZE := by rw [hi, next_eq, Nat.mod_add_mod]
    exact hinv.producer_moves ⟨hrest, h8, hnext, hlt, hbit⟩ rfl
  · have hcp : ring.countPut < 8 := lt_of_le_of_ne hrest.count_le h8
    exact hinv.producer_moves ⟨⟨hrest.count_eq, hcp, rfl, hi, hrest.clear⟩, hbit⟩ rfl

theorem Invariant.produce_storeHead (hinv : Invariant s H T n)
    (hp : s.producer = .storeHead bit h) : Invariant (produce s arg) (H + 1) T n := by
  have hprod := hinv.producer
  obtain ⟨ring, producer, consumer, given, got⟩ := s
  obtain rfl : producer = .storeHead bit h := hp
  obtain ⟨hrest, h8, hi, hlt, hbit⟩ := hprod
  have hcons : ConsumerOk ring.countGet H T n got.length given consumer := hinv.consumer
  have hn : n = 8 * (H + 1) := by
    rw [hrest.count_eq, h8]
    ring
  exact { hinv with
    head_eq := hi
    tail_le := hinv.tail_le.trans (Nat.le_succ H)
    room := hlt
    producer := ⟨⟨hn, Nat.le_add_left 1 H, h8, hi⟩, hbit⟩
    consumer := hcons.mono (Nat.le_succ H) le_rfl List.prefix_rfl }

theorem Invariant.produce_clearByte (hinv : Invariant s H T n)
    (hp : s.producer = .clearByte bit h) : Invariant (produce s arg) H T n := by
  have hprod := hinv.producer
  obtain ⟨ring, producer, consumer, given, got⟩ := s
  obtain rfl : producer = .clearByte bit h := hp
  obtain ⟨hopen, hbit⟩ := hprod
  have hn := hopen.count_eq
  have hclear := clearFrom_clearByte ring.buf H
  rw [← hopen.byte] at hclear
  refine { hinv with cells := fun p hp hpn => ?_, producer := ⟨hopen, hclear, hbit⟩ }
  have hplace := place_ne (by omega : T ≤ p / 8) (by omega : p / 8 < H) hinv.room
  exact (hinv.cells p hp hpn).trans
    (congrArg some (bitOf_update_of_ne 0 (hopen.byte ▸ hplace)).symm)

theorem Invariant.produce_storeByte (hinv : Invariant s H T n)
    (hp : s.producer = .storeByte bit h cp byte) : Invariant (produce s arg) H T n := by
  have hprod := hinv.producer
  obtain ⟨ring, producer, consumer, given, got⟩ := s
  obtain rfl : producer = .storeByte bit h cp byte := hp
  obtain ⟨hw, hbyte, hbit⟩ := hprod
  have hn := hw.count_eq
  have hplaces : 8 * T ≤ n := by
    have htail := hinv.tail_le
    omega
  simp only [produce, hbyte]
  refine { hinv with
    cells := fun p hp hpn => ?_
    producer := ⟨hn, hw.count_lt, hw.same, hw.byte, clearFrom_write bit hw, ?_⟩ }
  · have hkept := bitOf_write bit hw hinv.room hp hpn.le
    rw [if_neg hpn.ne] at hkept
    exact (hinv.cells p hp hpn).trans (congrArg some hkept.symm)
  · have hwritten := bitOf_write bit hw hinv.room hplaces le_rfl
    rw [if_pos rfl] at hwritten
    exact hbit.trans (congrArg some hwritten.symm)

theorem Invariant.produce_storeCountPut (hinv : Invariant s H T n)
    (hp : s.producer = .storeCountPut h cp) : Invariant (produce s arg) H T (n + 1) := by
  have hprod := hinv.producer
  obtain ⟨ring, producer, consumer, given, got⟩ := s
  obtain rfl : producer = .storeCountPut h cp := hp
  obtain ⟨hn, hlt, -, hi, hclear, hbit⟩ := hprod
  have hcons : ConsumerOk ring.countGet H T n got.length given consumer := hinv.consumer
  have hcount : n + 1 = 8 * H + (cp + 1) := by omega
  refine { hinv with
    given_length := hinv.given_length
    cells := fun p hp hpn => ?_
    producer := ⟨hcount, hlt, fun _ => Nat.succ_le_succ (Nat.zero_le _), hclear⟩
    consumer := hcons.mono le_rfl (Nat.le_succ n) List.prefix_rfl }
  rcases Nat.lt_succ_iff_lt_or_eq.mp hpn with hpn' | rfl
  · exact hinv.cells p hp hpn'
  · exact hbit

theorem produce_invariant (arg : Bool) (hinv : Invariant s H T n) :
    ∃ H' n', Invariant (produce s arg) H' T n' := by
  have hprod := hinv.producer
  cases hp : s.producer with
  | idle =>
    rw [hp] at hprod
    rw [produce, hp]
    exact ⟨H, n, hinv.producer_moves ⟨hprod, hinv.head_eq⟩ (by rw [hp]; rfl)⟩
  | loadTail bit h => exact ⟨H, n, hinv.produce_loadTail hp⟩
  | loadCountPut bit h => exact ⟨H, n, hinv.produce_loadCountPut hp⟩
  | storeHead bit h => exact ⟨H + 1, n, hinv.produce_storeHead hp⟩
  | clearByte bit h => exact ⟨H, n, hinv.produce_clearByte hp⟩
  | resetCountPut bit h =>
    rw [hp] at hprod
    obtain ⟨hopen, hclear, hbit⟩ := hprod
    rw [produce, hp]
    exact ⟨H, n, { hinv with
      given_length := by rw [hinv.given_length, hp]; rfl
      producer := ⟨⟨hopen.count_eq, by decide, rfl, hopen.byte, hclear⟩, hbit⟩ }⟩
  | loadByte bit h cp =>
    rw [hp] at hprod
    rw [produce, hp]
    exact ⟨H, n, hinv.producer_moves ⟨hprod.1, rfl, hprod.2⟩ (by rw [hp]; rfl)⟩
  | storeByte bit h cp byte => exact ⟨H, n, hinv.produce_storeByte hp⟩
  | storeCountPut h cp => exact ⟨H, n + 1, hinv.produce_storeCountPut hp⟩

end Producing

theorem Invariant.consumer_moves {s : State} {H T n : ℕ} {c : Consumer} (h : Invariant s H T n)
    (hc : ConsumerOk s.ring.countGet H T n s.got.length s.given c) :
    Invariant { s with consumer := c } H T n :=
  { h with consumer := hc }

theorem concat_prefix {l m : List Bool} {bit : Bool} (hlm : l <+: m)
    (h : m[l.length]? = some bit) : l ++ [bit] <+: m := by
  obtain ⟨t, rfl⟩ := hlm
  rw [List.getElem?_append_right le_rfl, Nat.sub_self] at h
  cases t with
  | nil => exact absurd h (by simp)
  | cons b t =>
    obtain rfl : b = bit := by simpa using h
    exact ⟨t, by simp⟩

section Consuming
variable {s : State} {H T n h t cp cg : ℕ} {bit : Bool}

theorem Invariant.consume_loadCountPut (hinv : Invariant s H T n)
    (hc : s.consumer = .loadCountPut h t) : Invariant (consume s) H T n := by
  have hcons := hinv.consumer
  obtain ⟨ring, producer, consumer, given, got⟩ := s
  obtain rfl : consumer = .loadCountPut h t := hc
  have hprod : ProducerOk ring.buf ring.countPut H T n given producer := hinv.producer
  obtain ⟨hd, ht, hpos⟩ := hcons
  refine hinv.consumer_moves ⟨hd, ht, ?_⟩
  rcases hinv.tail_le.lt_or_eq with hlt | rfl
  · exact .inl hlt
  · have hr := hd.read_le
    obtain ⟨hn, hle⟩ := hprod.counts fun hT => (hd.opened hT).trans hr
    exact hpos.imp_right fun hi => ⟨hi, hn ▸ hr, hn.ge, hle⟩

theorem Invariant.consume_loadCountGet (hinv : Invariant s H T n)
    (hc : s.consumer = .loadCountGet h t cp) : Invariant (consume s) H T n := by
  have hcons := hinv.consumer
  have hhead := hinv.producer.head_le
  obtain ⟨ring, producer, consumer, given, got⟩ := s
  obtain rfl : consumer = .loadCountGet h t cp := hc
  obtain ⟨hd, ht, hpos⟩ := hcons
  have hr : got.length = 8 * T + ring.countGet := hd.count_eq
  have hle : ring.countGet ≤ 8 := hd.count_le
  have hread : got.length ≤ n := hd.read_le
  simp only [consume]
  split_ifs with hempty h8
  · exact hinv.consumer_moves hd
  · have hlt : T < H := by
      rcases hpos with hlt | ⟨hi, hcp, -, hcp8⟩
      · exact hlt
      · have hcp' : got.length ≤ 8 * T + cp := hcp
        exact absurd ⟨hi.symm, by omega⟩ hempty
    have hnext : next t = (T + 1) % BUFFER_SIZE := by rw [ht, next_eq, Nat.mod_add_mod]
    have hlast : got.length = 8 * T + 8 := by omega
    exact hinv.consumer_moves ⟨hlast, hread, hlt, hnext⟩
  · have hlt : got.length < n := by
      rcases hpos with hlt | ⟨hi, hcp, hcpn, -⟩
      · omega
      · have hcp' : got.length ≤ 8 * T + cp := hcp
        have hne : ring.countGet ≠ cp := fun hc => hempty ⟨hi.symm, hc⟩
        omega
    exact hinv.consumer_moves ⟨hr, lt_of_le_of_ne hle h8, ht, .inl hlt⟩

theorem Invariant.consume_storeTail (hinv : Invariant s H T n) (hc : s.consumer = .storeTail t) :
    Invariant (consume s) H (T + 1) n := by
  have hcons := hinv.consumer
  obtain ⟨ring, producer, consumer, given, got⟩ := s
  obtain rfl : consumer = .storeTail t := hc
  have hprod : ProducerOk ring.buf ring.countPut H T n given producer := hinv.producer
  have hroom := hinv.room
  obtain ⟨hr, hread, hlt, ht⟩ := hcons
  have hnext : got.length = 8 * (T + 1) := by omega
  exact { hinv with
    tail_eq := ht
    tail_le := hlt
    room := by omega
    cells := fun p hp => hinv.cells p (by omega)
    producer := hprod.mono (Nat.le_succ T)
    consumer := ⟨hnext, hread, Nat.le_add_left 1 T, ht⟩ }

theorem Invariant.consume_readByte (hinv : Invariant s H T n) (hc : s.consumer = .readByte t cg)
    (hsettled : opening s.producer ≠ some t) : Invariant (consume s) H T n := by
  have hcons := hinv.consumer
  have hhead := hinv.producer.head_le
  obtain ⟨ring, producer, consumer, given, got⟩ := s
  obtain rfl : consumer = .readByte t cg := hc
  have hprod : ProducerOk ring.buf ring.countPut H T n given producer := hinv.producer
  have hcells : ∀ p, 8 * T ≤ p → p < n → given[p]? = some (bitOf ring.buf p) := hinv.cells
  obtain ⟨hr, hcg, ht, hpos⟩ := hcons
  have hlt : got.length < n := by
    rcases hpos with hlt | ⟨rfl, hT, hread⟩
    · exact hlt
    · rcases hinv.tail_le.lt_or_eq with hTH | rfl
      · have hread' : got.length = 8 * T := hr
        omega
      · have hcount := hprod.counted (ht ▸ hsettled) hT
        have hread' : got.length = 8 * T := hr
        omega
  have hr' : got.length = 8 * T + cg := hr
  have hbit : given[got.length]? = some (bitAt (ring.buf t) cg) := by
    rw [hcells _ (by omega) hlt, bitOf, show got.length / 8 = T by omega, ← ht,
      show got.length % 8 = cg by omega]
  exact hinv.consumer_moves ⟨hr, hcg, hlt, hbit⟩

theorem Invariant.consume_storeCountGet (hinv : Invariant s H T n)
    (hc : s.consumer = .storeCountGet t cg bit) : Invariant (consume s) H T n := by
  have hcons := hinv.consumer
  obtain ⟨ring, producer, consumer, given, got⟩ := s
  obtain rfl : consumer = .storeCountGet t cg bit := hc
  obtain ⟨hr, hcg, hlt, hbit⟩ := hcons
  have hr' : got.length = 8 * T + cg := hr
  have hlt' : got.length < n := hlt
  have hlen : (got ++ [bit]).length = got.length + 1 := List.length_append
  have hdrained : Drained (cg + 1) T n (got ++ [bit]).length :=
    ⟨by omega, hcg, by omega, fun _ => by omega⟩
  exact { hinv with
    prefix_given := concat_prefix hinv.prefix_given hbit
    consumer := hdrained }

theorem consume_invariant (hinv : Invariant s H T n) (hsettled : Settled s .consumer) :
    ∃ T', Invariant (consume s) H T' n := by
  have hcons := hinv.consumer
  cases hc : s.consumer with
  | idle =>
    rw [hc] at hcons
    rw [consume, hc]
    refine ⟨T, hinv.consumer_moves ⟨hcons, ?_⟩⟩
    rcases hinv.tail_le.lt_or_eq with hlt | rfl
    · exact .inl hlt
    · exact .inr hinv.head_eq
  | loadTail h =>
    rw [hc] at hcons
    rw [consume, hc]
    refine ⟨T, hinv.consumer_moves ⟨hcons.1, hinv.tail_eq, hcons.2.imp_right fun hi => ?_⟩⟩
    exact hi.trans hinv.tail_eq.symm
  | loadCountPut h t => exact ⟨T, hinv.consume_loadCountPut hc⟩
  | loadCountGet h t cp => exact ⟨T, hinv.consume_loadCountGet hc⟩
  | storeTail t => exact ⟨T + 1, hinv.consume_storeTail hc⟩
  | resetCountGet t =>
    rw [hc] at hcons
    obtain ⟨hr, hread, hT, ht⟩ := hcons
    rw [consume, hc]
    exact ⟨T, { hinv with consumer := ⟨hr, by decide, ht, .inr ⟨rfl, hT, hread⟩⟩ }⟩
  | readByte t cg =>
    rw [Settled, hc] at hsettled
    exact ⟨T, hinv.consume_readByte hc hsettled⟩
  | storeCountGet t cg bit => exact ⟨T, hinv.consume_storeCountGet hc⟩

end Consuming

theorem step_invariant {s : State} {m : Move} (h : ∃ H T n, Invariant s H T n)
    (hsettled : Settled s m) : ∃ H T n, Invariant (step s m) H T n := by
  obtain ⟨H, T, n, h⟩ := h
  cases m with
  | producer arg =>
    obtain ⟨H', n', h'⟩ := produce_invariant arg h
    exact ⟨H', T, n', h'⟩
  | consumer =>
    obtain ⟨T', h'⟩ := consume_invariant h hsettled
    exact ⟨H, T', n, h'⟩

/-- As long as `get_bits` stays away from the byte that `put_bits` is opening, every
interleaving of the two is a queue. -/
theorem settled_run_inOrder (junk : ℕ → UInt8) {moves : List Move}
    (hm : Meets step Settled (initial junk) moves) : InOrder (run step (initial junk) moves) := by
  have hrun := run_invariant (I := fun s => ∃ H T n, Invariant s H T n)
    (fun s m h hs => step_invariant h hs) ⟨0, 0, 0, initial_invariant junk⟩ hm
  obtain ⟨H, T, n, h⟩ := hrun
  exact h.prefix_given

/-- The first byte is read while the producer opens the second one, and the read position crosses
over while the second byte gets its second bit. -/
def crossing : List Move :=
  (List.replicate 8 (putMoves false 6)).flatten ++ putMoves true 4 ++ getMoves 6 ++
    putMoves true 5 ++ (List.replicate 7 (getMoves 6)).flatten ++ putMoves true 3 ++ getMoves 5 ++
    putMoves true 3 ++ getMoves 3

theorem crossing_inOrder : InOrder (run step (initial fun _ => 0) crossing) ∧
    (run step (initial fun _ => 0) crossing).got = List.replicate 8 false ++ [true] :=
  ⟨settled_run_inOrder _ (by decide +kernel), by decide +kernel⟩

end EchoProtocol.RingConcurrent
