import EchoProtocol.Runs
import EchoProtocol.Transmit

/-!
# Symbols for the modulator

The audio callback takes the two bits of a symbol out of the transmit ring, one `get_bits` after
the other, while the main loop writes.
-/
namespace EchoProtocol.SymbolFetch
open RingBits Runs SyncWord Frames Transmit

/-- `(bits[0] << 1) | bits[1]`. -/
def symbol (bit0 bit1 : Bool) : UInt8 := (bit0.toUInt8 <<< 1) ||| bit1.toUInt8

def idleSymbol : UInt8 := 3

/-- The bits of a symbol, the first one sent first. -/
def symbolBits (x : UInt8) : List Bool := [bitAt x 1, bitAt x 0]

/-- `get_bits` for the first and, if that succeeds, for the second bit; `none` when one of them
fails. -/
def fetchSymbol (b : Buffer) : Option UInt8 × Buffer :=
  match getBits b with
  | none => (none, b)
  | some (bit0, b) =>
      match getBits b with
      | none => (none, b)
      | some (bit1, b) => (some (symbol bit0 bit1), b)

/-- The transmit ring, the bit a fetch holds between its two `get_bits`, and the symbol the
callback plays, with two records: the bits written so far and the symbols fetched so far, idle
ones left out. -/
structure Stream where
  txRb : Buffer
  bit0 : Option Bool
  currentTxSymbol : UInt8
  put : List Bool
  symbols : List UInt8

/-- A call of `put_bits` or of `get_bits`. The main loop may write between the two `get_bits` of
one fetch. -/
inductive Move
  | put (bit : Bool)
  | get
  deriving DecidableEq

def move (s : Stream) : Move → Stream
  | .put bit =>
      match putBits s.txRb bit with
      | none => s
      | some b => { s with txRb := b, put := s.put ++ [bit] }
  | .get =>
      match s.bit0, getBits s.txRb with
      | none, some (bit, b) => { s with txRb := b, bit0 := some bit }
      | some bit0, some (bit1, b) =>
          { s with
            txRb := b
            bit0 := none
            currentTxSymbol := symbol bit0 bit1
            symbols := s.symbols ++ [symbol bit0 bit1] }
      | _, none => { s with bit0 := none, currentTxSymbol := idleSymbol }

def silent (junk : ℕ → UInt8) : Stream := ⟨rbInit junk, none, 0, [], []⟩

/-- Between two fetches the symbols fetched and the unread bits are what has been written, and
symbol `i` is always made of the bits `2i` and `2i + 1`. -/
structure NoBitLost (s : Stream) : Prop where
  stream : s.bit0 = none → s.symbols.flatMap symbolBits ++ unread s.txRb = s.put
  pairs : ∀ i x, s.symbols[i]? = some x →
    s.put[2 * i]? = some (bitAt x 1) ∧ s.put[2 * i + 1]? = some (bitAt x 0)

/-- The second `get_bits` of a fetch finds a bit. -/
def SecondBit (s : Stream) (m : Move) : Prop :=
  ¬ (m = .get ∧ s.bit0 ≠ none ∧ (unread s.txRb).length = 0)

instance (s : Stream) (m : Move) : Decidable (SecondBit s m) :=
  inferInstanceAs (Decidable (¬ (_ ∧ _)))

structure StreamInvariant (s : Stream) : Prop where
  wellFormed : WellFormed s.txRb
  stream : s.symbols.flatMap symbolBits ++ s.bit0.toList ++ unread s.txRb = s.put

theorem symbolBits_symbol (bit0 bit1 : Bool) : symbolBits (symbol bit0 bit1) = [bit0, bit1] := by
  cases bit0 <;> cases bit1 <;> decide

theorem flatMap_symbolBits {xs : List UInt8} (rest : List Bool) {i : ℕ} {x : UInt8}
    (h : xs[i]? = some x) :
    (xs.flatMap symbolBits ++ rest)[2 * i]? = some (bitAt x 1) ∧
      (xs.flatMap symbolBits ++ rest)[2 * i + 1]? = some (bitAt x 0) := by
  induction xs generalizing i with
  | nil => simp at h
  | cons y ys ih =>
    cases i with
    | zero =>
      obtain rfl : y = x := by simpa using h
      exact ⟨rfl, rfl⟩
    | succ i => exact ih h

theorem StreamInvariant.noBitLost {s : Stream} (h : StreamInvariant s) : NoBitLost s := by
  have hstream := h.stream
  refine ⟨fun hbetween => ?_, fun i x hx => ?_⟩
  · simpa [hbetween] using hstream
  · rw [← hstream, List.append_assoc]
    exact flatMap_symbolBits _ hx

theorem silent_invariant (junk : ℕ → UInt8) : StreamInvariant (silent junk) := by
  have hring : (silent junk).txRb = rbInit junk := rfl
  constructor
  · rw [hring]
    exact (rbInit_holds junk).wellFormed
  · rw [hring, (rbInit_holds junk).unread_eq]
    rfl

theorem put_invariant {s : Stream} (bit : Bool) (h : StreamInvariant s) :
    StreamInvariant (move s (.put bit)) := by
  simp only [move]
  cases hput : putBits s.txRb bit with
  | none => exact h
  | some b =>
    obtain ⟨hwf, hq⟩ := putBits_holds ⟨h.wellFormed, rfl⟩ hput
    refine ⟨hwf, ?_⟩
    simp only [hq, ← h.stream, List.append_assoc]

theorem get_cases {s : Stream} (h : WellFormed s.txRb) :
    (unread s.txRb = [] ∧
      move s .get = { s with bit0 := none, currentTxSymbol := idleSymbol }) ∨
    (∃ bit q b, unread s.txRb = bit :: q ∧ Holds b q ∧
      ((s.bit0 = none ∧ move s .get = { s with txRb := b, bit0 := some bit }) ∨
        ∃ bit0, s.bit0 = some bit0 ∧
          move s .get = { s with
            txRb := b
            bit0 := none
            currentTxSymbol := symbol bit0 bit
            symbols := s.symbols ++ [symbol bit0 bit] })) := by
  rcases hq : unread s.txRb with _ | ⟨bit, q⟩
  · refine .inl ⟨rfl, ?_⟩
    cases hbit0 : s.bit0 <;> simp only [move, hbit0, getBits_nil ⟨h, hq⟩]
  · obtain ⟨b, hget, hb⟩ := getBits_cons ⟨h, hq⟩
    refine .inr ⟨bit, q, b, rfl, hb, ?_⟩
    cases hbit0 : s.bit0 with
    | none => exact .inl ⟨rfl, by simp only [move, hbit0, hget]⟩
    | some bit0 => exact .inr ⟨bit0, rfl, by simp only [move, hbit0, hget]⟩

theorem get_invariant {s : Stream} (h : StreamInvariant s) (hok : SecondBit s .get) :
    StreamInvariant (move s .get) := by
  have hstream := h.stream
  rcases get_cases h.wellFormed with ⟨hq, hmove⟩ | ⟨bit, q, b, hq, hb, ⟨hbit0, hmove⟩ |
    ⟨bit0, hbit0, hmove⟩⟩
  · have hbetween : s.bit0 = none := by
      by_contra hheld
      exact hok ⟨rfl, hheld, by rw [hq]; rfl⟩
    rw [hmove]
    refine ⟨h.wellFormed, ?_⟩
    simpa [hbetween] using hstream
  · rw [hmove]
    refine ⟨hb.wellFormed, ?_⟩
    simpa [hbit0, hq, hb.unread_eq] using hstream
  · rw [hmove]
    refine ⟨hb.wellFormed, ?_⟩
    simpa [hbit0, hq, hb.unread_eq, symbolBits_symbol] using hstream

theorem move_invariant {s : Stream} {m : Move} (h : StreamInvariant s) (hok : SecondBit s m) :
    StreamInvariant (move s m) := by
  cases m with
  | put bit => exact put_invariant bit h
  | get => exact get_invariant h hok

theorem held_bit_lost {s : Stream} {m : Move} (h : StreamInvariant s)
    (hbad : ¬ SecondBit s m) : ¬ NoBitLost (move s m) := by
  obtain ⟨rfl, hheld, hempty⟩ := not_not.mp hbad
  obtain ⟨bit0, hbit0⟩ := Option.ne_none_iff_exists'.mp hheld
  have hstream := h.stream
  intro hgood
  rcases get_cases h.wellFormed with ⟨hq, hmove⟩ | ⟨bit, q, b, hq, -⟩
  · have hafter := hgood.stream
    rw [hmove] at hafter
    simp [hbit0, hq, ← hstream] at hafter
  · simp [hq] at hempty

/-- Every bit written comes out in its place, in every state of a run, exactly when no second
`get_bits` of a fetch meets an empty ring. -/
theorem noBitLost_iff (junk : ℕ → UInt8) (moves : List Move) :
    Always move NoBitLost (silent junk) moves ↔ Meets move SecondBit (silent junk) moves :=
  always_iff_meets (fun _ _ => move_invariant) (fun _ _ => held_bit_lost)
    (fun _ => StreamInvariant.noBitLost) (silent_invariant junk)

/-- A fetch behind the first bit of a frame. -/
def earlyFetch (f : Frame) : List Move :=
  ((airBits f).take 1).map .put ++ [.get, .get] ++ ((airBits f).drop 1).map .put

theorem first_bit_lost :
    ¬ Always move NoBitLost (silent fun _ => 0) (earlyFetch ⟨false, false, false, [0x45]⟩) := by
  have hfirst : (airBits ⟨false, false, false, [0x45]⟩).take 1 = [true] := rfl
  intro h
  have hstate := h.left.last.stream
  rw [hfirst] at hstate
  exact absurd hstate (by decide +kernel)

-- A write in the middle of a fetch that began on one unread bit costs nothing.
example :
    (run move (silent fun _ => 0) [.put true, .get, .put false, .get]).symbols = [2] := by
  decide +kernel

theorem fetchSymbol_cases {b : Buffer} (h : WellFormed b) :
    (unread b = [] ∧ fetchSymbol b = (none, b)) ∨
    (∃ bit b', unread b = [bit] ∧ fetchSymbol b = (none, b') ∧ Holds b' []) ∨
    (∃ bit0 bit1 q b', unread b = bit0 :: bit1 :: q ∧
      fetchSymbol b = (some (symbol bit0 bit1), b') ∧ Holds b' q) := by
  rcases hq : unread b with _ | ⟨bit0, _ | ⟨bit1, q⟩⟩
  · refine .inl ⟨rfl, ?_⟩
    simp only [fetchSymbol, getBits_nil ⟨h, hq⟩]
  · obtain ⟨b', hget, hb'⟩ := getBits_cons ⟨h, hq⟩
    refine .inr (.inl ⟨bit0, b', rfl, ?_, hb'⟩)
    simp only [fetchSymbol, hget, getBits_nil hb']
  · obtain ⟨b', hget, hb'⟩ := getBits_cons ⟨h, hq⟩
    obtain ⟨b'', hget', hb''⟩ := getBits_cons hb'
    refine .inr (.inr ⟨bit0, bit1, q, b'', rfl, ?_, hb''⟩)
    simp only [fetchSymbol, hget, hget']

/-- A fetch with nothing between its two `get_bits`. -/
theorem gets_fetchSymbol {s : Stream} (h : s.bit0 = none) :
    run move s [.get, .get] =
      { s with
        txRb := (fetchSymbol s.txRb).2
        currentTxSymbol := (fetchSymbol s.txRb).1.getD idleSymbol
        symbols := s.symbols ++ (fetchSymbol s.txRb).1.toList } := by
  obtain ⟨b, bit0, x, put, symbols⟩ := s
  obtain rfl : bit0 = none := h
  cases hget : getBits b with
  | none => simp [move, fetchSymbol, hget]
  | some bit =>
    cases hget' : getBits bit.2 with
    | none => simp [move, fetchSymbol, hget, hget']
    | some bit' => simp [move, fetchSymbol, hget, hget']

end EchoProtocol.SymbolFetch
