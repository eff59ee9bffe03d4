import Mathlib

/-!
# The frame scrambler

The feedback register runs on its own bits only, so scrambling twice from one register state
gives back the input.
-/
namespace EchoProtocol.Scrambling

def SCRAMBLER_STATE_BITS : UInt32 := 17

structure Scrambler where
  state : UInt32
  deriving DecidableEq

def scramblerInit : Scrambler := ⟨1⟩

def scramblerReset : Scrambler := ⟨1⟩

/-- The next register state. -/
def advance (s : Scrambler) : Scrambler :=
  let feedback : UInt32 := ((s.state >>> 16) &&& (1 : UInt32)) ^^^ ((s.state >>> 11) &&& (1 : UInt32))
  ⟨((s.state <<< 1) ||| feedback) &&& (((1 : UInt32) <<< SCRAMBLER_STATE_BITS) - 1)⟩

/-- The processed bit and the register after it. -/
def scramblerProcess (s : Scrambler) (bit : Bool) : Bool × Scrambler :=
  let next := advance s
  (bit ^^ (next.state &&& 1 != 0), next)

/-- Processes bit after bit. -/
def scrambleBits : Scrambler → List Bool → List Bool
  | _, [] => []
  | s, bit :: bits => (scramblerProcess s bit).1 :: scrambleBits (scramblerProcess s bit).2 bits

/-- The register after `n` bits. -/
def after (s : Scrambler) (n : ℕ) : Scrambler := advance^[n] s

@[simp] theorem scrambleBits_length (s : Scrambler) (bits : List Bool) :
    (scrambleBits s bits).length = bits.length := by
  induction bits generalizing s with
  | nil => rfl
  | cons bit bits ih => simp [scrambleBits, ih]

theorem after_succ (s : Scrambler) (n : ℕ) : after s (n + 1) = advance (after s n) :=
  Function.iterate_succ_apply' _ _ _

theorem scrambleBits_scrambleBits (s : Scrambler) (bits : List Bool) :
    scrambleBits s (scrambleBits s bits) = bits := by
  induction bits generalizing s with
  | nil => rfl
  | cons bit bits ih =>
    simp only [scrambleBits, scramblerProcess, Bool.xor_assoc, Bool.xor_self, Bool.xor_false]
    exact congrArg _ (ih _)

theorem scrambleBits_append (s : Scrambler) (bits bits' : List Bool) :
    scrambleBits s (bits ++ bits') =
      scrambleBits s bits ++ scrambleBits (after s bits.length) bits' := by
  induction bits generalizing s with
  | nil => rfl
  | cons bit bits ih => exact congrArg _ (ih (advance s))

theorem scrambleBits_concat (s : Scrambler) (bits : List Bool) (bit : Bool) :
    scrambleBits s (bits ++ [bit]) =
      scrambleBits s bits ++ [(scramblerProcess (after s bits.length) bit).1] :=
  scrambleBits_append s bits [bit]

theorem scrambleBits_getElem? (s : Scrambler) (bits : List Bool) (i : ℕ) :
    (scrambleBits s bits)[i]? = bits[i]?.map fun bit => (scramblerProcess (after s i) bit).1 := by
  induction bits generalizing s i with
  | nil => rfl
  | cons bit bits ih =>
    cases i with
    | zero => rfl
    | succ i => exact ih (advance s) i

theorem scramblerProcess_twice (s : Scrambler) (bit : Bool) :
    (scramblerProcess s (scramblerProcess s bit).1).1 = bit := by
  simp [scramblerProcess]

theorem take_descrambled (s : Scrambler) {bits : List Bool} {n : ℕ} (hn : n < bits.length) :
    bits.take n ++ [(scramblerProcess (after s n) ((scrambleBits s bits).getD n false)).1] =
      bits.take (n + 1) := by
  have hbit : (scrambleBits s bits).getD n false = (scramblerProcess (after s n) bits[n]).1 := by
    rw [List.getD_eq_getElem?_getD, scrambleBits_getElem?, List.getElem?_eq_getElem hn]
    rfl
  rw [hbit, scramblerProcess_twice, List.take_concat_get' bits n hn]

end EchoProtocol.Scrambling
