import Mathlib

/-!
# Checksums that absorb one element after another

Where no step loses the state or the element, every change of one element of the input changes
the checksum.
-/
namespace FoldChecksum
variable {σ α : Type*} {step : σ → α → σ}

/-- The state before a step and the element can each be had back from the other and the result. -/
structure Lossless (step : σ → α → σ) : Prop where
  state : ∀ a, Function.Injective fun s => step s a
  element : ∀ s, Function.Injective (step s)

theorem Lossless.foldl_injective (h : Lossless step) (l : List α) :
    Function.Injective fun s => l.foldl step s := by
  induction l with
  | nil => exact Function.injective_id
  | cons a l ih => exact ih.comp (h.state a)

theorem Lossless.foldl_set_ne (h : Lossless step) {l : List α} {i : ℕ} {b : α} (hi : i < l.length)
    (hb : b ≠ l[i]) (s : σ) : (l.set i b).foldl step s ≠ l.foldl step s := by
  induction l generalizing i s with
  | nil => cases hi
  | cons a l ih =>
    cases i with
    | zero => exact fun heq => hb (h.element s (h.foldl_injective l heq))
    | succ i => exact ih (Nat.lt_of_succ_lt_succ hi) hb (step s a)

end FoldChecksum
