import Mathlib

/-!
# Computations that record their accesses

A computation lists what it accesses, in order, and ends with a value or stops early. What it
accesses before it stops counts.
-/
namespace AccessTrace

structure Traced (ε α : Type) where
  accesses : List ε
  result : Option α

variable {ε α β : Type}

/-- Accesses that are made in any case. -/
def note (es : List ε) : Traced ε Unit := ⟨es, some ()⟩

/-- An early exit. -/
def stopIf (c : Prop) [Decidable c] : Traced ε Unit := ⟨[], if c then none else some ()⟩

instance : Monad (Traced ε) where
  pure a := ⟨[], some a⟩
  bind t f :=
    match t.result with
    | none => ⟨t.accesses, none⟩
    | some a => ⟨t.accesses ++ (f a).accesses, (f a).result⟩

/-- All accesses of a computation are allowed. -/
def Traced.Within (ok : ε → Prop) (t : Traced ε α) : Prop := ∀ e ∈ t.accesses, ok e

instance (ok : ε → Prop) [DecidablePred ok] (t : Traced ε α) : Decidable (t.Within ok) :=
  inferInstanceAs (Decidable (∀ e ∈ t.accesses, ok e))

variable {ok : ε → Prop}

@[simp] theorem result_pure (a : α) : (pure a : Traced ε α).result = some a := rfl

@[simp] theorem result_bind (t : Traced ε α) (f : α → Traced ε β) :
    (t >>= f).result = t.result.bind fun a => (f a).result := by
  change Traced.result (match t.result with | none => _ | some a => _) = _
  cases t.result with
  | none => rfl
  | some a => rfl

@[simp] theorem result_note (es : List ε) : (note es).result = some () := rfl

theorem result_stopIf_bind (c : Prop) [Decidable c] (f : Unit → Option β) :
    (stopIf c : Traced ε Unit).result.bind f = if c then none else f () := by
  by_cases hc : c
  · simp [stopIf, hc]
  · simp [stopIf, hc]

@[simp] theorem within_pure (a : α) : (pure a : Traced ε α).Within ok := by
  intro e he
  cases he

theorem within_bind {t : Traced ε α} {f : α → Traced ε β} :
    (t >>= f).Within ok ↔ t.Within ok ∧ ∀ a, t.result = some a → (f a).Within ok := by
  change Traced.Within ok (match t.result with | none => _ | some a => _) ↔ _
  cases t.result with
  | none => simp [Traced.Within]
  | some a => simp [Traced.Within, or_imp, forall_and]

theorem within_note {es : List ε} {t : Traced ε α} :
    (note es >>= fun _ => t).Within ok ↔ (∀ e ∈ es, ok e) ∧ t.Within ok := by
  rw [within_bind]
  exact and_congr_right fun _ => ⟨fun h => h () rfl, fun h _ _ => h⟩

theorem within_stopIf {c : Prop} [Decidable c] {t : Traced ε α} :
    ((stopIf c : Traced ε Unit) >>= fun _ => t).Within ok ↔ (¬ c → t.Within ok) := by
  rw [within_bind]
  by_cases hc : c
  · simp [stopIf, hc, Traced.Within]
  · simp [stopIf, hc, Traced.Within]

end AccessTrace
