import EchoProtocol.Runs

/-!
# A bounded queue

The queue as its users see it: an event is a call together with what it returns. Values leave
in the order in which they were accepted; a queue of at least `limit` values may refuse one.
-/
namespace BoundedQueue
open Runs
variable {α : Type*}

inductive Event (α : Type*)
  | accepted (a : α)
  | refused (a : α)
  | taken (a : α)
  | empty
  | reset
  deriving DecidableEq

/-- What a queue allows an event to be, and what it holds afterwards. -/
inductive Step (limit : ℕ) : List α → Event α → List α → Prop
  | accepted (q : List α) (a : α) : Step limit q (.accepted a) (q ++ [a])
  | refused (q : List α) (a : α) (hfull : limit ≤ q.length) : Step limit q (.refused a) q
  | taken (a : α) (q : List α) : Step limit (a :: q) (.taken a) q
  | empty : Step limit [] .empty []
  | reset (q : List α) : Step limit q .reset []

inductive Transitions (limit : ℕ) : List α → List (Event α) → List α → Prop
  | nil (q : List α) : Transitions limit q [] q
  | cons {q q' q'' : List α} {ev : Event α} {evs : List (Event α)} (hstep : Step limit q ev q')
      (hrest : Transitions limit q' evs q'') : Transitions limit q (ev :: evs) q''

/-- The values accepted and taken since the last reset. -/
structure Ledger (α : Type*) where
  accepted : List α
  taken : List α

def Ledger.note (l : Ledger α) : Event α → Ledger α
  | .accepted a => { l with accepted := l.accepted ++ [a] }
  | .refused _ => l
  | .taken a => { l with taken := l.taken ++ [a] }
  | .empty => l
  | .reset => ⟨[], []⟩

def ledger (evs : List (Event α)) : Ledger α := evs.foldl Ledger.note ⟨[], []⟩

variable {limit : ℕ}

theorem Step.conserves {q q' : List α} {ev : Event α} {l : Ledger α} (h : Step limit q ev q')
    (hl : l.taken ++ q = l.accepted) : (l.note ev).taken ++ q' = (l.note ev).accepted := by
  cases h with
  | accepted a => simp [Ledger.note, ← hl]
  | refused => exact hl
  | taken a => simp [Ledger.note, ← hl]
  | empty => exact hl
  | reset => rfl

theorem Transitions.conserves_from {q q' : List α} {evs : List (Event α)} {l : Ledger α}
    (h : Transitions limit q evs q') (hl : l.taken ++ q = l.accepted) :
    (evs.foldl Ledger.note l).taken ++ q' = (evs.foldl Ledger.note l).accepted := by
  induction h generalizing l with
  | nil => exact hl
  | cons hstep hrest ih => exact ih (hstep.conserves hl)

theorem Transitions.conserves {q : List α} {evs : List (Event α)} (h : Transitions limit [] evs q) :
    (ledger evs).taken ++ q = (ledger evs).accepted :=
  h.conserves_from rfl

section Refinement
variable {σ ι : Type*} (step : σ → ι → σ) (event : σ → ι → Event α)

/-- The events of a machine on a list of calls. -/
def events : σ → List ι → List (Event α)
  | _, [] => []
  | s, i :: is => event s i :: events (step s i) is

variable {step}

theorem run_refines {R : σ → List α → Prop}
    (hstep : ∀ s i q, R s q → ∃ q', Step limit q (event s i) q' ∧ R (step s i) q') {s : σ}
    {q : List α} (is : List ι) (h : R s q) :
    ∃ q', Transitions limit q (events step event s is) q' ∧ R (run step s is) q' := by
  induction is generalizing s q with
  | nil => exact ⟨q, .nil q, h⟩
  | cons i is ih =>
    obtain ⟨q', hq, hR⟩ := hstep s i q h
    obtain ⟨q'', hrest, hR'⟩ := ih hR
    exact ⟨q'', .cons hq hrest, hR'⟩

end Refinement

end BoundedQueue
