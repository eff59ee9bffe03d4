import Mathlib

/-!
# Runs of a step function

A system is a step function on states and actions. Its runs are lists of actions, taken one
after another from a first state.
-/
namespace Runs
variable {σ α : Type*} (step : σ → α → σ)

/-- The state after a list of actions. -/
def run (s : σ) (as : List α) : σ := as.foldl step s

/-- Every action of the run is allowed in the state in which it is taken. -/
def Meets (ok : σ → α → Prop) : σ → List α → Prop
  | _, [] => True
  | s, a :: as => ok s a ∧ Meets ok (step s a) as

/-- A property of every state of the run, the first one included. -/
def Always (P : σ → Prop) : σ → List α → Prop
  | s, [] => P s
  | s, a :: as => P s ∧ Always P (step s a) as

/-- The actions of a run with the states in which they are taken. -/
def trace : σ → List α → List (σ × α)
  | _, [] => []
  | s, a :: as => (s, a) :: trace (step s a) as

instance decidableMeets (ok : σ → α → Prop) [∀ s a, Decidable (ok s a)] :
    ∀ s as, Decidable (Meets step ok s as)
  | _, [] => inferInstanceAs (Decidable True)
  | s, a :: as =>
      have := decidableMeets ok (step s a) as
      inferInstanceAs (Decidable (_ ∧ _))

variable {step}

@[simp] theorem run_nil (s : σ) : run step s [] = s := rfl

@[simp] theorem run_cons (s : σ) (a : α) (as : List α) :
    run step s (a :: as) = run step (step s a) as := rfl

theorem run_append (s : σ) (as bs : List α) :
    run step s (as ++ bs) = run step (run step s as) bs := List.foldl_append

theorem meets_append {ok : σ → α → Prop} {s : σ} {as bs : List α} :
    Meets step ok s (as ++ bs) ↔ Meets step ok s as ∧ Meets step ok (run step s as) bs := by
  induction as generalizing s with
  | nil => simp [Meets]
  | cons a as ih => simp only [List.cons_append, Meets, ih, run_cons, and_assoc]

theorem Meets.and {ok ok' : σ → α → Prop} {s : σ} {as : List α} (h : Meets step ok s as)
    (h' : Meets step ok' s as) : Meets step (fun s a => ok s a ∧ ok' s a) s as := by
  induction as generalizing s with
  | nil => trivial
  | cons a as ih => exact ⟨⟨h.1, h'.1⟩, ih h.2 h'.2⟩

theorem meets_of_forall {ok : σ → α → Prop} {s : σ} {as : List α} (h : ∀ s, ∀ a ∈ as, ok s a) :
    Meets step ok s as := by
  induction as generalizing s with
  | nil => trivial
  | cons a as ih =>
    exact ⟨h s a List.mem_cons_self, ih fun s b hb => h s b (List.mem_cons_of_mem _ hb)⟩

theorem Always.head {P : σ → Prop} {s : σ} {as : List α} (h : Always step P s as) : P s := by
  cases as with
  | nil => exact h
  | cons a as => exact h.1

theorem Always.last {P : σ → Prop} {s : σ} {as : List α} (h : Always step P s as) :
    P (run step s as) := by
  induction as generalizing s with
  | nil => exact h
  | cons a as ih => exact ih h.2

theorem Always.left {P : σ → Prop} {s : σ} {as bs : List α} (h : Always step P s (as ++ bs)) :
    Always step P s as := by
  induction as generalizing s with
  | nil => exact h.head
  | cons a as ih => exact ⟨h.1, ih h.2⟩

theorem Always.mono {P Q : σ → Prop} {s : σ} {as : List α} (hPQ : ∀ s, P s → Q s)
    (h : Always step P s as) : Always step Q s as := by
  induction as generalizing s with
  | nil => exact hPQ s h
  | cons a as ih => exact ⟨hPQ s h.1, ih h.2⟩

theorem trace_append (s : σ) (as bs : List α) :
    trace step s (as ++ bs) = trace step s as ++ trace step (run step s as) bs := by
  induction as generalizing s with
  | nil => rfl
  | cons a as ih => simp only [List.cons_append, trace, ih, run_cons]

theorem mem_of_mem_trace {s : σ} {as : List α} {h : σ × α} (hmem : h ∈ trace step s as) :
    h.2 ∈ as := by
  induction as generalizing s with
  | nil => exact absurd hmem List.not_mem_nil
  | cons a as ih =>
    rcases List.mem_cons.mp hmem with rfl | hlater
    · exact List.mem_cons_self
    · exact List.mem_cons_of_mem _ (ih hlater)

section Invariant
variable {ok : σ → α → Prop} {I : σ → Prop}

theorem always_of_meets (hstep : ∀ s a, I s → ok s a → I (step s a)) {s : σ} {as : List α}
    (hI : I s) (hm : Meets step ok s as) : Always step I s as := by
  induction as generalizing s with
  | nil => exact hI
  | cons a as ih => exact ⟨hI, ih (hstep s a hI hm.1) hm.2⟩

theorem meets_of_step {ok' : σ → α → Prop}
    (hstep : ∀ s a, I s → ok s a → I (step s a) ∧ ok' s a) {s : σ} {as : List α} (hI : I s)
    (hm : Meets step ok s as) : Meets step ok' s as := by
  induction as generalizing s with
  | nil => trivial
  | cons a as ih =>
    obtain ⟨hnext, hok'⟩ := hstep s a hI hm.1
    exact ⟨hok', ih hnext hm.2⟩

/-- An invariant that each event of the run preserves where it is taken. -/
theorem run_induction {s : σ} {as : List α} (hI : I s)
    (hstep : ∀ s' a, (s', a) ∈ trace step s as → I s' → I (step s' a)) :
    I (run step s as) ∧ ∀ h ∈ trace step s as, I h.1 := by
  induction as generalizing s with
  | nil => exact ⟨hI, fun h hmem => absurd hmem List.not_mem_nil⟩
  | cons a as ih =>
    obtain ⟨hlast, hall⟩ := ih (hstep s a List.mem_cons_self hI) fun s' b hmem =>
      hstep s' b (List.mem_cons_of_mem _ hmem)
    exact ⟨hlast, List.forall_mem_cons.mpr ⟨hI, hall⟩⟩

theorem run_invariant (hstep : ∀ s a, I s → ok s a → I (step s a)) {s : σ} {as : List α}
    (hI : I s) (hm : Meets step ok s as) : I (run step s as) :=
  (always_of_meets hstep hI hm).last

/-- Where every step that is not allowed leads out of `P`, the runs within `P` are exactly the
allowed ones. -/
theorem always_iff_meets {P : σ → Prop} (hstep : ∀ s a, I s → ok s a → I (step s a))
    (hbad : ∀ s a, I s → ¬ ok s a → ¬ P (step s a)) (hIP : ∀ s, I s → P s) {s : σ} {as : List α}
    (hI : I s) : Always step P s as ↔ Meets step ok s as := by
  refine ⟨fun h => ?_, fun hm => (always_of_meets hstep hI hm).mono hIP⟩
  induction as generalizing s with
  | nil => trivial
  | cons a as ih =>
    have hok : ok s a := by
      by_contra hnot
      exact hbad s a hI hnot h.2.head
    exact ⟨hok, ih (hstep s a hI hok) h.2⟩

end Invariant

section History
variable {ok : σ → α → Prop} {I : σ → List (σ × α) → Prop}

theorem trace_invariant_from
    (hstep : ∀ s hist a, I s hist → ok s a → I (step s a) (hist ++ [(s, a)])) {s : σ}
    {hist : List (σ × α)} {as : List α} (hI : I s hist) (hm : Meets step ok s as) :
    I (run step s as) (hist ++ trace step s as) := by
  induction as generalizing s hist with
  | nil => simpa [trace] using hI
  | cons a as ih =>
    have hrest := ih (hstep s hist a hI hm.1) hm.2
    rwa [List.append_assoc, List.singleton_append] at hrest

theorem trace_invariant
    (hstep : ∀ s hist a, I s hist → ok s a → I (step s a) (hist ++ [(s, a)])) {s : σ}
    {as : List α} (hI : I s []) (hm : Meets step ok s as) :
    I (run step s as) (trace step s as) := by
  simpa using trace_invariant_from hstep hI hm

theorem trace_induction_from {s : σ} {hist : List (σ × α)} {as : List α} (hI : I s hist)
    (hstep : ∀ s' past a, past ++ [(s', a)] <+: hist ++ trace step s as → I s' past →
      I (step s' a) (past ++ [(s', a)])) :
    I (run step s as) (hist ++ trace step s as) := by
  induction as generalizing s hist with
  | nil => simpa [trace] using hI
  | cons a as ih =>
    have hmore : hist ++ trace step s (a :: as) =
        (hist ++ [(s, a)]) ++ trace step (step s a) as := by
      rw [List.append_assoc]
      rfl
    rw [hmore] at hstep ⊢
    exact ih (hstep s hist a (List.prefix_append _ _) hI) hstep

theorem trace_induction {s : σ} {as : List α} (hI : I s [])
    (hstep : ∀ s' past a, past ++ [(s', a)] <+: trace step s as → I s' past →
      I (step s' a) (past ++ [(s', a)])) : I (run step s as) (trace step s as) := by
  simpa using trace_induction_from hI (by simpa using hstep)

end History

end Runs
