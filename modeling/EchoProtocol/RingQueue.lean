import EchoProtocol.BoundedQueue
import EchoProtocol.RingBits

/-!
# The bit ring is a bounded queue

Any sequence of calls on a ring, one at a time, looks like a queue of bits that refuses one
only when it holds all but the last bits of its capacity.
-/
namespace EchoProtocol.RingQueue
open RingBits BoundedQueue Runs

/-- The ring and the variable that `get_bits` writes to. -/
structure Caller where
  ring : Buffer
  bit : Bool

inductive Call
  | put (bit : Bool)
  | get
  | reset

def call (c : Caller) : Call → Caller
  | .put bit =>
      match putBits c.ring bit with
      | none => c
      | some ring => { c with ring := ring }
  | .get =>
      match getBits c.ring with
      | none => c
      | some (bit, ring) => ⟨ring, bit⟩
  | .reset => { c with ring := rbReset c.ring }

/-- The call and its return value. -/
def observe (c : Caller) : Call → Event Bool
  | .put bit => if (putBits c.ring bit).isSome then .accepted bit else .refused bit
  | .get =>
      match getBits c.ring with
      | none => .empty
      | some (bit, _) => .taken bit
  | .reset => .reset

/-- The least number of unread bits with which a bit can be refused. -/
def refusalLimit : ℕ := (BUFFER_SIZE - 2) * 8 + 1

theorem refusalLimit_le {b : Buffer} {q : List Bool} {bit : Bool} (h : Holds b q)
    (hput : putBits b bit = none) : refusalLimit ≤ q.length := by
  by_contra hroom
  obtain ⟨b', hb'⟩ := putBits_some h bit (by unfold refusalLimit at hroom; omega)
  simp [hput] at hb'

theorem put_step {c : Caller} {q : List Bool} (bit : Bool) (h : Holds c.ring q) :
    ∃ q', Step refusalLimit q (observe c (.put bit)) q' ∧ Holds (call c (.put bit)).ring q' := by
  simp only [observe, call]
  cases hput : putBits c.ring bit with
  | none => exact ⟨q, .refused q bit (refusalLimit_le h hput), h⟩
  | some b' => exact ⟨q ++ [bit], .accepted q bit, putBits_holds h hput⟩

theorem get_step {c : Caller} {q : List Bool} (h : Holds c.ring q) :
    ∃ q', Step refusalLimit q (observe c .get) q' ∧ Holds (call c .get).ring q' := by
  simp only [observe, call]
  cases q with
  | nil =>
    rw [getBits_nil h]
    exact ⟨[], .empty, h⟩
  | cons bit q =>
    obtain ⟨b', hget, hb'⟩ := getBits_cons h
    rw [hget]
    exact ⟨q, .taken bit q, hb'⟩

theorem call_step (c : Caller) (k : Call) (q : List Bool) (h : Holds c.ring q) :
    ∃ q', Step refusalLimit q (observe c k) q' ∧ Holds (call c k).ring q' := by
  cases k with
  | put bit => exact put_step bit h
  | get => exact get_step h
  | reset => exact ⟨[], .reset q, rbReset_holds c.ring⟩

theorem call_of_failed {c : Caller} {k : Call}
    (h : observe c k = .empty ∨ ∃ bit, observe c k = .refused bit) : call c k = c := by
  cases k with
  | put bit =>
    simp only [observe, call] at h ⊢
    cases hput : putBits c.ring bit with
    | none => rfl
    | some b' => simp [hput] at h
  | get =>
    simp only [observe, call] at h ⊢
    cases hget : getBits c.ring with
    | none => rfl
    | some r => simp [hget] at h
  | reset => simp [observe] at h

theorem getBits_eq_none_iff {b : Buffer} {q : List Bool} (h : Holds b q) :
    getBits b = none ↔ q = [] := by
  cases q with
  | nil => exact iff_of_true (getBits_nil h) rfl
  | cons bit q =>
    obtain ⟨b', hget, -⟩ := getBits_cons h
    simp [hget]

/-- Whatever is called on a fresh ring, the calls are those of a queue: the bits taken since the
last reset are the first ones accepted since then, and the others are the unread bits. Nothing
is refused before the limit, and a failed call changes nothing. -/
theorem ring_refines_queue (junk : ℕ → UInt8) (bit : Bool) (calls : List Call) :
    let evs := events call observe ⟨rbInit junk, bit⟩ calls
    let c := run call ⟨rbInit junk, bit⟩ calls
    Transitions refusalLimit [] evs (unread c.ring) ∧
      (ledger evs).taken ++ unread c.ring = (ledger evs).accepted ∧
      (getBits c.ring = none ↔ unread c.ring = []) ∧
      (∀ b, putBits c.ring b = none → refusalLimit ≤ (unread c.ring).length) ∧
      ∀ k, (observe c k = .empty ∨ ∃ b, observe c k = .refused b) → call c k = c := by
  intro evs c
  obtain ⟨q, htrans, hring⟩ :=
    run_refines observe (R := fun c : Caller => Holds c.ring) call_step calls
      (s := ⟨rbInit junk, bit⟩) (rbInit_holds junk)
  rw [hring.unread_eq]
  exact ⟨htrans, htrans.conserves, getBits_eq_none_iff hring, fun _ => refusalLimit_le hring,
    fun _ => call_of_failed⟩

end EchoProtocol.RingQueue
