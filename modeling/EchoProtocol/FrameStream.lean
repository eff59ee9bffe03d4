import EchoProtocol.ReceiveBuffer
import EchoProtocol.FrameRoundTrip

/-!
# Streams of frames

Frames follow one another on the channel, each behind its preamble and sync word. The audio
side takes their bits one by one, and the main loop runs its `packet_ready` block at any time
in between.
-/
namespace EchoProtocol.FrameStream
open Bytes RingBits Scrambling SyncWord Frames Endpoint Transmit Receive ReceiveMachine FrameHeader
  ReceiveBuffer FrameRoundTrip Runs

/-- What a call of `rb_to_tun` finds: the bits in the ring, the length and the flags. -/
structure Call where
  bits : List Bool
  packetLen : ℕ
  comp : Bool
  rohc : Bool
  fec : Bool
  deriving DecidableEq

def callOf (f : Frame) : Call := ⟨frameBits f, f.payload.length, f.comp, f.rohc, f.fec⟩

/-- The receiver and the channel: the frames still to come with the position in the first of
them, the frames that have passed, those the receiver has completed, and the calls of
`rb_to_tun`. -/
structure Stream where
  echo : Echo
  coming : List Frame
  position : ℕ
  passed : List Frame
  completed : List Call
  calls : List Call

inductive Move
  | audio (now : ℤ)
  | main (memory : Memory)

/-- The bit completes a frame. -/
def completes (e e' : Echo) : Prop :=
  e.rx.state = .DATA ∧ e'.rx.state = .SEARCHING ∧ e'.rx.bitsReceived ≠ 0

instance (e e' : Echo) : Decidable (completes e e') := inferInstanceAs (Decidable (_ ∧ _ ∧ _))

def airBit (f : Frame) (i : ℕ) : Bool := (airBits f).getD i false

def audioStep (s : Stream) (now : ℤ) : Stream :=
  match s.coming with
  | [] => s
  | f :: rest =>
      let e := processRxBit s.echo now (airBit f s.position)
      let completed := if completes s.echo e then s.completed ++ [callOf f] else s.completed
      if s.position + 1 = (airBits f).length then
        ⟨e, rest, 0, s.passed ++ [f], completed, s.calls⟩
      else ⟨e, f :: rest, s.position + 1, s.passed, completed, s.calls⟩

def mainStep (lz4 : Lz4) (s : Stream) (memory : Memory) : Stream :=
  let e := s.echo
  { s with
    echo := mainBlock lz4 memory e
    calls :=
      if e.rx.packetReady = true ∧ 0 < e.rx.packetLen then
        s.calls ++ [⟨unread e.rxRb, e.rx.packetLen, e.rx.isCompressed, e.rx.isRohc, e.rx.isFec⟩]
      else s.calls }

def step (lz4 : Lz4) (s : Stream) : Move → Stream
  | .audio now => audioStep s now
  | .main memory => mainStep lz4 s memory

def initialStream (e : Echo) (frames : List Frame) : Stream := ⟨e, frames, 0, [], [], []⟩

/-- A frame that the receiver accepts. -/
def ValidFrame (f : Frame) : Prop :=
  f.payload.length < 8192 ∧ isValidHeader (header f) = true

/-- Every call works on one completed frame, in order, and none of them is skipped. -/
structure Unmixed (s : Stream) : Prop where
  inOrder : s.calls <+: s.completed
  none_skipped : s.completed.length = s.calls.length + s.echo.rx.packetReady.toNat

/-- Every frame that has passed is handed over once, in order. -/
structure AllHanded (s : Stream) : Prop where
  inOrder : s.calls <+: s.passed.map callOf
  none_lost : s.passed.length = s.calls.length + s.echo.rx.packetReady.toNat

/-- The clock does not expire. -/
def NoTimeout (s : Stream) : Move → Prop
  | .audio now => ¬ expired s.echo now
  | .main _ => True

/-- The receiver takes a bit for the end of a sync word only at the end of a sync word, and not
while a frame is waiting for the main loop. -/
def SyncsWhenFree (s : Stream) : Move → Prop
  | .audio now =>
      match s.coming with
      | [] => True
      | f :: _ => syncs s.echo now (airBit f s.position) →
          s.position = 47 ∧ s.echo.rx.packetReady = false
  | .main _ => True

/-- No frame is waiting for the main loop while a sync word arrives. -/
def HandledBeforeSync (s : Stream) : Move → Prop
  | .audio _ => 16 ≤ s.position → s.position < 48 → s.echo.rx.packetReady = false
  | .main _ => True

/-- No frame is waiting for the main loop when the last bit of a sync word arrives. -/
def HandledBeforeSyncEnds (s : Stream) : Move → Prop
  | .audio _ => s.position = 47 → s.echo.rx.packetReady = false
  | .main _ => True

instance (s : Stream) (m : Move) : Decidable (NoTimeout s m) := by
  cases m <;> unfold NoTimeout <;> exact inferInstance

instance (s : Stream) (m : Move) : Decidable (SyncsWhenFree s m) := by
  cases m
  · unfold SyncsWhenFree
    cases s.coming <;> exact inferInstance
  · exact instDecidableTrue

instance (s : Stream) (m : Move) : Decidable (HandledBeforeSync s m) := by
  cases m <;> unfold HandledBeforeSync <;> exact inferInstance

instance (s : Stream) (m : Move) : Decidable (HandledBeforeSyncEnds s m) := by
  cases m <;> unfold HandledBeforeSyncEnds <;> exact inferInstance

def twoFrames : List Frame := [⟨false, false, false, [0x45]⟩, ⟨false, false, false, [0x9A]⟩]

def audioMoves (n : ℕ) : List Move := List.replicate n (.audio 0)

def lateMoves : List Move := audioMoves 120 ++ [.main zeroMemory]

def midSyncMoves : List Move := audioMoves 92 ++ [.main zeroMemory] ++ audioMoves 52

theorem waiting_frame_skipped : ∃ frames moves, (∀ f ∈ frames, ValidFrame f) ∧
    Meets (step noLz4) NoTimeout (initialStream freshEcho frames) moves ∧
    ¬ Unmixed (run (step noLz4) (initialStream freshEcho frames) moves) := by
  refine ⟨twoFrames, lateMoves, by unfold ValidFrame; decide +kernel, by decide +kernel, fun h => ?_⟩
  exact absurd h.none_skipped (by decide +kernel)

/-- The main loop runs after twenty bits of the second announcement, and the frame is missed. -/
theorem frame_missed : ∃ frames moves, (∀ f ∈ frames, ValidFrame f) ∧
    Meets (step noLz4) NoTimeout (initialStream freshEcho frames) moves ∧
    Meets (step noLz4) HandledBeforeSyncEnds (initialStream freshEcho frames) moves ∧
    ¬ AllHanded (run (step noLz4) (initialStream freshEcho frames) moves) := by
  refine ⟨twoFrames, midSyncMoves, by unfold ValidFrame; decide +kernel, by decide +kernel,
    by decide +kernel, fun h => ?_⟩
  exact absurd h.none_lost (by decide +kernel)

theorem announcement_length : announcement.length = 48 := rfl

theorem airBit_announcement (f : Frame) {i : ℕ} (hi : i < 48) :
    announcement[i]? = some (airBit f i) := by
  have hlt : i < announcement.length := hi
  rw [airBit, List.getD_eq_getElem?_getD, airBits, List.getElem?_append_left hlt,
    List.getElem?_eq_getElem hlt]
  rfl

theorem airBit_frame (f : Frame) (k : ℕ) :
    airBit f (48 + k) = (scrambleBits scramblerReset (frameBits f)).getD k false := by
  have hle : announcement.length ≤ 48 + k := by
    rw [announcement_length]
    omega
  rw [airBit, List.getD_eq_getElem?_getD, airBits, List.getElem?_append_right hle,
    announcement_length, Nat.add_sub_cancel_left, List.getD_eq_getElem?_getD]

theorem bitsValue_frame {f : Frame} (hlen : f.payload.length < 8192) :
    bitsValue ((frameBits f).take 16) = header f :=
  bitsValue_take_header (header_lt hlen) _

/-- The receiver is in the middle of the first coming frame. -/
structure Arriving (s : Stream) (f : Frame) (rest : List Frame) : Prop where
  coming : s.coming = f :: rest
  start : 48 ≤ s.position
  unfinished : s.position < (airBits f).length
  receiving : Receiving s.echo ((frameBits f).take (s.position - 48))
  notReady : s.echo.rx.packetReady = false

/-- What the last bit of a frame leaves. -/
structure Passed (s s' : Stream) (f : Frame) (rest : List Frame) : Prop where
  coming : s'.coming = rest
  position : s'.position = 0
  complete : Complete s'.echo (frameBits f)
  passed : s'.passed = s.passed ++ [f]
  completed : s'.completed = s.completed ++ [callOf f]

/-- The histories are as they were. -/
structure Unchanged (s s' : Stream) : Prop where
  passed : s'.passed = s.passed
  completed : s'.completed = s.completed
  calls : s'.calls = s.calls

theorem audioStep_cons {s : Stream} {f : Frame} {rest : List Frame} (now : ℤ)
    (h : s.coming = f :: rest) : audioStep s now =
      let e := processRxBit s.echo now (airBit f s.position)
      let completed := if completes s.echo e then s.completed ++ [callOf f] else s.completed
      if s.position + 1 = (airBits f).length then
        ⟨e, rest, 0, s.passed ++ [f], completed, s.calls⟩
      else ⟨e, f :: rest, s.position + 1, s.passed, completed, s.calls⟩ := by
  simp only [audioStep, h]

theorem ValidFrame.fits {f : Frame} (hvalid : ValidFrame f) : Fits (header f) f.payload :=
  ⟨header_lt hvalid.1, hvalid.2, (header_fields hvalid.1).2.2.2.symm⟩

theorem arriving_audio {s : Stream} {f : Frame} {rest : List Frame} {now : ℤ}
    (hvalid : ValidFrame f) (h : Arriving s f rest) (hfresh : ¬ expired s.echo now) :
    detector (audioStep s now).echo = detector s.echo ∧ (audioStep s now).calls = s.calls ∧
      ((Arriving (audioStep s now) f rest ∧ Unchanged s (audioStep s now)) ∨
        Passed s (audioStep s now) f rest) := by
  have hstart := h.start
  have hunfinished := h.unfinished
  rw [airBits_length] at hunfinished
  set k := s.position - 48 with hk
  have hbit : (scrambleBits scramblerReset (frameBits f)).getD k false = airBit f s.position := by
    rw [← airBit_frame f k, show 48 + k = s.position by omega]
  have hstep := frame_bit hvalid.fits (n := k) (by omega) h.receiving hfresh
  change (scrambleBits scramblerReset (plainBits (header f) f.payload)).getD k false = _ at hbit
  rw [hbit] at hstep
  simp only [audioStep_cons now h.coming, airBits_length]
  obtain ⟨hsame, ⟨hlt, hnext, hready⟩ | ⟨hlast, hdone⟩⟩ := hstep
  · have hnot : ¬ completes s.echo (processRxBit s.echo now (airBit f s.position)) := fun hc =>
      absurd (hnext.state.symm.trans hc.2.1) (by decide)
    have hposition : s.position + 1 - 48 = k + 1 := by omega
    rw [if_neg hnot, if_neg (by omega)]
    refine ⟨hsame, rfl, .inl ⟨⟨rfl, by simp only; omega, ?_, ?_, hready.trans h.notReady⟩, rfl, rfl, rfl⟩⟩
    · simp only [airBits_length]
      omega
    · simp only [hposition]
      exact hnext
  · have hyes : completes s.echo (processRxBit s.echo now (airBit f s.position)) := by
      refine ⟨h.receiving.state, hdone.state, ?_⟩
      rw [hdone.count, plainBits_length]
      omega
    rw [if_pos hyes, if_pos (by omega)]
    exact ⟨hsame, rfl, .inr ⟨rfl, rfl, hdone, rfl, rfl⟩⟩

/-- The receiver looks for a sync word, with nothing in the ring. -/
structure Searching (e : Echo) : Prop where
  state : e.rx.state = .SEARCHING
  ring : Holds e.rxRb []
  notReady : e.rx.packetReady = false

theorem mainStep_notReady {lz4 : Lz4} {s : Stream} {memory : Memory}
    (h : s.echo.rx.packetReady = false) : mainStep lz4 s memory = s := by
  have hno : ¬ (s.echo.rx.packetReady = true ∧ 0 < s.echo.rx.packetLen) := fun hb => by
    rw [h] at hb
    exact absurd hb.1 (by decide)
  simp only [mainStep, mainBlock_notReady h]
  rw [if_neg hno]

/-- The call of `rb_to_tun` for a completed frame. -/
theorem mainStep_complete (lz4 : Lz4) {s : Stream} (memory : Memory) {g : Frame}
    (hvalid : ValidFrame g) (h : Complete s.echo (frameBits g)) :
    (mainStep lz4 s memory).calls = s.calls ++ [callOf g] ∧
      Searching (mainStep lz4 s memory).echo ∧
      detector (mainStep lz4 s memory).echo = blank := by
  obtain ⟨hlen, hheader⟩ := hvalid
  have hann := h.announced
  rw [bitsValue_frame hlen] at hann
  obtain ⟨hcomp, hrohc, hfec, hlength⟩ := header_fields hlen
  have hpos : 0 < s.echo.rx.packetLen := by
    rw [hann.len]
    exact (headerLen_of_valid hheader).1
  have hcall : (⟨unread s.echo.rxRb, s.echo.rx.packetLen, s.echo.rx.isCompressed,
      s.echo.rx.isRohc, s.echo.rx.isFec⟩ : Call) = callOf g := by
    rw [h.ring.unread_eq, hann.len, hann.comp, hann.rohc, hann.fec, hcomp, hrohc, hfec, hlength]
    rfl
  have hidle := rbToTun_idle lz4 memory s.echo s.echo.rx.packetLen
  simp only [mainStep, mainBlock]
  rw [if_pos h.ready, if_pos hpos, if_pos ⟨h.ready, hpos⟩, hcall]
  exact ⟨rfl, ⟨hidle.state, hidle.ring, rfl⟩, hidle.blank⟩

theorem searching_audio {s : Stream} {f : Frame} {rest : List Frame} (now : ℤ)
    (hcoming : s.coming = f :: rest) (hstate : s.echo.rx.state = .SEARCHING)
    (hno : (checkSyncWord (detector s.echo) (airBit f s.position)).1 = false) :
    audioStep s now =
      let e := setDetector s.echo (checkSyncWord (detector s.echo) (airBit f s.position)).2
      if s.position + 1 = (airBits f).length then
        ⟨e, rest, 0, s.passed ++ [f], s.completed, s.calls⟩
      else ⟨e, f :: rest, s.position + 1, s.passed, s.completed, s.calls⟩ := by
  have hnot : ∀ e', ¬ completes s.echo e' := fun e' hc =>
    absurd (hstate.symm.trans hc.1) (by decide)
  rw [audioStep_cons now hcoming, processRxBit_search now hstate hno]
  simp only [if_neg (hnot _)]

/-- The end of a sync word opens its frame. -/
theorem sync_audio {s : Stream} {f : Frame} {rest : List Frame} (now : ℤ)
    (hcoming : s.coming = f :: rest) (hsearch : Searching s.echo) (hposition : s.position = 47)
    (hyes : (checkSyncWord (detector s.echo) (airBit f s.position)).1 = true) :
    Arriving (audioStep s now) f rest ∧ Unchanged s (audioStep s now) ∧
      detector (audioStep s now).echo =
        (checkSyncWord (detector s.echo) (airBit f s.position)).2 := by
  obtain ⟨hopen, hready, hdet⟩ := processRxBit_sync now hsearch.state hsearch.ring hyes
  have hnot : ∀ e', ¬ completes s.echo e' := fun e' hc =>
    absurd (hsearch.state.symm.trans hc.1) (by decide)
  have hlength := airBits_length f
  rw [audioStep_cons now hcoming]
  simp only [if_neg (hnot _)]
  rw [if_neg (by omega)]
  refine ⟨⟨rfl, by simp only; omega, by simp only; omega, ?_, hready.trans hsearch.notReady⟩,
    ⟨rfl, rfl, rfl⟩, hdet⟩
  simp only [hposition, Nat.sub_self, List.take_zero] at hopen ⊢
  exact hopen

/-- Between two moves the receiver searches, receives a frame, or holds a completed one. -/
inductive Phase (s : Stream) : Prop
  | searching (h : Searching s.echo) (handed : s.completed = s.calls)
  | arriving (f : Frame) (rest : List Frame) (h : Arriving s f rest)
      (handed : s.completed = s.calls)
  | complete (g : Frame) (valid : ValidFrame g) (h : Complete s.echo (frameBits g))
      (handed : s.completed = s.calls ++ [callOf g])

theorem Phase.unmixed {s : Stream} (h : Phase s) : Unmixed s := by
  cases h with
  | searching h handed => exact ⟨by rw [handed], by rw [handed, h.notReady]; rfl⟩
  | arriving f rest h handed => exact ⟨by rw [handed], by rw [handed, h.notReady]; rfl⟩
  | complete g _ h handed =>
    exact ⟨by rw [handed]; exact List.prefix_append _ _, by rw [handed, h.ready]; simp⟩

theorem Phase.main {lz4 : Lz4} {s : Stream} {memory : Memory} (h : Phase s) :
    Phase (mainStep lz4 s memory) := by
  cases h with
  | searching h handed =>
    rw [mainStep_notReady h.notReady]
    exact .searching h handed
  | arriving f rest h handed =>
    rw [mainStep_notReady h.notReady]
    exact .arriving f rest h handed
  | complete g hvalid h handed =>
    obtain ⟨hcalls, hsearch, -⟩ := mainStep_complete lz4 memory hvalid h
    exact .searching hsearch (by rw [hcalls]; exact handed)

theorem Phase.audio {s : Stream} {now : ℤ} (h : Phase s) (hvalid : ∀ f ∈ s.coming, ValidFrame f)
    (hfresh : NoTimeout s (.audio now)) (hfree : SyncsWhenFree s (.audio now)) :
    Phase (audioStep s now) := by
  cases hcoming : s.coming with
  | nil =>
    simp only [audioStep, hcoming]
    exact h
  | cons f rest =>
    have hsyncs : syncs s.echo now (airBit f s.position) →
        s.position = 47 ∧ s.echo.rx.packetReady = false := by
      simp only [SyncsWhenFree, hcoming] at hfree
      exact hfree
    cases h with
    | searching h handed =>
      by_cases hyes : (checkSyncWord (detector s.echo) (airBit f s.position)).1 = true
      · obtain ⟨hposition, -⟩ := hsyncs ⟨hfresh, h.state, hyes⟩
        obtain ⟨harriving, hsame, -⟩ := sync_audio now hcoming h hposition hyes
        exact .arriving f rest harriving (by rw [hsame.completed, hsame.calls, handed])
      · rw [searching_audio now hcoming h.state (Bool.eq_false_of_not_eq_true hyes)]
        simp only
        split_ifs
        · exact .searching ⟨h.state, h.ring, h.notReady⟩ handed
        · exact .searching ⟨h.state, h.ring, h.notReady⟩ handed
    | arriving f' rest' h handed =>
      obtain ⟨-, hcalls, ⟨harriving, hsame⟩ | hpassed⟩ :=
        arriving_audio (hvalid f' (h.coming ▸ List.mem_cons_self)) h hfresh
      · exact .arriving f' rest' harriving (by rw [hsame.completed, hsame.calls, handed])
      · exact .complete f' (hvalid f' (h.coming ▸ List.mem_cons_self)) hpassed.complete
          (by rw [hpassed.completed, hcalls, handed])
    | complete g hg h handed =>
      have hno : (checkSyncWord (detector s.echo) (airBit f s.position)).1 = false := by
        by_contra hyes
        have hready := (hsyncs ⟨hfresh, h.state, by simpa using hyes⟩).2
        rw [h.ready] at hready
        exact absurd hready (by decide)
      have hann := h.announced
      have hdone : Complete (setDetector s.echo
          (checkSyncWord (detector s.echo) (airBit f s.position)).2) (frameBits g) :=
        ⟨h.state, h.ready, h.ring, h.count,
          ⟨hann.valid, hann.comp, hann.rohc, hann.fec, hann.len⟩, h.finished⟩
      rw [searching_audio now hcoming h.state hno]
      simp only
      split_ifs
      · exact .complete g hg hdone handed
      · exact .complete g hg hdone handed

theorem audioStep_coming (s : Stream) (now : ℤ) : (audioStep s now).coming ⊆ s.coming := by
  cases hcoming : s.coming with
  | nil => simp [audioStep, hcoming]
  | cons f rest =>
    rw [audioStep_cons now hcoming]
    simp only
    by_cases hlast : s.position + 1 = (airBits f).length
    · rw [if_pos hlast]
      exact List.subset_cons_self f rest
    · rw [if_neg hlast]
      exact List.Subset.refl _

structure PhaseInvariant (s : Stream) : Prop where
  valid : ∀ f ∈ s.coming, ValidFrame f
  phase : Phase s

theorem PhaseInvariant.step {lz4 : Lz4} {s : Stream} {m : Move} (h : PhaseInvariant s)
    (hfresh : NoTimeout s m) (hfree : SyncsWhenFree s m) : PhaseInvariant (step lz4 s m) := by
  cases m with
  | audio now =>
    exact ⟨fun f hf => h.valid f (audioStep_coming s now hf), h.phase.audio h.valid hfresh hfree⟩
  | main memory => exact ⟨h.valid, h.phase.main⟩

theorem echoInit_searching (txJunk rxJunk : ℕ → UInt8) (isFec : Bool) :
    Searching (echoInit txJunk rxJunk isFec) :=
  ⟨rfl, rbInit_holds rxJunk, rfl⟩

/-- Frames are never mixed and never skipped in a run in which the receiver takes nothing for a
sync word but sync words, and none of these while a frame waits for the main loop. -/
theorem run_unmixed (lz4 : Lz4) (txJunk rxJunk : ℕ → UInt8) (isFec : Bool) {frames : List Frame}
    {moves : List Move} (hvalid : ∀ f ∈ frames, ValidFrame f)
    (hfresh : Meets (step lz4) NoTimeout (initialStream (echoInit txJunk rxJunk isFec) frames) moves)
    (hfree :
      Meets (step lz4) SyncsWhenFree (initialStream (echoInit txJunk rxJunk isFec) frames) moves) :
    Unmixed (run (step lz4) (initialStream (echoInit txJunk rxJunk isFec) frames) moves) := by
  have hstep : ∀ s m, PhaseInvariant s → NoTimeout s m ∧ SyncsWhenFree s m →
      PhaseInvariant (step lz4 s m) := fun s m h hm => h.step hm.1 hm.2
  have hinit : PhaseInvariant (initialStream (echoInit txJunk rxJunk isFec) frames) :=
    ⟨hvalid, .searching (echoInit_searching txJunk rxJunk isFec) rfl⟩
  exact (run_invariant hstep hinit (hfresh.and hfree)).phase.unmixed

theorem run_unmixed_two_frames :
    Unmixed (run (step noLz4) (initialStream freshEcho twoFrames) (audioMoves 72 ++
      [.main zeroMemory] ++ audioMoves 72)) :=
  run_unmixed noLz4 _ _ _ (by unfold ValidFrame; decide +kernel) (by decide +kernel)
    (by decide +kernel)

/-- The phases of a run in which no frame waits for the main loop while a sync word arrives. The
detector is followed through the announcement, from its start or from where the main loop last
reset it. -/
inductive TimelyPhase (s : Stream) : Prop
  | searching (h : Searching s.echo) (handed : s.passed.map callOf = s.calls) (k : ℕ) (early : k ≤ 16)
      (start : k ≤ s.position) (announced : s.position ≤ 47)
      (followed : detector s.echo = feed blank ((announcement.drop k).take (s.position - k)))
  | arriving (f : Frame) (rest : List Frame) (h : Arriving s f rest)
      (handed : s.passed.map callOf = s.calls) (found : detector s.echo = synced)
  | complete (g : Frame) (valid : ValidFrame g) (h : Complete s.echo (frameBits g))
      (handed : s.passed.map callOf = s.calls ++ [callOf g]) (early : s.position ≤ 16)
      (followed : detector s.echo = feed synced (preambleBits.take s.position))

theorem TimelyPhase.allHanded {s : Stream} (h : TimelyPhase s) : AllHanded s := by
  have hcount : s.passed.length = (s.passed.map callOf).length := (List.length_map _).symm
  cases h with
  | searching h handed => exact ⟨by rw [handed], by rw [hcount, handed, h.notReady]; rfl⟩
  | arriving f rest h handed => exact ⟨by rw [handed], by rw [hcount, handed, h.notReady]; rfl⟩
  | complete g _ h handed =>
    exact ⟨by rw [handed]; exact List.prefix_append _ _, by rw [hcount, handed, h.ready]; simp⟩

theorem TimelyPhase.main {lz4 : Lz4} {s : Stream} {memory : Memory} (h : TimelyPhase s) :
    TimelyPhase (mainStep lz4 s memory) := by
  cases h with
  | searching h handed k hk hstart hann hdet =>
    rw [mainStep_notReady h.notReady]
    exact .searching h handed k hk hstart hann hdet
  | arriving f rest h handed hdet =>
    rw [mainStep_notReady h.notReady]
    exact .arriving f rest h handed hdet
  | complete g hvalid h handed hearly _ =>
    obtain ⟨hcalls, hsearch, hblank⟩ := mainStep_complete lz4 memory hvalid h
    refine .searching hsearch (by rw [hcalls]; exact handed) s.position hearly le_rfl ?_ ?_
    · exact hearly.trans (by decide)
    · rw [hblank, show (mainStep lz4 s memory).position = s.position from rfl, Nat.sub_self]
      rfl

theorem TimelyPhase.audio {s : Stream} {now : ℤ} (h : TimelyPhase s)
    (hvalid : ∀ f ∈ s.coming, ValidFrame f) (hfresh : NoTimeout s (.audio now))
    (htimely : HandledBeforeSync s (.audio now)) : TimelyPhase (audioStep s now) := by
  cases hcoming : s.coming with
  | nil =>
    simp only [audioStep, hcoming]
    exact h
  | cons f rest =>
    have hlength := airBits_length f
    cases h with
    | searching h handed k hk hstart hann hdet =>
      obtain ⟨hreport, hnext⟩ :=
        announcement_step hk hstart (airBit_announcement f (by omega : s.position < 48))
      rw [← hdet] at hreport hnext
      by_cases hlast : s.position = 47
      · rw [decide_eq_true hlast] at hreport
        obtain ⟨harriving, hsame, hfound⟩ := sync_audio now hcoming h hlast hreport
        refine .arriving f rest harriving (by rw [hsame.passed, hsame.calls, handed]) ?_
        have hall : (announcement.drop k).take (47 + 1 - k) = announcement.drop k :=
          List.take_of_length_le (by rw [List.length_drop, announcement_length])
        rw [hfound, hnext, hlast, hall, feed_announcement hk]
      · rw [decide_eq_false hlast] at hreport
        rw [searching_audio now hcoming h.state hreport, hnext]
        simp only
        rw [if_neg (by omega)]
        exact .searching ⟨h.state, h.ring, h.notReady⟩ handed k hk (by simp only; omega)
          (by simp only; omega) rfl
    | arriving f' rest' h handed hdet =>
      have hvalid' : ValidFrame f' := hvalid f' (h.coming ▸ List.mem_cons_self)
      obtain ⟨hsame', hcalls, ⟨harriving, hsame⟩ | hpassed⟩ := arriving_audio hvalid' h hfresh
      · exact .arriving f' rest' harriving (by rw [hsame.passed, hsame.calls, handed])
          (hsame'.trans hdet)
      · refine .complete f' hvalid' hpassed.complete ?_ ?_ ?_
        · rw [hpassed.passed, hcalls, List.map_append, handed]
          rfl
        · rw [hpassed.position]
          exact Nat.zero_le _
        · rw [hsame', hdet, hpassed.position]
          rfl
    | complete g hg h handed hearly hdet =>
      have hlt : s.position < 16 := by
        by_contra hge
        have hready := htimely (not_lt.mp hge) (by omega)
        rw [h.ready] at hready
        exact absurd hready (by decide)
      obtain ⟨hreport, hnext⟩ := preamble_step hlt (airBit_announcement f (by omega : s.position < 48))
      rw [← hdet] at hreport hnext
      have hann := h.announced
      rw [searching_audio now hcoming h.state hreport, hnext]
      simp only
      rw [if_neg (by omega)]
      exact .complete g hg ⟨h.state, h.ready, h.ring, h.count,
        ⟨hann.valid, hann.comp, hann.rohc, hann.fec, hann.len⟩, h.finished⟩ handed hlt rfl

structure TimelyInvariant (s : Stream) : Prop where
  valid : ∀ f ∈ s.coming, ValidFrame f
  phase : TimelyPhase s

theorem TimelyInvariant.step {lz4 : Lz4} {s : Stream} {m : Move} (h : TimelyInvariant s)
    (hfresh : NoTimeout s m) (htimely : HandledBeforeSync s m) :
    TimelyInvariant (step lz4 s m) := by
  cases m with
  | audio now =>
    exact ⟨fun f hf => h.valid f (audioStep_coming s now hf), h.phase.audio h.valid hfresh htimely⟩
  | main memory => exact ⟨h.valid, h.phase.main⟩

/-- A main loop that takes every frame before the next sync word begins loses none. -/
theorem run_allHanded (lz4 : Lz4) (txJunk rxJunk : ℕ → UInt8) (isFec : Bool) {frames : List Frame}
    {moves : List Move} (hvalid : ∀ f ∈ frames, ValidFrame f)
    (hfresh : Meets (step lz4) NoTimeout (initialStream (echoInit txJunk rxJunk isFec) frames) moves)
    (htimely : Meets (step lz4) HandledBeforeSync
      (initialStream (echoInit txJunk rxJunk isFec) frames) moves) :
    AllHanded (run (step lz4) (initialStream (echoInit txJunk rxJunk isFec) frames) moves) := by
  have hstep : ∀ s m, TimelyInvariant s → NoTimeout s m ∧ HandledBeforeSync s m →
      TimelyInvariant (step lz4 s m) := fun s m h hm => h.step hm.1 hm.2
  have hinit : TimelyInvariant (initialStream (echoInit txJunk rxJunk isFec) frames) :=
    ⟨hvalid, .searching (echoInit_searching txJunk rxJunk isFec) rfl 0 (by decide) le_rfl
      (Nat.zero_le 47) rfl⟩
  exact (run_invariant hstep hinit (hfresh.and htimely)).phase.allHanded

theorem run_allHanded_two_frames :
    AllHanded (run (step noLz4) (initialStream freshEcho twoFrames) (audioMoves 80 ++
      [.main zeroMemory] ++ audioMoves 64)) :=
  run_allHanded noLz4 _ _ _ (by unfold ValidFrame; decide +kernel) (by decide +kernel)
    (by decide +kernel)

end EchoProtocol.FrameStream
