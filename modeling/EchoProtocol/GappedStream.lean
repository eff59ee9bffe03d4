import EchoProtocol.FrameStream
import EchoProtocol.Playback

/-!
# Frames with idle time between them

Between two frames a station plays idle symbols, as many as it takes the main loop to find the
next packet. Idle bits never make the receiver's detector miss an announcement or find one.
-/
namespace EchoProtocol.GappedStream
open Bytes RingBits Scrambling SyncWord Frames Endpoint Transmit Receive ReceiveMachine FrameHeader
  FrameRoundTrip FrameStream ReceiveBuffer Rohc Delivery Playback

def idleBits (m : ℕ) : List Bool := List.replicate m true

/-- The detector reports the last one of the bits and none before it. -/
def Ready (d : Detector) (bits : List Bool) : Prop :=
  reports d bits = List.replicate (bits.length - 1) false ++ [true] ∧ feed d bits = synced

/-- It does so with the next announcement, after however many idle bits. -/
def ReadyAfterIdle (d : Detector) : Prop := ∀ m, Ready d (idleBits m ++ announcement)

/-- The detector reports none of the bits. -/
def Quiet (d : Detector) (bits : List Bool) : Prop := reports d bits = List.replicate bits.length false

def QuietAfterIdle (d : Detector) : Prop := ∀ m, Quiet d (idleBits m ++ preambleBits)

instance (d : Detector) (bits : List Bool) : Decidable (Ready d bits) :=
  inferInstanceAs (Decidable (_ ∧ _))

instance (d : Detector) (bits : List Bool) : Decidable (Quiet d bits) :=
  inferInstanceAs (Decidable (_ = _))

theorem reports_append (d : Detector) (bits bits' : List Bool) :
    reports d (bits ++ bits') = reports d bits ++ reports (feed d bits) bits' := by
  induction bits generalizing d with
  | nil => rfl
  | cons bit bits ih => simp only [List.cons_append, reports, ih, feed, List.foldl_cons]

theorem feed_append (d : Detector) (bits bits' : List Bool) :
    feed d (bits ++ bits') = feed (feed d bits) bits' := List.foldl_append

theorem idle_steady {d : Detector} (h : checkSyncWord d true = (false, d)) (m : ℕ) :
    reports d (idleBits m) = List.replicate m false ∧ feed d (idleBits m) = d := by
  induction m with
  | zero => exact ⟨rfl, rfl⟩
  | succ m ih =>
    have hcons : idleBits (m + 1) = true :: idleBits m := List.replicate_succ
    rw [hcons, reports, h, List.replicate_succ, ih.1]
    refine ⟨rfl, ?_⟩
    rw [feed, List.foldl_cons, h]
    exact ih.2

/-- After 32 idle bits a detector has nothing else in its memory. -/
def saturated : Detector := ⟨0xFFFFFFFF, ⟨0xFFFFFFFF, 32⟩⟩

theorem long_idle {d : Detector} (hfeed : feed d (idleBits 32) = saturated)
    (hquiet : reports d (idleBits 32) = List.replicate 32 false) (m : ℕ) (bits : List Bool) :
    reports d (idleBits (32 + m) ++ bits) =
        List.replicate (32 + m) false ++ reports saturated bits ∧
      feed d (idleBits (32 + m) ++ bits) = feed saturated bits := by
  obtain ⟨hsteady, hstays⟩ := idle_steady (d := saturated) (by decide +kernel) m
  have hsplit : idleBits (32 + m) = idleBits 32 ++ idleBits m :=
    List.replicate_add 32 m true
  rw [hsplit, List.append_assoc, reports_append, feed_append, hquiet, hfeed, reports_append,
    feed_append, hsteady, hstays, List.replicate_add, List.append_assoc]
  exact ⟨rfl, rfl⟩

theorem ready_blank : ReadyAfterIdle blank := by
  have hfew : ∀ m < 32, Ready blank (idleBits m ++ announcement) := by decide +kernel
  intro m
  rcases Nat.lt_or_ge m 32 with hm | hm
  · exact hfew m hm
  · obtain ⟨k, rfl⟩ := Nat.exists_eq_add_of_le hm
    obtain ⟨hreports, hfeed⟩ := long_idle (d := blank) (by decide +kernel) (by decide +kernel) k
      announcement
    have hafter : Ready saturated announcement := by decide +kernel
    have hlen : (idleBits (32 + k) ++ announcement).length - 1 = 32 + k + 47 := by
      rw [List.length_append, idleBits, List.length_replicate, announcement_length]
      omega
    refine ⟨?_, hfeed.trans hafter.2⟩
    rw [hreports, hafter.1, hlen, List.replicate_add (32 + k), List.append_assoc]
    rfl

theorem quiet_synced : QuietAfterIdle synced := by
  have hfew : ∀ m < 32, Quiet synced (idleBits m ++ preambleBits) := by decide +kernel
  intro m
  rcases Nat.lt_or_ge m 32 with hm | hm
  · exact hfew m hm
  · obtain ⟨k, rfl⟩ := Nat.exists_eq_add_of_le hm
    obtain ⟨hreports, -⟩ := long_idle (d := synced) (by decide +kernel) (by decide +kernel) k
      preambleBits
    have hafter : Quiet saturated preambleBits := by decide +kernel
    have hlen : (idleBits (32 + k) ++ preambleBits).length = 32 + k + 16 := by
      rw [List.length_append, idleBits, List.length_replicate]
      rfl
    rw [Quiet, hreports, hafter, hlen, List.replicate_add (32 + k)]
    rfl

theorem ready_cleared {k : ℕ} (hk : k ≤ 16) : Ready blank (announcement.drop k) := by
  refine ⟨?_, feed_announcement hk⟩
  rw [reports_announcement hk, List.length_drop, announcement_length]
  congr 2
  omega

theorem Ready.next {d : Detector} {bit : Bool} {bits : List Bool} (h : Ready d (bit :: bits))
    (hmore : bits ≠ []) :
    (checkSyncWord d bit).1 = false ∧ Ready (checkSyncWord d bit).2 bits := by
  obtain ⟨n, hn⟩ : ∃ n, bits.length = n + 1 :=
    ⟨bits.length - 1, by have := List.length_pos_iff.mpr hmore; omega⟩
  have hreports := h.1
  rw [reports, List.length_cons, Nat.add_sub_cancel, hn, List.replicate_succ, List.cons_append,
    List.cons.injEq] at hreports
  refine ⟨hreports.1, ?_, h.2⟩
  rw [hreports.2, hn, Nat.add_sub_cancel]

theorem Ready.last {d : Detector} {bit : Bool} (h : Ready d [bit]) :
    (checkSyncWord d bit).1 = true ∧ (checkSyncWord d bit).2 = synced := by
  have hreports := h.1
  simp only [reports, List.length_singleton, Nat.sub_self, List.replicate_zero, List.nil_append,
    List.cons.injEq, and_true] at hreports
  exact ⟨hreports, h.2⟩

theorem Quiet.next {d : Detector} {bit : Bool} {bits : List Bool} (h : Quiet d (bit :: bits)) :
    (checkSyncWord d bit).1 = false ∧ Quiet (checkSyncWord d bit).2 bits := by
  have hreports : reports d (bit :: bits) = List.replicate (bits.length + 1) false := h
  rw [reports, List.replicate_succ, List.cons.injEq] at hreports
  exact hreports

theorem ReadyAfterIdle.announcement {d : Detector} (h : ReadyAfterIdle d) :
    Ready d announcement := h 0

theorem ReadyAfterIdle.idle {d : Detector} (h : ReadyAfterIdle d) :
    (checkSyncWord d true).1 = false ∧ ReadyAfterIdle (checkSyncWord d true).2 := by
  have hstep : ∀ m, Ready d (true :: (idleBits m ++ SyncWord.announcement)) := fun m => h (m + 1)
  have hmore : ∀ m, idleBits m ++ SyncWord.announcement ≠ [] := fun m => by
    refine List.append_ne_nil_of_right_ne_nil _ ?_
    decide
  exact ⟨((hstep 0).next (hmore 0)).1, fun m => ((hstep m).next (hmore m)).2⟩

theorem QuietAfterIdle.preamble {d : Detector} (h : QuietAfterIdle d) : Quiet d preambleBits := h 0

theorem QuietAfterIdle.idle {d : Detector} (h : QuietAfterIdle d) :
    (checkSyncWord d true).1 = false ∧ QuietAfterIdle (checkSyncWord d true).2 := by
  have hstep : ∀ m, Quiet d (true :: (idleBits m ++ preambleBits)) := fun m => h (m + 1)
  exact ⟨(hstep 0).next.1, fun m => (hstep m).next.2⟩

/-- The frames of a stream that lie completely within its first `n` bits. -/
def framesWithin : List Item → ℕ → List Frame
  | [], _ => []
  | .idle :: rest, n => if 1 ≤ n then framesWithin rest (n - 1) else []
  | .frame f :: rest, n =>
      if (airBits f).length ≤ n then f :: framesWithin rest (n - (airBits f).length) else []

/-- Bit `n` of the stream is the first one of a sync word. -/
def AtSync (items : List Item) (n : ℕ) : Prop :=
  ∃ past f rest, items = past ++ .frame f :: rest ∧ n = (streamBits past).length + 16

theorem streamBits_cons (item : Item) (rest : List Item) :
    streamBits (item :: rest) = itemBits item ++ streamBits rest := List.flatMap_cons

theorem streamBits_snoc (past : List Item) (item : Item) :
    streamBits (past ++ [item]) = streamBits past ++ itemBits item := by
  rw [streamBits_append, streamBits_cons]
  exact congrArg _ (List.append_nil _)

theorem streamBits_getElem? {past rest : List Item} {item : Item} {p : ℕ}
    (hp : p < (itemBits item).length) :
    (streamBits (past ++ item :: rest))[(streamBits past).length + p]? = (itemBits item)[p]? := by
  rw [streamBits_append, List.getElem?_append_right (Nat.le_add_right _ _), Nat.add_sub_cancel_left,
    streamBits_cons, List.getElem?_append_left hp]

theorem framesWithin_append (past rest : List Item) (p : ℕ) :
    framesWithin (past ++ rest) ((streamBits past).length + p) =
      frames past ++ framesWithin rest p := by
  induction past with
  | nil => rw [List.nil_append, streamBits, List.flatMap_nil, List.length_nil, Nat.zero_add]; rfl
  | cons item past ih =>
    have hlen : (streamBits (item :: past)).length + p =
        (itemBits item).length + ((streamBits past).length + p) := by
      rw [streamBits_cons, List.length_append, Nat.add_assoc]
    rw [hlen, List.cons_append]
    cases item with
    | idle =>
      rw [framesWithin, if_pos (by simp [itemBits]), show (itemBits .idle).length = 1 from rfl,
        Nat.add_sub_cancel_left, ih]
      rfl
    | frame f =>
      rw [framesWithin, itemBits, if_pos (Nat.le_add_right _ _), Nat.add_sub_cancel_left, ih]
      rfl

theorem framesWithin_short {f : Frame} {rest : List Item} {p : ℕ} (hp : p < (airBits f).length) :
    framesWithin (.frame f :: rest) p = [] := if_neg (not_le.mpr hp)

theorem framesWithin_zero (rest : List Item) : framesWithin rest 0 = [] := by
  cases rest with
  | nil => rfl
  | cons item rest =>
    cases item with
    | idle => rfl
    | frame f => exact framesWithin_short (by rw [airBits_length]; omega)

/-- The receiver after `n` bits of a stream, with the frames it has handed to the main loop. -/
inductive Phase (items : List Item) (e : Echo) : ℕ → List Frame → Prop
  | searching (past rest : List Item) (split : items = past ++ rest) (h : Searching e)
      (ready : ReadyAfterIdle (detector e)) :
      Phase items e (streamBits past).length (frames past)
  | announced (past rest : List Item) (f : Frame) (p : ℕ) (split : items = past ++ .frame f :: rest)
      (h : Searching e) (early : p < 48) (ready : Ready (detector e) (announcement.drop p)) :
      Phase items e ((streamBits past).length + p) (frames past)
  | arriving (past rest : List Item) (f : Frame) (k : ℕ) (split : items = past ++ .frame f :: rest)
      (h : Receiving e ((frameBits f).take k)) (unfinished : k < (frameBits f).length)
      (notReady : e.rx.packetReady = false) (found : detector e = synced) :
      Phase items e ((streamBits past).length + (48 + k)) (frames past)
  | waiting (past rest : List Item) (f : Frame) (handed : List Frame) (split : items = past ++ rest)
      (last : frames past = handed ++ [f]) (h : Complete e (frameBits f))
      (quiet : QuietAfterIdle (detector e)) : Phase items e (streamBits past).length handed
  | overtaken (past rest : List Item) (f f' : Frame) (p : ℕ) (handed : List Frame)
      (split : items = past ++ .frame f' :: rest) (last : frames past = handed ++ [f])
      (h : Complete e (frameBits f)) (early : p ≤ 16)
      (quiet : Quiet (detector e) (preambleBits.drop p)) :
      Phase items e ((streamBits past).length + p) handed

/-- The frames handed over and the one that may be waiting are those that have passed. -/
theorem Phase.accounts {items : List Item} {e : Echo} {n : ℕ} {handed : List Frame}
    (h : Phase items e n handed) : ∃ waiting, framesWithin items n = handed ++ waiting ∧
      waiting.length = e.rx.packetReady.toNat := by
  cases h with
  | searching past rest split h =>
    have hwithin := framesWithin_append past rest 0
    rw [Nat.add_zero, framesWithin_zero] at hwithin
    exact ⟨[], by rw [split, hwithin], by rw [h.notReady]; rfl⟩
  | announced past rest f p split h early =>
    have hshort : framesWithin (.frame f :: rest) p = [] :=
      framesWithin_short (by rw [airBits_length]; omega)
    exact ⟨[], by rw [split, framesWithin_append, hshort], by rw [h.notReady]; rfl⟩
  | arriving past rest f k split h unfinished notReady =>
    rw [frameBits_length] at unfinished
    have hshort : framesWithin (.frame f :: rest) (48 + k) = [] :=
      framesWithin_short (by rw [airBits_length]; omega)
    exact ⟨[], by rw [split, framesWithin_append, hshort], by rw [notReady]; rfl⟩
  | waiting past rest f handed split last h =>
    have hwithin := framesWithin_append past rest 0
    rw [Nat.add_zero, framesWithin_zero, List.append_nil, last] at hwithin
    exact ⟨[f], by rw [split, hwithin], by rw [h.ready]; rfl⟩
  | overtaken past rest f f' p handed split last h early =>
    have hshort : framesWithin (.frame f' :: rest) p = [] :=
      framesWithin_short (by rw [airBits_length]; omega)
    exact ⟨[f], by rw [split, framesWithin_append, hshort, last, List.append_nil],
      by rw [h.ready]; rfl⟩

theorem complete_setDetector {e : Echo} {bits : List Bool} (h : Complete e bits) (d : Detector) :
    Complete (setDetector e d) bits :=
  have hann := h.announced
  ⟨h.state, h.ready, h.ring, h.count, ⟨hann.valid, hann.comp, hann.rohc, hann.fec, hann.len⟩,
    h.finished⟩

theorem searching_setDetector {e : Echo} (h : Searching e) (d : Detector) :
    Searching (setDetector e d) := ⟨h.state, h.ring, h.notReady⟩

theorem announcement_drop {p : ℕ} (hp : p < 48) (f : Frame) :
    announcement.drop p = airBit f p :: announcement.drop (p + 1) := by
  have hget := airBit_announcement f hp
  obtain ⟨hlt, hbit⟩ := List.getElem?_eq_some_iff.mp hget
  rw [List.drop_eq_getElem_cons hlt, hbit]

theorem preamble_drop {p : ℕ} (hp : p < 16) (f : Frame) :
    preambleBits.drop p = airBit f p :: preambleBits.drop (p + 1) := by
  have hlt : p < preambleBits.length := hp
  have hget := airBit_announcement f (hp.trans (by decide : 16 < 48))
  rw [announcement, List.getElem?_append_left hlt, List.getElem?_eq_getElem hlt,
    Option.some.injEq] at hget
  rw [List.drop_eq_getElem_cons hlt, hget]

theorem streamBits_frame {past rest : List Item} {f : Frame} {p : ℕ} {bit : Bool}
    (hp : p < (airBits f).length)
    (hbit : (streamBits (past ++ .frame f :: rest))[(streamBits past).length + p]? = some bit) :
    airBit f p = bit := by
  have hlt : p < (itemBits (.frame f)).length := hp
  have hitem := hbit.symm.trans (streamBits_getElem? hlt)
  rw [itemBits] at hitem
  rw [airBit, List.getD_eq_getElem?_getD, ← hitem, Option.getD_some]

theorem idle_passes {items past rest : List Item} {bit : Bool} (split : items = past ++ .idle :: rest)
    (hbit : (streamBits items)[(streamBits past).length]? = some bit) :
    bit = true ∧ items = (past ++ [.idle]) ++ rest ∧
      (streamBits (past ++ [.idle])).length = (streamBits past).length + 1 ∧
      frames (past ++ [.idle]) = frames past := by
  have hitem : (streamBits (past ++ .idle :: rest))[_ + 0]? = (itemBits .idle)[0]? :=
    streamBits_getElem? Nat.one_pos
  rw [Nat.add_zero, ← split, hbit] at hitem
  refine ⟨Option.some.inj hitem, ?_, ?_, ?_⟩
  · rw [split, List.append_assoc, List.singleton_append]
  · rw [streamBits_snoc, List.length_append]
    rfl
  · rw [frames_append]
    exact List.append_nil _

section Bit
variable {items past rest : List Item} {e : Echo} {now : ℤ} {bit : Bool} {f f' : Frame} {p k : ℕ}
  {handed : List Frame}

theorem announced_bit (split : items = past ++ .frame f :: rest) (h : Searching e) (early : p < 48)
    (ready : Ready (detector e) (announcement.drop p))
    (hbit : (streamBits items)[(streamBits past).length + p]? = some bit) :
    Phase items (processRxBit e now bit) ((streamBits past).length + p + 1) (frames past) := by
  rw [split] at hbit
  have hair := streamBits_frame (by rw [airBits_length]; omega) hbit
  rw [announcement_drop early f, hair] at ready
  by_cases hlast : p = 47
  · rw [hlast] at ready
    obtain ⟨hreport, hsynced⟩ := ready.last
    obtain ⟨hopen, hready, hdet⟩ := processRxBit_sync now h.state h.ring hreport
    rw [hlast]
    exact .arriving past rest f 0 split hopen (by rw [frameBits_length]; omega)
      (hready.trans h.notReady) (hdet.trans hsynced)
  · have hmore : announcement.drop (p + 1) ≠ [] := by
      rw [Ne, List.drop_eq_nil_iff, announcement_length]
      omega
    obtain ⟨hreport, hnext⟩ := ready.next hmore
    rw [processRxBit_search now h.state hreport]
    exact .announced past rest f (p + 1) split (searching_setDetector h _) (by omega) hnext

theorem arriving_bit (hvalid : ValidFrame f) (split : items = past ++ .frame f :: rest)
    (h : Receiving e ((frameBits f).take k)) (unfinished : k < (frameBits f).length)
    (notReady : e.rx.packetReady = false) (found : detector e = synced) (hfresh : ¬ expired e now)
    (hbit : (streamBits items)[(streamBits past).length + (48 + k)]? = some bit) :
    Phase items (processRxBit e now bit) ((streamBits past).length + (48 + k) + 1)
      (frames past) := by
  have hlen := frameBits_length f
  rw [split] at hbit
  have hair := streamBits_frame (by rw [airBits_length]; omega) hbit
  rw [airBit_frame] at hair
  have hstep := frame_bit hvalid.fits (n := k) (by omega) h hfresh
  change (scrambleBits scramblerReset (plainBits (header f) f.payload)).getD k false = _ at hair
  rw [hair] at hstep
  obtain ⟨hsame, ⟨hlt, hnext, hready⟩ | ⟨hlast, hdone⟩⟩ := hstep
  · exact .arriving past rest f (k + 1) split hnext (by omega) (hready.trans notReady)
      (hsame.trans found)
  · have hend : (streamBits past).length + (48 + k) + 1 =
        (streamBits (past ++ [.frame f])).length := by
      rw [streamBits_snoc, List.length_append, itemBits, airBits_length]
      omega
    rw [hend]
    refine .waiting (past ++ [.frame f]) rest f (frames past) ?_ ?_ hdone ?_
    · rw [split, List.append_assoc, List.singleton_append]
    · rw [frames_append]
      rfl
    · rw [hsame, found]
      exact quiet_synced

theorem overtaken_bit (split : items = past ++ .frame f' :: rest)
    (last : frames past = handed ++ [f]) (h : Complete e (frameBits f)) (early : p < 16)
    (quiet : Quiet (detector e) (preambleBits.drop p))
    (hbit : (streamBits items)[(streamBits past).length + p]? = some bit) :
    Phase items (processRxBit e now bit) ((streamBits past).length + p + 1) handed := by
  rw [split] at hbit
  have hair := streamBits_frame (by rw [airBits_length]; omega) hbit
  rw [preamble_drop early f', hair] at quiet
  obtain ⟨hreport, hnext⟩ := quiet.next
  rw [processRxBit_search now h.state hreport]
  exact .overtaken past rest f f' (p + 1) handed split last (complete_setDetector h _) early hnext

end Bit

/-- Every bit of the stream moves the receiver on, if no frame waits when a sync word begins. -/
theorem Phase.bit {items : List Item} {e : Echo} {n : ℕ} {handed : List Frame}
    (h : Phase items e n handed) (hvalid : ∀ f ∈ frames items, ValidFrame f) {now : ℤ}
    (hfresh : ¬ expired e now) (htimely : AtSync items n → e.rx.packetReady = false) {bit : Bool}
    (hbit : (streamBits items)[n]? = some bit) :
    Phase items (processRxBit e now bit) (n + 1) handed := by
  cases h with
  | searching past rest split h ready =>
    cases rest with
    | nil =>
      rw [split, List.append_nil] at hbit
      exact absurd (List.getElem?_eq_some_iff.mp hbit).1 (lt_irrefl _)
    | cons item rest =>
      cases item with
      | idle =>
        obtain ⟨rfl, hsplit, hend, hframes⟩ := idle_passes split hbit
        obtain ⟨hreport, hnext⟩ := ready.idle
        rw [processRxBit_search now h.state hreport, ← hend, ← hframes]
        exact .searching (past ++ [.idle]) rest hsplit (searching_setDetector h _) hnext
      | frame f => exact announced_bit (p := 0) split h (by decide) ready.announcement hbit
  | announced past rest f p split h early ready => exact announced_bit split h early ready hbit
  | arriving past rest f k split h unfinished notReady found =>
    have hmem : f ∈ frames items := by
      rw [split, frames_append]
      exact List.mem_append_right _ List.mem_cons_self
    exact arriving_bit (hvalid f hmem) split h unfinished notReady found hfresh hbit
  | waiting past rest f handed split last h quiet =>
    cases rest with
    | nil =>
      rw [split, List.append_nil] at hbit
      exact absurd (List.getElem?_eq_some_iff.mp hbit).1 (lt_irrefl _)
    | cons item rest =>
      cases item with
      | idle =>
        obtain ⟨rfl, hsplit, hend, hframes⟩ := idle_passes split hbit
        obtain ⟨hreport, hnext⟩ := quiet.idle
        rw [processRxBit_search now h.state hreport, ← hend]
        exact .waiting (past ++ [.idle]) rest f handed hsplit (hframes.trans last)
          (complete_setDetector h _) hnext
      | frame f' => exact overtaken_bit (p := 0) split last h (by decide) quiet.preamble hbit
  | overtaken past rest f f' p handed split last h early quiet =>
    have hlt : p < 16 := by
      by_contra hge
      have hready := htimely ⟨past, f', rest, split, by omega⟩
      rw [h.ready] at hready
      exact absurd hready (by decide)
    exact overtaken_bit split last h hlt quiet hbit

/-- An endpoint that is handed whole frames stands where the receiver of `e` stands. -/
structure Follows (r e : Echo) : Prop where
  ring : Holds r.rxRb []
  rohcRx : e.rohcRx = r.rohcRx
  tunOut : e.tunOut = r.tunOut

theorem judge_flags (lz4 : Lz4) (memory : Memory) {rx rx' : RxState} (s : ROHCState)
    (p : List UInt8) (n : ℕ) (hcomp : rx.isCompressed = rx'.isCompressed)
    (hrohc : rx.isRohc = rx'.isRohc) (hfec : rx.isFec = rx'.isFec) :
    judge lz4 memory rx s p n = judge lz4 memory rx' s p n := by
  simp only [judge, hcomp, hrohc, hfec]

/-- The `packet_ready` block delivers the frame that is waiting. -/
theorem mainBlock_delivers (lz4 : Lz4) (memory : Memory) {e r : Echo} {f : Frame}
    (hvalid : ValidFrame f) (h : Complete e (frameBits f)) (hr : Follows r e) :
    Follows (deliver lz4 memory r f) (mainBlock lz4 memory e) ∧
      Searching (mainBlock lz4 memory e) ∧ detector (mainBlock lz4 memory e) = blank := by
  obtain ⟨hlen, hheader⟩ := hvalid
  have hann := h.announced
  rw [bitsValue_frame hlen] at hann
  obtain ⟨hcomp, hrohc, hfec, hlength⟩ := header_fields hlen
  have hbounds := headerLen_of_valid hheader
  rw [hlength] at hbounds
  have hmax : f.payload.length ≤ SIZE_BUF * 2 := by omega
  have hpacketLen : e.rx.packetLen = f.payload.length := hann.len.trans hlength
  obtain ⟨rb, hcall⟩ := rbToTun_ring lz4 memory h.ring (by omega) hmax
  obtain ⟨hrx, htun, hring⟩ := deliver_spec lz4 memory hr.ring (by omega) hmax
  have hidle := rbToTun_idle lz4 memory e e.rx.packetLen
  have hjudge : judge lz4 memory e.rx e.rohcRx (payloadArray f.payload) f.payload.length =
      judge lz4 memory (arrive r f).rx e.rohcRx (payloadArray f.payload) f.payload.length :=
    judge_flags lz4 memory _ _ _ (hann.comp.trans hcomp) (hann.rohc.trans hrohc)
      (hann.fec.trans hfec)
  rw [hr.rohcRx] at hjudge
  have hblock : mainBlock lz4 memory e =
      { rbToTun lz4 memory e e.rx.packetLen with
        rx := { (rbToTun lz4 memory e e.rx.packetLen).rx with packetReady := false } } := by
    simp only [mainBlock]
    rw [if_pos h.ready, if_pos (by omega : 0 < e.rx.packetLen)]
  have hwritten : (rbToTun lz4 memory e e.rx.packetLen).rohcRx =
        (judge lz4 memory (arrive r f).rx r.rohcRx (payloadArray f.payload) f.payload.length).2 ∧
      (rbToTun lz4 memory e e.rx.packetLen).tunOut = r.tunOut ++
        packets (judge lz4 memory (arrive r f).rx r.rohcRx (payloadArray f.payload)
          f.payload.length).1 := by
    rw [hpacketLen, hcall, rxReset_rohcRx, rxReset_tunOut, processPayload_rohcRx,
      processPayload_tunOut, ← hjudge, ← hr.rohcRx, ← hr.tunOut]
    exact ⟨rfl, rfl⟩
  rw [hblock]
  exact ⟨⟨hring, hwritten.1.trans hrx.symm, hwritten.2.trans htun.symm⟩,
    ⟨hidle.state, hidle.ring, rfl⟩, hidle.blank⟩

/-- The main loop does nothing, or takes the next one of the frames that have passed. -/
theorem Phase.main {items : List Item} {e r : Echo} {n : ℕ} {handed : List Frame}
    (h : Phase items e n handed) (hvalid : ∀ f ∈ frames items, ValidFrame f) (lz4 : Lz4)
    (memory : Memory) (hr : Follows r e) :
    (Phase items (mainBlock lz4 memory e) n handed ∧ Follows r (mainBlock lz4 memory e)) ∨
      ∃ f, Phase items (mainBlock lz4 memory e) n (handed ++ [f]) ∧
        Follows (deliver lz4 memory r f) (mainBlock lz4 memory e) := by
  have hmem : ∀ {past rest : List Item} {f : Frame}, items = past ++ rest →
      frames past = handed ++ [f] → ValidFrame f := fun split last =>
    hvalid _ (by
      rw [split, frames_append, last]
      exact List.mem_append_left _ (List.mem_append_right _ List.mem_cons_self))
  cases h with
  | searching past rest split h ready =>
    rw [mainBlock_notReady h.notReady]
    exact .inl ⟨.searching past rest split h ready, hr⟩
  | announced past rest f p split h early ready =>
    rw [mainBlock_notReady h.notReady]
    exact .inl ⟨.announced past rest f p split h early ready, hr⟩
  | arriving past rest f k split h unfinished notReady found =>
    rw [mainBlock_notReady notReady]
    exact .inl ⟨.arriving past rest f k split h unfinished notReady found, hr⟩
  | waiting past rest f handed split last h quiet =>
    obtain ⟨hfollows, hsearch, hblank⟩ := mainBlock_delivers lz4 memory (hmem split last) h hr
    refine .inr ⟨f, ?_, hfollows⟩
    rw [← last]
    exact .searching past rest split hsearch (by rw [hblank]; exact ready_blank)
  | overtaken past rest f f' p handed split last h early quiet =>
    obtain ⟨hfollows, hsearch, hblank⟩ := mainBlock_delivers lz4 memory (hmem split last) h hr
    refine .inr ⟨f, ?_, hfollows⟩
    rw [← last]
    exact .announced past rest f' p split hsearch (by omega) (by rw [hblank]; exact ready_cleared early)

end EchoProtocol.GappedStream
