import EchoProtocol.AcousticLink
import EchoProtocol.IdleReception
import EchoProtocol.WrittenPackets

/-!
# Joining a stream

A receiver that has settled follows the stream that comes next, whatever it has been through. Bits
of a frame that was abandoned may still be in its ring; they can spoil the first frame, since the
ring is not cleared before that one has been handled, but no other one.
-/
namespace EchoProtocol.Resynchronization
open SymbolFetch (idleSymbol symbolBits)
open RingBits SyncWord Rohc Frames Endpoint Transmit Receive ReceiveMachine ReceiveBuffer FrameHeader
  FrameStream Delivery Link Modem Demodulation Callback WarmUp Playback GappedStream Reception
  Windows Acoustics AcousticLink WrittenPackets IdleReception Runs

/-- A frame that waits when the main loop comes round is the next one of the stream, whatever the
ring holds. -/
theorem phase_ready {items : List Item} {e : Echo} {n : ℕ} {handed : List Frame}
    (h : Phase items e n handed) (hready : e.rx.packetReady = true) :
    0 < e.rx.packetLen ∧ ∃ f, ∀ e', Searching e' → detector e' = blank →
      Phase items e' n (handed ++ [f]) := by
  have hpos : ∀ {f : Frame}, Complete e (frameBits f) → 0 < e.rx.packetLen := fun h => by
    rw [h.announced.len]
    exact (headerLen_of_valid h.announced.valid).1
  cases h with
  | searching past rest split h => exact absurd (hready.symm.trans h.notReady) (by decide)
  | announced past rest f p split h => exact absurd (hready.symm.trans h.notReady) (by decide)
  | arriving past rest f k split h unfinished notReady =>
    exact absurd (hready.symm.trans notReady) (by decide)
  | waiting past rest f handed split last h =>
    refine ⟨hpos h, f, fun e' hsearch hblank => ?_⟩
    rw [← last]
    exact .searching past rest split hsearch (by rw [hblank]; exact ready_blank)
  | overtaken past rest f f' p handed split last h early =>
    refine ⟨hpos h, f, fun e' hsearch hblank => ?_⟩
    rw [← last]
    exact .announced past rest f' p split hsearch (by omega)
      (by rw [hblank]; exact ready_cleared early)

theorem packets_few (v : Verdict) : (packets v).length ≤ 1 := by
  cases v <;> simp [packets]

theorem mainBlock_writes (lz4 : Lz4) (memory : Memory) {e : Echo} (hready : e.rx.packetReady = true)
    (hpos : 0 < e.rx.packetLen) :
    ∃ out, (mainBlock lz4 memory e).tunOut = e.tunOut ++ out ∧ out.length ≤ 1 := by
  have hout := rbToTun_tunOut lz4 memory e e.rx.packetLen
  simp only [mainBlock]
  rw [if_pos hready, if_pos hpos]
  refine ⟨_, hout, ?_⟩
  split_ifs
  · exact Nat.zero_le _
  · split
    · exact Nat.zero_le _
    · exact packets_few _

/-- Where a receiver stands that has settled before a stream began: it has not handled a frame yet,
and its ring may hold anything, or it has handled the first one, which is lost if the ring was not
empty, and follows the stream. -/
inductive Joined (lz4 : Lz4) (items : List Item) (start e : Echo) (n : ℕ) : Prop
  | before (b : Buffer) (phase : Phase items (withRing b e) n []) (dirty : ¬ Holds start.rxRb [])
      (rohcRx : e.rohcRx = start.rohcRx) (tunOut : e.tunOut = start.tunOut)
  | after (r : Echo) (first : List Frame) (arrivals : List (Frame × Memory))
      (phase : Phase items e n (first ++ arrivals.map Prod.fst))
      (follows : Follows (received lz4 r arrivals) e) (ring : Holds r.rxRb [])
      (few : first.length ≤ 1) (clean : Holds start.rxRb [] → first = [])
      (kept : first = [] → r.rohcRx = start.rohcRx)
      (spoiled : ∃ out, r.tunOut = start.tunOut ++ out ∧ out.length ≤ first.length)

theorem joined_of_settled {e : Echo} (h : Settled e) (hfree : e.rx.packetReady = false) (lz4 : Lz4)
    (items : List Item) : Joined lz4 items e e 0 := by
  by_cases hring : Holds e.rxRb []
  · exact .after e [] [] (.searching [] items rfl ⟨h.state, hring, hfree⟩ h.ready) ⟨hring, rfl, rfl⟩
      hring (Nat.zero_le _) (fun _ => rfl) (fun _ => rfl) ⟨[], (List.append_nil _).symm, le_rfl⟩
  · exact .before (rbReset e.rxRb)
      (.searching [] items rfl ⟨h.state, rbReset_holds e.rxRb, hfree⟩ h.ready) hring rfl rfl

section Joined
variable {lz4 : Lz4} {items : List Item} {start e e' : Echo} {n : ℕ}

theorem Joined.of_sameReceiver (h : Joined lz4 items start e n) (hsame : SameReceiver e e') :
    Joined lz4 items start e' n := by
  cases h with
  | before b phase dirty rohcRx tunOut =>
    exact .before b ((sameReceiver_withRing hsame b).phase phase) dirty
      (hsame.rohcRx.trans rohcRx) (hsame.tunOut.trans tunOut)
  | after r first arrivals phase follows ring few clean kept spoiled =>
    exact .after r first arrivals (hsame.phase phase) (hsame.follows follows) ring few clean kept
      spoiled

theorem Joined.bit (h : Joined lz4 items start e n) (hvalid : ∀ f ∈ frames items, ValidFrame f)
    {now : ℤ} (hfresh : ¬ expired e now) (htimely : AtSync items n → e.rx.packetReady = false)
    {bit : Bool} (hbit : (streamBits items)[n]? = some bit) :
    Joined lz4 items start (processRxBit e now bit) (n + 1) := by
  obtain ⟨hrohc, htun⟩ := processRxBit_output e now bit
  cases h with
  | before b phase dirty rohcRx tunOut =>
    obtain ⟨b', hb'⟩ := processRxBit_withRing b e now bit
    have hnext := phase.bit hvalid (show ¬ expired (withRing b e) now from hfresh) htimely hbit
    rw [hb'] at hnext
    exact .before b' hnext dirty (hrohc.trans rohcRx) (htun.trans tunOut)
  | after r first arrivals phase follows ring few clean kept spoiled =>
    exact .after r first arrivals (phase.bit hvalid hfresh htimely hbit)
      ⟨follows.ring, hrohc.trans follows.rohcRx, htun.trans follows.tunOut⟩ ring few clean kept
      spoiled

theorem Joined.main (h : Joined lz4 items start e n) (hvalid : ∀ f ∈ frames items, ValidFrame f)
    (memory : Memory) : Joined lz4 items start (mainBlock lz4 memory e) n := by
  cases h with
  | before b phase dirty rohcRx tunOut =>
    cases hready : e.rx.packetReady with
    | false =>
      rw [mainBlock_notReady hready]
      exact .before b phase dirty rohcRx tunOut
    | true =>
      -- the first frame is handled, with whatever lies in the ring
      obtain ⟨hpos, f, hnext⟩ := phase_ready phase hready
      obtain ⟨hsearch, hblank⟩ := mainBlock_reset lz4 memory hready hpos
      obtain ⟨out, hout, hfew⟩ := mainBlock_writes lz4 memory hready hpos
      refine .after (mainBlock lz4 memory e) [f] [] (hnext _ hsearch hblank)
        ⟨hsearch.ring, rfl, rfl⟩ hsearch.ring le_rfl (fun hclean => absurd hclean dirty)
        (fun hnil => absurd hnil (List.cons_ne_nil _ _)) ⟨out, ?_, hfew⟩
      rw [hout, tunOut]
  | after r first arrivals phase follows ring few clean kept spoiled =>
    rcases phase.main hvalid lz4 memory follows with ⟨hphase, hfollows⟩ | ⟨f, hphase, hfollows⟩
    · exact .after r first arrivals hphase hfollows ring few clean kept spoiled
    · refine .after r first (arrivals ++ [(f, memory)]) ?_ ?_ ring few clean kept spoiled
      · rw [List.map_append, ← List.append_assoc]
        exact hphase
      · rw [received_concat]
        exact hfollows

theorem Joined.symbol (h : Joined lz4 items start e n) (hpaired : Paired items)
    (hvalid : ∀ f ∈ frames items, ValidFrame f) {now now' : ℤ} {bit0 bit1 : Bool} (hn : n % 2 = 0)
    (hbits : (streamBits items)[n]? = some bit0 ∧ (streamBits items)[n + 1]? = some bit1)
    (hclock : ¬ expired e now ∧ 0 ≤ now ∧ now < 2 ^ 32 ∧ now' ≤ now + 6)
    (htimely : AtSync items n → e.rx.packetReady = false) :
    Joined lz4 items start (processRxBit (processRxBit e now bit0) now' bit1) (n + 2) := by
  obtain ⟨hfresh, hpos, hlt, hnext⟩ := hclock
  have hfirst := h.bit hvalid hfresh htimely hbits.1
  exact hfirst.bit hvalid (processRxBit_fresh bit0 hfresh hpos hlt hnext)
    (fun hat => absurd (hpaired.aligned _ hat) (by omega)) hbits.2

/-- What a receiver that has joined a stream has taken of it. -/
theorem Joined.accounts (h : Joined lz4 items start e n) : ∃ r first arrivals waiting,
    framesWithin items n = first ++ arrivals.map Prod.fst ++ waiting ∧
    first.length ≤ 1 ∧ (Holds start.rxRb [] → first = []) ∧
    waiting.length = e.rx.packetReady.toNat ∧
    Holds r.rxRb [] ∧ (first = [] → r.rohcRx = start.rohcRx) ∧
    (∃ out, r.tunOut = start.tunOut ++ out ∧ out.length ≤ first.length) ∧
    e.rohcRx = (received lz4 r arrivals).rohcRx ∧ e.tunOut = (received lz4 r arrivals).tunOut := by
  cases h with
  | before b phase dirty rohcRx tunOut =>
    obtain ⟨waiting, hwithin, hwaiting⟩ := phase.accounts
    exact ⟨withRing (rbReset e.rxRb) e, [], [], waiting, hwithin, Nat.zero_le _, fun _ => rfl,
      hwaiting, rbReset_holds e.rxRb, fun _ => rohcRx,
      ⟨[], tunOut.trans (List.append_nil _).symm, le_rfl⟩, rfl, rfl⟩
  | after r first arrivals phase follows ring few clean kept spoiled =>
    obtain ⟨waiting, hwithin, hwaiting⟩ := phase.accounts
    exact ⟨r, first, arrivals, waiting, hwithin, few, clean, hwaiting, ring, kept, spoiled,
      follows.rohcRx, follows.tunOut⟩

end Joined

/-- The symbols that carry some bits. -/
def symbolsOf : List Bool → List UInt8
  | bit1 :: bit0 :: bits =>
      ((if bit1 then 2 else 0) + (if bit0 then 1 else 0)) :: symbolsOf bits
  | _ => []

theorem symbolsOf_bits (bits : List Bool) (h : bits.length % 2 = 0) :
    (symbolsOf bits).flatMap symbolBits = bits := by
  induction bits using symbolsOf.induct with
  | case1 bit1 bit0 bits ih =>
    rw [List.length_cons, List.length_cons] at h
    rw [symbolsOf, List.flatMap_cons, ih (by omega)]
    cases bit1 <;> cases bit0 <;> rfl
  | case2 bits hshort =>
    match bits with
    | [] => rfl
    | [bit] => exact absurd h (by simp)
    | bit1 :: bit0 :: rest => exact (hshort bit1 bit0 rest rfl).elim

section Tones
variable (lz4 : Lz4)

/-- The tones of some symbols are heard as their bits. -/
theorem heardBits_tones {xs : List UInt8} {events : List (Event ℝ)}
    (hsamples : heardSamples (trace (step realArithmetic lz4) freshStation events) = tones xs) :
    heardBits realArithmetic (trace (step realArithmetic lz4) freshStation events) =
      xs.flatMap symbolBits := by
  have hcarries : Carries ∅ (tones xs)
      (heardSamples (trace (step realArithmetic lz4) freshStation events)) := by
    rw [hsamples]
    refine ⟨le_rfl, fun k _ _ => ⟨1, one_ne_zero, ?_⟩⟩
    rw [show (1 * · : ℝ → ℝ) = id from funext one_mul, List.map_id, distance_self]
    exact abs_nonneg 1
  obtain ⟨-, hright⟩ := heardBits_carried lz4 (fun _ => 0) (fun _ => 0) false events
    List.prefix_rfl hcarries
  have hcount : (heardBits realArithmetic
      (trace (step realArithmetic lz4) freshStation events)).length = 2 * xs.length := by
    have hlen : (heardBits realArithmetic
        (trace (step realArithmetic lz4) freshStation events)).length =
        2 * ((heardSamples (trace (step realArithmetic lz4) freshStation events)).length /
          SAMPLES_PER_SYMBOL) :=
      heardBits_length realArithmetic lz4 (fun _ => 0) (fun _ => 0) false events
    rw [hlen, hsamples, tones_length, Nat.mul_div_cancel_left _ (by decide)]
  have hbits : (xs.flatMap symbolBits).length = 2 * xs.length := by
    simp [List.length_flatMap, symbolBits, Nat.mul_comm]
  refine List.ext_getElem? fun p => ?_
  by_cases hp : p < 2 * xs.length
  · exact hright p (hcount ▸ hp) (Set.notMem_empty _)
  · rw [List.getElem?_eq_none (by omega), List.getElem?_eq_none (by omega)]

theorem tones_append (xs ys : List UInt8) : ∃ rest, tones (xs ++ ys) = tones xs ++ rest := by
  rw [tones, held, List.flatMap_append, samples_append]
  exact ⟨_, rfl⟩

theorem heardBits_rest {xs ys : List UInt8} {rest : List ℝ}
    (hrest : tones (xs ++ ys) = tones xs ++ rest) {past : List (Event ℝ)}
    (hpast : heardSamples (trace (step realArithmetic lz4) freshStation past) = tones xs) (now : ℤ) :
    heardBits realArithmetic (trace (step realArithmetic lz4)
      (run (step realArithmetic lz4) freshStation past) (hearing now rest)) = ys.flatMap symbolBits := by
  have hall : heardSamples (trace (step realArithmetic lz4) freshStation (past ++ hearing now rest)) =
      tones (xs ++ ys) := by
    rw [hrest, trace_append, heardSamples_append, hpast, heardSamples_hearing]
  have hbits := heardBits_tones lz4 hall
  rwa [trace_append, heardBits_append, heardBits_tones lz4 hpast, List.flatMap_append,
    List.append_cancel_left_eq] at hbits

end Tones

theorem pause_bits (n : ℕ) :
    (∀ bit ∈ (List.replicate n idleSymbol).flatMap symbolBits, bit = true) ∧
      ((List.replicate n idleSymbol).flatMap symbolBits).length = 2 * n := by
  refine ⟨fun bit hbit => ?_, ?_⟩
  · obtain ⟨x, hx, hin⟩ := List.mem_flatMap.mp hbit
    rw [List.eq_of_mem_replicate hx] at hin
    rcases List.mem_pair.mp hin with rfl | rfl <;> rfl
  · simp [List.length_flatMap, symbolBits, Nat.mul_comm]

theorem received_dummies (lz4 : Lz4) (r : Echo) {arrivals : List (Frame × Memory)}
    (h : ∀ a ∈ arrivals, a.1 = rawFrame dummyIp) :
    received lz4 r arrivals = warmedReceiver lz4 r (arrivals.map Prod.snd) := by
  induction arrivals generalizing r with
  | nil => rfl
  | cons a arrivals ih =>
    rw [List.forall_mem_cons] at h
    simp only [received, List.foldl_cons, List.map_cons, warmedReceiver]
    rw [h.1]
    exact ih _ h.2

/-- The receiver searches with some bits in its ring, or will time out at the next bit. -/
structure Stranded (now : ℤ) (e : Echo) (bits : List Bool) : Prop where
  ring : Holds e.rxRb bits
  free : e.rx.packetReady = false
  quiet : QuietAfterIdle (detector e)
  late : e.rx.state = .DATA → expired e now

theorem Stranded.idle {now : ℤ} {e : Echo} {bits : List Bool} (h : Stranded now e bits) :
    Stranded now (processRxBit e now true) bits := by
  by_cases hexp : expired e now
  · unfold processRxBit
    rw [if_pos hexp]
    exact ⟨h.ring, h.free, h.quiet, fun hdata => by cases hdata⟩
  · cases hstate : e.rx.state with
    | DATA => exact absurd (h.late hstate) hexp
    | SEARCHING =>
      obtain ⟨hno, hquiet⟩ := h.quiet.idle
      rw [processRxBit_search now hstate hno]
      exact ⟨h.ring, h.free, hquiet, fun hdata => absurd (hstate.symm.trans hdata) (by decide)⟩

theorem Stranded.of_sameReceiver {now : ℤ} {e e' : Echo} {bits : List Bool} (h : Stranded now e bits)
    (hsame : SameReceiver e e') : Stranded now e' bits where
  ring := by rw [hsame.rxRb]; exact h.ring
  free := by rw [hsame.rx]; exact h.free
  quiet := by rw [hsame.detector]; exact h.quiet
  late := by rw [expired, hsame.rx]; exact h.late

theorem step_stranded {F D : Type} (ar : Arithmetic F D) (lz4 : Lz4) {now : ℤ} {st : Station F}
    {event : Event F} {bits : List Bool} (h : Stranded now st.echo bits) (hclock : ClockAt now event)
    (hidle : ∀ bit ∈ decided ar (st, event), bit = true) :
    Stranded now (step ar lz4 st event).echo bits := by
  cases stillStep ar lz4 st hclock with
  | silent _ hsame => exact h.of_sameReceiver hsame
  | symbol bit0 bit1 htwo hsame =>
    rw [htwo] at hidle
    obtain ⟨rfl, rfl⟩ : bit0 = true ∧ bit1 = true := by simpa using hidle
    exact h.idle.idle.of_sameReceiver hsame
  | main memory _ heq =>
    rw [heq, mainBlock_notReady h.free]
    exact h

/-- A pause leaves the bits of the frame in the ring. -/
theorem run_stranded {F D : Type} (ar : Arithmetic F D) (lz4 : Lz4) {now : ℤ} {st : Station F}
    {bits : List Bool} (h : Stranded now st.echo bits) {events : List (Event F)}
    (hclock : ∀ event ∈ events, ClockAt now event)
    (hidle : ∀ bit ∈ heardBits ar (trace (step ar lz4) st events), bit = true) :
    Stranded now (run (step ar lz4) st events).echo bits :=
  (run_induction (I := fun st : Station F => Stranded now st.echo bits) h fun _ event hmem hst =>
    step_stranded ar lz4 hst (hclock event (mem_of_mem_trace hmem)) fun bit hbit =>
      hidle bit (List.mem_flatMap.mpr ⟨_, hmem, hbit⟩)).1

/-- Behind its announcement the only frame of a stream is being received. -/
theorem phase_open {f : Frame} {e : Echo} {n : ℕ} {handed : List Frame}
    (h : Phase [.frame f] e n handed) (hbegun : 48 ≤ n) (hopen : n < (airBits f).length) :
    Receiving e ((frameBits f).take (n - 48)) ∧ e.rx.packetReady = false ∧ detector e = synced := by
  have hwhole : (streamBits [.frame f]).length = (airBits f).length := by
    rw [streamBits_cons, itemBits]
    exact congrArg List.length (List.append_nil _)
  have hplace : ∀ past rest, [Item.frame f] = past ++ rest → (streamBits past).length ≠ n := by
    rintro (_ | ⟨item, past⟩) rest hsplit hn
    · have hnil : (streamBits []).length = 0 := rfl
      omega
    · obtain ⟨rfl, hrest⟩ := List.cons.inj hsplit
      obtain ⟨rfl, -⟩ := List.append_eq_nil_iff.mp hrest.symm
      omega
  have hfirst : ∀ past f' rest, [Item.frame f] = past ++ .frame f' :: rest → past = [] ∧ f' = f := by
    rintro (_ | ⟨item, past⟩) f' rest hsplit
    · exact ⟨rfl, (Item.frame.inj (List.cons.inj hsplit).1).symm⟩
    · exact absurd (List.cons.inj hsplit).2 (by simp)
  cases h with
  | searching past rest split => exact absurd rfl (hplace past rest split)
  | waiting past rest f' handed split => exact absurd rfl (hplace past rest split)
  | announced past rest f' p split h early =>
    obtain ⟨rfl, -⟩ := hfirst past f' rest split
    have hnil : (streamBits []).length = 0 := rfl
    omega
  | overtaken past rest f' f'' p handed split last =>
    obtain ⟨rfl, -⟩ := hfirst past f'' rest split
    exact absurd last (by simp [frames])
  | arriving past rest f' k split h unfinished notReady found =>
    obtain ⟨rfl, rfl⟩ := hfirst past f' rest split
    have hk : (streamBits []).length + (48 + k) - 48 = k := by
      rw [show (streamBits []).length = 0 from rfl]
      omega
    rw [hk]
    exact ⟨h, notReady, found⟩

theorem step_time {F D : Type} (ar : Arithmetic F D) (lz4 : Lz4) {now : ℤ} (hpos : 0 ≤ now)
    (hlt : now < 2 ^ 32) {st : Station F} {event : Event F} (hclock : ClockAt now event)
    (h : (st.echo.rx.lastRxTime : ℤ) ≤ now) :
    ((step ar lz4 st event).echo.rx.lastRxTime : ℤ) ≤ now := by
  cases stillStep ar lz4 st hclock with
  | silent _ hsame => rwa [hsame.rx]
  | symbol bit0 bit1 _ hsame =>
    rw [hsame.rx]
    exact processRxBit_time bit1 hpos hlt (processRxBit_time bit0 hpos hlt h)
  | main memory _ heq => rwa [heq, mainBlock_time]

/-- The last bit was not heard later than the clock shows. -/
theorem run_time {F D : Type} (ar : Arithmetic F D) (lz4 : Lz4) {now : ℤ} (hpos : 0 ≤ now)
    (hlt : now < 2 ^ 32) {st : Station F} {events : List (Event F)}
    (hclock : ∀ event ∈ events, ClockAt now event) (h : (st.echo.rx.lastRxTime : ℤ) ≤ now) :
    ((run (step ar lz4) st events).echo.rx.lastRxTime : ℤ) ≤ now :=
  (run_induction (I := fun st : Station F => (st.echo.rx.lastRxTime : ℤ) ≤ now) h
    fun _ event hmem => step_time ar lz4 hpos hlt (hclock event (mem_of_mem_trace hmem))).1

/-- The symbols of the first hundred bits of a frame. -/
def interrupted : List UInt8 := symbolsOf ((streamBits [.frame (rawFrame dummyIp)]).take 100)

/-- A station that has heard them at time 0. -/
noncomputable def interruptedStation : Station ℝ :=
  run (step realArithmetic noLz4) freshStation (hearing 0 (tones interrupted))

theorem dummy_valid : ValidFrame (rawFrame dummyIp) := (@Noise.Built.warmUp noLz4).validFrame

theorem dummy_air : (streamBits [.frame (rawFrame dummyIp)]).length = 288 := by
  rw [streamBits_cons, itemBits, List.length_append, airBits_length]
  rfl

theorem interrupted_bits :
    interrupted.flatMap symbolBits = (streamBits [.frame (rawFrame dummyIp)]).take 100 :=
  symbolsOf_bits _ (by rw [List.length_take, dummy_air]; rfl)

theorem interruptedStation_stranded :
    Stranded 100 interruptedStation.echo ((frameBits (rawFrame dummyIp)).take 52) := by
  have hpaired : Paired [.frame (rawFrame dummyIp)] := added_paired noLz4 (freshStation, .warmUp)
  have hvalid : ∀ f ∈ frames [.frame (rawFrame dummyIp)], ValidFrame f := by
    simp [frames, itemFrame, dummy_valid]
  have hbits : heardBits realArithmetic (trace (step realArithmetic noLz4) freshStation
      (hearing 0 (tones interrupted))) = (streamBits [.frame (rawFrame dummyIp)]).take 100 :=
    (heardBits_tones noLz4 (heardSamples_hearing _ _ _ _ _)).trans interrupted_bits
  have hclock := run_onTime realArithmetic noLz4 le_rfl (by decide)
    (hearing_clock 0 (tones interrupted)) (fresh_zero freshStation.echo)
  obtain ⟨hquiet, -⟩ := hearing_ready realArithmetic noLz4 freshStation rfl 0 (tones interrupted)
  obtain ⟨arrivals, hlisten⟩ := run_listening realArithmetic noLz4 (fun _ => 0) (fun _ => 0) false
    hpaired hvalid (hbits ▸ List.take_prefix _ _) hclock
    fun past h hpast hdecided _ => hquiet h (hpast.subset (by simp)) hdecided
  have hphase : Phase [.frame (rawFrame dummyIp)] interruptedStation.echo 100
      (arrivals.map Prod.fst) := by
    have hphase := hlisten.phase
    rw [← freshStation, hbits, List.length_take, dummy_air] at hphase
    exact hphase
  obtain ⟨hreceiving, hfree, hsynced⟩ := phase_open hphase (by decide) (by rw [airBits_length]; decide)
  have hstart : freshStation.echo.rx.lastRxTime = 0 := rfl
  have htime := run_time realArithmetic noLz4 le_rfl (by decide) (hearing_clock 0 (tones interrupted))
    (by rw [hstart, Nat.cast_zero] : (freshStation.echo.rx.lastRxTime : ℤ) ≤ 0)
  refine ⟨hreceiving.ring, hfree, by rw [hsynced]; exact quiet_synced, fun hdata => ⟨hdata, ?_⟩⟩
  rw [← interruptedStation] at htime
  omega

/-- That station hears a pause a hundred seconds later, and then some symbols. -/
structure Interruption (n : ℕ) (xs : List UInt8) (quiet rest : List ℝ) (joined : Station ℝ) :
    Prop where
  samples : tones (interrupted ++ List.replicate n idleSymbol ++ xs) =
    tones interrupted ++ quiet ++ rest
  joined_eq : joined = run (step realArithmetic noLz4) interruptedStation (hearing 100 quiet)
  idle : ∀ bit ∈ heardBits realArithmetic
    (trace (step realArithmetic noLz4) interruptedStation (hearing 100 quiet)), bit = true
  count : (heardBits realArithmetic
    (trace (step realArithmetic noLz4) interruptedStation (hearing 100 quiet))).length = 2 * n
  stranded : Stranded 100 joined.echo ((frameBits (rawFrame dummyIp)).take 52)
  bits : heardBits realArithmetic (trace (step realArithmetic noLz4) joined (hearing 100 rest)) =
    xs.flatMap symbolBits

theorem interruption (n : ℕ) (xs : List UInt8) : ∃ quiet rest joined,
    Interruption n xs quiet rest joined := by
  obtain ⟨quiet, hquiet⟩ := tones_append interrupted (List.replicate n idleSymbol)
  obtain ⟨rest, hrest⟩ := tones_append (interrupted ++ List.replicate n idleSymbol) xs
  have hpast := heardSamples_hearing realArithmetic noLz4 freshStation 0 (tones interrupted)
  have hboth : heardSamples (trace (step realArithmetic noLz4) freshStation
      (hearing 0 (tones interrupted) ++ hearing 100 quiet)) =
        tones (interrupted ++ List.replicate n idleSymbol) := by
    rw [hquiet, trace_append, heardSamples_append, hpast, heardSamples_hearing]
  have hpause := heardBits_rest noLz4 hquiet hpast 100
  obtain ⟨hidle, hcount⟩ := pause_bits n
  rw [← hpause] at hidle hcount
  refine ⟨quiet, rest, _, ?_, rfl, hidle, hcount,
    run_stranded realArithmetic noLz4 interruptedStation_stranded (hearing_clock 100 quiet) hidle, ?_⟩
  · rw [hrest, hquiet]
  · have hbits := heardBits_rest noLz4 hrest hboth 100
    rwa [run_append] at hbits

section Interruption
variable {n : ℕ} {xs : List UInt8} {quiet rest : List ℝ} {joined : Station ℝ}

theorem Interruption.long (h : Interruption n xs quiet rest joined) (hn : 8240 ≤ n) :
    16480 ≤ (heardBits realArithmetic
      (trace (step realArithmetic noLz4) interruptedStation (hearing 100 quiet))).length := by
  rw [h.count]
  omega

theorem Interruption.leftover (h : Interruption n xs quiet rest joined) :
    ¬ Holds joined.echo.rxRb [] := by
  intro hempty
  have hcount := h.stranded.ring.length.trans hempty.length.symm
  rw [List.length_take, frameBits_length] at hcount
  exact absurd hcount (by decide)

theorem Interruption.onTime (h : Interruption n xs quiet rest joined) (hn : 8240 ≤ n) :
    ∀ m ∈ trace (step realArithmetic noLz4) joined (hearing 100 rest), OnTime realArithmetic m := by
  have hsettled := idle_settles realArithmetic noLz4 (fun _ => 0) (fun _ => 0) false
    (hearing 0 (tones interrupted)) (hearing 100 quiet) h.idle (h.long hn)
  rw [run_append, ← freshStation, ← interruptedStation, ← h.joined_eq] at hsettled
  exact run_onTime realArithmetic noLz4 (by decide) (by decide) (hearing_clock 100 rest)
    fun hexp => absurd (hsettled.state.symm.trans hexp.1) (by decide)

end Interruption

section Run
variable {F D : Type} (ar : Arithmetic F D) (lz4 : Lz4)

/-- One event of a station that hears a stream. -/
theorem step_joined {items : List Item} (hpaired : Paired items)
    (hvalid : ∀ f ∈ frames items, ValidFrame f) {start : Echo} {st : Station F}
    {past : List (Station F × Event F)} {event : Event F}
    (h : Joined lz4 items start st.echo (heardBits ar past).length)
    (hbits : heardBits ar (past ++ [(st, event)]) <+: streamBits items)
    (hclock : OnTime ar (st, event))
    (htimely : decided ar (st, event) ≠ [] → AtSync items (heardBits ar past).length →
      st.echo.rx.packetReady = false) :
    Joined lz4 items start (step ar lz4 st event).echo
      (heardBits ar (past ++ [(st, event)])).length := by
  rw [heardBits_concat] at hbits ⊢
  cases receiverStep ar lz4 st event with
  | silent hnone hsame =>
    rw [hnone, List.append_nil]
    exact h.of_sameReceiver hsame
  | main memory hnone heq =>
    rw [hnone, List.append_nil, heq]
    exact h.main hvalid memory
  | symbol now now' bit0 bit1 htwo hticks hsame =>
    rw [htwo] at hbits htimely ⊢
    obtain ⟨rest, hrest⟩ := hbits
    rw [List.length_append]
    refine (h.symbol hpaired hvalid (heardBits_even ar past) ?_ (hticks hclock)
      (htimely (List.cons_ne_nil _ _))).of_sameReceiver hsame
    rw [← hrest, List.append_assoc]
    constructor
    · rw [List.getElem?_append_right le_rfl, Nat.sub_self]
      rfl
    · rw [List.getElem?_append_right (Nat.le_add_right _ 1), Nat.add_sub_cancel_left]
      rfl

theorem run_joined {items : List Item} (hpaired : Paired items)
    (hvalid : ∀ f ∈ frames items, ValidFrame f) {st : Station F} (hsettled : Settled st.echo)
    (hfree : st.echo.rx.packetReady = false) {events : List (Event F)}
    (hbits : heardBits ar (trace (step ar lz4) st events) <+: streamBits items)
    (hclock : ∀ h ∈ trace (step ar lz4) st events, OnTime ar h)
    (htimely : Timely ar items (trace (step ar lz4) st events)) :
    Joined lz4 items st.echo (run (step ar lz4) st events).echo
      (heardBits ar (trace (step ar lz4) st events)).length := by
  refine trace_induction (I := fun s hist => Joined lz4 items st.echo s.echo
    (heardBits ar hist).length) (joined_of_settled hsettled hfree lz4 items) ?_
  intro s past event hpast h
  have hbegins : heardBits ar (past ++ [(s, event)]) <+:
      heardBits ar (trace (step ar lz4) st events) := by
    obtain ⟨rest, hrest⟩ := hpast
    rw [← hrest]
    exact ⟨heardBits ar rest, (heardBits_append ar _ _).symm⟩
  have hmem : (s, event) ∈ trace (step ar lz4) st events := hpast.subset (by simp)
  exact step_joined ar lz4 hpaired hvalid h (hbegins.trans hbits) (hclock _ hmem)
    (htimely past _ hpast)

/-- Whatever a station has been through, five and a half seconds of idle bits are enough: of the
stream that comes next every frame is handed over once and in order, but for the last one, which may
still be waiting, and for the first one, which is lost at most if a frame had been abandoned with
bits of it in the ring. -/
theorem resynchronizes (txJunk rxJunk : ℕ → UInt8) (isFec : Bool) {past idle events : List (Event F)}
    {items : List Item} (hpaired : Paired items) (hvalid : ∀ f ∈ frames items, ValidFrame f)
    (hidle : ∀ bit ∈ heardBits ar (trace (step ar lz4)
      (run (step ar lz4) (stationInit ar txJunk rxJunk isFec) past) idle), bit = true)
    (hlong : 16480 ≤ (heardBits ar (trace (step ar lz4)
      (run (step ar lz4) (stationInit ar txJunk rxJunk isFec) past) idle)).length)
    (hfree : (run (step ar lz4) (stationInit ar txJunk rxJunk isFec)
      (past ++ idle)).echo.rx.packetReady = false)
    (hbits : heardBits ar (trace (step ar lz4) (run (step ar lz4)
      (stationInit ar txJunk rxJunk isFec) (past ++ idle)) events) <+: streamBits items)
    (hclock : ∀ h ∈ trace (step ar lz4) (run (step ar lz4)
      (stationInit ar txJunk rxJunk isFec) (past ++ idle)) events, OnTime ar h)
    (htimely : Timely ar items (trace (step ar lz4) (run (step ar lz4)
      (stationInit ar txJunk rxJunk isFec) (past ++ idle)) events)) :
    let st := run (step ar lz4) (stationInit ar txJunk rxJunk isFec) (past ++ idle)
    let e := (run (step ar lz4) st events).echo
    ∃ r first arrivals waiting,
      framesWithin items (heardBits ar (trace (step ar lz4) st events)).length =
        first ++ arrivals.map Prod.fst ++ waiting ∧
      first.length ≤ 1 ∧ (Holds st.echo.rxRb [] → first = []) ∧
      waiting.length = e.rx.packetReady.toNat ∧
      Holds r.rxRb [] ∧ (first = [] → r.rohcRx = st.echo.rohcRx) ∧
      (∃ out, r.tunOut = st.echo.tunOut ++ out ∧ out.length ≤ first.length) ∧
      e.rohcRx = (received lz4 r arrivals).rohcRx ∧ e.tunOut = (received lz4 r arrivals).tunOut := by
  intro st e
  have hsettled := idle_settles ar lz4 txJunk rxJunk isFec past idle hidle hlong
  exact (run_joined ar lz4 hpaired hvalid hsettled hfree hbits hclock htimely).accounts

end Run

/-- A frame breaks off; after the pause its bits are still in the ring, and the second one of two
dummy packets is written. -/
theorem resynchronizes_interrupted : ∃ quiet rest,
    tones (interrupted ++ List.replicate 8240 idleSymbol ++
      symbolsOf (streamBits [.frame (rawFrame dummyIp), .frame (rawFrame dummyIp)])) =
        tones interrupted ++ quiet ++ rest ∧
    let joined := run (step realArithmetic noLz4) freshStation
      (hearing 0 (tones interrupted) ++ hearing 100 quiet)
    ¬ Holds joined.echo.rxRb [] ∧
      ∃ out, (run (step realArithmetic noLz4) joined (hearing 100 rest)).echo.tunOut =
        out ++ [dummyIp] := by
  generalize hn : 8240 = n
  have hone := added_paired noLz4 (freshStation, .warmUp)
  have hpaired : Paired [.frame (rawFrame dummyIp), .frame (rawFrame dummyIp)] := hone.append hone
  have hvalid : ∀ f ∈ frames [.frame (rawFrame dummyIp), .frame (rawFrame dummyIp)],
      ValidFrame f := by
    simp [frames, itemFrame, dummy_valid]
  obtain ⟨quiet, rest, joined, h⟩ := interruption n
    (symbolsOf (streamBits [.frame (rawFrame dummyIp), .frame (rawFrame dummyIp)]))
  refine ⟨quiet, rest, h.samples, ?_⟩
  rw [run_append, ← interruptedStation, ← h.joined_eq]
  refine ⟨h.leftover, ?_⟩
  have hall := h.bits.trans (symbolsOf_bits _ hpaired.whole)
  obtain ⟨hquiet, hlast⟩ := hearing_ready realArithmetic noLz4 joined h.stranded.free 100 rest
  have hjoins := @resynchronizes ℝ ℝ realArithmetic noLz4 (fun _ => 0) (fun _ => 0) false
    (hearing 0 (tones interrupted)) (hearing 100 quiet) (hearing 100 rest) _ hpaired hvalid
  have hfresh : stationInit realArithmetic (fun _ => 0) (fun _ => 0) false = freshStation := rfl
  rw [hfresh, run_append, ← interruptedStation, ← h.joined_eq, hall] at hjoins
  obtain ⟨r, first, arrivals, waiting, hwithin, hfew, -, hwaiting, hring, -, -, -, htun⟩ :=
    hjoins h.idle (h.long hn.le) h.stranded.free List.prefix_rfl (h.onTime hn.le)
      fun past m hpast hdecided _ => hquiet m (hpast.subset (by simp)) hdecided
  have hnone : waiting = [] := List.eq_nil_of_length_eq_zero <| hwaiting.trans <|
    congrArg Bool.toNat hlast
  have hwhole := framesWithin_append [.frame (rawFrame dummyIp), .frame (rawFrame dummyIp)] [] 0
  rw [List.append_nil, Nat.add_zero, framesWithin_zero, List.append_nil] at hwhole
  rw [hall, hwhole, hnone, List.append_nil] at hwithin
  have hpair : first ++ arrivals.map Prod.fst = [rawFrame dummyIp, rawFrame dummyIp] := hwithin.symm
  have hdummies : ∀ a ∈ arrivals, a.1 = rawFrame dummyIp := fun a ha => by
    have hmem : a.1 ∈ first ++ arrivals.map Prod.fst :=
      List.mem_append_right _ (List.mem_map_of_mem ha)
    simpa [hpair] using hmem
  have hlen := congrArg List.length hpair
  rw [List.length_append, List.length_map] at hlen
  obtain ⟨k, hk⟩ : ∃ k, (arrivals.map Prod.snd).length = k + 1 :=
    ⟨(arrivals.map Prod.snd).length - 1, by simp at hlen ⊢; omega⟩
  obtain ⟨-, hwritten⟩ := warmedReceiver_spec noLz4 (arrivals.map Prod.snd) hring
  rw [received_dummies noLz4 r hdummies, hwritten, hk, List.replicate_succ',
    ← List.append_assoc] at htun
  exact ⟨_, htun⟩

end EchoProtocol.Resynchronization
