import EchoProtocol.Reception

/-!
# Windows of samples

The receiver cuts its input into windows of 32 samples and decides on each of them anew, however
the samples come in buffers and whatever the main program does in between.
-/
namespace EchoProtocol.Windows
open Goertzel hiding step
open SyncWord Endpoint Transmit SymbolFetch RingBits Modem Demodulation Callback Playback Reception
  Runs

variable {F D : Type}

/-- The filters after the samples of a window, with the powers at the last of them. -/
def filtered (ar : Arithmetic F D) (samples : List F) : (Fin 4 → F) × (Fin 4 → StateGoertzel F) :=
  samples.foldl (fun s x => measure ar s.2 x)
    (fun _ => ar.lit 0, fun i => preCalcGoertzel ar (freqs i))

def decision (ar : Arithmetic F D) (samples : List F) : Fin 4 := strongest ar (filtered ar samples).1

def window (k : ℕ) (samples : List F) : List F :=
  (samples.drop (SAMPLES_PER_SYMBOL * k)).take SAMPLES_PER_SYMBOL

/-- The sample that an event brings. -/
def heardSample (h : Station F × Event F) : Option F :=
  match h.2 with
  | .sample tick => tick.input
  | _ => none

def heardSamples (hist : List (Station F × Event F)) : List F := hist.filterMap heardSample

theorem heardSamples_append (past later : List (Station F × Event F)) :
    heardSamples (past ++ later) = heardSamples past ++ heardSamples later := List.filterMap_append

def bitsOf (i : Fin 4) : List Bool := [(decidedBits i).1, (decidedBits i).2]

theorem samplesPerSymbol_eq : SAMPLES_PER_SYMBOL = 32 := rfl

theorem bitsOf_tableIndex (x : UInt8) : bitsOf (tableIndex x) = symbolBits x := by
  have hindex : ((tableIndex x : Fin 4) : ℕ) = x.toNat % 2 ^ 2 := by
    rw [tableIndex, Fin.val_ofNat, UInt8.toNat_and]
    exact (congrArg (· % 4) (Nat.and_two_pow_sub_one_eq_mod _ 2)).trans (Nat.mod_mod _ _)
  simp only [bitsOf, decidedBits, symbolBits, bitAt, hindex, Nat.testBit_mod_two_pow]
  rfl

theorem window_append {k : ℕ} {xs ys : List F} (h : SAMPLES_PER_SYMBOL * (k + 1) ≤ xs.length) :
    window k (xs ++ ys) = window k xs := by
  rw [samplesPerSymbol_eq] at h
  rw [window, window, samplesPerSymbol_eq, List.drop_append_of_le_length (by omega),
    List.take_append_of_le_length (by rw [List.length_drop]; omega)]

theorem window_length {k : ℕ} {xs : List F} (h : SAMPLES_PER_SYMBOL * (k + 1) ≤ xs.length) :
    (window k xs).length = SAMPLES_PER_SYMBOL := by
  rw [samplesPerSymbol_eq] at h
  rw [window, samplesPerSymbol_eq, List.length_take, List.length_drop]
  omega

theorem filtered_concat (ar : Arithmetic F D) (xs : List F) (x : F) :
    filtered ar (xs ++ [x]) = measure ar (filtered ar xs).2 x := List.foldl_concat _ _ _ _

theorem resetState_filtered (ar : Arithmetic F D) (xs : List F) (i : Fin 4) :
    resetState ar ((filtered ar xs).2 i) = preCalcGoertzel ar (freqs i) := by
  induction xs using List.reverseRecOn with
  | nil => rfl
  | append_singleton xs x ih =>
    rw [filtered_concat, ← ih]
    rfl

/-- What the callback has made of the samples so far. -/
structure Cut (ar : Arithmetic F D) (st : Station F) (hist : List (Station F × Event F)) : Prop where
  count : st.rxSampleCount = (heardSamples hist).length % SAMPLES_PER_SYMBOL
  filters : st.freqStates = (filtered ar ((heardSamples hist).drop
    (SAMPLES_PER_SYMBOL * ((heardSamples hist).length / SAMPLES_PER_SYMBOL)))).2
  bits : heardBits ar hist =
    (List.range ((heardSamples hist).length / SAMPLES_PER_SYMBOL)).flatMap fun k =>
      bitsOf (decision ar (window k (heardSamples hist)))

theorem heardSamples_concat (hist : List (Station F × Event F)) (h : Station F × Event F) :
    heardSamples (hist ++ [h]) = heardSamples hist ++ (heardSample h).toList :=
  filterMap_concat _ _ _

theorem Cut.silent {ar : Arithmetic F D} {st st' : Station F} {hist : List (Station F × Event F)}
    {event : Event F} (h : Cut ar st hist) (hsample : heardSample (st, event) = none)
    (hdecided : decided ar (st, event) = []) (hcount : st'.rxSampleCount = st.rxSampleCount)
    (hfilters : st'.freqStates = st.freqStates) : Cut ar st' (hist ++ [(st, event)]) := by
  have hsame : heardSamples (hist ++ [(st, event)]) = heardSamples hist := by
    rw [heardSamples_concat, hsample, Option.toList_none, List.append_nil]
  refine ⟨?_, ?_, ?_⟩
  · rw [hsame, hcount]
    exact h.count
  · rw [hsame, hfilters]
    exact h.filters
  · rw [hsame, heardBits_concat, hdecided, List.append_nil]
    exact h.bits

theorem earlier_windows (ar : Arithmetic F D) (xs : List F) (x : F) :
    (List.range (xs.length / SAMPLES_PER_SYMBOL)).flatMap
        (fun k => bitsOf (decision ar (window k (xs ++ [x])))) =
      (List.range (xs.length / SAMPLES_PER_SYMBOL)).flatMap
        fun k => bitsOf (decision ar (window k xs)) := by
  refine List.flatMap_congr fun k hk => ?_
  rw [List.mem_range] at hk
  rw [window_append]
  rw [samplesPerSymbol_eq] at hk ⊢
  omega

theorem Cut.sample {ar : Arithmetic F D} {st : Station F} {hist : List (Station F × Event F)}
    (h : Cut ar st hist) (x : F) (now now' : ℤ) :
    Cut ar (audioToRb ar st x now now') (hist ++ [(st, .sample ⟨some x, now, now'⟩)]) := by
  obtain ⟨hcount, hfilters, hbits⟩ := h
  have hheard : heardSamples (hist ++ [(st, .sample ⟨some x, now, now'⟩)]) =
      heardSamples hist ++ [x] := heardSamples_concat _ _
  have hall := heardBits_concat ar hist (st, .sample ⟨some x, now, now'⟩)
  generalize heardSamples hist = xs at hcount hfilters hbits hheard
  generalize htick : (st, Event.sample ⟨some x, now, now'⟩) = h at hheard hall ⊢
  generalize hq : xs.length / SAMPLES_PER_SYMBOL = q at hfilters hbits
  have hlen : xs.length = SAMPLES_PER_SYMBOL * q + st.rxSampleCount := by
    rw [hcount, ← hq]
    exact (Nat.div_add_mod _ _).symm
  have hsmall : st.rxSampleCount < SAMPLES_PER_SYMBOL := hcount ▸ Nat.mod_lt _ (by decide)
  have hdrop : (xs ++ [x]).drop (SAMPLES_PER_SYMBOL * q) = xs.drop (SAMPLES_PER_SYMBOL * q) ++ [x] :=
    List.drop_append_of_le_length (by omega)
  have hmeasure : measure ar st.freqStates x =
      filtered ar (xs.drop (SAMPLES_PER_SYMBOL * q) ++ [x]) := by
    rw [filtered_concat, hfilters]
  have hlen' : (xs ++ [x]).length = SAMPLES_PER_SYMBOL * q + (st.rxSampleCount + 1) := by
    rw [List.length_append, hlen]
    rfl
  have hearlier := earlier_windows ar xs x
  rw [hq] at hearlier
  by_cases hwithin : (st.rxSampleCount + 1) % 2 ^ 16 < SAMPLES_PER_SYMBOL
  · have hnone : decided ar h = [] := by
      rw [← htick]
      exact if_pos hwithin
    rw [samplesPerSymbol_eq] at *
    have hdiv : (xs ++ [x]).length / 32 = q := by omega
    rw [audioToRb_within ar st now now' x (by rw [samplesPerSymbol_eq]; exact hwithin)]
    refine ⟨?_, ?_, ?_⟩
    · rw [hheard, hlen', samplesPerSymbol_eq]
      simp only
      omega
    · rw [hheard, samplesPerSymbol_eq, hdiv, hdrop, ← hmeasure]
    · rw [hheard, hall, hnone, List.append_nil, hbits, samplesPerSymbol_eq, hdiv, hearlier]
  · have htwo : decided ar h = bitsOf (strongest ar (measure ar st.freqStates x).1) := by
      rw [← htick]
      exact if_neg hwithin
    rw [samplesPerSymbol_eq] at *
    have hdiv : (xs ++ [x]).length / 32 = q + 1 := by omega
    have hlast : window q (xs ++ [x]) = xs.drop (32 * q) ++ [x] := by
      rw [window, samplesPerSymbol_eq, hdrop, List.take_of_length_le]
      rw [List.length_append, List.length_drop, List.length_singleton]
      omega
    have hnil : (xs ++ [x]).drop (32 * (q + 1)) = [] := List.drop_eq_nil_of_le (by omega)
    rw [audioToRb_full ar st now now' x (by rw [samplesPerSymbol_eq]; exact hwithin)]
    refine ⟨?_, ?_, ?_⟩
    · rw [hheard, hlen', samplesPerSymbol_eq]
      simp only
      omega
    · rw [hheard, samplesPerSymbol_eq, hdiv, hnil]
      funext i
      simp only [hmeasure, resetState_filtered]
      rfl
    · rw [hheard, hall, htwo, hbits, samplesPerSymbol_eq, hdiv, List.range_succ, List.flatMap_append,
        List.flatMap_singleton, hearlier, hlast, hmeasure]
      rfl

theorem Cut.step {ar : Arithmetic F D} (lz4 : Lz4) {st : Station F}
    {hist : List (Station F × Event F)} (h : Cut ar st hist) (event : Event F) :
    Cut ar (step ar lz4 st event) (hist ++ [(st, event)]) := by
  cases event with
  | enter => exact h.silent rfl rfl rfl rfl
  | warmUp => exact h.silent rfl rfl rfl rfl
  | send raw => exact h.silent rfl rfl rfl rfl
  | handle memory => exact h.silent rfl rfl rfl rfl
  | sample tick =>
    have hrest : (iteration ar st tick).2.rxSampleCount = (hear ar st tick).rxSampleCount ∧
        (iteration ar st tick).2.freqStates = (hear ar st tick).freqStates := by
      simp only [iteration, sampleOut, nextSymbol]
      split_ifs <;> exact ⟨rfl, rfl⟩
    rcases tick with ⟨_ | x, now, now'⟩
    · exact h.silent rfl rfl hrest.1 hrest.2
    · obtain ⟨hcount, hfilters, hbits⟩ := h.sample x now now'
      exact ⟨hrest.1.trans hcount, hrest.2.trans hfilters, hbits⟩

theorem run_cut (ar : Arithmetic F D) (lz4 : Lz4) (txJunk rxJunk : ℕ → UInt8) (isFec : Bool)
    (events : List (Event F)) : Cut ar (run (step ar lz4) (stationInit ar txJunk rxJunk isFec) events)
      (trace (step ar lz4) (stationInit ar txJunk rxJunk isFec) events) := by
  have hinit : Cut ar (stationInit ar txJunk rxJunk isFec) [] := by
    refine ⟨rfl, ?_, ?_⟩
    · simp [heardSamples, filtered, stationInit]
    · simp [heardSamples, heardBits]
  have hall : Meets (step ar lz4) (fun _ _ => True) (stationInit ar txJunk rxJunk isFec) events :=
    meets_of_forall fun _ _ _ => trivial
  exact trace_invariant (fun _ _ event h _ => h.step lz4 event) hinit hall

theorem heardBits_length (ar : Arithmetic F D) (lz4 : Lz4) (txJunk rxJunk : ℕ → UInt8) (isFec : Bool)
    (events : List (Event F)) :
    let hist := trace (step ar lz4) (stationInit ar txJunk rxJunk isFec) events
    (heardBits ar hist).length = 2 * ((heardSamples hist).length / SAMPLES_PER_SYMBOL) := by
  intro hist
  rw [(run_cut ar lz4 txJunk rxJunk isFec events).bits, List.length_flatMap]
  simp [bitsOf, Nat.mul_comm, hist]

end EchoProtocol.Windows
