import EchoProtocol.ShiftRegister
import EchoProtocol.SyncWord

/-!
# The sync word detector as a window test

The accumulator always holds the last 32 bits. The correlator holds as many of them as came
since its last reset, so a full correlator is a copy of the accumulator, and the filter on the
number of ones never rejects a word within two errors of the sync word.
-/
namespace EchoProtocol.SyncWord
open ShiftRegister

theorem pushBit_toBitVec (word : UInt32) (bit : Bool) :
    (pushBit word bit).toBitVec = word.toBitVec.shiftConcat bit := by
  refine BitVec.eq_of_getLsbD_eq fun j hj => ?_
  have hone : ∀ j, (if bit then 1 else 0 : UInt32).toBitVec.getLsbD j = (decide (j = 0) && bit) := by
    intro j
    cases bit with
    | false => simp
    | true => cases j <;> simp
  rw [BitVec.getLsbD_shiftConcat, pushBit, UInt32.toBitVec_or, BitVec.getLsbD_or, hone]
  cases j with
  | zero => simp
  | succ j =>
    have hlow : word.toBitVec[j] = word.toBitVec.getLsbD j := (BitVec.getLsbD_eq_getElem _).symm
    simp [hj, hlow]

theorem checkSyncWord_report (d : Detector) (bit : Bool) :
    (checkSyncWord d bit).1 = true ↔ pushBit d.checkWord bit = SYNC_WORD ∨
      31 ≤ d.correlator.corrBits ∧
        10 ≤ popcount (pushBit d.correlator.corrReg bit) ∧
        popcount (pushBit d.correlator.corrReg bit) ≤ 22 ∧
        popcount (pushBit d.correlator.corrReg bit ^^^ SYNC_WORD) ≤ 2 := by
  simp only [checkSyncWord, SYNC_THRESHOLD]
  by_cases hexact : pushBit d.checkWord bit = SYNC_WORD
  · simp [hexact]
  · rw [if_neg hexact, or_iff_right hexact]
    split_ifs <;> simp <;> omega

theorem checkSyncWord_checkWord (d : Detector) (bit : Bool) :
    (checkSyncWord d bit).2.checkWord = pushBit d.checkWord bit := by
  simp only [checkSyncWord]
  split_ifs <;> rfl

theorem checkSyncWord_correlator (d : Detector) (bit : Bool) :
    (checkSyncWord d bit).2.correlator =
      if (checkSyncWord d bit).1 then syncCorrelatorReset
      else ⟨pushBit d.correlator.corrReg bit,
        if d.correlator.corrBits < 32 then d.correlator.corrBits + 1 else 32⟩ := by
  simp only [checkSyncWord]
  split_ifs <;> simp_all

/-- The detector after the bits of a stream. -/
structure Tracks (d : Detector) (bits : List Bool) : Prop where
  checkWord : d.checkWord.toBitVec = window 32 bits
  corrBits_le : d.correlator.corrBits ≤ 32
  corrBits_le_length : d.correlator.corrBits ≤ bits.length
  corrReg : ∀ j < d.correlator.corrBits,
    d.correlator.corrReg.toBitVec.getLsbD j = (window 32 bits).getLsbD j

theorem blank_tracks : Tracks blank [] := by
  refine ⟨rfl, Nat.zero_le _, Nat.zero_le _, fun j hj => absurd hj (Nat.not_lt_zero j)⟩

theorem checkSyncWord_tracks {d : Detector} {bits : List Bool} (h : Tracks d bits) (bit : Bool) :
    Tracks (checkSyncWord d bit).2 (bits ++ [bit]) := by
  have hword : (checkSyncWord d bit).2.checkWord.toBitVec = window 32 (bits ++ [bit]) := by
    rw [checkSyncWord_checkWord, pushBit_toBitVec, h.checkWord, window_concat]
  have hcorr := checkSyncWord_correlator d bit
  split_ifs at hcorr with hreport hfill
  · refine ⟨hword, ?_, ?_, ?_⟩
    · rw [hcorr]
      exact Nat.zero_le _
    · rw [hcorr]
      exact Nat.zero_le _
    · rw [hcorr]
      exact fun j hj => absurd hj (Nat.not_lt_zero j)
  · have hlen := h.corrBits_le_length
    refine ⟨hword, ?_, ?_, ?_⟩
    · rw [hcorr]
      exact hfill
    · rw [hcorr, List.length_append, List.length_singleton]
      exact Nat.succ_le_succ hlen
    · rw [hcorr, window_concat]
      intro j hj
      rw [pushBit_toBitVec]
      exact shiftConcat_agree h.corrReg bit j hj
  · have hlen := h.corrBits_le_length
    refine ⟨hword, ?_, ?_, ?_⟩
    · rw [hcorr]
    · rw [hcorr, List.length_append]
      exact (not_lt.mp hfill).trans (hlen.trans (Nat.le_add_right _ _))
    · rw [hcorr, window_concat]
      intro j hj
      rw [pushBit_toBitVec]
      exact shiftConcat_agree h.corrReg bit j (Nat.lt_succ_of_lt (hj.trans_le (not_lt.mp hfill)))

theorem feed_tracks (bits : List Bool) : Tracks (feed blank bits) bits := by
  induction bits using List.reverseRecOn with
  | nil => exact blank_tracks
  | append_singleton bits bit ih =>
    rw [feed_concat]
    exact checkSyncWord_tracks ih bit

theorem Tracks.pushBit_corrReg {d : Detector} {bits : List Bool} (h : Tracks d bits)
    (hfull : 31 ≤ d.correlator.corrBits) (bit : Bool) :
    (pushBit d.correlator.corrReg bit).toBitVec = window 32 (bits ++ [bit]) := by
  refine BitVec.eq_of_getLsbD_eq fun j hj => ?_
  rw [pushBit_toBitVec, window_concat]
  exact shiftConcat_agree h.corrReg bit j (by omega)

/-- The number of wrong bits among the last 32 of a stream. -/
def syncErrors (bits : List Bool) : ℕ := differences (bits.rtake 32) syncBits

theorem window_syncBits : window 32 syncBits = SYNC_WORD.toBitVec := by decide +kernel

theorem syncErrors_eq {bits : List Bool} (hlen : 32 ≤ bits.length) :
    (window 32 bits ^^^ SYNC_WORD.toBitVec).cpop.toNat = syncErrors bits := by
  have hlast : (bits.rtake 32).length = 32 := by
    rw [List.rtake, List.length_drop]
    omega
  rw [← window_rtake, ← window_syncBits, cpop_xor_window hlast rfl, syncErrors]

theorem ones_within_filter {x : BitVec 32} (h : (x ^^^ SYNC_WORD.toBitVec).cpop.toNat ≤ 2) :
    10 ≤ x.cpop.toNat ∧ x.cpop.toNat ≤ 22 := by
  have hones : SYNC_WORD.toBitVec.cpop.toNat = 16 := by decide
  have hle := cpop_le_add_xor x SYNC_WORD.toBitVec
  have hge := cpop_le_add_xor SYNC_WORD.toBitVec x
  rw [BitVec.xor_comm] at hge
  omega

theorem length_of_window_eq {bits : List Bool} (h : window 32 bits = SYNC_WORD.toBitVec) :
    32 ≤ bits.length := by
  have htop : (window 32 bits).getLsbD 31 = true := by
    rw [h]
    decide
  rw [window_getLsbD bits (by omega)] at htop
  by_contra hlt
  rw [List.getD_eq_default _ _ (by rw [List.length_reverse]; omega)] at htop
  exact absurd htop (by decide)

/-- What a report depends on: the wrong bits of the window, and how full the correlator is. -/
theorem Tracks.report_iff {d : Detector} {bits : List Bool} (h : Tracks d bits) (bit : Bool) :
    (checkSyncWord d bit).1 = true ↔ 32 ≤ bits.length + 1 ∧ syncErrors (bits ++ [bit]) ≤ 2 ∧
      (syncErrors (bits ++ [bit]) = 0 ∨ 31 ≤ d.correlator.corrBits) := by
  have hword : (pushBit d.checkWord bit).toBitVec = window 32 (bits ++ [bit]) := by
    rw [pushBit_toBitVec, h.checkWord, window_concat]
  have hlen : (bits ++ [bit]).length = bits.length + 1 := List.length_append
  rw [checkSyncWord_report, ← UInt32.toBitVec_inj, hword]
  constructor
  · rintro (hexact | ⟨hfull, -, -, hnear⟩)
    · have h32 := length_of_window_eq hexact
      have herr := syncErrors_eq h32
      rw [hexact, BitVec.xor_self, BitVec.cpop_zero] at herr
      have hzero : syncErrors (bits ++ [bit]) = 0 := herr.symm
      omega
    · have h32 := h.corrBits_le_length
      rw [popcount, UInt32.toBitVec_xor, h.pushBit_corrReg hfull, syncErrors_eq (by omega)] at hnear
      exact ⟨by omega, hnear, Or.inr hfull⟩
  · rintro ⟨h32, hnear, hzero | hfull⟩
    · rw [← syncErrors_eq (by omega)] at hzero
      exact Or.inl (BitVec.xor_eq_zero_iff.mp (eq_zero_of_cpop hzero))
    · rw [← syncErrors_eq (by omega)] at hnear
      obtain ⟨hlow, hhigh⟩ := ones_within_filter hnear
      right
      rw [popcount, popcount, UInt32.toBitVec_xor, h.pushBit_corrReg hfull]
      exact ⟨hfull, hlow, hhigh, hnear⟩

/-- Without a report the correlator fills up bit by bit. -/
theorem corrBits_of_no_report {bits : List Bool} {n : ℕ} (hn : n ≤ 31) (hlen : n ≤ bits.length)
    (hquiet : ∀ j < bits.length, bits.length ≤ j + n → (reports blank bits)[j]? ≠ some true) :
    n ≤ (feed blank bits).correlator.corrBits := by
  induction bits using List.reverseRecOn generalizing n with
  | nil => exact hlen.trans (Nat.zero_le _)
  | append_singleton bits bit ih =>
    cases n with
    | zero => exact Nat.zero_le _
    | succ n =>
      have hblen : (bits ++ [bit]).length = bits.length + 1 := List.length_append
      have hlast := hquiet bits.length (by omega) (by omega)
      rw [reports_getElem?, List.take_left, List.getElem?_concat_length, Option.map_some] at hlast
      have hbefore := ih (n := n) (by omega) (by omega) fun j hj hjn => by
        have hq := hquiet j (by omega) (by omega)
        rw [reports_getElem?, List.take_append_of_le_length hj.le,
          List.getElem?_append_left hj] at hq
        rwa [reports_getElem?]
      have hcorr := checkSyncWord_correlator (feed blank bits) bit
      rw [if_neg fun h => hlast (congrArg some h)] at hcorr
      rw [feed_concat, hcorr]
      change n + 1 ≤ if _ then _ else _
      split_ifs with hfill
      · exact Nat.succ_le_succ hbefore
      · omega

/-- Detection is exactly a window test: bit `i` is reported only when the last 32 bits contain
at most two errors, and it is reported when they do and none of the 31 bits before it was. -/
theorem sync_within_two_errors (bits : List Bool) {i : ℕ} (hi : i < bits.length) :
    ((reports blank bits)[i]? = some true →
      32 ≤ i + 1 ∧ differences ((bits.take (i + 1)).rtake 32) syncBits ≤ 2) ∧
    (32 ≤ i + 1 → differences ((bits.take (i + 1)).rtake 32) syncBits ≤ 2 →
      (∀ j < i, i ≤ j + 31 → (reports blank bits)[j]? ≠ some true) →
      (reports blank bits)[i]? = some true) := by
  have htake : bits.take (i + 1) = bits.take i ++ [bits[i]] := List.take_succ_eq_append_getElem hi
  have hlen : (bits.take i).length = i := List.length_take_of_le hi.le
  have hreport := (feed_tracks (bits.take i)).report_iff bits[i]
  rw [← htake, hlen] at hreport
  have hcall : (reports blank bits)[i]? =
      some (checkSyncWord (feed blank (bits.take i)) bits[i]).1 := by
    rw [reports_getElem?, List.getElem?_eq_getElem hi, Option.map_some]
  rw [hcall, Option.some_inj, hreport]
  refine ⟨fun h => ⟨h.1, h.2.1⟩, fun h32 hnear hquiet => ⟨h32, hnear, Or.inr ?_⟩⟩
  refine corrBits_of_no_report le_rfl (by omega) fun j hj hjn => ?_
  rw [hlen] at hj hjn
  have hq := hquiet j hj hjn
  rw [reports_getElem?, List.getElem?_eq_getElem (hj.trans hi)] at hq
  rwa [reports_getElem?, List.take_take, min_eq_left hj.le, List.getElem?_take_of_lt hj,
    List.getElem?_eq_getElem (hj.trans hi)]

theorem sync_within_two_errors_announcement : (reports blank announcement)[47]? = some true := by
  refine (sync_within_two_errors announcement (i := 47) (by decide)).2 (by decide)
    (by decide +kernel) fun j hj _ => ?_
  have hreports : reports blank announcement = List.replicate 47 false ++ [true] :=
    reports_announcement (k := 0) (by decide)
  rw [hreports, List.getElem?_append_left (by simpa using hj),
    List.getElem?_replicate_of_lt hj]
  decide

end EchoProtocol.SyncWord
