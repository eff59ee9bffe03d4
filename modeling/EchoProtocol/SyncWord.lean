import EchoProtocol.Runs

/-!
# The sync word detector

`check_sync_word` looks for the sync word in the last 32 bits, exactly in the accumulator of
the receiver and with up to two wrong bits in a correlator of its own.
-/
namespace EchoProtocol.SyncWord

def SYNC_WORD : UInt32 := 0x930B51DE
def PREAMBLE : UInt16 := 0xAAAA
def SYNC_THRESHOLD : ℕ := 30

/-- The static variables `corr_reg` and `corr_bits`. -/
structure Correlator where
  corrReg : UInt32
  corrBits : ℕ
  deriving DecidableEq

def syncCorrelatorReset : Correlator := ⟨0, 0⟩

def popcount (x : UInt32) : ℕ := x.toBitVec.cpop.toNat

/-- `(word << 1) | bit`. -/
def pushBit (word : UInt32) (bit : Bool) : UInt32 := (word <<< 1) ||| (if bit then 1 else 0)

/-- The detector's memory: the receiver's accumulator and the correlator. -/
structure Detector where
  checkWord : UInt32
  correlator : Correlator
  deriving DecidableEq

/-- Whether the bit completes a sync word (the return value 0), and the memory afterwards. -/
def checkSyncWord (d : Detector) (bit : Bool) : Bool × Detector :=
  let checkWord := pushBit d.checkWord bit
  if checkWord = SYNC_WORD then (true, ⟨checkWord, syncCorrelatorReset⟩)
  else
    let corrReg := pushBit d.correlator.corrReg bit
    let corrBits := if d.correlator.corrBits < 32 then d.correlator.corrBits + 1 else 32
    if corrBits = 32 then
      let pop := popcount corrReg
      if pop < 10 ∨ pop > 22 then (false, ⟨checkWord, ⟨corrReg, corrBits⟩⟩)
      else
        let matching := 32 - popcount (corrReg ^^^ SYNC_WORD)
        if matching ≥ SYNC_THRESHOLD then (true, ⟨checkWord, syncCorrelatorReset⟩)
        else (false, ⟨checkWord, ⟨corrReg, corrBits⟩⟩)
    else (false, ⟨checkWord, ⟨corrReg, corrBits⟩⟩)

/-- The bits that `push_preamble` writes. -/
def preambleBits : List Bool := (List.range 16).map fun i => PREAMBLE.toNat.testBit (15 - i)

/-- The bits that `push_sync_word` writes. -/
def syncBits : List Bool := (List.range 32).map fun i => SYNC_WORD.toNat.testBit (31 - i)

def announcement : List Bool := preambleBits ++ syncBits

/-- Feeds bit after bit, ignoring what the detector reports. -/
def feed (d : Detector) (bits : List Bool) : Detector :=
  bits.foldl (fun d bit => (checkSyncWord d bit).2) d

/-- What the detector reports on each bit. -/
def reports : Detector → List Bool → List Bool
  | _, [] => []
  | d, bit :: bits => (checkSyncWord d bit).1 :: reports (checkSyncWord d bit).2 bits

theorem reports_getElem? (d : Detector) (bits : List Bool) (i : ℕ) :
    (reports d bits)[i]? = bits[i]?.map fun bit => (checkSyncWord (feed d (bits.take i)) bit).1 := by
  induction bits generalizing d i with
  | nil => rfl
  | cons bit bits ih =>
    cases i with
    | zero => rfl
    | succ i => exact ih (checkSyncWord d bit).2 i

theorem feed_concat (d : Detector) (bits : List Bool) (bit : Bool) :
    feed d (bits ++ [bit]) = (checkSyncWord (feed d bits) bit).2 := by
  simp [feed]

def blank : Detector := ⟨0, syncCorrelatorReset⟩

/-- The detector after an exact sync word. -/
def synced : Detector := ⟨SYNC_WORD, syncCorrelatorReset⟩

/-- From anywhere in the preamble on, a blank detector reports the last bit of the sync word and
no bit before it. -/
theorem reports_announcement {k : ℕ} (hk : k ≤ 16) :
    reports blank (announcement.drop k) = List.replicate (47 - k) false ++ [true] := by
  have hall : ∀ k < 17,
      reports blank (announcement.drop k) = List.replicate (47 - k) false ++ [true] := by
    decide +kernel
  exact hall k (by omega)

theorem feed_announcement {k : ℕ} (hk : k ≤ 16) : feed blank (announcement.drop k) = synced := by
  have hall : ∀ k < 17, feed blank (announcement.drop k) = synced := by decide +kernel
  exact hall k (by omega)

theorem reports_preamble : reports synced preambleBits = List.replicate 16 false := by
  decide +kernel

theorem feed_take_succ (d : Detector) {bits : List Bool} {i : ℕ} {bit : Bool}
    (h : bits[i]? = some bit) :
    feed d (bits.take (i + 1)) = (checkSyncWord (feed d (bits.take i)) bit).2 := by
  rw [List.take_add_one, h, ← feed_concat]
  rfl

theorem announcement_step {k p : ℕ} {bit : Bool} (hk : k ≤ 16) (hkp : k ≤ p)
    (hbit : announcement[p]? = some bit) :
    (checkSyncWord (feed blank ((announcement.drop k).take (p - k))) bit).1 = decide (p = 47) ∧
      (checkSyncWord (feed blank ((announcement.drop k).take (p - k))) bit).2 =
        feed blank ((announcement.drop k).take (p + 1 - k)) := by
  obtain ⟨hp, -⟩ := List.getElem?_eq_some_iff.mp hbit
  have hp48 : p < 48 := hp
  have hdrop : (announcement.drop k)[p - k]? = some bit := by
    rw [List.getElem?_drop, show k + (p - k) = p by omega, hbit]
  refine ⟨?_, ?_⟩
  · have hreport := reports_getElem? blank (announcement.drop k) (p - k)
    rw [hdrop, reports_announcement hk, Option.map_some] at hreport
    by_cases hlast : p = 47
    · rw [List.getElem?_append_right (by rw [List.length_replicate]; omega), List.length_replicate,
        show p - k - (47 - k) = 0 by omega] at hreport
      rw [decide_eq_true hlast]
      exact (Option.some.inj hreport).symm
    · rw [List.getElem?_append_left (by rw [List.length_replicate]; omega),
        List.getElem?_replicate_of_lt (by omega)] at hreport
      rw [decide_eq_false hlast]
      exact (Option.some.inj hreport).symm
  · rw [show p + 1 - k = p - k + 1 by omega, feed_take_succ blank hdrop]

theorem preamble_step {p : ℕ} {bit : Bool} (hp : p < 16) (hbit : announcement[p]? = some bit) :
    (checkSyncWord (feed synced (preambleBits.take p)) bit).1 = false ∧
      (checkSyncWord (feed synced (preambleBits.take p)) bit).2 =
        feed synced (preambleBits.take (p + 1)) := by
  have hpre : preambleBits[p]? = some bit := by
    have hlt : p < preambleBits.length := hp
    rwa [announcement, List.getElem?_append_left hlt] at hbit
  refine ⟨?_, (feed_take_succ synced hpre).symm⟩
  have hreport := reports_getElem? synced preambleBits p
  rw [hpre, reports_preamble, List.getElem?_replicate_of_lt hp, Option.map_some] at hreport
  exact (Option.some.inj hreport).symm

end EchoProtocol.SyncWord
