import Bertos.Net.Afsk

/-!
# The bit layer is lossless

The bits of a sequence of items are given by `encode`: those of a flag as they are, those of data with a 0 behind five
ones. The receiver gets the items back from their bits, once it has seen a flag (`hdlcRun_encode`), and the tones of
the transmitter are, read as NRZI, these bits (`modem_bits`): `modem_lossless`.
-/

namespace Bertos

open List Afsk

/-! ## Bits -/

/-- The last `n` bits of a byte, in the order of sending. -/
def bitsFrom (b : UInt8) : ℕ → List Bool
  | 0 => []
  | n + 1 => hasBit b (7 - n) :: bitsFrom b n

/-- A 0 is put behind five ones; `cnt` ones have been sent before. -/
def stuffed : ℕ → List Bool → List Bool
  | _, [] => []
  | cnt, bit :: bits =>
    if 5 ≤ cnt then false :: bit :: stuffed (if bit then 1 else 0) bits
    else bit :: stuffed (if bit then cnt + 1 else 0) bits

def onesAfter : ℕ → List Bool → ℕ
  | cnt, [] => cnt
  | cnt, bit :: bits =>
    if 5 ≤ cnt then onesAfter (if bit then 1 else 0) bits else onesAfter (if bit then cnt + 1 else 0) bits

/-- The bits of a sequence of items, when `cnt` ones have been sent before. -/
def encode : ℕ → List HdlcItem → List Bool
  | _, [] => []
  | _, .flag :: items => bitsFrom hdlcFlag 8 ++ encode 0 items
  | cnt, .data b :: items => stuffed cnt (bitsFrom b 8) ++ encode (onesAfter cnt (bitsFrom b 8)) items

theorem onesAfter_le (bits : List Bool) {cnt : ℕ} (h : cnt ≤ 5) : onesAfter cnt bits ≤ 5 := by
  fun_induction onesAfter cnt bits with
  | case1 => exact h
  | case2 _ _ _ _ ih | case3 _ _ _ _ ih => exact ih (by split <;> omega)

theorem onesAfter_cons (cnt : ℕ) (bit : Bool) (bits : List Bool) :
    onesAfter cnt (bit :: bits) = onesAfter (onesAfter cnt [bit]) bits := by
  by_cases h : 5 ≤ cnt <;> simp [onesAfter, h]

theorem stuffed_cons (cnt : ℕ) (bit : Bool) (bits : List Bool) :
    stuffed cnt (bit :: bits) = stuffed cnt [bit] ++ stuffed (onesAfter cnt [bit]) bits := by
  by_cases h : 5 ≤ cnt <;> simp [onesAfter, stuffed, h]

/-! ## The receiver -/

section Receive

theorem hdlcRun_append (hdlc : Hdlc) (bits bits' : List Bool) : hdlcRun hdlc (bits ++ bits') =
    ((hdlcRun (hdlcRun hdlc bits).1 bits').1, (hdlcRun hdlc bits).2 ++ (hdlcRun (hdlcRun hdlc bits).1 bits').2) := by
  induction bits generalizing hdlc with
  | nil => rfl
  | cons bit bits ih => simp only [cons_append, hdlcRun, ih, append_assoc]

/-- `r` ones. -/
def onesMask : ℕ → UInt8
  | 0 => 0
  | r + 1 => (onesMask r <<< 1) ||| 1

/-- The bits at the end of the window are a 0 and `r` ones. -/
def Window (r : ℕ) (x : UInt8) : Prop := x &&& onesMask (r + 1) = onesMask r

instance (r : ℕ) (x : UInt8) : Decidable (Window r x) := inferInstanceAs (Decidable (_ = _))

def shiftIn (x : UInt8) (bit : Bool) : UInt8 := (x <<< 1) ||| (if bit then 1 else 0)

/-- A bit that is neither the end of a flag or a reset, nor an extra 0. -/
theorem window_bit : ∀ x : UInt8, ∀ r < 5, Window r x → ∀ bit : Bool,
    shiftIn x bit ≠ hdlcFlag ∧ shiftIn x bit &&& hdlcReset ≠ hdlcReset ∧ shiftIn x bit &&& 0x3f ≠ 0x3e ∧
      (shiftIn x bit &&& 0x01 ≠ 0 ↔ bit = true) ∧ Window (if bit then r + 1 else 0) (shiftIn x bit) :=
  forall_uint8 (by decide +kernel)

theorem window_stuffed : ∀ x : UInt8, Window 5 x →
    shiftIn x false ≠ hdlcFlag ∧ shiftIn x false &&& hdlcReset ≠ hdlcReset ∧ shiftIn x false &&& 0x3f = 0x3e ∧
      Window 0 (shiftIn x false) :=
  forall_uint8 (by decide +kernel)

/-- The character that is being put together after `i` bits of `b`. -/
def partialChar (b : UInt8) : ℕ → UInt8
  | 0 => 0
  | i + 1 => (if hasBit b i then partialChar b i ||| 0x80 else partialChar b i) >>> 1

/-- The same with the next bit of `b`, before the shift. -/
def withBit (b : UInt8) (i : ℕ) : UInt8 := if hasBit b i then partialChar b i ||| 0x80 else partialChar b i

theorem partialChar_succ (b : UInt8) (i : ℕ) : partialChar b (i + 1) = withBit b i >>> 1 := rfl

theorem withBit_last : ∀ b : UInt8, withBit b 7 = b := forall_uint8 (by decide +kernel)

/-- The receiver is inside a character, with `n` bits of `b` to come, after `r` ones. -/
structure Reading (b : UInt8) (n r : ℕ) (hdlc : Hdlc) : Prop where
  window : Window r hdlc.demodBits
  idx : hdlc.bitIdx = UInt8.ofNat (8 - n)
  char : hdlc.currchar = partialChar b (8 - n)
  rxstart : hdlc.rxstart = true

variable {b : UInt8} {n r : ℕ} {hdlc : Hdlc}

theorem Reading.next (h : Reading b 8 r hdlc) (b' : UInt8) : Reading b' 8 r hdlc := { h with }

theorem Reading.stuffed (h : Reading b n 5 hdlc) :
    ∃ hdlc', hdlcParse (fun _ => false) hdlc false = (hdlc', [], true) ∧ Reading b n 0 hdlc' := by
  obtain ⟨hflag, hreset, hstuff, hwindow⟩ := window_stuffed _ h.window
  refine ⟨{ hdlc with demodBits := shiftIn hdlc.demodBits false }, ?_, ⟨hwindow, h.idx, h.char, h.rxstart⟩⟩
  have hstart : ¬ hdlc.rxstart = false := by rw [h.rxstart]; decide
  unfold shiftIn at *
  simp only [hdlcParse, if_neg hflag, if_neg hreset, if_neg hstart, if_pos hstuff]

theorem bitIdx_succ : ∀ n < 8,
    UInt8.ofNat (8 - (n + 1)) + 1 = UInt8.ofNat (8 - n) ∧ (8 ≤ UInt8.ofNat (8 - n) ↔ n = 0) := by decide

theorem hdlcPushChar_eq (hdlc : Hdlc) : hdlcPushChar (fun _ => false) hdlc =
    ({ hdlc with currchar := 0, bitIdx := 0 }, HdlcItem.bytes (.data hdlc.currchar), true) := by
  by_cases hc : hdlc.currchar = hdlcFlag ∨ hdlc.currchar = hdlcReset ∨ hdlc.currchar = ax25Esc
  · simp [hdlcPushChar, HdlcItem.bytes, hc]
  · simp [hdlcPushChar, HdlcItem.bytes, hc]

/-- The parser takes one more bit of the byte. -/
theorem Reading.bit (h : Reading b (n + 1) r hdlc) (hn : n < 8) (hr : r < 5) :
    ∃ hdlc', hdlcParse (fun _ => false) hdlc (hasBit b (7 - n)) =
        (hdlc', if n = 0 then HdlcItem.bytes (.data b) else [], true) ∧
      Reading b (if n = 0 then 8 else n) (if hasBit b (7 - n) then r + 1 else 0) hdlc' := by
  obtain ⟨hflag, hreset, hstuff, hbit, hwindow⟩ := window_bit _ r hr h.window (hasBit b (7 - n))
  obtain ⟨hidx, hlast⟩ := bitIdx_succ n hn
  have hstart : ¬ hdlc.rxstart = false := by rw [h.rxstart]; decide
  have hplace : 8 - (n + 1) = 7 - n := by omega
  have hchar : (if shiftIn hdlc.demodBits (hasBit b (7 - n)) &&& 0x01 ≠ 0 then hdlc.currchar ||| 0x80
      else hdlc.currchar) = withBit b (7 - n) := by
    simp only [hbit, h.char, hplace, withBit]
  have hparse : hdlcParse (fun _ => false) hdlc (hasBit b (7 - n)) =
      if n = 0 then
        hdlcPushChar (fun _ => false)
          ⟨shiftIn hdlc.demodBits (hasBit b (7 - n)), UInt8.ofNat (8 - n), withBit b (7 - n), hdlc.rxstart⟩
      else
        (⟨shiftIn hdlc.demodBits (hasBit b (7 - n)), UInt8.ofNat (8 - n), withBit b (7 - n) >>> 1, hdlc.rxstart⟩,
          [], true) := by
    rw [← hchar, ← hidx, ← h.idx]
    rw [← hidx, ← h.idx] at hlast
    unfold shiftIn at *
    simp only [hdlcParse, if_neg hflag, if_neg hreset, if_neg hstart, if_neg hstuff, hlast]
  rw [hparse]
  by_cases h0 : n = 0
  · subst h0
    rw [if_pos rfl, if_pos rfl, hdlcPushChar_eq]
    refine ⟨⟨shiftIn hdlc.demodBits (hasBit b (7 - 0)), 0, 0, hdlc.rxstart⟩, ?_, ⟨hwindow, rfl, rfl, h.rxstart⟩⟩
    rw [withBit_last]
  · rw [if_neg h0, if_neg h0, if_neg h0]
    refine ⟨_, rfl, ⟨hwindow, rfl, ?_, h.rxstart⟩⟩
    rw [show 8 - n = 7 - n + 1 by omega, partialChar_succ]

theorem hdlcRun_bit (hn : n < 8) (hr : r ≤ 5) (h : Reading b (n + 1) r hdlc) :
    ∃ hdlc', hdlcRun hdlc (stuffed r [hasBit b (7 - n)]) =
        (hdlc', if n = 0 then HdlcItem.bytes (.data b) else []) ∧
      Reading b (if n = 0 then 8 else n) (onesAfter r [hasBit b (7 - n)]) hdlc' := by
  by_cases h5 : 5 ≤ r
  · obtain rfl : r = 5 := by omega
    obtain ⟨hdlc1, hparse1, h1⟩ := h.stuffed
    obtain ⟨hdlc2, hparse2, h2⟩ := h1.bit hn (by omega)
    refine ⟨hdlc2, ?_, ?_⟩
    · simp [stuffed, hdlcRun, hparse1, hparse2]
    · simpa [onesAfter] using h2
  · obtain ⟨hdlc', hparse, h'⟩ := h.bit hn (by omega)
    refine ⟨hdlc', ?_, ?_⟩
    · simp [stuffed, hdlcRun, hparse, h5]
    · simpa [onesAfter, h5] using h'

/-- **A character of data** comes out of its bits. -/
theorem hdlcRun_data (hn : n < 8) (hr : r ≤ 5) (h : Reading b (n + 1) r hdlc) :
    ∃ hdlc', hdlcRun hdlc (stuffed r (bitsFrom b (n + 1))) = (hdlc', HdlcItem.bytes (.data b)) ∧
      Reading b 8 (onesAfter r (bitsFrom b (n + 1))) hdlc' := by
  induction n generalizing r hdlc with
  | zero =>
    obtain ⟨hdlc', hrun, h'⟩ := hdlcRun_bit hn hr h
    exact ⟨hdlc', hrun, h'⟩
  | succ n ih =>
    obtain ⟨hdlc1, hrun1, h1⟩ := hdlcRun_bit hn hr h
    obtain ⟨hdlc2, hrun2, h2⟩ := ih (by omega) (onesAfter_le _ hr) h1
    refine ⟨hdlc2, ?_, ?_⟩
    · rw [bitsFrom, stuffed_cons, hdlcRun_append, hrun1, hrun2]
      rfl
    · rw [bitsFrom, onesAfter_cons]
      exact h2

theorem window_le_five : ∀ x : UInt8, ∀ r ≤ 5, Window r x → x &&& 0x3f ≠ 0x3f := forall_uint8 (by decide +kernel)

theorem hdlcRun_flag : ∀ x : UInt8, x &&& 0x3f ≠ 0x3f →
    hdlcRun ⟨x, 0, 0, true⟩ (bitsFrom hdlcFlag 8) = (⟨hdlcFlag, 0, 0, true⟩, [hdlcFlag]) :=
  forall_uint8 (by decide +kernel)

theorem Reading.between (h : Reading b 8 r hdlc) : hdlc = ⟨hdlc.demodBits, 0, 0, true⟩ := by
  obtain ⟨-, hidx, hchar, hstart⟩ := h
  cases hdlc
  subst hidx hchar hstart
  rfl

theorem reading_flag (b : UInt8) : Reading b 8 0 ⟨hdlcFlag, 0, 0, true⟩ := ⟨by decide, rfl, rfl, rfl⟩

theorem hdlcRun_items (items : List HdlcItem) (hr : r ≤ 5) (h : Reading b 8 r hdlc) :
    (hdlcRun hdlc (encode r items)).2 = itemBytes items := by
  induction items generalizing r hdlc with
  | nil => rfl
  | cons item items ih =>
    cases item with
    | flag =>
      have hflag := hdlcRun_flag _ (window_le_five _ r hr h.window)
      rw [← h.between] at hflag
      rw [encode, hdlcRun_append, hflag, ih (Nat.zero_le 5) (reading_flag b)]
      rfl
    | data c =>
      obtain ⟨hdlc', hrun, h'⟩ := hdlcRun_data (by omega : 7 < 8) hr (h.next c)
      rw [encode, hdlcRun_append, hrun, ih (onesAfter_le _ hr) (h'.next b)]
      rfl

/-- **The receiver** gets the items back from their bits, once it has seen a flag. -/
theorem hdlcRun_encode (items : List HdlcItem) :
    (hdlcRun hdlcInit (encode 0 (.flag :: items))).2 = itemBytes (.flag :: items) := by
  have hflag : hdlcRun hdlcInit (bitsFrom hdlcFlag 8) = (⟨hdlcFlag, 0, 0, true⟩, [hdlcFlag]) :=
    by decide
  rw [encode, hdlcRun_append, hflag, hdlcRun_items items (Nat.zero_le 5) (reading_flag 0)]
  rfl

end Receive

/-! ## The transmitter -/

section Transmit

/-- `1 << i`, as the transmitter comes to it. -/
def txMask : ℕ → UInt8
  | 0 => 1
  | i + 1 => txMask i <<< 1

theorem and_txMask : ∀ b : UInt8, ∀ i < 8, (b &&& txMask i ≠ 0 ↔ hasBit b i = true) := forall_uint8 (by decide +kernel)

theorem txMask_ne_zero : ∀ n < 8, txMask (8 - (n + 1)) ≠ 0 := by decide

/-- The transmitter has `n` bits of `currOut` to send. -/
structure Tx (af : Afsk) (n : ℕ) : Prop where
  le : n ≤ 8
  mask : af.txBit = txMask (8 - n)
  ones : af.bitStuff = true → af.stuffCnt.toNat ≤ 5

/-- The bits that are to be sent: the rest of this character, and some items. -/
def Afsk.ahead (af : Afsk) (n : ℕ) (items : List HdlcItem) : List Bool :=
  if af.bitStuff then
    stuffed af.stuffCnt.toNat (bitsFrom af.currOut n) ++ encode (onesAfter af.stuffCnt.toNat (bitsFrom af.currOut n))
      items
  else bitsFrom af.currOut n ++ encode 0 items

/-- The items that are to be sent: what is left of the preamble, some others, and what is left of the trailer. -/
def Afsk.plan (af : Afsk) (items : List HdlcItem) : List HdlcItem :=
  List.replicate af.preambleLen.toNat .flag ++ items ++ List.replicate af.trailerLen.toNat .flag

variable {af : Afsk} {n : ℕ}

theorem sendBit_frame (af : Afsk) : (sendBit af).txFifo = af.txFifo ∧ (sendBit af).preambleLen = af.preambleLen ∧
    (sendBit af).trailerLen = af.trailerLen ∧ (sendBit af).sending = af.sending := by
  unfold sendBit
  split
  · exact ⟨rfl, rfl, rfl, rfl⟩
  · split <;> exact ⟨rfl, rfl, rfl, rfl⟩

theorem sendBit_plan (items : List HdlcItem) : (sendBit af).plan items = af.plan items := by
  obtain ⟨-, hpre, htrail, -⟩ := sendBit_frame af
  rw [plan, hpre, htrail, plan]

theorem sendBit_extra (h : Tx af (n + 1)) (hs : af.bitStuff = true ∧ bitStuffLen ≤ af.stuffCnt)
    (items : List HdlcItem) :
    Tx (sendBit af) (n + 1) ∧ af.ahead (n + 1) items = false :: (sendBit af).ahead (n + 1) items ∧
      (sendBit af).phaseInc = switchTone af.phaseInc := by
  have hsend : sendBit af = { af with stuffCnt := 0, phaseInc := switchTone af.phaseInc } := if_pos hs
  have hcnt : 5 ≤ af.stuffCnt.toNat := UInt8.le_iff_toNat_le.mp hs.2
  rw [hsend]
  refine ⟨⟨h.le, h.mask, fun _ => Nat.zero_le 5⟩, ?_, rfl⟩
  simp [ahead, hs.1, bitsFrom, stuffed, onesAfter, hcnt]

/-- The modulator sends the next bit of the byte. -/
theorem sendBit_bit (h : Tx af (n + 1)) (hs : ¬ (af.bitStuff = true ∧ bitStuffLen ≤ af.stuffCnt))
    (items : List HdlcItem) : Tx (sendBit af) n ∧
      af.ahead (n + 1) items = hasBit af.currOut (7 - n) :: (sendBit af).ahead n items ∧
      (sendBit af).phaseInc = if hasBit af.currOut (7 - n) then af.phaseInc else switchTone af.phaseInc := by
  have hn : n < 8 := h.le
  have hbit : af.currOut &&& af.txBit ≠ 0 ↔ hasBit af.currOut (7 - n) = true := by
    rw [h.mask, show 8 - (n + 1) = 7 - n by omega]
    exact and_txMask _ _ (by omega)
  have hmask : af.txBit <<< 1 = txMask (8 - n) := by
    rw [h.mask, show 8 - n = 8 - (n + 1) + 1 by omega, txMask]
  have hcnt : af.bitStuff = true → af.stuffCnt.toNat < 5 := fun hb =>
    Nat.lt_of_not_le fun h5 => hs ⟨hb, UInt8.le_iff_toNat_le.mpr h5⟩
  have hadd : af.bitStuff = true → (af.stuffCnt + 1).toNat = af.stuffCnt.toNat + 1 := by
    intro hb
    have := hcnt hb
    simp only [UInt8.toNat_add, UInt8.reduceToNat]
    omega
  rw [sendBit, if_neg hs]
  by_cases hone : hasBit af.currOut (7 - n) = true
  · rw [if_pos (hbit.mpr hone)]
    refine ⟨⟨by omega, hmask, fun hb => ?_⟩, ?_, ?_⟩
    · rw [hadd hb]
      exact hcnt hb
    · cases hb : af.bitStuff with
      | false => simp [ahead, hb, bitsFrom]
      | true => simp [ahead, hb, bitsFrom, stuffed, onesAfter, hadd hb, hone, Nat.not_le.mpr (hcnt hb)]
    · rw [if_pos hone]
  · rw [if_neg (fun h => hone (hbit.mp h))]
    refine ⟨⟨by omega, hmask, fun _ => Nat.zero_le 5⟩, ?_, ?_⟩
    · cases hb : af.bitStuff with
      | false => simp [ahead, hb, bitsFrom]
      | true => simp [ahead, hb, bitsFrom, stuffed, onesAfter, hone, Nat.not_le.mpr (hcnt hb)]
    · rw [if_neg hone]

/-- **A bit**: the next one of those that are to be sent, a tone that changes for a 0. -/
theorem sendBit_tx (h : Tx af (n + 1)) (items : List HdlcItem) : ∃ bit n', Tx (sendBit af) n' ∧
    af.ahead (n + 1) items = bit :: (sendBit af).ahead n' items ∧
    (sendBit af).phaseInc = if bit then af.phaseInc else switchTone af.phaseInc := by
  by_cases hs : af.bitStuff = true ∧ bitStuffLen ≤ af.stuffCnt
  · exact ⟨false, n + 1, sendBit_extra h hs items⟩
  · exact ⟨_, n, sendBit_bit h hs items⟩

theorem ahead_zero (items : List HdlcItem) :
    af.ahead 0 items = encode (if af.bitStuff then af.stuffCnt else 0).toNat items := by
  cases hb : af.bitStuff <;> simp [ahead, hb, bitsFrom, stuffed, onesAfter]

/-- The transmitter `af'` begins a flag that is not escaped. -/
def Afsk.BeginsFlag (af af' : Afsk) : Prop :=
  af' = { af with
    stuffCnt := if af.bitStuff then af.stuffCnt else 0, bitStuff := false, currOut := hdlcFlag, txBit := 0x01,
    preambleLen := af'.preambleLen, trailerLen := af'.trailerLen, txFifo := af'.txFifo }

/-- The transmitter `af'` begins a character of data. -/
def Afsk.BeginsData (b : UInt8) (af af' : Afsk) : Prop :=
  af' = { af with
    stuffCnt := if af.bitStuff then af.stuffCnt else 0, bitStuff := true, currOut := b, txBit := 0x01,
    txFifo := af'.txFifo }

def Afsk.Begins (af af' : Afsk) : HdlcItem → Prop
  | .flag => af.BeginsFlag af'
  | .data b => af.BeginsData b af'

theorem Afsk.Begins.ahead {af' : Afsk} {item : HdlcItem} (h : af.Begins af' item) (htx : Tx af 0)
    (items : List HdlcItem) : Tx af' 8 ∧ af.ahead 0 (item :: items) = af'.ahead 8 items := by
  rw [ahead_zero]
  cases item with
  | flag =>
    rw [h]
    exact ⟨⟨Nat.le_refl 8, rfl, fun hb => by cases hb⟩, rfl⟩
  | data b =>
    rw [h]
    refine ⟨⟨Nat.le_refl 8, rfl, fun _ => ?_⟩, rfl⟩
    cases hb : af.bitStuff with
    | false => exact Nat.zero_le 5
    | true => exact htx.ones hb

theorem Afsk.Begins.frame {af' : Afsk} {item : HdlcItem} (h : af.Begins af' item) :
    af'.sending = af.sending ∧ af'.phaseInc = af.phaseInc := by
  cases item with
  | flag | data b =>
    rw [h]
    exact ⟨rfl, rfl⟩

/-- The transmitter when it begins a character. -/
def Afsk.begun (af : Afsk) (bitStuff : Bool) (c : UInt8) : Afsk :=
  { af with stuffCnt := if af.bitStuff then af.stuffCnt else 0, bitStuff := bitStuff, currOut := c, txBit := 0x01 }

theorem nextChar_preamble (hp : af.preambleLen ≠ 0) (ht : af.trailerLen ≠ 0) :
    ∃ af', nextChar af = (true, af') ∧ af.Begins af' .flag ∧ af'.txFifo = af.txFifo ∧
      af'.preambleLen = af.preambleLen - 1 ∧ af'.trailerLen = af.trailerLen := by
  refine ⟨{ af.begun false hdlcFlag with preambleLen := af.preambleLen - 1 }, ?_, rfl, rfl, rfl, rfl⟩
  simp [nextChar, begun, hp, ht, show hdlcFlag ≠ ax25Esc by decide]

theorem nextChar_trailer (hp : af.preambleLen = 0) (ht : af.trailerLen ≠ 0) (hf : af.txFifo = []) :
    ∃ af', nextChar af = (true, af') ∧ af.Begins af' .flag ∧ af'.txFifo = af.txFifo ∧
      af'.preambleLen = af.preambleLen ∧ af'.trailerLen = af.trailerLen - 1 := by
  refine ⟨{ af.begun false hdlcFlag with trailerLen := af.trailerLen - 1 }, ?_, rfl, rfl, rfl, rfl⟩
  simp [nextChar, begun, hp, ht, hf, show hdlcFlag ≠ ax25Esc by decide]

theorem nextChar_item {item : HdlcItem} {fifo : List UInt8} (hp : af.preambleLen = 0)
    (hf : af.txFifo = item.bytes ++ fifo) : ∃ af', nextChar af = (true, af') ∧ af.Begins af' item ∧ af'.txFifo = fifo ∧
      af'.preambleLen = af.preambleLen ∧ af'.trailerLen = af.trailerLen := by
  cases item with
  | flag =>
    refine ⟨{ af.begun false hdlcFlag with txFifo := fifo }, ?_, rfl, rfl, rfl, rfl⟩
    simp [nextChar, begun, hp, hf, HdlcItem.bytes, show hdlcFlag ≠ ax25Esc by decide]
  | data b =>
    refine ⟨{ af.begun true b with txFifo := fifo }, ?_, rfl, rfl, rfl, rfl⟩
    by_cases hb : b = hdlcFlag ∨ b = hdlcReset ∨ b = ax25Esc
    · simp [nextChar, begun, hp, hf, HdlcItem.bytes, hb]
    · obtain ⟨hflag, hreset, hesc⟩ := not_or.mp hb |>.imp_right not_or.mp
      simp [nextChar, begun, hp, hf, HdlcItem.bytes, hflag, hreset, hesc]

theorem nextChar_end (ht : af.trailerLen = 0) (hf : af.txFifo = []) :
    nextChar af = (false, { af with sending := false }) := by
  simp [nextChar, ht, hf]

end Transmit

/-! ## Runs -/

section Runs

theorem nrzi_concat (tone t : UInt16) (tones : List UInt16) :
    nrzi tone (tones ++ [t]) = nrzi tone tones ++ [decide (t = tones.getLast?.getD tone)] := by
  induction tones generalizing tone with
  | nil => rfl
  | cons t' tones ih =>
    rw [cons_append, nrzi, nrzi, ih, cons_append, getLast?_cons, Option.getD_some]

theorem switchTone_ne (inc : UInt16) : switchTone inc ≠ inc := by
  unfold switchTone
  split
  · next h =>
    rw [h]
    decide
  · next h => exact fun h' => h h'.symm

def framed (items : List HdlcItem) : List HdlcItem :=
  List.replicate afskPreamble.toNat .flag ++ items ++ List.replicate afskTrailer.toNat .flag

/-- The transmitter has begun and not stopped: `n` bits of a character are to be sent, and `rest` of the items. -/
structure Transmitting (items : List HdlcItem) (m : Modem) (log : List UInt16) (n : ℕ) (rest : List HdlcItem) :
    Prop where
  sending : m.af.sending = true
  tx : Tx m.af n
  written : m.af.txFifo ++ m.todo = itemBytes rest
  trailer : m.af.trailerLen = afskTrailer ∨ m.Done ∧ rest = [] ∧ m.af.preambleLen = 0
  tone : m.af.phaseInc = log.head?.getD markInc
  bits : nrzi markInc log.reverse ++ m.af.ahead n (m.af.plan rest) = encode 0 (framed items)

inductive ModemInv (items : List HdlcItem) : Modem → List UInt16 → Prop
  | waiting {m : Modem} (haf : m.af = { afskInit with txFifo := m.af.txFifo })
      (hw : m.af.txFifo ++ m.todo = itemBytes items) (hp : m.pushed = false → m.af.txFifo = []) : ModemInv items m []
  | sending {m : Modem} {log : List UInt16} {n : ℕ} {rest : List HdlcItem} (h : Transmitting items m log n rest) :
      ModemInv items m log
  | stopped {m : Modem} {log : List UInt16} (hd : m.Done) (hs : m.af.sending = false)
      (hbits : nrzi markInc log.reverse = encode 0 (framed items)) : ModemInv items m log

variable {items rest : List HdlcItem} {m m' : Modem} {log e : List UInt16} {n : ℕ}

/-- **The next bit** on the air is the next of the rest. -/
theorem Transmitting.next (h : Transmitting items m log (n + 1) rest) (sampleCount : UInt8) :
    ∃ n', Transmitting items { m with af := { sendBit m.af with sampleCount := sampleCount } }
      ((sendBit m.af).phaseInc :: log) n' rest := by
  obtain ⟨bit, n', htx, hahead, htone⟩ := sendBit_tx h.tx (m.af.plan rest)
  have hnrzi : nrzi markInc ((sendBit m.af).phaseInc :: log).reverse = nrzi markInc log.reverse ++ [bit] := by
    rw [reverse_cons, nrzi_concat, getLast?_reverse, ← h.tone, htone]
    cases bit with
    | true => simp
    | false => simp [switchTone_ne]
  obtain ⟨hfifo, hpre, htrail, hsend⟩ := sendBit_frame m.af
  refine ⟨n', ⟨hsend.trans h.sending, { htx with }, ?_, ?_, rfl, ?_⟩⟩
  · rw [← h.written]
    exact congrArg (· ++ m.todo) hfifo
  · obtain ht | ⟨hd, hr, hp⟩ := h.trailer
    · exact .inl (htrail.trans ht)
    · exact .inr ⟨hd, hr, hpre.trans hp⟩
  · rw [hnrzi, ← h.bits, hahead, ← @sendBit_plan m.af rest]
    simp only [append_assoc, singleton_append]
    rfl

theorem Transmitting.begins {af' : Afsk} {item : HdlcItem} {rest' : List HdlcItem}
    (h : Transmitting items m log 0 rest) (hb : m.af.Begins af' item) (hplan : m.af.plan rest = item :: af'.plan rest')
    (hw : af'.txFifo ++ m.todo = itemBytes rest')
    (ht : af'.trailerLen = afskTrailer ∨ m.Done ∧ rest' = [] ∧ af'.preambleLen = 0) :
    Transmitting items { m with af := af' } log 8 rest' := by
  obtain ⟨htx, hahead⟩ := hb.ahead h.tx (af'.plan rest')
  obtain ⟨hsend, htone⟩ := hb.frame
  refine ⟨hsend.trans h.sending, htx, hw, ht, htone.trans h.tone, ?_⟩
  rw [← h.bits, hplan, hahead]

theorem toNat_eq_pred_add_one {len : UInt16} (h : len ≠ 0) : len.toNat = (len - 1).toNat + 1 := by
  have h0 : len.toNat ≠ 0 := fun h' => h (UInt16.toNat_inj.mp h')
  have hlt := len.toNat_lt
  simp only [UInt16.toNat_sub, UInt16.reduceToNat]
  omega

/-- An item is cut only after its escape. -/
theorem bytes_part {item : HdlcItem} {xs ys : List UInt8} (h : item.bytes = xs ++ ys) (hy : ys ≠ []) :
    xs = [] ∨ xs = [ax25Esc] := by
  have hbytes : (∃ c, item.bytes = [c]) ∨ ∃ b, item.bytes = [ax25Esc, b] := by
    cases item with
    | flag => exact .inl ⟨_, rfl⟩
    | data b =>
      by_cases hb : b = hdlcFlag ∨ b = hdlcReset ∨ b = ax25Esc
      · exact .inr ⟨b, if_pos hb⟩
      · exact .inl ⟨b, if_neg hb⟩
  obtain ⟨c, hc⟩ | ⟨b, hb⟩ := hbytes
  · rw [hc] at h
    exact .inl ((append_eq_singleton_iff.mp h.symm).resolve_right fun hx => hy hx.2).1
  · rw [hb] at h
    obtain ⟨rfl, -⟩ | ⟨xs, rfl, htail⟩ := append_eq_cons_iff.mp h.symm
    · exact .inl rfl
    · rw [((append_eq_singleton_iff.mp htail.symm).resolve_right fun hx => hy hx.2).1]
      exact .inr rfl

theorem Transmitting.fifo {item : HdlcItem} (h : Transmitting items m log 0 (item :: rest))
    (hc : m.af.sampleCount = 0) (hp : m.af.preambleLen = 0) (hfed : ¬ m.Starved) :
    ∃ fifo, m.af.txFifo = item.bytes ++ fifo ∧ fifo ++ m.todo = itemBytes rest := by
  have hw : m.af.txFifo ++ m.todo = item.bytes ++ itemBytes rest := h.written
  by_cases hd : m.Done
  · rw [hd.1, append_nil] at hw
    exact ⟨_, hw, by rw [hd.1, append_nil]⟩
  · obtain ⟨ys, hbytes, htodo⟩ | ⟨fifo, hf, hrest⟩ := append_eq_append_iff.mp hw
    · by_cases hy : ys = []
      · subst hy
        exact ⟨[], by rw [hbytes, append_nil, append_nil], htodo⟩
      · exact absurd ⟨hd, hc, h.tx.mask, hp, bytes_part hbytes hy⟩ hfed
    · exact ⟨fifo, hf, hrest.symm⟩

/-- Between characters the next one is loaded, or all has been sent. -/
theorem Transmitting.char (h : Transmitting items m log 0 rest) (hc : m.af.sampleCount = 0) (hfed : ¬ m.Starved) :
    (∃ af' rest', nextChar m.af = (true, af') ∧ Transmitting items { m with af := af' } log 8 rest') ∨
      nextChar m.af = (false, { m.af with sending := false }) ∧ m.Done ∧
        nrzi markInc log.reverse = encode 0 (framed items) := by
  by_cases hp : m.af.preambleLen = 0
  · cases rest with
    | nil =>
      obtain ⟨hf, ht⟩ := append_eq_nil_iff.mp h.written
      have hd : m.Done := Classical.byContradiction fun hd => hfed ⟨hd, hc, h.tx.mask, hp, .inl hf⟩
      by_cases h0 : m.af.trailerLen = 0
      · refine .inr ⟨nextChar_end h0 hf, hd, ?_⟩
        have hplan : m.af.plan [] = [] := by rw [plan, hp, h0]; rfl
        rw [← h.bits, hplan, ahead_zero, encode, append_nil]
      · obtain ⟨af', hnext, hb, hfifo, hpre, htrail⟩ := nextChar_trailer hp h0 hf
        refine .inl ⟨af', [], hnext, h.begins hb ?_ (hfifo.symm ▸ h.written) (.inr ⟨hd, rfl, hpre.trans hp⟩)⟩
        rw [plan, plan, hpre, hp, htrail, toNat_eq_pred_add_one h0]
        rfl
    | cons item rest =>
      obtain ⟨fifo, hf, hw⟩ := h.fifo hc hp hfed
      obtain ⟨af', hnext, hb, hfifo, hpre, htrail⟩ := nextChar_item hp hf
      have ht : m.af.trailerLen = afskTrailer := h.trailer.resolve_right fun ⟨_, hr, _⟩ => cons_ne_nil _ _ hr
      refine .inl ⟨af', rest, hnext, h.begins hb ?_ (hfifo.symm ▸ hw) (.inl (htrail.trans ht))⟩
      rw [plan, plan, hpre, hp, htrail]
      rfl
  · have ht : m.af.trailerLen = afskTrailer := h.trailer.resolve_right fun ⟨_, _, h0⟩ => hp h0
    obtain ⟨af', hnext, hb, hfifo, hpre, htrail⟩ := nextChar_preamble hp (by rw [ht]; decide)
    refine .inl ⟨af', rest, hnext, h.begins hb ?_ (hfifo.symm ▸ h.written) (.inl (htrail.trans ht))⟩
    rw [plan, plan, hpre, htrail, toNat_eq_pred_add_one hp]
    rfl

/-- **The interrupt** keeps the invariant unless the queue is starved. -/
theorem Transmitting.isr (h : Transmitting items m log n rest) (hfed : ¬ m.Starved) :
    ModemInv items { m with af := (afskDacIsr m.af).1 } ((afskDacIsr m.af).2.toList ++ log) := by
  by_cases hc : m.af.sampleCount = 0
  · cases n with
    | zero =>
      have hmask : m.af.txBit = 0 := h.tx.mask
      obtain ⟨af', rest', hnext, h'⟩ | ⟨hnext, hd, hbits⟩ := h.char hc hfed
      · obtain ⟨n', h''⟩ := h'.next (dacSampleperbit - 1)
        have hisr : afskDacIsr m.af =
            ({ sendBit af' with sampleCount := dacSampleperbit - 1 }, some (sendBit af').phaseInc) := by
          simp only [afskDacIsr, if_pos hc, if_pos hmask, hnext]
        rw [hisr]
        exact .sending h''
      · have hisr : afskDacIsr m.af = ({ m.af with sending := false }, none) := by
          simp only [afskDacIsr, if_pos hc, if_pos hmask, hnext]
        rw [hisr]
        exact .stopped hd rfl hbits
    | succ n =>
      have hmask : m.af.txBit ≠ 0 := h.tx.mask ▸ txMask_ne_zero n h.tx.le
      obtain ⟨n', h'⟩ := h.next (dacSampleperbit - 1)
      have hisr : afskDacIsr m.af =
          ({ sendBit m.af with sampleCount := dacSampleperbit - 1 }, some (sendBit m.af).phaseInc) := by
        simp only [afskDacIsr, if_pos hc, if_neg hmask]
      rw [hisr]
      exact .sending h'
  · have hisr : afskDacIsr m.af = ({ m.af with sampleCount := m.af.sampleCount - 1 }, none) := if_neg hc
    rw [hisr]
    exact .sending ⟨h.sending, ⟨h.tx.le, h.tx.mask, h.tx.ones⟩, h.written, h.trailer, h.tone, h.bits⟩

/-- What a step of the modem can do. -/
theorem modemStep_cases {a : ModemAct} (hs : modemStep m a = some (m', e)) :
    (a = .push ∧ e = [] ∧ ∃ c cs, m.pushed = false ∧ m.todo = c :: cs ∧
      m' = ⟨{ m.af with txFifo := m.af.txFifo ++ [c] }, cs, true⟩) ∨
    (a = .start ∧ e = [] ∧ m.pushed = true ∧ m' = ⟨afskTxStart m.af, m.todo, false⟩) ∨
    (a = .isr ∧ e = (afskDacIsr m.af).2.toList ∧ m.af.sending = true ∧ m' = { m with af := (afskDacIsr m.af).1 }) := by
  cases a with
  | push =>
    simp only [modemStep] at hs
    split at hs
    · next c cs hp ht =>
      split_ifs at hs
      cases hs
      exact .inl ⟨rfl, rfl, c, cs, hp, ht, rfl⟩
    · cases hs
  | start =>
    simp only [modemStep] at hs
    split_ifs at hs with hp
    cases hs
    exact .inr (.inl ⟨rfl, rfl, hp, rfl⟩)
  | isr =>
    simp only [modemStep] at hs
    split_ifs at hs with hsend
    cases hs
    exact .inr (.inr ⟨rfl, rfl, hsend, rfl⟩)

theorem modemInv_push {c : UInt8} {cs : List UInt8} (h : ModemInv items m log) (ht : m.todo = c :: cs) :
    ModemInv items ⟨{ m.af with txFifo := m.af.txFifo ++ [c] }, cs, true⟩ log := by
  have hd : ¬ m.Done := fun hd => cons_ne_nil c cs (ht.symm.trans hd.1)
  have hfifo : m.af.txFifo ++ [c] ++ cs = m.af.txFifo ++ m.todo := by
    rw [ht, append_assoc, singleton_append]
  cases h with
  | waiting haf hw _ =>
    refine .waiting ?_ (hfifo.trans hw) (fun h => by cases h)
    rw [haf]
  | sending h =>
    have htrail := h.trailer.resolve_right fun hd' => hd hd'.1
    exact .sending ⟨h.sending, ⟨h.tx.le, h.tx.mask, h.tx.ones⟩, hfifo.trans h.written, .inl htrail, h.tone, h.bits⟩
  | stopped hd' => exact absurd hd' hd

/-- Starting the transmitter keeps the invariant. -/
theorem modemInv_start (h : ModemInv items m log) (hp : m.pushed = true) :
    ModemInv items ⟨afskTxStart m.af, m.todo, false⟩ log := by
  have hd : ¬ m.Done := fun hd => Bool.false_ne_true (hd.2.symm.trans hp)
  cases h with
  | waiting haf hw _ =>
    have hstart : afskTxStart m.af =
        { afskInit with
          txFifo := m.af.txFifo, sending := true, preambleLen := afskPreamble, trailerLen := afskTrailer } := by
      rw [haf]
      rfl
    rw [hstart]
    exact .sending ⟨rfl, ⟨Nat.zero_le 8, rfl, fun hb => by cases hb⟩, hw, .inl rfl, rfl, rfl⟩
  | sending h =>
    have htrail := h.trailer.resolve_right fun hd' => hd hd'.1
    have hstart : afskTxStart m.af = m.af := by
      rw [afskTxStart, if_pos h.sending, ← htrail]
    rw [hstart]
    exact .sending ⟨h.sending, h.tx, h.written, .inl htrail, h.tone, h.bits⟩
  | stopped hd' => exact absurd hd' hd

theorem modemInv_isr (h : ModemInv items m log) (hsend : m.af.sending = true) (hfed : ¬ m.Starved) :
    ModemInv items { m with af := (afskDacIsr m.af).1 } ((afskDacIsr m.af).2.toList ++ log) := by
  cases h with
  | waiting haf =>
    rw [haf] at hsend
    cases hsend
  | sending h => exact h.isr hfed
  | stopped _ hs => exact absurd (hs.symm.trans hsend) Bool.false_ne_true

/-- The invariant, along every run. -/
theorem modemInv_run (h : (modem (itemBytes items)).Run fed m log) : ModemInv items m log := by
  refine h.invariant (I := ModemInv items) ?_ ?_
  · rintro m rfl
    exact .waiting rfl rfl fun _ => rfl
  · intro m log a m' e hinv hfed hs
    obtain ⟨-, rfl, c, cs, -, ht, rfl⟩ | ⟨-, rfl, hp, rfl⟩ | ⟨ha, rfl, hsend, rfl⟩ := modemStep_cases hs
    · exact modemInv_push hinv ht
    · exact modemInv_start hinv hp
    · exact modemInv_isr hinv hsend (hfed ha)

theorem modem_bits (h : (modem (itemBytes items)).Run fed m log) :
    nrzi markInc log.reverse <+: encode 0 (framed items) := by
  cases modemInv_run h with
  | waiting => exact nil_prefix
  | sending h => exact ⟨_, h.bits⟩
  | stopped _ _ hbits => exact hbits ▸ prefix_refl _

theorem modem_bits_stopped (h : (modem (itemBytes (.flag :: items))).Run fed m log) (hd : m.Done)
    (hs : m.af.sending = false) : nrzi markInc log.reverse = encode 0 (framed (.flag :: items)) := by
  cases modemInv_run h with
  | waiting _ hw hp =>
    rw [hp hd.2, hd.1] at hw
    exact absurd hw.symm (cons_ne_nil _ _)
  | sending h => exact absurd (hs.symm.trans h.sending) Bool.false_ne_true
  | stopped _ _ hbits => exact hbits

theorem length_nrzi (tone : UInt16) (tones : List UInt16) : (nrzi tone tones).length = tones.length := by
  induction tones generalizing tone with
  | nil => rfl
  | cons t tones ih => rw [nrzi, length_cons, length_cons, ih]

theorem nextChar_false {af af' : Afsk} (h : nextChar af = (false, af')) : af'.sending = false := by
  unfold nextChar at h
  grind

theorem afskDacIsr_cases (af : Afsk) :
    (af.sampleCount ≠ 0 ∧ afskDacIsr af = ({ af with sampleCount := af.sampleCount - 1 }, none)) ∨
    (∃ tone, (afskDacIsr af).2 = some tone ∧ (afskDacIsr af).1.sampleCount = dacSampleperbit - 1) ∨
    (afskDacIsr af).1.sending = false := by
  by_cases hc : af.sampleCount = 0
  · rw [afskDacIsr, if_pos hc]
    split
    · next af' hnext =>
      split at hnext
      · exact .inr (.inr (nextChar_false hnext))
      · cases hnext
    · exact .inr (.inl ⟨_, rfl, rfl⟩)
  · exact .inl ⟨hc, if_neg hc⟩

theorem length_log_le (h : (modem (itemBytes items)).Run fed m log) :
    log.length ≤ (encode 0 (framed items)).length := by
  have hlen := (modem_bits h).length_le
  rwa [length_nrzi, length_reverse] at hlen

theorem sampleperbit_pred : (dacSampleperbit - 1).toNat = 7 := by decide

theorem toNat_sub_one {count : UInt8} (h : count ≠ 0) : (count - 1).toNat + 1 = count.toNat := by
  have h0 : count.toNat ≠ 0 := fun h0 => h (UInt8.toNat_inj.mp h0)
  have hlt := count.toNat_lt
  simp only [UInt8.toNat_sub, UInt8.reduceToNat]
  omega

/-- The modem after this many interrupts of the DAC. -/
def Modem.interrupts (m : Modem) : ℕ → Modem
  | 0 => m
  | k + 1 => Modem.interrupts { m with af := (afskDacIsr m.af).1 } k

/-- When all has been written, the transmitter stops: each interrupt counts one of the samples that are left. -/
theorem modem_stops (h : (modem (itemBytes items)).Run fed m log) (hd : m.Done) :
    ∃ k log', (modem (itemBytes items)).Run fed (m.interrupts k) log' ∧ log <:+ log' ∧ (m.interrupts k).Done ∧
      (m.interrupts k).af.sending = false := by
  obtain ⟨total, hle⟩ : ∃ total, ∀ m log, (modem (itemBytes items)).Run fed m log → log.length ≤ total :=
    ⟨_, fun _ _ h => length_log_le h⟩
  obtain ⟨k, hk⟩ : ∃ k, (total - log.length) * 8 + m.af.sampleCount.toNat < k := ⟨_, Nat.lt_succ_self _⟩
  induction k generalizing m log with
  | zero => exact absurd hk (Nat.not_lt_zero _)
  | succ k ih =>
    cases hsend : m.af.sending with
    | false => exact ⟨0, log, h, suffix_refl _, hd, hsend⟩
    | true =>
      have hrun : (modem (itemBytes items)).Run fed { m with af := (afskDacIsr m.af).1 }
          ((afskDacIsr m.af).2.toList ++ log) := h.step (a := .isr) (fun _ hst => hst.1 hd) (if_pos hsend)
      have hlen := hle _ _ hrun
      have hsuffix : log <:+ (afskDacIsr m.af).2.toList ++ log := suffix_append _ _
      by_cases hstop : (afskDacIsr m.af).1.sending = false
      · exact ⟨1, _, hrun, hsuffix, hd, hstop⟩
      -- a step nearer to the end
      suffices hlt : (total - ((afskDacIsr m.af).2.toList ++ log).length) * 8 +
          (afskDacIsr m.af).1.sampleCount.toNat < k by
        obtain ⟨k', log', hrun', hlog, hend⟩ := ih hrun hd hlt
        exact ⟨k' + 1, log', hrun', hsuffix.trans hlog, hend⟩
      obtain ⟨hc, hisr⟩ | ⟨tone, htone, hsc⟩ | hend := afskDacIsr_cases m.af
      · rw [← toNat_sub_one hc] at hk
        simp only [hisr, Option.toList_none, nil_append]
        exact Nat.lt_of_succ_lt_succ hk
      · simp only [htone, Option.toList_some, singleton_append, length_cons] at hlen
        simp only [hsc, sampleperbit_pred, htone, Option.toList_some, singleton_append, length_cons]
        omega
      · exact absurd hend hstop

theorem itemBytes_flags (k : ℕ) : itemBytes (List.replicate k .flag) = List.replicate k hdlcFlag := by
  induction k with
  | zero => rfl
  | succ k ih => exact congrArg (hdlcFlag :: ·) ih

theorem itemBytes_framed (items : List HdlcItem) : itemBytes (framed items) =
    List.replicate afskPreamble.toNat hdlcFlag ++ itemBytes items ++ List.replicate afskTrailer.toNat hdlcFlag := by
  rw [← itemBytes_flags, ← itemBytes_flags, framed]
  simp only [itemBytes, flatMap_append]

theorem hdlcRun_mono {hdlc : Hdlc} {bits bits' : List Bool} (h : bits <+: bits') :
    (hdlcRun hdlc bits).2 <+: (hdlcRun hdlc bits').2 := by
  obtain ⟨more, rfl⟩ := h
  rw [hdlcRun_append]
  exact prefix_append _ _

theorem hdlcRun_framed (items : List HdlcItem) : (hdlcRun hdlcInit (encode 0 (framed items))).2 =
    List.replicate afskPreamble.toNat hdlcFlag ++ itemBytes items ++ List.replicate afskTrailer.toNat hdlcFlag :=
  (hdlcRun_encode _).trans (itemBytes_framed items)

/-- **The bit layer is lossless**: what comes out of the tones is a beginning of the flags of the preamble, of what is
written and of the flags of the trailer, and all of it when the transmitter has stopped; when all has been written,
a number of interrupts stops it. -/
theorem modem_lossless (items : List HdlcItem) {m : Modem} {log : List UInt16}
    (h : (modem (itemBytes (.flag :: items))).Run fed m log) :
    ((hdlcRun hdlcInit (nrzi markInc log.reverse)).2 <+: List.replicate afskPreamble.toNat hdlcFlag ++
      itemBytes (.flag :: items) ++ List.replicate afskTrailer.toNat hdlcFlag) ∧
    (m.Done → m.af.sending = false → (hdlcRun hdlcInit (nrzi markInc log.reverse)).2 =
      List.replicate afskPreamble.toNat hdlcFlag ++ itemBytes (.flag :: items) ++
        List.replicate afskTrailer.toNat hdlcFlag) ∧
    (m.Done → ∃ k log', (modem (itemBytes (.flag :: items))).Run fed (m.interrupts k) log' ∧ log <:+ log' ∧
      (m.interrupts k).Done ∧ (m.interrupts k).af.sending = false) := by
  rw [← hdlcRun_framed]
  refine ⟨hdlcRun_mono (modem_bits h), fun hd hs => ?_, modem_stops h⟩
  rw [modem_bits_stopped h hd hs]

/-- A flag, a byte that looks like one and a byte of ones: the transmission ends, and gives them back. -/
theorem modem_lossless_special : ∃ m log, (modem (itemBytes [.flag, .data hdlcFlag, .data 0xff])).Run fed m log ∧
    (hdlcRun hdlcInit (nrzi markInc log.reverse)).2 =
      List.replicate 45 hdlcFlag ++ [hdlcFlag, ax25Esc, hdlcFlag, 0xff] ++ List.replicate 8 hdlcFlag := by
  have hinit : (modem (itemBytes [.flag, .data hdlcFlag, .data 0xff])).Run fed
      ⟨afskInit, itemBytes [.flag, .data hdlcFlag, .data 0xff], false⟩ [] := .init rfl
  have hwritten := @Machine.Run.exec _ _ _ _ fed _ _ _ hinit
    [.push, .start, .push, .start, .push, .start, .push, .start] _ rfl
  obtain ⟨k, log, hrun, -, hd, hs⟩ := (modem_lossless [.data hdlcFlag, .data 0xff] hwritten).2.2 ⟨rfl, rfl⟩
  exact ⟨_, log, hrun, (modem_lossless [.data hdlcFlag, .data 0xff] hrun).2.1 hd hs⟩

end Runs

end Bertos
