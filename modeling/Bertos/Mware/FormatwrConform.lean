import Bertos.Mware.FormatwrAnsi

/-!
# Where the formatter follows the standard

The text of the formatter and the one of the standard have the same shape: a sign, a prefix and a numeral behind zeros,
in a field. They are the same if the specification and the argument conform (`codeText_eq`, `codeSign_eq`), and only
then: a sign is told from the characters `+` and `-`, a padding by the length, a number by its digits.
-/

namespace Bertos

open List

namespace IntSpec

variable {T : CTypes} {s : IntSpec} {v : ℤ}

/-! ## The parts of the text -/

theorem codeValue_of_unsigned (hs : ¬s.conv.Signed) : s.codeValue T v = s.ansiValue T v := by
  rw [codeValue, if_neg hs]

theorem codeValue_eq (hshort : s.conv.Signed → s.modifier = .h → T.toShort (T.toInt v) = T.toInt v) :
    s.codeValue T v = s.ansiValue T v := by
  by_cases hs : s.conv.Signed
  · cases hm : s.modifier <;> simp_all [codeValue, ansiValue]
  · exact codeValue_of_unsigned hs

theorem hex_unsigned (hx : s.conv.Hex) : ¬s.conv.Signed := by
  obtain h | h := hx <;> (rw [h]; decide)

theorem codeSign_eq (hval : s.codeValue T v = s.ansiValue T v)
    (hspace : s.conv.Signed → .space ∈ s.flags → .plus ∉ s.flags → s.ansiValue T v < 0) :
    (s.codeSign T v).chars = s.ansiSign T v := by
  unfold codeSign ansiSign
  rw [hval]
  split_ifs <;> simp_all [PlusSpaceFlag.chars]

/-- The precision of the formatter is the one of the standard; a negative one stands for none. -/
theorem codePrecision_spec (h : ∀ p ∈ s.minDigits T, p ≤ T.intMax) :
    (s.minDigits T = none → s.codePrecision T < 0) ∧ ∀ p, s.minDigits T = some p → s.codePrecision T = p := by
  unfold minDigits at h ⊢
  unfold codePrecision
  cases hp : s.precision with
  | none => simp
  | some f =>
    rw [hp] at h
    simp only [Option.bind_some, Option.elim_some] at h ⊢
    by_cases hneg : f.value T < 0
    · have hstar : T.toInt (f.value T) = f.value T := by
        cases f with
        | digits ds => exact absurd (Int.natCast_nonneg (decimal 0 ds)) (Int.not_le.mpr hneg)
        | star w => exact T.toInt_toInt w
      simp [hneg, hstar]
    · rw [if_neg hneg] at h ⊢
      have hle := h _ rfl
      have hint : T.toInt (f.value T) = f.value T := T.toInt_of_range (by omega) (by omega)
      refine ⟨by simp, fun p hp => ?_⟩
      cases hp
      omega

def ansiPlaces (T : CTypes) (s : IntSpec) (v : ℤ) : ℕ :=
  if s.ZeroFlag T then max (s.minWidth T - ((s.ansiSign T v).length + (s.ansiPrefix T v).length)) 1
  else (s.minDigits T).getD 1

theorem ansiText_eq : s.ansiText T v = s.ansiPrefix T v ++
    ((numeral s.conv.base (s.ansiValue T v).natAbs).map s.conv.digit).leftpad (s.ansiPlaces T v) (ch '0') := by
  unfold ansiText ansiDigits ansiPlaces
  split_ifs with hz
  · rw [hz.2.2, leftpad_leftpad]
    rfl
  · rfl

theorem ansiPlaces_le (hfit : (s.ansiText T v).length ≤ frmwriBufsize - 1) : ∀ p ∈ s.minDigits T, p ≤ T.intMax := by
  intro p hp
  have hmax := T.intMax_ge
  have hnz : ¬s.ZeroFlag T := fun h => by simp [h.2.2] at hp
  have hplaces : s.ansiPlaces T v = p := by
    rw [ansiPlaces, if_neg hnz, Option.mem_def.mp hp]
    rfl
  rw [ansiText_eq, hplaces, length_append, length_leftpad] at hfit
  unfold frmwriBufsize at hfit
  omega

/-- The digits the code pads to. -/
theorem parsed_places (hprec : ∀ p ∈ s.minDigits T, p ≤ T.intMax) (hw : s.minWidth T ≤ T.intMax) (f : PlusSpaceFlag) :
    (s.parsed T).places f = if s.ZeroFlag T then max (s.minWidth T - f.places) 1 else (s.minDigits T).getD 1 := by
  obtain ⟨hnone, hsome⟩ := codePrecision_spec hprec
  have hint : T.toInt (s.minWidth T) = s.minWidth T := T.toInt_of_range (by omega) (by omega)
  have hflag : (s.parsed T).flags.zeropad = true ↔ .zero ∈ s.flags ∧ ¬s.Left T := by simp [parsed]
  have hp : (s.parsed T).precision = s.codePrecision T := rfl
  have hw : (s.parsed T).fieldWidth = s.minWidth T := hint
  simp only [FormatSpec.places, hflag, hp, hw]
  cases hm : s.minDigits T with
  | none =>
    have hneg := hnone hm
    by_cases hz : .zero ∈ s.flags ∧ ¬s.Left T
    · have hflag : s.ZeroFlag T := ⟨hz.1, hz.2, hm⟩
      simp only [hneg, hz, hflag, not_false_eq_true, and_self, if_true, hneg.ne, if_false]
      omega
    · have hflag : ¬s.ZeroFlag T := fun h => hz ⟨h.1, h.2.1⟩
      simp only [hz, hflag, and_false, if_false, hneg.ne, Option.getD_none]
      omega
  | some p =>
    have hflag : ¬s.ZeroFlag T := fun h => by simp [h.2.2] at hm
    have hnn : ¬(p : ℤ) < 0 := by omega
    simp only [hnn, hflag, false_and, if_false, Option.getD_some, hsome p hm]
    split <;> omega

/-- The texts are the same where the prefix and the flag `0` do not meet. -/
theorem codeText_eq (hfit : (s.ansiText T v).length ≤ frmwriBufsize - 1) (hw : s.minWidth T ≤ T.intMax)
    (hval : s.codeValue T v = s.ansiValue T v) (hsign : (s.codeSign T v).chars = s.ansiSign T v)
    (hzero : s.conv.Hex → .alternate ∈ s.flags → s.ZeroFlag T → s.ansiValue T v ≠ 0 →
      s.minWidth T ≤ (numeral 16 (s.ansiValue T v).natAbs).length) :
    s.codeText T v = s.ansiText T v := by
  have hlen : (s.codeSign T v).places = (s.ansiSign T v).length := by rw [← hsign, PlusSpaceFlag.length_chars]
  rw [ansiText_eq, codeText, hval, parsed_places (ansiPlaces_le hfit) hw, hlen, ansiPlaces]
  change s.ansiPrefix T v ++ _ = _
  by_cases hz : s.ZeroFlag T
  · rw [if_pos hz, if_pos hz]
    by_cases hpre : .alternate ∈ s.flags ∧ s.conv.Hex ∧ s.ansiValue T v ≠ 0
    · -- the digits fill the width, and neither side pads them
      have hwidth := hzero hpre.2.1 hpre.1 hz hpre.2.2
      have hbase : s.conv.base = 16 := if_pos hpre.2.1
      have hpos : 1 ≤ (numeral 16 (s.ansiValue T v).natAbs).length := by
        simp [numeral_pos (by decide : 1 < 16) (Int.natAbs_ne_zero.mpr hpre.2.2)]
      rw [hbase, leftpad_of_le, leftpad_of_le] <;> simp only [length_map] <;> omega
    · have hnil : s.ansiPrefix T v = [] := if_neg hpre
      rw [hnil, length_nil, Nat.add_zero]
  · rw [if_neg hz, if_neg hz]

/-! ## What the output tells -/

theorem ne_sign_of_mem {n k : ℕ} {c : UInt8} (hc : c ∈ ((numeral s.conv.base n).map s.conv.digit).leftpad k (ch '0')) :
    c ≠ ch '+' ∧ c ≠ ch '-' := by
  have hzero : ch '0' ≠ ch '+' ∧ ch '0' ≠ ch '-' := by decide
  have hdigit : ∀ d < 16, s.conv.digit d ≠ ch '+' ∧ s.conv.digit d ≠ ch '-' := by cases s.conv <;> decide
  have hbase : s.conv.base ≤ 16 := by
    unfold IntConv.base
    split <;> decide
  simp only [leftpad, mem_append, mem_replicate, mem_map] at hc
  obtain ⟨-, rfl⟩ | ⟨d, hd, rfl⟩ := hc
  · exact hzero
  · exact hdigit d (Nat.lt_of_lt_of_le (numeral_lt s.one_lt_base hd) hbase)

theorem ansiText_ne_sign {c : UInt8} (hc : c ∈ s.ansiText T v) : c ≠ ch '+' ∧ c ≠ ch '-' := by
  rw [ansiText_eq, mem_append] at hc
  obtain hc | hc := hc
  · have hchar : s.conv.char ≠ ch '+' ∧ s.conv.char ≠ ch '-' := by cases s.conv <;> decide
    have hzero : ch '0' ≠ ch '+' ∧ ch '0' ≠ ch '-' := by decide
    unfold ansiPrefix at hc
    split at hc <;> simp at hc
    obtain rfl | rfl := hc
    · exact hzero
    · exact hchar
  · exact ne_sign_of_mem hc

theorem filter_field {left : Bool} {width : ℕ} {sign text : List UInt8} (isDigit : UInt8 → Bool)
    (hblank : isDigit (ch ' ') = false) (hsign : sign.all (fun c => !isDigit c) = true)
      (htext : ∀ c ∈ text, isDigit c = true) :
    (field left width sign text).filter isDigit = text := by
  have hs : sign.filter isDigit = [] := filter_eq_nil_iff.mpr fun c hc => by simpa using all_eq_true.mp hsign c hc
  have ht : text.filter isDigit = text := filter_eq_self.mpr htext
  have hb (n : ℕ) : (replicate n (ch ' ')).filter isDigit = [] :=
    filter_eq_nil_iff.mpr fun c hc => by simp [eq_of_mem_replicate hc, hblank]
  cases left <;> simp [field, hs, ht, hb]

section Output

variable (hout : field (s.Left T) (s.minWidth T) (s.codeSign T v).chars (s.codeText T v) = s.ansi T v)

include hout

/-- Equal outputs have equal signs. -/
theorem neg_iff_of_output (hs : s.conv.Signed) : s.codeValue T v < 0 ↔ s.ansiValue T v < 0 := by
  have hblank : ch '-' ≠ ch ' ' := by decide
  have hplus : ch '-' ≠ ch '+' := by decide
  have hcode : ch '-' ∉ s.codeText T v := by
    have hhex : ¬s.conv.Hex := fun h => hex_unsigned h hs
    rw [codeText, if_neg fun h => hhex h.2.1]
    exact fun h => (ne_sign_of_mem h).2 rfl
  have hansi : ch '-' ∉ s.ansiText T v := fun h => (ansiText_ne_sign h).2 rfl
  have hmem : ch '-' ∈ (s.codeSign T v).chars ↔ ch '-' ∈ s.ansiSign T v := by
    have h := congrArg (ch '-' ∈ ·) hout
    simpa only [ansi, mem_field hblank, hcode, hansi, or_false, eq_iff_iff] using h
  have hl : ch '-' ∈ (s.codeSign T v).chars ↔ s.codeValue T v < 0 := by
    unfold codeSign
    split_ifs <;> simp_all [PlusSpaceFlag.chars]
  have hr : ch '-' ∈ s.ansiSign T v ↔ s.ansiValue T v < 0 := by
    unfold ansiSign
    split_ifs <;> simp_all
  rw [← hl, ← hr]
  exact hmem

theorem space_of_output (hs : s.conv.Signed) (hsp : .space ∈ s.flags) (hp : .plus ∉ s.flags) : s.ansiValue T v < 0 := by
  by_contra hneg
  have hblank : ch '+' ≠ ch ' ' := by decide
  have hsign : s.ansiSign T v = [ch ' '] := by simp [ansiSign, hs, hneg, hp, hsp]
  have hcode : s.codeSign T v = .plus := by
    have := (neg_iff_of_output hout hs).not.mpr hneg
    simp [codeSign, hs, this, hsp]
  have hmem : ch '+' ∈ s.ansi T v := by
    rw [← hout, mem_field hblank, hcode]
    exact .inl (by decide)
  rw [ansi, mem_field hblank, hsign] at hmem
  obtain h | h := hmem
  · exact absurd h (by decide)
  · exact (ansiText_ne_sign h).1 rfl

/-- Equal outputs have equal values. -/
theorem value_of_output (hs : s.conv.Signed) : s.codeValue T v = s.ansiValue T v := by
  have hhex : ¬s.conv.Hex := fun h => hex_unsigned h hs
  have hbase : s.conv.base = 10 := if_neg hhex
  have hdigit : ∀ d < 10, (s.conv.digit d).toNat - 48 = d ∧ 48 ≤ (s.conv.digit d).toNat := by
    obtain h | h := hs <;> (rw [h]; decide)
  have hcode : s.codeText T v = ((numeral 10 (s.codeValue T v).natAbs).map s.conv.digit).leftpad
      ((s.parsed T).places (s.codeSign T v)) (s.conv.digit 0) := by
    rw [codeText, if_neg fun h => hhex h.2.1, hbase]
    rfl
  have hansi : s.ansiText T v = ((numeral 10 (s.ansiValue T v).natAbs).map s.conv.digit).leftpad (s.ansiPlaces T v)
      (s.conv.digit 0) := by
    rw [ansiText_eq, ansiPrefix, if_neg fun h => hhex h.2.1, hbase]
    rfl
  have hdigits {k n : ℕ} {c : UInt8} (hc : c ∈ ((numeral 10 n).map s.conv.digit).leftpad k (s.conv.digit 0)) :
      decide (48 ≤ c.toNat) = true := by
    rw [← map_leftpad] at hc
    obtain ⟨d, hd, rfl⟩ := mem_map.mp hc
    exact decide_eq_true (hdigit d (leftpad_numeral_lt (by decide) hd)).2
  have hsign (f : PlusSpaceFlag) : f.chars.all (fun c => !decide (48 ≤ c.toNat)) = true := by cases f <;> decide
  have hsign' : (s.ansiSign T v).all (fun c => !decide (48 ≤ c.toNat)) = true := by
    unfold ansiSign
    split_ifs <;> decide
  have hall : ∀ c ∈ s.codeText T v, decide (48 ≤ c.toNat) = true := by
    rw [hcode]
    exact fun c hc => hdigits hc
  have hall' : ∀ c ∈ s.ansiText T v, decide (48 ≤ c.toNat) = true := by
    rw [hansi]
    exact fun c hc => hdigits hc
  have hblank : decide (48 ≤ (ch ' ').toNat) = false := by decide
  have hfilter := congrArg (filter fun c => decide (48 ≤ c.toNat)) hout
  rw [ansi, filter_field _ hblank (hsign _) hall, filter_field _ hblank hsign' hall', hcode, hansi] at hfilter
  have habs : (s.codeValue T v).natAbs = (s.ansiValue T v).natAbs :=
    leftpad_map_numeral_inj s.conv.digit (fun c => c.toNat - 48) (by decide) (fun d hd => (hdigit d hd).1) hfilter
  have hneg := neg_iff_of_output hout hs
  omega

/-- The length of the output tells whether the prefix and the flag `0` have met. -/
theorem zero_of_output (hfit : (s.ansiText T v).length ≤ frmwriBufsize - 1) (hw : s.minWidth T ≤ T.intMax)
    (hx : s.conv.Hex) (ha : .alternate ∈ s.flags) (hz : s.ZeroFlag T) (hne : s.ansiValue T v ≠ 0) :
    s.minWidth T ≤ (numeral 16 (s.ansiValue T v).natAbs).length := by
  have hs := hex_unsigned hx
  have hval : s.codeValue T v = s.ansiValue T v := codeValue_of_unsigned hs
  have hbase : s.conv.base = 16 := if_pos hx
  have hsign : s.codeSign T v = .none := if_pos hs
  have hsign' : s.ansiSign T v = [] := if_pos hs
  have hpre : s.ansiPrefix T v = [ch '0', s.conv.char] := if_pos ⟨ha, hx, hne⟩
  have hcode : (s.codeText T v).length =
      2 + max (max (s.minWidth T) 1) (numeral 16 (s.ansiValue T v).natAbs).length := by
    rw [codeText, hval, if_pos ⟨ha, hx, hne⟩, parsed_places (ansiPlaces_le hfit) hw, if_pos hz, hsign, hbase,
      length_append, length_leftpad, length_map]
    rfl
  have hansi : (s.ansiText T v).length =
      2 + max (max (s.minWidth T - 2) 1) (numeral 16 (s.ansiValue T v).natAbs).length := by
    rw [ansiText_eq, ansiPlaces, if_pos hz, hpre, hsign', hbase, length_append, length_leftpad, length_map]
    rfl
  have hpos : 1 ≤ (numeral 16 (s.ansiValue T v).natAbs).length := by
    simp [numeral_pos (by decide : 1 < 16) (Int.natAbs_ne_zero.mpr hne)]
  have hlen := congrArg length hout
  rw [ansi, field_length, field_length, hcode, hansi, hsign, hsign'] at hlen
  simp only [PlusSpaceFlag.chars, length_nil, Nat.zero_add] at hlen
  omega

end Output

/-! ## The comparison -/

theorem ansiText_length_add (hfit : (s.ansiText T v).length ≤ frmwriBufsize - 1) (hw : s.minWidth T ≤ T.intMax) :
    (s.ansi T v).length ≤ T.intMax := by
  have hmax := T.intMax_ge
  have hsign : (s.ansiSign T v).length ≤ 1 := by
    unfold ansiSign
    split_ifs <;> simp
  unfold frmwriBufsize at hfit
  rw [ansi, field_length]
  omega

/-- Where the specification and the argument conform, the formatter has the text and the field of the standard. -/
theorem field_eq (hfit : (s.ansiText T v).length ≤ frmwriBufsize - 1) (h : s.Conforms T v) :
    s.codeText T v = s.ansiText T v ∧
      field (s.Left T) (T.toInt (s.minWidth T)).toNat (s.codeSign T v).chars (s.codeText T v) = s.ansi T v := by
  have hval := codeValue_eq h.short
  have hsign := codeSign_eq hval h.space
  have htext := codeText_eq hfit h.width hval hsign h.zero
  have hint : T.toInt (s.minWidth T) = s.minWidth T := T.toInt_of_range (by omega) (by have := h.width; omega)
  refine ⟨htext, ?_⟩
  rw [htext, hsign, hint, Int.toNat_natCast]
  rfl

/-- A field width beyond `int` does not come out. -/
theorem width_of_output {n : ℤ}
    (h : formattedWrite T s.format (s.args v) ⟨[], 0⟩ = some ⟨s.ansi T v, n⟩) : s.minWidth T ≤ T.intMax := by
  rw [formattedWrite_format] at h
  split_ifs at h with hfit
  have hout := congrArg (length ∘ Writer.out) (Option.some_inj.mp h)
  have hmax := T.intMax_ge
  have hint := T.toInt_range (s.minWidth T)
  have hsign : (s.codeSign T v).chars.length ≤ 1 := by
    rw [PlusSpaceFlag.length_chars]
    unfold PlusSpaceFlag.places
    split <;> decide
  simp only [Function.comp_apply, Writer.written, ansi, field_length] at hout
  unfold frmwriBufsize at hfit
  omega

end IntSpec

open IntSpec

/-- **Integer conversions**: the formatter writes what the standard prescribes and counts it just for the specifications
and arguments that conform. -/
theorem formatted_write_ansi_iff (T : CTypes) (s : IntSpec) (v : ℤ)
    (hfit : (s.ansiText T v).length ≤ frmwriBufsize - 1) :
    formattedWrite T s.format (s.args v) ⟨[], 0⟩ = some ⟨s.ansi T v, (s.ansi T v).length⟩ ↔ s.Conforms T v := by
  constructor
  · intro h
    have hw := width_of_output h
    have hint : T.toInt (s.minWidth T) = s.minWidth T := T.toInt_of_range (by omega) (by omega)
    rw [formattedWrite_format, hint] at h
    split_ifs at h
    have hout := congrArg Writer.out (Option.some_inj.mp h)
    refine ⟨hw, space_of_output hout, zero_of_output hout hfit hw, fun hs hm => ?_⟩
    simpa [codeValue, ansiValue, hs, hm] using (value_of_output hout hs).symm
  · intro h
    obtain ⟨htext, hfield⟩ := field_eq hfit h
    have hlen := ansiText_length_add hfit h.width
    rw [formattedWrite_format, hfield, htext, if_pos hfit, Writer.written, T.toInt_of_range (by omega) (by omega)]

/-- `%+06d` -/
def plusZeroSpec : IntSpec := ⟨[.plus, .zero], .digits [6], none, .none, .d, by simp⟩

theorem formatted_write_ansi_plus_zero : (plusZeroSpec.ansiText .arm32 42).length ≤ frmwriBufsize - 1 ∧
    (formattedWrite .arm32 plusZeroSpec.format (plusZeroSpec.args 42) ⟨[], 0⟩ =
      some ⟨plusZeroSpec.ansi .arm32 42, (plusZeroSpec.ansi .arm32 42).length⟩ ↔ plusZeroSpec.Conforms .arm32 42) :=
  ⟨by decide, formatted_write_ansi_iff .arm32 plusZeroSpec 42 (by decide)⟩

/-- `% d` -/
def spaceSpec : IntSpec := ⟨[.space], .digits [], none, .none, .d, by simp⟩

/-- `%#06x` -/
def prefixZeroSpec : IntSpec := ⟨[.alternate, .zero], .digits [6], none, .none, .x, by simp⟩

/-- `%hd` -/
def shortSpec : IntSpec := ⟨[], .digits [], none, .h, .d, by simp⟩

/-- **The three cases**: `% d` writes a plus sign, `%#06x` eight characters, and `%hd` a number that is no `short`. -/
theorem formatted_write_ansi_fails :
    (formattedWrite .arm32 spaceSpec.format (spaceSpec.args 5) ⟨[], 0⟩ = some ⟨['+', '5'].map ch, 2⟩ ∧
      spaceSpec.ansi .arm32 5 = [' ', '5'].map ch) ∧
    (formattedWrite .arm32 prefixZeroSpec.format (prefixZeroSpec.args 255) ⟨[], 0⟩ =
        some ⟨['0', 'x', '0', '0', '0', '0', 'f', 'f'].map ch, 8⟩ ∧
      prefixZeroSpec.ansi .arm32 255 = ['0', 'x', '0', '0', 'f', 'f'].map ch) ∧
    formattedWrite .arm32 shortSpec.format (shortSpec.args 70000) ⟨[], 0⟩ =
        some ⟨['7', '0', '0', '0', '0'].map ch, 5⟩ ∧
      shortSpec.ansi .arm32 70000 = ['4', '4', '6', '4'].map ch := by
  decide +kernel

end Bertos
