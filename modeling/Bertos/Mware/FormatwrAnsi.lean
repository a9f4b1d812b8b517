import Bertos.Mware.Formatwr

/-!
# Integer conversions and the standard

`IntSpec` is an integer conversion as it is written in a format, and `IntSpec.ansi` the text that the ANSI C standard
prescribes for an argument. The full formatter writes this text but for three cases, which `IntSpec.Conforms` rules out
next to widths beyond `int`: a space flag (a plus sign comes out), the flags `#` and `0` together (the prefix comes on
top of the width), and `h` with an argument that is no `short`.
-/

namespace Bertos

open List Option

/-! ## Specifications -/

inductive FlagChar where
  | minus
  | plus
  | space
  | alternate
  | zero
  deriving DecidableEq

def FlagChar.char : FlagChar → UInt8
  | minus => ch '-'
  | plus => ch '+'
  | space => ch ' '
  | alternate => ch '#'
  | zero => ch '0'

/-- A width or a precision: in digits, or as a star that stands for an argument. -/
inductive FieldText where
  | digits (ds : List (Fin 10))
  | star (v : ℤ)

/-- The number that decimal digits stand for, behind the digits of `n`. -/
def decimal (n : ℕ) (ds : List (Fin 10)) : ℕ := ds.foldl (fun n d => n * 10 + d.val) n

def digitByte (d : Fin 10) : UInt8 := UInt8.ofNat (48 + d.val)

namespace FieldText

def chars : FieldText → List UInt8
  | digits ds => ds.map digitByte
  | star _ => [ch '*']

def args : FieldText → List Arg
  | digits _ => []
  | star v => [.num v]

/-- The number that is written, or the value of the argument. -/
def value (T : CTypes) : FieldText → ℤ
  | digits ds => decimal 0 ds
  | star v => T.toInt v

end FieldText

inductive IntModifier where
  | none
  | l
  | h
  deriving DecidableEq

def IntModifier.chars : IntModifier → List UInt8
  | none => []
  | l => [ch 'l']
  | h => [ch 'h']

inductive IntConv where
  | d
  | i
  | u
  | x
  | X
  deriving DecidableEq

namespace IntConv

def char : IntConv → UInt8
  | d => ch 'd'
  | i => ch 'i'
  | u => ch 'u'
  | x => ch 'x'
  | X => ch 'X'

def Signed (c : IntConv) : Prop := c = d ∨ c = i

instance (c : IntConv) : Decidable c.Signed := inferInstanceAs (Decidable (_ ∨ _))

/-- The conversion to hexadecimal digits. -/
def Hex (c : IntConv) : Prop := c = x ∨ c = X

instance (c : IntConv) : Decidable c.Hex := inferInstanceAs (Decidable (_ ∨ _))

def base (c : IntConv) : ℕ := if c.Hex then 16 else 10

/-- A digit: `abcdef` for `x`, `ABCDEF` for `X`. -/
def digit (c : IntConv) (n : ℕ) : UInt8 :=
  if n < 10 then UInt8.ofNat (48 + n) else UInt8.ofNat ((if c = x then 97 else 65) + (n - 10))

end IntConv

/-- The specification of an integer conversion. A width does not start with a zero, which is a flag. -/
structure IntSpec where
  flags : List FlagChar
  width : FieldText
  precision : Option FieldText
  modifier : IntModifier
  conv : IntConv
  width_head : ∀ ds, width = .digits ds → ds.head? ≠ some 0

namespace IntSpec

variable (s : IntSpec)

section Text

variable (rest : List UInt8)

/-- The modifier and the character of the conversion, with the format behind it. -/
def tailChars : List UInt8 := s.modifier.chars ++ s.conv.char :: rest

def precisionChars : List UInt8 := (s.precision.elim [] fun p => ch '.' :: p.chars) ++ s.tailChars rest

/-- What stands behind the `%`. -/
def chars : List UInt8 := s.flags.map FlagChar.char ++ (s.width.chars ++ s.precisionChars rest)

/-- The arguments: the ones for the stars, the number to convert, and the ones behind them. -/
def argsFor (v : ℤ) (ap : List Arg) : List Arg :=
  s.width.args ++ ((s.precision.elim [] FieldText.args) ++ .num v :: ap)

end Text

/-- The format that is the specification only. -/
def format : List UInt8 := ch '%' :: s.chars []

def args (v : ℤ) : List Arg := s.argsFor v []

/-! ## The standard -/

section Standard

variable (T : CTypes)

/-- The result is left-justified: there is a `-` flag, or the argument of the width is negative. -/
def Left : Prop := .minus ∈ s.flags ∨ s.width.value T < 0

instance : Decidable (s.Left T) := inferInstanceAs (Decidable (_ ∨ _))

def minWidth : ℕ := (s.width.value T).natAbs

/-- The precision; a negative argument is taken as if it were omitted. -/
def minDigits : Option ℕ := s.precision.bind fun p => if p.value T < 0 then none else some (p.value T).toNat

def ansiValue (v : ℤ) : ℤ :=
  if s.conv.Signed then
    match s.modifier with
    | .none => T.toInt v
    | .l => T.toLong v
    | .h => T.toShort (T.toInt v)
  else
    match s.modifier with
    | .none => T.toUInt v
    | .l => T.toULong v
    | .h => T.toUShort (T.toUInt v)

/-- The sign: a signed conversion begins with `-`, or with `+` or a blank if the flag says so. -/
def ansiSign (v : ℤ) : List UInt8 :=
  if ¬s.conv.Signed then []
  else if s.ansiValue T v < 0 then [ch '-']
  else if .plus ∈ s.flags then [ch '+']
  else if .space ∈ s.flags then [ch ' ']
  else []

/-- A nonzero result of `x` and `X` has `0x` or `0X` in front under the flag `#`. -/
def ansiPrefix (v : ℤ) : List UInt8 :=
  if .alternate ∈ s.flags ∧ s.conv.Hex ∧ s.ansiValue T v ≠ 0 then [ch '0', s.conv.char] else []

/-- The digits, at least as many as the precision says, which is 1 by default. -/
def ansiDigits (v : ℤ) : List UInt8 :=
  ((numeral s.conv.base (s.ansiValue T v).natAbs).map s.conv.digit).leftpad ((s.minDigits T).getD 1) (ch '0')

/-- The flag `0` counts without the flag `-` and without a precision. -/
def ZeroFlag : Prop := .zero ∈ s.flags ∧ ¬s.Left T ∧ s.minDigits T = none

instance : Decidable (s.ZeroFlag T) := inferInstanceAs (Decidable (_ ∧ _))

/-- The prefix and the digits; under the flag `0`, zeros between them pad the result to the field width. -/
def ansiText (v : ℤ) : List UInt8 :=
  if s.ZeroFlag T then
    s.ansiPrefix T v ++
      (s.ansiDigits T v).leftpad (s.minWidth T - ((s.ansiSign T v).length + (s.ansiPrefix T v).length)) (ch '0')
  else s.ansiPrefix T v ++ s.ansiDigits T v

def ansi (v : ℤ) : List UInt8 := field (s.Left T) (s.minWidth T) (s.ansiSign T v) (s.ansiText T v)

/-- The cases in which the formatter follows the standard. -/
structure Conforms (v : ℤ) : Prop where
  /-- The field width is an `int`. -/
  width : s.minWidth T ≤ T.intMax
  /-- No blank is to be written as a sign. -/
  space : s.conv.Signed → .space ∈ s.flags → .plus ∉ s.flags → s.ansiValue T v < 0
  /-- The prefix and the flag `0` do not meet in front of a number that is to be padded. -/
  zero : s.conv.Hex → .alternate ∈ s.flags → s.ZeroFlag T → s.ansiValue T v ≠ 0 →
    s.minWidth T ≤ (numeral 16 (s.ansiValue T v).natAbs).length
  /-- The argument of a signed conversion with `h` is in the range of `short`. -/
  short : s.conv.Signed → s.modifier = .h → T.toShort (T.toInt v) = T.toInt v

end Standard

end IntSpec

/-! ## The specification as the formatter reads it -/

/-- What a flag does. -/
def Flags.set (fl : Flags) : FlagChar → Flags
  | .minus => { fl with leftAdjust := true }
  | .plus => { fl with plusSpaceFlag := .plus }
  | .space => if fl.plusSpaceFlag = .none then { fl with plusSpaceFlag := .plus } else fl
  | .alternate => { fl with alternateFlag := true }
  | .zero => { fl with zeropad := true }

/-- The flags are read in any order, up to the first other character. -/
theorem readFlags_chars (fl : Flags) (fs : List FlagChar) {rest : List UInt8}
    (hrest : ∀ f : FlagChar, rest.head? ≠ some f.char) :
    readFlags fl (fs.map FlagChar.char ++ rest) = (fs.foldl Flags.set fl, rest) := by
  induction fs generalizing fl with
  | nil =>
    cases rest with
    | nil => rfl
    | cons c rest =>
      have hc (f : FlagChar) : c ≠ f.char := fun h => hrest f (congrArg some h)
      have hs := hc .space
      have hp := hc .plus
      have hm := hc .minus
      have ha := hc .alternate
      have hz := hc .zero
      simp_all [readFlags, FlagChar.char]
  | cons f fs ih => cases f <;> exact ih _

theorem foldl_set (fl : Flags) (fs : List FlagChar) (h : fl.plusSpaceFlag ≠ .minus) :
    fs.foldl Flags.set fl =
      ⟨fl.leftAdjust || decide (.minus ∈ fs), fl.alternateFlag || decide (.alternate ∈ fs),
        if fl.plusSpaceFlag = .plus ∨ .plus ∈ fs ∨ .space ∈ fs then .plus else .none,
        fl.zeropad || decide (.zero ∈ fs)⟩ := by
  induction fs generalizing fl with
  | nil =>
    obtain ⟨l, a, p, z⟩ := fl
    cases p <;> simp_all
  | cons f fs ih =>
    obtain ⟨l, a, p, z⟩ := fl
    rw [foldl_cons, ih _ (by cases f <;> cases p <;> simp_all [Flags.set])]
    cases f <;> cases p <;> simp_all [Flags.set]

theorem FlagChar.char_mem (f : FlagChar) : f.char ∈ ['-', '+', ' ', '#', '0'].map ch := by cases f <;> decide

theorem digitByte_digit : ∀ d : Fin 10, (ch '0' ≤ digitByte d ∧ digitByte d ≤ ch '9') ∧
    ((digitByte d).toNat - (ch '0').toNat : ℤ) = d.val := by decide

/-- A digit is not a star nor a percent sign, and a digit but zero not a flag. -/
theorem digitByte_ne : ∀ d : Fin 10, digitByte d ≠ ch '*' ∧ digitByte d ≠ ch '%' ∧
    (d ≠ 0 → digitByte d ∉ ['-', '+', ' ', '#', '0'].map ch) := by decide

/-- The digits make the number that stands there, as far as it fits in an `int`. -/
theorem readNumber_digits (T : CTypes) (n : ℕ) (ds : List (Fin 10)) {rest : List UInt8}
    (hrest : ∀ c ∈ rest.head?, ¬(ch '0' ≤ c ∧ c ≤ ch '9')) :
    readNumber T (T.toInt n) (ds.map digitByte ++ rest) = (T.toInt (decimal n ds), rest) := by
  induction ds generalizing n with
  | nil =>
    cases rest with
    | nil => rfl
    | cons c rest => simp [readNumber, decimal, hrest c rfl]
  | cons d ds ih =>
    have hstep : T.toInt (T.toInt n * 10 + d.val) = T.toInt ((n * 10 + d.val : ℕ) : ℤ) := by
      unfold CTypes.toInt
      rw [← toSigned_add_left, toSigned_mul_left, toSigned_add_left]
      norm_cast
    rw [map_cons, cons_append, readNumber, if_pos (digitByte_digit d).1, (digitByte_digit d).2, hstep, ih]
    rfl

namespace IntSpec

variable (T : CTypes) (s : IntSpec) (v : ℤ)

/-- The first character behind a width or a precision: no digit, no star and no flag. -/
def Stop (c : UInt8) : Prop :=
  ¬(ch '0' ≤ c ∧ c ≤ ch '9') ∧ c ≠ ch '*' ∧ c ≠ ch '%' ∧ c ∉ ['-', '+', ' ', '#', '0'].map ch

instance (c : UInt8) : Decidable (Stop c) := inferInstanceAs (Decidable (_ ∧ _))

theorem tailChars_head (rest : List UInt8) {c : UInt8} (h : c ∈ (s.tailChars rest).head?) : c ≠ ch '.' ∧ Stop c := by
  have hmem : c ∈ ['l', 'h', 'd', 'i', 'u', 'x', 'X'].map ch := by
    obtain ⟨fs, w, p, m, k, hw⟩ := s
    cases m <;> cases k <;> simp_all [tailChars, IntModifier.chars, IntConv.char]
  have hall : (['l', 'h', 'd', 'i', 'u', 'x', 'X'].map ch).all (fun c => decide (c ≠ ch '.' ∧ Stop c)) =
    true := by decide
  exact of_decide_eq_true (all_eq_true.mp hall c hmem)

theorem precisionChars_head (rest : List UInt8) {c : UInt8} (h : c ∈ (s.precisionChars rest).head?) : Stop c := by
  cases hp : s.precision with
  | none =>
    rw [precisionChars, hp] at h
    exact (s.tailChars_head rest h).2
  | some p =>
    have hdot : Stop (ch '.') := by decide
    rw [precisionChars, hp] at h
    simp_all

theorem readModifier_tailChars (rest : List UInt8) :
    readModifier T (s.tailChars rest) = (decide (s.modifier = .l), decide (s.modifier = .h), s.conv.char :: rest) := by
  obtain ⟨fs, w, p, m, k, hw⟩ := s
  cases m <;> cases k <;> rfl

def codePrecision : ℤ := s.precision.elim (-1) fun p => T.toInt (p.value T)

/-- The precision is read as it was written, from the text or from an argument. -/
theorem readPrecision_chars (rest : List UInt8) (ap : List Arg) :
    readPrecision T (s.precisionChars rest) (s.precision.elim [] FieldText.args ++ ap) =
      some (s.codePrecision T, s.tailChars rest, ap) := by
  cases hp : s.precision with
  | none =>
    have hdot : (s.tailChars rest).head? ≠ some (ch '.') := fun h => (s.tailChars_head rest h).1 rfl
    simp [precisionChars, readPrecision, codePrecision, hp, hdot]
  | some p =>
    cases p with
    | star v =>
      simp [precisionChars, readPrecision, codePrecision, hp, FieldText.chars, FieldText.args, FieldText.value, vaNum,
        T.toInt_toInt]
    | digits ds =>
      have hstar : (ds.map digitByte ++ s.tailChars rest).head? ≠ some (ch '*') := by
        cases ds with
        | nil => exact fun h => (s.tailChars_head rest h).2.2.1 rfl
        | cons d ds => exact fun h => (digitByte_ne d).1 (some_inj.mp h)
      have hread := readNumber_digits T 0 ds fun c h => (s.tailChars_head rest h).2.1
      rw [Nat.cast_zero, T.toInt_zero] at hread
      simp only [precisionChars, readPrecision, codePrecision, hp, FieldText.chars, FieldText.args, FieldText.value,
        elim_some, cons_append, head?_cons, tail_cons, if_true, if_neg hstar, hread, nil_append]

/-- The characters behind the flags do not start with another flag, nor does a width in digits with a star. -/
theorem width_chars_head (rest : List UInt8) : (∀ f :
    FlagChar, (s.width.chars ++ s.precisionChars rest).head? ≠ some f.char) ∧
    (s.width.chars ++ s.precisionChars rest).head? ≠ some (ch '%') ∧
    ∀ ds, s.width = .digits ds → (s.width.chars ++ s.precisionChars rest).head? ≠ some (ch '*') := by
  cases hw : s.width with
  | star v =>
    have hstar : ch '*' ∉ ['-', '+', ' ', '#', '0'].map ch := by decide
    exact ⟨fun f h => hstar (some_inj.mp h ▸ f.char_mem), by simp [FieldText.chars, ch]; decide, fun ds h => by cases h⟩
  | digits ds =>
    cases ds with
    | nil =>
      exact ⟨fun f h => (s.precisionChars_head rest h).2.2.2 f.char_mem,
        fun h => (s.precisionChars_head rest h).2.2.1 rfl, fun _ _ h => (s.precisionChars_head rest h).2.1 rfl⟩
    | cons d ds =>
      have hd : d ≠ 0 := fun h => s.width_head _ hw (by simp [h])
      obtain ⟨hstar, hpercent, hflag⟩ := digitByte_ne d
      exact ⟨fun f h => hflag hd (some_inj.mp h ▸ f.char_mem), fun h => hpercent (some_inj.mp h),
        fun _ _ h => hstar (some_inj.mp h)⟩

theorem chars_head (rest : List UInt8) : (s.chars rest).head? ≠ some (ch '%') := by
  cases hf : s.flags with
  | nil =>
    rw [chars, hf]
    exact (s.width_chars_head rest).2.1
  | cons f fs =>
    have hpercent : ch '%' ∉ ['-', '+', ' ', '#', '0'].map ch := by decide
    rw [chars, hf]
    exact fun h => hpercent (some_inj.mp h ▸ f.char_mem)

/-- The width is read as it was written, a negative one as the flag `-` and its absolute value. -/
theorem readWidth_chars (rest : List UInt8) (fl : Flags) (ap : List Arg) :
    readWidth T fl (s.width.chars ++ s.precisionChars rest) (s.width.args ++ ap) =
      some ({ fl with leftAdjust := fl.leftAdjust || decide (s.width.value T < 0) }, T.toInt (s.minWidth T),
        s.precisionChars rest, ap) := by
  cases hw : s.width with
  | star v =>
    by_cases hneg : T.toInt v < 0
    · have habs : (((T.toInt v).natAbs : ℕ) : ℤ) = -T.toInt v := by omega
      simp [readWidth, FieldText.chars, FieldText.args, FieldText.value, minWidth, vaNum, hw, hneg, habs]
    · have habs : (((T.toInt v).natAbs : ℕ) : ℤ) = T.toInt v := by omega
      simp [readWidth, FieldText.chars, FieldText.args, FieldText.value, minWidth, vaNum, hw, hneg, habs, T.toInt_toInt]
  | digits ds =>
    have hread := readNumber_digits T 0 ds fun c h => (s.precisionChars_head rest h).1
    rw [Nat.cast_zero, T.toInt_zero] at hread
    have hne := (s.width_chars_head rest).2.2 ds hw
    rw [hw] at hne
    have hnn : ¬(decimal 0 ds : ℤ) < 0 := by omega
    simp only [FieldText.chars] at hne
    simp only [readWidth, FieldText.chars, FieldText.args, FieldText.value, minWidth, hw, if_neg hne, hread, hnn,
      decide_false, Bool.or_false, nil_append, Int.natAbs_natCast]

/-- The specification as the formatter has it. -/
def parsed : FormatSpec :=
  ⟨⟨s.Left T, decide (.alternate ∈ s.flags), if .plus ∈ s.flags ∨ .space ∈ s.flags then .plus else .none,
    decide (.zero ∈ s.flags) && !decide (s.Left T)⟩, T.toInt (s.minWidth T), s.codePrecision T,
    decide (s.modifier = .l), decide (s.modifier = .h)⟩

theorem readSpec_chars (rest : List UInt8) (ap : List Arg) :
    readSpec T (s.chars rest) (s.argsFor v ap) = some (s.parsed T, s.conv.char :: rest, .num v :: ap) := by
  unfold readSpec chars argsFor
  rw [readFlags_chars _ _ (s.width_chars_head rest).1, foldl_set _ _ (by decide), readWidth_chars]
  simp only [bind_some, readPrecision_chars, map_some, readModifier_tailChars]
  have hleft : decide (s.Left T) = (decide (.minus ∈ s.flags) || decide (s.width.value T < 0)) := Bool.decide_or _ _
  simp [parsed, Flags.clear, hleft]

/-! ## The text as the formatter writes it -/

/-- The number as the formatter has it: the modifier `h` of a signed conversion counts for nothing. -/
def codeValue : ℤ :=
  if s.conv.Signed then if s.modifier = .l then T.toLong v else T.toInt v else s.ansiValue T v

def codeSign : PlusSpaceFlag :=
  if ¬s.conv.Signed then .none
  else if s.codeValue T v < 0 then .minus
  else if .plus ∈ s.flags ∨ .space ∈ s.flags then .plus
  else .none

def codeText : List UInt8 :=
  (if .alternate ∈ s.flags ∧ s.conv.Hex ∧ s.codeValue T v ≠ 0 then [ch '0', s.conv.char] else []) ++
    ((numeral s.conv.base (s.codeValue T v).natAbs).map s.conv.digit).leftpad
      ((s.parsed T).places (s.codeSign T v)) (ch '0')

theorem one_lt_base : 1 < s.conv.base := by
  unfold IntConv.base
  split <;> decide

section
variable {hex : ℕ → UInt8} (hhex : ∀ d < s.conv.base, hex d = s.conv.digit d)
include hhex

theorem map_digit (n : ℕ) : (numeral s.conv.base n).map hex = (numeral s.conv.base n).map s.conv.digit :=
  map_congr_left fun d hd => hhex d (numeral_lt s.one_lt_base hd)

theorem integralConversion_codeText :
    integralConversion (s.parsed T) hex s.conv.base s.conv.char (s.codeSign T v) (s.codeValue T v).natAbs =
      if (s.codeText T v).length ≤ frmwriBufsize - 1 then some ⟨s.codeText T v, s.codeSign T v⟩ else none := by
  have hzero : hex 0 = ch '0' := (hhex 0 (Nat.lt_trans Nat.one_pos s.one_lt_base)).trans rfl
  have hchar : (s.conv.char = ch 'x' ∨ s.conv.char = ch 'X') ↔ s.conv.Hex := by
    cases s.conv <;> decide
  have hpre : ((s.parsed T).flags.alternateFlag = true ∧ (s.codeValue T v).natAbs ≠ 0 ∧
      (s.conv.char = ch 'x' ∨ s.conv.char = ch 'X')) ↔ (.alternate ∈ s.flags ∧ s.conv.Hex ∧ s.codeValue T v ≠ 0) := by
    simp only [parsed, decide_eq_true_eq, hchar, ne_eq, Int.natAbs_eq_zero]
    tauto
  simp only [integralConversion_eq _ hzero s.one_lt_base, hpre, s.map_digit hhex]
  rfl

end

theorem signedArg_parsed (hs : s.conv.Signed) :
    signedArg T (s.parsed T) v = T.toULong (s.codeValue T v) ∧ T.toLong (s.codeValue T v) = s.codeValue T v := by
  unfold signedArg codeValue
  by_cases hl : s.modifier = .l <;> simp [parsed, hs, hl, T.toLong_toInt, T.toLong_toLong]

/-- A signed conversion that fits the buffer, -/
theorem convert_signed (hs : s.conv.Signed) (ap : List Arg) : convert T (s.parsed T) s.conv.char (.num v :: ap) =
    if (s.codeText T v).length ≤ frmwriBufsize - 1 then some (⟨s.codeText T v, s.codeSign T v⟩, ap) else none := by
  have hconv (sp : FormatSpec) : convert T sp s.conv.char (.num v :: ap) =
      (if T.toLong (signedArg T sp v) < 0 then integralConversion sp upperHexTab 10 s.conv.char .minus
          (T.toULong (-T.toLong (signedArg T sp v)))
        else integralConversion sp upperHexTab 10 s.conv.char sp.flags.plusSpaceFlag (signedArg T sp v)).map
          (·, ap) := by
    obtain h | h := hs <;> (rw [h]; rfl)
  have hbase : s.conv.base = 10 ∧ ∀ d < 10, upperHexTab d = s.conv.digit d := by
    obtain h | h := hs <;> (rw [h]; decide)
  obtain ⟨harg, hlong⟩ := s.signedArg_parsed T v hs
  have hback : T.toLong (T.toULong (s.codeValue T v)) = s.codeValue T v := (toSigned_toUnsigned _ _).trans hlong
  obtain ⟨hlo, hhi⟩ := toSigned_range T.longBits_ne (s.codeValue T v)
  change toSigned T.longBits (s.codeValue T v) = s.codeValue T v at hlong
  rw [hlong] at hlo hhi
  have hmag := toUnsigned_magnitude T.longBits_ne hlo hhi
  have htext := s.integralConversion_codeText T v (by rw [hbase.1]; exact hbase.2)
  rw [hbase.1] at htext
  rw [hconv, harg, hback]
  by_cases hneg : s.codeValue T v < 0
  · have hsign : s.codeSign T v = .minus := by simp [codeSign, hs, hneg]
    rw [if_pos hneg] at hmag
    rw [if_pos hneg, CTypes.toULong, hmag, ← hsign, htext]
    split <;> rfl
  · have hsign : s.codeSign T v = (s.parsed T).flags.plusSpaceFlag := by simp [codeSign, hs, hneg, parsed]
    rw [if_neg hneg] at hmag
    rw [if_neg hneg, CTypes.toULong, hmag, ← hsign, htext]
    split <;> rfl

/-- and an unsigned one. -/
theorem convert_unsigned (hs : ¬s.conv.Signed) (ap : List Arg) : convert T (s.parsed T) s.conv.char (.num v :: ap) =
    if (s.codeText T v).length ≤ frmwriBufsize - 1 then some (⟨s.codeText T v, s.codeSign T v⟩, ap) else none := by
  have hconv (sp : FormatSpec) : convert T sp s.conv.char (.num v :: ap) =
      (integralConversion sp (if s.conv = .x then hexTab else upperHexTab) s.conv.base s.conv.char .none
        (if sp.lModifier then T.toULong v else if sp.hModifier then T.toUShort (T.toUInt v) else T.toUInt v)).map
          (·, ap) := by
    cases hc : s.conv <;> first | rfl | (rw [hc] at hs; exact absurd (by decide) hs)
  have hhex : ∀ d < s.conv.base, (if s.conv = .x then hexTab else upperHexTab) d = s.conv.digit d := by
    cases hc : s.conv <;> decide
  have hsign : s.codeSign T v = .none := by simp [codeSign, hs]
  have hval : (if (s.parsed T).lModifier then T.toULong v else if (s.parsed T).hModifier then T.toUShort (T.toUInt v)
      else T.toUInt v) = (s.codeValue T v).natAbs := by
    cases hm : s.modifier <;> simp [codeValue, ansiValue, hs, hm, parsed]
  have htext := s.integralConversion_codeText T v hhex
  rw [hsign] at htext
  rw [hconv, hval, htext, hsign]
  split <;> rfl

/-- **What the formatter does**: it writes the text in its field, if the text fits in the buffer. -/
theorem formattedWrite_chars (rest : List UInt8) (ap : List Arg) (out : List UInt8) :
    formattedWrite T (ch '%' :: s.chars rest) (s.argsFor v ap) (.written T.toInt out) =
      if (s.codeText T v).length ≤ frmwriBufsize - 1 then
        formattedWrite T rest ap (.written T.toInt
          (out ++ field (s.Left T) (T.toInt (s.minWidth T)).toNat (s.codeSign T v).chars (s.codeText T v)))
      else none := by
  have hconv : convert T (s.parsed T) s.conv.char (.num v :: ap) =
      if (s.codeText T v).length ≤ frmwriBufsize - 1 then some (⟨s.codeText T v, s.codeSign T v⟩, ap) else none := by
    by_cases hs : s.conv.Signed
    · exact s.convert_signed T v hs ap
    · exact s.convert_unsigned T v hs ap
  have hchar : s.conv.char ≠ 0 := by cases s.conv <;> decide
  have hread : readConversion T (s.chars rest) (s.argsFor v ap) =
      if (s.codeText T v).length ≤ frmwriBufsize - 1 then
        some (s.parsed T, ⟨s.codeText T v, s.codeSign T v⟩, rest, ap) else none := by
    simp only [readConversion, readSpec_chars, bind_some, headD_cons, hconv, hchar, if_false, tail_cons]
    split <;> rfl
  split_ifs at hread ⊢ with hfit
  · rw [formattedWrite_spec T (s.chars_head rest) hread]
    rfl
  · exact formattedWrite_none T (s.chars_head rest) hread _

theorem formattedWrite_format : formattedWrite T s.format (s.args v) ⟨[], 0⟩ =
    if (s.codeText T v).length ≤ frmwriBufsize - 1 then
      some (.written T.toInt (field (s.Left T) (T.toInt (s.minWidth T)).toNat (s.codeSign T v).chars (s.codeText T v)))
    else none := by
  have hstart : (⟨[], 0⟩ : Writer) = .written T.toInt [] := by simp [Writer.written, T.toInt_zero]
  rw [format, args, hstart, formattedWrite_chars, nil_append, formattedWrite]

end IntSpec

end Bertos
