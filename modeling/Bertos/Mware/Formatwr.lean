import Bertos.Lib.CTypes
import Bertos.Lib.Numerals

/-!
# The formatter (`mware/formatwr.c`)

`_formatted_write` in its full version. A format is the list of its characters, and what is left of it the pointer into
it; its end is the terminating NUL. The characters go to `put_one_char` one by one and are counted there.

The result is `none` where C gives the program no meaning (an argument that is missing or of the wrong kind), for a
number that does not fit in the buffer (the case of the `ASSERT`), and for floating-point conversions, which are not
modelled. Signed numbers that overflow wrap around.
-/

namespace Bertos

open Option

/-! ## Arguments and output -/

/-- An argument of the format: a number, or a pointer to a string. -/
inductive Arg where
  | num (v : ℤ)
  | str (s : Option (List UInt8))
  deriving DecidableEq

/-- `va_arg` for a number, not yet converted to the type it is read with. -/
def vaNum : List Arg → Option (ℤ × List Arg)
  | .num v :: ap => some (v, ap)
  | _ => none

/-- `va_arg` for a string. -/
def vaStr : List Arg → Option (Option (List UInt8) × List Arg)
  | .str s :: ap => some (s, ap)
  | _ => none

/-- A character as it stands in a text. -/
def ch (c : Char) : UInt8 := c.toUInt8

/-- What `put_one_char` has received, and `nr_of_chars`. -/
structure Writer where
  out : List UInt8
  nrOfChars : ℤ
  deriving DecidableEq

namespace Writer

variable (wrap : ℤ → ℤ)

/-- `put_one_char` and `nr_of_chars++`; `wrap` is the type of the counter. -/
def put (c : UInt8) (w : Writer) : Writer := ⟨w.out ++ [c], wrap (w.nrOfChars + 1)⟩

/-- A loop over `put_one_char`. -/
def puts (cs : List UInt8) (w : Writer) : Writer := cs.foldl (fun w c => w.put wrap c) w

end Writer

/-! ## The specification -/

/-- `plus_space_flag` -/
inductive PlusSpaceFlag where
  | none
  | plus
  | minus
  deriving DecidableEq

structure Flags where
  leftAdjust : Bool
  alternateFlag : Bool
  plusSpaceFlag : PlusSpaceFlag
  zeropad : Bool
  deriving DecidableEq

def Flags.clear : Flags := ⟨false, false, .none, false⟩

/-- The leading `-`, `+`, space, `#` and `0`. A space sets the flag of the plus sign if it is not set yet. -/
def readFlags : Flags → List UInt8 → Flags × List UInt8
  | fl, [] => (fl, [])
  | fl, c :: fmt =>
    if c = ch ' ' then
      readFlags (if fl.plusSpaceFlag = .none then { fl with plusSpaceFlag := .plus } else fl) fmt
    else if c = ch '+' then readFlags { fl with plusSpaceFlag := .plus } fmt
    else if c = ch '-' then readFlags { fl with leftAdjust := true } fmt
    else if c = ch '#' then readFlags { fl with alternateFlag := true } fmt
    else if c = ch '0' then readFlags { fl with zeropad := true } fmt
    else (fl, c :: fmt)

/-- A field width or precision in digits, read behind the value `n`. -/
def readNumber (T : CTypes) : ℤ → List UInt8 → ℤ × List UInt8
  | n, [] => (n, [])
  | n, c :: fmt =>
    if ch '0' ≤ c ∧ c ≤ ch '9' then readNumber T (T.toInt (n * 10 + (c.toNat - (ch '0').toNat))) fmt else (n, c :: fmt)

/-- The field width, in digits or from an argument. -/
def readWidth (T : CTypes) (fl : Flags) (fmt : List UInt8) (ap : List Arg) :
    Option (Flags × ℤ × List UInt8 × List Arg) :=
  if fmt.head? = some (ch '*') then
    (vaNum ap).map fun (v, ap) =>
      if T.toInt v < 0 then ({ fl with leftAdjust := true }, T.toInt (-T.toInt v), fmt.tail, ap)
      else (fl, T.toInt v, fmt.tail, ap)
  else some (fl, (readNumber T 0 fmt).1, (readNumber T 0 fmt).2, ap)

/-- The precision, in digits or from an argument; -1 if there is none. -/
def readPrecision (T : CTypes) (fmt : List UInt8) (ap : List Arg) : Option (ℤ × List UInt8 × List Arg) :=
  if fmt.head? = some (ch '.') then
    if fmt.tail.head? = some (ch '*') then (vaNum ap).map fun (v, ap) => (T.toInt v, fmt.tail.tail, ap)
    else some ((readNumber T 0 fmt.tail).1, (readNumber T 0 fmt.tail).2, ap)
  else some (-1, fmt, ap)

/-- The modifier: whether it is a long one, and whether it is `h`. -/
def readModifier (T : CTypes) (fmt : List UInt8) : Bool × Bool × List UInt8 :=
  if fmt.head? = some (ch 'l') ∨ fmt.head? = some (ch 'L') then (true, false, fmt.tail)
  else if fmt.head? = some (ch 'z') then (T.sizeIsLong, false, fmt.tail)
  else if fmt.head? = some (ch 'h') then (false, true, fmt.tail)
  else (false, false, fmt)

/-- What a specification says in front of the character of the conversion. -/
structure FormatSpec where
  flags : Flags
  fieldWidth : ℤ
  precision : ℤ
  lModifier : Bool
  hModifier : Bool
  deriving DecidableEq

/-- The specification behind a `%`. -/
def readSpec (T : CTypes) (fmt : List UInt8) (ap : List Arg) : Option (FormatSpec × List UInt8 × List Arg) :=
  (readWidth T (readFlags .clear fmt).1 (readFlags .clear fmt).2 ap).bind fun (fl, width, fmt, ap) =>
    (readPrecision T fmt ap).map fun (precision, fmt, ap) =>
      (⟨{ fl with zeropad := fl.zeropad && !fl.leftAdjust }, width, precision, (readModifier T fmt).1,
        (readModifier T fmt).2.1⟩, (readModifier T fmt).2.2, ap)

/-! ## The conversions -/

/-- `FRMWRI_BUFSIZE` -/
def frmwriBufsize : ℕ := 134

/-- `hex_tab` -/
def hexTab (d : ℕ) : UInt8 :=
  (['0', '1', '2', '3', '4', '5', '6', '7', '8', '9', 'a', 'b', 'c', 'd', 'e', 'f'].map ch).getD d 0

/-- `HEX_tab` -/
def upperHexTab (d : ℕ) : UInt8 :=
  (['0', '1', '2', '3', '4', '5', '6', '7', '8', '9', 'A', 'B', 'C', 'D', 'E', 'F'].map ch).getD d 0

/-- `null_pointer` -/
def nullPointer : List UInt8 := ['<', 'N', 'U', 'L', 'L', '>'].map ch

/-- `bad_conversion` -/
def badConversion : List UInt8 := ['?', '?', '?'].map ch

/-- The text between `buf_pointer` and `ptr`, and the flag of the sign. -/
structure Converted where
  text : List UInt8
  plusSpaceFlag : PlusSpaceFlag
  deriving DecidableEq

def PlusSpaceFlag.places (f : PlusSpaceFlag) : ℕ := if f = none then 0 else 1

/-- `INTEGRAL_CONVERSION`: the digits of `ulong` in a base, with zeros and the prefix in front. -/
def integralConversion (sp : FormatSpec) (hex : ℕ → UInt8) (base : ℕ) (formatFlag : UInt8) (sign : PlusSpaceFlag)
    (ulong : ℕ) : Option Converted :=
  -- no character if zero and zero precision
  let digits := if sp.precision ≠ 0 ∨ ulong ≠ 0 then fromLow hex base ulong [] else []
  let precision := if sp.precision < 0 ∧ sp.flags.zeropad then sp.fieldWidth - sign.places else sp.precision
  let padded := digits.leftpad precision.toNat (ch '0')
  let text :=
    if sp.flags.alternateFlag ∧ ulong ≠ 0 ∧ (formatFlag = ch 'x' ∨ formatFlag = ch 'X') then
      ch '0' :: formatFlag :: padded
    else padded
  if text.length ≤ frmwriBufsize - 1 then some ⟨text, sign⟩ else none

/-- The places for digits: what is asked for, but one at least unless the precision is zero. -/
def FormatSpec.places (sp : FormatSpec) (sign : PlusSpaceFlag) : ℕ :=
  max (if sp.precision < 0 ∧ sp.flags.zeropad then sp.fieldWidth - sign.places else sp.precision).toNat
    (if sp.precision = 0 then 0 else 1)

/-- The text of a number is its numeral behind zeros, with the prefix in front. -/
theorem integralConversion_eq (sp : FormatSpec) {hex : ℕ → UInt8} (hhex : hex 0 = ch '0') {base : ℕ} (hb : 1 < base)
    (formatFlag : UInt8) (sign : PlusSpaceFlag) (n : ℕ) :
    integralConversion sp hex base formatFlag sign n =
      let text := (if sp.flags.alternateFlag ∧ n ≠ 0 ∧ (formatFlag = ch 'x' ∨ formatFlag = ch 'X') then
          [ch '0', formatFlag] else []) ++ ((numeral base n).map hex).leftpad (sp.places sign) (ch '0')
      if text.length ≤ frmwriBufsize - 1 then some ⟨text, sign⟩ else none := by
  have hdigits : (if sp.precision ≠ 0 ∨ n ≠ 0 then fromLow hex base n [] else []) =
      ((numeral base n).map hex).leftpad (if sp.precision = 0 then 0 else 1) (ch '0') := by
    rw [fromLow_eq hex hb, List.append_nil, map_leftpad, hhex]
    by_cases hp : sp.precision = 0
    · by_cases hn : n = 0
      · simp [hp, hn, List.leftpad]
      · have hlen : 1 ≤ ((numeral base n).map hex).length := by simp [numeral_pos hb hn]
        rw [if_pos (.inr hn), leftpad_of_le _ hlen, if_pos hp, leftpad_of_le _ (Nat.zero_le _)]
    · rw [if_pos (.inl hp), if_neg hp]
  unfold integralConversion FormatSpec.places
  simp only [hdigits, leftpad_leftpad]
  split <;> rfl

/-- The value of an argument for `u`, `x`, `X` and `p`. -/
def unsignedArg (T : CTypes) (sp : FormatSpec) (formatFlag : UInt8) (v : ℤ) : ℕ :=
  if formatFlag = ch 'p' then T.toULong v
  else if sp.lModifier then T.toULong v
  else if sp.hModifier then T.toUShort (T.toUInt v)
  else T.toUInt v

/-- The value of an argument for `d` and `i`. -/
def signedArg (T : CTypes) (sp : FormatSpec) (v : ℤ) : ℕ :=
  if sp.lModifier then T.toULong (T.toLong v) else T.toULong (T.toLong (T.toInt v))

/-- The switch over the character of the conversion. -/
def convert (T : CTypes) (sp : FormatSpec) (formatFlag : UInt8) (ap : List Arg) : Option (Converted × List Arg) :=
  if formatFlag = ch 'c' then
    (vaNum ap).map fun (v, ap) => (⟨[UInt8.ofNat (toUnsigned 8 (T.toInt v))], sp.flags.plusSpaceFlag⟩, ap)
  else if formatFlag = ch 's' ∨ formatFlag = ch 'S' then
    (vaStr ap).map fun (s, ap) =>
      let precision := if sp.precision < 0 then 10000 else sp.precision
      (⟨((s.getD nullPointer).takeWhile (· ≠ 0)).take precision.toNat, sp.flags.plusSpaceFlag⟩, ap)
  else if formatFlag = ch 'x' ∨ formatFlag = ch 'u' ∨ formatFlag = ch 'p' ∨ formatFlag = ch 'X' then
    (vaNum ap).bind fun (v, ap) =>
      (integralConversion sp (if formatFlag = ch 'x' then hexTab else upperHexTab)
        (if formatFlag = ch 'u' then 10 else 16)
        formatFlag .none (unsignedArg T sp formatFlag v)).map (·, ap)
  else if formatFlag = ch 'd' ∨ formatFlag = ch 'i' then
    (vaNum ap).bind fun (v, ap) =>
      let ulong := signedArg T sp v
      -- extract the sign
      (if T.toLong ulong < 0 then integralConversion sp upperHexTab 10 formatFlag .minus (T.toULong (-T.toLong ulong))
        else integralConversion sp upperHexTab 10 formatFlag sp.flags.plusSpaceFlag ulong).map (·, ap)
  else if formatFlag = ch 'g' ∨ formatFlag = ch 'G' ∨ formatFlag = ch 'f' ∨ formatFlag = ch 'e' ∨ formatFlag =
    ch 'E' then
    none
  else some (⟨badConversion, sp.flags.plusSpaceFlag⟩, ap)

/-! ## The loop -/

def PlusSpaceFlag.chars : PlusSpaceFlag → List UInt8
  | none => []
  | plus => [ch '+']
  | minus => [ch '-']

/-- The characters of a conversion go out, with blanks up to the field width. -/
def emit (T : CTypes) (sp : FormatSpec) (cv : Converted) (w : Writer) : Writer :=
  let n := if (cv.text.length : ℤ) > sp.fieldWidth then 0 else sp.fieldWidth - cv.text.length - cv.plusSpaceFlag.places
  let w := if sp.flags.leftAdjust then w else w.puts T.toInt (List.replicate n.toNat (ch ' '))
  let w := (w.puts T.toInt cv.plusSpaceFlag.chars).puts T.toInt cv.text
  if sp.flags.leftAdjust then w.puts T.toInt (List.replicate n.toNat (ch ' ')) else w

/-- A specification with its conversion: what is to be emitted, and where the format goes on. A NUL is not passed. -/
def readConversion (T : CTypes) (fmt : List UInt8) (ap : List Arg) :
    Option (FormatSpec × Converted × List UInt8 × List Arg) :=
  (readSpec T fmt ap).bind fun (sp, fmt, ap) =>
    (convert T sp (fmt.headD 0) ap).map fun (cv, ap) => (sp, cv, if fmt.headD 0 = 0 then fmt else fmt.tail, ap)

theorem readFlags_length (fl : Flags) (fmt : List UInt8) : (readFlags fl fmt).2.length ≤ fmt.length := by
  induction fmt generalizing fl with
  | nil => simp [readFlags]
  | cons c fmt ih =>
    have step (fl : Flags) : (readFlags fl fmt).2.length ≤ (c :: fmt).length := Nat.le_succ_of_le (ih fl)
    unfold readFlags
    repeat' split
    all_goals first | exact step _ | exact Nat.le_refl _

theorem readNumber_length (T : CTypes) (n : ℤ) (fmt : List UInt8) : (readNumber T n fmt).2.length ≤ fmt.length := by
  induction fmt generalizing n with
  | nil => simp [readNumber]
  | cons c fmt ih =>
    unfold readNumber
    split
    · exact Nat.le_succ_of_le (ih _)
    · exact Nat.le_refl _

variable {fmt fmt' : List UInt8} {ap ap' : List Arg}

theorem readWidth_length {T : CTypes} {fl fl' : Flags} {n : ℤ} (h : readWidth T fl fmt ap = some (fl', n, fmt', ap')) :
    fmt'.length ≤ fmt.length := by
  unfold readWidth at h
  split at h
  · obtain ⟨⟨v, ap⟩, -, h⟩ := map_eq_some_iff.mp h
    have : fmt' = fmt.tail := by
      dsimp only at h
      split at h <;> (cases h; rfl)
    simp [this]
  · cases h
    exact readNumber_length T 0 fmt

theorem readPrecision_length {T : CTypes} {n : ℤ} (h : readPrecision T fmt ap = some (n, fmt', ap')) :
    fmt'.length ≤ fmt.length := by
  unfold readPrecision at h
  split at h
  · split at h
    · obtain ⟨⟨v, ap⟩, -, h⟩ := map_eq_some_iff.mp h
      cases h
      simp only [List.length_tail]
      omega
    · cases h
      have := readNumber_length T 0 fmt.tail
      simp only [List.length_tail] at this
      omega
  · cases h
    exact Nat.le_refl _

theorem readModifier_length (T : CTypes) (fmt : List UInt8) : (readModifier T fmt).2.2.length ≤ fmt.length := by
  unfold readModifier
  repeat' split
  all_goals simp

theorem readConversion_length {T : CTypes} {sp : FormatSpec} {cv : Converted}
    (h : readConversion T fmt ap = some (sp, cv, fmt', ap')) : fmt'.length ≤ fmt.length := by
  obtain ⟨⟨sp1, fmt1, ap1⟩, h1, h⟩ := bind_eq_some_iff.mp h
  obtain ⟨⟨cv1, ap2⟩, -, h⟩ := map_eq_some_iff.mp h
  obtain ⟨⟨fl, n, fmt2, ap3⟩, hw, h1⟩ := bind_eq_some_iff.mp h1
  obtain ⟨⟨p, fmt3, ap4⟩, hp, h1⟩ := map_eq_some_iff.mp h1
  cases h1
  have hf := readFlags_length .clear fmt
  have hw := readWidth_length hw
  have hp := readPrecision_length hp
  have hm := readModifier_length T fmt3
  have ht : fmt'.length ≤ (readModifier T fmt3).2.2.length := by
    cases h
    split <;> simp
  omega

/-- `_formatted_write` -/
def formattedWrite (T : CTypes) (fmt : List UInt8) (ap : List Arg) (w : Writer) : Option Writer :=
  match fmt with
  | [] => some w
  | c :: fmt =>
    if c = 0 then some w
    else if c ≠ ch '%' then formattedWrite T fmt ap (w.put T.toInt c)
    else if fmt.head? = some (ch '%') then formattedWrite T fmt.tail ap (w.put T.toInt (ch '%'))
    else
      match _h : readConversion T fmt ap with
      | none => none
      | some (sp, cv, fmt', ap') => formattedWrite T fmt' ap' (emit T sp cv w)
termination_by fmt.length
decreasing_by
  · simp
  · simp only [List.length_tail, List.length_cons]
    omega
  · have := readConversion_length _h
    simp only [List.length_cons]
    omega

/-! ## What goes out -/

/-- The writer after a text, with the count of its characters. -/
def Writer.written (wrap : ℤ → ℤ) (out : List UInt8) : Writer := ⟨out, wrap out.length⟩

section Written

variable {wrap : ℤ → ℤ} (hwrap : ∀ v, wrap (wrap v + 1) = wrap (v + 1))

include hwrap

theorem Writer.put_written (out : List UInt8) (c : UInt8) :
    (Writer.written wrap out).put wrap c = Writer.written wrap (out ++ [c]) := by
  simp [Writer.written, Writer.put, hwrap]

theorem Writer.puts_written (out cs : List UInt8) :
    (Writer.written wrap out).puts wrap cs = Writer.written wrap (out ++ cs) := by
  induction cs generalizing out with
  | nil => rw [List.append_nil]; rfl
  | cons c cs ih =>
    change ((Writer.written wrap out).put wrap c).puts wrap cs = _
    rw [Writer.put_written hwrap, ih, List.append_assoc, List.singleton_append]

end Written

theorem CTypes.toInt_wrap (T : CTypes) (v : ℤ) : T.toInt (T.toInt v + 1) = T.toInt (v + 1) :=
  toSigned_add_left _ v 1

/-- A sign and a text in a field, at its left or at its right end. -/
def field (left : Bool) (width : ℕ) (sign text : List UInt8) : List UInt8 :=
  let blanks := List.replicate (width - (sign.length + text.length)) (ch ' ')
  if left then sign ++ text ++ blanks else blanks ++ sign ++ text

theorem field_length (left : Bool) (width : ℕ) (sign text : List UInt8) :
    (field left width sign text).length = max width (sign.length + text.length) := by
  cases left <;> simp [field] <;> omega

theorem mem_field {left : Bool} {width : ℕ} {sign text : List UInt8} {c : UInt8} (hc : c ≠ ch ' ') :
    c ∈ field left width sign text ↔ c ∈ sign ∨ c ∈ text := by
  cases left <;> simp [field, hc]

theorem PlusSpaceFlag.length_chars (f : PlusSpaceFlag) : f.chars.length = f.places := by cases f <;> rfl

theorem emit_written (T : CTypes) (sp : FormatSpec) (cv : Converted) (out : List UInt8) :
    emit T sp cv (.written T.toInt out) =
      .written T.toInt (out ++ field sp.flags.leftAdjust sp.fieldWidth.toNat cv.plusSpaceFlag.chars cv.text) := by
  have hn : (if (cv.text.length : ℤ) > sp.fieldWidth then 0
      else sp.fieldWidth - cv.text.length - cv.plusSpaceFlag.places : ℤ).toNat =
      sp.fieldWidth.toNat - (cv.plusSpaceFlag.chars.length + cv.text.length) := by
    rw [PlusSpaceFlag.length_chars]
    split <;> omega
  cases h : sp.flags.leftAdjust <;> simp [emit, h, field, hn, Writer.puts_written T.toInt_wrap]

/-- A character that is not a `%` goes out as it is. -/
theorem formattedWrite_char (T : CTypes) {c : UInt8} (h0 : c ≠ 0) (hc : c ≠ ch '%') (fmt : List UInt8) (ap : List Arg)
    (out : List UInt8) : formattedWrite T (c :: fmt) ap (.written T.toInt out) =
      formattedWrite T fmt ap (.written T.toInt (out ++ [c])) := by
  rw [formattedWrite, if_neg h0, if_pos hc, Writer.put_written T.toInt_wrap]

theorem formattedWrite_spec (T : CTypes) {sp : FormatSpec} {cv : Converted} (hf : fmt.head? ≠ some (ch '%'))
    (h : readConversion T fmt ap = some (sp, cv, fmt', ap')) (out : List UInt8) :
    formattedWrite T (ch '%' :: fmt) ap (.written T.toInt out) = formattedWrite T fmt' ap' (.written T.toInt
      (out ++ field sp.flags.leftAdjust sp.fieldWidth.toNat cv.plusSpaceFlag.chars cv.text)) := by
  rw [formattedWrite, if_neg (by decide), if_neg (by simp), if_neg hf]
  split
  · simp_all
  · rename_i hr
    rw [h] at hr
    cases hr
    rw [emit_written]

theorem formattedWrite_none (T : CTypes) {fmt : List UInt8} {ap : List Arg} (hf : fmt.head? ≠ some (ch '%'))
    (h : readConversion T fmt ap = none) (w : Writer) : formattedWrite T (ch '%' :: fmt) ap w = none := by
  rw [formattedWrite, if_neg (by decide), if_neg (by simp), if_neg hf]
  split
  · rfl
  · simp_all

end Bertos
