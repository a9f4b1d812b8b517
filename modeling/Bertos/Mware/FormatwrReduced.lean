import Bertos.Mware.FormatwrConform

/-!
# The reduced formatter

`_formatted_write` as it is compiled for `PRINTF_REDUCED`: no flags, width or precision, and the digits of a number are
written from the high end, with a divisor that falls. On a machine with 32-bit `int` and `long` it writes the same as
the full version for the formats that both understand (`reduced_agrees`).
-/

namespace Bertos

open List Option IntSpec Writer

/-! ## The functions -/

namespace Reduced

variable (T : CTypes)

/-- `nr_of_chars` is an `unsigned int` here. -/
def wrap (v : ℤ) : ℤ := T.toUInt v

/-- The modifier: `l`, `z` or `h`. -/
def readModifier (fmt : List UInt8) : Bool × Bool × List UInt8 :=
  if fmt.head? = some (ch 'l') then (true, false, fmt.tail)
  else if fmt.head? = some (ch 'z') then (T.sizeIsLong, false, fmt.tail)
  else if fmt.head? = some (ch 'h') then (false, true, fmt.tail)
  else (false, false, fmt)

/-- `IS_SHORT` -/
def isShort (lModifier hModifier : Bool) : Bool := hModifier || (T.intBits == 16 && !lModifier)

/-- The base of a conversion and the divisor for its first digit. -/
def baseAndDivisor (formatFlag : UInt8) (short : Bool) : ℕ × ℕ :=
  if formatFlag = ch 'o' then (8, if short then 0x8000 else 0x40000000)
  else if formatFlag = ch 'd' then (10, if short then 10000 else 1000000000)
  else (16, if short then 0x1000 else 0x10000000)

/-- `u_val`, as it is read from the arguments. -/
def argVal (formatFlag : UInt8) (lModifier hModifier : Bool) (v : ℤ) : ℕ :=
  if hModifier then
    if formatFlag = ch 'd' then T.toULong (T.toShort (T.toInt v)) else T.toULong (T.toUShort (T.toInt v))
  else if lModifier then T.toULong (T.toLong v)
  else if formatFlag = ch 'd' then T.toULong (T.toInt v)
  else T.toULong (T.toUInt v)

/-- A digit, in capital letters unless the conversion is `x`. -/
def outChar (formatFlag : UInt8) (digit : ℕ) : UInt8 :=
  let c := UInt8.ofNat digit + ch '0'
  if c > ch '9' then c + (if formatFlag = ch 'x' then ch 'a' - ch '9' - 1 else ch 'A' - ch '9' - 1) else c

/-- `CONVERSION_LOOP` -/
def conversionLoop (formatFlag : UInt8) (base div uVal : ℕ) (w : Writer) : Writer :=
  let neg := formatFlag = ch 'd' ∧ T.toInt uVal < 0
  let uVal := if neg then T.toULong (-(uVal : ℤ)) else uVal
  let w := if neg then w.put (wrap T) (ch '-') else w
  w.puts (wrap T) ((fromHigh base (topDivisor base div uVal) uVal).map (outChar formatFlag))

/-- The switch over the character of the conversion. A NUL is put out, and the format read past its end. -/
def convert (l h : Bool) (formatFlag : UInt8) (ap : List Arg) (w : Writer) : Option (List Arg × Writer) :=
  if formatFlag = 0 then none
  else if formatFlag = ch 'c' then
    (vaNum ap).map fun (v, ap) => (ap, w.put (wrap T) (UInt8.ofNat (toUnsigned 8 (T.toInt v))))
  else if formatFlag = ch 's' then
    (vaStr ap).bind fun (s, ap) => s.map fun s => (ap, w.puts (wrap T) (s.takeWhile (· ≠ 0)))
  else if formatFlag = ch 'o' ∨ formatFlag = ch 'd' ∨ formatFlag = ch 'X' ∨ formatFlag = ch 'x' then
    (vaNum ap).map fun (v, ap) =>
      (ap, conversionLoop T formatFlag (baseAndDivisor formatFlag (isShort T l h)).1
        (baseAndDivisor formatFlag (isShort T l h)).2 (argVal T formatFlag l h v) w)
  else some (ap, w.put (wrap T) formatFlag)

/-- The specification behind a `%`. -/
def readConversion (fmt : List UInt8) (ap : List Arg) (w : Writer) : Option (List UInt8 × List Arg × Writer) :=
  (convert T (readModifier T fmt).1 (readModifier T fmt).2.1 ((readModifier T fmt).2.2.headD 0) ap w).map fun (ap, w) =>
    ((readModifier T fmt).2.2.tail, ap, w)

theorem readModifier_length (fmt : List UInt8) : (readModifier T fmt).2.2.length ≤ fmt.length := by
  unfold readModifier
  repeat' split
  all_goals simp

theorem readConversion_length {T : CTypes} {fmt fmt' : List UInt8} {ap ap' : List Arg} {w w' : Writer}
    (h : readConversion T fmt ap w = some (fmt', ap', w')) : fmt'.length ≤ fmt.length := by
  have hm := readModifier_length T fmt
  obtain ⟨⟨ap₁, w₁⟩, -, h⟩ := map_eq_some_iff.mp h
  cases h
  rw [length_tail]
  omega

def writeLoop (fmt : List UInt8) (ap : List Arg) (w : Writer) : Option Writer :=
  match fmt with
  | [] => some w
  | c :: fmt =>
    if c = 0 then some w
    else if c ≠ ch '%' then writeLoop fmt ap (w.put (wrap T) c)
    else
      match _h : readConversion T fmt ap w with
      | none => none
      | some (fmt', ap', w') => writeLoop fmt' ap' w'
termination_by fmt.length
decreasing_by
  · simp
  · have := readConversion_length _h
    simp only [List.length_cons]
    omega

/-- `_formatted_write`: the count is returned as an `int`. -/
def formattedWrite (fmt : List UInt8) (ap : List Arg) : Option Writer :=
  (writeLoop T fmt ap ⟨[], 0⟩).map fun w => ⟨w.out, T.toInt w.nrOfChars⟩

theorem writeLoop_char {c : UInt8} (h0 : c ≠ 0) (hc : c ≠ ch '%') (fmt : List UInt8) (ap : List Arg) (w : Writer) :
    writeLoop T (c :: fmt) ap w = writeLoop T fmt ap (w.put (wrap T) c) := by
  rw [writeLoop, if_neg h0, if_pos hc]

theorem writeLoop_spec {fmt fmt' : List UInt8} {ap ap' : List Arg} {w w' : Writer}
    (h : readConversion T fmt ap w = some (fmt', ap', w')) :
    writeLoop T (ch '%' :: fmt) ap w = writeLoop T fmt' ap' w' := by
  rw [writeLoop, if_neg (by decide), if_neg (by simp)]
  split
  · simp_all
  · rename_i hr
    rw [h] at hr
    cases hr
    rfl

theorem wrap_wrap (v : ℤ) : wrap T (wrap T v + 1) = wrap T (v + 1) :=
  congrArg Nat.cast (toUnsigned_add_left T.intBits v 1)

/-- The loop writes the sign and the numeral, if the divisor has places enough. -/
theorem conversionLoop_written {formatFlag : UInt8} {base e u n : ℕ} {b : Bool} (hb : 1 < base)
    (hn : n < base ^ (e + 1))
    (hneg : (formatFlag = ch 'd' ∧ T.toInt u < 0) ↔ b = true) (hu : (if b then T.toULong (-(u : ℤ)) else u) = n)
    (out : List UInt8) :
    conversionLoop T formatFlag base (base ^ e) u (.written (wrap T) out) = .written (wrap T)
      (out ++ ((if b then [ch '-'] else []) ++ ((numeral base n).leftpad 1 0).map (outChar formatFlag))) := by
  unfold conversionLoop
  simp only [hneg, hu, fromHigh_top hb e n hn]
  cases b <;> simp [put_written (wrap_wrap T), puts_written (wrap_wrap T)]

end Reduced

/-! ## Formats that both understand -/

/-- A piece of a format, with its argument: an ordinary character or a specification without flags, width and
precision. -/
inductive FormatPiece where
  | lit (c : UInt8)
  | chr (m : IntModifier) (v : ℤ)
  | str (m : IntModifier) (s : List UInt8)
  | num (m : IntModifier) (k : IntConv) (v : ℤ)

namespace FormatPiece

def chars : FormatPiece → List UInt8
  | lit c => [c]
  | chr m _ => ch '%' :: (m.chars ++ [ch 'c'])
  | str m _ => ch '%' :: (m.chars ++ [ch 's'])
  | num m k _ => ch '%' :: (m.chars ++ [k.char])

def args : FormatPiece → List Arg
  | lit _ => []
  | chr _ v => [.num v]
  | str _ s => [.str (some s)]
  | num _ _ v => [.num v]

/-- The character is an ordinary one, the string is shorter than 10000 characters, the conversion is `d`, `x` or `X`,
and an argument with `h` is in the range of `short` or `unsigned short`. -/
def Ok : FormatPiece → Prop
  | lit c => c ≠ 0 ∧ c ≠ ch '%'
  | chr _ _ => True
  | str _ s => (s.takeWhile (· ≠ 0)).length < 10000
  | num m k v => (k = .d ∨ k = .x ∨ k = .X) ∧
      (m = .h → if k = .d then -32768 ≤ v ∧ v ≤ 32767 else 0 ≤ v ∧ v ≤ 65535)

theorem digits_nil_head (ds : List (Fin 10)) (h : FieldText.digits [] = .digits ds) : ds.head? ≠ some 0 := by
  cases h
  exact some_ne_none 0 ∘ Eq.symm

def plain (m : IntModifier) (k : IntConv) : IntSpec := ⟨[], .digits [], none, m, k, digits_nil_head⟩

def text (T : CTypes) : FormatPiece → List UInt8
  | lit c => [c]
  | chr _ v => [UInt8.ofNat (toUnsigned 8 (T.toInt v))]
  | str _ s => s.takeWhile (· ≠ 0)
  | num m k v => (plain m k).ansi T v

/-! ## Numbers -/

section Numbers

variable {T : CTypes} (m : IntModifier) (k : IntConv) (v : ℤ)

theorem plain_text : (plain m k).ansiText T v =
    ((numeral k.base ((plain m k).ansiValue T v).natAbs).map k.digit).leftpad 1 (ch '0') := by
  simp [ansiText, IntSpec.ZeroFlag, ansiPrefix, ansiDigits, minDigits, plain]

theorem plain_ansi : (plain m k).ansi T v =
    (if k.Signed ∧ (plain m k).ansiValue T v < 0 then [ch '-'] else []) ++ (plain m k).ansiText T v := by
  have hleft : ¬(plain m k).Left T := by simp [IntSpec.Left, plain, FieldText.value, decimal]
  have hwidth : (plain m k).minWidth T = 0 := by simp [minWidth, plain, FieldText.value, decimal]
  have hsign : (plain m k).ansiSign T v = if k.Signed ∧ (plain m k).ansiValue T v < 0 then [ch '-'] else [] := by
    by_cases hs : k.Signed <;> simp [ansiSign, hs, plain]
  simp [ansi, field, hleft, hwidth, hsign]

variable {m k v}

/-- A number without flags, width and precision conforms if an argument with `h` is in range. -/
theorem plain_conforms (hT : T.Bits32) (hok : (num m k v).Ok) : (plain m k).Conforms T v := by
  refine ⟨?_, fun _ h => by simp [plain] at h, fun _ h => by simp [plain] at h, fun hs hm => ?_⟩
  · simp [minWidth, plain, FieldText.value, decimal]
  · obtain rfl : k = .d := by
      change k.Signed at hs
      obtain ⟨rfl | rfl | rfl, -⟩ := hok
      · rfl
      · exact absurd hs (by decide)
      · exact absurd hs (by decide)
    have hr := hok.2 hm
    rw [if_pos rfl] at hr
    rw [hT.toInt_eq (by omega) (by omega), hT.toShort_eq hr.1 hr.2]

theorem natAbs_lt (hT : T.Bits32) : ((plain m k).ansiValue T v).natAbs < 2 ^ 32 ∧
    (m = .h → ((plain m k).ansiValue T v).natAbs < 2 ^ 16) := by
  have hi := hT.toInt_bounds v
  have hl := hT.toLong_bounds v
  have hs := hT.toShort_bounds (T.toInt v)
  have hui := hT.toUInt_lt v
  have hul := hT.toULong_lt v
  have hus := hT.toUShort_lt (T.toUInt v)
  unfold ansiValue
  cases m <;> split <;> simp only [plain, reduceCtorEq, false_implies, and_true, true_implies, Int.natAbs_natCast] <;>
    omega

theorem plain_fits (hT : T.Bits32) : ((plain m k).ansiText T v).length ≤ frmwriBufsize - 1 := by
  have hlt := (natAbs_lt hT (m := m) (k := k) (v := v)).1
  have hlen : (numeral k.base ((plain m k).ansiValue T v).natAbs).length ≤ 32 := by
    have hb := (plain m k).one_lt_base
    have hle : 2 ^ 32 ≤ k.base ^ 32 := Nat.pow_le_pow_left hb 32
    rw [numeral, length_reverse]
    exact (Nat.digits_length_le_iff hb _).mpr (Nat.lt_of_lt_of_le hlt hle)
  rw [plain_text, length_leftpad, length_map]
  unfold frmwriBufsize
  omega

theorem argVal_signed : Reduced.argVal T (IntConv.char .d) (m = .l) (m = .h) v =
    T.toULong ((plain m .d).ansiValue T v) := by
  cases m <;> rfl

theorem ansiValue_bounds (hT : T.Bits32) :
    -2147483648 ≤ (plain m .d).ansiValue T v ∧ (plain m .d).ansiValue T v ≤ 2147483647 := by
  have hs := hT.toShort_bounds (T.toInt v)
  cases m with
  | none => exact hT.toInt_bounds v
  | l => exact hT.toLong_bounds v
  | h =>
    change -2147483648 ≤ T.toShort (T.toInt v) ∧ T.toShort (T.toInt v) ≤ 2147483647
    omega

/-- The sign of a number in an `unsigned long` is that of the `int`, and its magnitude is computed in the type. -/
theorem signed_magnitude {n : ℤ} (hT : T.Bits32) (hn : -2147483648 ≤ n ∧ n ≤ 2147483647) :
    T.toInt (T.toULong n) = n ∧
      (if n < 0 then T.toULong (-(T.toULong n : ℤ)) else T.toULong n) = n.natAbs := by
  have hint : T.toInt = toSigned T.longBits := by
    rw [hT.long, ← hT.int]
    rfl
  have hlo : -(2 ^ (T.longBits - 1) : ℕ) ≤ n := by
    rw [hT.long]
    omega
  have hhi : n < (2 ^ (T.longBits - 1) : ℕ) := by
    rw [hT.long]
    omega
  have hmag := toUnsigned_magnitude T.longBits_ne hlo hhi
  refine ⟨?_, ?_⟩
  · rw [hint]
    exact (toSigned_toUnsigned _ _).trans (toSigned_of_range T.longBits_ne hlo hhi)
  · rw [← hmag]
    split
    · exact toUnsigned_neg _ _
    · rfl

/-- The value that the reduced version takes for an unsigned conversion. -/
theorem argVal_unsigned (hT : T.Bits32) (hk : k ≠ .d) (hok : (num m k v).Ok) :
    (Reduced.argVal T k.char (m = .l) (m = .h) v : ℤ) = (plain m k).ansiValue T v := by
  have hul (n : ℕ) (hn : n < 2 ^ 32) : T.toULong n = n := by
    have h := toUnsigned_of_range (b := T.longBits) (Int.natCast_nonneg n) (by rw [hT.long]; omega)
    exact_mod_cast h
  obtain ⟨hconv, hrange⟩ := hok
  have hchar : k.char ≠ ch 'd' ∧ ¬k.Signed := by
    obtain rfl | rfl | rfl := hconv
    · exact absurd rfl hk
    · decide
    · decide
  unfold Reduced.argVal ansiValue
  cases m with
  | none =>
    simp only [reduceCtorEq, decide_false, Bool.false_eq_true, if_false, hchar.1, plain, hchar.2]
    rw [hul _ (hT.toUInt_lt v)]
  | l =>
    simp only [reduceCtorEq, decide_false, decide_true, Bool.false_eq_true, if_false, if_true, plain, hchar.2]
    exact congrArg Nat.cast (toUnsigned_toSigned _ _)
  | h =>
    have hr := hrange rfl
    rw [if_neg hk] at hr
    have hui : (T.toUInt v : ℤ) = v := toUnsigned_of_range hr.1 (by rw [hT.int]; omega)
    simp only [decide_true, if_true, hchar.1, if_false, plain, hchar.2]
    rw [hul _ (Nat.lt_trans (hT.toUShort_lt _) (by decide)), hT.toInt_eq (by omega) (by omega), hui]

theorem outChar_digit (hconv : k = .d ∨ k = .x ∨ k = .X) (n : ℕ) :
    ((numeral k.base n).leftpad 1 0).map (Reduced.outChar k.char) = ((numeral k.base n).map k.digit).leftpad 1
      (ch '0') := by
  have hb : 1 < k.base := (plain .none k).one_lt_base
  have hdigit : ∀ d < k.base, Reduced.outChar k.char d = k.digit d := by
    obtain rfl | rfl | rfl := hconv <;> decide
  have hzero : k.digit 0 = ch '0' := rfl
  rw [← hzero, ← map_leftpad]
  exact map_congr_left fun d hd => hdigit d (leftpad_numeral_lt hb hd)

/-- **A number in the reduced version**: the same text as in the standard. -/
theorem conversionLoop_num (hT : T.Bits32) (hok : (num m k v).Ok) (out : List UInt8) :
    Reduced.conversionLoop T k.char (Reduced.baseAndDivisor k.char (Reduced.isShort T (m = .l) (m = .h))).1
      (Reduced.baseAndDivisor k.char (Reduced.isShort T (m = .l) (m = .h))).2
      (Reduced.argVal T k.char (m = .l) (m = .h) v) (.written (Reduced.wrap T) out) =
      .written (Reduced.wrap T) (out ++ (plain m k).ansi T v) := by
  have hshort : Reduced.isShort T (m = .l) (m = .h) = decide (m = .h) := by simp [Reduced.isShort, hT.int]
  obtain ⟨hlt, hlt'⟩ := natAbs_lt hT (m := m) (k := k) (v := v)
  -- the divisor is a power of the base with places for the number
  obtain ⟨e, hdiv, hplaces⟩ : ∃ e, Reduced.baseAndDivisor k.char (decide (m = .h)) = (k.base, k.base ^ e) ∧
      ((plain m k).ansiValue T v).natAbs < k.base ^ (e + 1) := by
    by_cases hm : m = .h
    · have h16 := hlt' hm
      obtain rfl | rfl | rfl := hok.1
      · exact ⟨4, by simp only [hm]; decide, Nat.lt_trans h16 (by decide)⟩
      · exact ⟨3, by simp only [hm]; decide, h16⟩
      · exact ⟨3, by simp only [hm]; decide, h16⟩
    · obtain rfl | rfl | rfl := hok.1
      · exact ⟨9, by simp only [hm]; decide, Nat.lt_trans hlt (by decide)⟩
      · exact ⟨7, by simp only [hm]; decide, hlt⟩
      · exact ⟨7, by simp only [hm]; decide, hlt⟩
  have hb : 1 < k.base := (plain m k).one_lt_base
  rw [hshort, hdiv, plain_ansi, plain_text, ← outChar_digit hok.1]
  by_cases hd : k = .d
  · subst hd
    have hneg : (if IntConv.d.Signed ∧ (plain m .d).ansiValue T v < 0 then [ch '-'] else []) =
        if decide ((plain m .d).ansiValue T v < 0) then [ch '-'] else [] := by simp [IntConv.Signed]
    obtain ⟨hback, hmag⟩ := signed_magnitude hT (ansiValue_bounds hT (m := m) (v := v))
    rw [hneg, argVal_signed]
    refine Reduced.conversionLoop_written T hb hplaces ?_ ?_ out
    · rw [hback]
      simp [IntConv.char]
    · rw [← hmag]
      simp only [decide_eq_true_eq]
  · have hunsigned : ¬k.Signed ∧ k.char ≠ ch 'd' := by
      obtain rfl | rfl | rfl := hok.1
      · exact absurd rfl hd
      · decide
      · decide
    have harg := argVal_unsigned hT hd hok
    rw [if_neg fun h => hunsigned.1 h.1]
    refine Reduced.conversionLoop_written T (b := false) hb hplaces ?_ ?_ out
    · simp [hunsigned.2]
    · rw [if_neg Bool.false_ne_true, ← harg]
      rfl

end Numbers

/-! ## Pieces -/

section Pieces

variable {T : CTypes} (rest : List UInt8) (ap : List Arg) (out : List UInt8)

theorem readSpec_plain (m : IntModifier) {c : UInt8} (hc : c = ch 'c' ∨ c = ch 's') (ap : List Arg) :
    readSpec T (m.chars ++ c :: rest) ap = some (⟨.clear, 0, -1, m = .l, m = .h⟩, c :: rest, ap) := by
  obtain rfl | rfl := hc <;> cases m <;> rfl

theorem modifier_head (m : IntModifier) {c : UInt8} (hc : c ≠ ch '%') :
    (m.chars ++ c :: rest).head? ≠ some (ch '%') := by
  cases m with
  | none => exact fun h => hc (some_inj.mp h)
  | l | h => exact fun h => absurd (some_inj.mp h) (by decide)

/-- **One piece in the full version**: its text goes out. -/
theorem formattedWrite_piece (hT : T.Bits32) (p : FormatPiece) (hok : p.Ok) :
    formattedWrite T (p.chars ++ rest) (p.args ++ ap) (.written T.toInt out) =
      formattedWrite T rest ap (.written T.toInt (out ++ p.text T)) := by
  cases p with
  | lit c => exact formattedWrite_char T hok.1 hok.2 rest ap out
  | chr m v =>
    have hread : Bertos.readConversion T (m.chars ++ ch 'c' :: rest) (.num v :: ap) =
      some (⟨.clear, 0, -1, m = .l, m = .h⟩,
        ⟨[UInt8.ofNat (toUnsigned 8 (T.toInt v))], .none⟩, rest, ap) := by
      rw [Bertos.readConversion, readSpec_plain rest m (.inl rfl)]
      rfl
    have h := formattedWrite_spec T (modifier_head rest m (by decide)) hread out
    simpa [chars, args, text, field, Flags.clear, PlusSpaceFlag.chars] using h
  | str m s =>
    have htake : (s.takeWhile (· ≠ 0)).take 10000 = s.takeWhile (· ≠ 0) := take_of_length_le (Nat.le_of_lt hok)
    have hread : Bertos.readConversion T (m.chars ++ ch 's' :: rest) (.str (some s) :: ap) =
        some (⟨.clear, 0, -1, m = .l, m = .h⟩, ⟨s.takeWhile (· ≠ 0), .none⟩, rest, ap) := by
      rw [← htake, Bertos.readConversion, readSpec_plain rest m (.inr rfl)]
      rfl
    have h := formattedWrite_spec T (modifier_head rest m (by decide)) hread out
    simpa [chars, args, text, field, Flags.clear, PlusSpaceFlag.chars] using h
  | num m k v =>
    obtain ⟨htext, hfield⟩ := IntSpec.field_eq (plain_fits hT) (plain_conforms hT hok)
    have h := (plain m k).formattedWrite_chars T v rest ap out
    rw [hfield, htext, if_pos (plain_fits hT)] at h
    simpa [chars, args, text, plain, IntSpec.chars, IntSpec.precisionChars, IntSpec.tailChars, IntSpec.argsFor,
      FieldText.chars, FieldText.args] using h

theorem readModifier_plain (m : IntModifier) {c : UInt8} (hl : c ≠ ch 'l') (hz : c ≠ ch 'z') (hh : c ≠ ch 'h') :
    Reduced.readModifier T (m.chars ++ c :: rest) = (decide (m = .l), decide (m = .h), c :: rest) := by
  cases m with
  | none => simp [Reduced.readModifier, IntModifier.chars, hl, hz, hh]
  | l => rfl
  | h => rfl

/-- **One piece in the reduced version**: its text goes out. -/
theorem writeLoop_piece (hT : T.Bits32) (p : FormatPiece) (hok : p.Ok) :
    Reduced.writeLoop T (p.chars ++ rest) (p.args ++ ap) (.written (Reduced.wrap T) out) =
      Reduced.writeLoop T rest ap (.written (Reduced.wrap T) (out ++ p.text T)) := by
  -- a specification is converted by the switch
  have hspec (m : IntModifier) (c : UInt8) (hc : c ≠ ch 'l' ∧ c ≠ ch 'z' ∧ c ≠ ch 'h') {arg : Arg} {w : Writer}
      (hconv : Reduced.convert T (m = .l) (m = .h) c (arg :: ap) (.written (Reduced.wrap T) out) = some (ap, w)) :
      Reduced.writeLoop T (ch '%' :: (m.chars ++ [c]) ++ rest) (arg :: ap) (.written (Reduced.wrap T) out) =
        Reduced.writeLoop T rest ap w := by
    rw [cons_append, append_assoc, singleton_append]
    apply Reduced.writeLoop_spec
    rw [Reduced.readConversion, readModifier_plain rest m hc.1 hc.2.1 hc.2.2]
    simp [hconv]
  cases p with
  | lit c =>
    rw [text, ← put_written (Reduced.wrap_wrap T)]
    exact Reduced.writeLoop_char T hok.1 hok.2 rest ap _
  | chr m v =>
    rw [text, ← put_written (Reduced.wrap_wrap T)]
    exact hspec m (ch 'c') (by decide) rfl
  | str m s =>
    rw [text, ← puts_written (Reduced.wrap_wrap T)]
    exact hspec m (ch 's') (by decide) rfl
  | num m k v =>
    rw [text, ← conversionLoop_num hT hok]
    refine hspec m k.char ?_ ?_
    · obtain rfl | rfl | rfl := hok.1 <;> decide
    · obtain rfl | rfl | rfl := hok.1 <;> rfl

end Pieces

end FormatPiece

open FormatPiece

section Formats

variable {T : CTypes} (hT : T.Bits32)

include hT

theorem formattedWrite_pieces (ps : List FormatPiece) (hok : ∀ p ∈ ps, p.Ok) (out : List UInt8) :
    formattedWrite T (ps.flatMap chars) (ps.flatMap args) (.written T.toInt out) =
      some (.written T.toInt (out ++ ps.flatMap (text T))) := by
  induction ps generalizing out with
  | nil => simp [formattedWrite]
  | cons p ps ih =>
    obtain ⟨hp, hps⟩ := forall_mem_cons.mp hok
    simp only [flatMap_cons]
    rw [formattedWrite_piece _ _ _ hT p hp, ih hps, append_assoc]

theorem writeLoop_pieces (ps : List FormatPiece) (hok : ∀ p ∈ ps, p.Ok) (out : List UInt8) :
    Reduced.writeLoop T (ps.flatMap chars) (ps.flatMap args) (.written (Reduced.wrap T) out) =
      some (.written (Reduced.wrap T) (out ++ ps.flatMap (text T))) := by
  induction ps generalizing out with
  | nil => simp [Reduced.writeLoop]
  | cons p ps ih =>
    obtain ⟨hp, hps⟩ := forall_mem_cons.mp hok
    simp only [flatMap_cons]
    rw [writeLoop_piece _ _ _ hT p hp, ih hps, append_assoc]

end Formats

/-- **The reduced formatter**: both versions return, with the same characters and the same count. -/
theorem reduced_agrees (T : CTypes) (hT : T.Bits32) (ps : List FormatPiece) (hok : ∀ p ∈ ps, p.Ok) :
    ∃ w, formattedWrite T (ps.flatMap chars) (ps.flatMap args) ⟨[], 0⟩ = some w ∧
      Reduced.formattedWrite T (ps.flatMap chars) (ps.flatMap args) = some w := by
  have hfull : (⟨[], 0⟩ : Writer) = .written T.toInt [] := by simp [written, T.toInt_zero]
  have hreduced : (⟨[], 0⟩ : Writer) = .written (Reduced.wrap T) [] := by
    simp [written, Reduced.wrap, CTypes.toUInt, toUnsigned]
  refine ⟨.written T.toInt ([] ++ ps.flatMap (text T)), ?_, ?_⟩
  · rw [hfull, formattedWrite_pieces hT ps hok]
  · rw [Reduced.formattedWrite, hreduced, writeLoop_pieces hT ps hok, map_some, some_inj]
    exact congrArg (mk _) (toSigned_toUnsigned T.intBits _)

/-- `n=%d` with the smallest `int`, and `%hx` behind it. -/
def samplePieces : List FormatPiece :=
  [lit (ch 'n'), lit (ch '='), num .none .d (-2147483648), num .h .x 65535]

theorem reduced_agrees_sample : CTypes.arm32.Bits32 ∧ (∀ p ∈ samplePieces, p.Ok) ∧
    ∃ w, formattedWrite .arm32 (samplePieces.flatMap chars) (samplePieces.flatMap args) ⟨[], 0⟩ = some w ∧
      Reduced.formattedWrite .arm32 (samplePieces.flatMap chars) (samplePieces.flatMap args) = some w := by
  have hT : CTypes.arm32.Bits32 := ⟨rfl, rfl, rfl⟩
  have hok : ∀ p ∈ samplePieces, p.Ok := by simp +decide [samplePieces, Ok]
  exact ⟨hT, hok, reduced_agrees .arm32 hT _ hok⟩

end Bertos
