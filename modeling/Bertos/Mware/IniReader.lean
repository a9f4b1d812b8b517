import Bertos.Io.KFile

/-!
# Ini files (`bertos/mware/ini_reader.c`)

Lines are read into a buffer of `CONFIG_INI_MAX_LINE_LEN` characters on the stack, whose first content, `stack`, is
arbitrary; what it holds behind the end of a line stays from the lines before. The scans over the buffer do not all
stop at the end of a line: `lineBytes` is as much of the memory as they look at, as long as a line that holds a key
holds an equals sign too. The loops over the lines take a `fuel` of one more than the size of the file.
-/

namespace Bertos

/-- `CONFIG_INI_MAX_LINE_LEN`. -/
def iniMaxLineLen : ℕ := 64

def chOpen : UInt8 := 91
def chClose : UInt8 := 93
def chEq : UInt8 := 61

def isspace (c : UInt8) : Bool := c == chSpace || (9 ≤ c && c ≤ 13)

/-! ## Scanning a line -/

section Line

variable (line : ℕ → UInt8)

def lineBytes : List UInt8 := Mem.read line 0 (2 * iniMaxLineLen)

/-- The string that starts a piece of memory. -/
def cstr (bs : List UInt8) : List UInt8 := bs.takeWhile (· ≠ 0)

def lineEmpty : Bool := (cstr (lineBytes line)).all isspace

/-- The test for a section header in `findSection`: the name goes up to the first closing bracket. -/
def isSection (name : List UInt8) : Bool :=
  line 0 == chOpen && ((Mem.read line 1 iniMaxLineLen).takeWhile (· ≠ chClose)).length == name.length &&
    Mem.read line 1 name.length == name

/-- The string `getKey` leaves in `key`. -/
def getKey (size : ℕ) : List UInt8 :=
  cstr ((((lineBytes line).dropWhile isspace).takeWhile fun c => c ≠ chEq && !isspace c).take (size - 1))

/-- The string `getValue` leaves in `value`. -/
def getValue (size : ℕ) : List UInt8 :=
  (cstr ((((lineBytes line).dropWhile (· ≠ chEq)).drop 1).dropWhile isspace)).take (size - 1)

end Line

/-! ## Finding -/

section Find

variable {W : Type} (fd : KFile W)

/-- The loop of `findSection`. -/
def findSectionLoop (name : List UInt8) : (fuel : ℕ) → (ℕ → UInt8) → (lastFull : ℕ) → W → Bool × (ℕ → UInt8) × W
  | 0, line, _, w => (false, line, w)
  | fuel + 1, line, lastFull, w =>
    match kfileGets fd line iniMaxLineLen w with
    | (err, line', w') =>
      let lastFull' := if lineEmpty line' then lastFull else fd.seekPos w'
      if isSection line' name then (true, line', w')
      else
        match err with
        | none => (false, line', fd.seek w' lastFull')
        | some _ => findSectionLoop name fuel line' lastFull' w'

def findSection (name : List UInt8) (line : ℕ → UInt8) (w : W) : Bool × (ℕ → UInt8) × W :=
  findSectionLoop fd name (fd.size w + 1) line (fd.seekPos w) w

/-- The loop of `findKey`. -/
def findKeyLoop (key : List UInt8) :
    (fuel : ℕ) → (ℕ → UInt8) → (lastFull keyPos : ℕ) → W → Bool × (ℕ → UInt8) × W
  | 0, line, _, _, w => (false, line, w)
  | fuel + 1, line, lastFull, keyPos, w =>
    match kfileGets fd line iniMaxLineLen w with
    | (err, line', w') =>
      if getKey line' 30 = key then (true, line', fd.seek w' keyPos)
      else
        let lastFull' := if !lineEmpty line' && line' 0 != chOpen then fd.seekPos w' else lastFull
        if err.isNone || line' 0 == chOpen then (false, line', fd.seek w' lastFull')
        else findKeyLoop key fuel line' lastFull' (fd.seekPos w') w'

def findKey (key : List UInt8) (line : ℕ → UInt8) (w : W) : Bool × (ℕ → UInt8) × W :=
  findKeyLoop fd key (fd.size w + 1) line (fd.seekPos w) (fd.seekPos w) w

/-- What is returned, `true` for `0`, and the string left in the buffer. -/
def iniGetString (name key defaultValue : List UInt8) (size : ℕ) (stack : ℕ → UInt8) (w : W) :
    (Bool × List UInt8) × W :=
  match findSection fd name stack (fd.seek w 0) with
  | (false, _, w₁) => ((false, defaultValue.take (size - 1)), w₁)
  | (true, line, w₁) =>
    match findKey fd key line w₁ with
    | (false, _, w₂) => ((false, defaultValue.take (size - 1)), w₂)
    | (true, line', w₂) => ((true, getValue line' size), w₂)

/-- The loop of `findLastLine`. -/
def findLastLineLoop : (fuel : ℕ) → (ℕ → UInt8) → (lastFull : ℕ) → W → ℕ × (ℕ → UInt8) × W
  | 0, line, lastFull, w => (lastFull, line, w)
  | fuel + 1, line, lastFull, w =>
    match kfileGets fd line iniMaxLineLen w with
    | (err, line', w') =>
      let lastFull' := if lineEmpty line' then lastFull else fd.seekPos w'
      match err with
      | none => (lastFull', line', w')
      | some _ => findLastLineLoop fuel line' lastFull' w'

def findLastLine (line : ℕ → UInt8) (w : W) : ℕ × W :=
  match findLastLineLoop fd (fd.size w + 1) line (fd.seekPos w) w with
  | (lastFull, _, w') => (lastFull, fd.seek w' (fd.seekPos w))

end Find

/-! ## Storing -/

section Store

variable {W : Type} (inp out : KFile W)

/-- A string as `%s` prints it: at most 10000 characters. -/
def fmtString (s : List UInt8) : List UInt8 := s.take 10000

/-- The texts of `"\n[%s]\n"` and `"%s=%s\n"`. -/
def sectionText (name : List UInt8) : List UInt8 := [chLf, chOpen] ++ fmtString name ++ [chClose, chLf]

def keyText (key value : List UInt8) : List UInt8 := fmtString key ++ [chEq] ++ fmtString value ++ [chLf]

/-- The part of `ini_setString` that finds the place: whether section and key are there; the position is left there. -/
def iniFind (name key : List UInt8) (stack : ℕ → UInt8) (w : W) : Bool × Bool × (ℕ → UInt8) × W :=
  match findSection inp name stack w with
  | (false, line, w₁) => (false, false, line, w₁)
  | (true, line, w₁) =>
    match findKey inp key line w₁ with
    | (found, line', w₂) => (true, found, line', w₂)

/-- The part of `ini_setString` that prints the new lines. -/
def iniPrint (name key : List UInt8) (value : Option (List UInt8)) (sectionFound : Bool) (w : W) : Bool × W :=
  match value with
  | none => (true, w)
  | some v =>
    match if sectionFound then (name.length + 4, w) else kfilePrintf out (sectionText name) w with
    | (n, w₁) =>
      if n ≠ name.length + 4 then (false, w₁)
      else
        match kfilePrintf out (keyText key v) w₁ with
        | (n', w₂) => (n' == key.length + v.length + 2, w₂)

/-- The part of `ini_setString` that wipes out the rest of the file. -/
def iniWipe (w : W) : Bool × W :=
  let fill := out.size w - out.seekPos w
  if fill = 0 then (true, w)
  else
    match kfilePutc out chLf w with
    | (false, w₁) => (false, w₁)
    | (true, w₁) => kfileFill out chSpace (fill - 1) w₁

/-- The part of `ini_setString` that copies what follows the place. -/
def iniCopyRest (keyFound : Bool) (line : ℕ → UInt8) (w : W) : Bool × W :=
  match if keyFound then kfileGets inp line iniMaxLineLen w else (none, line, w) with
  | (_, line', w₁) =>
    let len := inp.size w₁ - inp.seekPos w₁
    match findLastLine inp line' w₁ with
    | (lastFull, w₂) =>
      let bytesNeeded := lastFull - inp.seekPos w₂
      match kfileCopy inp out len w₂ with
      | (n, w₃) => if n < bytesNeeded then (false, w₃) else iniWipe out w₃

/-- `true` for `0`. -/
def iniSetString (name key : List UInt8) (value : Option (List UInt8)) (stack : ℕ → UInt8) (w : W) : Bool × W :=
  match iniFind inp name key stack (out.seek (inp.seek w 0) 0) with
  | (sectionFound, keyFound, line, w₁) =>
    let len := inp.seekPos w₁
    match kfileCopy inp out len (inp.seek w₁ 0) with
    | (n, w₂) =>
      if n ≠ len then (false, w₂)
      else
        match iniPrint out name key value sectionFound w₂ with
        | (false, w₃) => (false, w₃)
        | (true, w₃) => iniCopyRest inp out keyFound line w₃

end Store

end Bertos
