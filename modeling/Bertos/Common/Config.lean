import Bertos.Common.Dli

/-!
# Configuration entries and the `dli_set` command (`common/config.c`, `common/dli.c`)

A configuration entry has a name, a default text, and a function `setp` that converts a text and writes the entry's
variable (`confInt`, `confBool`, `confBoolArray`, `confString`). The command `dli_set` calls this function and then
stores the text (`cmdDliSet`); `config_load` calls it with the stored text, or the default (`configLoad`).

Texts are the characters of a C string, without the terminator. An `int` and a `long` have 32 bits.
-/

namespace Bertos

/-! ## Conversions of the C library -/

/-- The value of a character as a digit; 36 if it is none. -/
def digitVal (c : UInt8) : ℕ :=
  if 48 ≤ c ∧ c ≤ 57 then c.toNat - 48
  else if 97 ≤ c ∧ c ≤ 122 then c.toNat - 87
  else if 65 ≤ c ∧ c ≤ 90 then c.toNat - 55
  else 36

def longMax : ℤ := 2147483647
def longMin : ℤ := -2147483648

/-- What `strtol` leaves: the value, whether `errno` is `ERANGE`, and whether `endptr` is the start of the text. -/
structure StrtolResult where
  conv : ℤ
  erange : Bool
  nothing : Bool
  deriving DecidableEq

/-- The base that `strtol` takes for base 0, and the digits without their prefix. -/
def strtolBase : List UInt8 → ℕ × List UInt8
  | 48 :: x :: c :: s =>
    if (x = 120 ∨ x = 88) ∧ digitVal c < 16 then (16, c :: s) else (8, 48 :: x :: c :: s)
  | 48 :: s => (8, 48 :: s)
  | s => (10, s)

def digitsVal (base : ℕ) (ds : List UInt8) : ℕ :=
  ds.foldl (fun acc c => acc * base + digitVal c) 0

/-- `strtol(s, &endptr, 0)`. -/
def strtol (s : List UInt8) : StrtolResult :=
  let t := s.dropWhile isspace
  let neg := t.head? = some 45
  let t := if t.head? = some 45 ∨ t.head? = some 43 then t.drop 1 else t
  let ds := (strtolBase t).2.takeWhile fun c => digitVal c < (strtolBase t).1
  let v : ℤ := if neg then -digitsVal (strtolBase t).1 ds else digitsVal (strtolBase t).1 ds
  if ds = [] then ⟨0, false, true⟩
  else if longMax < v then ⟨longMax, true, false⟩
  else if v < longMin then ⟨longMin, true, false⟩
  else ⟨v, false, false⟩

def tolower (c : UInt8) : UInt8 := if 65 ≤ c ∧ c ≤ 90 then c + 32 else c

/-- `strcasecmp(s, t) == 0`. -/
def strcaseeq (s t : List UInt8) : Bool := s.map tolower = t.map tolower

/-- What `strncpy` leaves in the first `n` characters. -/
def strncpy (s : List UInt8) (n : ℕ) : List UInt8 := s.take n ++ List.replicate (n - s.length) 0

/-! ## The functions that set a variable -/

inductive SetPRetVals
  | ok
  | okClamped
  | convErr
  deriving DecidableEq, Repr

/-- The variables that entries are about; `F` is the type `float`. The buffer of a string has one character more
than its size says. -/
inductive ConfigVar (F : Type)
  | int (v : ℤ)
  | float (v : F)
  | bool (b : Bool)
  | boolArray (ba : List Bool)
  | string (p : List UInt8)
  deriving DecidableEq

/-- What a function of an entry returns, and what it leaves in the variable and in the text it was given. -/
structure SetPResult (F : Type) where
  ret : SetPRetVals
  var : ConfigVar F
  val : List UInt8

structure ConfigEntry (F : Type) where
  name : List UInt8
  defaultVal : List UInt8
  setp : (val : List UInt8) → (useDefault : Bool) → ConfigVar F → SetPResult F

section Setters

variable {F : Type}

def minmax (lo x hi : ℤ) : ℤ := min (max lo x) hi

/-- The test of the conversion in `config_setInt`; `errno` is zero or `ERANGE`. -/
def StrtolResult.failed (r : StrtolResult) : Bool :=
  r.erange && (r.conv == longMax || r.conv == longMin) || r.erange && r.conv == 0 || r.nothing

def configSetInt (lo hi : ℤ) (defaultVal val : List UInt8) (useDefault : Bool) (var : ConfigVar F) : SetPResult F :=
  let r := strtol val
  if r.failed then
    if useDefault then ⟨.convErr, .int (strtol defaultVal).conv, val⟩ else ⟨.convErr, var, val⟩
  else if r.conv ≠ minmax lo r.conv hi then ⟨.okClamped, .int (minmax lo r.conv hi), val⟩
  else ⟨.ok, .int r.conv, val⟩

/-- The texts that `config_setBool` knows. -/
def trueTexts : List (List UInt8) := ["true", "1", "on", "enable"].map fun s => ascii s.toList
def falseTexts : List (List UInt8) := ["false", "0", "off", "disable"].map fun s => ascii s.toList

def decodeBool (val : List UInt8) : Option Bool :=
  if trueTexts.any (strcaseeq val) then some true
  else if falseTexts.any (strcaseeq val) then some false
  else none

/-- The loop of the source is left after the first turn, or, with the default, after the second. -/
def configSetBool (defaultVal val : List UInt8) (useDefault : Bool) (var : ConfigVar F) : SetPResult F :=
  match decodeBool val with
  | some b => ⟨.ok, .bool b, val⟩
  | none =>
    if useDefault then
      match decodeBool defaultVal with
      | some b => ⟨.convErr, .bool b, val⟩
      | none => ⟨.convErr, var, val⟩
    else ⟨.convErr, var, val⟩

/-- Whether the text is good, and the elements that are written before it is known. -/
def decodeBoolArray : (size : ℕ) → List UInt8 → Bool × List Bool
  | 0, _ => (true, [])
  | 1, s => if s.headD 0 ≠ 48 ∧ s.headD 0 ≠ 49 then (false, []) else (true, [s.headD 0 == 49])
  | size + 2, s =>
    if s.headD 0 ≠ 48 ∧ s.headD 0 ≠ 49 then (false, [])
    else if (s.drop 1).headD 0 ≠ chSpace then (false, [])
    else
      match decodeBoolArray size (s.drop 2) with
      | (good, bs) => (good, (s.headD 0 == 49) :: bs)

/-- The array with its first elements replaced. -/
def ConfigVar.overwrite (bs : List Bool) : ConfigVar F → ConfigVar F
  | .boolArray ba => .boolArray (bs ++ ba.drop bs.length)
  | var => var

/-- An array of `size` elements, at least one. -/
def configSetBoolArray (size : ℕ) (defaultVal val : List UInt8) (useDefault : Bool) (var : ConfigVar F) :
    SetPResult F :=
  let expectedLen := size * 2 - 1
  let error (val : List UInt8) : SetPResult F :=
    if useDefault then ⟨.convErr, var.overwrite (decodeBoolArray expectedLen defaultVal).2, val⟩
    else ⟨.convErr, var, val⟩
  if val.length < expectedLen then error val
  else
    -- the text is cut where the array ends
    match decodeBoolArray expectedLen (val.take expectedLen) with
    | (false, _) => error (val.take expectedLen)
    | (true, bs) =>
      ⟨if expectedLen < val.length then .okClamped else .ok, .boolArray bs, val.take expectedLen⟩

/-- The terminator is written behind the string, whatever the text is. -/
def ConfigVar.terminate (size : ℕ) : ConfigVar F → ConfigVar F
  | .string p => .string (p.set size 0)
  | var => var

def configSetString (size : ℕ) (defaultVal val : List UInt8) (useDefault : Bool) (var : ConfigVar F) : SetPResult F :=
  if val.length = 0 then
    if useDefault then ⟨.convErr, .string (strncpy defaultVal size ++ [0]), val⟩
      else ⟨.convErr, var.terminate size, val⟩
  else ⟨if size < val.length then .okClamped else .ok, .string (strncpy val size ++ [0]), val⟩

/-! ### Declarations of entries -/

def confInt (name : List UInt8) (lo hi : ℤ) (defaultVal : List UInt8) : ConfigEntry F :=
  ⟨name, defaultVal, configSetInt lo hi defaultVal⟩

def confBool (name defaultVal : List UInt8) : ConfigEntry F :=
  ⟨name, defaultVal, configSetBool defaultVal⟩

def confBoolArray (name : List UInt8) (size : ℕ) (defaultVal : List UInt8) : ConfigEntry F :=
  ⟨name, defaultVal, configSetBoolArray size defaultVal⟩

def confString (name : List UInt8) (size : ℕ) (defaultVal : List UInt8) : ConfigEntry F :=
  ⟨name, defaultVal, configSetString size defaultVal⟩

end Setters

/-! ## Registered entries -/

def cfgNameMax : ℕ := 32
def maxVal : ℕ := cfgNameMax
def dliValMaxLen : ℕ := 128

/-- The table of a module, each entry with its variable. -/
abbrev ConfigTable (F : Type) : Type := List (ConfigEntry F × ConfigVar F)

section Registry

variable {F : Type}

/-- `strncmp` of the name and the key, over `CFG_NAME_MAX` characters. -/
def ConfigEntry.matches (e : ConfigEntry F) (key : List UInt8) : Bool := e.name.take cfgNameMax = key.take cfgNameMax

/-- `config_findEntry` and the call of `setp` in `cmd_dli_set`, over the tables of all modules one after the other: what
the function of the first entry that matches returns, its text, and the tables afterwards. -/
def setEntry (key val : List UInt8) : ConfigTable F → Option (SetPRetVals × List UInt8) × ConfigTable F
  | [] => (none, [])
  | (e, var) :: tbl =>
    if e.matches key then
      (some ((e.setp val false var).ret, (e.setp val false var).val), (e, (e.setp val false var).var) :: tbl)
    else
      match setEntry key val tbl with
      | (r, tbl') => (r, (e, var) :: tbl')

end Registry

inductive DliReply
  | ok
  | error (msg : String)
  deriving DecidableEq, Repr

section Command

variable {F : Type} (line : ℕ → WriteOutcome) (order : ArgOrder)

/-- `cmd_dli_set` after the function of the entry. The semaphore and the functions that reload a module are left out. -/
def storeEntry (key : List UInt8) (stack : ℕ → UInt8) (w : Dli) :
    SetPRetVals → (val : List UInt8) → Option (DliReply × Dli)
  | .convErr, _ => some (.error "Conversion error.", w)
  | ret, val =>
    match dliSet line order key val stack w with
    | none => none
    | some (false, w') => some (.error "Error while writing DLI.", w')
    | some (true, w') => some (if ret = .ok then .ok else .error "Value clamped!", w')

/-- The command `dli_set` with the bytes of its two arguments: the reply, and the entries and the store afterwards. -/
def cmdDliSet (keyArg valArg : List UInt8) (stack : ℕ → UInt8) (tbl : ConfigTable F) (w : Dli) :
    Option (DliReply × ConfigTable F × Dli) :=
  if dliValMaxLen < valArg.length then some (.error "Value too long.", tbl, w)
  else
    match setEntry (cstr keyArg) (cstr valArg) tbl with
    | (none, tbl') => (storeEntry line order (cstr keyArg) stack w .ok (cstr valArg)).map fun r => (r.1, tbl', r.2)
    | (some (ret, val), tbl') => (storeEntry line order (cstr keyArg) stack w ret val).map fun r => (r.1, tbl', r.2)

/-- One turn of the loop of `config_load`; the buffer has `MAX_VAL` characters. -/
def loadEntry (stack : ℕ → UInt8) (e : ConfigEntry F) (var : ConfigVar F) (w : Dli) : Option (ConfigVar F × Dli) :=
  match dliGet line e.name e.defaultVal maxVal stack w with
  | none => none
  | some ((_, input), w') => some ((e.setp (cstr input) true var).var, w')

def configLoad (stack : ℕ → UInt8) : ConfigTable F → Dli → Option (ConfigTable F × Dli)
  | [], w => some ([], w)
  | (e, var) :: tbl, w =>
    match loadEntry line stack e var w with
    | none => none
    | some (var', w') =>
      match configLoad stack tbl w' with
      | none => none
      | some (tbl', w'') => some ((e, var') :: tbl', w'')

end Command

end Bertos
