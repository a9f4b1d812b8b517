import Bertos.Mware.IniFind
import Mathlib.Data.Nat.Find

/-!
# Line editing (`bertos/mware/readline.c`)

The lines that were read stay in a buffer of 32 bytes, separated by NUL bytes, and the oldest one is dropped when there
is no room. `RlInv` says where in the buffer the line that is being edited is. Every key keeps it (`rlStep_ok`), but
for three cases that `StepSafe` rules out: the line itself fills the buffer, the last insertion of a line end drops a
line, and a line ends behind erased characters. The main result is `readline_returns`.
-/

namespace Bertos

open List

/-! ## The editor -/

def historySize : ℕ := 32

structure RLContext where
  realHistory : ℕ → UInt8
  /-- `real_history - history`. -/
  shift : ℕ
  historyPos : ℕ
  linePos : ℕ

def rlInitCtx : RLContext := ⟨fun _ => 0, 0, 0, 0⟩

/-- The string at an index of `real_history`, `none` if it does not end in the buffer. -/
def stringAt (realHistory : ℕ → UInt8) (i : ℕ) : Option (List UInt8) :=
  let text := Mem.read realHistory i (historySize - i)
  if 0 ∈ text then some (cstr text) else none

/-- `none` is an access outside of the buffer or a failed assertion; so it is in what follows. -/
def popHistory (ctx : RLContext) (totalLen : ℕ) : Option (Bool × RLContext) :=
  match stringAt ctx.realHistory 1 with
  | none => none
  | some first =>
    let len := first.length + 1
    if ctx.realHistory 0 ≠ 0 then none
    else if len = totalLen then some (false, ctx)
    else
      some (true, { ctx with
        realHistory := Mem.write ctx.realHistory 0 (Mem.read ctx.realHistory len (historySize - len))
        shift := ctx.shift + len })

/-- The first loop of `insert_chars`. Every turn moves `history` back, so `historySize` turns are enough. `line_pos` is
passed as an `int`. -/
def makeRoom (numChars : ℕ) : ℕ → RLContext → Option (Bool × RLContext)
  | 0, _ => none
  | fuel + 1, ctx =>
    if ctx.linePos + numChars + 1 < ctx.shift + historySize then some (true, ctx)
    else
      match popHistory ctx (ctx.linePos % 4294967296) with
      | some (true, ctx') => makeRoom numChars fuel ctx'
      | r => r

def insertChars (ctx : RLContext) (ch : List UInt8) : Option (Bool × RLContext) :=
  if ctx.linePos < ctx.shift + historySize then
    match makeRoom ch.length historySize ctx with
    | some (true, ctx') =>
      if ctx'.shift ≤ ctx'.linePos + 1 ∧ ctx'.linePos + ch.length + 1 < ctx'.shift + historySize then
        some (true, { ctx' with
          realHistory := Mem.write ctx'.realHistory (ctx'.linePos + 1 - ctx'.shift) (ch ++ [0])
          linePos := ctx'.linePos + ch.length })
      else none
    | r => r
  else none

inductive RlKey where
  | char (c : UInt8)
  | backspace
  | lineEnd
  deriving DecidableEq

def rlKey (c : UInt8) : RlKey :=
  if c = 8 then .backspace else if c = chCr ∨ c = chLf then .lineEnd else .char c

inductive RlOut where
  | echo
  | beep
  | erased
  | ignored
  | returned (line : Option (List UInt8))
  deriving DecidableEq

/-- `while (ctx->history[ctx->line_pos] != '\0') --ctx->line_pos;`, at an index into `real_history`. -/
def lineStart (realHistory : ℕ → UInt8) : ℕ → Option ℕ
  | 0 => if realHistory 0 = 0 then some 0 else none
  | i + 1 => if realHistory (i + 1) = 0 then some (i + 1) else lineStart realHistory i

/-- The end of `rl_readline`. The string is what the caller finds at the pointer that is returned. -/
def rlLineEnd (ctx : RLContext) : Option (RLContext × RlOut) :=
  match lineStart ctx.realHistory (ctx.linePos - ctx.shift) with
  | none => none
  | some start =>
    -- empty lines are not stored
    let pos := if start = ctx.linePos - ctx.shift then ctx.linePos else ctx.linePos + 1
    match insertChars { ctx with historyPos := pos, linePos := pos } [] with
    | none => none
    | some (_, ctx') => some (ctx', .returned (stringAt ctx'.realHistory (start + 1)))

/-- A turn of the loop of `rl_readline`. -/
def rlStep (ctx : RLContext) (key : RlKey) : Option (RLContext × RlOut) :=
  if ctx.shift ≤ ctx.linePos ∧ ctx.linePos < ctx.shift + historySize then
    match key with
    | .char c =>
      match insertChars ctx [c] with
      | none => none
      | some (true, ctx') => some (ctx', .echo)
      | some (false, ctx') => some (ctx', .beep)
    | .backspace =>
      if ctx.realHistory (ctx.linePos - ctx.shift) = 0 then some (ctx, .ignored)
      -- the next assertion fails
      else if ctx.linePos = 0 then none
      else some ({ ctx with linePos := ctx.linePos - 1 }, .erased)
    | .lineEnd => rlLineEnd ctx
  else none

/-! ## What is to be returned -/

/-- The line that is typed, after a key. A character that is refused is answered by a beep. -/
def typed (line : List UInt8) : RlKey → RlOut → List UInt8
  | .char c, .echo => line ++ [c]
  | .char _, _ => line
  | .backspace, _ => line.dropLast
  | .lineEnd, _ => []

/-- From `ctx` on, when `line` has been typed, nothing goes wrong and what is returned is what was typed. -/
def RlCorrect (line : List UInt8) (ctx : RLContext) : List RlKey → Prop
  | [] => ctx.realHistory 0 = 0
  | key :: keys =>
    ctx.realHistory 0 = 0 ∧
      match rlStep ctx key with
      | none => False
      | some (ctx', out) =>
        (key = .lineEnd → out = .returned (some line)) ∧ RlCorrect (typed line key out) ctx' keys

instance decidableRlCorrect : (keys : List RlKey) → (line : List UInt8) → (ctx : RLContext) →
    Decidable (RlCorrect line ctx keys)
  | [], _, _ => instDecidableEqUInt8 _ _
  | key :: keys, line, _ =>
    have (r : Option (RLContext × RlOut)) : Decidable (match r with
        | none => False
        | some (ctx', out) =>
          (key = .lineEnd → out = .returned (some line)) ∧ RlCorrect (typed line key out) ctx' keys) :=
      match r with
      | none => instDecidableFalse
      | some (ctx', out) =>
        have := decidableRlCorrect keys (typed line key out) ctx'
        instDecidableAnd
    instDecidableAnd

/-- A character finds room or a line to drop. A line end finds an empty line, or room and a terminator. -/
def StepSafe (ctx : RLContext) : RlKey → Prop
  | .char _ => ctx.linePos + 2 < ctx.shift + historySize ∨
      0 ∈ Mem.read ctx.realHistory 1 (ctx.linePos - ctx.shift)
  | .backspace => True
  | .lineEnd => ctx.realHistory (ctx.linePos - ctx.shift) = 0 ∨
      ctx.linePos + 2 < ctx.shift + historySize ∧ ctx.realHistory (ctx.linePos - ctx.shift + 1) = 0

/-- Every key of a run is safe in the state that it finds. -/
def RlSafe (ctx : RLContext) : List RlKey → Prop
  | [] => True
  | key :: keys =>
    StepSafe ctx key ∧
      match rlStep ctx key with
      | none => True
      | some (ctx', _) => RlSafe ctx' keys

instance (ctx : RLContext) : (key : RlKey) → Decidable (StepSafe ctx key)
  | .char _ => instDecidableOr
  | .backspace => instDecidableTrue
  | .lineEnd => instDecidableOr

instance decidableRlSafe : (keys : List RlKey) → (ctx : RLContext) → Decidable (RlSafe ctx keys)
  | [], _ => instDecidableTrue
  | _ :: keys, _ =>
    have (r : Option (RLContext × RlOut)) : Decidable (match r with
        | none => True
        | some (ctx', _) => RlSafe ctx' keys) :=
      match r with
      | none => instDecidableTrue
      | some (ctx', _) => decidableRlSafe keys ctx'
    instDecidableAnd

/-! ## The invariant -/

/-- The line that is being edited stands behind the NUL byte at `start`. -/
structure RlInv (start : ℕ) (line : List UInt8) (ctx : RLContext) : Prop where
  first : ctx.realHistory 0 = 0
  pos : ctx.linePos = ctx.shift + start + line.length
  room : start + line.length + 1 < historySize
  text : Mem.read ctx.realHistory start (line.length + 1) = 0 :: line
  plain : 0 ∉ line

/-! ### Strings in the buffer -/

section Strings

variable {realHistory : ℕ → UInt8} {i : ℕ}

theorem stringAt_of_text {line : List UInt8} (hi : i + line.length < historySize) (hplain : 0 ∉ line)
    (hline : Mem.read realHistory i line.length = line) (hz : realHistory (i + line.length) = 0) :
    stringAt realHistory i = some line := by
  have hsplit : historySize - i = line.length + (historySize - i - line.length - 1 + 1) := by omega
  have htext : Mem.read realHistory i (historySize - i) =
      line ++ 0 :: Mem.read realHistory (i + line.length + 1) (historySize - i - line.length - 1) := by
    conv_lhs => rw [hsplit]
    rw [Mem.read_add, hline, Mem.read_succ, hz]
  rw [stringAt, htext]
  have hmem : (0 : UInt8) ∈ line ++ 0 :: Mem.read realHistory (i + line.length + 1)
    (historySize - i - line.length - 1) :=
    mem_append_right _ mem_cons_self
  rw [if_pos hmem, cstr_append]
  rintro c hc rfl
  exact hplain hc

/-- A string ends at the first NUL byte. -/
theorem stringAt_of_zero (n : ℕ) (hi : i + n < historySize) (hz : realHistory (i + n) = 0) :
    ∃ k ≤ n, stringAt realHistory i = some (Mem.read realHistory i k) ∧ realHistory (i + k) = 0 := by
  -- the first NUL byte
  have hex : ∃ k, realHistory (i + k) = 0 := ⟨n, hz⟩
  refine ⟨Nat.find hex, Nat.find_min' hex hz, ?_, Nat.find_spec hex⟩
  have hle := Nat.find_min' hex hz
  have hlen := Mem.length_read realHistory i (Nat.find hex)
  apply stringAt_of_text
  · omega
  · intro hmem
    obtain ⟨j, hj, he⟩ := getElem_of_mem hmem
    rw [Mem.getElem_read] at he
    exact Nat.find_min hex (by omega) he
  · rw [hlen]
  · rw [hlen]
    exact Nat.find_spec hex

end Strings

/-! ### The steps -/

section Steps

variable {start : ℕ} {line : List UInt8} {ctx : RLContext}

theorem rlInv_init : RlInv 0 [] rlInitCtx where
  first := rfl
  pos := rfl
  room := by decide
  text := rfl
  plain := not_mem_nil

section
variable (h : RlInv start line ctx)
include h

theorem RlInv.separator : ctx.realHistory start = 0 := by
  have ht := h.text
  rw [Mem.read_succ] at ht
  exact (cons.inj ht).1

theorem RlInv.index : ctx.linePos - ctx.shift = start + line.length := by
  rw [h.pos, Nat.add_assoc, Nat.add_sub_cancel_left]

theorem RlInv.read_line : Mem.read ctx.realHistory (start + 1) line.length = line := by
  have ht := h.text
  rw [Mem.read_succ] at ht
  exact (cons.inj ht).2

/-- The only NUL bytes up to the end of the line are in front of it. -/
theorem RlInv.start_pos (hz : 0 ∈ Mem.read ctx.realHistory 1 (ctx.linePos - ctx.shift)) : 0 < start := by
  rw [h.index] at hz
  refine Nat.pos_of_ne_zero fun h0 => h.plain ?_
  subst h0
  rw [Nat.zero_add, ← Nat.zero_add 1, h.read_line] at hz
  exact hz

/-- A line is dropped, if there is one. -/
theorem RlInv.pop (hs : 0 < start) (totalLen : ℕ) : popHistory ctx totalLen = some (false, ctx) ∨
      ∃ start' ctx', popHistory ctx totalLen = some (true, ctx') ∧ start' < start ∧ RlInv start' line ctx' := by
  have hroom := h.room
  obtain ⟨start, rfl⟩ := Nat.exists_eq_add_of_lt hs
  rw [Nat.zero_add] at h hroom
  obtain ⟨k, hk, hfirst, hz⟩ := stringAt_of_zero (i := 1) start (by omega)
    (by rw [Nat.add_comm]; exact h.separator)
  rw [popHistory, hfirst]
  simp only [Mem.length_read, h.first, ne_eq, not_true_eq_false, if_false]
  by_cases ht : k + 1 = totalLen
  · rw [if_pos ht]
    exact .inl rfl
  · rw [if_neg ht]
    refine .inr ⟨start - k, _, rfl, by omega, ?_⟩
    -- the bytes from `k + 1` on move to the front
    have hmove : ∀ a n, a + n ≤ historySize - (k + 1) →
        Mem.read (Mem.write ctx.realHistory 0 (Mem.read ctx.realHistory (k + 1) (historySize - (k + 1)))) a n =
          Mem.read ctx.realHistory (k + 1 + a) n := by
      intro a n han
      refine Mem.read_eq_of_forall (Mem.length_read _ _ _) fun j hj => ?_
      have hget := Mem.write_of_mem ctx.realHistory 0 (Mem.read ctx.realHistory (k + 1) (historySize - (k + 1)))
        (i := a + j) (Nat.zero_le _) (by rw [Mem.length_read]; omega)
      rw [hget, Mem.getElem?_read _ _ _ hj, Nat.sub_zero, Mem.getElem?_read _ _ _ (by omega), Nat.add_assoc]
    refine ⟨?_, ?_, ?_, ?_, h.plain⟩
    · have hhead := hmove 0 1 (by omega)
      rw [Mem.read_succ, Mem.read_succ] at hhead
      dsimp only
      rw [(cons.inj hhead).1, Nat.add_zero, Nat.add_comm]
      exact hz
    · have hpos := h.pos
      simp only
      omega
    · omega
    · rw [hmove _ _ (by omega), show k + 1 + (start - k) = start + 1 by omega, h.text]

/-- A character is added to the line. -/
theorem RlInv.write {c : UInt8} (hc : c ≠ 0) (hroom : start + line.length + 2 < historySize) :
    RlInv start (line ++ [c]) { ctx with
      realHistory := Mem.write ctx.realHistory (ctx.linePos + 1 - ctx.shift) ([c] ++ [0])
      linePos := ctx.linePos + 1 } := by
  have hpos := h.pos
  have hidx : ctx.linePos + 1 - ctx.shift = start + line.length + 1 := by omega
  rw [hidx]
  refine ⟨?_, ?_, ?_, ?_, ?_⟩
  · dsimp only
    rw [Mem.write_of_not_mem _ _ _ (.inl (by omega)), h.first]
  · simp only [length_append, length_singleton]
    omega
  · rw [length_append, length_singleton]
    omega
  · dsimp only
    have hlow := Mem.read_write_of_disjoint ctx.realHistory (start + line.length + 1) ([c] ++ [0]) (b := start)
      (n := line.length + 1) (.inl (by omega))
    rw [length_append, length_singleton, Mem.read_add, hlow, h.text, ← Nat.add_assoc, Mem.read_succ,
      ← Nat.add_zero (start + line.length + 1), Mem.write_add _ _ _ (by simp)]
    rfl
  · rw [mem_append, mem_singleton]
    rintro (hm | hm)
    · exact h.plain hm
    · exact hc hm.symm

end

theorem makeRoom_of_room (numChars fuel : ℕ) (h : ctx.linePos + numChars + 1 < ctx.shift + historySize) :
    makeRoom numChars (fuel + 1) ctx = some (true, ctx) := by
  rw [makeRoom, if_pos h]

/-- Room for a character. -/
theorem RlInv.roomMade (h : RlInv start line ctx)
    (hsafe : ctx.linePos + 2 < ctx.shift + historySize ∨ 0 < start) :
    makeRoom 1 historySize ctx = some (false, ctx) ∨
      ∃ start' ctx', makeRoom 1 historySize ctx = some (true, ctx') ∧ start' + line.length + 2 < historySize ∧
        RlInv start' line ctx' := by
  have hpos := h.pos
  have hroom := h.room
  by_cases hfull : ctx.linePos + 1 + 1 < ctx.shift + historySize
  · exact .inr ⟨start, ctx, makeRoom_of_room 1 31 hfull, by omega, h⟩
  · have hs : 0 < start := hsafe.resolve_left (by omega)
    have hturn : makeRoom 1 historySize ctx = match popHistory ctx (ctx.linePos % 4294967296) with
        | some (true, ctx') => makeRoom 1 31 ctx'
        | r => r := by
      show makeRoom 1 (31 + 1) ctx = _
      rw [makeRoom, if_neg hfull]
    rw [hturn]
    obtain hno | ⟨start', ctx', hpop, hlt, h'⟩ := h.pop hs (ctx.linePos % 4294967296)
    · rw [hno]
      exact .inl rfl
    · rw [hpop]
      have hpos' := h'.pos
      exact .inr ⟨start', ctx', makeRoom_of_room 1 30 (by omega), by omega, h'⟩

/-- The character is added, or refused. -/
theorem RlInv.insertChar (h : RlInv start line ctx) {c : UInt8} (hc : c ≠ 0)
    (hsafe : ctx.linePos + 2 < ctx.shift + historySize ∨ 0 < start) :
    insertChars ctx [c] = some (false, ctx) ∨
      ∃ start' ctx', insertChars ctx [c] = some (true, ctx') ∧ RlInv start' (line ++ [c]) ctx' := by
  have hpos := h.pos
  have hroom := h.room
  rw [insertChars, if_pos (by omega), length_singleton]
  obtain hno | ⟨start', ctx', hmade, hroom', h'⟩ := h.roomMade hsafe
  · rw [hno]
    exact .inl rfl
  · rw [hmade]
    have hpos' := h'.pos
    refine .inr ⟨start', _, if_pos ⟨by omega, by omega⟩, h'.write hc hroom'⟩

/-- The last character can be erased. -/
theorem RlInv.erase {c : UInt8} (h : RlInv start (line ++ [c]) ctx) :
    ctx.realHistory (start + (line ++ [c]).length) ≠ 0 ∧ RlInv start line { ctx with linePos := ctx.linePos - 1 } := by
  obtain ⟨hfirst, hpos, hroom, htext, hplain⟩ := h
  rw [length_append, length_singleton, Mem.read_add, ← cons_append] at *
  obtain ⟨hinit, hlast⟩ := append_inj htext (Mem.length_read _ _ _)
  rw [Mem.read_succ] at hlast
  constructor
  · rw [(cons.inj hlast).1]
    rintro rfl
    exact hplain (mem_append_right _ mem_cons_self)
  · refine ⟨hfirst, ?_, by omega, hinit, fun hm => hplain (mem_append_left _ hm)⟩
    dsimp only
    omega

theorem lineStart_eq (h : RlInv start line ctx) : lineStart ctx.realHistory (start + line.length) = some start := by
  induction line using reverseRecOn generalizing ctx with
  | nil =>
    cases start with
    | zero | succ start => exact if_pos h.separator
  | append_singleton line c ih =>
    obtain ⟨hne, h'⟩ := h.erase
    rw [length_append, length_singleton, ← Nat.add_assoc] at hne ⊢
    rw [lineStart, if_neg hne]
    have he := ih h'
    exact he

/-- The insertion at a line end writes a NUL byte. -/
theorem insertChars_nil {n : ℕ} (hroom : n + 1 < historySize) :
    insertChars { ctx with historyPos := ctx.shift + n, linePos := ctx.shift + n } [] =
      some (true, { ctx with
        realHistory := Mem.write ctx.realHistory (n + 1) [0]
        historyPos := ctx.shift + n
        linePos := ctx.shift + n }) := by
  generalize hc : { ctx with historyPos := ctx.shift + n, linePos := ctx.shift + n } = ctx'
  have hpos : ctx'.linePos = ctx'.shift + n := by rw [← hc]
  have hmade : makeRoom 0 historySize ctx' = some (true, ctx') := makeRoom_of_room 0 31 (by omega)
  rw [insertChars, if_pos (by omega), length_nil, hmade]
  simp only [nil_append, Nat.add_zero]
  rw [if_pos ⟨by omega, by omega⟩, hpos, Nat.add_assoc, Nat.add_sub_cancel_left, ← hc]

/-- The line ends at a NUL byte, and the next one begins there. -/
theorem RlInv.endAt (h : RlInv start line ctx) {n : ℕ} (hn : ctx.realHistory n = 0) (hroom : n + 1 < historySize)
    (hcase : line = [] ∧ n = start ∨ n = start + line.length + 1) :
    stringAt (Mem.write ctx.realHistory (n + 1) [0]) (start + 1) = some line ∧
      RlInv n [] { ctx with
        realHistory := Mem.write ctx.realHistory (n + 1) [0]
        historyPos := ctx.shift + n
        linePos := ctx.shift + n } := by
  have hbefore : ∀ i ≤ n, Mem.write ctx.realHistory (n + 1) [0] i = ctx.realHistory i :=
    fun i hi => Mem.write_of_not_mem _ _ _ (.inl (by omega))
  constructor
  · have hlen : start + line.length ≤ n := by
      obtain ⟨rfl, rfl⟩ | rfl := hcase
      · exact Nat.le_refl _
      · exact Nat.le_succ _
    apply stringAt_of_text
    · obtain ⟨rfl, rfl⟩ | rfl := hcase
      · exact hroom
      · omega
    · exact h.plain
    · rw [Mem.read_write_of_disjoint _ _ _ (.inl (by omega)), h.read_line]
    · obtain ⟨rfl, rfl⟩ | rfl := hcase
      · have hcell := Mem.read_write_self ctx.realHistory (n + 1) [0]
        rw [length_singleton, Mem.read_succ] at hcell
        exact (cons.inj hcell).1
      · rw [hbefore _ (by omega), Nat.add_right_comm, hn]
  · refine ⟨?_, rfl, hroom, ?_, not_mem_nil⟩
    · exact (hbefore 0 (Nat.zero_le _)).trans h.first
    · exact congrArg (· :: []) ((hbefore n (Nat.le_refl _)).trans hn)

theorem RlInv.lineEnd (h : RlInv start line ctx) (hsafe : StepSafe ctx .lineEnd) :
    ∃ start' ctx', rlLineEnd ctx = some (ctx', .returned (some line)) ∧ RlInv start' [] ctx' := by
  have hpos := h.pos
  have hroom := h.room
  rw [StepSafe, h.index] at hsafe
  by_cases hnil : line = []
  · obtain ⟨htext, h'⟩ := h.endAt h.separator (by omega) (.inl ⟨hnil, rfl⟩)
    have hzero : line.length = 0 := length_eq_zero_iff.mpr hnil
    have hlp : ctx.linePos = ctx.shift + start := by omega
    refine ⟨_, _, ?_, h'⟩
    rw [rlLineEnd, h.index, lineStart_eq h]
    simp only [hzero, Nat.add_zero, if_true]
    rw [hlp, insertChars_nil (by omega)]
    exact congrArg (fun text => some (_, RlOut.returned text)) htext
  · have hlen : 0 < line.length := length_pos_of_ne_nil hnil
    have hne : ctx.realHistory (start + line.length) ≠ 0 := by
      obtain rfl | ⟨line, c, rfl⟩ := line.eq_nil_or_concat'
      · exact absurd rfl hnil
      · exact h.erase.1
    obtain ⟨hfit, hterm⟩ := hsafe.resolve_left hne
    obtain ⟨htext, h'⟩ := h.endAt hterm (by omega) (.inr rfl)
    have hlp : ctx.linePos + 1 = ctx.shift + (start + line.length + 1) := by omega
    refine ⟨_, _, ?_, h'⟩
    rw [rlLineEnd, h.index, lineStart_eq h]
    dsimp only
    rw [if_neg (by omega), hlp, insertChars_nil (by omega)]
    exact congrArg (fun text => some (_, RlOut.returned text)) htext

/-- **A key** keeps the invariant, and a line end returns the line. -/
theorem rlStep_ok (h : RlInv start line ctx) {key : RlKey} (hkey : key ≠ .char 0) (hsafe : StepSafe ctx key) :
    ∃ start' ctx' out, rlStep ctx key = some (ctx', out) ∧ (key = .lineEnd → out = .returned (some line)) ∧
      RlInv start' (typed line key out) ctx' := by
  have hpos := h.pos
  have hroom := h.room
  rw [rlStep.eq_def, if_pos ⟨by omega, by omega⟩]
  cases key with
  | char c =>
    have hc : c ≠ 0 := fun e => hkey (congrArg _ e)
    obtain hno | ⟨start', ctx', hyes, h'⟩ := h.insertChar hc (hsafe.imp_right h.start_pos)
    · simp only [hno]
      exact ⟨start, ctx, .beep, rfl, nofun, h⟩
    · simp only [hyes]
      exact ⟨start', ctx', .echo, rfl, nofun, h'⟩
  | backspace =>
    rw [h.index]
    obtain rfl | ⟨line, c, rfl⟩ := line.eq_nil_or_concat'
    · exact ⟨start, ctx, .ignored, if_pos h.separator, nofun, h⟩
    · obtain ⟨hc, h'⟩ := h.erase
      have hne : ctx.linePos ≠ 0 := by rw [hpos, length_append, length_singleton]; omega
      refine ⟨start, _, .erased, (if_neg hc).trans (if_neg hne), nofun, ?_⟩
      rw [typed, dropLast_concat]
      exact h'
  | lineEnd =>
    obtain ⟨start', ctx', he, h'⟩ := h.lineEnd hsafe
    exact ⟨start', ctx', _, he, fun _ => rfl, h'⟩

theorem rlCorrect_of_inv (keys : List RlKey) (hkeys : ∀ key ∈ keys, key ≠ .char 0) (h : RlInv start line ctx)
    (hsafe : RlSafe ctx keys) : RlCorrect line ctx keys := by
  induction keys generalizing start line ctx with
  | nil => exact h.first
  | cons key keys ih =>
    obtain ⟨hstep, hrest⟩ := hsafe
    obtain ⟨start', ctx', out, he, hout, h'⟩ := rlStep_ok h (hkeys key mem_cons_self) hstep
    rw [he] at hrest
    refine ⟨h.first, ?_⟩
    rw [he]
    exact ⟨hout, ih (fun k hk => hkeys k (mem_cons_of_mem _ hk)) h' hrest⟩

end Steps

/-- **Lines are returned as they were typed**, in every run all of whose keys are safe. -/
theorem readline_returns (stream : List UInt8) (hstream : ∀ c ∈ stream, c ≠ 0 ∧ c ≠ 9 ∧ c ≠ 27)
    (hsafe : RlSafe rlInitCtx (stream.map rlKey)) : RlCorrect [] rlInitCtx (stream.map rlKey) := by
  refine rlCorrect_of_inv _ ?_ rlInv_init hsafe
  intro key hkey h0
  obtain ⟨c, hc, rfl⟩ := mem_map.mp hkey
  rw [rlKey] at h0
  split at h0
  · cases h0
  · split at h0
    · cases h0
    · exact (hstream c hc).1 (RlKey.char.inj h0)

/-- A line, and one whose only character is erased. -/
theorem readline_returns_line : RlSafe rlInitCtx ([97, 10, 98, 8, 10].map rlKey) ∧
    RlCorrect [] rlInitCtx ([97, 10, 98, 8, 10].map rlKey) :=
  ⟨by decide +kernel, readline_returns [97, 10, 98, 8, 10] (by simp) (by decide +kernel)⟩

/-- **The flaws**: the 31st character of the first line goes to the front of the buffer, a line that ends with the
buffer drops an older one and is not found where it was, and an erased character comes back at the end of the line. -/
theorem readline_fails :
    ¬ RlCorrect [] rlInitCtx ((List.replicate 31 97).map rlKey) ∧
      ¬ RlCorrect [] rlInitCtx ((97 :: 10 :: (List.replicate 28 98 ++ [10])).map rlKey) ∧
      ¬ RlCorrect [] rlInitCtx ([97, 98, 8, 10].map rlKey) := by
  refine ⟨?_, ?_, ?_⟩ <;> decide +kernel

end Bertos
