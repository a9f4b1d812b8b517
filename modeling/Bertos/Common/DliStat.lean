import Bertos.Common.DliKeys
import Bertos.Lib.Numerals
import Mathlib.Logic.Relation

/-!
# Statistics (`dli_updateStat`)

A call reads the text of a key with `dli_get`, adds to it and stores it with `dli_set`. Each half holds the semaphore,
the two together do not. If no call reads while another one is between its two halves, nothing is lost
(`updates_add_up`); two calls that both read first count as one (`update_lost`).
-/

namespace Bertos

open List Nat

/-! ## Numbers as texts -/

/-- `strtol(s, &endptr, 10)`: the value, and the text from `endptr` on. -/
def strtol10 (s : List UInt8) : ℤ × List UInt8 :=
  let t := s.dropWhile isspace
  let u := if t.head? = some 45 ∨ t.head? = some 43 then t.drop 1 else t
  let ds := u.takeWhile fun c => digitVal c < 10
  let v : ℤ := if t.head? = some 45 then -digitsVal 10 ds else digitsVal 10 ds
  if ds = [] then (0, s) else (max longMin (min longMax v), u.drop ds.length)

def decimalText (n : ℕ) : List UInt8 := if n = 0 then [48] else (numeral 10 n).map fun d => UInt8.ofNat (48 + d)

/-- What `%d` prints. -/
def intText (v : ℤ) : List UInt8 := if v < 0 then 45 :: decimalText v.natAbs else decimalText v.natAbs

section Texts

theorem digitVal_digit : ∀ d < 10, digitVal (UInt8.ofNat (48 + d)) = d ∧ isspace (UInt8.ofNat (48 + d)) = false ∧
    UInt8.ofNat (48 + d) ≠ 45 ∧ UInt8.ofNat (48 + d) ≠ 43 ∧ UInt8.ofNat (48 + d) ≠ 0 := by
  decide

theorem decimalText_digits (n : ℕ) : ∃ ds, ds ≠ [] ∧ (∀ d ∈ ds, d < 10) ∧
    decimalText n = ds.map (fun d => UInt8.ofNat (48 + d)) ∧ ds.foldl (fun acc d => acc * 10 + d) 0 = n := by
  by_cases hn : n = 0
  · subst hn
    exact ⟨[0], by simp, by simp, rfl, rfl⟩
  · refine ⟨numeral 10 n, ?_, fun d => numeral_lt (by decide), if_neg hn, ?_⟩
    · simpa [numeral, digits_eq_nil_iff_eq_zero] using hn
    · have h := ofDigits_digits 10 n
      rw [ofDigits_eq_foldr] at h
      rw [numeral, foldl_reverse]
      refine (congrArg (fun f => foldr f 0 (digits 10 n)) ?_).trans h
      funext d acc
      rw [cast_id, add_comm, mul_comm]

theorem decimalText_spec (n : ℕ) : decimalText n ≠ [] ∧ (∀ c ∈ decimalText n, digitVal c < 10 ∧ isspace c = false ∧
    c ≠ 45 ∧ c ≠ 43 ∧ c ≠ 0) ∧ digitsVal 10 (decimalText n) = n := by
  obtain ⟨ds, hne, hlt, htext, hval⟩ := decimalText_digits n
  rw [htext]
  refine ⟨by simpa using hne, ?_, ?_⟩
  · intro c hc
    obtain ⟨d, hd, rfl⟩ := mem_map.mp hc
    obtain ⟨hv, hrest⟩ := digitVal_digit d (hlt d hd)
    exact ⟨by rw [hv]; exact hlt d hd, hrest⟩
  · rw [digitsVal, foldl_map, ← hval]
    refine foldl_ext _ _ 0 fun acc d hd => ?_
    rw [(digitVal_digit d (hlt d hd)).1]

/-- A number that is printed is read back. -/
theorem strtol10_intText {v : ℤ} (hlo : longMin ≤ v) (hhi : v ≤ longMax) : strtol10 (intText v) = (v, []) := by
  obtain ⟨hne, hchars, hval⟩ := decimalText_spec v.natAbs
  have htake : (decimalText v.natAbs).takeWhile (fun c => digitVal c < 10) = decimalText v.natAbs :=
    takeWhile_eq_self_iff.mpr fun c hc => by simp [(hchars c hc).1]
  simp only [longMin, longMax] at hlo hhi
  unfold strtol10 intText
  split
  · have hdrop : (45 :: decimalText v.natAbs).dropWhile isspace = 45 :: decimalText v.natAbs := rfl
    simp only [hdrop, head?_cons, true_or, if_true, drop_succ_cons, drop_zero, htake, if_neg hne, hval,
      drop_length, longMin, longMax]
    refine Prod.ext ?_ rfl
    simp only
    omega
  · obtain ⟨c, cs, hcons⟩ := exists_cons_of_ne_nil hne
    obtain ⟨-, hsp, hm, hp, -⟩ := hchars c (by rw [hcons]; simp)
    have hdrop : (decimalText v.natAbs).dropWhile isspace = decimalText v.natAbs := by
      rw [hcons, dropWhile_cons_of_neg (by simp [hsp])]
    have hminus : (decimalText v.natAbs).head? ≠ some 45 := by rw [hcons]; simpa using hm
    have hplus : (decimalText v.natAbs).head? ≠ some 43 := by rw [hcons]; simpa using hp
    simp only [hdrop, hminus, hplus, or_self, if_false, htake, if_neg hne, hval, drop_length, longMin, longMax]
    refine Prod.ext ?_ rfl
    simp only
    omega

theorem length_decimalText {n : ℕ} (h : n < 10000000000) : (decimalText n).length ≤ 10 := by
  unfold decimalText
  split
  · exact le_of_ble_eq_true rfl
  · rw [length_map, numeral, length_reverse]
    exact (digits_length_le_iff (by decide) n).mpr h

theorem not_eol_of_not_isspace {c : UInt8} (h : isspace c = false) : isEol c = false := by
  by_contra heol
  rcases Bool.or_eq_true_iff.mp (eq_true_of_ne_false heol) with hc | hc <;> rw [beq_iff_eq.mp hc] at h <;>
    exact absurd h (by decide)

/-- The text of an `int` is short and plain. -/
theorem intText_plain {v : ℤ} (hlo : longMin ≤ v) (hhi : v ≤ longMax) :
    PlainText (intText v) ∧ (intText v).length < 20 ∧ ∀ c ∈ intText v, c ≠ 0 := by
  obtain ⟨hne, hchars, -⟩ := decimalText_spec v.natAbs
  simp only [longMin, longMax] at hlo hhi
  have hlen : (decimalText v.natAbs).length ≤ 10 := length_decimalText (by omega)
  have hspace : ∀ c ∈ intText v, isspace c = false ∧ c ≠ 0 := by
    intro c hc
    unfold intText at hc
    split at hc
    · rcases mem_cons.mp hc with rfl | hc
      · decide
      · exact ⟨(hchars c hc).2.1, (hchars c hc).2.2.2.2⟩
    · exact ⟨(hchars c hc).2.1, (hchars c hc).2.2.2.2⟩
  have hshort : (intText v).length < 20 := by
    unfold intText
    split
    · rw [length_cons]
      omega
    · omega
  refine ⟨⟨lt_trans hshort (by decide), fun c hc => not_eol_of_not_isspace (hspace c hc).1, fun c hc => ?_⟩, hshort,
    fun c hc => (hspace c hc).2⟩
  exact (hspace c (mem_of_mem_head? hc)).1

end Texts

/-! ## Calls and their steps -/

/-- `dli_updateStat` up to the conversion: the number that is stored, `none` if the text is not one. -/
def updateStatRead (stat : List UInt8) (stack : ℕ → UInt8) (w : Dli) : Option (Option ℤ × Dli) :=
  (dliGet workingLine stat [48] 20 stack w).map fun r =>
    (if (strtol10 (cstr r.1.2)).2 = [] then some (strtol10 (cstr r.1.2)).1 else none, r.2)

/-- The rest of the call: the sum, as an `int`, is stored. -/
def updateStatWrite (order : ArgOrder) (stat : List UInt8) (conv delta : ℤ) (stack : ℕ → UInt8) (w : Dli) :
    Option (Bool × Dli) :=
  dliSet workingLine order stat (intText ((conv + delta).bmod 4294967296)) stack w

inductive StatPc
  | start
  | between (conv : ℤ)
  | returned
  deriving DecidableEq

structure StatCall where
  delta : ℤ
  pc : StatPc

/-- The store and the calls of all processes. -/
structure StatSys where
  w : Dli
  calls : List StatCall

def StatValue (stat : List UInt8) (w : Dli) (v : ℤ) : Prop :=
  ∀ stack, ∃ b text, dliText stat [48] 20 stack w = some (b, text) ∧ strtol10 text = (v, [])

/-- What the store needs before `dli_set` to give the text back later: for an ini key, `currIni()` is evaluated first,
and the file in use is well formed and has room for the line. -/
def Storable (order : ArgOrder) (key text : List UInt8) (w : Dli) : Prop :=
  IniKey key → order = .currFirst ∧ IsName key ∧ Synced w ∧ WellFormed (currData w) ∧
    ∃ ls, RawLines (currData w) ls ∧ LineFits key text ls

section Steps

variable (order : ArgOrder) (stat : List UInt8)

def StatGet (s s' : StatSys) : Prop :=
  ∃ i delta conv stack w', s.calls[i]? = some ⟨delta, .start⟩ ∧ updateStatRead stat stack s.w = some (some conv, w') ∧
    s' = ⟨w', s.calls.set i ⟨delta, .between conv⟩⟩

/-- A call stores: the sum is an `int`, and `dli_set` succeeds. -/
def StatSet (s s' : StatSys) : Prop :=
  ∃ i delta conv stack w', s.calls[i]? = some ⟨delta, .between conv⟩ ∧
    longMin ≤ conv + delta ∧ conv + delta ≤ longMax ∧
    updateStatWrite order stat conv delta stack s.w = some (true, w') ∧
    s' = ⟨w', s.calls.set i ⟨delta, .returned⟩⟩

def StatStep (s s' : StatSys) : Prop := StatGet stat s s' ∨ StatSet order stat s s'

def NoneBetween (s : StatSys) : Prop := ∀ c ∈ s.calls, ∀ conv, c.pc ≠ .between conv

/-- What the calls between their halves will store can be stored. -/
def AllStorable (s : StatSys) : Prop :=
  ∀ c ∈ s.calls, ∀ conv, c.pc = .between conv → Storable order stat (intText (conv + c.delta)) s.w

/-- A step that does not read while another call is between its halves. -/
def OrderlyStep (s s' : StatSys) : Prop :=
  StatGet stat s s' ∧ NoneBetween s ∨ StatSet order stat s s' ∧ AllStorable order stat s

end Steps

/-- The sum of all deltas, and of those of the calls that have returned. -/
def deltaSum : List StatCall → ℤ
  | [] => 0
  | c :: cs => c.delta + deltaSum cs

def returnedSum : List StatCall → ℤ
  | [] => 0
  | c :: cs => (if c.pc = .returned then c.delta else 0) + returnedSum cs

section Run

variable {order : ArgOrder} {stat : List UInt8} {w w' : Dli} {s s' : StatSys} {v : ℤ}

variable {cs : List StatCall}

theorem deltaSum_set {i : ℕ} {c c' : StatCall} (hi : cs[i]? = some c) (h : c'.delta = c.delta) :
    deltaSum (cs.set i c') = deltaSum cs := by
  induction cs generalizing i with
  | nil => rfl
  | cons d cs ih =>
    cases i with
    | zero =>
      obtain rfl : d = c := Option.some.inj hi
      simp [deltaSum, h]
    | succ i => simp only [set_cons_succ, deltaSum, ih hi]

theorem returnedSum_set {i : ℕ} {c c' : StatCall} (hi : cs[i]? = some c) (hc : c.pc ≠ .returned) :
    returnedSum (cs.set i c') = returnedSum cs + if c'.pc = .returned then c'.delta else 0 := by
  induction cs generalizing i with
  | nil => cases hi
  | cons d cs ih =>
    cases i with
    | zero =>
      obtain rfl : d = c := Option.some.inj hi
      simp only [set_cons_zero, returnedSum, if_neg hc]
      omega
    | succ i =>
      simp only [set_cons_succ, returnedSum, ih hi]
      omega

theorem returnedSum_eq (h : ∀ c ∈ cs, c.pc = .returned) : returnedSum cs = deltaSum cs := by
  induction cs with
  | nil => rfl
  | cons c cs ih =>
    rw [returnedSum, deltaSum, if_pos (h c (by simp)), ih fun d hd => h d (by simp [hd])]

theorem returnedSum_start (h : ∀ c ∈ cs, c.pc = .start) : returnedSum cs = 0 := by
  induction cs with
  | nil => rfl
  | cons c cs ih =>
    rw [returnedSum, h c (by simp), ih fun d hd => h d (by simp [hd])]
    rfl

theorem currIni_none (h : ¬ w.HasFile) : currIni w = none := by
  unfold currIni iniFile
  split
  · rename_i h₀
    exact absurd (.inl h₀) h
  · rename_i h₁
    exact absurd (.inr h₁) h
  · rfl

/-- Reading changes nothing that a later call sees. -/
theorem dliGet_keeps {key defaultVal : List UInt8} {len : ℕ} {stack : ℕ → UInt8} {r : Bool × List UInt8}
    (h : dliGet workingLine key defaultVal len stack w = some (r, w')) : w'.eep = w.eep ∧ w'.lastEntry =
      w.lastEntry := by
  by_cases hini : IniKey key
  · by_cases hl : w.HasFile
    · obtain ⟨w₁, hget, hkeep⟩ := dliGet_value workingLine hl ⟨key, defaultVal, len, stack⟩ hini
      rw [hget] at h
      cases h
      exact hkeep
    · rw [dliGet, if_neg hini.1, if_neg hini.2, currIni_none hl] at h
      cases h
  · obtain ⟨w₁, hget, hkeep⟩ := bootGet_eq workingLine (bootStart key) defaultVal len w
    rw [dliGet_boot hini, hget] at h
    cases h
    exact hkeep

theorem dliText_congr (he : w'.eep = w.eep) (hl : w'.lastEntry = w.lastEntry) (key defaultVal : List UInt8) (len : ℕ)
    (stack : ℕ → UInt8) : dliText key defaultVal len stack w' = dliText key defaultVal len stack w := by
  by_cases hini : IniKey key
  · by_cases hlast : w.HasFile
    · rw [dliText_ini (hlast.of_eq hl) hini, dliText_ini hlast hini, currData, currData, he, hl]
    · rw [dliText, dliText, dliGet, dliGet, if_neg hini.1, if_neg hini.2, if_neg hini.1, if_neg hini.2,
        currIni_none hlast, currIni_none fun h => hlast (h.of_eq hl.symm)]
  · rw [dliText_boot hini, dliText_boot hini, he]

/-- **A text that was stored is read back.** -/
theorem dliText_stored {key text : List UInt8} {stack : ℕ → UInt8} (hst : Storable order key text w)
    (hplain : PlainText text) (hlen : text.length < 20) (hv : ∀ c ∈ text, c ≠ 0)
    (hset : dliSet workingLine order key text stack w = some (true, w')) (defaultVal : List UInt8)
    (stack' : ℕ → UInt8) : dliText key defaultVal 20 stack' w' = some (true, text) := by
  have hmax : text.length ≤ dliValMaxLen := le_trans (le_of_lt hlen) (by decide)
  by_cases hini : IniKey key
  · obtain ⟨rfl, hk, hsync, hwf, ls, hr, hfit⟩ := hst hini
    rw [dliText_ini (hsync.set hini hset).lastFile hini,
      dliSet_stores hsync.lastFile hwf hr hk hini hv (le_trans hmax (by decide)) hfit hset defaultVal 20 stack',
      lineValue_plain hk hplain, take_of_length_le (le_sub_one_of_lt hlen), cstr_eq hv]
  · obtain ⟨w₁, hboot, -, hmem⟩ := bootSet_eq (bootStart_le key) hmax w
    rw [dliSet_boot hini, hboot] at hset
    cases hset
    have hroom : min bootSize 20 ≤ bootSize - bootStart key := by
      have hstart := bootStart_le key
      simp only [bootSize]
      omega
    rw [dliText_boot hini, if_pos hroom, show min bootSize 20 = 20 from rfl, hmem,
      cstr_read_boot 20 hv (Mem.read_write_self _ _ _), take_of_length_le (le_of_lt hlen)]

/-- A call that has returned has left its sum. -/
theorem updateStatWrite_stored {conv delta : ℤ} {stack : ℕ → UInt8} (hlo : longMin ≤ conv + delta)
    (hhi : conv + delta ≤ longMax) (hst : Storable order stat (intText (conv + delta)) w)
    (hset : updateStatWrite order stat conv delta stack w = some (true, w')) (stack' : ℕ → UInt8) :
    dliText stat [48] 20 stack' w' = some (true, intText (conv + delta)) := by
  obtain ⟨hplain, hlen, hv⟩ := intText_plain hlo hhi
  have hmod : (conv + delta).bmod 4294967296 = conv + delta := by
    simp only [longMin, longMax] at hlo hhi
    exact Int.bmod_eq_of_le (by omega) (by omega)
  rw [updateStatWrite, hmod] at hset
  exact dliText_stored hst hplain hlen hv hset [48] stack'

/-- What holds when steps are orderly: the number stored counts the calls that have returned, and a call between its
halves is alone there and has read this number. -/
structure StatInv (stat : List UInt8) (v : ℤ) (s : StatSys) : Prop where
  value : StatValue stat s.w (v + returnedSum s.calls)
  read : ∀ (i : ℕ) (delta conv : ℤ), s.calls[i]? = some ⟨delta, .between conv⟩ → conv = v + returnedSum s.calls
  alone : ∀ (i j : ℕ) (delta delta' conv conv' : ℤ), s.calls[i]? = some ⟨delta, .between conv⟩ →
    s.calls[j]? = some ⟨delta', .between conv'⟩ → i = j

/-- When the call `i` has moved on, a call is this one or stands where it stood. -/
theorem getElem?_set_cases {calls : List StatCall} {i j : ℕ} {c c' : StatCall} (hj : (calls.set i c)[j]? = some c') :
    i = j ∧ c' = c ∨ i ≠ j ∧ calls[j]? = some c' := by
  rw [List.getElem?_set] at hj
  split_ifs at hj with hij
  · exact .inl ⟨hij, (Option.some.inj hj).symm⟩
  · exact .inr ⟨hij, hj⟩

/-- A call that reads keeps the invariant if no other has read before it, -/
theorem StatGet.inv (h : StatGet stat s s') (hnone : NoneBetween s) (hs : StatInv stat v s) : StatInv stat v s' := by
  obtain ⟨i, delta, conv, stack, w', hi, hread, rfl⟩ := h
  obtain ⟨⟨⟨b, buf⟩, w₁⟩, hget, heq⟩ := Option.map_eq_some_iff.mp hread
  have hkeep := dliGet_keeps hget
  obtain ⟨b', text, htext, hval⟩ := hs.value stack
  rw [dliText, hget] at htext
  cases htext
  simp only [hval, if_true] at heq
  cases heq
  have hsum : returnedSum (s.calls.set i ⟨delta, .between (v + returnedSum s.calls)⟩) = returnedSum s.calls := by
    rw [returnedSum_set hi (by simp)]
    simp
  have hother : ∀ (j : ℕ) (d c : ℤ),
      (s.calls.set i ⟨delta, .between (v + returnedSum s.calls)⟩)[j]? = some ⟨d, .between c⟩ → i = j ∧
      c = v + returnedSum s.calls := by
    intro j d c hj
    obtain ⟨hij, hc⟩ | ⟨-, hj⟩ := getElem?_set_cases hj
    · cases hc
      exact ⟨hij, rfl⟩
    · exact absurd rfl (hnone _ (List.mem_of_getElem? hj) c)
  refine ⟨?_, ?_, ?_⟩
  · rw [hsum]
    intro stack'
    rw [dliText_congr hkeep.1 hkeep.2]
    exact hs.value stack'
  · intro j d c hj
    rw [hsum]
    exact (hother j d c hj).2
  · intro j k d d' c c' hj hk
    exact (hother j d c hj).1.symm.trans (hother k d' c' hk).1

/-- and a call that writes keeps it if what it writes can be stored. -/
theorem StatSet.inv (h : StatSet order stat s s') (hall : AllStorable order stat s) (hs : StatInv stat v s) :
    StatInv stat v s' := by
  obtain ⟨i, delta, conv, stack, w', hi, hlo, hhi, hset, rfl⟩ := h
  have hconv := hs.read i delta conv hi
  have hsum : returnedSum (s.calls.set i ⟨delta, .returned⟩) = returnedSum s.calls + delta := by
    rw [returnedSum_set hi (by simp)]
    simp
  have hother : ∀ (j : ℕ) (d c : ℤ), (s.calls.set i ⟨delta, .returned⟩)[j]? ≠ some ⟨d, .between c⟩ := by
    intro j d c hj
    obtain ⟨-, hc⟩ | ⟨hij, hj⟩ := getElem?_set_cases hj
    · cases hc
    · exact hij (hs.alone i j _ _ _ _ hi hj)
  refine ⟨?_, fun j d c hj => absurd hj (hother j d c), fun j _ d _ c _ hj _ => absurd hj (hother j d c)⟩
  intro stack'
  have htext := updateStatWrite_stored hlo hhi (hall _ (mem_of_getElem? hi) conv rfl) hset stack'
  refine ⟨true, _, htext, ?_⟩
  rw [strtol10_intText hlo hhi, hsum, hconv]
  simp only [Prod.mk.injEq, and_true]
  omega

/-- **An orderly step** keeps the invariant. -/
theorem OrderlyStep.inv (h : OrderlyStep order stat s s') (hs : StatInv stat v s) : StatInv stat v s' := by
  obtain ⟨hget, hnone⟩ | ⟨hset, hall⟩ := h
  · exact hget.inv hnone hs
  · exact hset.inv hall hs

theorem StatStep.deltaSum (h : StatStep order stat s s') : deltaSum s'.calls = deltaSum s.calls := by
  obtain ⟨i, delta, conv, stack, w', hi, -, rfl⟩ | ⟨i, delta, conv, stack, w', hi, -, -, -, rfl⟩ := h
  · exact deltaSum_set hi rfl
  · exact deltaSum_set hi rfl

/-- **Nothing is lost** in a run in which no call reads while another one is between its halves, and the store has room
for what is stored. -/
theorem updates_add_up (hv : StatValue stat s.w v) (hstart : ∀ c ∈ s.calls, c.pc = .start)
    (hrun : Relation.ReflTransGen (OrderlyStep order stat) s s') (hend : ∀ c ∈ s'.calls, c.pc = .returned) :
    StatValue stat s'.w (v + deltaSum s.calls) := by
  have hinit : StatInv stat v s := by
    have hnone : ∀ (i : ℕ) (delta conv : ℤ), s.calls[i]? ≠ some ⟨delta, .between conv⟩ := by
      intro i delta conv hi
      cases hstart _ (mem_of_getElem? hi)
    refine ⟨?_, fun i _ _ hi => absurd hi (hnone i _ _), fun i _ _ _ _ _ hi _ => absurd hi (hnone i _ _)⟩
    rw [returnedSum_start hstart, Int.add_zero]
    exact hv
  have hboth : StatInv stat v s' ∧ deltaSum s'.calls = deltaSum s.calls := by
    clear hend
    induction hrun with
    | refl => exact ⟨hinit, rfl⟩
    | tail _ hstep ih =>
      have hany := hstep.imp And.left And.left
      exact ⟨hstep.inv ih.1, (StatStep.deltaSum hany).trans ih.2⟩
  have hval := hboth.1.value
  rwa [returnedSum_eq hend, hboth.2] at hval

end Run

/-! ### Two calls -/

section Two

variable {w : Dli} {delta conv v : ℤ} {t : List UInt8}

/-- The serial number is this text. -/
def Shows (w : Dli) (t : List UInt8) : Prop := ∀ stack, dliText serialnoKey [48] 20 stack w = some (true, t)

theorem Shows.value (h : Shows w t) (hv : strtol10 t = (v, [])) : StatValue serialnoKey w v :=
  fun stack => ⟨true, t, h stack, hv⟩

theorem Shows.get (h : Shows w t) (calls : List StatCall) (i : ℕ) (hv : strtol10 t = (v, []))
    (hi : calls[i]? = some ⟨delta, .start⟩) :
    ∃ w', StatGet serialnoKey ⟨w, calls⟩ ⟨w', calls.set i ⟨delta, .between v⟩⟩ ∧ Shows w' t := by
  obtain ⟨⟨r, w'⟩, hget, heq⟩ := Option.map_eq_some_iff.mp (h fun _ => 0)
  simp only [Prod.mk.injEq] at heq
  refine ⟨w', ⟨i, delta, v, fun _ => 0, w', hi, ?_, rfl⟩, fun stack => ?_⟩
  · rw [updateStatRead, hget, Option.map_some]
    simp only [heq.2, hv, if_true]
  · rw [dliText_congr (dliGet_keeps hget).1 (dliGet_keeps hget).2]
    exact h stack

theorem storable_serialno (t : List UInt8) (w : Dli) : Storable .nextFirst serialnoKey t w := fun h => absurd rfl h.1

theorem Shows.set (calls : List StatCall) (i : ℕ) (hi : calls[i]? = some ⟨delta, .between conv⟩)
    (hlo : longMin ≤ conv + delta) (hhi : conv + delta ≤ longMax) (w : Dli) :
    ∃ w', StatSet .nextFirst serialnoKey ⟨w, calls⟩ ⟨w', calls.set i ⟨delta, .returned⟩⟩ ∧
      Shows w' (intText (conv + delta)) := by
  have hmod : (conv + delta).bmod 4294967296 = conv + delta := by
    simp only [longMin, longMax] at hlo hhi
    exact Int.bmod_eq_of_le (by omega) (by omega)
  obtain ⟨w', hset, -⟩ := bootSet_eq (bootStart_le serialnoKey)
    (le_trans (le_of_lt (intText_plain hlo hhi).2.1) (by decide)) w
  have hwrite : updateStatWrite .nextFirst serialnoKey conv delta (fun _ => 0) w = some (true, w') := by
    rw [updateStatWrite, hmod, dliSet_boot (fun h => h.1 rfl), hset]
  exact ⟨w', ⟨i, delta, conv, fun _ => 0, w', hi, hlo, hhi, hwrite, rfl⟩,
    updateStatWrite_stored hlo hhi (storable_serialno _ _) hwrite⟩

theorem addressed_shows : Shows addressed [] := by
  intro stack
  rw [dliText_boot (fun h => h.1 rfl), if_pos (by decide)]
  decide

/-- Two calls, one after the other. -/
theorem updates_add_up_two : ∃ w', Relation.ReflTransGen (OrderlyStep .nextFirst serialnoKey)
      ⟨addressed, [⟨1, .start⟩, ⟨2, .start⟩]⟩ ⟨w', [⟨1, .returned⟩, ⟨2, .returned⟩]⟩ ∧
    StatValue serialnoKey w' 3 := by
  obtain ⟨w₁, hget₁, -⟩ := addressed_shows.get [⟨1, .start⟩, ⟨2, .start⟩] 0 (v := 0) rfl rfl
  obtain ⟨w₂, hset₁, h₂⟩ := Shows.set [⟨1, .between 0⟩, ⟨2, .start⟩] 0 rfl (by decide) (by decide) w₁
  obtain ⟨w₃, hget₂, -⟩ := h₂.get [⟨1, .returned⟩, ⟨2, .start⟩] 1 (strtol10_intText (by decide) (by decide)) rfl
  obtain ⟨w₄, hset₂, -⟩ := Shows.set [⟨1, .returned⟩, ⟨2, .between (0 + 1)⟩] 1 rfl (by decide) (by decide) w₃
  have hrun : Relation.ReflTransGen (OrderlyStep .nextFirst serialnoKey) ⟨addressed, [⟨1, .start⟩, ⟨2, .start⟩]⟩
      ⟨w₄, [⟨1, .returned⟩, ⟨2, .returned⟩]⟩ :=
    .tail (.tail (.tail (.single (.inl ⟨hget₁, by simp [NoneBetween]⟩))
      (.inr ⟨hset₁, fun _ _ _ _ => storable_serialno _ _⟩)) (.inl ⟨hget₂, by simp [NoneBetween]⟩))
      (.inr ⟨hset₂, fun _ _ _ _ => storable_serialno _ _⟩)
  exact ⟨w₄, hrun, updates_add_up (addressed_shows.value rfl) (by simp) hrun (by simp)⟩

/-- **The flaw**: two processes add 1. Both read, then both store, and the number grows by 1. -/
theorem update_lost : ∃ w', StatValue serialnoKey addressed 0 ∧
    Relation.ReflTransGen (StatStep .nextFirst serialnoKey) ⟨addressed, [⟨1, .start⟩, ⟨1, .start⟩]⟩
      ⟨w', [⟨1, .returned⟩, ⟨1, .returned⟩]⟩ ∧ StatValue serialnoKey w' 1 ∧ ¬ StatValue serialnoKey w' 2 := by
  obtain ⟨w₁, hget₁, h₁⟩ := addressed_shows.get [⟨1, .start⟩, ⟨1, .start⟩] 0 (v := 0) rfl rfl
  obtain ⟨w₂, hget₂, -⟩ := h₁.get [⟨1, .between 0⟩, ⟨1, .start⟩] 1 (v := 0) rfl rfl
  obtain ⟨w₃, hset₁, -⟩ := Shows.set [⟨1, .between 0⟩, ⟨1, .between 0⟩] 0 rfl (by decide) (by decide) w₂
  obtain ⟨w₄, hset₂, h₄⟩ := Shows.set [⟨1, .returned⟩, ⟨1, .between 0⟩] 1 rfl (by decide) (by decide) w₃
  refine ⟨w₄, addressed_shows.value rfl, ?_, h₄.value (strtol10_intText (by decide) (by decide)), fun h => ?_⟩
  · exact .tail (.tail (.tail (.single (.inl hget₁)) (.inl hget₂)) (.inr hset₁)) (.inr hset₂)
  · obtain ⟨b, text, htext, hv⟩ := h fun _ => 0
    rw [h₄] at htext
    cases htext
    rw [strtol10_intText (by decide) (by decide)] at hv
    exact absurd hv (by decide)

end Two

end Bertos
