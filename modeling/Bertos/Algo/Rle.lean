import Bertos.Lib.Mem

/-!
# Run-length coding (`algo/rle.c`)

`rle` cuts its input into runs: a byte that is repeated, up to 127 times, or up to 127 bytes that are copied. A run is
written as a signed count and the byte, or the bytes; `unrle` reads the counts back. A turn of the encoder's loop
writes one run (`rleTurn_run`), and the decoder undoes every list of runs (`unrleLoop_code`): `rle_lossless`.

The lengths and indices of the source are `int`s and natural numbers here: the model is of inputs with `len + len / 127
+ 2 ≤ INT_MAX`.
-/

namespace Bertos

open Mem List Sink

/-! ## The encoder -/

section Encoder

variable (input : ℕ → UInt8) (len count : ℕ)

/-- Scan for bytes identical to the first one. -/
def sameRun (first : UInt8) (index : ℕ) : ℕ :=
  if index < len ∧ index - count < 127 ∧ input index = first then sameRun first (index + 1) else index
termination_by len - index

/-- See how many bytes to copy: three identical bytes end the run before them. -/
def literalRun (index : ℕ) : ℕ :=
  if index < len ∧ index - count < 127 then
    if input index = input (index - 1) ∧ (1 < index ∧ input index = input (index - 2)) then index - 2
    else literalRun (index + 1)
  else index
termination_by len - index

/-- `for (i = count; i < index; i++) *out++ = input[i];` -/
def copyRun (index i : ℕ) (s : Sink UInt8) : Sink UInt8 :=
  if i < index then copyRun index (i + 1) (s.put (input i)) else s
termination_by index - i

/-- A turn of the loop of `rle`: the new value of `count`, and what is written. -/
def rleTurn (s : Sink UInt8) : ℕ × Sink UInt8 :=
  let first := input count
  let index := sameRun input len count first (count + 1)
  if index - count = 1 then
    let index := literalRun input len count index
    (index, copyRun input index count (s.put (UInt8.ofInt ((count : ℤ) - index))))
  else
    (index, (s.put (UInt8.ofInt ((index : ℤ) - count))).put first)

end Encoder

/-! ## The scans -/

section Scans

variable (input : ℕ → UInt8) (len count : ℕ)

theorem le_sameRun (first : UInt8) (index : ℕ) : index ≤ sameRun input len count first index := by
  fun_induction sameRun input len count first index with
  | case1 index _ ih => omega
  | case2 index _ => exact Nat.le_refl _

theorem sameRun_le (first : UInt8) {index : ℕ} (h : index ≤ len) (hc : index - count ≤ 127) :
    sameRun input len count first index ≤ len ∧ sameRun input len count first index - count ≤ 127 := by
  fun_induction sameRun input len count first index with
  | case1 index hgo ih => exact ih (by omega) (by omega)
  | case2 index _ => exact ⟨h, hc⟩

theorem sameRun_same (first : UInt8) (index : ℕ) {i : ℕ} (h : index ≤ i)
    (hi : i < sameRun input len count first index) : input i = first := by
  fun_induction sameRun input len count first index with
  | case1 index hgo ih =>
    rcases Nat.eq_or_lt_of_le h with rfl | h
    · exact hgo.2.2
    · exact ih h hi
  | case2 index _ => omega

variable {input len count}

theorem sameRun_passes {first : UInt8} {index : ℕ} (hlen : index < len) (hc : index - count < 127)
    (hsame : input index = first) : index + 1 ≤ sameRun input len count first index := by
  rw [sameRun, if_pos ⟨hlen, hc, hsame⟩]
  exact le_sameRun input len count first (index + 1)

def Triple (input : ℕ → UInt8) (len i : ℕ) : Prop :=
  i + 2 < len ∧ input (i + 1) = input i ∧ input (i + 2) = input i

/-- The second scan stops at the limit, at the end, or before three identical bytes; the byte it starts at is not
repeated, so that it always gets past it. -/
theorem literalRun_stops (hne : count + 1 < len → input (count + 1) ≠ input count) {index : ℕ} (h : count + 1 ≤ index)
    (hlen : index ≤ len) (hc : index - count ≤ 127) :
    count + 1 ≤ literalRun input len count index ∧ literalRun input len count index ≤ len ∧
      literalRun input len count index - count ≤ 127 ∧
      (literalRun input len count index - count = 127 ∨ literalRun input len count index = len ∨
        Triple input len (literalRun input len count index)) := by
  fun_induction literalRun input len count index with
  | case1 index hgo hback =>
    obtain ⟨hprev, -, hprev2⟩ := hback
    -- with fewer than three bytes behind it, the byte at `count` would be repeated
    have hfar : count + 3 ≤ index := by
      have h1 : index ≠ count + 1 := by
        rintro rfl
        exact hne (by omega) hprev
      have h2 : index ≠ count + 2 := by
        rintro rfl
        exact hne (by omega) (hprev.symm.trans hprev2)
      omega
    obtain ⟨j, rfl⟩ : ∃ j, index = j + 2 := ⟨index - 2, by omega⟩
    have htriple : Triple input len j := ⟨by omega, hprev.symm.trans hprev2, hprev2⟩
    exact ⟨by omega, by omega, by omega, .inr (.inr htriple)⟩
  | case2 index hgo _ ih => exact ih (by omega) (by omega) (by omega)
  | case3 index hstop => exact ⟨h, hlen, hc, by omega⟩

theorem copyRun_eq (index i : ℕ) (s : Sink UInt8) : copyRun input index i s = s.puts (read input i (index - i)) := by
  fun_induction copyRun input index i s with
  | case1 i s hi ih =>
    obtain ⟨n, hn⟩ : ∃ n, index - i = n + 1 := ⟨index - i - 1, by omega⟩
    rw [ih, hn, read_succ, puts_cons, show index - (i + 1) = n by omega]
  | case2 i s hi => rw [Nat.sub_eq_zero_of_le (Nat.le_of_not_lt hi), read_zero, puts_nil]

end Scans

/-! ## Runs -/

/-- A repeated byte, or bytes that are copied. -/
inductive RleRun where
  | rep (n : ℕ) (b : UInt8)
  | lit (bs : List UInt8)

namespace RleRun

def text : RleRun → List UInt8
  | rep n b => List.replicate n b
  | lit bs => bs

def code : RleRun → List UInt8
  | rep n b => [UInt8.ofInt n, b]
  | lit bs => UInt8.ofInt (-(bs.length : ℤ)) :: bs

def Fits (r : RleRun) : Prop := 1 ≤ r.text.length ∧ r.text.length ≤ 127

/-- What the end of a run says about its length: a repetition has two bytes, and three where there are three; copying
ends at the limit, at the end of the input, or before three identical bytes. -/
def Ends (input : ℕ → UInt8) (len count index : ℕ) : RleRun → Prop
  | rep n _ => 2 ≤ n ∧ (Triple input len count → 3 ≤ n)
  | lit bs => ¬ Triple input len count ∧ (bs.length = 127 ∨ index = len ∨ Triple input len index)

end RleRun

section Turn

variable (input : ℕ → UInt8) {len count : ℕ}

/-- A turn of `rle` writes one run. -/
theorem rleTurn_run (h : count < len) (s : Sink UInt8) : ∃ (index : ℕ) (r : RleRun),
    rleTurn input len count s = (index, s.puts r.code) ∧ count < index ∧ index ≤ len ∧
      r.text = read input count (index - count) ∧ r.Fits ∧ r.Ends input len count index := by
  have hge := le_sameRun input len count (input count) (count + 1)
  obtain ⟨hle, hmax⟩ := sameRun_le input len count (input count) (show count + 1 ≤ len by omega)
    (show count + 1 - count ≤ 127 by omega)
  have hsame := fun i => sameRun_same input len count (input count) (count + 1) (i := i)
  have hpass : count + 1 < len → input (count + 1) = input count →
      count + 2 ≤ sameRun input len count (input count) (count + 1) :=
    fun hlen heq => sameRun_passes hlen (by omega) heq
  have htriple : Triple input len count → count + 3 ≤ sameRun input len count (input count) (count + 1) := by
    rintro ⟨hlen, h1, h2⟩
    rw [sameRun, if_pos ⟨by omega, by omega, h1⟩]
    exact sameRun_passes hlen (by omega) h2
  generalize hindex : sameRun input len count (input count) (count + 1) = index at hge hle hmax hsame hpass htriple
  by_cases hone : index - count = 1
  · have hne : count + 1 < len → input (count + 1) ≠ input count := fun hlen heq => by
      have := hpass hlen heq
      omega
    obtain ⟨hgt, hle', hmax', hend⟩ := literalRun_stops hne hge hle hmax
    generalize hindex' : literalRun input len count index = index' at hgt hle' hmax' hend
    have hlen : (read input count (index' - count)).length = index' - count := length_read _ _ _
    refine ⟨index', .lit (read input count (index' - count)), ?_, hgt, hle', rfl, ?_, ?_, ?_⟩
    · have hneg : -((index' - count : ℕ) : ℤ) = (count : ℤ) - index' := by omega
      simp only [rleTurn, hindex, if_pos hone, hindex', copyRun_eq, RleRun.code, hlen, hneg, puts_cons]
    · exact ⟨by rw [RleRun.text, hlen]; omega, by rw [RleRun.text, hlen]; exact hmax'⟩
    · intro ht
      have := htriple ht
      omega
    · rw [hlen]
      exact hend
  · refine ⟨index, .rep (index - count) (input count), ?_, hge, hle, ?_, ?_, by omega, fun ht => ?_⟩
    · have hpos : ((index - count : ℕ) : ℤ) = (index : ℤ) - count := by omega
      simp only [rleTurn, hindex, if_neg hone, RleRun.code, hpos, puts_cons, puts_nil]
    · refine (eq_replicate_iff.mpr ⟨length_read _ _ _, fun b hb => ?_⟩).symm
      obtain ⟨i, hi, rfl⟩ := mem_map.mp hb
      obtain ⟨hlo, hhi⟩ := mem_range'_1.mp hi
      rcases Nat.eq_or_lt_of_le hlo with rfl | hlo
      · rfl
      · exact hsame i hlo (by omega)
    · simp only [RleRun.Fits, RleRun.text, length_replicate]
      omega
    · have := htriple ht
      omega

theorem lt_rleTurn (h : count < len) (s : Sink UInt8) : count < (rleTurn input len count s).1 := by
  obtain ⟨index, r, hturn, hlt, -⟩ := rleTurn_run input h s
  rw [hturn]
  exact hlt

end Turn

/-! ## The loop -/

/-- `while (count < len)` -/
def rleLoop (input : ℕ → UInt8) (len count : ℕ) (s : Sink UInt8) : Sink UInt8 :=
  if _h : count < len then rleLoop input len (rleTurn input len count s).1 (rleTurn input len count s).2 else s
termination_by len - count
decreasing_by
  have := lt_rleTurn input ‹count < len› s
  omega

/-- `rle(output, input, len)`: the memory afterwards and the value that is returned. -/
def rle (mem : ℕ → UInt8) (output : ℕ) (input : ℕ → UInt8) (len : ℕ) : (ℕ → UInt8) × ℕ :=
  let s := (rleLoop input len 0 ⟨mem, output⟩).put 0
  (s.mem, s.out - output)

/-- The text of a list of runs, and its code. -/
def runsText (rs : List RleRun) : List UInt8 := rs.flatMap RleRun.text

def runsCode (rs : List RleRun) : List UInt8 := rs.flatMap RleRun.code

theorem RleRun.length_code_rep (n : ℕ) (b : UInt8) : (RleRun.rep n b).code.length = 2 := rfl

theorem RleRun.length_code_lit (bs : List UInt8) : (RleRun.lit bs).code.length = bs.length + 1 := rfl

/-- The loop writes a list of runs whose text is what is left of the input. Each run but the last costs no more than its
text, or has 127 bytes; before three identical bytes the loop is one byte better. -/
theorem rleLoop_runs (input : ℕ → UInt8) (len : ℕ) {count : ℕ} (h : count ≤ len) (s : Sink UInt8) : ∃ rs : List RleRun,
    rleLoop input len count s = s.puts (runsCode rs) ∧ runsText rs = read input count (len - count) ∧
      (∀ r ∈ rs, r.Fits) ∧ (runsCode rs).length ≤ (len - count) + (len - count) / 127 + 1 ∧
      (Triple input len count → (runsCode rs).length ≤ (len - count) + (len - count) / 127) := by
  induction hn : len - count using Nat.strongRecOn generalizing count s with
  | _ n ih =>
    rw [rleLoop]
    split
    · rename_i hlt
      obtain ⟨index, r, hturn, hlt', hle, htext, hfits, hends⟩ := rleTurn_run input hlt s
      obtain ⟨rs, hloop, htexts, hall, hcost, hcost3⟩ := ih (len - index) (by omega) hle (s.puts r.code) rfl
      have hlen : (runsCode (r :: rs)).length = r.code.length + (runsCode rs).length := length_append
      have hbytes : r.text.length = index - count := by rw [htext, length_read]
      refine ⟨r :: rs, ?_, ?_, ?_, ?_⟩
      · rw [hturn, hloop, ← puts_append]
        rfl
      · show r.text ++ runsText rs = _
        rw [htext, htexts, ← hn, show len - count = (index - count) + (len - index) by omega, read_add,
          show count + (index - count) = index by omega]
      · exact forall_mem_cons.mpr ⟨hfits, hall⟩
      · rw [hlen]
        cases r with
        | rep m b =>
          obtain ⟨htwo, hthree⟩ := hends
          rw [RleRun.text, length_replicate] at hbytes
          rw [RleRun.length_code_rep]
          exact ⟨by omega, fun ht => by have := hthree ht; omega⟩
        | lit bs =>
          obtain ⟨hnot, hend⟩ := hends
          rw [RleRun.text] at hbytes
          rw [RleRun.length_code_lit]
          refine ⟨?_, fun ht => absurd ht hnot⟩
          rcases hend with hmax | rfl | ht
          · omega
          · have hnone : runsCode rs = [] := by
              rw [Nat.sub_self, read_zero] at htexts
              cases rs with
              | nil => rfl
              | cons r' rs =>
                have hpos := (hall r' mem_cons_self).1
                rw [(append_eq_nil_iff.mp htexts).1] at hpos
                cases hpos
            rw [hnone, length_nil]
            omega
          · have := hcost3 ht
            omega
    · refine ⟨[], rfl, ?_, by simp, Nat.zero_le _, fun _ => Nat.zero_le _⟩
      rw [show n = 0 by omega, read_zero]
      rfl

/-- `rle` writes the code of runs whose text is the input, and an end mark. -/
theorem rle_runs (mem : ℕ → UInt8) (output : ℕ) (input : ℕ → UInt8) (len : ℕ) : ∃ rs : List RleRun,
    rle mem output input len = (write mem output (runsCode rs ++ [0]), (runsCode rs ++ [0]).length) ∧
      runsText rs = read input 0 len ∧ (∀ r ∈ rs, r.Fits) ∧ (runsCode rs).length ≤ len + len / 127 + 1 := by
  obtain ⟨rs, hloop, htext, hfits, hcost, -⟩ := rleLoop_runs input len (Nat.zero_le len) ⟨mem, output⟩
  refine ⟨rs, ?_, htext, hfits, hcost⟩
  have hput : (rleLoop input len 0 ⟨mem, output⟩).put 0 = (⟨mem, output⟩ : Sink UInt8).puts (runsCode rs ++ [0]) := by
    rw [hloop, puts_append]
    rfl
  simp only [rle, hput, puts_mem, puts_out, Nat.add_sub_cancel_left]

/-! ## The decoder -/

/-- `while (count--) *out++ = value;` -/
def replicateRun (value : UInt8) : ℕ → Sink UInt8 → Sink UInt8
  | 0, s => s
  | n + 1, s => replicateRun value n (s.put value)

/-- The loop of `unrle`, for at most so many turns; `p` is where the code is read. -/
def unrleLoop (input : ℕ → UInt8) : ℕ → ℕ → Sink UInt8 → Option (Sink UInt8)
  | 0, _, _ => none
  | turns + 1, p, s =>
    let count := (input p).toInt8.toInt
    if 0 < count then unrleLoop input turns (p + 2) (replicateRun (input (p + 1)) count.toNat s)
    else if count < 0 then
      let n := (-count).toNat
      unrleLoop input turns (p + 1 + n) (copyRun input (p + 1 + n) (p + 1) s)
    else some s

/-- `unrle(output, input)`: the memory afterwards and the value that is returned. -/
def unrle (turns : ℕ) (mem : ℕ → UInt8) (output : ℕ) (input : ℕ → UInt8) (p : ℕ) : Option ((ℕ → UInt8) × ℕ) :=
  (unrleLoop input turns p ⟨mem, output⟩).map fun s => (s.mem, s.out - output)

theorem replicateRun_eq (value : UInt8) (n : ℕ) (s : Sink UInt8) :
    replicateRun value n s = s.puts (List.replicate n value) := by
  induction n generalizing s with
  | zero => rfl
  | succ n ih => rw [replicateRun, ih, replicate_succ, puts_cons]

theorem toInt_count {z : ℤ} (h1 : -128 ≤ z) (h2 : z < 128) : (UInt8.ofInt z).toInt8.toInt = z := by
  have hbv : (UInt8.ofInt z).toBitVec = BitVec.ofInt 8 z := by
    apply BitVec.eq_of_toNat_eq
    rw [UInt8.ofInt, UInt8.toNat_toBitVec, UInt8.toNat_ofNat', BitVec.toNat_ofInt]
    exact Nat.mod_eq_of_lt (by omega)
  show (UInt8.ofInt z).toBitVec.toInt = z
  rw [hbv, BitVec.toInt_ofInt]
  exact Int.bmod_eq_of_le (by omega) (by omega)

/-- A turn of `unrle` undoes one run. -/
theorem unrleLoop_run {input : ℕ → UInt8} {p : ℕ} {r : RleRun} (hfits : r.Fits)
    (hread : read input p r.code.length = r.code) (turns : ℕ) (s : Sink UInt8) :
    unrleLoop input (turns + 1) p s = unrleLoop input turns (p + r.code.length) (s.puts r.text) := by
  obtain ⟨hpos, hmax⟩ := hfits
  cases r with
  | rep n b =>
    rw [RleRun.text, length_replicate] at hpos hmax
    rw [RleRun.length_code_rep, read_succ, read_succ, read_zero] at hread
    obtain ⟨hcount, hb, -⟩ : input p = UInt8.ofInt n ∧ input (p + 1) = b ∧ True := by simpa [RleRun.code] using hread
    have hint : (input p).toInt8.toInt = n := by rw [hcount, toInt_count (by omega) (by omega)]
    rw [unrleLoop, hint, if_pos (by omega), Int.toNat_natCast, replicateRun_eq, hb]
    rfl
  | lit bs =>
    rw [RleRun.text] at hpos hmax
    rw [RleRun.length_code_lit, read_succ] at hread
    obtain ⟨hcount, hbs⟩ := cons.inj hread
    have hint : (input p).toInt8.toInt = -bs.length := by rw [hcount, toInt_count (by omega) (by omega)]
    have hlen : p + 1 + bs.length - (p + 1) = bs.length := by omega
    rw [unrleLoop, hint, if_neg (by omega), if_pos (by omega), Int.neg_neg, Int.toNat_natCast, RleRun.length_code_lit]
    show unrleLoop input turns (p + 1 + bs.length) _ = _
    rw [copyRun_eq, hlen, hbs, RleRun.text, Nat.add_assoc, Nat.add_comm 1]

/-- The loop decodes the code of any runs, and stops at the 0 after it. -/
theorem unrleLoop_code {input : ℕ → UInt8} {rs : List RleRun} (hfits : ∀ r ∈ rs, r.Fits) {p : ℕ}
    (hread : read input p (runsCode rs ++ [0]).length = runsCode rs ++ [0]) {turns : ℕ} (hturns : rs.length < turns)
    (s : Sink UInt8) : unrleLoop input turns p s = some (s.puts (runsText rs)) := by
  obtain ⟨turns, rfl⟩ : ∃ n, turns = n + 1 := ⟨turns - 1, by omega⟩
  induction rs generalizing turns p s with
  | nil =>
    have hzero : input p = 0 := by simpa [runsCode, read_succ] using hread
    rw [unrleLoop, hzero]
    rfl
  | cons r rs ih =>
    have hcode : runsCode (r :: rs) ++ [0] = r.code ++ (runsCode rs ++ [0]) := append_assoc _ _ _
    rw [hcode, length_append] at hread
    obtain ⟨hhead, htail⟩ := read_eq_append input p hread
    rw [length_cons] at hturns
    obtain ⟨m, rfl⟩ : ∃ m, turns = m + 1 := ⟨turns - 1, by omega⟩
    rw [unrleLoop_run (hfits r mem_cons_self) hhead,
      ih (fun r' hr' => hfits r' (mem_cons_of_mem _ hr')) htail _ m (by omega), ← puts_append]
    rfl

/-! ## Round trip -/

theorem length_le_runsCode (rs : List RleRun) : rs.length ≤ (runsCode rs).length := by
  induction rs with
  | nil => exact Nat.le_refl _
  | cons r rs ih =>
    have hlen : (runsCode (r :: rs)).length = r.code.length + (runsCode rs).length := length_append
    have hpos : 1 ≤ r.code.length := by cases r <;> simp [RleRun.code]
    rw [length_cons, hlen]
    omega

/-- **Run-length coding is lossless and bounded**: `unrle` gives the input back from what `rle` has written, for
every number of turns that is at least the length of the code; `rle` returns this length, with the end mark, and it is
bounded. -/
theorem rle_lossless (mem : ℕ → UInt8) (output : ℕ) (input : ℕ → UInt8) (len : ℕ) :
    (∀ (mem' : ℕ → UInt8) (output' turns : ℕ),
      unrle ((rle mem output input len).2 + turns) mem' output' (rle mem output input len).1 output =
        some (write mem' output' (read input 0 len), len)) ∧
    (∃ code, (rle mem output input len).1 = write mem output (code ++ [0]) ∧
      (rle mem output input len).2 = (code ++ [0]).length) ∧
    (rle mem output input len).2 ≤ len + len / 127 + 2 := by
  obtain ⟨rs, hrle, htext, hfits, hcost⟩ := rle_runs mem output input len
  have hlen : (runsCode rs ++ [0]).length = (runsCode rs).length + 1 := by
    rw [length_append, length_singleton]
  rw [hrle]
  refine ⟨fun mem' output' turns => ?_, ⟨_, rfl, rfl⟩, by rw [hlen]; omega⟩
  have hshort := length_le_runsCode rs
  rw [unrle, unrleLoop_code hfits (read_write_self mem output _) (by rw [hlen]; omega), htext, Option.map_some,
    puts_mem, puts_out, length_read, Nat.add_sub_cancel_left]

end Bertos
