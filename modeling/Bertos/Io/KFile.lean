import Bertos.Lib.Mem

/-!
# Files (`bertos/io/kfile.c`)

A `KFile W` is the method table of a file, acting on a world `W`; `kfile_seek` with `KSM_SEEK_SET` does not fail.

`FixedFile k st fr` specifies a file of fixed size: `st` gives its content and position in a world, and no method
changes the rest of the world, as far as `fr` looks at it. Under it each function has its effect on contents
(`kfileGets_spec`, `kfileCopyLoop_spec` and so on). `Preserves k P` says that the methods keep a property of the world,
for files that may fail. Two files may be looked at side by side: if they answer reads and seeks alike (`ReadSim`), or
write alike as long as `P` does not hold (`Tracks`), so do the functions over them.
-/

namespace Bertos

open List

/-- The methods of a file: the bytes a read returns, the count a write returns. -/
structure KFile (W : Type) where
  read : W → ℕ → List UInt8 × W
  write : W → List UInt8 → ℕ × W
  seekPos : W → ℕ
  seek : W → ℕ → W
  size : W → ℕ

/-- The characters line feed, carriage return and blank. -/
def chLf : UInt8 := 10
def chCr : UInt8 := 13
def chSpace : UInt8 := 32

section Functions

variable {W : Type} (k : KFile W)

/-- `none` is `EOF`. -/
def kfileGetc (w : W) : Option UInt8 × W :=
  match k.read w 1 with
  | ([c], w') => (some c, w')
  | (_, w') => (none, w')

def kfilePutc (c : UInt8) (w : W) : Bool × W :=
  match k.write w [c] with
  | (n, w') => (n == 1, w')

/-- The loop of `kfile_gets_echo`, without echo; `room` is `size - 1 - i`. -/
def kfileGetsLoop (room i : ℕ) (buf : ℕ → UInt8) (w : W) : Option ℕ × (ℕ → UInt8) × W :=
  match kfileGetc k w with
  | (none, w') => (none, Mem.write buf i [0], w')
  | (some c, w') =>
    if c = chCr ∨ c = chLf then (some i, Mem.write buf i [0], w')
    else
      match room with
      | 0 => (some i, Mem.write buf i [0], w')
      | room + 1 => kfileGetsLoop room (i + 1) (Mem.write buf i [c]) w'

/-- The number of characters of the line, `none` at the end of the file, and the buffer. -/
def kfileGets (buf : ℕ → UInt8) (size : ℕ) (w : W) : Option ℕ × (ℕ → UInt8) × W :=
  kfileGetsLoop k (size - 1) 0 buf w

/-- `_formatted_write` to a file: the text goes out by `kfile_putc`, whose result is not looked at. -/
def kfilePrintf : List UInt8 → W → ℕ × W
  | [], w => (0, w)
  | c :: cs, w =>
    match kfilePrintf cs (kfilePutc k c w).2 with
    | (n, w') => (n + 1, w')

/-- A loop of `kfile_putc`s that stops at the first failure. -/
def kfileFill (c : UInt8) : ℕ → W → Bool × W
  | 0, w => (true, w)
  | n + 1, w =>
    match kfilePutc k c w with
    | (false, w') => (false, w')
    | (true, w') => kfileFill c n w'

/-- The loop of `kfile_copy`; every turn but the last moves a full buffer, so `size` is `fuel` enough. -/
def kfileCopyLoop (src dst : KFile W) : (fuel size : ℕ) → W → ℕ × W
  | 0, _, w => (0, w)
  | fuel + 1, size, w =>
    if size = 0 then (0, w)
    else
      let len := min 32 size
      match src.read w len with
      | (bs, w') =>
        if bs.length ≠ len then (0, w')
        else
          match dst.write w' bs with
          | (wrLen, w'') =>
            if wrLen ≠ len then (wrLen, w'')
            else
              match kfileCopyLoop src dst fuel (size - len) w'' with
              | (n, w''') => (wrLen + n, w''')

def kfileCopy (src dst : KFile W) (size : ℕ) (w : W) : ℕ × W := kfileCopyLoop src dst size size w

end Functions

/-! ## Files of fixed size -/

/-- The content of a file and the position in it. -/
structure FileSt where
  data : List UInt8
  pos : ℕ

def FileSt.rest (f : FileSt) : List UInt8 := f.data.drop f.pos

def FileSt.advance (f : FileSt) (n : ℕ) : FileSt := { f with pos := f.pos + n }

/-- The room between the position and the end. -/
def FileSt.room (f : FileSt) : ℕ := f.data.length - f.pos

/-- The file after a write, which stops at the end. -/
def FileSt.store (f : FileSt) (bs : List UInt8) : FileSt :=
  ⟨f.data.take f.pos ++ bs.take f.room ++ f.data.drop (f.pos + min bs.length f.room), f.pos + min bs.length f.room⟩

/-- A file of fixed size with content and position `st`, whose methods do not change what `fr` sees. -/
structure FixedFile {W α : Type} (k : KFile W) (st : W → FileSt) (fr : W → α) : Prop where
  read : ∀ w n, (k.read w n).1 = (st w).rest.take n ∧
    st (k.read w n).2 = (st w).advance ((st w).rest.take n).length ∧ fr (k.read w n).2 = fr w
  write : ∀ w bs, (k.write w bs).1 = min bs.length (st w).room ∧ st (k.write w bs).2 = (st w).store bs ∧
    fr (k.write w bs).2 = fr w
  seekPos : ∀ w, k.seekPos w = (st w).pos
  seek : ∀ w p, st (k.seek w p) = { st w with pos := p } ∧ fr (k.seek w p) = fr w
  size : ∀ w, k.size w = (st w).data.length

section FileSt

variable {f : FileSt}

@[simp] theorem FileSt.advance_data (n : ℕ) : (f.advance n).data = f.data := rfl

@[simp] theorem FileSt.advance_pos (n : ℕ) : (f.advance n).pos = f.pos + n := rfl

theorem FileSt.advance_advance (m n : ℕ) : (f.advance m).advance n = f.advance (m + n) := by
  simp only [advance, Nat.add_assoc]

theorem FileSt.rest_advance (n : ℕ) : (f.advance n).rest = f.rest.drop n := by
  simp only [rest, advance, drop_drop]

theorem FileSt.length_rest : f.rest.length = f.room := length_drop

theorem FileSt.length_store (h : f.pos ≤ f.data.length) (bs : List UInt8) :
    (f.store bs).data.length = f.data.length := by
  simp only [store, room, length_append, length_take, length_drop]
  omega

theorem FileSt.room_store (h : f.pos ≤ f.data.length) (bs : List UInt8) :
    (f.store bs).room = f.room - bs.length := by
  rw [room, length_store h]
  simp only [store, room]
  omega

theorem FileSt.store_nil (h : f.pos ≤ f.data.length) : f.store [] = f := by
  cases f
  simp [store]

theorem FileSt.store_congr {as bs : List UInt8} (h : as.take f.room = bs.take f.room)
    (hl : min as.length f.room = min bs.length f.room) : f.store as = f.store bs := by
  simp only [store, h, hl]

/-- Two stores one after the other are one store. -/
theorem FileSt.store_store (h : f.pos ≤ f.data.length) (as bs : List UInt8) :
    (f.store as).store bs = f.store (as ++ bs) := by
  have hroom := room_store h as
  have hpos : (f.store as).pos = f.pos + min as.length f.room := rfl
  have hdata : (f.store as).data =
      f.data.take f.pos ++ as.take f.room ++ f.data.drop (f.pos + min as.length f.room) := rfl
  have hlen : (f.data.take f.pos ++ as.take f.room).length = f.pos + min as.length f.room := by
    simp only [length_append, length_take]
    omega
  have hcount : min as.length f.room + min bs.length (f.room - as.length) = min (as ++ bs).length f.room := by
    rw [length_append]; omega
  rw [store, hroom, hpos, hdata, take_left' hlen, store, take_append, append_assoc _ (take _ as),
    ← append_assoc, drop_append, hlen, drop_of_length_le (by rw [hlen]; omega), nil_append,
    drop_drop, ← hcount]
  congr 1
  · congr 2; omega
  · omega

end FileSt

/-- Reading a file keeps a property of the world. -/
structure Reads {W : Type} (k : KFile W) (P : W → Prop) : Prop where
  read : ∀ w n, P w → P (k.read w n).2
  seek : ∀ w p, P w → P (k.seek w p)

/-- The methods of a file keep a property of the world. -/
structure Preserves {W : Type} (k : KFile W) (P : W → Prop) : Prop extends Reads k P where
  write : ∀ w bs, P w → P (k.write w bs).2

/-! ## Lines -/

/-- What `kfile_gets` cuts off: the characters stored, the number of characters taken, whether the end is met. -/
def getsText : ℕ → List UInt8 → List UInt8 × ℕ × Bool
  | _, [] => ([], 0, true)
  | room, c :: cs =>
    if c = chCr ∨ c = chLf then ([], 1, false)
    else
      match room with
      | 0 => ([], 1, false)
      | room + 1 => (c :: (getsText room cs).1, (getsText room cs).2.1 + 1, (getsText room cs).2.2)

section Specs

variable {W α : Type} {k : KFile W} {st : W → FileSt} {fr : W → α}

section
variable (h : FixedFile k st fr)
include h

theorem kfileGetc_spec (w : W) :
    ∃ w', kfileGetc k w = ((st w).rest.head?, w') ∧ st w' = (st w).advance ((st w).rest.take 1).length ∧
      fr w' = fr w := by
  obtain ⟨hr, hs, hf⟩ := h.read w 1
  refine ⟨(k.read w 1).2, ?_, hs, hf⟩
  unfold kfileGetc
  rcases hread : k.read w 1 with ⟨bs, w'⟩
  rw [hread] at hr
  subst hr
  cases (st w).rest with
  | nil => rfl
  | cons c cs => rfl

/-- The loop of `kfile_gets` puts the line it reads into the buffer, terminated. -/
theorem kfileGetsLoop_spec : ∀ (room i : ℕ) (buf : ℕ → UInt8) (w : W), ∃ w', kfileGetsLoop k room i buf w =
        (if (getsText room (st w).rest).2.2 then none else some (i + (getsText room (st w).rest).1.length),
          Mem.write buf i ((getsText room (st w).rest).1 ++ [0]), w') ∧
      st w' = (st w).advance (getsText room (st w).rest).2.1 ∧ fr w' = fr w := by
  intro room i buf w
  obtain ⟨w', hc, hs, hf⟩ := kfileGetc_spec h w
  generalize hr : (st w).rest = f at hc hs
  fun_induction getsText room f generalizing i buf w w' with
  | case1 => exact ⟨w', by simp [kfileGetsLoop, hc], hs, hf⟩
  | case2 _ c cs hl => exact ⟨w', by simp [kfileGetsLoop, hc, hl], hs, hf⟩
  | case3 c cs hl => exact ⟨w', by simp [kfileGetsLoop, hc, hl], hs, hf⟩
  | case4 c cs hl room ih =>
    have hrest : (st w').rest = cs := by rw [hs, FileSt.rest_advance, hr]; rfl
    obtain ⟨w2, hc', hs2, hf2⟩ := kfileGetc_spec h w'
    rw [hrest] at hc' hs2
    obtain ⟨w'', hg, hs', hf'⟩ := ih (i + 1) (Mem.write buf i [c]) w' w2 hf2 hrest hc' hs2
    refine ⟨w'', ?_, ?_, hf'.trans hf⟩
    · have hb := Mem.write_append buf i [c] ((getsText room cs).1 ++ [0])
      simp only [length_singleton, singleton_append] at hb
      simp only [kfileGetsLoop, hc, head?_cons, if_neg hl, hg, hb, cons_append, length_cons]
      simp only [Nat.add_assoc, Nat.add_comm 1]
    · rw [hs', hs, FileSt.advance_advance, Nat.add_comm]
      rfl

/-- **Reading a line**. -/
theorem kfileGets_spec (buf : ℕ → UInt8) (size : ℕ) (w : W) : ∃ w', kfileGets k buf size w =
        (if (getsText (size - 1) (st w).rest).2.2 then none else some (getsText (size - 1) (st w).rest).1.length,
          Mem.write buf 0 ((getsText (size - 1) (st w).rest).1 ++ [0]), w') ∧
      st w' = (st w).advance (getsText (size - 1) (st w).rest).2.1 ∧ fr w' = fr w := by
  have hg := kfileGetsLoop_spec h (size - 1) 0 buf w
  simp only [Nat.zero_add] at hg
  exact hg

theorem kfilePutc_spec (c : UInt8) (w : W) :
    ∃ w', kfilePutc k c w = (decide (0 < (st w).room), w') ∧ st w' = (st w).store [c] ∧ fr w' = fr w := by
  obtain ⟨hn, hs, hf⟩ := h.write w [c]
  refine ⟨(k.write w [c]).2, ?_, hs, hf⟩
  unfold kfilePutc
  rcases hw : k.write w [c] with ⟨n, w'⟩
  rw [hw] at hn
  subst hn
  rw [length_singleton]
  by_cases hr : 0 < (st w).room
  · simp [Nat.min_eq_left hr, hr]
  · simp [Nat.eq_zero_of_not_pos hr]

end

theorem FileSt.pos_store_le {f : FileSt} (h : f.pos ≤ f.data.length) (bs : List UInt8) :
    (f.store bs).pos ≤ (f.store bs).data.length := by
  rw [length_store h]
  simp only [store, room]
  omega

/-- **Formatted output** says that all has been written, whether it has or not. -/
theorem kfilePrintf_spec (h : FixedFile k st fr) : ∀ (text : List UInt8) (w : W), (st w).pos ≤ (st w).data.length →
    ∃ w', kfilePrintf k text w = (text.length, w') ∧ st w' = (st w).store text ∧ fr w' = fr w
  | [], w, hp => ⟨w, rfl, (FileSt.store_nil hp).symm, rfl⟩
  | c :: cs, w, hp => by
    obtain ⟨w₁, hc, hs, hf⟩ := kfilePutc_spec h c w
    obtain ⟨w', hl, hs', hf'⟩ := kfilePrintf_spec h cs w₁ (by rw [hs]; exact FileSt.pos_store_le hp _)
    refine ⟨w', ?_, ?_, hf'.trans hf⟩
    · simp only [kfilePrintf, hc, hl, length_cons]
    · rw [hs', hs, FileSt.store_store hp]
      rfl

theorem kfileFill_spec (h : FixedFile k st fr) (c : UInt8) : ∀ (n : ℕ) (w : W), (st w).pos ≤ (st w).data.length →
    n ≤ (st w).room →
    ∃ w', kfileFill k c n w = (true, w') ∧ st w' = (st w).store (List.replicate n c) ∧ fr w' = fr w
  | 0, w, hp, _ => ⟨w, rfl, (FileSt.store_nil hp).symm, rfl⟩
  | n + 1, w, hp, hn => by
    obtain ⟨w₁, hc, hs, hf⟩ := kfilePutc_spec h c w
    rw [decide_eq_true (by omega)] at hc
    obtain ⟨w', hl, hs', hf'⟩ := kfileFill_spec h c n w₁ (by rw [hs]; exact FileSt.pos_store_le hp _)
      (by rw [hs, FileSt.room_store hp, length_singleton]; omega)
    refine ⟨w', ?_, ?_, hf'.trans hf⟩
    · simp only [kfileFill, hc, hl]
    · rw [hs', hs, FileSt.store_store hp]
      rfl

/-- Two distinct files of fixed size; `fr` looks at the rest of the world. -/
structure FilePair (src dst : KFile W) (ss sd : W → FileSt) (fr : W → α) : Prop where
  src : FixedFile src ss fun w => (sd w, fr w)
  dst : FixedFile dst sd fun w => (ss w, fr w)

variable {src dst : KFile W} {ss sd : W → FileSt}

/-- The number of bytes that `kfile_copy` finds in a source with `rest` bytes left: a piece that is cut
short is dropped. -/
def copyable (size rest : ℕ) : ℕ := if size ≤ rest then size else 32 * (rest / 32)

theorem copyable_of_lt {size rest : ℕ} (h : rest < min 32 size) : copyable size rest = 0 := by
  rw [copyable, if_neg (by omega)]
  omega

theorem copyable_of_le {size rest : ℕ} (h : min 32 size ≤ rest) :
    copyable size rest = min 32 size + copyable (size - min 32 size) (rest - min 32 size) := by
  unfold copyable
  split <;> split <;> omega

theorem kfileCopyLoop_succ (fuel : ℕ) {size : ℕ} (h0 : size ≠ 0) {w w₁ : W} {bs : List UInt8}
    (h : src.read w (min 32 size) = (bs, w₁)) :
    kfileCopyLoop src dst (fuel + 1) size w =
      if bs.length ≠ min 32 size then (0, w₁)
      else
        match dst.write w₁ bs with
        | (n, w2) =>
          if n ≠ min 32 size then (n, w2)
          else
            match kfileCopyLoop src dst fuel (size - min 32 size) w2 with
            | (m, w3) => (n + m, w3) := by
  rw [kfileCopyLoop, if_neg h0]
  simp only [h]

/-- **Copying** goes by pieces of 32 bytes, and stops at a piece that is cut short or when the destination is full. -/
theorem kfileCopyLoop_spec (h : FilePair src dst ss sd fr) : ∀ (fuel size : ℕ) (w : W), size ≤ fuel →
    (sd w).pos ≤ (sd w).data.length →
    ∃ w', kfileCopyLoop src dst fuel size w = (min (copyable size (ss w).room) (sd w).room, w') ∧
      sd w' = (sd w).store ((ss w).rest.take (copyable size (ss w).room)) ∧ (ss w').data = (ss w).data ∧
      (copyable size (ss w).room ≤ (sd w).room → ss w' = (ss w).advance (min size (ss w).room)) ∧ fr w' = fr w
  | 0, size, w, hfuel, hp => by
    obtain rfl : size = 0 := by omega
    exact ⟨w, by simp [kfileCopyLoop, copyable], by simp [FileSt.store_nil hp, copyable], rfl,
      fun _ => by rw [Nat.zero_min]; rfl, rfl⟩
  | fuel + 1, size, w, hfuel, hp => by
    by_cases h0 : size = 0
    · subst h0
      exact ⟨w, by simp [kfileCopyLoop, copyable], by simp [FileSt.store_nil hp, copyable], rfl,
        fun _ => by rw [Nat.zero_min]; rfl, rfl⟩
    obtain ⟨hr, hs, hf⟩ := h.src.read w (min 32 size)
    rcases hread : src.read w (min 32 size) with ⟨bs, w₁⟩
    simp only [hread, Prod.mk.injEq] at hr hs hf
    have hlen : bs.length = min (min 32 size) (ss w).room := by rw [hr, length_take, FileSt.length_rest]
    rw [← hr, hlen] at hs
    by_cases hshort : (ss w).room < min 32 size
    · refine ⟨w₁, ?_, ?_, by rw [hs]; rfl, fun _ => ?_, hf.2⟩
      · rw [kfileCopyLoop_succ fuel h0 hread, copyable_of_lt hshort, if_pos (by omega), Nat.zero_min]
      · rw [copyable_of_lt hshort, hf.1, take_zero, FileSt.store_nil hp]
      · rw [hs]
        congr 1; omega
    have hle := Nat.not_lt.mp hshort
    have hl : bs.length = min 32 size := by omega
    rw [Nat.min_eq_left hle] at hs
    obtain ⟨hn, hs2, hf2⟩ := h.dst.write w₁ bs
    rcases hwrite : dst.write w₁ bs with ⟨n, w2⟩
    simp only [hwrite, Prod.mk.injEq, hf.1, hl] at hn hs2 hf2
    have hstep := copyable_of_le hle
    by_cases hfull : (sd w).room < min 32 size
    · refine ⟨w2, ?_, ?_, by rw [hf2.1, hs]; rfl, fun hle => by omega, hf2.2.trans hf.2⟩
      · rw [kfileCopyLoop_succ fuel h0 hread, if_neg (not_not.mpr hl), hwrite]
        simp only
        rw [if_pos (by omega), hn]
        congr 1; omega
      · rw [hs2, hr]
        refine FileSt.store_congr ?_ ?_
        · rw [take_take, take_take, Nat.min_eq_left (by omega), Nat.min_eq_left (by omega)]
        · simp only [length_take, FileSt.length_rest]; omega
    · have hrest : (ss w2).room = (ss w).room - min 32 size := by
        rw [hf2.1, hs, FileSt.room, FileSt.advance_data, FileSt.advance_pos, FileSt.room]; omega
      have hroom : (sd w2).room = (sd w).room - min 32 size := by rw [hs2, FileSt.room_store hp, hl]
      obtain ⟨w', hc, hd, hdata, hadv, hfr⟩ := kfileCopyLoop_spec h fuel (size - min 32 size) w2 (by omega)
        (by rw [hs2]; exact FileSt.pos_store_le hp _)
      rw [hrest, hroom] at hc hadv
      rw [hrest] at hd
      refine ⟨w', ?_, ?_, ?_, ?_, ?_⟩
      · rw [kfileCopyLoop_succ fuel h0 hread, if_neg (not_not.mpr hl), hwrite]
        simp only
        rw [if_neg (by omega), hc]
        simp only [Prod.mk.injEq, and_true]; omega
      · rw [hd, hs2, FileSt.store_store hp, hf2.1, hs, FileSt.rest_advance, hr, hstep, take_add]
      · rw [hdata, hf2.1, hs]; rfl
      · intro hle
        rw [hadv (by omega), hf2.1, hs, FileSt.advance_advance]
        congr 1; omega
      · rw [hfr, hf2.2, hf.2]

theorem kfileCopy_spec (h : FilePair src dst ss sd fr) (size : ℕ) (w : W) (hs : size ≤ (ss w).room)
    (hp : (sd w).pos ≤ (sd w).data.length) :
    ∃ w', kfileCopy src dst size w = (min size (sd w).room, w') ∧
      sd w' = (sd w).store ((ss w).rest.take size) ∧ (ss w').data = (ss w).data ∧
      (size ≤ (sd w).room → ss w' = (ss w).advance size) ∧ fr w' = fr w := by
  have hcopy := kfileCopyLoop_spec h size size w (Nat.le_refl _) hp
  rwa [copyable, if_pos hs, Nat.min_eq_left hs] at hcopy

end Specs

/-! ## Two files side by side -/

/-- Two files that answer reads and seeks alike in worlds that are related. -/
structure ReadSim {W V : Type} (fd : KFile W) (gd : KFile V) (R : W → V → Prop) : Prop where
  read : ∀ {w v}, R w v → ∀ n, (fd.read w n).1 = (gd.read v n).1 ∧ R (fd.read w n).2 (gd.read v n).2
  seek : ∀ {w v}, R w v → ∀ p, R (fd.seek w p) (gd.seek v p)
  seekPos : ∀ {w v}, R w v → fd.seekPos w = gd.seekPos v
  size : ∀ {w v}, R w v → fd.size w = gd.size v

section Sim

variable {W V : Type} {fd : KFile W} {gd : KFile V} {R : W → V → Prop} {w : W} {v : V}

def Alike {α : Type} (R : W → V → Prop) (r : α × W) (r' : α × V) : Prop := r.1 = r'.1 ∧ R r.2 r'.2

/-- The same, for a result that comes with a buffer. -/
def AlikeLine {α : Type} (R : W → V → Prop) (r : α × (ℕ → UInt8) × W) (r' : α × (ℕ → UInt8) × V) : Prop :=
  r.1 = r'.1 ∧ r.2.1 = r'.2.1 ∧ R r.2.2 r'.2.2

theorem Alike.eq {α : Type} {r : α × W} {r' : α × V} (h : Alike R r r') : ∃ a w v, r = (a, w) ∧ r' = (a, v) ∧ R w v :=
  ⟨r.1, r.2, r'.2, rfl, Prod.ext h.1.symm rfl, h.2⟩

theorem AlikeLine.eq {α : Type} {r : α × (ℕ → UInt8) × W} {r' : α × (ℕ → UInt8) × V} (h : AlikeLine R r r') :
    ∃ a line w v, r = (a, line, w) ∧ r' = (a, line, v) ∧ R w v :=
  ⟨r.1, r.2.1, r.2.2, r'.2.2, rfl, Prod.ext h.1.symm (Prod.ext h.2.1.symm rfl), h.2.2⟩

section
variable (h : ReadSim fd gd R)
include h

theorem kfileGetc_sim (hR : R w v) : Alike R (kfileGetc fd w) (kfileGetc gd v) := by
  obtain ⟨bs, w', v', hf, hg, hR'⟩ := Alike.eq (h.read hR 1)
  unfold kfileGetc
  rw [hf, hg]
  rcases bs with _ | ⟨c, _ | ⟨d, bs⟩⟩
  all_goals exact ⟨rfl, hR'⟩

theorem kfileGetsLoop_sim : ∀ (room i : ℕ) (buf : ℕ → UInt8) {w : W} {v : V}, R w v →
    AlikeLine R (kfileGetsLoop fd room i buf w) (kfileGetsLoop gd room i buf v)
  | room, i, buf, w, v, hR => by
    obtain ⟨c, w', v', hf, hg, hR'⟩ := (kfileGetc_sim h hR).eq
    unfold kfileGetsLoop
    rw [hf, hg]
    cases c with
    | none => exact ⟨rfl, rfl, hR'⟩
    | some c =>
      dsimp only
      split
      · exact ⟨rfl, rfl, hR'⟩
      · cases room with
        | zero => exact ⟨rfl, rfl, hR'⟩
        | succ room => exact kfileGetsLoop_sim room (i + 1) _ hR'

theorem kfileGets_sim (hR : R w v) (buf : ℕ → UInt8) (size : ℕ) :
    AlikeLine R (kfileGets fd buf size w) (kfileGets gd buf size v) :=
  kfileGetsLoop_sim h (size - 1) 0 buf hR

end

/-- A file that is only read does what it does with other writes, and keeps what reads and seeks keep. -/
theorem Reads.sim {P : W → Prop} (h : Reads fd P) (wi : W → List UInt8 → ℕ × W) (w : W) :
    ReadSim fd { fd with write := wi } fun w' v => v = w' ∧ (P w → P w') where
  read := by
    rintro w' _ ⟨rfl, hw⟩ n
    exact ⟨rfl, rfl, fun h0 => h.read _ n (hw h0)⟩
  seek := by
    rintro w' _ ⟨rfl, hw⟩ p
    exact ⟨rfl, fun h0 => h.seek _ p (hw h0)⟩
  seekPos := by
    rintro w' _ ⟨rfl, -⟩
    rfl
  size := by
    rintro w' _ ⟨rfl, -⟩
    rfl

end Sim

/-! ## Devices that agree so long -/

/-- The methods of a file keep a property of the world, and a write that does not make it hold is one of
another device. -/
structure Follows {W : Type} (k : KFile W) (wr : W → List UInt8 → ℕ × W) (P : W → Prop) :
    Prop extends Preserves k P where
  agree : ∀ w bs, P (k.write w bs).2 ∨ k.write w bs = wr w bs

section Tracks

variable {W α β : Type} {k src dst : KFile W} {P : W → Prop} {wi wr : W → List UInt8 → ℕ × W} {w w₁ : W}

theorem Preserves.follows (h : Preserves k P) : Follows k k.write P := ⟨h, fun _ _ => .inr rfl⟩

/-- The results of a call from `w` on two devices: the first one keeps `P`, and they are the same unless it holds. -/
def Tracks (P : W → Prop) (w : W) (r r' : α × W) : Prop := (P w → P r.2) ∧ (P r.2 ∨ r = r')

variable {r r' : α × W}

theorem Tracks.same (h : P w → P r.2) : Tracks P w r r := ⟨h, .inr rfl⟩

theorem Tracks.after (h : Tracks P w₁ r r') (hw : P w → P w₁) : Tracks P w r r' := ⟨fun h0 => h.1 (hw h0), h.2⟩

theorem Tracks.bind {g g' : α × W → β × W} (h : Tracks P w r r') (hg : ∀ r, Tracks P r.2 (g r) (g' r)) :
    Tracks P w (g r) (g' r') := by
  refine ⟨fun hw => (hg r).1 (h.1 hw), ?_⟩
  rcases h.2 with hp | rfl
  · exact .inl ((hg r).1 hp)
  · exact (hg r).2

theorem Tracks.map (h : Tracks P w r r') (f : α → β) : Tracks P w (f r.1, r.2) (f r'.1, r'.2) :=
  ⟨h.1, h.2.imp_right fun he => by rw [he]⟩

theorem kfilePutc_tracks (h : Follows k wr P) (c : UInt8) (w : W) :
    Tracks P w (kfilePutc k c w) (kfilePutc { k with write := wr } c w) := by
  refine ⟨h.write w [c], (h.agree w [c]).imp_right fun he => ?_⟩
  simp only [kfilePutc, he]

theorem kfilePrintf_tracks (h : Follows k wr P) : ∀ (text : List UInt8) (w : W),
    Tracks P w (kfilePrintf k text w) (kfilePrintf { k with write := wr } text w)
  | [], w => .same id
  | c :: cs, w => by
    have hc := kfilePutc_tracks h c w
    unfold kfilePrintf
    generalize kfilePutc k c w = x, kfilePutc { k with write := wr } c w = x' at hc ⊢
    exact hc.bind fun r => (kfilePrintf_tracks h cs r.2).map (· + 1)

theorem kfileFill_tracks (h : Follows k wr P) (c : UInt8) : ∀ (n : ℕ) (w : W),
    Tracks P w (kfileFill k c n w) (kfileFill { k with write := wr } c n w)
  | 0, w => .same id
  | n + 1, w => by
    have hc := kfilePutc_tracks h c w
    unfold kfileFill
    generalize kfilePutc k c w = x, kfilePutc { k with write := wr } c w = x' at hc ⊢
    apply Tracks.bind hc
    rintro ⟨_ | _, w'⟩
    · exact .same id
    · exact kfileFill_tracks h c n w'

/-- A copy follows the copy through other write functions. -/
theorem kfileCopyLoop_tracks (hs : Reads src P) (hd : Follows dst wr P) : ∀ (fuel size : ℕ) (w : W),
    Tracks P w (kfileCopyLoop src dst fuel size w)
      (kfileCopyLoop { src with write := wi } { dst with write := wr } fuel size w)
  | 0, _, w => .same id
  | fuel + 1, size, w => by
    have hr := hs.read w (min 32 size)
    rcases hread : src.read w (min 32 size) with ⟨bs, w₁⟩
    rw [hread] at hr
    have hw : Tracks P w (dst.write w₁ bs) (({ dst with write := wr } : KFile W).write w₁ bs) :=
      ⟨fun h => hd.write _ _ (hr h), hd.agree w₁ bs⟩
    by_cases h0 : size = 0
    · simpa only [kfileCopyLoop, if_pos h0] using .same id
    have hread' : ({ src with write := wi } : KFile W).read w (min 32 size) = (bs, w₁) := hread
    rw [kfileCopyLoop_succ fuel h0 hread, kfileCopyLoop_succ fuel h0 hread']
    by_cases hl : bs.length ≠ min 32 size
    · rw [if_pos hl, if_pos hl]
      exact .same hr
    rw [if_neg hl, if_neg hl]
    generalize dst.write w₁ bs = x, ({ dst with write := wr } : KFile W).write w₁ bs = x' at hw ⊢
    apply Tracks.bind hw
    rintro ⟨n, w2⟩
    dsimp only
    split_ifs
    · exact .same id
    · exact (kfileCopyLoop_tracks hs hd fuel _ w2).map (n + ·)

end Tracks

/-! ## Files in memory (`bertos/struct/kfile_mem.c`) -/

section KFileMem

variable {W α : Type} (get : W → FileSt) (set : FileSt → W → W)

def kfilememRead (w : W) (size : ℕ) : List UInt8 × W :=
  let size' := min size (get w).room
  ((get w).rest.take size', set ((get w).advance size') w)

def kfilememWrite (w : W) (bs : List UInt8) : ℕ × W := (min bs.length (get w).room, set ((get w).store bs) w)

/-- The methods of a file that `kfilemem_init` sets up in a part of the world. -/
def kfilemem : KFile W where
  read := kfilememRead get set
  write := kfilememWrite get set
  seekPos w := (get w).pos
  seek w p := set { get w with pos := p } w
  size w := (get w).data.length

/-- A memory file has a fixed size. -/
theorem kfilemem_fixed {get : W → FileSt} {set : FileSt → W → W} {fr : W → α} (hget : ∀ f w, get (set f w) = f)
    (hfr : ∀ f w, fr (set f w) = fr w) : FixedFile (kfilemem get set) get fr where
  read := by
    intro w n
    have hl : ((get w).rest.take n).length = min n (get w).room := by rw [length_take, FileSt.length_rest]
    refine ⟨?_, ?_, hfr _ w⟩
    · by_cases hn : n ≤ (get w).room
      · simp only [kfilemem, kfilememRead, Nat.min_eq_left hn]
      · have hroom : (get w).room ≤ n := Nat.le_of_not_le hn
        simp only [kfilemem, kfilememRead, Nat.min_eq_right hroom]
        rw [← FileSt.length_rest, take_length, take_of_length_le (by rw [FileSt.length_rest]; exact hroom)]
    · rw [hl]
      exact hget _ w
  write := by
    intro w bs
    exact ⟨rfl, hget _ w, hfr _ w⟩
  seekPos := fun w => rfl
  seek := by
    intro w p
    exact ⟨hget _ w, hfr _ w⟩
  size := fun w => rfl

def memFst : KFile (FileSt × FileSt) := kfilemem Prod.fst fun f w => (f, w.2)

def memSnd : KFile (FileSt × FileSt) := kfilemem Prod.snd fun f w => (w.1, f)

theorem kfilemem_pair : FilePair memFst memSnd Prod.fst Prod.snd (fun _ => ()) where
  src := kfilemem_fixed (fun _ _ => rfl) fun _ _ => rfl
  dst := kfilemem_fixed (fun _ _ => rfl) fun _ _ => rfl

end KFileMem

/-! ## How much is copied -/

/-- **`kfile_copy` copies as much as is available**, and loses no byte that it has read unless the destination is full,
exactly if the source has all the bytes asked for, or a multiple of 32 bytes, or the destination is full before the last
piece of the source. -/
theorem kfileCopy_all_iff {W α : Type} {src dst : KFile W} {ss sd : W → FileSt} {fr : W → α}
    (h : FilePair src dst ss sd fr) (size : ℕ) (w : W) (hp : (sd w).pos ≤ (sd w).data.length) :
    ((kfileCopy src dst size w).1 = min size (min (ss w).room (sd w).room) ∧
      sd (kfileCopy src dst size w).2 = (sd w).store ((ss w).rest.take (min size (min (ss w).room (sd w).room))) ∧
      (ss (kfileCopy src dst size w).2 = (ss w).advance (kfileCopy src dst size w).1 ∨
        (sd (kfileCopy src dst size w).2).room = 0)) ↔
    size ≤ (ss w).room ∨ (ss w).room % 32 = 0 ∨ (sd w).room ≤ 32 * ((ss w).room / 32) := by
  obtain ⟨w', hcopy, hsd, -, hss, -⟩ := kfileCopyLoop_spec h size size w (Nat.le_refl _) hp
  rw [kfileCopy, hcopy]
  have hle : copyable size (ss w).room ≤ min size (ss w).room := by
    unfold copyable
    split <;> omega
  -- all that is available is copied, or the destination is filled
  have hmin : min (copyable size (ss w).room) (sd w).room = min size (min (ss w).room (sd w).room) ↔
      size ≤ (ss w).room ∨ (ss w).room % 32 = 0 ∨ (sd w).room ≤ 32 * ((ss w).room / 32) := by
    unfold copyable
    split <;> omega
  refine ⟨fun hall => hmin.mp hall.1, fun hcond => ⟨hmin.mpr hcond, ?_, ?_⟩⟩
  · have heq := hmin.mpr hcond
    rw [hsd]
    refine FileSt.store_congr ?_ ?_
    · rw [take_take, take_take, Nat.min_comm (sd w).room, heq]
      congr 1; omega
    · simp only [length_take, FileSt.length_rest]; omega
  · have heq := hmin.mpr hcond
    by_cases hroom : copyable size (ss w).room ≤ (sd w).room
    · by_cases hend : min size (ss w).room ≤ (sd w).room
      · refine Or.inl ((hss hroom).trans ?_)
        congr 1; omega
      · refine Or.inr ?_
        rw [hsd, FileSt.room_store hp, length_take, FileSt.length_rest]
        omega
    · refine Or.inr ?_
      rw [hsd, FileSt.room_store hp, length_take, FileSt.length_rest]
      omega

/-- Two bytes out of three. -/
theorem kfileCopy_all_mem : (kfileCopy memFst memSnd 2 (⟨[1, 2, 3], 0⟩, ⟨[0, 0], 0⟩)).1 = 2 :=
  ((kfileCopy_all_iff kfilemem_pair 2 (⟨[1, 2, 3], 0⟩, ⟨[0, 0], 0⟩) (by decide)).mpr (by decide)).1

/-- Five bytes are asked for and three are left: they are read and dropped. -/
theorem kfileCopy_drops : kfileCopy memFst memSnd 5 (⟨[1, 2, 3], 0⟩, ⟨[0, 0, 0, 0, 0], 0⟩) =
    (0, ⟨[1, 2, 3], 3⟩, ⟨[0, 0, 0, 0, 0], 0⟩) := by
  rfl

end Bertos
