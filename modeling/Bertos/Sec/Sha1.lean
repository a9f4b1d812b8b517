import Bertos.Lib.Words
import Bertos.Sec.Hash

/-!
# SHA-1 (`sec/hash/sha1.c`)

The context has the five words of the state, the number of bits as two words with a carry between them, and a buffer of
64 bytes. `final` pads with `update` itself: the mark, zeros one by one until the buffer has 56 bytes, the count.
`Sha1Context.Rep` takes the count modulo its size, so that it also holds while the padding is added. The main result is
`sha1_computes`.
-/

namespace Bertos

open Blocks List

/-! ## The transform -/

/-- The words `a`, `b`, `c`, `d`, `e`. -/
structure Sha1Words where
  a : UInt32
  b : UInt32
  c : UInt32
  d : UInt32
  e : UInt32

/-- The word of a round: `blk0` loads it from the block, `blk` expands the block in place. -/
def sha1Blk (big : Bool) (block : List UInt32) (i : ℕ) : UInt32 :=
  if i < 16 then be32ToCpu big (block.getD i 0)
  else rotl32 (block.getD ((i + 13) % 16) 0 ^^^ block.getD ((i + 8) % 16) 0 ^^^ block.getD ((i + 2) % 16) 0 ^^^
    block.getD (i % 16) 0) 1

/-- The function of a round, on its words `w`, `x`, `y`. -/
def sha1Fun (i : ℕ) (w x y : UInt32) : UInt32 :=
  if i < 20 then (w &&& (x ^^^ y)) ^^^ y
  else if i < 40 then w ^^^ x ^^^ y
  else if i < 60 then ((w ||| x) &&& y) ||| (w &&& x)
  else w ^^^ x ^^^ y

def sha1Const (i : ℕ) : UInt32 :=
  if i < 20 then 0x5A827999 else if i < 40 then 0x6ED9EBA1 else if i < 60 then 0x8F1BBCDC else 0xCA62C1D6

/-- A round, `R0` to `R4`. The next one has the words in the order `e`, `a`, `b`, `c`, `d`. -/
def sha1Round (big : Bool) (s : Sha1Words × List UInt32) (i : ℕ) : Sha1Words × List UInt32 :=
  let data := sha1Blk big s.2 i
  let z := s.1.e + (sha1Fun i s.1.b s.1.c s.1.d + data + sha1Const i + rotl32 s.1.a 5)
  (⟨z, s.1.a, rotl32 s.1.b 30, s.1.c, s.1.d⟩, s.2.set (i % 16) data)

/-- `SHA1Transform` -/
@[irreducible] def sha1Transform (big : Bool) (state : Sha1Words) (buffer : List UInt8) : Sha1Words :=
  let x := ((List.range 80).foldl (sha1Round big) (state, loadWords big buffer)).1
  ⟨state.a + x.a, state.b + x.b, state.c + x.c, state.d + x.d, state.e + x.e⟩

/-! ## The context -/

/-- `SHA1_Context` -/
structure Sha1Context where
  state : Sha1Words
  count0 : UInt32
  count1 : UInt32
  buffer : List UInt8

def sha1Init : Sha1Words := ⟨0x67452301, 0xEFCDAB89, 0x98BADCFE, 0x10325476, 0xC3D2E1F0⟩

/-- Byte `i` of a word, the high one first. -/
def beByte (w : UInt32) (i : ℕ) : UInt8 := (w >>> UInt32.ofNat ((3 - i % 4) * 8) &&& 255).toUInt8

section Functions

variable (big : Bool)

/-- `SHA1_begin` -/
def sha1Begin (ctx : Sha1Context) : Sha1Context := { ctx with state := sha1Init, count0 := 0, count1 := 0 }

/-- `for (; i + 63 < len; i += 64) SHA1Transform(context->state, &data[i]);` -/
def sha1Loop (data : List UInt8) (state : Sha1Words) (i : ℕ) : Sha1Words × ℕ :=
  if i + 63 < data.length then sha1Loop data (sha1Transform big state ((data.drop i).take 64)) (i + 64) else (state, i)
termination_by data.length - i

/-- `SHA1_update` -/
def sha1Update (ctx : Sha1Context) (data : List UInt8) : Sha1Context :=
  let len := UInt32.ofNat data.length
  let j := (ctx.count0 >>> 3 &&& 63).toNat
  let count0 := ctx.count0 + len <<< 3
  let count1 := (if count0 < len <<< 3 then ctx.count1 + 1 else ctx.count1) + len >>> 29
  if j + data.length > 63 then
    let buffer := splice ctx.buffer j (data.take (64 - j))
    let r := sha1Loop big data (sha1Transform big ctx.state buffer) (64 - j)
    ⟨r.1, count0, count1, splice buffer 0 (data.drop r.2)⟩
  else ⟨ctx.state, count0, count1, splice ctx.buffer j data⟩

/-- `while ((context->count[0] & 504) != 448) SHA1_update(h, "\0", 1);` for at most so many turns. -/
def sha1Pad : ℕ → Sha1Context → Sha1Context
  | 0, ctx => ctx
  | turns + 1, ctx => if ctx.count0 &&& 504 ≠ 448 then sha1Pad turns (sha1Update big ctx [0]) else ctx

/-- `SHA1_final` -/
def sha1Final (ctx : Sha1Context) : Sha1Context × List UInt8 :=
  let finalcount := (List.range 8).map fun i => beByte (if i ≥ 4 then ctx.count0 else ctx.count1) i
  let ctx := sha1Update big ctx [0x80]
  let ctx := sha1Pad big 64 ctx
  let ctx := sha1Update big ctx finalcount
  let words := [ctx.state.a, ctx.state.b, ctx.state.c, ctx.state.d, ctx.state.e]
  let digest := (List.range 20).map fun i => beByte (words.getD (i / 4) 0) i
  ({ ctx with buffer := splice ctx.buffer 0 digest }, digest)

/-- The hash that `SHA1_init` sets up. -/
def sha1 : Hash Sha1Context where
  begin := sha1Begin
  update := sha1Update big
  final := sha1Final big
  digestLen := 20
  blockLen := 64

end Functions

/-- The bytes of the state, in big-endian order. -/
def Sha1Words.bytes (x : Sha1Words) : List UInt8 := storeWords true [x.a, x.b, x.c, x.d, x.e]

theorem storeWord_beByte (w : UInt32) : storeWord true w = [beByte w 0, beByte w 1, beByte w 2, beByte w 3] := by
  have hmask : ∀ x : UInt32, (x &&& 255).toUInt8 = x.toUInt8 := by
    intro x
    apply UInt8.toNat_inj.mp
    rw [UInt32.toNat_toUInt8, UInt32.toNat_toUInt8, UInt32.toNat_and]
    show (x.toNat &&& 255) % 256 = _
    rw [Nat.and_two_pow_sub_one_eq_mod x.toNat 8]
    exact Nat.mod_mod _ _
  have hlow : beByte w 3 = w.toUInt8 := by
    show (w >>> 0 &&& 255).toUInt8 = _
    rw [hmask, UInt32.shiftRight_zero]
  rw [hlow]
  simp only [beByte, hmask]
  rfl

/-! ## Contexts and messages -/

section Update

variable (big : Bool) {m d data : List UInt8} {state : Sha1Words} {buffer : List UInt8}

/-- The loop absorbs whole blocks of the data, from position `i` on; what stands behind them is shorter than a block. -/
theorem sha1Loop_absorbed {i : ℕ} (hi : i ≤ data.length)
    (ha : Absorbed (sha1Transform big) sha1Init (m ++ data.take i) state buffer)
    (hm : (m ++ data.take i).length % 64 = 0) :
    (sha1Loop big data state i).2 ≤ data.length ∧ data.length < (sha1Loop big data state i).2 + 64 ∧
      Absorbed (sha1Transform big) sha1Init (m ++ data.take (sha1Loop big data state i).2) (sha1Loop big data state i).1
        buffer ∧
      (m ++ data.take (sha1Loop big data state i).2).length % 64 = 0 := by
  fun_induction sha1Loop big data state i with
  | case1 state i hmore ih =>
    have hlen : ((data.drop i).take 64).length = 64 := by
      rw [length_take, length_drop]
      omega
    have hnext : data.take (i + 64) = data.take i ++ (data.drop i).take 64 := take_add
    have hblock := ha.block (d := (data.drop i).take 64) (by omega) _ ha.length
    rw [hm, take_zero, nil_append, append_assoc, ← hnext] at hblock
    refine ih (by omega) hblock ?_
    rw [hnext, ← append_assoc, length_append, hlen]
    omega
  | case2 state i hmore => exact ⟨hi, by omega, ha, hm⟩

end Update

/-- The context stands for the message. The count is that of the message modulo its size; without a wrap its
high word is zero. -/
structure Sha1Context.Rep (big : Bool) (m : List UInt8) (ctx : Sha1Context) : Prop where
  absorbed : Absorbed (sha1Transform big) sha1Init m ctx.state ctx.buffer
  low : ctx.count0.toNat = 8 * m.length % 4294967296
  high : m.length < 536870912 → ctx.count1 = 0

namespace Sha1Context.Rep

variable {big : Bool} {m d : List UInt8} {ctx : Sha1Context}

theorem position (h : ctx.Rep big m) : (ctx.count0 >>> 3 &&& 63).toNat = m.length % 64 := by
  have hshift : (ctx.count0 >>> 3).toNat = m.length % 536870912 := by
    rw [UInt32.toNat_shiftRight, h.low]
    show (8 * m.length % 4294967296) >>> 3 = _
    omega
  have hmask : m.length % 536870912 &&& 63 = m.length % 536870912 % 64 := Nat.and_two_pow_sub_one_eq_mod _ 6
  rw [UInt32.toNat_and, hshift]
  show m.length % 536870912 &&& 63 = _
  omega

theorem toNat_bits (n : ℕ) : (UInt32.ofNat n <<< 3).toNat = 8 * n % 4294967296 := by
  rw [UInt32.toNat_shiftLeft, UInt32.toNat_ofNat']
  show (n % 4294967296) <<< 3 % 4294967296 = _
  omega

theorem update (h : ctx.Rep big m) (d : List UInt8) : (sha1Update big ctx d).Rep big (m ++ d) := by
  have ha := h.absorbed
  have hlow : (ctx.count0 + UInt32.ofNat d.length <<< 3).toNat = 8 * (m ++ d).length % 4294967296 := by
    rw [UInt32.toNat_add, h.low, toNat_bits, length_append]
    omega
  have hhigh : (m ++ d).length < 536870912 →
      (if ctx.count0 + UInt32.ofNat d.length <<< 3 < UInt32.ofNat d.length <<< 3 then ctx.count1 + 1 else ctx.count1) +
        UInt32.ofNat d.length >>> 29 = 0 := by
    intro hlen
    have hcarry : ¬ ctx.count0 + UInt32.ofNat d.length <<< 3 < UInt32.ofNat d.length <<< 3 := by
      rw [UInt32.lt_iff_toNat_lt, hlow, toNat_bits]
      rw [length_append] at hlen ⊢
      omega
    have hshift : UInt32.ofNat d.length >>> 29 = 0 := by
      apply UInt32.toNat_inj.mp
      rw [UInt32.toNat_shiftRight, UInt32.toNat_ofNat']
      show (d.length % 4294967296) >>> 29 = 0
      rw [length_append] at hlen
      omega
    rw [if_neg hcarry, hshift, h.high (by rw [length_append] at hlen; omega)]
    rfl
  simp only [sha1Update, h.position]
  split
  · have htake : (d.take (64 - m.length % 64)).length = 64 - m.length % 64 := by
      rw [length_take, Nat.min_eq_left (by omega)]
    have hfits : m.length % 64 + (d.take (64 - m.length % 64)).length = 64 := by omega
    have hbuf : (splice ctx.buffer (m.length % 64) (d.take (64 - m.length % 64))).length = 64 := by
      rw [length_splice (by rw [ha.length]; omega), ha.length]
    have hfull := ha.block hfits _ hbuf
    rw [← splice_end (by rw [ha.length, hfits])] at hfull
    obtain ⟨hle, hlt, hloop, hmod⟩ := sha1Loop_absorbed big (by omega) hfull (by rw [length_append]; omega)
    generalize sha1Loop big d _ _ = r at *
    have hfill := hloop.fill (d := d.drop r.2) (by rw [hmod, length_drop]; omega)
    rw [hmod, append_assoc, take_append_drop] at hfill
    exact ⟨hfill, hlow, hhigh⟩
  · exact ⟨ha.fill (by omega), hlow, hhigh⟩

/-! ## The digest -/

theorem masked (h : ctx.Rep big m) : ctx.count0 &&& 504 = 448 ↔ m.length % 64 = 56 := by
  have hmask : (ctx.count0 &&& 504).toNat = 8 * (ctx.count0 >>> 3 &&& 63).toNat := by
    have hbits : ctx.count0.toNat &&& 63 <<< 3 = (ctx.count0.toNat >>> 3 &&& 63) <<< 3 := by
      rw [Nat.shiftLeft_and_distrib]
      apply Nat.eq_of_testBit_eq
      intro i
      rw [Nat.testBit_and, Nat.testBit_and, Nat.testBit_shiftLeft, Nat.testBit_shiftLeft, Nat.testBit_shiftRight]
      by_cases hi : i ≥ 3
      · rw [Nat.add_sub_cancel' hi, decide_eq_true hi, Bool.true_and, Bool.true_and]
      · rw [decide_eq_false hi, Bool.false_and, Bool.and_false, Bool.and_false]
    rw [UInt32.toNat_and, UInt32.toNat_and, UInt32.toNat_shiftRight, Nat.mul_comm]
    exact hbits.trans (Nat.shiftLeft_eq _ 3)
  rw [← UInt32.toNat_inj, hmask, h.position]
  show 8 * (m.length % 64) = 448 ↔ _
  omega

/-- The padding loop adds zeros until the block has 56 bytes, and it stops by itself. -/
theorem pad (turns : ℕ) (h : ctx.Rep big m) (ht : (120 - m.length % 64) % 64 ≤ turns) :
    (sha1Pad big turns ctx).Rep big (m ++ List.replicate ((120 - m.length % 64) % 64) 0) := by
  induction turns generalizing m ctx with
  | zero =>
    rw [Nat.le_zero.mp ht, replicate_zero, append_nil]
    exact h
  | succ turns ih =>
    by_cases hdone : m.length % 64 = 56
    · rw [sha1Pad, if_neg (not_not_intro (h.masked.mpr hdone)), hdone]
      show ctx.Rep big (m ++ [])
      rwa [append_nil]
    · have hone := h.update [0]
      have hlen : (m ++ [(0 : UInt8)]).length = m.length + 1 := length_append
      have hnext := ih hone (by rw [hlen]; omega)
      have hcount : (120 - m.length % 64) % 64 = (120 - (m ++ [(0 : UInt8)]).length % 64) % 64 + 1 := by
        rw [hlen]
        omega
      rw [sha1Pad, if_pos (mt h.masked.mp hdone), hcount, Nat.add_comm, replicate_add, ← append_assoc]
      exact hnext

theorem finalcount (h : ctx.Rep big m) (hlen : m.length < 536870912) :
    ((List.range 8).map fun i => beByte (if i ≥ 4 then ctx.count0 else ctx.count1) i) =
      beBytesOf 8 (8 * m.length) := by
  have hwords : ((range 8).map fun i => beByte (if i ≥ 4 then ctx.count0 else ctx.count1) i) =
      storeWord true ctx.count1 ++ storeWord true ctx.count0 := by
    rw [storeWord_beByte, storeWord_beByte]
    rfl
  have hlow : ctx.count0.toNat = 8 * m.length := by
    rw [h.low]
    omega
  rw [hwords, storeWord_true, storeWord_true, h.high hlen, hlow, beBytesOf_add 4 4]
  congr 2
  show 0 = 8 * m.length / 4294967296
  omega

/-- **The digest of SHA-1**: `final` pads the message with `update`. -/
theorem final (h : ctx.Rep big m) (hlen : m.length < 536870912) :
    (sha1Final big ctx).1.buffer.length = 64 ∧
      (sha1Final big ctx).2 = digestOf (sha1Transform big) sha1Init (beBytesOf 8) Sha1Words.bytes m := by
  have hmark := h.update [0x80]
  have hzeros : (120 - (m ++ [(0x80 : UInt8)]).length % 64) % 64 = padZeros m.length := by
    rw [length_append, length_singleton, padZeros]
    omega
  have hpad := hmark.pad 64 (by omega)
  rw [hzeros] at hpad
  have hall := (hpad.update (beBytesOf 8 (8 * m.length))).absorbed
  rw [append_assoc, append_assoc, singleton_append] at hall
  simp only [sha1Final, h.finalcount hlen]
  generalize sha1Update big _ (beBytesOf 8 (8 * m.length)) = ctx' at *
  have hdigest : ((range 20).map fun i => beByte
      ([ctx'.state.a, ctx'.state.b, ctx'.state.c, ctx'.state.d, ctx'.state.e].getD (i / 4) 0) i) =
        ctx'.state.bytes := by
    simp only [Sha1Words.bytes, storeWords, flatMap_cons, flatMap_nil, storeWord_beByte]
    rfl
  constructor
  · rw [length_splice (by rw [length_map, length_range, hall.length]; decide), hall.length]
  · rw [hdigest, digestOf, padded, hall.state]

end Sha1Context.Rep

/-- **SHA-1 depends only on the message**: for every way of cutting it into updates, the digest is the fold of the block
transform over the padded message. -/
theorem sha1_computes (big : Bool) : (sha1 big).Computes (·.buffer.length = 64) (·.length < 536870912)
    (digestOf (sha1Transform big) sha1Init (beBytesOf 8) Sha1Words.bytes) :=
  Hash.computes_of_rep (fun m ctx => ctx.Rep big m) (fun hs => ⟨.empty hs, rfl, fun _ => rfl⟩) (fun h _ => h.update _)
    (fun h hv => h.final hv) length_lt_of_append fun _ => length_storeWords ..

end Bertos
