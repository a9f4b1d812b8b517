import Bertos.Sec.Hash

/-!
# MD5 (`sec/hash/md5.c`)

The context has the four words of the state, a buffer of 64 bytes and the number of bits. The words of the buffer are
put into little-endian order in place (`byteReverse`) before they are transformed; the bit count is stored as two words
of the machine after that. `Md5Context.Rep` says that a context stands for the message so far; the main result is
`md5_computes`.
-/

namespace Bertos

open Blocks List

/-! ## The transform -/

/-- The words `a`, `b`, `c`, `d`. -/
structure Md5Words where
  a : UInt32
  b : UInt32
  c : UInt32
  d : UInt32

namespace Md5Words

def f1 (x y z : UInt32) : UInt32 := z ^^^ (x &&& (y ^^^ z))

def f2 (x y z : UInt32) : UInt32 := f1 z x y

def f3 (x y z : UInt32) : UInt32 := x ^^^ y ^^^ z

def f4 (x y z : UInt32) : UInt32 := y ^^^ (x ||| ~~~z)

/-- `MD5STEP` on the first word. The next step has the words in the order `d`, `a`, `b`, `c`. -/
def step (f : UInt32 → UInt32 → UInt32 → UInt32) (data s : UInt32) (x : Md5Words) : Md5Words :=
  let w := x.a + (f x.b x.c x.d + data)
  let w := w <<< s ||| w >>> (32 - s)
  ⟨x.d, w + x.b, x.b, x.c⟩

/-- The steps of a round: the word of the block, the constant and the shift of each. -/
def round (f : UInt32 → UInt32 → UInt32 → UInt32) (inp : List UInt32) (steps : List (ℕ × UInt32 × UInt32))
    (x : Md5Words) : Md5Words :=
  steps.foldl (fun x r => x.step f (inp.getD r.1 0 + r.2.1) r.2.2) x

end Md5Words

def md5Round1 : List (ℕ × UInt32 × UInt32) :=
  [(0, 0xd76aa478, 7), (1, 0xe8c7b756, 12), (2, 0x242070db, 17), (3, 0xc1bdceee, 22),
   (4, 0xf57c0faf, 7), (5, 0x4787c62a, 12), (6, 0xa8304613, 17), (7, 0xfd469501, 22),
   (8, 0x698098d8, 7), (9, 0x8b44f7af, 12), (10, 0xffff5bb1, 17), (11, 0x895cd7be, 22),
   (12, 0x6b901122, 7), (13, 0xfd987193, 12), (14, 0xa679438e, 17), (15, 0x49b40821, 22)]

def md5Round2 : List (ℕ × UInt32 × UInt32) :=
  [(1, 0xf61e2562, 5), (6, 0xc040b340, 9), (11, 0x265e5a51, 14), (0, 0xe9b6c7aa, 20),
   (5, 0xd62f105d, 5), (10, 0x02441453, 9), (15, 0xd8a1e681, 14), (4, 0xe7d3fbc8, 20),
   (9, 0x21e1cde6, 5), (14, 0xc33707d6, 9), (3, 0xf4d50d87, 14), (8, 0x455a14ed, 20),
   (13, 0xa9e3e905, 5), (2, 0xfcefa3f8, 9), (7, 0x676f02d9, 14), (12, 0x8d2a4c8a, 20)]

def md5Round3 : List (ℕ × UInt32 × UInt32) :=
  [(5, 0xfffa3942, 4), (8, 0x8771f681, 11), (11, 0x6d9d6122, 16), (14, 0xfde5380c, 23),
   (1, 0xa4beea44, 4), (4, 0x4bdecfa9, 11), (7, 0xf6bb4b60, 16), (10, 0xbebfbc70, 23),
   (13, 0x289b7ec6, 4), (0, 0xeaa127fa, 11), (3, 0xd4ef3085, 16), (6, 0x04881d05, 23),
   (9, 0xd9d4d039, 4), (12, 0xe6db99e5, 11), (15, 0x1fa27cf8, 16), (2, 0xc4ac5665, 23)]

def md5Round4 : List (ℕ × UInt32 × UInt32) :=
  [(0, 0xf4292244, 6), (7, 0x432aff97, 10), (14, 0xab9423a7, 15), (5, 0xfc93a039, 21),
   (12, 0x655b59c3, 6), (3, 0x8f0ccc92, 10), (10, 0xffeff47d, 15), (1, 0x85845dd1, 21),
   (8, 0x6fa87e4f, 6), (15, 0xfe2ce6e0, 10), (6, 0xa3014314, 15), (13, 0x4e0811a1, 21),
   (4, 0xf7537e82, 6), (11, 0xbd3af235, 10), (2, 0x2ad7d2bb, 15), (9, 0xeb86d391, 21)]

/-- `MD5Transform` -/
@[irreducible] def md5Transform (buf : Md5Words) (inp : List UInt32) : Md5Words :=
  let x := buf.round Md5Words.f1 inp md5Round1
  let x := x.round Md5Words.f2 inp md5Round2
  let x := x.round Md5Words.f3 inp md5Round3
  let x := x.round Md5Words.f4 inp md5Round4
  ⟨buf.a + x.a, buf.b + x.b, buf.c + x.c, buf.d + x.d⟩

/-! ## The context -/

/-- `byteReverse` on the first `longs` words of a piece of memory. -/
def byteReverse (big : Bool) (mem : List UInt8) (longs : ℕ) : List UInt8 :=
  storeWords big ((loadWords big (mem.take (4 * longs))).map (le32ToCpu big)) ++ mem.drop (4 * longs)

/-- `MD5_Context` -/
structure Md5Context where
  buf : Md5Words
  inp : List UInt8
  bits : UInt64

def md5Init : Md5Words := ⟨0x67452301, 0xefcdab89, 0x98badcfe, 0x10325476⟩

section Functions

variable (big : Bool)

/-- `MD5_begin` -/
def md5Begin (ctx : Md5Context) : Md5Context := { ctx with buf := md5Init, bits := 0 }

/-- `byteReverse(aligned_ptr, 16); MD5Transform(ctx->buf, aligned_ptr);` on the state and the buffer. -/
def md5Full (s : Md5Words × List UInt8) : Md5Words × List UInt8 :=
  let inp := byteReverse big s.2 16
  (md5Transform s.1 (loadWords big inp), inp)

/-- Process data in 64-byte chunks, then handle any remaining bytes. -/
def md5Loop (s : Md5Words × List UInt8) (buf : List UInt8) : Md5Words × List UInt8 :=
  if 64 ≤ buf.length then md5Loop (md5Full big (s.1, splice s.2 0 (buf.take 64))) (buf.drop 64)
  else (s.1, splice s.2 0 buf)
termination_by buf.length
decreasing_by
  rw [List.length_drop]
  omega

/-- `MD5_update` -/
def md5Update (ctx : Md5Context) (buf : List UInt8) : Md5Context :=
  let t := (ctx.bits >>> 3 &&& 0x3f).toNat
  let s :=
    if t ≠ 0 then
      if buf.length < 64 - t then (ctx.buf, splice ctx.inp t buf)
      else md5Loop big (md5Full big (ctx.buf, splice ctx.inp t (buf.take (64 - t)))) (buf.drop (64 - t))
    else md5Loop big (ctx.buf, ctx.inp) buf
  ⟨s.1, s.2, ctx.bits + (UInt32.ofNat (buf.length * 8)).toUInt64⟩

/-- `MD5_final` -/
def md5Final (ctx : Md5Context) : Md5Context × List UInt8 :=
  let count := (ctx.bits >>> 3 &&& 0x3f).toNat
  let inp := splice ctx.inp count [0x80]
  let p := count + 1
  let count := 64 - 1 - count
  let s :=
    if count < 8 then
      let s := md5Full big (ctx.buf, splice inp p (List.replicate count 0))
      (s.1, splice s.2 0 (List.replicate 56 0))
    else (ctx.buf, splice inp p (List.replicate (count - 8) 0))
  let inp := byteReverse big s.2 14
  let inp := splice inp 56 (storeWord big ctx.bits.toUInt32)
  let inp := splice inp 60 (storeWord big (ctx.bits >>> 32).toUInt32)
  let buf := md5Transform s.1 (loadWords big inp)
  (⟨buf, List.replicate 64 0, 0⟩, byteReverse big (storeWords big [buf.a, buf.b, buf.c, buf.d]) 4)

/-- The hash that `MD5_init` sets up. -/
def md5 : Hash Md5Context where
  begin := md5Begin
  update := md5Update big
  final := md5Final big
  digestLen := 16
  blockLen := 64

end Functions

/-! ## The block transform -/

def md5Block (h : Md5Words) (b : List UInt8) : Md5Words := md5Transform h (loadWords false b)

/-- The bytes of the state, in little-endian order. -/
def Md5Words.bytes (x : Md5Words) : List UInt8 := storeWords false [x.a, x.b, x.c, x.d]

section Words

variable (big : Bool)

theorem byteReverse_whole {mem : List UInt8} (longs : ℕ) (h : mem.length = 4 * longs) :
    byteReverse big mem longs = storeWords big (loadWords false mem) := by
  rw [byteReverse, take_of_length_le (by omega), drop_of_length_le (by omega), map_le32ToCpu_loadWords,
    append_nil]

theorem length_byteReverse {mem : List UInt8} (longs : ℕ) (h : 4 * longs ≤ mem.length) :
    (byteReverse big mem longs).length = mem.length := by
  have htake : (mem.take (4 * longs)).length = 4 * longs := by rw [length_take, Nat.min_eq_left h]
  rw [byteReverse, length_append, length_storeWords, length_map, length_loadWords big longs _ htake,
    length_drop]
  omega

/-- The words that are transformed are the little-endian words of the buffer. -/
theorem md5Full_eq (buf : Md5Words) {inp : List UInt8} (h : inp.length = 64) :
    (md5Full big (buf, inp)).1 = md5Block buf inp ∧ (md5Full big (buf, inp)).2.length = 64 := by
  constructor
  · show md5Transform buf (loadWords big (byteReverse big inp 16)) = md5Transform buf _
    rw [byteReverse_whole big 16 h, loadWords_storeWords]
  · show (byteReverse big inp 16).length = 64
    rw [length_byteReverse big 16 (by omega), h]

end Words

/-! ## Contexts and messages -/

section Update

variable (big : Bool) {m d : List UInt8} {buf : Md5Words} {inp : List UInt8}

theorem md5Full_absorbed (ha : Absorbed md5Block md5Init m buf inp) (hd : m.length % 64 + d.length = 64) :
    Absorbed md5Block md5Init (m ++ d) (md5Full big (buf, splice inp (m.length % 64) d)).1
      (md5Full big (buf, splice inp (m.length % 64) d)).2 := by
  have hfits : m.length % 64 + d.length = inp.length := by rw [hd, ha.length]
  have hlen : (splice inp (m.length % 64) d).length = 64 := by
    rw [length_splice (Nat.le_of_eq hfits), ha.length]
  obtain ⟨hbuf, hinp⟩ := md5Full_eq big buf hlen
  rw [hbuf, splice_end hfits]
  rw [splice_end hfits] at hinp
  exact ha.block hd _ hinp

theorem md5Loop_absorbed (ha : Absorbed md5Block md5Init m buf inp) (hm : m.length % 64 = 0) :
    Absorbed md5Block md5Init (m ++ d) (md5Loop big (buf, inp) d).1 (md5Loop big (buf, inp) d).2 := by
  generalize hs : (buf, inp) = s
  fun_induction md5Loop big s d generalizing m buf inp with
  | case1 s d hlen ih =>
    subst hs
    have htake : (d.take 64).length = 64 := by rw [length_take, Nat.min_eq_left hlen]
    have hfull := md5Full_absorbed big ha (d := d.take 64) (by omega)
    rw [hm] at hfull
    have hrest := ih hfull (by rw [length_append]; omega) rfl
    rwa [append_assoc, take_append_drop] at hrest
  | case2 s d hlen =>
    subst hs
    have hfill := ha.fill (d := d) (by omega)
    rwa [hm] at hfill

end Update

/-- The context stands for the message. -/
structure Md5Context.Rep (m : List UInt8) (ctx : Md5Context) : Prop where
  absorbed : Absorbed md5Block md5Init m ctx.buf ctx.inp
  bits : ctx.bits.toNat = 8 * m.length

section Rep

variable (big : Bool) {m d : List UInt8} {ctx : Md5Context}

theorem Md5Context.Rep.count (h : ctx.Rep m) : (ctx.bits >>> 3 &&& 0x3f).toNat = m.length % 64 := by
  have hshift : (ctx.bits >>> 3).toNat = m.length := by
    have hdiv : (8 * m.length) >>> 3 = m.length := by omega
    rw [UInt64.toNat_shiftRight, h.bits]
    exact hdiv
  rw [UInt64.toNat_and, hshift]
  exact Nat.and_two_pow_sub_one_eq_mod m.length 6

/-- An update appends its data. -/
theorem Md5Context.Rep.update (h : ctx.Rep m) (hlen : (m ++ d).length < 536870912) :
    (md5Update big ctx d).Rep (m ++ d) := by
  have ha := h.absorbed
  rw [length_append] at hlen
  constructor
  · simp only [md5Update, h.count]
    split
    · split
      · exact ha.fill (by omega)
      · have htake : (d.take (64 - m.length % 64)).length = 64 - m.length % 64 := by
          rw [length_take, Nat.min_eq_left (by omega)]
        have hfull := md5Full_absorbed big ha (d := d.take (64 - m.length % 64)) (by omega)
        have hloop := md5Loop_absorbed big hfull (d := d.drop (64 - m.length % 64))
          (by rw [length_append, htake]; omega)
        rwa [append_assoc, take_append_drop] at hloop
    · rename_i hzero
      exact md5Loop_absorbed big ha (by omega)
  · have hbits : (UInt32.ofNat (d.length * 8)).toUInt64.toNat = d.length * 8 := by
      rw [UInt32.toNat_toUInt64, UInt32.toNat_ofNat']
      omega
    show (ctx.bits + (UInt32.ofNat (d.length * 8)).toUInt64).toNat = _
    rw [UInt64.toNat_add, h.bits, hbits, length_append]
    omega

/-! ## The digest -/

/-- The last block: the bit count is stored behind 56 bytes that are in little-endian order. -/
theorem loadWords_count {inp : List UInt8} (h : inp.length = 64) (x : UInt64) :
    loadWords big (splice (splice (byteReverse big inp 14) 56 (storeWord big x.toUInt32)) 60
      (storeWord big (x >>> 32).toUInt32)) = loadWords false (inp.take 56 ++ leBytesOf 8 x.toNat) := by
  have htake : (inp.take 56).length = 56 := by rw [length_take, h]; rfl
  have htwo : ∀ b, storeWords b [x.toUInt32, (x >>> 32).toUInt32] =
      storeWord b x.toUInt32 ++ storeWord b (x >>> 32).toUInt32 := fun b => by
    rw [storeWords_cons, storeWords_cons]
    exact congrArg _ (append_nil _)
  have hws : (storeWords big (loadWords false (inp.take 56))).length = 56 := by
    rw [length_storeWords, length_loadWords false 14 _ htake]
  have hrev : (byteReverse big inp 14).take 56 = storeWords big (loadWords false (inp.take 56)) := by
    rw [byteReverse, map_le32ToCpu_loadWords]
    exact take_left' hws
  rw [splice_words (by rw [length_byteReverse big 14 (by omega), h]), hrev, ← htwo, loadWords_storeWords_append,
    loadWords_storeWords, loadWords_append false 14 _ _ htake, ← storeWord_double, ← htwo, loadWords_storeWords]

/-- **The digest of MD5**: `final` pads the message, in one block or in two. -/
theorem Md5Context.Rep.final (h : ctx.Rep m) :
    (md5Final big ctx).2 = digestOf md5Block md5Init (leBytesOf 8) Md5Words.bytes m := by
  have ha := h.absorbed
  have hr : m.length % 64 < 64 := Nat.mod_lt _ (by decide)
  -- the bytes of the state are put into little-endian order
  have hbytes : ∀ x : Md5Words, byteReverse big (storeWords big [x.a, x.b, x.c, x.d]) 4 = x.bytes := by
    intro x
    have hlen : (storeWords big [x.a, x.b, x.c, x.d]).length = 16 := length_storeWords big _
    rw [byteReverse, take_of_length_le (by omega), drop_of_length_le (by omega), loadWords_storeWords,
      storeWords_map_le32ToCpu, append_nil]
    rfl
  have hmark : ∀ zeros : List UInt8, splice (splice ctx.inp (m.length % 64) [0x80]) (m.length % 64 + 1) zeros =
      splice ctx.inp (m.length % 64) (0x80 :: zeros) :=
    splice_splice (by rw [ha.length]; omega)
  simp only [md5Final, h.count, hbytes, digestOf, hmark]
  congr 1
  by_cases hfew : 64 - 1 - m.length % 64 < 8
  · -- the first block is filled up with zeros, the second one has 56 of them
    have hfits : m.length % 64 + ((0x80 : UInt8) :: replicate (64 - 1 - m.length % 64) 0).length =
        ctx.inp.length := by
      rw [length_cons, length_replicate, ha.length]
      omega
    obtain ⟨hstate, hlen⟩ := md5Full_eq big ctx.buf (by rw [length_splice (Nat.le_of_eq hfits), ha.length])
    have htake : ∀ inp : List UInt8, (splice inp 0 (replicate 56 0)).take 56 = replicate 56 0 :=
      fun inp => by rw [splice_zero, take_left' length_replicate]
    rw [if_pos hfew, loadWords_count big (by rw [length_splice (by rw [hlen, length_replicate]; decide), hlen]),
      htake, h.bits, hstate, splice_end hfits, ha.padded_two (length_leBytesOf 8) (by omega)]
    rfl
  · have hpad : m.length % 64 + ((0x80 : UInt8) :: replicate (64 - 1 - m.length % 64 - 8) 0).length = 56 := by
      rw [length_cons, length_replicate]
      omega
    have hinp := take_splice (d := 0x80 :: replicate (64 - 1 - m.length % 64 - 8) 0)
      (show m.length % 64 ≤ ctx.inp.length by rw [ha.length]; omega)
    rw [hpad] at hinp
    rw [if_neg hfew, loadWords_count big (by rw [length_splice (by rw [hpad, ha.length]; decide), ha.length]), hinp,
      h.bits, ha.padded_one (length_leBytesOf 8) (by omega),
      show 64 - 1 - m.length % 64 - 8 = 55 - m.length % 64 by omega]
    rfl

end Rep

/-- **MD5 depends only on the message**: for every way of cutting it into updates, the digest is the fold of the block
transform over the padded message. -/
theorem md5_computes (big : Bool) : (md5 big).Computes (·.inp.length = 64) (·.length < 536870912)
    (digestOf md5Block md5Init (leBytesOf 8) Md5Words.bytes) :=
  Hash.computes_of_rep (fun m ctx => ctx.Rep m) (fun hs => ⟨.empty hs, rfl⟩) (fun h hv => h.update big hv)
    (fun h _ => ⟨length_replicate, h.final big⟩) length_lt_of_append fun _ => length_storeWords ..

end Bertos
