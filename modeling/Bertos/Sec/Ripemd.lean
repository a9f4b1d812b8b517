import Bertos.Sec.Hash

/-!
# RIPEMD-160 (`sec/hash/ripemd.c`)

The context has the five words of the state, the number of bits, a buffer of 64 bytes and the number of bytes in it. The
buffer is cleared by each compression, so the bytes behind the message are always zeros: `final` only writes the mark
and the count. `RipemdContext.Rep` keeps this beside the message; the main result is `ripemd_computes`.
-/

namespace Bertos

open Blocks List

/-! ## The compression function -/

/-- The words `A`, `B`, `C`, `D`, `E` of a line. -/
structure RipemdWords where
  a : UInt32
  b : UInt32
  c : UInt32
  d : UInt32
  e : UInt32

namespace RipemdWords

def f1 (x y z : UInt32) : UInt32 := x ^^^ y ^^^ z

def f2 (x y z : UInt32) : UInt32 := (x &&& y) ||| (~~~x &&& z)

def f3 (x y z : UInt32) : UInt32 := (x ||| ~~~y) ^^^ z

def f4 (x y z : UInt32) : UInt32 := (x &&& z) ||| (y &&& ~~~z)

def f5 (x y z : UInt32) : UInt32 := x ^^^ (y ||| ~~~z)

/-- One round of a line: the message words in the order `r`, with the shifts `s`. -/
def round (f : UInt32 → UInt32 → UInt32 → UInt32) (k : UInt32) (w : List UInt32) (r : List ℕ) (s : List UInt32)
    (x : RipemdWords) : RipemdWords :=
  (r.zip s).foldl (fun x i => ⟨x.e, rotl32 (x.a + f x.b x.c x.d + w.getD i.1 0 + k) i.2 + x.e, x.b, rotl32 x.c 10, x.d⟩)
    x

end RipemdWords

def ripemdRL : List (List ℕ) :=
  [[0, 1, 2, 3, 4, 5, 6, 7, 8, 9, 10, 11, 12, 13, 14, 15],
   [7, 4, 13, 1, 10, 6, 15, 3, 12, 0, 9, 5, 2, 14, 11, 8],
   [3, 10, 14, 4, 9, 15, 8, 1, 2, 7, 0, 6, 13, 11, 5, 12],
   [1, 9, 11, 10, 0, 8, 12, 4, 13, 3, 7, 15, 14, 5, 6, 2],
   [4, 0, 5, 9, 7, 12, 2, 10, 14, 1, 3, 8, 11, 6, 15, 13]]

def ripemdRR : List (List ℕ) :=
  [[5, 14, 7, 0, 9, 2, 11, 4, 13, 6, 15, 8, 1, 10, 3, 12],
   [6, 11, 3, 7, 0, 13, 5, 10, 14, 15, 8, 12, 4, 9, 1, 2],
   [15, 5, 1, 3, 7, 14, 6, 9, 11, 8, 12, 2, 10, 0, 4, 13],
   [8, 6, 4, 1, 3, 11, 15, 0, 5, 12, 2, 13, 9, 7, 10, 14],
   [12, 15, 10, 4, 1, 5, 8, 7, 6, 2, 13, 14, 0, 3, 9, 11]]

def ripemdSL : List (List UInt32) :=
  [[11, 14, 15, 12, 5, 8, 7, 9, 11, 13, 14, 15, 6, 7, 9, 8],
   [7, 6, 8, 13, 11, 9, 7, 15, 7, 12, 15, 9, 11, 7, 13, 12],
   [11, 13, 6, 7, 14, 9, 13, 15, 14, 8, 13, 6, 5, 12, 7, 5],
   [11, 12, 14, 15, 14, 15, 9, 8, 9, 14, 5, 6, 8, 6, 5, 12],
   [9, 15, 5, 11, 6, 8, 13, 12, 5, 12, 13, 14, 11, 8, 5, 6]]

def ripemdSR : List (List UInt32) :=
  [[8, 9, 9, 11, 13, 15, 15, 5, 7, 7, 8, 11, 14, 14, 12, 6],
   [9, 13, 15, 7, 12, 8, 9, 11, 7, 7, 12, 7, 6, 15, 13, 11],
   [9, 7, 15, 11, 8, 6, 6, 14, 12, 13, 5, 14, 13, 13, 7, 5],
   [15, 5, 8, 11, 14, 14, 6, 14, 6, 9, 12, 9, 12, 5, 15, 8],
   [8, 5, 12, 9, 12, 5, 14, 6, 8, 13, 6, 5, 15, 13, 11, 11]]

def ripemdKL : List UInt32 := [0x00000000, 0x5A827999, 0x6ED9EBA1, 0x8F1BBCDC, 0xA953FD4E]

def ripemdKR : List UInt32 := [0x50A28BE6, 0x5C4DD124, 0x6D703EF3, 0x7A6D76E9, 0x00000000]

/-- The rounds of a line, with their functions. -/
def ripemdLine (fs : List (UInt32 → UInt32 → UInt32 → UInt32)) (k : List UInt32) (r : List (List ℕ))
    (s : List (List UInt32)) (w : List UInt32) (x : RipemdWords) : RipemdWords :=
  (List.range 5).foldl
    (fun x i => x.round (fs.getD i RipemdWords.f1) (k.getD i 0) w (r.getD i []) (s.getD i [])) x

open RipemdWords in
/-- `ripemd160_compress` on the state and the buffer. -/
@[irreducible] def ripemdCompress (big : Bool) (h : RipemdWords) (buf : List UInt8) : RipemdWords :=
  let w := (loadWords big buf).map (le32ToCpu big)
  let l := ripemdLine [f1, f2, f3, f4, f5] ripemdKL ripemdRL ripemdSL w h
  let r := ripemdLine [f5, f4, f3, f2, f1] ripemdKR ripemdRR ripemdSR w h
  ⟨h.b + l.c + r.d, h.c + l.d + r.e, h.d + l.e + r.a, h.e + l.a + r.b, h.a + l.b + r.c⟩

/-! ## The context -/

/-- `RIPEMD_Context` -/
structure RipemdContext where
  h : RipemdWords
  length : UInt64
  buf : List UInt8
  bufpos : ℕ

/-- `initial_h` -/
def ripemdInit : RipemdWords := ⟨0x67452301, 0xEFCDAB89, 0x98BADCFE, 0x10325476, 0xC3D2E1F0⟩

section Functions

variable (big : Bool)

/-- `ripemd160_init` -/
def ripemdBegin (_ : RipemdContext) : RipemdContext := ⟨ripemdInit, 0, List.replicate 64 0, 0⟩

/-- `ripemd160_update`. The number of bytes in the buffer is asserted to be below 64. -/
def ripemdUpdate (ctx : RipemdContext) (data : List UInt8) : RipemdContext :=
  if data.length > 0 then
    if data.length ≥ 64 - ctx.bufpos then
      ripemdUpdate ⟨ripemdCompress big ctx.h (splice ctx.buf ctx.bufpos (data.take (64 - ctx.bufpos))),
        ctx.length + UInt64.ofNat (8 * (64 - ctx.bufpos)), List.replicate 64 0, 0⟩ (data.drop (64 - ctx.bufpos))
    else ⟨ctx.h, ctx.length + UInt64.ofNat (8 * data.length), splice ctx.buf ctx.bufpos data, ctx.bufpos + data.length⟩
  else ctx
termination_by (data.length, ctx.bufpos)
decreasing_by
  rw [List.length_drop]
  by_cases hpos : ctx.bufpos < 64
  · exact Prod.Lex.left _ _ (by omega)
  · rw [Nat.sub_eq_zero_of_le (Nat.le_of_not_lt hpos)]
    exact Prod.Lex.right _ (by omega)

/-- `byteswap_digest(self->h)` swaps sixteen words: those of the state, the length behind them and
zeros of the buffer. -/
def swappedLength (big : Bool) (length : UInt64) : UInt64 :=
  (le32ToCpu big length.toUInt32).toUInt64 ||| (le32ToCpu big (length >>> 32).toUInt32).toUInt64 <<< 32

/-- `ripemd160_digest` -/
def ripemdFinal (ctx : RipemdContext) : RipemdContext × List UInt8 :=
  let buf := splice ctx.buf ctx.bufpos [0x80]
  let s := if ctx.bufpos + 1 > 56 then (ripemdCompress big ctx.h buf, List.replicate 64 0) else (ctx.h, buf)
  let buf := splice s.2 56 (storeWord big (le32ToCpu big ctx.length.toUInt32))
  let buf := splice buf 60 (storeWord big (le32ToCpu big (ctx.length >>> 32).toUInt32))
  let h := ripemdCompress big s.1 buf
  let words := [h.a, h.b, h.c, h.d, h.e].map (le32ToCpu big)
  (⟨⟨words.getD 0 0, words.getD 1 0, words.getD 2 0, words.getD 3 0, words.getD 4 0⟩, swappedLength big ctx.length,
    List.replicate 64 0, 0⟩, storeWords big words)

/-- The hash that `RIPEMD_init` sets up. -/
def ripemd : Hash RipemdContext where
  begin := ripemdBegin
  update := ripemdUpdate big
  final := ripemdFinal big
  digestLen := 20
  blockLen := 64

end Functions

/-- The bytes of the state, in little-endian order. -/
def RipemdWords.bytes (x : RipemdWords) : List UInt8 := storeWords false [x.a, x.b, x.c, x.d, x.e]

/-! ## Contexts and messages -/

/-- The context stands for the message, and the rest of its buffer is clear. -/
structure RipemdContext.Rep (big : Bool) (m : List UInt8) (ctx : RipemdContext) : Prop where
  absorbed : Absorbed (ripemdCompress big) ripemdInit m ctx.h ctx.buf
  clear : ctx.buf.drop (m.length % 64) = List.replicate (64 - m.length % 64) 0
  bufpos : ctx.bufpos = m.length % 64
  bits : ctx.length = UInt64.ofNat (8 * m.length)

namespace RipemdContext.Rep

variable {big : Bool} {m d : List UInt8} {ctx : RipemdContext}

theorem update (h : ctx.Rep big m) : (ripemdUpdate big ctx d).Rep big (m ++ d) := by
  fun_induction ripemdUpdate big ctx d generalizing m with
  | case1 ctx d hd hfull ih =>
    have ha := h.absorbed
    have hpos := h.bufpos
    generalize hneed : 64 - ctx.bufpos = needed at hfull ih ⊢
    have htake : (d.take needed).length = needed := by rw [length_take, Nat.min_eq_left hfull]
    have hfits : m.length % 64 + (d.take needed).length = 64 := by omega
    have hblock := ha.block hfits (replicate 64 0) length_replicate
    rw [← splice_end (by rw [ha.length, hfits]), ← h.bufpos] at hblock
    have hmod : (m ++ d.take needed).length % 64 = 0 := by rw [length_append]; omega
    have hbits : ctx.length + UInt64.ofNat (8 * needed) = UInt64.ofNat (8 * (m ++ d.take needed).length) := by
      rw [h.bits, length_append, htake, Nat.mul_add, UInt64.ofNat_add]
    have hrest := ih ⟨hblock, by rw [hmod]; rfl, hmod.symm, hbits⟩
    rwa [append_assoc, take_append_drop] at hrest
  | case2 ctx d hd hfull =>
    have ha := h.absorbed
    have hpos := h.bufpos
    have hmod : (m ++ d).length % 64 = m.length % 64 + d.length := by rw [length_append]; omega
    have hfill := ha.fill (d := d) (by omega)
    rw [← h.bufpos] at hfill
    refine ⟨hfill, ?_, ?_, ?_⟩
    · rw [hmod, h.bufpos, drop_splice (by rw [ha.length]; omega), ← drop_drop, h.clear, drop_replicate,
        Nat.sub_sub]
    · rw [hmod, h.bufpos]
    · rw [h.bits, length_append, Nat.mul_add, UInt64.ofNat_add]
  | case3 ctx d hd =>
    rw [length_eq_zero_iff.mp (Nat.eq_zero_of_not_pos hd), append_nil]
    exact h

/-! ## The digest -/

theorem splice_count {buf : List UInt8} (hbuf : buf.length = 64) (x : UInt64) :
    splice (splice buf 56 (storeWord big (le32ToCpu big x.toUInt32))) 60
      (storeWord big (le32ToCpu big (x >>> 32).toUInt32)) = buf.take 56 ++ leBytesOf 8 x.toNat := by
  rw [splice_words hbuf, storeWord_le32ToCpu, storeWord_le32ToCpu, storeWord_double]

/-- **The digest of RIPEMD-160**: `final` writes the mark and the count among the zeros, in one block or in two. -/
theorem final (h : ctx.Rep big m) (hlen : m.length < 536870912) :
    (ripemdFinal big ctx).2 = digestOf (ripemdCompress big) ripemdInit (leBytesOf 8) RipemdWords.bytes m := by
  have ha := h.absorbed
  have hr : m.length % 64 < 64 := Nat.mod_lt _ (by decide)
  have hbits : ctx.length.toNat = 8 * m.length := by
    rw [h.bits, UInt64.toNat_ofNat']
    exact Nat.mod_eq_of_lt (by omega)
  -- the buffer with the mark
  have hmark : splice ctx.buf ctx.bufpos [0x80] =
      ctx.buf.take (m.length % 64) ++ 0x80 :: replicate (63 - m.length % 64) 0 := by
    rw [h.bufpos, splice, length_singleton, ← drop_drop, h.clear, drop_replicate, append_assoc,
      Nat.sub_sub, Nat.add_comm, ← Nat.sub_sub]
    rfl
  have hwords : ∀ x : RipemdWords, storeWords big ([x.a, x.b, x.c, x.d, x.e].map (le32ToCpu big)) = x.bytes :=
    fun x => storeWords_map_le32ToCpu big _
  simp only [ripemdFinal, hwords, digestOf]
  congr 1
  by_cases hfew : ctx.bufpos + 1 > 56
  · rw [ha.padded_two (length_leBytesOf 8) (by rw [← h.bufpos]; omega), if_pos hfew,
      splice_count length_replicate, hbits, take_replicate, hmark]
    rfl
  · rw [h.bufpos] at hfew
    have hbuf : (splice ctx.buf ctx.bufpos [0x80]).length = 64 := by
      rw [length_splice (by rw [ha.length, h.bufpos]; exact hr), ha.length]
    have htake : (splice ctx.buf ctx.bufpos [0x80]).take 56 =
        ctx.buf.take (m.length % 64) ++ 0x80 :: replicate (55 - m.length % 64) 0 := by
      rw [hmark, show 63 - m.length % 64 = (55 - m.length % 64) + 8 by omega, replicate_add, ← cons_append,
        ← append_assoc, take_left']
      rw [length_append, ha.length_rest, length_cons, length_replicate]
      omega
    rw [ha.padded_one (length_leBytesOf 8) (by omega), if_neg (by rw [h.bufpos]; exact hfew), splice_count hbuf, hbits,
      htake]

end RipemdContext.Rep

/-- **RIPEMD-160 depends only on the message**: for every way of cutting it into updates, the digest is the fold of the
compression function over the padded message. -/
theorem ripemd_computes (big : Bool) : (ripemd big).Computes (fun _ => True) (·.length < 536870912)
    (digestOf (ripemdCompress big) ripemdInit (leBytesOf 8) RipemdWords.bytes) :=
  Hash.computes_of_rep (fun m ctx => ctx.Rep big m) (fun _ => ⟨.empty length_replicate, rfl, rfl, rfl⟩)
    (fun h _ => h.update) (fun h hv => ⟨trivial, h.final hv⟩) length_lt_of_append fun _ => length_storeWords ..

end Bertos
