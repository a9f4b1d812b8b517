import Bertos.Lib.Blocks
import Bertos.Lib.Gf2
import Bertos.Sec.Cipher
import Bertos.Sec.Mac

/-!
# OMAC (`sec/mac/omac.c`)

The message goes through the cipher in CBC mode, block by block, but its last block is held back until `final`, which
XORs it with a sub-key. The sub-keys come from the encryption `L` of the zero block, by shifts in place, which multiply
by `u` and divide by it (`elem_omacShiftLeft`, `elem_omacShiftRight`). `omacOf` is the tag as it is specified, in terms
of the field; the sub-key of an incomplete block is `L * v`. The main result is `omac_specified`.
-/

namespace Bertos

open Blocks

variable {σ : Type*}

/-! ## The shifts -/

/-- `for (i = 0; i < len - 1; ++i) L[i] = (L[i] << 1) | (L[i + 1] >> 7); L[i] <<= 1;` -/
def shiftLeftBytes : List UInt8 → List UInt8
  | [] => []
  | [x] => [x <<< 1]
  | x :: y :: rest => (x <<< 1 ||| y >>> 7) :: shiftLeftBytes (y :: rest)

/-- `for (i = len - 1; i > 0; --i) L[i] = (L[i] >> 1) | (L[i - 1] << 7);` behind the byte `prev`. -/
def shiftRightBytes : UInt8 → List UInt8 → List UInt8
  | _, [] => []
  | prev, x :: rest => (x >>> 1 ||| prev <<< 7) :: shiftRightBytes x rest

/-- `L[len - 1] ^= k;` -/
def xorLast (L : List UInt8) (k : UInt8) : List UInt8 := L.set (L.length - 1) (L.getD (L.length - 1) 0 ^^^ k)

/-- `omac_shift_left`. Other lengths are an assertion failure. -/
def omacShiftLeft (L : List UInt8) : List UInt8 :=
  let firstbit := L.getD 0 0 >>> 7
  let S := shiftLeftBytes L
  if firstbit ≠ 0 then
    if L.length = 16 then xorLast S 0x87 else if L.length = 8 then xorLast S 0x1B else S
  else S

/-- `omac_shift_right` -/
def omacShiftRight (L : List UInt8) : List UInt8 :=
  let firstbit := L.getD (L.length - 1) 0 &&& 1
  let S := match L with
    | [] => []
    | x :: rest => (x >>> 1) :: shiftRightBytes x rest
  if firstbit ≠ 0 then
    let S := S.set 0 (S.getD 0 0 ||| 0x80)
    if L.length = 16 then xorLast S 0x43 else if L.length = 8 then xorLast S 0x0D else S
  else S

/-! ## The functions -/

/-- `OmacContext`: the cipher with the buffer `Y` it points to, the bytes that are held back and their number. -/
structure OmacContext (σ : Type*) where
  c : CipherBuf σ
  accum : List UInt8
  acc : ℕ

section Functions

variable (pl : Placing) (c : BlockCipher σ)

/-- `omac_set_key` -/
def omacSetKey (ctx : OmacContext σ) (key : List UInt8) : OmacContext σ :=
  { ctx with c := ⟨c.setKey ctx.c.ctx key, ctx.c.buf⟩ }

/-- `omac_begin` -/
def omacBegin (ctx : OmacContext σ) : OmacContext σ :=
  { ctx with c := ⟨ctx.c.ctx, List.replicate c.blockLen 0⟩, acc := 0 }

/-- `cipher_cbc_encrypt(ctx->c, ctx->accum);` -/
def omacCbc (ctx : OmacContext σ) : OmacContext σ :=
  let r := cipherCbcEncrypt pl c ctx.c (ctx.accum.take c.blockLen)
  ⟨r.1, splice ctx.accum 0 r.2, ctx.acc⟩

/-- A block that is full is put through the cipher. -/
def omacFlush (ctx : OmacContext σ) : OmacContext σ :=
  if ctx.acc = c.blockLen then { omacCbc pl c ctx with acc := 0 } else ctx

/-- `memcpy(ctx->accum + ctx->acc, data, L); ctx->acc += L;` -/
def omacCopy (ctx : OmacContext σ) (data : List UInt8) : OmacContext σ :=
  { ctx with accum := splice ctx.accum ctx.acc data, acc := ctx.acc + data.length }

/-- `omac_update`, by as many bytes as there is room for. The number of bytes held back is asserted to be at most a
block. -/
def omacUpdate (ctx : OmacContext σ) (data : List UInt8) : OmacContext σ :=
  if _h : 0 < data.length ∧ (omacFlush pl c ctx).acc < c.blockLen then
    omacUpdate (omacCopy (omacFlush pl c ctx) (data.take (c.blockLen - (omacFlush pl c ctx).acc)))
      (data.drop (c.blockLen - (omacFlush pl c ctx).acc))
  else ctx
termination_by data.length
decreasing_by
  rw [List.length_drop]
  omega

/-- `ctx->accum[ctx->acc++] = 0x80; memset(ctx->accum + ctx->acc, 0, blen - ctx->acc);` -/
def omacPad (ctx : OmacContext σ) : OmacContext σ :=
  { ctx with
    accum := splice (splice ctx.accum ctx.acc [0x80]) (ctx.acc + 1) (List.replicate (c.blockLen - (ctx.acc + 1)) 0)
    acc := ctx.acc + 1 }

/-- `xor_block(ctx->accum, ctx->accum, L, blen);` and the last encryption. -/
def omacClose (ctx : OmacContext σ) (L : List UInt8) : OmacContext σ × List UInt8 :=
  let ctx := omacCbc pl c { ctx with accum := splice ctx.accum 0 (xorBlock pl (ctx.accum.take c.blockLen) L) }
  (ctx, ctx.accum.take c.blockLen)

/-- `omac1_final` -/
def omac1Final (ctx : OmacContext σ) : OmacContext σ × List UInt8 :=
  let r := c.encBlock ctx.c.ctx (List.replicate c.blockLen 0)
  let ctx := { ctx with c := ⟨r.1, ctx.c.buf⟩ }
  let L := omacShiftLeft r.2
  if ctx.acc < c.blockLen then omacClose pl c (omacPad c ctx) (omacShiftLeft L) else omacClose pl c ctx L

/-- `omac2_final` -/
def omac2Final (ctx : OmacContext σ) : OmacContext σ × List UInt8 :=
  let r := c.encBlock ctx.c.ctx (List.replicate c.blockLen 0)
  let ctx := { ctx with c := ⟨r.1, ctx.c.buf⟩ }
  if ctx.acc < c.blockLen then omacClose pl c (omacPad c ctx) (omacShiftRight r.2)
  else omacClose pl c ctx (omacShiftLeft r.2)

/-- `omac_init`, with the function `final`. -/
def omac (final : OmacContext σ → OmacContext σ × List UInt8) : Mac (OmacContext σ) where
  setKey := omacSetKey c
  begin := omacBegin c
  update := omacUpdate pl c
  final := final
  digestLen := c.blockLen
  keyLen := c.keyLen

/-- `omac1_init` -/
def omac1 : Mac (OmacContext σ) := omac pl c (omac1Final pl c)

/-- `omac2_init` -/
def omac2 : Mac (OmacContext σ) := omac pl c (omac2Final pl c)

end Functions

/-! ## The specification -/

/-- The CBC-MAC of a message of whole blocks. -/
def cbcMac (E : List UInt8 → List UInt8) (B : ℕ) (msg : List UInt8) : List UInt8 :=
  (absorb (fun y b => E (xorBlock8 y b)) B (List.replicate B 0) msg).1

/-- The message with its last block XORed with a sub-key: `K₁` when it is complete, else `K₂` behind the padding
`10…0`. -/
def omacTag (E : List UInt8 → List UInt8) (B : ℕ) (K₁ K₂ msg : List UInt8) : List UInt8 :=
  let n := if msg ≠ [] ∧ msg.length % B = 0 then B else msg.length % B
  let last := msg.drop (msg.length - n)
  cbcMac E B (msg.take (msg.length - n) ++
    if n = B then xorBlock8 last K₁ else xorBlock8 (last ++ 0x80 :: List.replicate (B - (n + 1)) 0) K₂)

/-- The polynomial of the field, `x¹²⁸ + x⁷ + x² + x + 1` or `x⁶⁴ + x⁴ + x³ + x + 1`, without its first term. -/
def omacPoly (B : ℕ) : UInt8 := if B = 16 then 0x87 else 0x1B

/-- OMAC as it is specified: the sub-keys are `L * u` and `L * v`, where `L` is the encryption of the zero block. -/
noncomputable def omacOf (B : ℕ) (v : Gf2.Gf B (omacPoly B)) (E : List UInt8 → List UInt8) (msg : List UInt8) :
    List UInt8 :=
  let L := Gf2.elem B (omacPoly B) (E (List.replicate B 0))
  omacTag E B (Gf2.block B (omacPoly B) (L * Gf2.u B (omacPoly B))) (Gf2.block B (omacPoly B) (L * v)) msg

/-! ## The shifts in the field -/

section Shifts

open Polynomial Gf2 List

theorem length_shiftLeftBytes (L : List UInt8) : (shiftLeftBytes L).length = L.length := by
  fun_induction shiftLeftBytes L with
  | case1 => rfl
  | case2 x => rfl
  | case3 x y rest ih => rw [length_cons, ih, length_cons (a := x)]

theorem length_shiftRightBytes (prev : UInt8) (L : List UInt8) : (shiftRightBytes prev L).length = L.length := by
  induction L generalizing prev with
  | nil => rfl
  | cons x rest ih => rw [shiftRightBytes, length_cons, ih, length_cons]

theorem poly_shiftLeftBytes (x : UInt8) (rest : List UInt8) :
    poly (shiftLeftBytes (x :: rest)) + C (bit (bitAt x 7)) * X ^ (8 * (x :: rest).length) = X * poly (x :: rest) := by
  induction rest generalizing x with
  | nil =>
    have h := bytePoly_shl x 0
    have hzero : C (bit (bitAt 0 7)) = 0 := C_0
    rw [UInt8.zero_shiftRight, UInt8.or_zero, hzero] at h
    simp only [shiftLeftBytes, poly, length_nil, length_singleton]
    linear_combination h
  | cons y rest ih =>
    have h := bytePoly_shl x y
    rw [shiftLeftBytes, poly, poly, length_shiftLeftBytes, length_cons (a := x)]
    linear_combination X ^ (8 * (y :: rest).length) * h + ih y

theorem poly_shiftRightBytes (prev : UInt8) (L : List UInt8) :
    X * poly (shiftRightBytes prev L) + C (bit (bitAt ((prev :: L).getLast (cons_ne_nil _ _)) 0)) =
      poly L + C (bit (bitAt prev 0)) * X ^ (8 * L.length) := by
  induction L generalizing prev with
  | nil =>
    simp only [shiftRightBytes, poly, length_nil, getLast_singleton]
    ring
  | cons x rest ih =>
    have h := bytePoly_shr x prev
    rw [shiftRightBytes, poly, poly, length_shiftRightBytes, length_cons, getLast_cons (cons_ne_nil _ _)]
    linear_combination X ^ (8 * rest.length) * h + ih x

theorem length_xorLast (L : List UInt8) (k : UInt8) : (xorLast L k).length = L.length := length_set

theorem poly_xorLast {L : List UInt8} (hL : L ≠ []) (k : UInt8) : poly (xorLast L k) = poly L + bytePoly k := by
  obtain rfl | ⟨init, x, rfl⟩ := L.eq_nil_or_concat'
  · exact absurd rfl hL
  · have hset : xorLast (init ++ [x]) k = init ++ [x ^^^ k] := by simp [xorLast]
    rw [hset, poly_append, poly_append]
    simp only [poly, bytePoly_xor, length_nil, length_singleton]
    ring

theorem shiftRight_seven_ne_zero (x : UInt8) : x >>> 7 ≠ 0 ↔ bitAt x 7 = true := by
  have hx := x.toNat_lt
  have hbit : bitAt x 7 = x.toNat.testBit 7 := rfl
  rw [hbit, Nat.testBit_eq_decide_div_mod_eq, decide_eq_true_iff, Ne, ← UInt8.toNat_inj]
  show ¬ x.toNat >>> 7 = 0 ↔ x.toNat / 128 % 2 = 1
  omega

theorem and_one_ne_zero (x : UInt8) : x &&& 1 ≠ 0 ↔ bitAt x 0 = true := by
  have hbit : bitAt x 0 = x.toNat.testBit 0 := rfl
  rw [hbit, Nat.testBit_zero, decide_eq_true_iff, Ne, ← UInt8.toNat_inj]
  show ¬ x.toNat &&& 1 = 0 ↔ x.toNat % 2 = 1
  rw [Nat.and_one_is_mod]
  omega

theorem bit_true : C (bit true) = 1 := C_1

theorem bit_false : C (bit false) = 0 := C_0

variable {L : List UInt8} {B : ℕ}

theorem length_omacShiftLeft : (omacShiftLeft L).length = L.length := by
  simp only [omacShiftLeft]
  split_ifs <;> simp only [length_xorLast, length_shiftLeftBytes]

/-- **The left shift multiplies by `u`.** -/
theorem elem_omacShiftLeft (hB : B = 8 ∨ B = 16) (hL : L.length = B) :
    elem B (omacPoly B) (omacShiftLeft L) = elem B (omacPoly B) L * u B (omacPoly B) := by
  cases L with
  | nil => rcases hB with rfl | rfl <;> cases hL
  | cons x rest =>
    have hshift := poly_shiftLeftBytes x rest
    have hmul : elem B (omacPoly B) (x :: rest) * u B (omacPoly B) =
        AdjoinRoot.mk _ (poly (shiftLeftBytes (x :: rest)) + C (bit (bitAt x 7)) * X ^ (8 * B)) := by
      rw [← hL, hshift, map_mul, mul_comm]
      rfl
    have hconst : (if (x :: rest).length = 16 then xorLast (shiftLeftBytes (x :: rest)) 0x87
        else if (x :: rest).length = 8 then xorLast (shiftLeftBytes (x :: rest)) 0x1B
        else shiftLeftBytes (x :: rest)) = xorLast (shiftLeftBytes (x :: rest)) (omacPoly B) := by
      rcases hB with rfl | rfl
      · rw [hL]
        rfl
      · rw [hL]
        rfl
    rw [hmul, map_add, map_mul, mk_X_pow]
    simp only [omacShiftLeft, hconst, getD_cons_zero]
    by_cases hbit : bitAt x 7 = true
    · rw [if_pos ((shiftRight_seven_ne_zero x).mpr hbit), hbit, bit_true, map_one, one_mul, Gf2.elem,
        poly_xorLast (by rw [← length_pos_iff, length_shiftLeftBytes]; omega), map_add]
    · rw [if_neg (mt (shiftRight_seven_ne_zero x).mp hbit), Bool.eq_false_iff.mpr hbit, bit_false, map_zero, zero_mul,
        add_zero]
      rfl

/-- Both cases of the right shift: the lowest bit also comes in on the left. -/
theorem omacShiftRight_cons (x : UInt8) (rest : List UInt8) :
    omacShiftRight (x :: rest) =
      if bitAt ((x :: rest).getLast (cons_ne_nil _ _)) 0 then
        if (x :: rest).length = 16 then xorLast (shiftRightBytes 1 (x :: rest)) 0x43
        else if (x :: rest).length = 8 then xorLast (shiftRightBytes 1 (x :: rest)) 0x0D
        else shiftRightBytes 1 (x :: rest)
      else shiftRightBytes 0 (x :: rest) := by
  have hlast : (x :: rest).getD ((x :: rest).length - 1) 0 = (x :: rest).getLast (cons_ne_nil _ _) := by
    rw [getLast_eq_getElem, getD_eq_getElem?_getD, getElem?_eq_getElem, Option.getD_some]
  have hone : ((x >>> 1) :: shiftRightBytes x rest).set 0
      (((x >>> 1) :: shiftRightBytes x rest).getD 0 0 ||| 0x80) = shiftRightBytes 1 (x :: rest) := rfl
  have hzero : shiftRightBytes 0 (x :: rest) = (x >>> 1) :: shiftRightBytes x rest := by
    rw [shiftRightBytes, UInt8.zero_shiftLeft, UInt8.or_zero]
  simp only [omacShiftRight, hlast, hone, hzero, and_one_ne_zero]

theorem length_omacShiftRight : (omacShiftRight L).length = L.length := by
  cases L with
  | nil => rfl
  | cons x rest =>
    rw [omacShiftRight_cons]
    split_ifs <;> simp only [length_xorLast, length_shiftRightBytes]

/-- The polynomial without its last term, divided by `u`. -/
theorem bytePoly_half {r c : UInt8} (hr : bitAt r 0 = true) (hc : r >>> 1 ||| 0 <<< (7 : UInt8) = c) :
    bytePoly r = X * bytePoly c + 1 := by
  have h := bytePoly_shr r 0
  rw [hc, hr, show bitAt 0 0 = false from rfl, bit_false, zero_mul, add_zero] at h
  exact h.symm

/-- **The right shift divides by `u`.** -/
theorem elem_omacShiftRight (hB : B = 8 ∨ B = 16) (hL : L.length = B) :
    elem B (omacPoly B) (omacShiftRight L) * u B (omacPoly B) = elem B (omacPoly B) L := by
  cases L with
  | nil => rcases hB with rfl | rfl <;> cases hL
  | cons x rest =>
    obtain ⟨k, hk, hconst⟩ : ∃ k, bytePoly (omacPoly B) = X * bytePoly k + 1 ∧
        (if (x :: rest).length = 16 then xorLast (shiftRightBytes 1 (x :: rest)) 0x43
          else if (x :: rest).length = 8 then xorLast (shiftRightBytes 1 (x :: rest)) 0x0D
          else shiftRightBytes 1 (x :: rest)) = xorLast (shiftRightBytes 1 (x :: rest)) k := by
      rcases hB with rfl | rfl
      · exact ⟨0x0D, bytePoly_half rfl rfl, by rw [hL, if_neg (by decide), if_pos rfl]⟩
      · exact ⟨0x43, bytePoly_half rfl rfl, by rw [hL, if_pos rfl]⟩
    have hmul : ∀ S, elem B (omacPoly B) S * u B (omacPoly B) = AdjoinRoot.mk _ (X * poly S) := by
      intro S
      rw [map_mul, mul_comm]
      rfl
    rw [omacShiftRight_cons, hconst, hmul]
    by_cases hbit : bitAt ((x :: rest).getLast (cons_ne_nil _ _)) 0 = true
    · have h := poly_shiftRightBytes 1 (x :: rest)
      rw [getLast_cons (cons_ne_nil _ _), hbit, show bitAt 1 0 = true from rfl, bit_true, hL] at h
      have hout : X * poly (xorLast (shiftRightBytes 1 (x :: rest)) k) =
          poly (x :: rest) + (X ^ (8 * B) + bytePoly (omacPoly B)) := by
        rw [poly_xorLast (show shiftRightBytes 1 (x :: rest) ≠ [] from cons_ne_nil _ _), hk]
        linear_combination h - CharTwo.add_self_eq_zero (1 : (ZMod 2)[X])
      rw [if_pos hbit, hout, map_add, ← modulus, AdjoinRoot.mk_self, add_zero]
      rfl
    · have h := poly_shiftRightBytes 0 (x :: rest)
      rw [getLast_cons (cons_ne_nil _ _), Bool.eq_false_iff.mpr hbit, show bitAt 0 0 = false from rfl,
        bit_false, zero_mul, add_zero, add_zero] at h
      rw [if_neg hbit, h]
      rfl

end Shifts

/-! ## The message in a context -/

/-- A cipher whose contexts are `ready` for a key after `set_key`, and then encrypt with it. -/
structure BlockCipher.Keyed (c : BlockCipher σ) (ok : σ → Prop) (ready : List UInt8 → σ → Prop)
    (E : List UInt8 → List UInt8 → List UInt8) : Prop where
  setKey : ∀ {s : σ} (key : List UInt8), ok s → ready key (c.setKey s key)
  encrypts : ∀ key, c.Encrypts (ready key) (E key)

/-- `omac1_final` and `omac2_final`, with the sub-key of an incomplete block as a function of `L`. -/
def omacFinalBy (pl : Placing) (c : BlockCipher σ) (f : List UInt8 → List UInt8) (ctx : OmacContext σ) :
    OmacContext σ × List UInt8 :=
  let r := c.encBlock ctx.c.ctx (List.replicate c.blockLen 0)
  let ctx := { ctx with c := ⟨r.1, ctx.c.buf⟩ }
  if ctx.acc < c.blockLen then omacClose pl c (omacPad c ctx) (f r.2) else omacClose pl c ctx (omacShiftLeft r.2)

/-- What a context needs between two computations: a keyed cipher, and a buffer of 16 bytes. -/
def OmacContext.Ready (ready : σ → Prop) (ctx : OmacContext σ) : Prop := ready ctx.c.ctx ∧ ctx.accum.length = 16

/-- The context has put `pre` through the cipher and holds `last` back. Only an empty message leaves nothing to hold
back. -/
structure OmacContext.Holds (c : BlockCipher σ) (ready : σ → Prop) (E : List UInt8 → List UInt8)
    (pre last : List UInt8) (ctx : OmacContext σ) : Prop where
  cipher : ready ctx.c.ctx
  buf : ctx.c.buf = cbcMac E c.blockLen pre
  accum : ctx.accum.length = 16
  acc : ctx.acc = last.length
  held : ctx.accum.take ctx.acc = last
  whole : pre.length % c.blockLen = 0
  le : last.length ≤ c.blockLen
  nonempty : last = [] → pre = []

section Message

open List

variable (pl : Placing) {c : BlockCipher σ} {ready : σ → Prop} {E : List UInt8 → List UInt8} {ctx : OmacContext σ}
  {pre last : List UInt8}

theorem length_cbcMac (hc : c.Encrypts ready E) (pre : List UInt8) :
    (cbcMac E c.blockLen pre).length = c.blockLen := by
  refine absorb_keeps (P := fun y : List UInt8 => y.length = c.blockLen) (fun {y b} hy hb => ?_) length_replicate pre
  exact hc.length (by rw [length_xorBlock8 (hy.trans hb.symm), hy])

theorem cbcMac_append (hpos : 0 < c.blockLen) (hwhole : pre.length % c.blockLen = 0) {b : List UInt8}
    (hb : b.length = c.blockLen) :
    cbcMac E c.blockLen (pre ++ b) = E (xorBlock8 (cbcMac E c.blockLen pre) b) := by
  have hblock := absorb_block (T := fun y b => E (xorBlock8 y b)) (h := cbcMac E c.blockLen pre) (m := []) hpos hb
  rw [append_nil, absorb_of_lt (show ([] : List UInt8).length < c.blockLen from hpos)] at hblock
  rw [cbcMac, absorb_append, absorb_whole hpos hwhole]
  exact congrArg Prod.fst hblock

/-- An encryption in CBC mode of what stands in `accum`. -/
theorem omacCbc_eq (hc : c.Encrypts ready E) (hB : c.blockLen ≤ 16) (ctx : OmacContext σ) (hready : ready ctx.c.ctx)
    (hbuf : ctx.c.buf.length = c.blockLen) (hacc : ctx.accum.length = 16) :
    ready (omacCbc pl c ctx).c.ctx ∧
      (omacCbc pl c ctx).c.buf = E (xorBlock8 ctx.c.buf (ctx.accum.take c.blockLen)) ∧
      (omacCbc pl c ctx).accum.length = 16 ∧
      (omacCbc pl c ctx).accum.take c.blockLen = E (xorBlock8 ctx.c.buf (ctx.accum.take c.blockLen)) := by
  have htake : (ctx.accum.take c.blockLen).length = c.blockLen := by rw [length_take, hacc, Nat.min_eq_left hB]
  have hx : (xorBlock8 ctx.c.buf (ctx.accum.take c.blockLen)).length = c.blockLen := by
    rw [length_xorBlock8 (hbuf.trans htake.symm), hbuf]
  obtain ⟨hready', henc⟩ := hc.enc hready hx
  have hlen := hc.length hx
  simp only [omacCbc, cipherCbcEncrypt, xorBlock_eq, henc]
  refine ⟨hready', trivial, ?_, ?_⟩
  · rw [length_splice (by omega), hacc]
  · have h := take_splice (d := E (xorBlock8 ctx.c.buf (ctx.accum.take c.blockLen))) (Nat.zero_le ctx.accum.length)
    rwa [hlen, Nat.zero_add] at h

namespace OmacContext.Holds

theorem flush (hc : c.Encrypts ready E) (hpos : 0 < c.blockLen) (hB : c.blockLen ≤ 16)
    (h : ctx.Holds c ready E pre last) :
    ∃ pre' last', pre' ++ last' = pre ++ last ∧ last'.length < c.blockLen ∧ pre'.length % c.blockLen = 0 ∧
      ready (omacFlush pl c ctx).c.ctx ∧ (omacFlush pl c ctx).c.buf = cbcMac E c.blockLen pre' ∧
      (omacFlush pl c ctx).accum.length = 16 ∧ (omacFlush pl c ctx).acc = last'.length ∧
      (omacFlush pl c ctx).accum.take last'.length = last' := by
  have hle := h.le
  by_cases hfull : ctx.acc = c.blockLen
  · have hheld := h.held
    rw [hfull] at hheld
    have hlast : last.length = c.blockLen := h.acc.symm.trans hfull
    obtain ⟨hready, hbuf, haccum, -⟩ :=
      omacCbc_eq pl hc hB ctx h.cipher (by rw [h.buf, length_cbcMac hc]) h.accum
    rw [hheld, h.buf, ← cbcMac_append (E := E) hpos h.whole hlast] at hbuf
    rw [omacFlush, if_pos hfull]
    refine ⟨pre ++ last, [], append_nil _, hpos, ?_, hready, hbuf, haccum, rfl, rfl⟩
    rw [length_append, hlast, Nat.add_mod_right]
    exact h.whole
  · rw [omacFlush, if_neg hfull]
    have hacc := h.acc
    refine ⟨pre, last, rfl, by omega, h.whole, h.cipher, h.buf, h.accum, h.acc, ?_⟩
    rw [← h.acc]
    exact h.held

/-- **Updates**: the data go behind what is held back, and all but the last block through the cipher. -/
theorem update (hc : c.Encrypts ready E) (hpos : 0 < c.blockLen) (hB : c.blockLen ≤ 16) (data : List UInt8)
    (h : ctx.Holds c ready E pre last) :
    ∃ pre' last', pre' ++ last' = pre ++ last ++ data ∧ (omacUpdate pl c ctx data).Holds c ready E pre' last' := by
  fun_induction omacUpdate pl c ctx data generalizing pre last with
  | case1 ctx data hmore ih =>
    obtain ⟨pre1, last1, heq, hlt, hwhole, hready, hbuf, haccum, hacc, hheld⟩ := h.flush pl hc hpos hB
    generalize omacFlush pl c ctx = s at *
    generalize hroom : c.blockLen - s.acc = room at *
    have hlen : (data.take room).length = min room data.length := length_take
    have hnext : (omacCopy s (data.take room)).Holds c ready E pre1 (last1 ++ data.take room) := by
      refine ⟨hready, hbuf, ?_, ?_, ?_, hwhole, ?_, fun hnil => ?_⟩
      · exact (length_splice (by omega)).trans haccum
      · show s.acc + _ = _
        rw [length_append, hacc]
      · show (splice s.accum s.acc (data.take room)).take (s.acc + (data.take room).length) = _
        rw [take_splice (by omega), hacc, hheld]
      · rw [length_append]
        omega
      · have hz := congrArg length hnil
        rw [length_append, length_nil] at hz
        omega
    obtain ⟨pre', last', heq', hholds⟩ := ih hnext
    refine ⟨pre', last', ?_, hholds⟩
    rw [heq', ← append_assoc, heq, append_assoc (pre ++ last), take_append_drop]
  | case2 ctx data hmore =>
    obtain ⟨pre1, last1, heq, hlt, hwhole, hready, hbuf, haccum, hacc, hheld⟩ := h.flush pl hc hpos hB
    have hdata : data = [] := by
      exact length_eq_zero_iff.mp (by omega)
    exact ⟨pre, last, by rw [hdata, append_nil], h⟩

end OmacContext.Holds

/-! ## The tag -/

/-- The two cases of the specification, for a message of which `last` is held back. -/
theorem omacTag_append (h : ctx.Holds c ready E pre last) (K₁ K₂ : List UInt8) :
    omacTag E c.blockLen K₁ K₂ (pre ++ last) = cbcMac E c.blockLen (pre ++
      if last.length = c.blockLen then xorBlock8 last K₁
      else xorBlock8 (last ++ 0x80 :: List.replicate (c.blockLen - (last.length + 1)) 0) K₂) := by
  have hle := h.le
  have hmod : (pre ++ last).length % c.blockLen = last.length % c.blockLen := by
    rw [length_append, Nat.add_mod, h.whole, Nat.zero_add, Nat.mod_mod]
  have hn : (if pre ++ last ≠ [] ∧ (pre ++ last).length % c.blockLen = 0 then c.blockLen
      else (pre ++ last).length % c.blockLen) = last.length := by
    rw [hmod]
    by_cases hnil : last = []
    · rw [if_neg (fun hand => hand.1 (by rw [hnil, h.nonempty hnil]; rfl)), hnil, length_nil, Nat.zero_mod]
    · have hlast : 0 < last.length := length_pos_iff.mpr hnil
      by_cases hfull : last.length = c.blockLen
      · rw [hfull, Nat.mod_self, if_pos ⟨fun happ => hnil (append_eq_nil_iff.mp happ).2, rfl⟩]
      · rw [Nat.mod_eq_of_lt (by omega), if_neg (fun hand => by omega)]
  have hpre : (pre ++ last).length - last.length = pre.length := by rw [length_append, Nat.add_sub_cancel]
  simp only [omacTag, hn, hpre, take_left', drop_left']

/-- What `omac_final` computes from the last block. -/
theorem omacClose_eq (hc : c.Encrypts ready E) (hB : c.blockLen ≤ 16) (ctx : OmacContext σ) (hready : ready ctx.c.ctx)
    (hbuf : ctx.c.buf.length = c.blockLen) (hacc : ctx.accum.length = 16) {L : List UInt8}
      (hL : L.length = c.blockLen) :
    (omacClose pl c ctx L).1.Ready ready ∧
      (omacClose pl c ctx L).2 = E (xorBlock8 ctx.c.buf (xorBlock8 (ctx.accum.take c.blockLen) L)) := by
  have htake : (ctx.accum.take c.blockLen).length = c.blockLen := by rw [length_take, hacc, Nat.min_eq_left hB]
  have hx : (xorBlock8 (ctx.accum.take c.blockLen) L).length = c.blockLen := by
    rw [length_xorBlock8 (htake.trans hL.symm), htake]
  have hspl : (splice ctx.accum 0 (xorBlock8 (ctx.accum.take c.blockLen) L)).length = 16 := by
    rw [length_splice (by omega), hacc]
  have hblock : (splice ctx.accum 0 (xorBlock8 (ctx.accum.take c.blockLen) L)).take c.blockLen =
      xorBlock8 (ctx.accum.take c.blockLen) L := by
    have h := take_splice (d := xorBlock8 (ctx.accum.take c.blockLen) L) (Nat.zero_le ctx.accum.length)
    rwa [hx, Nat.zero_add] at h
  obtain ⟨h1, -, h3, h4⟩ := omacCbc_eq pl hc hB
    { ctx with accum := splice ctx.accum 0 (xorBlock8 (ctx.accum.take c.blockLen) L) } hready hbuf hspl
  simp only [omacClose, xorBlock_eq]
  rw [h4, hblock]
  exact ⟨⟨h1, h3⟩, rfl⟩

/-- The padding is `0x80` and zeros. -/
theorem omacPad_eq (hB : c.blockLen ≤ 16) (h : ctx.Holds c ready E pre last) (hlt : ctx.acc < c.blockLen) :
    (omacPad c ctx).accum.length = 16 ∧ (omacPad c ctx).accum.take c.blockLen =
      last ++ 0x80 :: List.replicate (c.blockLen - (last.length + 1)) 0 := by
  have haccum := h.accum
  have hle : ctx.acc ≤ ctx.accum.length := by omega
  have hpad : (omacPad c ctx).accum =
      splice ctx.accum ctx.acc (0x80 :: List.replicate (c.blockLen - (ctx.acc + 1)) 0) :=
    splice_splice (d := [0x80]) hle _
  have hlen : ((0x80 : UInt8) :: List.replicate (c.blockLen - (ctx.acc + 1)) 0).length = c.blockLen - ctx.acc := by
    rw [length_cons, length_replicate]
    omega
  rw [hpad]
  constructor
  · rw [length_splice (by omega), haccum]
  · have htake := take_splice (d := (0x80 : UInt8) :: List.replicate (c.blockLen - (ctx.acc + 1)) 0) hle
    rw [hlen, Nat.add_sub_cancel' (Nat.le_of_lt hlt), h.held] at htake
    rw [htake, h.acc]

/-- Both `final` functions: the tag with the sub-keys that they use. -/
theorem omacFinal_eq (hc : c.Encrypts ready E) (hpos : 0 < c.blockLen) (hB : c.blockLen ≤ 16)
    (h : ctx.Holds c ready E pre last) {s : σ} (hs : ready s) (K₁ K₂ : List UInt8) (hK1 : K₁.length = c.blockLen)
    (hK2 : K₂.length = c.blockLen) :
    let ctx' : OmacContext σ := { ctx with c := ⟨s, ctx.c.buf⟩ }
    let r := if ctx'.acc < c.blockLen then omacClose pl c (omacPad c ctx') K₂ else omacClose pl c ctx' K₁
    r.1.Ready ready ∧ r.2 = omacTag E c.blockLen K₁ K₂ (pre ++ last) := by
  intro ctx' r
  have h' : ctx'.Holds c ready E pre last :=
    { h with cipher := hs }
  have hbuf : ctx'.c.buf.length = c.blockLen := by rw [h'.buf, length_cbcMac hc]
  have hle := h'.le
  have hacc := h'.acc
  rw [omacTag_append h' K₁ K₂]
  by_cases hlt : ctx'.acc < c.blockLen
  · obtain ⟨haccum, htake⟩ := omacPad_eq hB h' hlt
    have hclose := omacClose_eq pl hc hB (omacPad c ctx') hs hbuf haccum hK2
    rw [htake] at hclose
    have hlen : (xorBlock8 (last ++ 0x80 :: List.replicate (c.blockLen - (last.length + 1)) 0) K₂).length =
        c.blockLen := by
      rw [length_xorBlock8, ← htake, length_take, haccum, Nat.min_eq_left hB]
      rw [← htake, length_take, haccum, Nat.min_eq_left hB, hK2]
    rw [if_neg (by omega), cbcMac_append hpos h.whole hlen, ← h'.buf]
    simp only [r, if_pos hlt]
    exact hclose
  · have hfull : last.length = c.blockLen := by omega
    have htake : ctx'.accum.take c.blockLen = last := by
      rw [← hfull, ← hacc]
      exact h'.held
    have hclose := omacClose_eq pl hc hB ctx' hs hbuf h'.accum hK1
    rw [htake] at hclose
    have hlen : (xorBlock8 last K₁).length = c.blockLen := by rw [length_xorBlock8 (hfull.trans hK1.symm), hfull]
    rw [if_pos hfull, cbcMac_append hpos h.whole hlen, ← h'.buf]
    simp only [r, if_neg hlt]
    exact hclose

/-- A computation with any `final` that gives the tag of what is held. -/
theorem omac_run (hc : c.Encrypts ready E) (hpos : 0 < c.blockLen) (hB : c.blockLen ≤ 16)
    {final : OmacContext σ → OmacContext σ × List UInt8} {K₁ K₂ : List UInt8}
    (hfinal : ∀ {ctx : OmacContext σ} {pre last : List UInt8}, ctx.Holds c ready E pre last →
      (final ctx).1.Ready ready ∧ (final ctx).2 = omacTag E c.blockLen K₁ K₂ (pre ++ last))
    (hctx : ctx.Ready ready) (chunks : List (List UInt8)) :
    ((omac pl c final).run ctx chunks).1.Ready ready ∧
      ((omac pl c final).run ctx chunks).2 = omacTag E c.blockLen K₁ K₂ chunks.flatten := by
  have hrun : ∀ (cs : List (List UInt8)) {ctx : OmacContext σ} {pre last : List UInt8}, ctx.Holds c ready E pre last →
      ∃ pre' last', pre' ++ last' = pre ++ last ++ cs.flatten ∧
        (cs.foldl (omacUpdate pl c) ctx).Holds c ready E pre' last' := by
    intro cs
    induction cs with
    | nil => exact fun {ctx pre last} h => ⟨pre, last, (append_nil _).symm, h⟩
    | cons d cs ih =>
      intro ctx pre last h
      obtain ⟨pre1, last1, heq, h1⟩ := h.update pl hc hpos hB d
      obtain ⟨pre2, last2, heq2, h2⟩ := ih h1
      exact ⟨pre2, last2, by rw [heq2, heq, flatten_cons, append_assoc], h2⟩
  have hbegin : (omacBegin c ctx).Holds c ready E [] [] :=
    ⟨hctx.1, by rw [cbcMac, absorb_of_lt (show ([] : List UInt8).length < c.blockLen from hpos)]; rfl, hctx.2, rfl, rfl,
      Nat.zero_mod _, Nat.zero_le _, fun _ => rfl⟩
  obtain ⟨pre, last, heq, h⟩ := hrun chunks hbegin
  obtain ⟨hready, htag⟩ := hfinal h
  refine ⟨hready, htag.trans ?_⟩
  rw [heq]
  rfl

end Message

/-! ## Sub-keys -/

section Specified

variable (pl : Placing) {c : BlockCipher σ} {ready : σ → Prop} {E : List UInt8 → List UInt8}

open Gf2 List

section
variable {B : ℕ} (hB : B = 8 ∨ B = 16) {L : List UInt8} (hL : L.length = B)
include hB hL

theorem block_omacShiftLeft : block B (omacPoly B) (elem B (omacPoly B) L * u B (omacPoly B)) = omacShiftLeft L := by
  rw [← elem_omacShiftLeft hB hL, block_elem (by omega) (length_omacShiftLeft.trans hL)]

theorem block_omacShiftLeft_twice :
    block B (omacPoly B) (elem B (omacPoly B) L * u B (omacPoly B) ^ 2) = omacShiftLeft (omacShiftLeft L) := by
  rw [pow_two, ← mul_assoc, ← elem_omacShiftLeft hB hL, block_omacShiftLeft hB (length_omacShiftLeft.trans hL)]

theorem block_omacShiftRight :
    block B (omacPoly B) (elem B (omacPoly B) L * Ring.inverse (u B (omacPoly B))) = omacShiftRight L := by
  have hunit : IsUnit (u B (omacPoly B)) := by
    refine isUnit_u (by omega) ?_
    rcases hB with rfl | rfl <;> rfl
  rw [← elem_omacShiftRight hB hL, Ring.mul_inverse_cancel_right _ _ hunit,
    block_elem (by omega) (length_omacShiftRight.trans hL)]

end

/-- Both `final` functions: the sub-key `f L` of an incomplete block is `L * v`. -/
theorem omacFinalBy_eq (hc : c.Encrypts ready E) (hB : c.blockLen = 8 ∨ c.blockLen = 16) {f : List UInt8 → List UInt8}
    {v : Gf c.blockLen (omacPoly c.blockLen)}
    (hf : ∀ {L : List UInt8}, L.length = c.blockLen → (f L).length = c.blockLen ∧ block _ _ (elem _ _ L * v) = f L)
    {ctx : OmacContext σ} {pre last : List UInt8} (h : ctx.Holds c ready E pre last) :
    (omacFinalBy pl c f ctx).1.Ready ready ∧ (omacFinalBy pl c f ctx).2 = omacOf c.blockLen v E (pre ++ last) := by
  have hzero : (List.replicate c.blockLen (0 : UInt8)).length = c.blockLen := length_replicate
  obtain ⟨hready, henc⟩ := hc.enc h.cipher hzero
  have hL := hc.length hzero
  obtain ⟨hlen, hblock⟩ := hf hL
  simp only [omacFinalBy, henc, omacOf, block_omacShiftLeft hB hL, hblock]
  exact omacFinal_eq pl hc (by omega) (by omega) h hready _ _ (length_omacShiftLeft.trans hL) hlen

variable {ok : σ → Prop} {Ready : List UInt8 → σ → Prop} {Enc : List UInt8 → List UInt8 → List UInt8}

/-- A MAC of this module computes the tag with the sub-key `L * v`, when its `final` does. -/
theorem omac_computes (hk : c.Keyed ok Ready Enc) (hB : c.blockLen = 8 ∨ c.blockLen = 16)
    (final : OmacContext σ → OmacContext σ × List UInt8) (v : Gf c.blockLen (omacPoly c.blockLen))
    (hfinal : ∀ {key : List UInt8} {ctx : OmacContext σ} {pre last : List UInt8},
      ctx.Holds c (Ready key) (Enc key) pre last →
      (final ctx).1.Ready (Ready key) ∧ (final ctx).2 = omacOf c.blockLen v (Enc key) (pre ++ last)) :
    (omac pl c final).Computes (OmacContext.Ready ok) (fun _ => True) (fun key => OmacContext.Ready (Ready key))
      (fun _ => True) (fun key => omacOf c.blockLen v (Enc key)) where
  setKey hok _ := ⟨hk.setKey _ hok.1, hok.2⟩
  run {_ key} chunks hctx _ := omac_run pl (hk.encrypts key) (by omega) (by omega) hfinal hctx chunks
  length key _ := length_cbcMac (hk.encrypts key) _

/-- **OMAC equals its specification**: for every cipher with blocks of 8 or 16 bytes, every key and any number of
messages after it, cut into any updates, the tags are those of OMAC1 and OMAC2. -/
theorem omac_specified (hk : c.Keyed ok Ready Enc) (hB : c.blockLen = 8 ∨ c.blockLen = 16) {ctx : OmacContext σ}
    (hok : ok ctx.c.ctx) (hacc : ctx.accum.length = 16) (key : List UInt8) (messages : List (List (List UInt8))) :
    (omac1 pl c).runs ((omac1 pl c).setKey ctx key) messages =
        messages.map (fun chunks => omacOf c.blockLen (u _ _ ^ 2) (Enc key) chunks.flatten) ∧
      (omac2 pl c).runs ((omac2 pl c).setKey ctx key) messages =
        messages.map fun chunks => omacOf c.blockLen (Ring.inverse (u _ _)) (Enc key) chunks.flatten := by
  have h₁ := omac_computes pl hk hB (omac1Final pl c) _ fun {key} => omacFinalBy_eq pl (hk.encrypts key) hB fun hL =>
    ⟨length_omacShiftLeft.trans (length_omacShiftLeft.trans hL), block_omacShiftLeft_twice hB hL⟩
  have h₂ := omac_computes pl hk hB (omac2Final pl c) _ fun {key} => omacFinalBy_eq pl (hk.encrypts key) hB fun hL =>
    ⟨length_omacShiftRight.trans hL, block_omacShiftRight hB hL⟩
  exact ⟨h₁.runs (h₁.setKey ⟨hok, hacc⟩ trivial) fun _ _ => trivial,
    h₂.runs (h₂.setKey ⟨hok, hacc⟩ trivial) fun _ _ => trivial⟩

end Specified

/-- Addition of the key to each byte, with blocks of eight bytes. -/
def sumCipher : BlockCipher UInt8 := { byteCipher with blockLen := 8 }

theorem sumCipher_keyed : sumCipher.Keyed (fun _ => True) (fun key k => k = key.getD 0 0)
    fun key b => b.map (· + key.getD 0 0) where
  setKey _ _ := rfl
  encrypts key := ⟨by rintro s b rfl -; exact ⟨rfl, rfl⟩, fun h => by rw [List.length_map, h]⟩

theorem omac_specified_sum :
    (omac2 ⟨false, false⟩ sumCipher).runs
      ((omac2 ⟨false, false⟩ sumCipher).setKey ⟨⟨0, []⟩, List.replicate 16 9, 3⟩ [7]) [[[1, 2], [3]], []] =
    [[[1, 2], [3]], []].map fun chunks =>
      omacOf 8 (Ring.inverse (Gf2.u _ _)) (fun b => b.map (· + 7)) chunks.flatten :=
  (omac_specified ⟨false, false⟩ sumCipher_keyed (Or.inl rfl) trivial rfl [7] [[[1, 2], [3]], []]).2

end Bertos
