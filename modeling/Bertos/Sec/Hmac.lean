import Bertos.Sec.Hash
import Bertos.Sec.Mac
import Bertos.Sec.Util

/-!
# HMAC (`sec/mac/hmac.c`)

The context keeps the key in one buffer of 64 bytes. Between two computations it stands XORed with `opad`; `begin`
turns it into the key XORed with `ipad`, and `final` turns it back (`HmacKey`). `hmacOf` is HMAC as RFC 2104 defines
it; the module computes it for every hash, in every computation after one `set_key` (`hmac_rfc2104`).
-/

namespace Bertos

open Blocks List

variable {σ : Type*}

/-! ## The functions -/

/-- `HmacContext`: the context of the hash and the key. -/
structure HmacContext (σ : Type*) where
  h : σ
  key : List UInt8

section Functions

variable (pl : Placing) (h : Hash σ)

/-- `xor_block_const(ctx->key, ctx->key, k, ctx->m.key_len);` -/
def hmacXor (key : List UInt8) (k : UInt8) : List UInt8 :=
  splice key 0 (xorBlockConst pl (key.take h.blockLen) k)

/-- `hmac_set_key` -/
def hmacSetKey (ctx : HmacContext σ) (key : List UInt8) : HmacContext σ :=
  let buf := splice ctx.key 0 (List.replicate h.blockLen 0)
  if key.length ≤ h.blockLen then ⟨ctx.h, hmacXor pl h (splice buf 0 key) 0x5C⟩
  else
    let r := h.run ctx.h [key]
    ⟨r.1, hmacXor pl h (splice buf 0 r.2) 0x5C⟩

/-- `hmac_begin` -/
def hmacBegin (ctx : HmacContext σ) : HmacContext σ :=
  let key := hmacXor pl h ctx.key (0x36 ^^^ 0x5C)
  ⟨h.update (h.begin ctx.h) (key.take h.blockLen), key⟩

/-- `hmac_update` -/
def hmacUpdate (ctx : HmacContext σ) (data : List UInt8) : HmacContext σ := ⟨h.update ctx.h data, ctx.key⟩

/-- `hmac_final` -/
def hmacFinal (ctx : HmacContext σ) : HmacContext σ × List UInt8 :=
  let (s, temp) := h.final ctx.h
  let key := hmacXor pl h ctx.key (0x5C ^^^ 0x36)
  let r := h.final (h.update (h.update (h.begin s) (key.take h.blockLen)) temp)
  (⟨r.1, key⟩, r.2)

/-- The MAC that `hmac_init` sets up. -/
def hmac : Mac (HmacContext σ) where
  setKey := hmacSetKey pl h
  begin := hmacBegin pl h
  update := hmacUpdate h
  final := hmacFinal pl h
  digestLen := h.digestLen
  keyLen := h.blockLen

end Functions

/-! ## RFC 2104 -/

section Spec

variable (H : List UInt8 → List UInt8) (B : ℕ)

/-- The key of `B` bytes: hashed first if it is longer, then padded with zeros (a digest longer than a block is cut). -/
def hmacKey (key : List UInt8) : List UInt8 :=
  let k := if key.length ≤ B then key else H key
  (k ++ List.replicate (B - k.length) 0).take B

def hmacOf (key msg : List UInt8) : List UInt8 :=
  H ((hmacKey H B key).map (· ^^^ 0x5C) ++ H ((hmacKey H B key).map (· ^^^ 0x36) ++ msg))

theorem length_hmacKey (key : List UInt8) : (hmacKey H B key).length = B := by
  rw [hmacKey, length_take, length_append, length_replicate]
  omega

end Spec

/-! ## The key buffer -/

/-- The buffer holds the key `K`, XORed with `k`. -/
structure HmacKey (B : ℕ) (K : List UInt8) (k : UInt8) (buf : List UInt8) : Prop where
  length : buf.length = 64
  key : buf.take B = K.map (· ^^^ k)

section Buffer

variable (pl : Placing) {h : Hash σ} {K buf : List UInt8} {k : UInt8}

theorem HmacKey.xor (hk : HmacKey h.blockLen K k buf) (hB : h.blockLen ≤ 64) (k' : UInt8) :
    HmacKey h.blockLen K (k ^^^ k') (hmacXor pl h buf k') := by
  have hxor : xorBlockConst8 (buf.take h.blockLen) k' = K.map (· ^^^ (k ^^^ k')) := by
    rw [xorBlockConst8, hk.key, map_map]
    exact map_congr_left fun x _ => UInt8.xor_assoc x k k'
  have hlen : (K.map (· ^^^ (k ^^^ k'))).length = h.blockLen := by
    rw [length_map, ← length_map (· ^^^ k), ← hk.key, length_take, hk.length, Nat.min_eq_left hB]
  rw [hmacXor, xorBlockConst_eq, hxor]
  constructor
  · rw [length_splice (by rw [hk.length]; omega), hk.length]
  · have htake := take_splice (d := K.map (· ^^^ (k ^^^ k'))) (Nat.zero_le buf.length)
    rwa [hlen, Nat.zero_add] at htake

/-- `memset` and `memcpy` of a key, or of its digest. -/
theorem HmacKey.fill {B : ℕ} (hB : B ≤ 64) (hbuf : buf.length = 64) {key : List UInt8} (hkey : key.length ≤ 64) :
    HmacKey B ((key ++ List.replicate (B - key.length) 0).take B) 0
      (splice (splice buf 0 (List.replicate B 0)) 0 key) := by
  have hz : (splice buf 0 (replicate B (0 : UInt8))).length = 64 := by
    rw [length_splice (by rw [length_replicate]; omega), hbuf]
  constructor
  · rw [length_splice (by omega), hz]
  · have hzero : ∀ l : List UInt8, l.map (· ^^^ 0) = l := fun l =>
      (map_congr_left fun x _ => UInt8.xor_zero).trans l.map_id
    rw [hzero, splice_zero, splice_zero, length_replicate]
    by_cases hle : key.length ≤ B
    · rw [drop_append_of_le_length (by rw [length_replicate]; exact hle), drop_replicate,
        ← append_assoc, take_left', take_of_length_le]
      · rw [length_append, length_replicate]; omega
      · rw [length_append, length_replicate]; omega
    · rw [take_append_of_le_length (by omega), take_append_of_le_length (by omega)]

end Buffer

/-! ## Computations -/

section Computations

variable (pl : Placing) {h : Hash σ} {ok : σ → Prop} {valid : List UInt8 → Prop} {H : List UInt8 → List UInt8}

/-- A context between two computations: its hash can be used, and it holds the key XORed with `opad`. -/
structure HmacContext.Ready (h : Hash σ) (ok : σ → Prop) (H : List UInt8 → List UInt8) (key : List UInt8)
    (ctx : HmacContext σ) : Prop where
  hash : ok ctx.h
  key : HmacKey h.blockLen (hmacKey H h.blockLen key) 0x5C ctx.key

theorem hmacSetKey_ready (hc : h.Computes ok valid H) (hB : h.blockLen ≤ 64) (hL : h.digestLen ≤ 64)
    {ctx : HmacContext σ} (hok : ok ctx.h) (hbuf : ctx.key.length = 64) {key : List UInt8}
    (hfits : h.blockLen < key.length → valid key) : (hmacSetKey pl h ctx key).Ready h ok H key := by
  simp only [hmacSetKey]
  split
  · rename_i hle
    refine ⟨hok, ?_⟩
    rw [hmacKey, if_pos hle]
    exact (HmacKey.fill hB hbuf (by omega)).xor pl hB 0x5C
  · rename_i hlong
    have hflat : [key].flatten = key := flatten_singleton
    obtain ⟨hok', hdigest⟩ := hc.run [key] hok (by rw [hflat]; exact hfits (by omega))
    refine ⟨hok', ?_⟩
    rw [hmacKey, if_neg hlong, hdigest, hflat]
    exact (HmacKey.fill hB hbuf (by rw [hc.length]; exact hL)).xor pl hB 0x5C

theorem foldl_hmacUpdate (chunks : List (List UInt8)) (ctx : HmacContext σ) :
    chunks.foldl (hmacUpdate h) ctx = ⟨chunks.foldl h.update ctx.h, ctx.key⟩ := by
  induction chunks generalizing ctx with
  | nil => rfl
  | cons c chunks ih => exact ih _

/-- What `begin` and `final` do to the constant that the key is XORed with. -/
def hmacToggle (k : UInt8) : UInt8 := k ^^^ (0x36 ^^^ 0x5C)

theorem hmacToggle_involutive : Function.Involutive hmacToggle := fun k => by
  rw [hmacToggle, hmacToggle, UInt8.xor_assoc, UInt8.xor_self, UInt8.xor_zero]

/-- A computation on a buffer that holds the key in any form: the inner hash, then the outer one. -/
theorem hmac_run_eq {ctx : HmacContext σ} {K : List UInt8} {i o : UInt8} (chunks : List (List UInt8))
    (hipad : HmacKey h.blockLen K i (hmacXor pl h ctx.key (0x36 ^^^ 0x5C)))
    (hopad : HmacKey h.blockLen K o (hmacXor pl h (hmacXor pl h ctx.key (0x36 ^^^ 0x5C)) (0x5C ^^^ 0x36))) :
    (hmac pl h).run ctx chunks =
      let inner := h.run ctx.h (K.map (· ^^^ i) :: chunks)
      let outer := h.run inner.1 [K.map (· ^^^ o), inner.2]
      (⟨outer.1, hmacXor pl h (hmacXor pl h ctx.key (0x36 ^^^ 0x5C)) (0x5C ^^^ 0x36)⟩, outer.2) := by
  show hmacFinal pl h (chunks.foldl (hmacUpdate h) (hmacBegin pl h ctx)) = _
  simp only [foldl_hmacUpdate, hmacFinal, hmacBegin, hipad.key, hopad.key]
  rfl

section
variable (hc : h.Computes ok valid H) (hB : h.blockLen ≤ 64)
    (hout : ∀ p d : List UInt8, p.length = h.blockLen → d.length = h.digestLen → valid (p ++ d)) {ctx : HmacContext σ}
include hc hB hout

/-- A run over a key of one block. -/
theorem hmac_run_key {K : List UInt8} {k : UInt8} (hok : ok ctx.h) (hlen : K.length = h.blockLen)
    (hk : HmacKey h.blockLen K k ctx.key) {chunks : List (List UInt8)}
    (hvalid : ∀ p : List UInt8, p.length = h.blockLen → valid (p ++ chunks.flatten)) :
    ok ((hmac pl h).run ctx chunks).1.h ∧ HmacKey h.blockLen K k ((hmac pl h).run ctx chunks).1.key ∧
      ((hmac pl h).run ctx chunks).2 = H (K.map (· ^^^ k) ++ H (K.map (· ^^^ hmacToggle k) ++ chunks.flatten)) := by
  have hipad : HmacKey h.blockLen K (hmacToggle k) _ := hk.xor pl hB (0x36 ^^^ 0x5C)
  have hopad := hipad.xor pl hB (0x5C ^^^ 0x36)
  rw [show hmacToggle k ^^^ (0x5C ^^^ 0x36) = k from hmacToggle_involutive k] at hopad
  have hK : ∀ k : UInt8, (K.map (· ^^^ k)).length = h.blockLen := fun k => by rw [length_map, hlen]
  obtain ⟨hok, hinner⟩ := hc.run (_ :: chunks) hok (hvalid _ (hK (hmacToggle k)))
  have hflat : ∀ p d : List UInt8, [p, d].flatten = p ++ d := fun p d => congrArg (p ++ ·) (append_nil d)
  obtain ⟨hok', houter⟩ := hc.run [_, H (K.map (· ^^^ hmacToggle k) ++ chunks.flatten)] hok
    (by rw [hflat]; exact hout _ _ (hK k) (hc.length _))
  rw [hflat] at houter
  rw [flatten_cons] at hinner
  rw [hmac_run_eq pl chunks hipad hopad]
  simp only [hinner]
  exact ⟨hok', hopad, houter⟩

/-- One computation returns the tag and leaves the key as it was. -/
theorem hmac_run {key : List UInt8} (hr : ctx.Ready h ok H key) {chunks : List (List UInt8)}
    (hvalid : ∀ p : List UInt8, p.length = h.blockLen → valid (p ++ chunks.flatten)) :
    ((hmac pl h).run ctx chunks).1.Ready h ok H key ∧
      ((hmac pl h).run ctx chunks).2 = hmacOf H h.blockLen key chunks.flatten := by
  obtain ⟨hok, hkey, htag⟩ := hmac_run_key pl hc hB hout hr.hash (length_hmacKey _ _ _) hr.key hvalid
  exact ⟨⟨hok, hkey⟩, htag⟩

end

/-- **HMAC computes the function of RFC 2104.** -/
theorem hmac_computes (hc : h.Computes ok valid H) (hB : h.blockLen ≤ 64) (hL : h.digestLen ≤ 64)
    (hout : ∀ p d : List UInt8, p.length = h.blockLen → d.length = h.digestLen → valid (p ++ d)) :
    (hmac pl h).Computes (fun ctx => ok ctx.h ∧ ctx.key.length = 64) (fun key => h.blockLen < key.length → valid key)
      (fun key ctx => ctx.Ready h ok H key) (fun msg => ∀ p : List UInt8, p.length = h.blockLen → valid (p ++ msg))
      (hmacOf H h.blockLen) where
  setKey hok hfits := hmacSetKey_ready pl hc hB hL hok.1 hok.2 hfits
  run _ hr hvalid := hmac_run pl hc hB hout hr hvalid
  length _ _ := hc.length _

end Computations

/-- **HMAC equals RFC 2104**: for every hash that is a function of the concatenated updates, every key and any
number of computations after one `set_key`, each tag is the specified one. The buffer of the context holds a
block and a digest. -/
theorem hmac_rfc2104 (pl : Placing) {h : Hash σ} {ok : σ → Prop} {H : List UInt8 → List UInt8}
    (hc : h.Computes ok (fun _ => True) H) (hB : h.blockLen ≤ 64) (hL : h.digestLen ≤ 64) {ctx : HmacContext σ}
    (hok : ok ctx.h) (hbuf : ctx.key.length = 64) (key : List UInt8) (messages : List (List (List UInt8))) :
    (hmac pl h).runs ((hmac pl h).setKey ctx key) messages =
      messages.map fun chunks => hmacOf H h.blockLen key chunks.flatten := by
  have hm := hmac_computes pl hc hB hL fun _ _ _ _ => trivial
  exact hm.runs (hm.setKey ⟨hok, hbuf⟩ fun _ => trivial) fun _ _ _ _ => trivial

/-- The XOR of all bytes, as a hash with blocks of four bytes. -/
def byteHash : Hash UInt8 where
  begin _ := 0
  update s d := d.foldl (· ^^^ ·) s
  final s := (s, [s])
  digestLen := 1
  blockLen := 4

theorem byteHash_computes : byteHash.Computes (fun _ => True) (fun _ => True) fun m => [m.foldl (· ^^^ ·) 0] where
  run _ _ _ := ⟨trivial, congrArg (fun x => [x]) foldl_flatten.symm⟩
  length _ := rfl

theorem hmac_rfc2104_bytes :
    (hmac ⟨true, false⟩ byteHash).runs ((hmac ⟨true, false⟩ byteHash).setKey ⟨7, List.replicate 64 9⟩ [1, 2, 3, 4, 5])
      [[[1], [2, 3]], []] =
    [[[1], [2, 3]], []].map fun chunks => hmacOf (fun m => [m.foldl (· ^^^ ·) 0]) 4 [1, 2, 3, 4, 5] chunks.flatten :=
  hmac_rfc2104 ⟨true, false⟩ byteHash_computes (by decide) (by decide) trivial rfl _ _

end Bertos
