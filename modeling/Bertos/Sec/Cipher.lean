import Bertos.Sec.Util
import Mathlib.Data.List.Nodup
import Mathlib.Data.Nat.ModEq

/-!
# Block ciphers and their chaining modes (`sec/cipher.h`, `sec/cipher.c`)

A block cipher is an object with a context that its functions may change. What it computes is said by
`BlockCipher.Implements`: in every context that is `ok`, a block is encrypted to `E b` and decrypted to `D b`, and `D`
undoes `E`. The modes work in place on the caller's block and on the buffer the cipher points to. Over a whole sequence
of blocks, each mode gives back what it has encrypted, and the inputs of the cipher in counter mode are successive
numbers: `modes_invert`.
-/

namespace Bertos

open List Nat

variable {σ τ : Type*}

/-! ## Sequences of blocks -/

def eachBlock (f : τ → List UInt8 → τ × List UInt8) : τ → List (List UInt8) → τ × List (List UInt8)
  | s, [] => (s, [])
  | s, b :: bs => ((eachBlock f (f s b).1 bs).1, (f s b).2 :: (eachBlock f (f s b).1 bs).2)

/-- One function undoes the other over a sequence of blocks when it does so for each block, in states that stay
related. -/
theorem eachBlock_undoes {S S' : Type*} {f : S → List UInt8 → S × List UInt8} {g : S' → List UInt8 → S' × List UInt8}
    {R : S → S' → Prop} {good : List UInt8 → Prop}
    (hstep : ∀ s s' b, R s s' → good b → (g s' (f s b).2).2 = b ∧ R (f s b).1 (g s' (f s b).2).1)
    {s : S} {s' : S'} (hR : R s s') {bs : List (List UInt8)} (hbs : ∀ b ∈ bs, good b) :
    (eachBlock g s' (eachBlock f s bs).2).2 = bs := by
  induction bs generalizing s s' with
  | nil => rfl
  | cons b bs ih =>
    obtain ⟨hb, hR'⟩ := hstep s s' b hR (hbs b mem_cons_self)
    simp only [eachBlock]
    rw [hb, ih hR' fun b' hb' => hbs b' (mem_cons_of_mem _ hb')]

/-! ## Block ciphers -/

/-- `BlockCipher`, over the state of the context. -/
structure BlockCipher (σ : Type*) where
  setKey : σ → List UInt8 → σ
  encBlock : σ → List UInt8 → σ × List UInt8
  decBlock : σ → List UInt8 → σ × List UInt8
  keyLen : ℕ
  blockLen : ℕ

/-- In a context that is `ok`, the cipher encrypts `b` to `E b`. -/
structure BlockCipher.Encrypts (c : BlockCipher σ) (ok : σ → Prop) (E : List UInt8 → List UInt8) : Prop where
  enc : ∀ {s b}, ok s → b.length = c.blockLen → ok (c.encBlock s b).1 ∧ (c.encBlock s b).2 = E b
  length : ∀ {b}, b.length = c.blockLen → (E b).length = c.blockLen

/-- It also decrypts, and this undoes the encryption. -/
structure BlockCipher.Implements (c : BlockCipher σ) (ok : σ → Prop) (E D : List UInt8 → List UInt8) : Prop extends
    c.Encrypts ok E where
  dec : ∀ {s b}, ok s → b.length = c.blockLen → ok (c.decBlock s b).1 ∧ (c.decBlock s b).2 = D b
  inverts : ∀ {b}, b.length = c.blockLen → D (E b) = b

/-- The context of a cipher, and the memory that its `buf` points to. -/
structure CipherBuf (σ : Type*) where
  ctx : σ
  buf : List UInt8

/-! ## The modes -/

section Modes

variable (pl : Placing) (c : BlockCipher σ) (s : CipherBuf σ) (block : List UInt8)

/-- `cipher_cbc_encrypt` -/
def cipherCbcEncrypt : CipherBuf σ × List UInt8 :=
  let buf := xorBlock pl s.buf block
  let r := c.encBlock s.ctx buf
  (⟨r.1, r.2⟩, r.2)

/-- `cipher_cbc_decrypt` -/
def cipherCbcDecrypt : CipherBuf σ × List UInt8 :=
  let temp := block
  let r := c.decBlock s.ctx block
  (⟨r.1, temp⟩, xorBlock pl r.2 s.buf)

/-- `ctr_increment`: from the last byte on, until one is not zero. -/
def ctrIncrement : List UInt8 → ℕ → List UInt8
  | data, 0 => data
  | data, len + 1 =>
    let data := data.set len (data.getD len 0 + 1)
    if data.getD len 0 ≠ 0 then data else ctrIncrement data len

/-- `cipher_ctr_step` -/
def cipherCtrStep : CipherBuf σ × List UInt8 :=
  let r := c.encBlock s.ctx s.buf
  (⟨r.1, ctrIncrement s.buf c.blockLen⟩, r.2)

/-- `cipher_ctr_encrypt` -/
def cipherCtrEncrypt : CipherBuf σ × List UInt8 :=
  let r := cipherCtrStep c s
  (r.1, xorBlock pl block r.2)

/-- `cipher_ctr_decrypt` -/
def cipherCtrDecrypt : CipherBuf σ × List UInt8 := cipherCtrEncrypt pl c s block

/-- `ofb_step` -/
def ofbStep : CipherBuf σ :=
  let r := c.encBlock s.ctx s.buf
  ⟨r.1, r.2⟩

/-- `cipher_ofb_encrypt` -/
def cipherOfbEncrypt : CipherBuf σ × List UInt8 :=
  let s := ofbStep c s
  (s, xorBlock pl block s.buf)

/-- `cipher_ofb_decrypt` -/
def cipherOfbDecrypt : CipherBuf σ × List UInt8 := cipherOfbEncrypt pl c s block

end Modes

/-! ## The counter -/

/-- `ctr_increment` adds one to the big-endian number, and leaves what stands behind it. -/
theorem ctrIncrement_append (pre suf : List UInt8) : ∃ pre', ctrIncrement (pre ++ suf) pre.length = pre' ++ suf ∧
    pre'.length = pre.length ∧ beNat pre' = (beNat pre + 1) % 256 ^ pre.length := by
  induction pre using reverseRecOn generalizing suf with
  | nil => exact ⟨[], rfl, rfl, (mod_one _).symm⟩
  | append_singleton pre b ih =>
    have hb := b.toNat_lt
    have hlt := beNat_lt pre
    have hnext : (b + 1).toNat = (b.toNat + 1) % 256 := UInt8.toNat_add b 1
    have hget : (pre ++ [b] ++ suf).getD pre.length 0 = b := by simp
    have hset : (pre ++ [b] ++ suf).set pre.length (b + 1) = pre ++ [b + 1] ++ suf := by simp
    have hget' : (pre ++ [b + 1] ++ suf).getD pre.length 0 = b + 1 := by simp
    rw [length_append, length_singleton, ctrIncrement, hget, hset]
    simp only [hget', beNat_concat]
    by_cases hzero : b + 1 = 0
    · -- the byte wraps, and the carry goes on to the bytes before it
      have hwrap : b.toNat = 255 := by
        rw [hzero, UInt8.toNat_zero] at hnext
        omega
      obtain ⟨pre', heq, hlen, hval⟩ := ih ([b + 1] ++ suf)
      refine ⟨pre' ++ [b + 1], ?_, ?_, ?_⟩
      · rw [if_neg (by simpa using hzero), append_assoc, heq, append_assoc]
      · rw [length_append, hlen, length_singleton]
      · rw [beNat_concat, hval, hzero, hwrap, pow_succ, UInt8.toNat_zero, add_zero, mul_comm _ 256,
          ← mul_mod_mul_left]
        rfl
    · refine ⟨pre ++ [b + 1], if_pos hzero, by simp, ?_⟩
      have hstay : (b + 1).toNat = b.toNat + 1 := by
        have hne : (b + 1).toNat ≠ 0 := fun h => hzero (UInt8.toNat_inj.mp h)
        omega
      rw [beNat_concat, hstay, mod_eq_of_lt, add_assoc]
      rw [pow_succ]
      omega

theorem ctrIncrement_eq {data : List UInt8} {len : ℕ} (h : data.length = len) :
    (ctrIncrement data len).length = len ∧ beNat (ctrIncrement data len) = (beNat data + 1) % 256 ^ len := by
  subst h
  obtain ⟨data', heq, hlen, hval⟩ := ctrIncrement_append data []
  rw [append_nil, append_nil] at heq
  rw [heq]
  exact ⟨hlen, hval⟩

/-- A cipher that keeps the inputs it is given to encrypt. -/
def BlockCipher.logged (c : BlockCipher σ) : BlockCipher (σ × List (List UInt8)) where
  setKey s key := (c.setKey s.1 key, s.2)
  encBlock s b := (((c.encBlock s.1 b).1, s.2 ++ [b]), (c.encBlock s.1 b).2)
  decBlock s b := (((c.decBlock s.1 b).1, s.2), (c.decBlock s.1 b).2)
  keyLen := c.keyLen
  blockLen := c.blockLen

/-- The inputs that a sequence of blocks in counter mode gives to the cipher. -/
def ctrInputs (pl : Placing) (c : BlockCipher σ) (s : CipherBuf σ) (blocks : List (List UInt8)) : List (List UInt8) :=
  (eachBlock (cipherCtrEncrypt pl c.logged) ⟨(s.ctx, []), s.buf⟩ blocks).1.ctx.2

section Counter

variable (pl : Placing) (c : BlockCipher σ)

/-- The blocks that the cipher is given in counter mode. -/
theorem ctrInputs_log {s : CipherBuf (σ × List (List UInt8))} (h : s.buf.length = c.blockLen)
    (blocks : List (List UInt8)) : ∃ inputs,
      (eachBlock (cipherCtrEncrypt pl c.logged) s blocks).1.ctx.2 = s.ctx.2 ++ inputs ∧
      (∀ b ∈ inputs, b.length = c.blockLen) ∧
      inputs.map beNat = (List.range blocks.length).map fun i => (beNat s.buf + i) % 256 ^ c.blockLen := by
  induction blocks generalizing s with
  | nil => exact ⟨[], (append_nil _).symm, by simp, rfl⟩
  | cons b bs ih =>
    obtain ⟨hlen, hval⟩ := ctrIncrement_eq h
    obtain ⟨inputs, hlog, hlens, hvals⟩ := ih (s := (cipherCtrEncrypt pl c.logged s b).1) hlen
    refine ⟨s.buf :: inputs, ?_, ?_, ?_⟩
    · exact hlog.trans (append_assoc _ _ _)
    · exact forall_mem_cons.mpr ⟨h, hlens⟩
    · have hfirst : beNat s.buf = (beNat s.buf + 0) % 256 ^ c.blockLen := by
        rw [add_zero, mod_eq_of_lt (h ▸ beNat_lt s.buf)]
      have hrest : ∀ i, (beNat (ctrIncrement s.buf c.blockLen) + i) % 256 ^ c.blockLen =
          (beNat s.buf + (i + 1)) % 256 ^ c.blockLen := fun i => by
        rw [hval, mod_add_mod, add_assoc, add_comm 1]
      rw [map_cons, hvals, length_cons, range_succ_eq_map, map_cons, ← hfirst, map_map]
      exact congrArg _ (map_congr_left fun i _ => hrest i)

/-- **The inputs of counter mode** are the initial counter plus 0, 1, 2, … -/
theorem ctr_inputs {s : CipherBuf σ} (h : s.buf.length = c.blockLen) (blocks : List (List UInt8)) :
    (∀ b ∈ ctrInputs pl c s blocks, b.length = c.blockLen) ∧
      (ctrInputs pl c s blocks).map beNat =
        (List.range blocks.length).map fun i => (beNat s.buf + i) % 256 ^ c.blockLen := by
  obtain ⟨inputs, hlog, hlens, hvals⟩ := ctrInputs_log pl c (s := ⟨(s.ctx, []), s.buf⟩) h blocks
  rw [nil_append] at hlog
  rw [ctrInputs, hlog]
  exact ⟨hlens, hvals⟩

theorem ctr_inputs_nodup {s : CipherBuf σ} (h : s.buf.length = c.blockLen) {blocks : List (List UInt8)}
    (hle : blocks.length ≤ 256 ^ c.blockLen) : (ctrInputs pl c s blocks).Nodup := by
  apply List.Nodup.of_map beNat
  rw [(ctr_inputs pl c h blocks).2]
  refine List.Nodup.map_on (fun i hi j hj heq => ?_) nodup_range
  have hi' : i < 256 ^ c.blockLen := lt_of_lt_of_le (mem_range.mp hi) hle
  have hj' : j < 256 ^ c.blockLen := lt_of_lt_of_le (mem_range.mp hj) hle
  have hmod : i % 256 ^ c.blockLen = j % 256 ^ c.blockLen := Nat.ModEq.add_left_cancel' (beNat s.buf) heq
  rwa [mod_eq_of_lt hi', mod_eq_of_lt hj'] at hmod

end Counter

/-! ## Round trips -/

section RoundTrip

variable {c : BlockCipher σ} {ok : σ → Prop} {E D : List UInt8 → List UInt8}

/-- Two users of a cipher with the same key and the same buffer. -/
structure SameBuf (c : BlockCipher σ) (ok : σ → Prop) (s s' : CipherBuf σ) : Prop where
  ctx : ok s.ctx
  ctx' : ok s'.ctx
  buf : s.buf = s'.buf
  length : s.buf.length = c.blockLen

variable {s s' : CipherBuf σ} {blocks : List (List UInt8)} (hs : SameBuf c ok s s')
  (hblocks : ∀ b ∈ blocks, b.length = c.blockLen) (pl pl' : Placing)

include hs hblocks

theorem cbc_roundtrip (hc : c.Implements ok E D) :
    (eachBlock (cipherCbcDecrypt pl' c) s' (eachBlock (cipherCbcEncrypt pl c) s blocks).2).2 = blocks := by
  refine eachBlock_undoes (R := SameBuf c ok) (fun s s' b hs hb => ?_) hs hblocks
  have hlen : (xorBlock8 s.buf b).length = c.blockLen := by rw [length_xorBlock8 (by rw [hs.length, hb]), hs.length]
  obtain ⟨hok, henc⟩ := hc.enc hs.ctx hlen
  obtain ⟨hok', hdec⟩ := hc.dec hs.ctx' (hc.length hlen)
  simp only [cipherCbcEncrypt, cipherCbcDecrypt, xorBlock_eq, henc, hdec, hc.inverts hlen]
  refine ⟨?_, ⟨hok, hok', rfl, hc.length hlen⟩⟩
  rw [← hs.buf, xorBlock8_comm s.buf b, xorBlock8_cancel (le_of_eq (by rw [hs.length, hb]))]

theorem ctr_roundtrip (hc : c.Encrypts ok E) :
    (eachBlock (cipherCtrDecrypt pl' c) s' (eachBlock (cipherCtrEncrypt pl c) s blocks).2).2 = blocks := by
  refine eachBlock_undoes (R := SameBuf c ok) (fun s s' b hs hb => ?_) hs hblocks
  obtain ⟨hok, henc⟩ := hc.enc hs.ctx hs.length
  obtain ⟨hok', henc'⟩ := hc.enc hs.ctx' (hs.buf ▸ hs.length)
  have hlen := hc.length hs.length
  simp only [cipherCtrEncrypt, cipherCtrDecrypt, cipherCtrStep, xorBlock_eq, henc, henc']
  refine ⟨?_, ⟨hok, hok', by rw [hs.buf], (ctrIncrement_eq hs.length).1⟩⟩
  rw [← hs.buf, xorBlock8_cancel (le_of_eq (by rw [hlen, hb]))]

theorem ofb_roundtrip (hc : c.Encrypts ok E) :
    (eachBlock (cipherOfbDecrypt pl' c) s' (eachBlock (cipherOfbEncrypt pl c) s blocks).2).2 = blocks := by
  refine eachBlock_undoes (R := SameBuf c ok) (fun s s' b hs hb => ?_) hs hblocks
  obtain ⟨hok, henc⟩ := hc.enc hs.ctx hs.length
  obtain ⟨hok', henc'⟩ := hc.enc hs.ctx' (hs.buf ▸ hs.length)
  have hlen := hc.length hs.length
  simp only [cipherOfbEncrypt, cipherOfbDecrypt, ofbStep, xorBlock_eq, henc, henc']
  refine ⟨?_, ⟨hok, hok', by rw [hs.buf], hlen⟩⟩
  rw [← hs.buf, xorBlock8_cancel (le_of_eq (by rw [hlen, hb]))]

end RoundTrip

/-- **The chaining modes decrypt what they encrypt**, with the same initial buffer, in every mode; and in counter mode
the cipher sees the initial counter plus 0, 1, 2, …, so that no input repeats while the counter goes round once. -/
theorem modes_invert {c : BlockCipher σ} {ok : σ → Prop} {E D : List UInt8 → List UInt8} (hc : c.Implements ok E D)
    {ctx ctx' : σ} (hctx : ok ctx) (hctx' : ok ctx') (iv : List UInt8) (hiv : iv.length = c.blockLen)
    (blocks : List (List UInt8)) (hblocks : ∀ b ∈ blocks, b.length = c.blockLen) (pl pl' : Placing) :
    (eachBlock (cipherCbcDecrypt pl' c) ⟨ctx', iv⟩ (eachBlock (cipherCbcEncrypt pl c) ⟨ctx, iv⟩ blocks).2).2 = blocks ∧
    (eachBlock (cipherCtrDecrypt pl' c) ⟨ctx', iv⟩ (eachBlock (cipherCtrEncrypt pl c) ⟨ctx, iv⟩ blocks).2).2 = blocks ∧
    (eachBlock (cipherOfbDecrypt pl' c) ⟨ctx', iv⟩ (eachBlock (cipherOfbEncrypt pl c) ⟨ctx, iv⟩ blocks).2).2 = blocks ∧
    (ctrInputs pl c ⟨ctx, iv⟩ blocks).map beNat =
      (List.range blocks.length).map (fun i => (beNat iv + i) % 256 ^ c.blockLen) ∧
    (blocks.length ≤ 256 ^ c.blockLen → (ctrInputs pl c ⟨ctx, iv⟩ blocks).Nodup) := by
  have hs : SameBuf c ok ⟨ctx, iv⟩ ⟨ctx', iv⟩ := ⟨hctx, hctx', rfl, hiv⟩
  have hiv' : (CipherBuf.mk ctx iv).buf.length = c.blockLen := hiv
  exact ⟨cbc_roundtrip hs hblocks pl pl' hc, ctr_roundtrip hs hblocks pl pl' hc.toEncrypts,
    ofb_roundtrip hs hblocks pl pl' hc.toEncrypts, (ctr_inputs pl c hiv' blocks).2, ctr_inputs_nodup pl c hiv'⟩

def byteCipher : BlockCipher UInt8 where
  setKey _ key := key.getD 0 0
  encBlock k b := (k, b.map (· + k))
  decBlock k b := (k, b.map (· - k))
  keyLen := 1
  blockLen := 1

theorem byteCipher_implements : byteCipher.Implements (· = 7) (·.map (· + 7)) (·.map (· - 7)) where
  enc := by rintro s b rfl -; exact ⟨rfl, rfl⟩
  dec := by rintro s b rfl -; exact ⟨rfl, rfl⟩
  length h := by rw [length_map, h]
  inverts _ := by
    rw [map_map]
    exact (map_congr_left fun x _ => UInt8.add_sub_cancel x 7).trans (map_id _)

theorem modes_invert_byte :
    (eachBlock (cipherCbcDecrypt ⟨false, false⟩ byteCipher) ⟨7, [9]⟩
      (eachBlock (cipherCbcEncrypt ⟨false, false⟩ byteCipher) ⟨7, [9]⟩ [[1], [2], [3]]).2).2 = [[1], [2], [3]] ∧
    (ctrInputs ⟨false, false⟩ byteCipher ⟨7, [255]⟩ [[1], [2], [3]]).map beNat = [255, 0, 1] :=
  have h := fun iv hiv => modes_invert byteCipher_implements rfl rfl iv hiv [[1], [2], [3]] (by decide) ⟨false, false⟩
    ⟨false, false⟩
  ⟨(h [9] rfl).1, (h [255] rfl).2.2.2.1⟩

end Bertos
