import Bertos.Lib.Blocks
import Bertos.Sec.Kdf
import Bertos.Sec.Mac
import Bertos.Sec.Util

/-!
# PBKDF2 (`sec/kdf/pbkdf2.c`)

Each block is the XOR of iterates of the MAC, which start from the salt with the number of the block. `pbkdf2Block` is
the block as RFC 2898 defines it; `pbkdf2_produces` says that `PBKDF2_next` produces these blocks in order, and
`pbkdf2_stream` what a user of `kdf_read` gets.
-/

namespace Bertos

open Blocks List

variable {σ : Type*}

/-! ## The functions -/

/-- `PBKDF2_Context` without its `Kdf` part. -/
structure Pbkdf2Context (σ : Type*) where
  mac : σ
  block : List UInt8
  c : UInt32
  iterations : UInt32
  saltLen : ℕ
  salt : List UInt8

section Functions

variable (pl : Placing) (m : Mac σ)

/-- `PBKDF2_begin` -/
def pbkdf2Begin (s : KdfContext (Pbkdf2Context σ)) (pwd salt : List UInt8) : KdfContext (Pbkdf2Context σ) where
  block := none
  toRead := 0
  ctx := { s.ctx with mac := m.setKey s.ctx.mac pwd, saltLen := salt.length, salt := splice s.ctx.salt 0 salt, c := 0 }

/-- The loop of `PBKDF2_next`, for so many turns: the context of the MAC, `last` and the block. -/
def pbkdf2Loop : ℕ → σ × List UInt8 × List UInt8 → σ × List UInt8 × List UInt8
  | 0, s => s
  | turns + 1, (s, last, block) =>
    let r := m.run s [last]
    pbkdf2Loop turns (r.1, r.2, splice block 0 (xorBlock pl (block.take m.digestLen) r.2))

/-- `PBKDF2_next` -/
def pbkdf2Next (s : KdfContext (Pbkdf2Context σ)) : KdfContext (Pbkdf2Context σ) :=
  let c := s.ctx.c + 1
  let bec := storeWord pl.big (be32ToCpu pl.big c)
  let r := m.run s.ctx.mac [s.ctx.salt.take s.ctx.saltLen, bec]
  let (mac, _, block) := pbkdf2Loop pl m (s.ctx.iterations - 1).toNat (r.1, r.2, splice s.ctx.block 0 r.2)
  ⟨some block, m.digestLen, { s.ctx with mac := mac, block := block, c := c }⟩

/-- The key derivation function that `PBKDF2_init` sets up. -/
def pbkdf2 : Kdf (Pbkdf2Context σ) where
  begin := pbkdf2Begin m
  next := pbkdf2Next pl m

end Functions

/-! ## RFC 2898 -/

section Spec

variable (M : List UInt8 → List UInt8) (salt : List UInt8)

/-- The iterates of block `i`. -/
def pbkdf2Iterate (i : ℕ) : ℕ → List UInt8
  | 0 => M (salt ++ beBytesOf 4 i)
  | k + 1 => M (pbkdf2Iterate i k)

/-- Block `i`: the XOR of the first `count` iterates. -/
def pbkdf2Block (len count i : ℕ) : List UInt8 :=
  (List.range count).foldl (fun t k => xorBlock8 t (pbkdf2Iterate M salt i k)) (List.replicate len 0)

variable {M} {len : ℕ} (hM : ∀ msg, (M msg).length = len)
include hM

theorem length_pbkdf2Iterate (i k : ℕ) : (pbkdf2Iterate M salt i k).length = len := by
  cases k with
  | zero | succ k => exact hM _

theorem length_pbkdf2Block (count i : ℕ) : (pbkdf2Block M salt len count i).length = len := by
  induction count with
  | zero => exact length_replicate
  | succ count ih =>
    have hlen : (pbkdf2Block M salt len count i).length = (pbkdf2Iterate M salt i count).length := by
      rw [ih, length_pbkdf2Iterate salt hM]
    rw [pbkdf2Block, range_succ, foldl_append]
    exact (length_xorBlock8 hlen).trans ih

theorem pbkdf2Block_one (i : ℕ) : pbkdf2Block M salt len 1 i = pbkdf2Iterate M salt i 0 := by
  have hzero : ∀ l : List UInt8, xorBlock8 (replicate l.length 0) l = l := by
    intro l
    induction l with
    | nil => rfl
    | cons x l ih => exact congrArg₂ cons UInt8.zero_xor ih
  have h := hzero (pbkdf2Iterate M salt i 0)
  rwa [length_pbkdf2Iterate salt hM] at h

end Spec

theorem pbkdf2Block_succ (M : List UInt8 → List UInt8) (salt : List UInt8) (len count i : ℕ) :
    pbkdf2Block M salt len (count + 1) i =
      xorBlock8 (pbkdf2Block M salt len count i) (pbkdf2Iterate M salt i count) := by
  rw [pbkdf2Block, range_succ, foldl_append]
  rfl

/-! ## The blocks -/

/-- What stays true of a context after `begin`: the MAC has the password, the salt is in its buffer, and the count is
that of the blocks. -/
structure Pbkdf2Context.Inv (ready : σ → Prop) (salt : List UInt8) (iterations : UInt32) (i : ℕ)
    (ctx : Pbkdf2Context σ) : Prop where
  mac : ready ctx.mac
  block : ctx.block.length = 20
  c : ctx.c = UInt32.ofNat i
  iterations : ctx.iterations = iterations
  saltLen : ctx.salt.length = 48
  salt : ctx.salt.take ctx.saltLen = salt

section Blocks

variable (pl : Placing) {m : Mac σ} {ok : σ → Prop} {fits : List UInt8 → Prop} {ready : List UInt8 → σ → Prop}
  {valid : List UInt8 → Prop} {M : List UInt8 → List UInt8 → List UInt8} {pwd salt : List UInt8}

/-- The loop adds its iterations to the block. -/
theorem pbkdf2Loop_block (hm : m.Computes ok fits ready valid M) (hlen : m.digestLen ≤ 20)
    (hdigest : ∀ d : List UInt8, d.length = m.digestLen → valid d) (i turns k : ℕ) {s : σ} {block : List UInt8}
    (hs : ready pwd s) (hblock : block.length = 20)
    (htake : block.take m.digestLen = pbkdf2Block (M pwd) salt m.digestLen (k + 1) i) :
    ∃ s' last' block', pbkdf2Loop pl m turns (s, pbkdf2Iterate (M pwd) salt i k, block) = (s', last', block') ∧
      ready pwd s' ∧ block'.length = 20 ∧
      block'.take m.digestLen = pbkdf2Block (M pwd) salt m.digestLen (k + 1 + turns) i := by
  induction turns generalizing k s block with
  | zero => exact ⟨s, _, block, rfl, hs, hblock, htake⟩
  | succ turns ih =>
    have hM := hm.length pwd
    have hflat : [pbkdf2Iterate (M pwd) salt i k].flatten = pbkdf2Iterate (M pwd) salt i k := flatten_singleton
    obtain ⟨hs', hlast⟩ := hm.run [pbkdf2Iterate (M pwd) salt i k] hs
      (by rw [hflat]; exact hdigest _ (length_pbkdf2Iterate salt hM i k))
    rw [hflat] at hlast
    have hxor : xorBlock8 (block.take m.digestLen) (pbkdf2Iterate (M pwd) salt i (k + 1)) =
        pbkdf2Block (M pwd) salt m.digestLen (k + 1 + 1) i := by
      rw [htake, pbkdf2Block_succ _ _ _ (k + 1)]
    have hxlen := length_pbkdf2Block salt hM (k + 1 + 1) i
    have hbuf : (splice block 0 (pbkdf2Block (M pwd) salt m.digestLen (k + 1 + 1) i)).length = 20 := by
      rw [length_splice (by rw [hblock, hxlen]; omega), hblock]
    have htake' : (splice block 0 (pbkdf2Block (M pwd) salt m.digestLen (k + 1 + 1) i)).take m.digestLen =
        pbkdf2Block (M pwd) salt m.digestLen (k + 1 + 1) i := by
      have h := take_splice (d := pbkdf2Block (M pwd) salt m.digestLen (k + 1 + 1) i) (Nat.zero_le block.length)
      rwa [hxlen, Nat.zero_add] at h
    obtain ⟨s2, last2, block2, hloop, hs2, hblock2, htake2⟩ := ih (k + 1) hs' hbuf htake'
    refine ⟨s2, last2, block2, ?_, hs2, hblock2, by rw [htake2]; congr 1; omega⟩
    rw [← hloop, pbkdf2Loop]
    simp only [hlast, xorBlock_eq]
    rw [← hxor]
    rfl

/-- **The blocks**: `PBKDF2_next` produces the blocks of RFC 2898 in order. -/
theorem pbkdf2_produces (pwd salt : List UInt8) (hm : m.Computes ok fits ready valid M) (hpos : 0 < m.digestLen)
    (hlen : m.digestLen ≤ 20)
    (hdigest : ∀ d : List UInt8, d.length = m.digestLen → valid d) (hsalt : ∀ i, valid (salt ++ beBytesOf 4 i))
    {iterations : UInt32} (hit : 1 ≤ iterations) :
    (pbkdf2 pl m).Produces (Pbkdf2Context.Inv (ready pwd) salt iterations)
      fun i => pbkdf2Block (M pwd) salt m.digestLen iterations.toNat (i + 1) where
  next {i s} hs := by
    have hM := hm.length pwd
    have hc : s.ctx.c + 1 = UInt32.ofNat (i + 1) := by
      rw [hs.c, UInt32.ofNat_add]
      rfl
    have hbec : storeWord pl.big (be32ToCpu pl.big (s.ctx.c + 1)) = beBytesOf 4 (i + 1) := by
      rw [storeWord_be32ToCpu, storeWord_true, hc, UInt32.toNat_ofNat']
      exact beBytesOf_mod 4 (i + 1)
    have hflat : [salt, beBytesOf 4 (i + 1)].flatten = salt ++ beBytesOf 4 (i + 1) :=
      congrArg (salt ++ ·) (append_nil _)
    obtain ⟨hmac, hlast⟩ := hm.run [salt, beBytesOf 4 (i + 1)] hs.mac (by rw [hflat]; exact hsalt _)
    rw [hflat] at hlast
    have hfirst : M pwd (salt ++ beBytesOf 4 (i + 1)) = pbkdf2Iterate (M pwd) salt (i + 1) 0 := rfl
    have hbuf : (splice s.ctx.block 0 (pbkdf2Iterate (M pwd) salt (i + 1) 0)).length = 20 := by
      rw [length_splice (by rw [hs.block, length_pbkdf2Iterate salt hM]; omega), hs.block]
    have htake : (splice s.ctx.block 0 (pbkdf2Iterate (M pwd) salt (i + 1) 0)).take m.digestLen =
        pbkdf2Block (M pwd) salt m.digestLen 1 (i + 1) := by
      have h := take_splice (d := pbkdf2Iterate (M pwd) salt (i + 1) 0) (Nat.zero_le s.ctx.block.length)
      rw [length_pbkdf2Iterate salt hM, Nat.zero_add] at h
      rw [pbkdf2Block_one salt hM, h]
      rfl
    obtain ⟨mac', last', block', hloop, hmac', hblock', htake'⟩ :=
      pbkdf2Loop_block pl hm hlen hdigest (i + 1) (iterations - 1).toNat 0 hmac hbuf htake
    have hturns : 0 + 1 + (iterations - 1).toNat = iterations.toNat := by
      rw [UInt32.toNat_sub_of_le _ _ hit]
      have h1 : 1 ≤ iterations.toNat := hit
      show 0 + 1 + (iterations.toNat - 1) = _
      omega
    rw [hturns] at htake'
    have hnext : (pbkdf2 pl m).next s =
        ⟨some block', m.digestLen, { s.ctx with mac := mac', block := block', c := s.ctx.c + 1 }⟩ := by
      show pbkdf2Next pl m s = _
      simp only [pbkdf2Next, hbec, hs.salt, hs.iterations, hlast, hfirst, hloop]
    rw [hnext]
    refine ⟨⟨hmac', hblock', hc, hs.iterations, hs.saltLen, hs.salt⟩, (length_pbkdf2Block salt hM _ _).symm,
      fun _ => ?_⟩
    exact ⟨block'.drop m.digestLen, by rw [← htake', take_append_drop]⟩
  nonempty i := by
    intro h
    have hl := length_pbkdf2Block salt (hm.length pwd) iterations.toNat (i + 1)
    rw [h] at hl
    exact absurd hl (by rw [length_nil]; omega)

end Blocks

/-- **PBKDF2 is the stream of RFC 2898**: after `begin`, whatever lengths are read, the calls return portions of these
lengths, which together are a beginning of `T₁ ‖ T₂ ‖ …`. Only a MAC without a digest fails, by assertion. -/
theorem pbkdf2_stream (pl : Placing) {m : Mac σ} {ok : σ → Prop} {ready : List UInt8 → σ → Prop}
    {M : List UInt8 → List UInt8 → List UInt8} (hm : m.Computes ok (fun _ => True) ready (fun _ => True) M)
    (hlen : m.digestLen ≤ 20) {s : KdfContext (Pbkdf2Context σ)} (hok : ok s.ctx.mac) (hblock : s.ctx.block.length = 20)
    (hbuf : s.ctx.salt.length = 48) (hit : 1 ≤ s.ctx.iterations) (pwd salt : List UInt8) (hsalt : salt.length ≤ 48)
    (lens : List ℕ) :
    (0 < m.digestLen → ∃ outs n, kdfReads (pbkdf2 pl m) ((pbkdf2 pl m).begin s pwd salt) lens = some outs ∧
      outs.map List.length = lens ∧
      outs.flatten <+:
        blocksFrom (fun i => pbkdf2Block (M pwd) salt m.digestLen s.ctx.iterations.toNat (i + 1)) 0 n) ∧
    (m.digestLen = 0 → lens ≠ [] → kdfReads (pbkdf2 pl m) ((pbkdf2 pl m).begin s pwd salt) lens = none) := by
  constructor
  · intro hpos
    have hk := pbkdf2_produces pl pwd salt hm hpos hlen (fun _ _ => trivial) (fun _ => trivial) hit
    have htake : (splice s.ctx.salt 0 salt).take salt.length = salt := by
      have h := take_splice (d := salt) (Nat.zero_le s.ctx.salt.length)
      rwa [Nat.zero_add] at h
    have hbegin : Kdf.At (Pbkdf2Context.Inv (ready pwd) salt s.ctx.iterations) 0 []
        ((pbkdf2 pl m).begin s pwd salt) :=
      ⟨⟨hm.setKey hok trivial, hblock, rfl, rfl, (length_splice (by omega)).trans hbuf, htake⟩, rfl, absurd rfl⟩
    exact kdfReads_prefix hk lens hbegin
  · intro hzero hne
    obtain ⟨len, lens, rfl⟩ := exists_cons_of_ne_nil hne
    have hread : kdfRead (pbkdf2 pl m) ((pbkdf2 pl m).begin s pwd salt) len = none := by
      rw [kdfRead, if_pos]
      exact hzero
    rw [kdfReads, hread]
    rfl

/-- The XOR of the bytes of the key and of the message, as a MAC. -/
def byteMac : Mac (UInt8 × UInt8) where
  setKey _ key := (key.foldl (· ^^^ ·) 0, 0)
  begin s := (s.1, s.1)
  update s d := (s.1, d.foldl (· ^^^ ·) s.2)
  final s := (s, [s.2])
  digestLen := 1
  keyLen := 4

theorem byteMac_computes : byteMac.Computes (fun _ => True) (fun _ => True) (fun key s => s.1 = key.foldl (· ^^^ ·) 0)
    (fun _ => True) fun key msg => [msg.foldl (· ^^^ ·) (key.foldl (· ^^^ ·) 0)] where
  setKey _ _ := rfl
  run {s key} chunks hs _ := by
    have hfold : ∀ (cs : List (List UInt8)) (t : UInt8 × UInt8),
        cs.foldl byteMac.update t = (t.1, cs.flatten.foldl (· ^^^ ·) t.2) := by
      intro cs
      induction cs with
      | nil => exact fun t => rfl
      | cons c cs ih =>
        intro t
        rw [foldl_cons, ih, flatten_cons, foldl_append]
        rfl
    show (chunks.foldl byteMac.update (s.1, s.1)).1 = _ ∧ [(chunks.foldl byteMac.update (s.1, s.1)).2] = _
    rw [hfold, hs]
    exact ⟨rfl, rfl⟩
  length _ _ := rfl

theorem pbkdf2_stream_bytes :
    ∃ outs n, kdfReads (pbkdf2 ⟨false, false⟩ byteMac) ((pbkdf2 ⟨false, false⟩ byteMac).begin
        ⟨none, 0, ⟨(0, 0), List.replicate 20 0, 7, 5, 0, List.replicate 48 0⟩⟩ [1, 2] [3]) [1, 0, 2] = some outs ∧
      outs.map List.length = [1, 0, 2] ∧
      outs.flatten <+: blocksFrom (fun i => pbkdf2Block
        (fun msg => [msg.foldl (· ^^^ ·) ([1, 2].foldl (· ^^^ ·) 0)]) [3] 1 5 (i + 1)) 0 n :=
  (pbkdf2_stream ⟨false, false⟩ byteMac_computes (by decide)
    (s := ⟨none, 0, ⟨(0, 0), replicate 20 0, 7, 5, 0, replicate 48 0⟩⟩) trivial rfl rfl (by decide) [1, 2] [3]
    (by decide) [1, 0, 2]).1 (by decide)

end Bertos
