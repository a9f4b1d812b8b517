import Bertos.Lib.Words
import Mathlib.Logic.Function.Iterate

/-!
# Blowfish and TEA (`sec/cipher/blowfish.c`, `algo/tea.c`)

Both ciphers decrypt by the rounds of the encryption in the opposite order. Blowfish runs the same rounds with the
subkeys reversed (`blowfishDec_eq`), which undoes them for every round function (`feistel_reverse`). A round of TEA
changes the sum together with the block, and a round of the decryption undoes both (`teaRun_teaRun`).
-/

namespace Bertos

open List

/-- The two words of a block, in memory or in registers. -/
abbrev WordPair := UInt32 × UInt32

section Order

variable (big : Bool) (w : UInt32)

theorem swab32_swab32 : swab32 (swab32 w) = w := by
  rw [show swab32 w = wordOf _ _ _ _ from rfl, swab32_wordOf]
  exact wordOf_bytes w

theorem be32ToCpu_be32ToCpu : be32ToCpu big (be32ToCpu big w) = w := by
  cases big
  · exact swab32_swab32 w
  · rfl

theorem le32ToCpu_le32ToCpu : le32ToCpu big (le32ToCpu big w) = w := by
  cases big
  · rfl
  · exact swab32_swab32 w

end Order

/-! ## Blowfish -/

structure BlowfishContext where
  S : Fin 4 → Fin 256 → UInt32
  P : Fin 18 → UInt32

/-- `F` -/
def blowfishF (S : Fin 4 → Fin 256 → UInt32) (x : UInt32) : UInt32 :=
  let box (i : Fin 4) (b : UInt8) : UInt32 := S i ⟨b.toNat, b.toNat_lt⟩
  ((box 0 (x >>> 24).toUInt8 + box 1 (x >>> 16).toUInt8) ^^^ box 2 (x >>> 8).toUInt8) + box 3 x.toUInt8

section Rounds

variable (F : UInt32 → UInt32)

/-- The body of the loops, on the halves `Xl` and `Xr` of the block. -/
def feistelRound (X : WordPair) (k : UInt32) : WordPair :=
  let Xl := X.1 ^^^ k
  let Xr := F Xl ^^^ X.2
  (Xr, Xl)

/-- What follows the loops. -/
def feistelLast (X : WordPair) (k k' : UInt32) : WordPair := (X.2 ^^^ k', X.1 ^^^ k)

/-- All subkeys, the last two after the loop. -/
def feistel : List UInt32 → WordPair → WordPair
  | [k, k'], X => feistelLast X k k'
  | k :: ks, X => feistel ks (feistelRound F X k)
  | [], X => X

theorem xor_xor_self (x k : UInt32) : x ^^^ k ^^^ k = x := by
  rw [UInt32.xor_assoc, UInt32.xor_self, UInt32.xor_zero]

/-- The first round with the reversed subkeys undoes the last round. -/
theorem feistelRound_last (X : WordPair) (k a b : UInt32) :
    feistelRound F (feistelLast (feistelRound F X k) a b) b = feistelLast X k a := by
  simp only [feistelRound, feistelLast, xor_xor_self]
  rw [← UInt32.xor_assoc, ← UInt32.xor_assoc, UInt32.xor_self, UInt32.zero_xor]

theorem feistel_append (ks : List UInt32) (a b : UInt32) (X : WordPair) :
    feistel F (ks ++ [a, b]) X = feistelLast (ks.foldl (feistelRound F) X) a b := by
  induction ks generalizing X with
  | nil => rfl
  | cons k ks ih =>
    rw [foldl_cons, ← ih]
    obtain _ | ⟨_, _ | _⟩ := ks <;> rfl

/-- **Reversed subkeys** decrypt, whatever the round function. -/
theorem feistel_reverse (ks : List UInt32) (a b : UInt32) (X : WordPair) :
    feistel F (ks ++ [a, b]).reverse (feistel F (ks ++ [a, b]) X) = X := by
  rw [feistel_append]
  induction ks using reverseRecOn generalizing a b with
  | nil => exact Prod.ext (xor_xor_self _ _) (xor_xor_self _ _)
  | append_singleton ks k ih =>
    have hlast := ih k a
    rw [reverse_append] at hlast
    rw [foldl_append, foldl_cons, foldl_nil, reverse_append, reverse_append]
    exact (congrArg (feistel F (a :: k :: ks.reverse)) (feistelRound_last F _ k a b)).trans hlast

end Rounds

section Blowfish

variable (big : Bool) (ctx : BlowfishContext) (block : WordPair)

def beBlock : WordPair := (be32ToCpu big block.1, be32ToCpu big block.2)

/-- `blowfish_enc` -/
def blowfishEnc : WordPair :=
  let X := ((List.finRange 18).take 16).foldl (fun X i => feistelRound (blowfishF ctx.S) X (ctx.P i))
    (beBlock big block)
  beBlock big (feistelLast X (ctx.P 16) (ctx.P 17))

/-- `blowfish_dec`, with the loop from `N + 1` down to 2. -/
def blowfishDec : WordPair :=
  let X := ((List.finRange 18).drop 2).reverse.foldl (fun X i => feistelRound (blowfishF ctx.S) X (ctx.P i))
    (beBlock big block)
  beBlock big (feistelLast X (ctx.P 1) (ctx.P 0))

theorem beBlock_beBlock : beBlock big (beBlock big block) = block :=
  Prod.ext (be32ToCpu_be32ToCpu big _) (be32ToCpu_be32ToCpu big _)

def BlowfishContext.keys : List UInt32 := (List.finRange 18).map ctx.P

theorem blowfishEnc_eq :
    blowfishEnc big ctx block = beBlock big (feistel (blowfishF ctx.S) ctx.keys (beBlock big block)) := rfl

theorem blowfishDec_eq :
    blowfishDec big ctx block = beBlock big (feistel (blowfishF ctx.S) ctx.keys.reverse (beBlock big block)) := rfl

end Blowfish

/-! ## TEA -/

/-- The block and the running sum. -/
structure TeaState where
  y : UInt32
  z : UInt32
  sum : UInt32

def teaDelta : UInt32 := 0x9E3779B9

section Tea

variable (big : Bool) (k : Fin 4 → UInt32)

/-- `tea_func`, with two words of the key. -/
def teaFunc (x sum k₀ k₁ : UInt32) : UInt32 :=
  ((x <<< 4) + le32ToCpu big k₀) ^^^ (x + sum) ^^^ ((x >>> 5) + le32ToCpu big k₁)

def teaEncRound (s : TeaState) : TeaState :=
  let sum := s.sum + teaDelta
  let y := s.y + teaFunc big s.z sum (k 0) (k 1)
  let z := s.z + teaFunc big y sum (k 2) (k 3)
  ⟨y, z, sum⟩

def teaDecRound (s : TeaState) : TeaState :=
  let z := s.z - teaFunc big s.y s.sum (k 2) (k 3)
  let y := s.y - teaFunc big z s.sum (k 0) (k 1)
  ⟨y, z, s.sum - teaDelta⟩

/-- The 32 rounds of both directions. -/
def teaRun (round : TeaState → TeaState) (sum : UInt32) (v : WordPair) : WordPair :=
  let s := round^[32] ⟨le32ToCpu big v.1, le32ToCpu big v.2, sum⟩
  (le32ToCpu big s.y, le32ToCpu big s.z)

/-- `tea_enc` -/
def teaEnc (v : WordPair) : WordPair := teaRun big (teaEncRound big k) 0 v

/-- `tea_dec` -/
def teaDec (v : WordPair) : WordPair := teaRun big (teaDecRound big k) (teaDelta * 32) v

/-- Rounds undo rounds if they also lead the sum back to where the others start. -/
theorem teaRun_teaRun {f g : TeaState → TeaState} {d : UInt32 → UInt32} {a b : UInt32} (hinv : Function.LeftInverse g f)
    (hf : Function.Semiconj TeaState.sum f d) (hd : d^[32] a = b) (v : WordPair) :
    teaRun big g b (teaRun big f a v) = v := by
  have hback := hinv.iterate 32 ⟨le32ToCpu big v.1, le32ToCpu big v.2, a⟩
  have hsum := (hf.iterate_right 32 ⟨le32ToCpu big v.1, le32ToCpu big v.2, a⟩).trans hd
  simp only [teaRun, le32ToCpu_le32ToCpu]
  generalize f^[32] _ = s at hsum hback
  rw [← hsum, hback]
  exact Prod.ext (le32ToCpu_le32ToCpu big _) (le32ToCpu_le32ToCpu big _)

theorem teaDec_teaEnc (v : WordPair) : teaDec big k (teaEnc big k v) = v := by
  have hinv : Function.LeftInverse (teaDecRound big k) (teaEncRound big k) := fun s => by
    simp only [teaDecRound, teaEncRound, UInt32.add_sub_cancel]
  exact teaRun_teaRun big hinv (d := (· + teaDelta)) (fun _ => rfl) (by decide) v

theorem teaEnc_teaDec (v : WordPair) : teaEnc big k (teaDec big k v) = v := by
  have hinv : Function.LeftInverse (teaEncRound big k) (teaDecRound big k) := fun s => by
    simp only [teaDecRound, teaEncRound, UInt32.sub_add_cancel]
  exact teaRun_teaRun big hinv (d := (· - teaDelta)) (fun _ => rfl) (by decide) v

end Tea

/-- **Blowfish and TEA invert exactly**, in both directions: for every content of the subkeys and of the boxes, every
key and every block, on machines of both byte orders. -/
theorem feistel_ciphers_invert (big : Bool) :
    (∀ ctx block, blowfishDec big ctx (blowfishEnc big ctx block) = block ∧
      blowfishEnc big ctx (blowfishDec big ctx block) = block) ∧
    ∀ k v, teaDec big k (teaEnc big k v) = v ∧ teaEnc big k (teaDec big k v) = v := by
  refine ⟨fun ctx block => ⟨?_, ?_⟩, fun k v => ⟨teaDec_teaEnc big k v, teaEnc_teaDec big k v⟩⟩
  · have hinv := feistel_reverse (blowfishF ctx.S) (ctx.keys.take 16) (ctx.P 16) (ctx.P 17) (beBlock big block)
    rw [blowfishDec_eq, blowfishEnc_eq, beBlock_beBlock]
    exact (congrArg (beBlock big) hinv).trans (beBlock_beBlock big block)
  · have hinv := feistel_reverse (blowfishF ctx.S) (ctx.keys.reverse.take 16) (ctx.P 1) (ctx.P 0) (beBlock big block)
    rw [blowfishDec_eq, blowfishEnc_eq, beBlock_beBlock]
    exact (congrArg (beBlock big) hinv).trans (beBlock_beBlock big block)

end Bertos
