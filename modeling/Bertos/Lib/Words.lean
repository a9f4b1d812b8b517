import Bertos.Lib.BigEndian
import Bertos.Lib.Bytes

/-!
# Words in memory

A word of 32 bits stands in memory as four bytes, in the byte order of the machine. `loadWord` and `storeWord` go
between the two, and undo each other (`storeWord_loadWord`, `loadWord_storeWord`); the bytes of an XOR of words are the
XOR of their bytes (`storeWord_xor`).
-/

namespace Bertos

open List UInt8

/-- The word with these bytes, the low one first. -/
def wordOf (a b c d : UInt8) : UInt32 := a.toUInt32 ||| b.toUInt32 <<< 8 ||| c.toUInt32 <<< 16 ||| d.toUInt32 <<< 24

/-- The word that stands at an address, where the memory has these four bytes. -/
def loadWord (big : Bool) (a b c d : UInt8) : UInt32 := if big then wordOf d c b a else wordOf a b c d

def storeWord (big : Bool) (w : UInt32) : List UInt8 :=
  if big then [(w >>> 24).toUInt8, (w >>> 16).toUInt8, (w >>> 8).toUInt8, w.toUInt8]
  else [w.toUInt8, (w >>> 8).toUInt8, (w >>> 16).toUInt8, (w >>> 24).toUInt8]

def rotl32 (value bits : UInt32) : UInt32 := value <<< bits ||| value >>> (32 - bits)

/-! ## The bytes of a word -/

section Bytes

variable (a b c d : UInt8) (w : UInt32)

/-- The value of a word of four bytes. -/
theorem toNat_wordOf : (wordOf a b c d).toNat = a.toNat + 256 * b.toNat + 65536 * c.toNat + 16777216 * d.toNat := by
  have ha := a.toNat_lt
  have hb := b.toNat_lt
  have hc := c.toNat_lt
  have hor : ∀ x y k : ℕ, x < 2 ^ k → x ||| y <<< k = y <<< k + x := fun x y k h => by
    rw [Nat.or_comm]
    exact (Nat.shiftLeft_add_eq_or_of_lt h y).symm
  have hshift : ∀ (x : UInt8) (n : UInt32) (k : ℕ), n.toNat = k → k ≤ 24 →
      (x.toUInt32 <<< n).toNat = x.toNat <<< k := by
    intro x n k hn hk
    have hx := x.toNat_lt
    have hle : x.toNat <<< k ≤ x.toNat <<< 24 := by
      rw [Nat.shiftLeft_eq, Nat.shiftLeft_eq]
      exact Nat.mul_le_mul_left _ (Nat.pow_le_pow_right (by decide) hk)
    rw [UInt32.toNat_shiftLeft, hn, Nat.mod_eq_of_lt (show k < 32 by omega), toNat_toUInt32]
    exact Nat.mod_eq_of_lt (by omega)
  rw [wordOf, UInt32.toNat_or, UInt32.toNat_or, UInt32.toNat_or, hshift b 8 8 rfl (by decide),
    hshift c 16 16 rfl (by decide), hshift d 24 24 rfl (by decide), toNat_toUInt32, hor _ _ 8 (by omega),
    hor _ _ 16 (by omega), hor _ _ 24 (by omega)]
  omega

theorem toNat_byte (n : UInt32) (k : ℕ) (hn : n.toNat = k) (hk : k < 32) :
    (w >>> n).toUInt8.toNat = w.toNat >>> k % 256 := by
  rw [UInt32.toNat_toUInt8, UInt32.toNat_shiftRight, hn, Nat.mod_eq_of_lt hk]

@[simp] theorem byte_wordOf : (wordOf a b c d).toUInt8 = a ∧ (wordOf a b c d >>> 8).toUInt8 = b ∧
    (wordOf a b c d >>> 16).toUInt8 = c ∧ (wordOf a b c d >>> 24).toUInt8 = d := by
  have ha := a.toNat_lt
  have hb := b.toNat_lt
  have hc := c.toNat_lt
  have hd := d.toNat_lt
  refine ⟨?_, ?_, ?_, ?_⟩ <;> apply UInt8.toNat_inj.mp
  · rw [UInt32.toNat_toUInt8, toNat_wordOf]
    omega
  · rw [toNat_byte _ 8 8 rfl (by decide), toNat_wordOf]
    omega
  · rw [toNat_byte _ 16 16 rfl (by decide), toNat_wordOf]
    omega
  · rw [toNat_byte _ 24 24 rfl (by decide), toNat_wordOf]
    omega

theorem wordOf_bytes : wordOf w.toUInt8 (w >>> 8).toUInt8 (w >>> 16).toUInt8 (w >>> 24).toUInt8 = w := by
  apply UInt32.toNat_inj.mp
  have hw := w.toNat_lt
  rw [toNat_wordOf, UInt32.toNat_toUInt8, toNat_byte w 8 8 rfl (by decide), toNat_byte w 16 16 rfl (by decide),
    toNat_byte w 24 24 rfl (by decide)]
  omega

end Bytes

/-! ## In memory -/

section Memory

variable (big : Bool) (a b c d : UInt8)

@[simp] theorem length_storeWord (w : UInt32) : (storeWord big w).length = 4 := by cases big <;> rfl

@[simp] theorem storeWord_loadWord : storeWord big (loadWord big a b c d) = [a, b, c, d] := by
  cases big <;> simp [storeWord, loadWord]

theorem loadWord_storeWord (w : UInt32) : ∃ a b c d, storeWord big w = [a, b, c, d] ∧ loadWord big a b c d = w := by
  cases big <;> exact ⟨_, _, _, _, rfl, wordOf_bytes w⟩

theorem storeWord_xor (x y : UInt32) :
    storeWord big (x ^^^ y) = List.zipWith (· ^^^ ·) (storeWord big x) (storeWord big y) := by
  cases big <;> simp [storeWord, UInt32.shiftRight_xor]

end Memory

/-! ## Byte order -/

/-- `SWAB32`: the bytes in the other order. -/
def swab32 (w : UInt32) : UInt32 := wordOf (w >>> 24).toUInt8 (w >>> 16).toUInt8 (w >>> 8).toUInt8 w.toUInt8

/-- `le32_to_cpu` and `cpu_to_le32` -/
def le32ToCpu (big : Bool) (w : UInt32) : UInt32 := if big then swab32 w else w

/-- `be32_to_cpu` and `cpu_to_be32` -/
def be32ToCpu (big : Bool) (w : UInt32) : UInt32 := if big then w else swab32 w

section Order

variable (big : Bool) (w : UInt32) (a b c d : UInt8)

@[simp] theorem swab32_wordOf : swab32 (wordOf a b c d) = wordOf d c b a := by
  simp [swab32]

theorem storeWord_le32ToCpu : storeWord big (le32ToCpu big w) = storeWord false w := by
  cases big <;> simp [storeWord, le32ToCpu, swab32]

theorem storeWord_be32ToCpu : storeWord big (be32ToCpu big w) = storeWord true w := by
  cases big <;> simp [storeWord, be32ToCpu, swab32]

theorem le32ToCpu_loadWord : le32ToCpu big (loadWord big a b c d) = loadWord false a b c d := by
  cases big <;> simp [loadWord, le32ToCpu]

end Order

/-! ## Several words -/

/-- The words that stand in a piece of memory. -/
def loadWords (big : Bool) : List UInt8 → List UInt32
  | a :: b :: c :: d :: bs => loadWord big a b c d :: loadWords big bs
  | _ => []

def storeWords (big : Bool) (ws : List UInt32) : List UInt8 := ws.flatMap (storeWord big)

section Several

variable (big : Bool)

theorem storeWords_cons (w : UInt32) (ws : List UInt32) :
    storeWords big (w :: ws) = storeWord big w ++ storeWords big ws := rfl

@[simp] theorem length_storeWords (ws : List UInt32) : (storeWords big ws).length = 4 * ws.length := by
  induction ws with
  | nil => rfl
  | cons w ws ih => rw [storeWords_cons, length_append, length_storeWord, ih, length_cons]; omega

theorem loadWords_storeWords_append (ws : List UInt32) (bs : List UInt8) :
    loadWords big (storeWords big ws ++ bs) = ws ++ loadWords big bs := by
  induction ws with
  | nil => rfl
  | cons w ws ih =>
    obtain ⟨a, b, c, d, hstore, hload⟩ := loadWord_storeWord big w
    rw [storeWords_cons, hstore]
    simp only [cons_append, nil_append, loadWords, hload, ih]

@[simp] theorem loadWords_storeWords (ws : List UInt32) : loadWords big (storeWords big ws) = ws := by
  have h := loadWords_storeWords_append big ws []
  rwa [append_nil, show loadWords big [] = [] from rfl, append_nil] at h

theorem loadWords_append (n : ℕ) (bs cs : List UInt8) (h : bs.length = 4 * n) :
    loadWords big (bs ++ cs) = loadWords big bs ++ loadWords big cs := by
  induction n generalizing bs with
  | zero => rw [length_eq_zero_iff.mp h]; rfl
  | succ n ih =>
    match bs, h with
    | a :: b :: c :: d :: bs, h =>
      simp only [cons_append, loadWords, ih bs (by simp only [length_cons] at h; omega)]

theorem length_loadWords (n : ℕ) (bs : List UInt8) (h : bs.length = 4 * n) : (loadWords big bs).length = n := by
  induction n generalizing bs with
  | zero => rw [length_eq_zero_iff.mp h]; rfl
  | succ n ih =>
    match bs, h with
    | a :: b :: c :: d :: bs, h =>
      rw [loadWords, length_cons, ih bs (by simp only [length_cons] at h; omega)]

/-- Words in the byte order of the machine, put into little-endian order. -/
theorem map_le32ToCpu_loadWords (bs : List UInt8) :
    (loadWords big bs).map (le32ToCpu big) = loadWords false bs := by
  fun_induction loadWords big bs with
  | case1 a b c d bs ih => rw [map_cons, ih, le32ToCpu_loadWord, loadWords]
  | case2 bs h => rw [loadWords.eq_2 false bs h, map_nil]

theorem storeWords_map_le32ToCpu (ws : List UInt32) : storeWords big (ws.map (le32ToCpu big)) =
    storeWords false ws := by
  induction ws with
  | nil => rfl
  | cons w ws ih => rw [map_cons, storeWords_cons, ih, storeWord_le32ToCpu, storeWords_cons]

end Several

/-! ## Numbers -/

theorem ofNat_eq_ofNat {a b : ℕ} (h : a % 256 = b % 256) : UInt8.ofNat a = UInt8.ofNat b := by
  apply UInt8.toNat_inj.mp
  rwa [UInt8.toNat_ofNat', UInt8.toNat_ofNat']

theorem storeWord_false (w : UInt32) : storeWord false w = leBytesOf 4 w.toNat := by
  have hbyte : ∀ (n : UInt32) (k : ℕ), n.toNat = k → k < 32 → (w >>> n).toUInt8 = UInt8.ofNat (w.toNat >>> k) := by
    intro n k hn hk
    apply UInt8.toNat_inj.mp
    rw [toNat_byte w n k hn hk, UInt8.toNat_ofNat']
  have hlow : w.toUInt8 = UInt8.ofNat w.toNat := by
    apply UInt8.toNat_inj.mp
    rw [UInt32.toNat_toUInt8, UInt8.toNat_ofNat']
  have h1 : UInt8.ofNat (w.toNat >>> 8) = UInt8.ofNat (w.toNat / 256) := ofNat_eq_ofNat (by omega)
  have h2 : UInt8.ofNat (w.toNat >>> 16) = UInt8.ofNat (w.toNat / 256 / 256) := ofNat_eq_ofNat (by omega)
  have h3 : UInt8.ofNat (w.toNat >>> 24) = UInt8.ofNat (w.toNat / 256 / 256 / 256) := ofNat_eq_ofNat (by omega)
  simp only [storeWord, Bool.false_eq_true, if_false, leBytesOf, hbyte 8 8 rfl (by decide),
    hbyte 16 16 rfl (by decide), hbyte 24 24 rfl (by decide), hlow, h1, h2, h3]

theorem storeWord_true (w : UInt32) : storeWord true w = beBytesOf 4 w.toNat := by
  have hrev : storeWord true w = (storeWord false w).reverse := rfl
  rw [hrev, storeWord_false]
  rfl

/-- A double word is stored as its low word, then its high one. -/
theorem storeWord_double (x : UInt64) :
    storeWord false x.toUInt32 ++ storeWord false (x >>> 32).toUInt32 = leBytesOf 8 x.toNat := by
  have hx := x.toNat_lt
  have hlow : x.toUInt32.toNat = x.toNat % 4294967296 := UInt64.toNat_toUInt32 x
  have hhigh : (x >>> 32).toUInt32.toNat = x.toNat / 256 / 256 / 256 / 256 := by
    have hshift : (x >>> 32).toNat = x.toNat / 4294967296 := by
      rw [UInt64.toNat_shiftRight]
      exact Nat.shiftRight_eq_div_pow x.toNat 32
    rw [UInt64.toNat_toUInt32, hshift]
    omega
  have h0 : ofNat (x.toNat % 4294967296) = ofNat x.toNat := ofNat_eq_ofNat (by omega)
  have h1 : ofNat (x.toNat % 4294967296 / 256) = ofNat (x.toNat / 256) := ofNat_eq_ofNat (by omega)
  have h2 : ofNat (x.toNat % 4294967296 / 256 / 256) = ofNat (x.toNat / 256 / 256) :=
    ofNat_eq_ofNat (by omega)
  have h3 : ofNat (x.toNat % 4294967296 / 256 / 256 / 256) = ofNat (x.toNat / 256 / 256 / 256) :=
    ofNat_eq_ofNat (by omega)
  rw [storeWord_false, storeWord_false, hlow, hhigh]
  simp only [leBytesOf, cons_append, nil_append, h0, h1, h2, h3]

end Bertos
