import Bertos.Lib.Words

/-!
# XOR of blocks (`sec/util.h`)

`xor_block` and `xor_block_const` work by words where the pointers are aligned and by bytes elsewhere. The two branches
compute the same block, in either byte order of the machine (`xorBlock_eq`, `xorBlockConst_eq`). A second XOR with the
same block undoes the first (`xorBlock8_cancel`).
-/

namespace Bertos

/-! ## By bytes -/

/-- `xor_block_8`, for two blocks of the same length. -/
def xorBlock8 (in1 in2 : List UInt8) : List UInt8 := List.zipWith (· ^^^ ·) in1 in2

/-- `xor_block_const_8` -/
def xorBlockConst8 (block : List UInt8) (k : UInt8) : List UInt8 := block.map (· ^^^ k)

/-! ## By words -/

/-- `xor_block_32`: the whole words, then what remains. -/
def xorBlock32 (big : Bool) : List UInt8 → List UInt8 → List UInt8
  | a :: b :: c :: d :: in1, a' :: b' :: c' :: d' :: in2 =>
    storeWord big (loadWord big a b c d ^^^ loadWord big a' b' c' d') ++ xorBlock32 big in1 in2
  | in1, in2 => xorBlock8 in1 in2

/-- `xor_block_const_32` -/
def xorBlockConst32 (big : Bool) (k : UInt8) : List UInt8 → List UInt8
  | a :: b :: c :: d :: block =>
    let k32 := k.toUInt32 ||| k.toUInt32 <<< 8 ||| k.toUInt32 <<< 16 ||| k.toUInt32 <<< 24
    storeWord big (loadWord big a b c d ^^^ k32) ++ xorBlockConst32 big k block
  | block => xorBlockConst8 block k

theorem xorBlock32_eq (big : Bool) (in1 in2 : List UInt8) : xorBlock32 big in1 in2 = xorBlock8 in1 in2 := by
  fun_induction xorBlock32 big in1 in2 with
  | case1 a b c d in1 a' b' c' d' in2 ih =>
    rw [ih, storeWord_xor, storeWord_loadWord, storeWord_loadWord]
    rfl
  | case2 in1 in2 => rfl

theorem xorBlockConst32_eq (big : Bool) (k : UInt8) (block : List UInt8) :
    xorBlockConst32 big k block = xorBlockConst8 block k := by
  fun_induction xorBlockConst32 big k block with
  | case1 a b c d block k32 ih =>
    -- the constant is the same word in both byte orders
    have hk : k32 = loadWord big k k k k := by cases big <;> rfl
    rw [ih, hk, storeWord_xor, storeWord_loadWord, storeWord_loadWord]
    rfl
  | case2 block => rfl

/-! ## The functions -/

/-- How the blocks lie in the memory of the machine. -/
structure Placing where
  aligned : Bool
  big : Bool

/-- `xor_block`: by words where the pointers are aligned. -/
def xorBlock (pl : Placing) (in1 in2 : List UInt8) : List UInt8 :=
  if pl.aligned then xorBlock32 pl.big in1 in2 else xorBlock8 in1 in2

/-- `xor_block_const` -/
def xorBlockConst (pl : Placing) (block : List UInt8) (k : UInt8) : List UInt8 :=
  if pl.aligned then xorBlockConst32 pl.big k block else xorBlockConst8 block k

section Laws

variable (pl : Placing) (a b : List UInt8)

@[simp] theorem xorBlock_eq : xorBlock pl a b = xorBlock8 a b := by
  unfold xorBlock
  split
  · exact xorBlock32_eq pl.big a b
  · rfl

@[simp] theorem xorBlockConst_eq (k : UInt8) : xorBlockConst pl a k = xorBlockConst8 a k := by
  unfold xorBlockConst
  split
  · exact xorBlockConst32_eq pl.big k a
  · rfl

variable {a b}

theorem length_xorBlock8 (h : a.length = b.length) : (xorBlock8 a b).length = a.length := by
  rw [xorBlock8, List.length_zipWith, h, Nat.min_self]

theorem xorBlock8_comm (a b : List UInt8) : xorBlock8 a b = xorBlock8 b a :=
  List.zipWith_comm_of_comm UInt8.xor_comm

theorem xorBlock8_cancel (h : a.length ≤ b.length) : xorBlock8 (xorBlock8 a b) b = a := by
  induction a generalizing b with
  | nil => rfl
  | cons x a ih =>
    cases b with
    | nil => cases h
    | cons y b =>
      have hbyte : x ^^^ y ^^^ y = x := by rw [UInt8.xor_assoc, UInt8.xor_self, UInt8.xor_zero]
      have htail := ih (Nat.le_of_succ_le_succ h)
      simp only [xorBlock8, List.zipWith_cons_cons, hbyte] at htail ⊢
      rw [htail]

end Laws

end Bertos
