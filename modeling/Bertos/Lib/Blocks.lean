import Mathlib.Data.List.Basic
import Mathlib.Tactic.Common

/-!
# Messages by blocks

A function `T` takes a state and a block of `n` cells. `absorb T n h m` feeds the whole blocks of `m` to it and returns
the state with what is left of `m`. Absorbing a message in two parts is absorbing it at once, where what is left of the
first part goes before the second (`absorb_append`): this is all that a streaming interface has to keep.

`splice buf p d` is a buffer with `d` written at position `p`.
-/

namespace Blocks

open List

variable {α S : Type*}

/-! ## Writing into a buffer -/

/-- The buffer with `d` written from position `p` on. -/
def splice (buf : List α) (p : ℕ) (d : List α) : List α := buf.take p ++ d ++ buf.drop (p + d.length)

section Splice

variable {buf d : List α} {p : ℕ}

theorem length_splice (h : p + d.length ≤ buf.length) : (splice buf p d).length = buf.length := by
  simp only [splice, length_append, length_take, length_drop]
  omega

theorem take_splice (h : p ≤ buf.length) : (splice buf p d).take (p + d.length) = buf.take p ++ d :=
  take_left' (by rw [length_append, length_take, Nat.min_eq_left h])

theorem drop_splice (h : p ≤ buf.length) : (splice buf p d).drop (p + d.length) = buf.drop (p + d.length) :=
  drop_left' (by rw [length_append, length_take, Nat.min_eq_left h])

theorem splice_zero : splice buf 0 d = d ++ buf.drop d.length := by
  rw [splice, take_zero, nil_append, Nat.zero_add]

theorem splice_splice (h : p ≤ buf.length) (e : List α) :
    splice (splice buf p d) (p + d.length) e = splice buf p (d ++ e) := by
  rw [splice, take_splice h, ← drop_drop, drop_splice h, drop_drop, splice, length_append,
    ← Nat.add_assoc, append_assoc (buf.take p)]

theorem splice_end (h : p + d.length = buf.length) : splice buf p d = buf.take p ++ d := by
  rw [splice, h, drop_length, append_nil]

end Splice

/-! ## Absorbing -/

section Absorb

variable (T : S → List α → S) (n : ℕ)

/-- The whole blocks of `m` go through `T`; the rest is returned. -/
def absorb (h : S) (m : List α) : S × List α :=
  if _h : 0 < n ∧ n ≤ m.length then absorb (T h (m.take n)) (m.drop n) else (h, m)
termination_by m.length
decreasing_by
  rw [length_drop]
  omega

variable {T n}

theorem absorb_of_lt {h : S} {m : List α} (hm : m.length < n) : absorb T n h m = (h, m) := by
  rw [absorb, dif_neg (by omega)]

theorem absorb_block {h : S} {b m : List α} (hn : 0 < n) (hb : b.length = n) :
    absorb T n h (b ++ m) = absorb T n (T h b) m := by
  rw [absorb, dif_pos ⟨hn, by rw [length_append]; omega⟩, take_left' hb, drop_left' hb]

/-- **Absorbing in two parts**: what is left of the first goes before the second. -/
theorem absorb_append (h : S) (m d : List α) :
    absorb T n h (m ++ d) = absorb T n (absorb T n h m).1 ((absorb T n h m).2 ++ d) := by
  fun_induction absorb T n h m with
  | case1 h m hm ih =>
    rw [← ih, ← absorb_block hm.1 (b := m.take n) (by rw [length_take]; omega), ← append_assoc,
      take_append_drop]
  | case2 h m hm => rfl

theorem length_absorb (hn : 0 < n) (h : S) (m : List α) : (absorb T n h m).2.length = m.length % n := by
  fun_induction absorb T n h m with
  | case1 h m hm ih => rw [ih, length_drop, Nat.mod_eq_sub_mod hm.2]
  | case2 h m hm =>
    have hlt : m.length < n := by omega
    exact (Nat.mod_eq_of_lt hlt).symm

/-- What `T` keeps of a state for every block is true after all of them. -/
theorem absorb_keeps {P : S → Prop} (hT : ∀ {h : S} {b : List α}, P h → b.length = n → P (T h b)) {h : S} (hP : P h)
    (m : List α) : P (absorb T n h m).1 := by
  fun_induction absorb T n h m with
  | case1 h m hm ih => exact ih (hT hP (by rw [length_take, Nat.min_eq_left hm.2]))
  | case2 h m hm => exact hP

theorem absorb_whole (hn : 0 < n) {h : S} {m : List α} (hm : m.length % n = 0) :
    (absorb T n h m).2 = [] := length_eq_zero_iff.mp (by rw [length_absorb hn, hm])

end Absorb

end Blocks
