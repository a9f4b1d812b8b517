import Mathlib.Data.Int.Notation
import Mathlib.Data.List.Basic
import Mathlib.Tactic.Common

/-!
# Addressable memories

A memory is a total function from addresses to cells. `read m a n` lists the `n` cells from `a` on, `write m a bs`
stores the list `bs` there. A read sees the last write (`read_write_self`), writes elsewhere do not matter
(`read_write_of_disjoint`), neighbouring reads and writes join (`read_add`, `write_append`). A `Sink` is a memory with
a pointer that writes.
-/

namespace Mem

open List

variable {α : Type*}

/-- The `n` cells from address `a` on. -/
def read (m : ℕ → α) (a n : ℕ) : List α := (range' a n).map m

/-- The memory with `bs` stored from address `a` on. -/
def write (m : ℕ → α) (a : ℕ) (bs : List α) : ℕ → α :=
  fun i => if a ≤ i then bs[i - a]?.getD (m i) else m i

/-! ## Reading -/

section Read

variable (m m' : ℕ → α) (a n k : ℕ)

@[simp] theorem length_read : (read m a n).length = n := by simp [read]

@[simp] theorem read_zero : read m a 0 = [] := rfl

theorem read_succ : read m a (n + 1) = m a :: read m (a + 1) n := by
  simp [read, range'_succ]

theorem getElem_read {i : ℕ} (h : i < (read m a n).length) : (read m a n)[i] = m (a + i) := by
  simp [read]

theorem getElem?_read {i : ℕ} (h : i < n) : (read m a n)[i]? = some (m (a + i)) := by
  rw [getElem?_eq_getElem (by simpa using h), getElem_read]

theorem read_add : read m a (n + k) = read m a n ++ read m (a + n) k := by
  simp [read, ← map_append]

theorem read_eq_append {xs ys : List α} (h : read m a (xs.length + ys.length) = xs ++ ys) :
    read m a xs.length = xs ∧ read m (a + xs.length) ys.length = ys := by
  rw [read_add] at h
  exact append_inj h (length_read m a xs.length)

theorem take_read (h : k ≤ n) : (read m a n).take k = read m a k := by
  obtain ⟨j, rfl⟩ := Nat.exists_eq_add_of_le h
  rw [read_add, take_left' (length_read m a k)]

theorem drop_read (h : k ≤ n) : (read m a n).drop k = read m (a + k) (n - k) := by
  obtain ⟨j, rfl⟩ := Nat.exists_eq_add_of_le h
  rw [read_add, drop_left' (length_read m a k), Nat.add_sub_cancel_left]

theorem take_drop_read (p : ℕ) : ((read m a n).drop p).take k = read m (a + p) (min k (n - p)) := by
  by_cases hp : p ≤ n
  · rw [drop_read m a n p hp, ← take_read m (a + p) (n - p) _ (Nat.min_le_right _ _), ← take_take,
      take_of_length_le (i := n - p) (by simp)]
  · have h0 : n - p = 0 := by omega
    rw [drop_of_length_le (by rw [length_read]; omega), h0]
    simp

variable {m m' a n}

theorem read_congr (h : ∀ i, a ≤ i → i < a + n → m i = m' i) : read m a n = read m' a n := by
  apply map_congr_left
  intro i hi
  rw [mem_range'_1] at hi
  exact h i hi.1 hi.2

theorem read_eq_of_forall {bs : List α} (hn : bs.length = n) (h : ∀ i, i < n → bs[i]? = some (m (a + i))) :
    read m a n = bs := by
  apply ext_getElem? fun i => ?_
  by_cases hi : i < n
  · rw [getElem?_read m a n hi, h i hi]
  · rw [getElem?_eq_none (by simpa using hi), getElem?_eq_none (by omega)]

end Read

/-! ## Writing -/

section Write

variable (m : ℕ → α) (a : ℕ) (bs : List α)

@[simp] theorem write_nil : write m a [] = m := by
  funext i
  simp [write]

theorem write_of_not_mem {i : ℕ} (h : i < a ∨ a + bs.length ≤ i) : write m a bs i = m i := by
  unfold write
  split
  · rw [getElem?_eq_none (by omega), Option.getD_none]
  · rfl

theorem write_apply_congr {m' : ℕ → α} {i : ℕ} (h : m i = m' i) : write m a bs i = write m' a bs i := by
  simp only [write, h]

theorem write_add {i : ℕ} (h : i < bs.length) : write m a bs (a + i) = bs[i] := by
  simp [write, h]

theorem write_of_mem {i : ℕ} (h1 : a ≤ i) (h2 : i < a + bs.length) : some (write m a bs i) = bs[i - a]? := by
  obtain ⟨j, rfl⟩ := Nat.exists_eq_add_of_le h1
  have hj : j < bs.length := by omega
  rw [write_add m a bs hj, Nat.add_sub_cancel_left, getElem?_eq_getElem hj]

@[simp] theorem read_write_self : read (write m a bs) a bs.length = bs := by
  refine read_eq_of_forall rfl fun i hi => ?_
  rw [write_add m a bs hi, getElem?_eq_getElem hi]

theorem read_write_of_disjoint {b n : ℕ} (h : b + n ≤ a ∨ a + bs.length ≤ b) :
    read (write m a bs) b n = read m b n :=
  read_congr fun i h1 h2 => write_of_not_mem m a bs (by omega)

theorem write_append (cs : List α) : write (write m a bs) (a + bs.length) cs = write m a (bs ++ cs) := by
  funext i
  by_cases h1 : i < a
  · rw [write_of_not_mem _ _ _ (by omega), write_of_not_mem _ _ _ (by omega), write_of_not_mem _ _ _ (by omega)]
  · unfold write
    by_cases h2 : i < a + bs.length
    · rw [if_neg (by omega), if_pos (by omega), if_pos (by omega), getElem?_append_left (by omega)]
    · rw [if_pos (by omega), if_pos (by omega), if_pos (by omega), getElem?_append_right (by omega),
        getElem?_eq_none (l := bs) (by omega), Nat.sub_add_eq, Option.getD_none]

/-- A read around a write: what is before, the written list, what is after. -/
theorem read_write_within {b n : ℕ} (h1 : b ≤ a) (h2 : a + bs.length ≤ b + n) :
    read (write m a bs) b n = read m b (a - b) ++ bs ++ read m (a + bs.length) (b + n - (a + bs.length)) := by
  have e : n = (a - b) + (bs.length + (b + n - (a + bs.length))) := by omega
  conv_lhs => rw [e]
  rw [read_add, read_add, Nat.add_sub_cancel' h1, read_write_self, append_assoc,
    read_write_of_disjoint m a bs (by omega), read_write_of_disjoint m a bs (by omega)]

/-- A read of a whole range after a write into it that is clipped at its end. -/
theorem read_write_clipped (p n : ℕ) :
    read (write m (a + p) (bs.take (n - p))) a n =
      (read m a n).take p ++ bs.take (n - p) ++ (read m a n).drop (p + min bs.length (n - p)) := by
  by_cases hp : p ≤ n
  · have hl : (bs.take (n - p)).length = min bs.length (n - p) := by rw [length_take, Nat.min_comm]
    rw [read_write_within m (a + p) _ (Nat.le_add_right a p) (by rw [hl]; omega), hl, take_read m a n p hp,
      drop_read m a n _ (by omega), Nat.add_sub_cancel_left, Nat.add_assoc]
    congr 2
    omega
  · have h0 : n - p = 0 := by omega
    have hlen : (read m a n).length ≤ p := by rw [length_read]; omega
    simp [h0, take_of_length_le hlen, drop_of_length_le hlen]

end Write

/-! ## A pointer that writes -/

/-- A memory and the address the next cell is written to. -/
structure Sink (α : Type*) where
  mem : ℕ → α
  out : ℕ

namespace Sink

variable (s : Sink α)

/-- `*out++ = b`. -/
def put (b : α) : Sink α := ⟨write s.mem s.out [b], s.out + 1⟩

def puts (bs : List α) : Sink α := bs.foldl put s

@[simp] theorem puts_nil : s.puts [] = s := rfl

@[simp] theorem puts_cons (b : α) (bs : List α) : s.puts (b :: bs) = (s.put b).puts bs := rfl

theorem puts_append (bs cs : List α) : s.puts (bs ++ cs) = (s.puts bs).puts cs := foldl_append

theorem puts_out (bs : List α) : (s.puts bs).out = s.out + bs.length := by
  induction bs generalizing s with
  | nil => rfl
  | cons b bs ih => rw [puts_cons, ih, put, length_cons, Nat.add_assoc, Nat.add_comm 1]

theorem puts_mem (bs : List α) : (s.puts bs).mem = write s.mem s.out bs := by
  induction bs generalizing s with
  | nil => rw [puts_nil, write_nil]
  | cons b bs ih => rw [puts_cons, ih]; exact write_append s.mem s.out [b] bs

end Sink

end Mem
