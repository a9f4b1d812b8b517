import Mathlib.Data.List.Perm.Basic

/-!
# Partitions of an address range into intervals

An interval is a pair of its start and its length. `Tiles b l e` says that the intervals of `l` lie end to end from `b`
up to `e`, and `Partition b e l` says it of `l` in some order. Intervals can be cut and neighbours joined
(`Partition.split`, `Partition.merge`); two intervals do not overlap (`Partition.apart`), and a partition without
neighbours is the whole range (`Partition.eq_singleton`).
-/

namespace Bertos

open List

/-- Intervals that lie end to end from `b` up to `e`. -/
def Tiles : ℕ → List (ℕ × ℕ) → ℕ → Prop
  | b, [], e => b = e
  | b, x :: l, e => x.1 = b ∧ 0 < x.2 ∧ Tiles (b + x.2) l e

/-- The intervals of `l`, in some order, lie end to end from `b` up to `e`. -/
def Partition (b e : ℕ) (l : List (ℕ × ℕ)) : Prop :=
  ∃ tiles : List (ℕ × ℕ), tiles.Perm l ∧ Tiles b tiles e

def lengths : List (ℕ × ℕ) → ℕ
  | [] => 0
  | x :: l => x.2 + lengths l

def Apart (x y : ℕ × ℕ) : Prop :=
  x.1 + x.2 ≤ y.1 ∨ y.1 + y.2 ≤ x.1

theorem Apart.symm {x y : ℕ × ℕ} (h : Apart x y) : Apart y x :=
  Or.symm h

variable {b e a m n : ℕ} {x y : ℕ × ℕ} {l r : List (ℕ × ℕ)}

/-! ## Tiles -/

theorem tiles_append {l1 l2 : List (ℕ × ℕ)} : Tiles b (l1 ++ l2) e ↔ ∃ c, Tiles b l1 c ∧ Tiles c l2 e := by
  induction l1 generalizing b with
  | nil => simp [Tiles]
  | cons x l ih =>
    simp only [cons_append, Tiles, ih]
    constructor
    · rintro ⟨h1, h2, c, h3, h4⟩
      exact ⟨c, ⟨h1, h2, h3⟩, h4⟩
    · rintro ⟨c, ⟨h1, h2, h3⟩, h4⟩
      exact ⟨h1, h2, c, h3, h4⟩

section
variable (h : Tiles b l e)
include h

theorem Tiles.le : b ≤ e := by
  induction l generalizing b with
  | nil => exact Nat.le_of_eq h
  | cons x l ih => exact Nat.le_trans (Nat.le_add_right b x.2) (ih h.2.2)

theorem Tiles.mem (hx : x ∈ l) : b ≤ x.1 ∧ x.1 + x.2 ≤ e ∧ 0 < x.2 := by
  induction l generalizing b with
  | nil => cases hx
  | cons y l ih =>
    obtain ⟨hy, hpos, hl⟩ := h
    rcases mem_cons.mp hx with rfl | hx
    · have := hl.le
      omega
    · have := ih hl hx
      omega

theorem Tiles.apart : l.Pairwise Apart := by
  induction l generalizing b with
  | nil => exact List.Pairwise.nil
  | cons x l ih =>
    obtain ⟨hx, hpos, hl⟩ := h
    refine pairwise_cons.mpr ⟨?_, ih hl⟩
    intro y hy
    have := (hl.mem hy).1
    exact Or.inl (by omega)

theorem Tiles.lengths : lengths l + b = e := by
  induction l generalizing b with
  | nil =>
    simp only [Tiles] at h
    simp only [Bertos.lengths]
    omega
  | cons x l ih =>
    have := ih h.2.2
    simp only [Bertos.lengths]
    omega

/-- Tiles that touch stand next to each other in the list. -/
theorem Tiles.adjacent (hx : (a, m) ∈ l) (hy : (a + m, n) ∈ l) : ∃ l1 l2, l = l1 ++ (a, m) :: (a + m, n) :: l2 := by
  obtain ⟨l1, l2, rfl⟩ := append_of_mem hx
  obtain ⟨c, h1, hc, hm, h2⟩ := tiles_append.mp h
  simp only at hc hm
  subst hc
  rcases mem_append.mp hy with hy | hy
  · have := (h1.mem hy).2
    simp only at this
    omega
  rcases mem_cons.mp hy with hy | hy
  · simp only [Prod.mk.injEq] at hy
    omega
  cases l2 with
  | nil => cases hy
  | cons z l2 =>
    obtain ⟨hz, hpos, h3⟩ := h2
    rcases mem_cons.mp hy with rfl | hy
    · exact ⟨l1, l2, rfl⟩
    · have := (h3.mem hy).1
      simp only at this
      omega

end

/-! ## Partitions -/

namespace Partition

theorem perm (h : Partition b e l) (hp : l.Perm r) : Partition b e r := by
  obtain ⟨tiles, ht, h⟩ := h
  exact ⟨tiles, ht.trans hp, h⟩

theorem mem (h : Partition b e l) (hx : x ∈ l) : b ≤ x.1 ∧ x.1 + x.2 ≤ e ∧ 0 < x.2 := by
  obtain ⟨tiles, ht, h⟩ := h
  exact h.mem (ht.mem_iff.mpr hx)

theorem apart (h : Partition b e l) : l.Pairwise Apart := by
  obtain ⟨tiles, ht, h⟩ := h
  exact (ht.pairwise_iff Apart.symm).mp h.apart

theorem singleton (h : 0 < n) : Partition b (b + n) [(b, n)] :=
  ⟨_, List.Perm.refl _, rfl, h, rfl⟩

theorem split {k : ℕ} (h : Partition b e ((a, m) :: r)) (hk : 0 < k) (hkm : k < m) :
    Partition b e ((a, m - k) :: (a + (m - k), k) :: r) := by
  obtain ⟨tiles, ht, h⟩ := h
  obtain ⟨l1, l2, rfl⟩ := append_of_mem (ht.mem_iff.mpr mem_cons_self)
  obtain ⟨c, h1, hc, -, h2⟩ := tiles_append.mp h
  simp only at hc h2
  subst hc
  refine ⟨l1 ++ (a, m - k) :: (a + (m - k), k) :: l2, ?_, tiles_append.mpr ⟨a, h1, rfl, ?_, rfl, hk, ?_⟩⟩
  · have hr := (perm_middle.symm.trans ht).cons_inv
    exact perm_middle.trans ((perm_middle.trans (hr.cons _)).cons _)
  · simp only
    omega
  · have e : a + (m - k) + k = a + m := by omega
    simpa only [e] using h2

theorem merge (h : Partition b e ((a, m) :: (a + m, n) :: r)) : Partition b e ((a, m + n) :: r) := by
  obtain ⟨tiles, ht, h⟩ := h
  have hx : (a, m) ∈ tiles := ht.mem_iff.mpr (by simp)
  have hy : (a + m, n) ∈ tiles := ht.mem_iff.mpr (by simp)
  obtain ⟨l1, l2, rfl⟩ := h.adjacent hx hy
  obtain ⟨c, h1, hc, hm, -, hn, h2⟩ := tiles_append.mp h
  simp only at hc hm hn h2
  subst hc
  refine ⟨l1 ++ (a, m + n) :: l2, ?_, tiles_append.mpr ⟨a, h1, rfl, Nat.add_pos_left hm n, ?_⟩⟩
  · have hr : (l1 ++ l2).Perm r := by
      have h1 := (perm_middle.symm.trans ht).cons_inv
      exact (perm_middle.symm.trans h1).cons_inv
    exact perm_middle.trans (hr.cons _)
  · simpa only [Nat.add_assoc] using h2

end Partition

theorem lengths_append {l1 l2 : List (ℕ × ℕ)} : lengths (l1 ++ l2) = lengths l1 + lengths l2 := by
  induction l1 with
  | nil => simp [lengths]
  | cons x l ih =>
    simp only [cons_append, lengths, ih]
    omega

theorem lengths_perm (h : l.Perm r) : lengths l = lengths r := by
  induction h with
  | nil => rfl
  | cons x _ ih => simp only [lengths, ih]
  | swap x y l =>
    simp only [lengths]
    omega
  | trans _ _ ih1 ih2 => exact ih1.trans ih2

theorem Partition.lengths (h : Partition b e l) : lengths l + b = e := by
  obtain ⟨tiles, ht, h⟩ := h
  rw [← lengths_perm ht]
  exact h.lengths

/-- A partition of which no two intervals are neighbours is the whole range. -/
theorem Partition.eq_singleton (h : Partition b e l) (hbe : b < e) (hgap : l.Pairwise fun x y => x.1 + x.2 < y.1) :
    l = [(b, e - b)] := by
  obtain ⟨tiles, ht, h⟩ := h
  have hsym : tiles.Pairwise fun x y => x.1 + x.2 < y.1 ∨ y.1 + y.2 < x.1 :=
    (ht.pairwise_iff Or.symm).mpr (hgap.imp Or.inl)
  cases tiles with
  | nil => exact absurd h (Nat.ne_of_lt hbe)
  | cons x tiles =>
    obtain ⟨hx, hpos, h⟩ := h
    cases tiles with
    | nil =>
      have : x = (b, e - b) := Prod.ext hx (by simp only [Tiles] at h; simp only; omega)
      rw [← this]
      exact perm_singleton.mp ht.symm
    | cons y tiles =>
      obtain ⟨hy, hpos', h⟩ := h
      have := (pairwise_cons.mp hsym).1 y mem_cons_self
      omega

end Bertos
