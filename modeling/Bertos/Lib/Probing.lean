import Mathlib.Data.List.Nodup
import Mathlib.Data.Nat.ModEq
import Mathlib.Logic.Function.Basic
import Mathlib.Tactic.Common

/-!
# Open addressing

A table is a view of its slots: each is empty or has an entry, a key with its data. A key has a path over the slots,
and is looked for in the first slot on it that is empty or has the key (`Lands`). When slots are only ever filled,
every entry stays where its key is looked for (`Ordered.put`), so the table is a finite map, whose entries are a list
(`Stores.put`, `Stores.find_eq`, `Stores.perm`). A path with a step that is coprime to the number of slots meets all of
them (`exists_cycle_eq`).
-/

namespace Probing

open List Function

variable {K D : Type*}

/-! ## Where a key is looked for -/

def Miss (view : ℕ → Option (K × D)) (k : K) (s : ℕ) : Prop := ∃ k' d, view s = some (k', d) ∧ k' ≠ k

/-- The slot is the first one on the path of the key that is empty or has the key. -/
structure Lands (path : K → ℕ → ℕ) (view : ℕ → Option (K × D)) (k : K) (s : ℕ) : Prop where
  hit : ¬ Miss view k s
  first : ∃ i, path k i = s ∧ ∀ j < i, Miss view k (path k j)

/-- Every entry is where its key is looked for. -/
def Ordered (path : K → ℕ → ℕ) (view : ℕ → Option (K × D)) : Prop :=
  ∀ s k d, view s = some (k, d) → Lands path view k s

section Landing

variable {path : K → ℕ → ℕ} {view : ℕ → Option (K × D)} {k : K} {d : D} {s t : ℕ}

theorem Lands.unique (hs : Lands path view k s) (ht : Lands path view k t) : s = t := by
  obtain ⟨i, rfl, hi⟩ := hs.first
  obtain ⟨j, rfl, hj⟩ := ht.first
  obtain h | rfl | h := Nat.lt_trichotomy i j
  · exact absurd (hj i h) hs.hit
  · rfl
  · exact absurd (hi j h) ht.hit

theorem Lands.key_eq {k' : K} (h : Lands path view k s) (hv : view s = some (k', d)) : k' = k :=
  Classical.byContradiction fun hne => h.hit ⟨k', d, hv, hne⟩

theorem miss_update_of_ne {e : Option (K × D)} (h : t ≠ s) : Miss (update view s e) k t ↔ Miss view k t := by
  unfold Miss
  rw [update_of_ne h]

/-- **An entry** is put where its key is looked for. -/
theorem Ordered.put (ho : Ordered path view) (h : Lands path view k s) :
    Ordered path (update view s (some (k, d))) := by
  intro t k2 d2 ht
  by_cases hts : t = s
  · subst hts
    rw [update_self] at ht
    obtain ⟨rfl, rfl⟩ : k = k2 ∧ d = d2 := by simpa using ht
    obtain ⟨i, hi, hmiss⟩ := h.first
    refine ⟨?_, i, hi, fun j hj => ?_⟩
    · rintro ⟨k', d', he, hne⟩
      rw [update_self] at he
      exact hne (by simpa using (congrArg (Option.map Prod.fst) he).symm)
    · have hne : path k j ≠ t := fun he => h.hit (he ▸ hmiss j hj)
      exact (miss_update_of_ne hne).mpr (hmiss j hj)
  · rw [update_of_ne hts] at ht
    obtain ⟨hhit, i, hi, hmiss⟩ := ho t k2 d2 ht
    refine ⟨fun hm => hhit ((miss_update_of_ne hts).mp hm), i, hi, fun j hj => ?_⟩
    by_cases hj' : path k2 j = s
    · -- the slot had this key before
      obtain ⟨k', d', hv, hne⟩ := hmiss j hj
      rw [hj'] at hv ⊢
      exact ⟨k, d, update_self .., h.key_eq hv ▸ hne⟩
    · exact (miss_update_of_ne hj').mpr (hmiss j hj)

end Landing

/-! ## The table as a finite map -/

section Stored

/-- The slots below `n` have these entries. -/
structure Stores (n : ℕ) (view : ℕ → Option (K × D)) (stored : List (K × D)) : Prop where
  mem_iff : ∀ e, e ∈ stored ↔ ∃ s < n, view s = some e
  nodup : (stored.map Prod.fst).Nodup

variable {path : K → ℕ → ℕ} {view : ℕ → Option (K × D)} {stored : List (K × D)} {k : K} {d : D} {n s : ℕ}

theorem Stores.empty (hv : ∀ s < n, view s = none) : Stores n view [] where
  mem_iff := fun e => ⟨fun h => absurd h not_mem_nil, fun ⟨s, hs, he⟩ => by rw [hv s hs] at he; cases he⟩
  nodup := nodup_nil

theorem Stores.perm (h : Stores n view stored) (ho : Ordered path view) :
    ((range n).filterMap view).Perm stored := by
  refine (perm_ext_iff_of_nodup ?_ h.nodup.of_map).mpr fun e => ?_
  · refine nodup_range.filterMap fun s t e hs ht => ?_
    exact (ho s e.1 e.2 hs).unique (ho t e.1 e.2 ht)
  · rw [h.mem_iff, mem_filterMap]
    simp only [mem_range]

variable [DecidableEq K]

def others (k : K) (stored : List (K × D)) : List (K × D) := stored.filter fun e => decide (e.1 ≠ k)

def find (k : K) (stored : List (K × D)) : Option D := (stored.find? fun e => decide (e.1 = k)).map Prod.snd

theorem mem_others {e : K × D} : e ∈ others k stored ↔ e ∈ stored ∧ e.1 ≠ k := by simp [others]

/-- **An entry** takes the place of one with its key. -/
theorem Stores.put (h : Stores n view stored) (ho : Ordered path view) (hl : Lands path view k s) (hs : s < n) :
    Stores n (update view s (some (k, d))) ((k, d) :: others k stored) where
  mem_iff := by
    rintro ⟨k2, d2⟩
    rw [mem_cons, mem_others, h.mem_iff]
    constructor
    · rintro (he | ⟨⟨t, ht, hv⟩, hne⟩)
      · exact ⟨s, hs, by rw [update_self, he]⟩
      · have hts : t ≠ s := fun hts => hne (hl.key_eq (hts ▸ hv))
        exact ⟨t, ht, by rw [update_of_ne hts, hv]⟩
    · rintro ⟨t, ht, hv⟩
      by_cases hts : t = s
      · rw [hts, update_self] at hv
        exact Or.inl (Option.some.inj hv).symm
      · rw [update_of_ne hts] at hv
        refine Or.inr ⟨⟨t, ht, hv⟩, fun hk => hts ?_⟩
        subst hk
        exact (ho t k2 d2 hv).unique hl
  nodup := by
    rw [map_cons, nodup_cons]
    refine ⟨fun hmem => ?_, h.nodup.sublist (filter_sublist.map _)⟩
    obtain ⟨e, he, hk⟩ := mem_map.mp hmem
    exact (mem_others.mp he).2 hk

theorem Stores.find_eq_some (h : Stores n view stored) (he : (k, d) ∈ stored) : find k stored = some d := by
  have hsome : (stored.find? fun e => decide (e.1 = k)).isSome := find?_isSome.mpr ⟨_, he, by simp⟩
  obtain ⟨⟨k', d'⟩, hfind⟩ := Option.isSome_iff_exists.mp hsome
  obtain rfl : k' = k := by simpa using find?_some hfind
  have hd : (k', d') = (k', d) :=
    inj_on_of_nodup_map h.nodup (mem_of_find?_eq_some hfind) he rfl
  rw [find, hfind, hd]
  rfl

theorem find_eq_none (h : ∀ d, (k, d) ∉ stored) : find k stored = none := by
  rw [find, find?_eq_none.mpr]
  · rfl
  · rintro ⟨k', d⟩ he hk
    obtain rfl : k' = k := by simpa using hk
    exact h d he

/-- **What is found** is in the slot where the key is looked for. -/
theorem Stores.find_eq (h : Stores n view stored) (ho : Ordered path view) (hl : Lands path view k s) (hs : s < n) :
    find k stored = (view s).map Prod.snd := by
  cases hv : view s with
  | none =>
    refine find_eq_none fun d he => ?_
    obtain ⟨t, -, ht⟩ := (h.mem_iff _).mp he
    rw [(ho t k d ht).unique hl, hv] at ht
    cases ht
  | some e =>
    obtain ⟨k', d⟩ := e
    obtain rfl := hl.key_eq hv
    exact h.find_eq_some ((h.mem_iff _).mpr ⟨s, hs, hv⟩)

/-- There are as many entries with other keys as slots when no slot is empty or has the key. -/
theorem Stores.others_length_eq (h : Stores n view stored) (ho : Ordered path view) :
    (others k stored).length = n ↔ ∀ s < n, Miss view k s := by
  have hlen : ((range n).filterMap view).length = stored.length := (h.perm ho).length_eq
  have hrange : (range n).length = n := length_range
  have hfilled : ((range n).filterMap view).length = (range n).length ↔ ∀ s ∈ range n, (view s).isSome :=
    filterMap_length_eq_length
  have hothers : (others k stored).length = stored.length ↔ ∀ e ∈ stored, decide (e.1 ≠ k) = true :=
    length_filter_eq_length_iff
  constructor
  · intro hn s hs
    have hle : (others k stored).length ≤ stored.length := length_filter_le _ _
    have hle' : ((range n).filterMap view).length ≤ (range n).length := length_filterMap_le _ _
    obtain ⟨⟨k', d⟩, hv⟩ := Option.isSome_iff_exists.mp (hfilled.mp (by omega) s (mem_range.mpr hs))
    have hne := hothers.mp (by omega) (k', d) ((h.mem_iff _).mpr ⟨s, hs, hv⟩)
    exact ⟨k', d, hv, of_decide_eq_true hne⟩
  · intro hmiss
    have hfull := hfilled.mpr fun s hs => by
      obtain ⟨k', d, hv, -⟩ := hmiss s (mem_range.mp hs)
      rw [hv]
      rfl
    have hall := hothers.mpr fun e he => by
      obtain ⟨s, hs, hv⟩ := (h.mem_iff e).mp he
      obtain ⟨k', d, hv', hne⟩ := hmiss s hs
      rw [hv] at hv'
      obtain rfl : e = (k', d) := Option.some.inj hv'
      exact decide_eq_true hne
    omega

end Stored

/-! ## Paths -/

/-- The slots that are met in steps of `step`. -/
def cycle (n first step i : ℕ) : ℕ := (first + i * step) % n

variable {n first step : ℕ}

/-- A step coprime to the size reaches every slot. -/
theorem exists_cycle_eq (hc : Nat.Coprime step n) {s : ℕ} (hs : s < n) : ∃ i < n, cycle n first step i = s := by
  have hpos : 0 < n := Nat.zero_lt_of_lt hs
  obtain ⟨m, hm⟩ : ∃ m, step * m ≡ 1 [MOD n] := by
    obtain h1 | h1 := Nat.lt_or_ge 1 n
    · obtain ⟨m, -, hm⟩ := Nat.exists_mul_mod_eq_one_of_coprime hc h1
      exact ⟨m, hm.trans (Nat.mod_eq_of_lt h1).symm⟩
    · obtain rfl : n = 1 := by omega
      exact ⟨0, Nat.modEq_one⟩
  have hlt : first % n < n := Nat.mod_lt _ hpos
  refine ⟨m * (s + (n - first % n)) % n, Nat.mod_lt _ hpos, ?_⟩
  have hturns : m * (s + (n - first % n)) % n * step ≡ s + (n - first % n) [MOD n] := calc
    m * (s + (n - first % n)) % n * step ≡ m * (s + (n - first % n)) * step [MOD n] :=
      (Nat.mod_modEq _ _).mul_right _
    _ = step * m * (s + (n - first % n)) := by rw [Nat.mul_comm _ step, Nat.mul_assoc]
    _ ≡ 1 * (s + (n - first % n)) [MOD n] := hm.mul_right _
    _ = s + (n - first % n) := Nat.one_mul _
  have hsum : first + m * (s + (n - first % n)) % n * step ≡ s [MOD n] := calc
    first + m * (s + (n - first % n)) % n * step ≡ first % n + (s + (n - first % n)) [MOD n] :=
      (Nat.mod_modEq first n).symm.add hturns
    _ = s + n := by omega
    _ ≡ s [MOD n] := Nat.add_modEq_right
  exact Eq.trans hsum (Nat.mod_eq_of_lt hs)

/-- The first one is met again after `n` steps, and not before. -/
theorem cycle_eq_first_iff (hc : Nat.Coprime step n) (hf : first < n) {i : ℕ} :
    cycle n first step i = first ↔ n ∣ i := by
  have hmod : cycle n first step i = first ↔ first + i * step ≡ first [MOD n] := by
    rw [Nat.ModEq, Nat.mod_eq_of_lt hf]
    rfl
  rw [hmod, Nat.add_modEq_left_iff]
  exact ⟨fun h => hc.symm.dvd_of_dvd_mul_right h, fun h => h.mul_right step⟩

end Probing
