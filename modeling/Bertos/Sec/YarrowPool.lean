import Bertos.Lib.CTypes
import Bertos.Sec.Sha1

/-!
# The entropy pool of Yarrow (`sec/entropy/yarrow_pool.c`)

Each source feeds the fast and the slow pool in turn, and a pool counts the entropy of each source. The count of a call
is bounded by `len * 8 * 100 / 50` bits: twice the bits of the data, and not half of them. So the bytes behind a seed
are those of the thresholds only if the callers keep to the density of 50 percent themselves (`pool_seeds_enough`).
-/

namespace Bertos

open List Function

variable {τ : Type*}

/-! ## The functions -/

structure YarrowPool (τ : Type*) where
  hash : τ
  entropy : Fin 8 → ℤ

/-- `YarrowPoolContext`: pool 0, the fast one, is `false`. -/
structure YarrowPools (τ : Type*) where
  pools : Bool → YarrowPool τ
  curpool : Fin 8 → Bool

section Functions

variable (big : Bool) (h : Hash τ)

/-- `yarrowpool_init` -/
def yarrowpoolInit (hash : Bool → τ) : YarrowPools τ := ⟨fun p => ⟨h.begin (hash p), fun _ => 0⟩, fun _ => false⟩

/-- The loop of `yarrow_fast_reseed`, from turn `i` on. -/
def fastReseedLoop (v0 : List UInt8) : (turns : ℕ) → (i : UInt32) → τ → List UInt8 → τ × List UInt8
  | 0, _, hash, vcur => (hash, vcur)
  | turns + 1, i, hash, vcur =>
    let r := h.run hash [vcur, v0, storeWord big i]
    fastReseedLoop v0 turns (i + 1) r.1 r.2

/-- `yarrow_fast_reseed` -/
def yarrowFastReseed (ctx : YarrowPools τ) (len : ℕ) : YarrowPools τ × List UInt8 :=
  let r := h.final (ctx.pools false).hash
  let r := fastReseedLoop big h r.2 80 1 r.1 r.2
  ({ ctx with pools := update ctx.pools false ⟨h.begin r.1, fun _ => 0⟩ }, r.2.take len)

/-- `yarrow_slow_reseed` -/
def yarrowSlowReseed (ctx : YarrowPools τ) (len : ℕ) : YarrowPools τ × List UInt8 :=
  let r := h.final (ctx.pools true).hash
  let fast := { ctx.pools false with hash := h.update (ctx.pools false).hash r.2 }
  let s := yarrowFastReseed big h { ctx with pools := update ctx.pools false fast } len
  ({ s.1 with pools := update s.1.pools true ⟨h.begin r.1, fun _ => 0⟩ }, s.2)

/-- `yarrow_add_entropy`, where `size_t` and `int` have 32 bits. -/
def yarrowAddEntropy (ctx : YarrowPools τ) (source : Fin 8) (data : List UInt8) (entropy : ℕ) : YarrowPools τ :=
  let curpool := ctx.curpool source
  let entropy := min entropy (toUnsigned 32 (data.length * 8 * 100) / 50)
  let pool := ctx.pools curpool
  { curpool := update ctx.curpool source (!curpool)
    pools := update ctx.pools curpool
      ⟨h.update pool.hash data, update pool.entropy source (toSigned 32 (pool.entropy source + entropy))⟩ }

/-- `yarrow_fast_reseeding_ready` -/
def yarrowFastReseedingReady (ctx : YarrowPools τ) : Bool :=
  (List.finRange 8).any fun i => 100 ≤ (ctx.pools false).entropy i

/-- `yarrow_slow_reseeding_ready`: the loop returns at the second source. -/
def yarrowSlowReseedingReady (ctx : YarrowPools τ) : Bool :=
  2 ≤ ((List.finRange 8).filter fun i => 160 ≤ (ctx.pools true).entropy i).length

/-- `yarrow_reseeding_ready` -/
def yarrowReseedingReady (ctx : YarrowPools τ) : Bool := yarrowFastReseedingReady ctx || yarrowSlowReseedingReady ctx

/-- `yarrow_reseed` -/
def yarrowPoolReseed (ctx : YarrowPools τ) (len : ℕ) : YarrowPools τ × List UInt8 :=
  if yarrowSlowReseedingReady ctx then yarrowSlowReseed big h ctx len else yarrowFastReseed big h ctx len

end Functions

/-! ## Histories -/

inductive PoolCall where
  | addEntropy (source : Fin 8) (data : List UInt8) (entropy : ℕ)
  | makeSeed (len : ℕ)

/-- The pools, and the bytes that each source has added to each pool since it was last emptied. -/
structure PoolHistory (τ : Type*) where
  ctx : YarrowPools τ
  bytes : Bool → Fin 8 → ℕ

/-- Enough data for a seed, at four bits of entropy a byte. -/
def PoolHistory.Enough (s : PoolHistory τ) : Prop :=
  (∃ i, 25 ≤ s.bytes false i) ∨ ∃ i j, i ≠ j ∧ 40 ≤ s.bytes true i ∧ 40 ≤ s.bytes true j

section Histories

variable (big : Bool) (h : Hash τ)

/-- A call; `make_seed` is only called when a seed is ready. -/
def PoolHistory.step (s : PoolHistory τ) : PoolCall → Option (PoolHistory τ)
  | .addEntropy source data entropy =>
    let p := s.ctx.curpool source
    some ⟨yarrowAddEntropy h s.ctx source data entropy,
      update s.bytes p (update (s.bytes p) source (s.bytes p source + data.length))⟩
  | .makeSeed len =>
    if yarrowReseedingReady s.ctx then
      some ⟨(yarrowPoolReseed big h s.ctx len).1,
        if yarrowSlowReseedingReady s.ctx then fun _ _ => 0 else update s.bytes false fun _ => 0⟩
    else none

/-- The entropy counted for a source is at most four bits for each of its bytes. -/
def PoolHistory.Dense (s : PoolHistory τ) : Prop :=
  ∀ p i, -2147483648 ≤ (s.ctx.pools p).entropy i ∧ (s.ctx.pools p).entropy i ≤ 4 * s.bytes p i

variable {big h} {s s' : PoolHistory τ}

theorem toSigned_le {v : ℤ} (hv : -2147483648 ≤ v) : toSigned 32 v ≤ v := by
  obtain ⟨-, hlt⟩ := toSigned_range (by decide : 32 ≠ 0) v
  by_cases hhi : v < 2147483648
  · exact Int.le_of_eq (toSigned_of_range (by decide) hv hhi)
  · exact Int.le_trans (Int.le_of_lt hlt) (Int.not_lt.mp hhi)

/-- Dense entropy keeps the pool dense. -/
theorem PoolHistory.Dense.addEntropy (hs : s.Dense) {source : Fin 8} {data : List UInt8} {entropy : ℕ}
    (hdense : entropy ≤ 4 * data.length) (hstep : s.step big h (.addEntropy source data entropy) = some s') :
      s'.Dense := by
  cases hstep
  intro q i
  generalize hp : s.ctx.curpool source = p
  by_cases hq : q = p
  · subst hq
    by_cases hi : i = source
    · subst hi
      obtain ⟨hge, hle⟩ := hs q i
      have hsum := @toSigned_le ((s.ctx.pools q).entropy i +
        (min entropy (toUnsigned 32 (data.length * 8 * 100) / 50) : ℕ)) (by omega)
      simp only [yarrowAddEntropy, hp, update_self]
      exact ⟨(toSigned_range (by decide) _).1, by omega⟩
    · simp only [yarrowAddEntropy, hp, update_self, update_of_ne hi]
      exact hs q i
  · simp only [yarrowAddEntropy, hp, update_of_ne hq]
    exact hs q i

theorem PoolHistory.Dense.makeSeed (hs : s.Dense) {len : ℕ} (hstep : s.step big h (.makeSeed len) = some s') :
    s'.Dense := by
  obtain ⟨-, hs'⟩ := Option.ite_none_right_eq_some.mp hstep
  cases hs'
  have hzero : (-2147483648 : ℤ) ≤ 0 ∧ (0 : ℤ) ≤ 4 * (0 : ℕ) := by decide
  intro q i
  unfold yarrowPoolReseed
  split
  · cases q <;> exact hzero
  · cases q
    · exact hzero
    · exact hs true i

theorem PoolHistory.Dense.run (hs : s.Dense) {calls : List PoolCall}
    (hdense : ∀ source data entropy, .addEntropy source data entropy ∈ calls → entropy ≤ 4 * data.length)
    (hrun : calls.foldlM (PoolHistory.step big h) s = some s') : s'.Dense := by
  induction calls generalizing s with
  | nil =>
    cases hrun
    exact hs
  | cons call calls ih =>
    rw [foldlM_cons] at hrun
    obtain ⟨s₁, hstep, hrest⟩ := Option.bind_eq_some_iff.mp hrun
    refine ih ?_ (fun a b c hm => hdense a b c (mem_cons_of_mem _ hm)) hrest
    cases call with
    | addEntropy source data entropy => exact hs.addEntropy (hdense _ _ _ mem_cons_self) hstep
    | makeSeed len => exact hs.makeSeed hstep

/-- A dense pool that is ready has been given enough. -/
theorem PoolHistory.Dense.enough (hs : s.Dense) (hready : yarrowReseedingReady s.ctx = true) : s.Enough := by
  obtain hfast | hslow := Bool.or_eq_true_iff.mp hready
  · obtain ⟨i, -, hi⟩ := any_eq_true.mp hfast
    have hle := (hs false i).2
    have hi := of_decide_eq_true hi
    exact Or.inl ⟨i, by omega⟩
  · have htwo := of_decide_eq_true hslow
    have hnodup := (nodup_finRange 8).filter fun i => decide (160 ≤ (s.ctx.pools true).entropy i)
    have hmem : ∀ i ∈ (finRange 8).filter fun i => decide (160 ≤ (s.ctx.pools true).entropy i),
        40 ≤ s.bytes true i := by
      intro i hi
      have hi := of_decide_eq_true (mem_filter.mp hi).2
      have hle := (hs true i).2
      omega
    generalize (finRange 8).filter (fun i => decide (160 ≤ (s.ctx.pools true).entropy i)) = l at htwo hnodup hmem
    obtain ⟨i, j, l, rfl⟩ : ∃ i j l', l = i :: j :: l' := by
      obtain _ | ⟨i, _ | ⟨j, l⟩⟩ := l
      · simp at htwo
      · simp at htwo
      · exact ⟨i, j, l, rfl⟩
    refine Or.inr ⟨i, j, fun he => ?_, hmem i mem_cons_self, hmem j (mem_cons_of_mem _ mem_cons_self)⟩
    exact (nodup_cons.mp hnodup).1 (he ▸ mem_cons_self)

end Histories

/-- The pools after `yarrowpool_init`. -/
def poolStart (h : Hash τ) (hash : Bool → τ) : PoolHistory τ := ⟨yarrowpoolInit h hash, fun _ _ => 0⟩

/-- **Every seed has enough data behind it**, if no call claims more than half of the bits of its data. -/
theorem pool_seeds_enough {big : Bool} {h : Hash τ} {hash : Bool → τ} {calls : List PoolCall} {s : PoolHistory τ}
    (hdense : ∀ source data entropy, .addEntropy source data entropy ∈ calls → entropy ≤ 4 * data.length)
    (hrun : calls.foldlM (PoolHistory.step big h) (poolStart h hash) = some s)
    (hready : yarrowReseedingReady s.ctx = true) : s.Enough := by
  have hinit : (poolStart h hash).Dense := fun _ _ => ⟨(by decide : (-2147483648 : ℤ) ≤ 0), Int.le_refl 0⟩
  exact (hinit.run hdense hrun).enough hready

theorem pool_seeds_enough_fast : ∃ s, [PoolCall.addEntropy 3 (List.replicate 25 1) 100].foldlM
    (PoolHistory.step false (sha1 false)) (poolStart (sha1 false) fun _ => ⟨sha1Init, 0, 0, []⟩) = some s ∧
      s.Enough := by
  have hrun : [PoolCall.addEntropy 3 (replicate 25 1) 100].foldlM
    (PoolHistory.step false (sha1 false)) (poolStart (sha1 false) fun _ => ⟨sha1Init, 0, 0, []⟩) = some _ := rfl
  refine ⟨_, hrun, pool_seeds_enough (fun _ _ _ hm => ?_) hrun (by decide)⟩
  cases mem_singleton.mp hm
  decide

/-- Seven bytes with a claim of 112 bits. -/
theorem pool_seeds_on_seven : ∃ s, [PoolCall.addEntropy 0 (List.replicate 7 1) 112].foldlM
    (PoolHistory.step false (sha1 false)) (poolStart (sha1 false) fun _ => ⟨sha1Init, 0, 0, []⟩) = some s ∧
    yarrowReseedingReady s.ctx = true ∧ ¬ s.Enough := by
  refine ⟨_, rfl, by decide, ?_⟩
  unfold PoolHistory.Enough
  decide

end Bertos
