import Mathlib.Data.List.Nodup
import Mathlib.Logic.Function.Basic
import Mathlib.Tactic.Common

/-!
# A pool of message nodes shared by queues

Nodes circulate between a free list, queues, and the holders that take them out: a holder allocates a node, writes its
data and appends it to a queue; the reader of the queue takes the first node, reads its data and frees it (`PoolStep`).
Every node is at one place, and what has been put into a queue is what has been got from it, followed by what its
reader holds and what is in it (`PoolInv`).
-/

namespace Bertos

open List Function

/-- `held p` is the node that `p` has, and the queue that it was taken from and not yet read for. -/
structure Pool (P Q N D : Type) where
  free : List N
  queue : Q → List N
  data : N → D
  held : P → Option (N × Option Q)

inductive PoolEvent (Q D : Type)
  | put (q : Q) (d : D)
  | got (q : Q) (d : D)

inductive PoolPlace (P Q : Type)
  | free
  | queue (q : Q)
  | held (p : P)

section
variable {P Q N D : Type} [DecidableEq P] [DecidableEq Q] [DecidableEq N]

/-- The steps; `reader q` is the only one that takes from `q`. -/
inductive PoolStep (reader : Q → P) (s : Pool P Q N D) : Pool P Q N D → List (PoolEvent Q D) → Prop
  | alloc {p : P} {n : N} {r : List N} (hfree : s.free = n :: r) (hheld : s.held p = none) :
      PoolStep reader s { s with free := r, held := Function.update s.held p (some (n, none)) } []
  | write {p : P} {n : N} (hheld : s.held p = some (n, none)) (d : D) :
      PoolStep reader s { s with data := Function.update s.data n d } []
  | put {p : P} {n : N} (hheld : s.held p = some (n, none)) (q : Q) :
      PoolStep reader s
        { s with queue := Function.update s.queue q (s.queue q ++ [n]), held := Function.update s.held p none }
        [.put q (s.data n)]
  | take {q : Q} {n : N} {r : List N} (hqueue : s.queue q = n :: r) (hheld : s.held (reader q) = none) :
      PoolStep reader s
        { s with
          queue := Function.update s.queue q r, held := Function.update s.held (reader q) (some (n, some q)) } []
  | get {q : Q} {n : N} (hheld : s.held (reader q) = some (n, some q)) :
      PoolStep reader s { s with held := Function.update s.held (reader q) (some (n, none)) } [.got q (s.data n)]
  | release {p : P} {n : N} (hheld : s.held p = some (n, none)) :
      PoolStep reader s { s with free := n :: s.free, held := Function.update s.held p none } []

namespace Pool

/-- The node `n` is at this place. -/
def At (s : Pool P Q N D) (n : N) : PoolPlace P Q → Prop
  | .free => n ∈ s.free
  | .queue q => n ∈ s.queue q
  | .held p => ∃ o, s.held p = some (n, o)

/-- The node that has been taken from `q` and not yet read. -/
def handOf (v : Option (N × Option Q)) (q : Q) : List N :=
  match v with
  | some (n, some q') => if q' = q then [n] else []
  | _ => []

/-- The node that the reader of `q` has taken from it and not yet read. -/
def inHand (reader : Q → P) (s : Pool P Q N D) (q : Q) : List N := handOf (s.held (reader q)) q

end Pool

/-- What has been put into `q`, oldest first; the newest event of a log is its first. -/
def putInto (q : Q) : List (PoolEvent Q D) → List D
  | [] => []
  | .put q' d :: log => if q' = q then putInto q log ++ [d] else putInto q log
  | .got _ _ :: log => putInto q log

/-- What has been got from `q`, oldest first. -/
def gotFrom (q : Q) : List (PoolEvent Q D) → List D
  | [] => []
  | .put _ _ :: log => gotFrom q log
  | .got q' d :: log => if q' = q then gotFrom q log ++ [d] else gotFrom q log

/-- Every node is where `loc` says, and only there. -/
structure PoolPlaced (s : Pool P Q N D) (loc : N → PoolPlace P Q) : Prop where
  at_iff : ∀ n l, s.At n l ↔ loc n = l
  free : s.free.Nodup
  queue : ∀ q, (s.queue q).Nodup

structure PoolInv (reader : Q → P) (s : Pool P Q N D) (log : List (PoolEvent Q D)) : Prop where
  placed : ∃ loc, PoolPlaced s loc
  holder : ∀ p n q, s.held p = some (n, some q) → p = reader q
  fifo : ∀ q, putInto q log = gotFrom q log ++ (s.inHand reader q ++ s.queue q).map s.data

/-! ## Places -/

namespace PoolPlaced

variable {s s' : Pool P Q N D} {loc : N → PoolPlace P Q} {n : N}

omit [DecidableEq P] [DecidableEq Q] in
/-- The node `n` goes from one place to another. -/
theorem move (l0 l : PoolPlace P Q) (h : PoolPlaced s loc) (hfrom : ∀ y, s.At y l0 ↔ y = n ∨ s'.At y l0)
    (hout : ¬ s'.At n l0) (hto : ∀ y, s'.At y l ↔ y = n ∨ s.At y l)
    (hsame : ∀ l', l' ≠ l0 → l' ≠ l → ∀ y, s'.At y l' ↔ s.At y l') (hfree : s'.free.Nodup)
    (hqueue : ∀ q, (s'.queue q).Nodup) : PoolPlaced s' (Function.update loc n l) := by
  have hn : loc n = l0 := (h.at_iff n l0).mp ((hfrom n).mpr (.inl rfl))
  refine ⟨fun y l' => ?_, hfree, hqueue⟩
  by_cases hyn : y = n
  · subst hyn
    rw [update_self]
    by_cases h1 : l' = l
    · subst h1
      exact iff_of_true ((hto y).mpr (.inl rfl)) rfl
    by_cases h0 : l' = l0
    · subst h0
      exact iff_of_false hout (Ne.symm h1)
    · rw [hsame l' h0 h1, h.at_iff, hn]
      exact iff_of_false (Ne.symm h0) (Ne.symm h1)
  · rw [update_of_ne hyn, ← h.at_iff]
    by_cases h1 : l' = l
    · rw [h1, hto, or_iff_right hyn]
    by_cases h0 : l' = l0
    · rw [h0, hfrom, or_iff_right hyn]
    · exact hsame l' h0 h1 y

omit [DecidableEq P] [DecidableEq Q] [DecidableEq N] in
theorem unique (h : PoolPlaced s loc) {l l' : PoolPlace P Q} (hl : s.At n l) (hl' : s.At n l') : l = l' :=
  ((h.at_iff n l).mp hl).symm.trans ((h.at_iff n l').mp hl')

variable {o : Option Q}

omit [DecidableEq Q] in
theorem alloc {p : P} {r : List N} (h : PoolPlaced s loc) (hfree : s.free = n :: r) (hheld : s.held p = none) :
    PoolPlaced { s with free := r, held := update s.held p (some (n, o)) } (update loc n (.held p)) := by
  have hnodup := h.free
  rw [hfree, nodup_cons] at hnodup
  refine h.move .free (.held p) (fun y => ?_) hnodup.1 (fun y => ?_) (fun l h0 h1 y => ?_) hnodup.2 h.queue
  · simp [Pool.At, hfree]
  · simp [Pool.At, hheld, eq_comm]
  · cases l with
    | free => exact absurd rfl h0
    | queue q => exact Iff.rfl
    | held p' => simp [Pool.At, ne_of_apply_ne _ h1]

theorem put {p : P} (h : PoolPlaced s loc) (hheld : s.held p = some (n, o)) (q : Q) :
    PoolPlaced { s with queue := update s.queue q (s.queue q ++ [n]), held := update s.held p none }
      (update loc n (.queue q)) := by
  have hat : s.At n (.held p) := ⟨o, hheld⟩
  have hnot : ∀ q', n ∉ s.queue q' := fun q' hm => by cases h.unique hat (show s.At n (.queue q') from hm)
  refine h.move (.held p) (.queue q) (fun y => ?_) ?_ (fun y => ?_) (fun l h0 h1 y => ?_) h.free (fun q' => ?_)
  · simp [Pool.At, hheld, eq_comm]
  · simp [Pool.At]
  · simp [Pool.At, or_comm]
  · cases l with
    | free => exact Iff.rfl
    | queue q' => simp [Pool.At, ne_of_apply_ne _ h1]
    | held p' => simp [Pool.At, ne_of_apply_ne _ h0]
  · by_cases hqq : q' = q
    · subst hqq
      simpa using nodup_append_comm.mp (nodup_cons.mpr ⟨hnot q', h.queue q'⟩)
    · simpa [hqq] using h.queue q'

theorem take {p : P} {q : Q} {r : List N} (h : PoolPlaced s loc) (hqueue : s.queue q = n :: r)
    (hheld : s.held p = none) : PoolPlaced { s with queue := update s.queue q r, held := update s.held p (some (n, o)) }
      (update loc n (.held p)) := by
  have hnodup := h.queue q
  rw [hqueue, nodup_cons] at hnodup
  refine h.move (.queue q) (.held p) (fun y => ?_) ?_ (fun y => ?_) (fun l h0 h1 y => ?_) h.free (fun q' => ?_)
  · simp [Pool.At, hqueue]
  · simpa [Pool.At] using hnodup.1
  · simp [Pool.At, hheld, eq_comm]
  · cases l with
    | free => exact Iff.rfl
    | queue q' => simp [Pool.At, ne_of_apply_ne _ h0]
    | held p' => simp [Pool.At, ne_of_apply_ne _ h1]
  · by_cases hqq : q' = q
    · subst hqq
      simpa using hnodup.2
    · simpa [hqq] using h.queue q'

omit [DecidableEq Q] in
theorem release {p : P} (h : PoolPlaced s loc) (hheld : s.held p = some (n, o)) :
    PoolPlaced { s with free := n :: s.free, held := update s.held p none } (update loc n .free) := by
  have hat : s.At n (.held p) := ⟨o, hheld⟩
  have hnot : n ∉ s.free := fun hm => by cases h.unique hat (show s.At n .free from hm)
  refine h.move (.held p) .free (fun y => ?_) ?_ (fun y => ?_) (fun l h0 h1 y => ?_)
    (nodup_cons.mpr ⟨hnot, h.free⟩) h.queue
  · simp [Pool.At, hheld, eq_comm]
  · simp [Pool.At]
  · simp [Pool.At]
  · cases l with
    | free => exact absurd rfl h1
    | queue q => exact Iff.rfl
    | held p' => simp [Pool.At, ne_of_apply_ne _ h0]

omit [DecidableEq Q] [DecidableEq N] in
theorem keep {p : P} {o' : Option Q} (h : PoolPlaced s loc) (hheld : s.held p = some (n, o)) :
    PoolPlaced { s with held := update s.held p (some (n, o')) } loc := by
  refine ⟨fun y l => ?_, h.free, h.queue⟩
  rw [← h.at_iff]
  cases l with
  | free | queue q => exact Iff.rfl
  | held p' => by_cases hpp : p' = p <;> simp [Pool.At, hpp, hheld]

end PoolPlaced

/-! ## Steps -/

namespace PoolInv

variable {reader : Q → P} {s s' : Pool P Q N D} {log e : List (PoolEvent Q D)}

section
omit [DecidableEq N]

/-- What the readers hold, when a holder turns to something that is in no reader's hand more or less. -/
theorem handOf_update {p : P} {v : Option (N × Option Q)} {q : Q} (hv : Pool.handOf v q = Pool.handOf (s.held p) q)
    (y : P) : Pool.handOf (Function.update s.held p v y) q = Pool.handOf (s.held y) q := by
  by_cases hy : y = p
  · rw [hy, update_self, hv]
  · rw [update_of_ne hy]

theorem step_holder {p : P} {v : Option (N × Option Q)} (h : PoolInv reader s log)
    (hv : ∀ n q, v = some (n, some q) → p = reader q) (y : P) (n : N) (q : Q)
    (hy : Function.update s.held p v y = some (n, some q)) : y = reader q := by
  by_cases hyp : y = p
  · rw [hyp, update_self] at hy
    exact hyp.trans (hv n q hy)
  · rw [update_of_ne hyp] at hy
    exact h.holder y n q hy

end

/-- **Every step** keeps the invariant. -/
theorem step (h : PoolInv reader s log) (hs : PoolStep reader s s' e) : PoolInv reader s' (e ++ log) := by
  obtain ⟨loc, hplaced⟩ := h.placed
  cases hs with
  | @alloc p n r hfree hheld =>
    refine ⟨⟨_, hplaced.alloc hfree hheld⟩, h.step_holder (fun _ _ hv => by cases hv), fun q => ?_⟩
    have hhand := handOf_update (s := s) (q := q) (v := some (n, none)) (by rw [hheld]; rfl) (reader q)
    simpa only [Pool.inHand, hhand, nil_append] using h.fifo q
  | @write p n hheld d =>
    refine ⟨⟨loc, hplaced.at_iff, hplaced.free, hplaced.queue⟩, h.holder, fun q => ?_⟩
    have hat : s.At n (.held p) := ⟨none, hheld⟩
    -- the node is neither in the queue nor in the hand of its reader
    have hne : ∀ y ∈ s.inHand reader q ++ s.queue q, y ≠ n := by
      rintro y hy rfl
      obtain hy | hy := mem_append.mp hy
      · unfold Pool.inHand Pool.handOf at hy
        split at hy
        · next n' q' hr =>
          split at hy
          · rw [mem_singleton] at hy
            subst hy
            have hat' : s.At y (.held (reader q)) := ⟨_, hr⟩
            cases hplaced.unique hat hat'
            rw [hr] at hheld
            cases hheld
          · cases hy
        · cases hy
      · have hat' : s.At y (.queue q) := hy
        cases hplaced.unique hat hat'
    have hmap : (s.inHand reader q ++ s.queue q).map (update s.data n d) =
        (s.inHand reader q ++ s.queue q).map s.data :=
      map_congr_left fun y hy => update_of_ne (hne y hy) _ _
    exact (h.fifo q).trans (congrArg (gotFrom q log ++ ·) hmap.symm)
  | @put p n hheld q' =>
    refine ⟨⟨_, hplaced.put hheld q'⟩, h.step_holder (fun _ _ hv => by cases hv), fun q => ?_⟩
    have hhand := handOf_update (s := s) (p := p) (v := none) (q := q) (by rw [hheld]; rfl) (reader q)
    have hfifo := h.fifo q
    unfold Pool.inHand at hfifo ⊢
    dsimp only
    rw [hhand]
    by_cases hq : q' = q
    · subst hq
      simp [putInto, gotFrom, hfifo]
    · simp [putInto, gotFrom, hfifo, hq, Ne.symm hq]
  | @take q' n r hqueue hheld =>
    refine ⟨⟨_, hplaced.take hqueue hheld⟩, h.step_holder (fun _ _ hv => by cases hv; rfl), fun q => ?_⟩
    have hfifo := h.fifo q
    unfold Pool.inHand at hfifo ⊢
    dsimp only
    by_cases hq : q = q'
    · subst hq
      rw [hqueue, hheld] at hfifo
      rw [update_self, update_self]
      simpa [Pool.handOf] using hfifo
    · have hhand := handOf_update (s := s) (p := reader q') (v := some (n, some q')) (q := q)
        (by simp [Pool.handOf, hheld, Ne.symm hq]) (reader q)
      rw [hhand, update_of_ne hq]
      exact hfifo
  | @get q' n hheld =>
    refine ⟨⟨_, hplaced.keep hheld⟩, h.step_holder (fun _ _ hv => by cases hv), fun q => ?_⟩
    have hfifo := h.fifo q
    unfold Pool.inHand at hfifo ⊢
    dsimp only
    by_cases hq : q = q'
    · subst hq
      rw [hheld] at hfifo
      rw [update_self]
      simpa [putInto, gotFrom, Pool.handOf] using hfifo
    · have hhand := handOf_update (s := s) (p := reader q') (v := some (n, none)) (q := q)
        (by simp [Pool.handOf, hheld, Ne.symm hq]) (reader q)
      rw [hhand]
      simpa [putInto, gotFrom, Ne.symm hq] using hfifo
  | @release p n hheld =>
    refine ⟨⟨_, hplaced.release hheld⟩, h.step_holder (fun _ _ hv => by cases hv), fun q => ?_⟩
    have hhand := handOf_update (s := s) (p := p) (v := none) (q := q) (by rw [hheld]; rfl) (reader q)
    simpa only [Pool.inHand, hhand, nil_append] using h.fifo q

omit [DecidableEq P] [DecidableEq N] in
theorem init {free : List N} {data : N → D} (hfree : free.Nodup) (hall : ∀ n, n ∈ free) :
    PoolInv reader ⟨free, fun _ => [], data, fun _ => none⟩ [] := by
  refine ⟨⟨fun _ => .free, fun n l => ?_, hfree, fun _ => nodup_nil⟩, (fun _ _ _ hv => by cases hv), fun _ => rfl⟩
  cases l with
  | free => exact iff_of_true (hall n) rfl
  | queue q | held p => simp [Pool.At]

end PoolInv

end

end Bertos
