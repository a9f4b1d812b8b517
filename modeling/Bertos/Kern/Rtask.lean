import Bertos.Drv.Timer

/-!
# Run-time tasks

`kern/rtask.c`: a process that runs callbacks at their time, from a list of timers sorted by expiry, and any number of
processes that add tasks with `rtask_add`. Each section between `sem_obtain` and `sem_release` is one step, and so is
each stretch of code between two sections; the clock may tick at any point. The machine starts when `rtask_add` has
created the process. `timer_delayTicks` sleeps on `SIG_SINGLE` until a timer of its own expires, which is not before
its tick. The main result is `rtask_removes_expired`.
-/

namespace Bertos

open List Function BitVec

/-- Where `rtask_proc` is. -/
inductive RtaskPc (T : Type)
  /-- Before the section that looks whether the list is empty. -/
  | start
  /-- The list was empty: in `sig_wait`. -/
  | waitNew
  /-- Before the section that reads the next timeout. -/
  | next
  /-- The timeout is read, the timer of `timer_delayTicks` not added yet. -/
  | delay (delay : Ticks)
  /-- In `timer_delayTicks`, asleep until this tick. -/
  | asleep (tick : Ticks)
  /-- Before the section that takes the first timer. -/
  | take
  /-- In the callback. -/
  | run (t : T)
  /-- The callback has returned `true`. -/
  | readd (t : T)
  /-- The callback has returned `false`. -/
  | free (t : T)
  /-- A timer was removed from the empty list. -/
  | lost

/-- Where a caller of `rtask_add` is. -/
inductive RtaskAddPc (T : Type)
  | idle
  /-- The task is allocated and filled in. -/
  | allocated (t : T)
  /-- The task is queued, the signal not sent yet. -/
  | queued

/-- The clock, the tasks, `rt_list`, `rtask_pool`, whether `NEW_TASK` is pending, `rtask_proc`, and the callers of
`rtask_add`. -/
structure Rtask (Q T : Type) where
  clock : Ticks
  timer : T → Timer
  rtList : List T
  pool : List T
  newTask : Bool
  pc : RtaskPc T
  add : Q → RtaskAddPc T

inductive RtaskEvent (T : Type)
  /-- The section that takes the first timer was executed with an empty list. -/
  | removedEmpty
  /-- It has taken a timer; `timer_clock() - tick` at that moment. -/
  | removed (t : T) (late : ℤ)
  deriving DecidableEq

inductive RtaskAction (Q : Type)
  /-- The timer interrupt. -/
  | tick
  /-- `rtask_proc` goes on; a callback returns `again`. -/
  | proc (again : Bool)
  /-- A process calls `rtask_add`. -/
  | add (q : Q) (delay : Ticks)
  /-- Its section with `synctimer_add`. -/
  | queue (q : Q)
  /-- Its `sig_send`. -/
  | send (q : Q)

section
variable {Q T : Type} [DecidableEq Q] [DecidableEq T]

namespace Rtask

def synctimerNextTimeout (s : Rtask Q T) : Ticks :=
  match s.rtList with
  | [] => -1
  | t :: _ => if 0 < ((s.timer t).tick - s.clock).toInt then (s.timer t).tick - s.clock else 0

/-- `timer_addToList` of `t`, its tick set. -/
def addToList (s : Rtask Q T) (t : T) (tick : Ticks) : Option (Rtask Q T) :=
  (timerAddToList (Function.update s.timer t { s.timer t with tick := tick }) t s.rtList).map fun r =>
    { s with timer := r.1, rtList := r.2 }

def synctimerAdd (s : Rtask Q T) (t : T) : Option (Rtask Q T) :=
  s.addToList t (s.clock + (s.timer t).delay)

def synctimerReadd (s : Rtask Q T) (t : T) : Option (Rtask Q T) :=
  s.addToList t ((s.timer t).tick + (s.timer t).delay)

def takeFirst (s : Rtask Q T) : Rtask Q T × List (RtaskEvent T) :=
  match s.rtList with
  | [] => ({ s with pc := .lost }, [.removedEmpty])
  | t :: rest =>
    ({ s with
       rtList := rest
       timer := Function.update s.timer t { s.timer t with magic := timerMagicInactive }
       pc := .run t },
      [.removed t (s.clock - (s.timer t).tick).toInt])

/-- The next step of `rtask_proc`. -/
def procStep (s : Rtask Q T) (again : Bool) : Option (Rtask Q T × List (RtaskEvent T)) :=
  match s.pc with
  | .start => some ({ s with newTask := false, pc := if s.rtList.isEmpty then .waitNew else .next }, [])
  | .waitNew => if s.newTask then some ({ s with newTask := false, pc := .next }, []) else none
  | .next => some ({ s with pc := .delay s.synctimerNextTimeout }, [])
  | .delay delay => some ({ s with pc := .asleep (s.clock + delay) }, [])
  | .asleep tick => if 0 ≤ (s.clock - tick).toInt then some ({ s with pc := .take }, []) else none
  | .take => some s.takeFirst
  | .run t => some ({ s with pc := if again then .readd t else .free t }, [])
  | .readd t => (s.synctimerReadd t).map fun s' => ({ s' with pc := .start }, [])
  | .free t => some ({ s with pool := t :: s.pool, pc := .start }, [])
  | .lost => none

/-- `rtask_add` up to its second section. -/
def rtaskAdd (s : Rtask Q T) (q : Q) (delay : Ticks) : Rtask Q T :=
  match s.pool with
  | [] => s
  | t :: pool =>
    { s with
      pool := pool
      timer := Function.update s.timer t { s.timer t with delay := delay }
      add := Function.update s.add q (.allocated t) }

def step (s : Rtask Q T) : RtaskAction Q → Option (Rtask Q T × List (RtaskEvent T))
  | .tick => some ({ s with clock := s.clock + 1 }, [])
  | .proc again => s.procStep again
  | .add q delay =>
    match s.add q with
    | .idle => some (s.rtaskAdd q delay, [])
    | _ => none
  | .queue q =>
    match s.add q with
    | .allocated t => (s.synctimerAdd t).map fun s' => ({ s' with add := Function.update s.add q .queued }, [])
    | _ => none
  | .send q =>
    match s.add q with
    | .queued => some ({ s with newTask := true, add := Function.update s.add q .idle }, [])
    | _ => none

/-- The ticks from now to `tick`. -/
def remaining (s : Rtask Q T) (tick : Ticks) : Ticks :=
  tick - s.clock

/-- A tick that can be compared with all those of the list. -/
def Fits (s : Rtask Q T) (tick : Ticks) : Prop :=
  s.remaining tick ≠ BitVec.intMin 32 ∧
    ∀ u ∈ s.rtList, (s.remaining (s.timer u).tick).ssubOverflow (s.remaining tick) = false

/-- When the list is found empty, no `rtask_add` is about to send its signal; a task is queued only when its tick can be
compared with the others, and no queued task becomes overdue by half of the clock's range. -/
def Ok (s : Rtask Q T) : RtaskAction Q → Prop
  | .tick => ∀ u ∈ s.rtList, (s.timer u).tick - (s.clock + 1) ≠ BitVec.intMin 32
  | .proc _ =>
    match s.pc with
    | .start => s.rtList = [] → ∀ q, s.add q ≠ .queued
    | .readd t => s.Fits ((s.timer t).tick + (s.timer t).delay)
    | _ => True
  | .queue q =>
    match s.add q with
    | .allocated t => s.Fits (s.clock + (s.timer t).delay)
    | _ => True
  | _ => True

end Rtask

def rtaskMachine : Machine (Rtask Q T) (RtaskAction Q) (RtaskEvent T) where
  init s := s.rtList = [] ∧ s.pc = .start ∧ (∀ q, s.add q = .idle) ∧ ∀ t, (s.timer t).magic ≠ timerMagicActive
  step s a := s.step a

/-! ## The list -/

theorem Ticks.toInt_pred {x : Ticks} (h : x ≠ BitVec.intMin 32) : (x - 1).toInt = x.toInt - 1 := by
  have hlow := x.le_toInt
  have hhigh := x.toInt_lt
  have hne : x.toInt ≠ -2147483648 := by
    intro e
    refine h (eq_of_toInt_eq ?_)
    rw [e]
    decide
  have h1 : (1 : Ticks).toInt = 1 := by decide
  rw [toInt_sub, h1]
  apply Int.bmod_eq_of_le_mul_two
  all_goals simp at *; omega

namespace Rtask

variable {s s' : Rtask Q T} {t : T} {expiry : Ticks}

/-- The ticks from now to the expiry of `t`, as a number. -/
def rem (s : Rtask Q T) (t : T) : ℤ :=
  (s.remaining (s.timer t).tick).toInt

/-- **The invariant of the list**: the active timers, each once, sorted by expiry, none overdue by half of the range. -/
structure ListInv (s : Rtask Q T) : Prop where
  magic : ∀ t, (s.timer t).magic = timerMagicActive ↔ t ∈ s.rtList
  nodup : s.rtList.Nodup
  sorted : s.rtList.Pairwise fun a b => s.rem a ≤ s.rem b
  late : ∀ t ∈ s.rtList, s.remaining (s.timer t).tick ≠ BitVec.intMin 32

/-- A queued task expires within `b` ticks. -/
def Due (s : Rtask Q T) (b : ℤ) : Prop :=
  ∃ t ∈ s.rtList, s.rem t ≤ b

section
omit [DecidableEq Q] [DecidableEq T]

theorem Due.mono {b b' : ℤ} (h : s.Due b) (hb : b ≤ b') : s.Due b' := by
  obtain ⟨t, ht, hr⟩ := h
  exact ⟨t, ht, hr.trans hb⟩

theorem ListInv.rem_head (h : s.ListInv) {rest : List T} (hl : s.rtList = t :: rest) {b : ℤ} (hd : s.Due b) :
    s.rem t ≤ b := by
  obtain ⟨u, hu, hr⟩ := hd
  have hs := h.sorted
  rw [hl] at hs hu
  rcases mem_cons.mp hu with rfl | hu
  · exact hr
  · exact ((pairwise_cons.mp hs).1 u hu).trans hr

end

omit [DecidableEq Q] in
/-- **Adding a task** whose tick fits. -/
theorem ListInv.addToList (h : s.ListInv) (hf : s.Fits expiry) (hs : s.addToList t expiry = some s') :
    s'.ListInv ∧ (∀ u, u ∈ s'.rtList ↔ u = t ∨ u ∈ s.rtList) ∧ (∀ u ∈ s.rtList, s'.rem u = s.rem u) ∧
      s'.clock = s.clock ∧ s'.newTask = s.newTask ∧ s'.pc = s.pc ∧ s'.add = s.add := by
  obtain ⟨r, hr, rfl⟩ := Option.map_eq_some_iff.mp hs
  unfold timerAddToList at hr
  rw [update_self] at hr
  split at hr
  · cases hr
  · next hm =>
    cases hr
    have ht : t ∉ s.rtList := fun ht => hm ((h.magic t).mpr ht)
    have hne : ∀ u ∈ s.rtList, u ≠ t := fun u hu e => ht (e ▸ hu)
    have hdiff : ∀ u ∈ s.rtList, ((s.timer u).tick - expiry).toInt = s.rem u - (s.remaining expiry).toInt := fun u hu =>
      Serial.toInt_sub_of_fits (hf.2 u hu)
    refine ⟨⟨?_, ?_, ?_, ?_⟩, ?_, ?_, rfl, rfl, rfl, rfl⟩
    · intro u
      rw [mem_orderedInsert]
      by_cases hu : u = t
      · simp [hu]
      · simp [hu, h.magic]
    · exact (perm_orderedInsert _ t s.rtList).nodup_iff.mpr (nodup_cons.mpr ⟨ht, h.nodup⟩)
    · refine pairwise_orderedInsert (h.sorted.imp_of_mem ?_) ?_ ?_ ?_
      · intro a b ha hb hab
        simpa [rem, remaining, hne a ha, hne b hb] using hab
      · intro b hb hr
        have hd := hdiff b hb
        simp only [update_self, update_of_ne (hne b hb)] at hr
        simp only [rem, remaining, update_self, update_of_ne (hne b hb)] at hd ⊢
        omega
      · intro b hb hr
        have hd := hdiff b hb
        simp only [update_self, update_of_ne (hne b hb)] at hr
        simp only [rem, remaining, update_self, update_of_ne (hne b hb)] at hd ⊢
        omega
      · intro b hb c hc hr hbc
        have hd := hdiff b hb
        simp only [update_self, update_of_ne (hne b hb)] at hr
        simp only [rem, remaining, update_self, update_of_ne (hne b hb),
          update_of_ne (hne c hc)] at hd hbc ⊢
        omega
    · intro u hu
      rcases (mem_orderedInsert _).mp hu with rfl | hu
      · simpa [remaining] using hf.1
      · simpa [remaining, hne u hu] using h.late u hu
    · exact fun u => mem_orderedInsert _
    · intro u hu
      simp [rem, remaining, hne u hu]

omit [DecidableEq Q] [DecidableEq T] in
/-- **A tick** of the clock. -/
theorem ListInv.tick (h : s.ListInv) (hok : ∀ u ∈ s.rtList, (s.timer u).tick - (s.clock + 1) ≠ BitVec.intMin 32) :
    ListInv { s with clock := s.clock + 1 } ∧ ∀ u ∈ s.rtList, rem { s with clock := s.clock + 1 } u = s.rem u - 1 := by
  have hrem : ∀ u ∈ s.rtList, rem { s with clock := s.clock + 1 } u = s.rem u - 1 := by
    intro u hu
    have he : (s.timer u).tick - (s.clock + 1) = (s.timer u).tick - s.clock - 1 := by grind
    show ((s.timer u).tick - (s.clock + 1)).toInt = _
    rw [he]
    exact Ticks.toInt_pred (h.late u hu)
  refine ⟨⟨h.magic, h.nodup, h.sorted.imp_of_mem ?_, hok⟩, hrem⟩
  intro a b ha hb hab
  rw [hrem a ha, hrem b hb]
  omega

omit [DecidableEq Q] in
/-- **The first task is taken**: it has expired when a task is due. -/
theorem ListInv.takeFirst (h : s.ListInv) (hd : s.Due 0) :
    s.takeFirst.1.ListInv ∧ (∃ t late, s.takeFirst.2 = [.removed t late] ∧ 0 ≤ late) ∧
      ∃ t, s.takeFirst.1.pc = .run t := by
  unfold Rtask.takeFirst
  split
  · next hl =>
    obtain ⟨t, ht, -⟩ := hd
    rw [hl] at ht
    cases ht
  · next t rest hl =>
    have hle := h.rem_head hl hd
    have hmem : t ∈ s.rtList := by rw [hl]; exact mem_cons_self
    obtain ⟨hnot, hnodup⟩ := nodup_cons.mp (hl ▸ h.nodup)
    have hne : ∀ u ∈ rest, u ≠ t := fun u hu e => hnot (e ▸ hu)
    have hsorted := h.sorted
    rw [hl] at hsorted
    refine ⟨⟨?_, hnodup, ?_, ?_⟩, ⟨t, _, rfl, ?_⟩, t, rfl⟩
    · intro u
      by_cases hu : u = t
      · subst hu
        simp [hnot, timerMagicActive, timerMagicInactive]
      · simp [hu, h.magic, hl]
    · refine (pairwise_cons.mp hsorted).2.imp_of_mem ?_
      intro a b ha hb hab
      simpa [rem, remaining, hne a ha, hne b hb] using hab
    · intro u hu
      simpa [remaining, hne u hu] using h.late u (by rw [hl]; exact mem_cons_of_mem t hu)
    · have hneg : s.clock - (s.timer t).tick = -(s.remaining (s.timer t).tick) := by
        unfold remaining
        grind
      rw [hneg, toInt_neg_of_ne_intMin (h.late t hmem)]
      unfold rem at hle
      omega

/-! ## The process -/

/-- **The invariant of the process**, by its place: in `sig_wait`, a signal that is pending or about to be sent is
for a task in the list; from there on the list has a task, and from the moment its timeout is read one that
expires in time. -/
def PcInv (s : Rtask Q T) : Prop :=
  match s.pc with
  | .waitNew => (s.newTask = true → s.rtList ≠ []) ∧ ∀ q, s.add q = .queued → s.rtList ≠ []
  | .next => s.rtList ≠ []
  | .delay delay => s.Due delay.toInt
  | .asleep tick => s.Due (s.remaining tick).toInt
  | .take => s.Due 0
  | .lost => False
  | _ => True

section
omit [DecidableEq Q] [DecidableEq T]

/-- The invariant of the loop survives a longer list, -/
theorem PcInv.grow (h : s.PcInv) (hpc : s'.pc = s.pc) (hclock : s'.clock = s.clock)
    (hlist : ∀ u ∈ s.rtList, u ∈ s'.rtList ∧ s'.rem u = s.rem u)
    (hnew : s.pc = .waitNew → (s'.newTask = true → s'.rtList ≠ []) ∧ ∀ q, s'.add q = .queued → s'.rtList ≠ []) :
    s'.PcInv := by
  have hdue : ∀ {b}, s.Due b → s'.Due b := by
    rintro b ⟨u, hu, hr⟩
    exact ⟨u, (hlist u hu).1, (hlist u hu).2.trans_le hr⟩
  unfold PcInv at h ⊢
  rw [hpc]
  split at h
  · next hp => exact hnew hp
  · obtain ⟨u, hu⟩ := exists_mem_of_ne_nil _ h
    exact ne_nil_of_mem (hlist u hu).1
  · exact hdue h
  · unfold remaining at h ⊢
    rw [hclock]
    exact hdue h
  · exact hdue h
  · exact h
  · trivial

/-- and a tick that overflows no difference. -/
theorem PcInv.tick (h : s.PcInv) (hl : s.ListInv)
    (hok : ∀ u ∈ s.rtList, (s.timer u).tick - (s.clock + 1) ≠ BitVec.intMin 32) :
    PcInv { s with clock := s.clock + 1 } := by
  have hrem := (hl.tick hok).2
  have hdue : ∀ {b}, s.Due b → Due { s with clock := s.clock + 1 } b := by
    rintro b ⟨u, hu, hr⟩
    refine ⟨u, hu, ?_⟩
    rw [hrem u hu]
    omega
  unfold PcInv at h ⊢
  split at h
  · next hp => rw [hp]; exact h
  · next hp => rw [hp]; exact h
  · next hp => rw [hp]; exact hdue h
  · next tick hp =>
    rw [hp]
    obtain ⟨u, hu, hr⟩ := h
    have hne : s.remaining tick ≠ intMin 32 := by
      intro e
      refine hl.late u hu (eq_of_toInt_eq (le_antisymm ?_ ?_))
      · rw [← e]
        exact hr
      · exact le_toInt _
    have he : tick - (s.clock + 1) = tick - s.clock - 1 := by grind
    have hrem' : (remaining { s with clock := s.clock + 1 } tick).toInt = (s.remaining tick).toInt - 1 := by
      show (tick - (s.clock + 1)).toInt = _
      rw [he]
      exact Ticks.toInt_pred hne
    refine ⟨u, hu, (hrem u hu).trans_le (le_trans ?_ hrem'.ge)⟩
    omega
  · next hp => rw [hp]; exact hdue h
  · exact absurd h id
  · trivial

end

omit [DecidableEq Q] in
/-- **A step of `rtask_proc`** keeps the invariant, and takes expired tasks only. -/
theorem procStep_inv (hl : s.ListInv) (hp : s.PcInv) {again : Bool} {e : List (RtaskEvent T)}
    (hok : s.Ok (.proc again)) (hs : s.procStep again = some (s', e)) :
    s'.ListInv ∧ s'.PcInv ∧ ∀ ev ∈ e, ∃ t late, ev = .removed t late ∧ 0 ≤ late := by
  unfold procStep at hs
  unfold PcInv at hp
  unfold Ok at hok
  split at hs
  · next hpc =>
    cases hs
    rw [hpc] at hok
    refine ⟨{ hl with }, ?_, nofun⟩
    unfold PcInv
    by_cases hempty : s.rtList = []
    · simp only [hempty, isEmpty_nil, if_true]
      exact ⟨nofun, fun q hq => absurd hq (hok hempty q)⟩
    · simp only [isEmpty_eq_false_iff.mpr hempty]
      exact hempty
  · next hpc =>
    rw [hpc] at hp
    split at hs
    · next hn =>
      cases hs
      exact ⟨{ hl with }, hp.1 hn, nofun⟩
    · cases hs
  · next hpc =>
    cases hs
    rw [hpc] at hp
    refine ⟨{ hl with }, ?_, nofun⟩
    show s.Due s.synctimerNextTimeout.toInt
    unfold synctimerNextTimeout
    split
    · next hnil => exact absurd hnil hp
    · next t rest hcons =>
      refine ⟨t, by rw [hcons]; exact mem_cons_self, ?_⟩
      split
      · exact le_refl _
      · next hle =>
        have h0 : (0 : Ticks).toInt = 0 := by decide
        rw [h0]
        exact not_lt.mp hle
  · next delay hpc =>
    cases hs
    rw [hpc] at hp
    refine ⟨{ hl with }, ?_, nofun⟩
    have he : s.clock + delay - s.clock = delay := by grind
    show s.Due (s.clock + delay - s.clock).toInt
    rw [he]
    exact hp
  · next tick hpc =>
    rw [hpc] at hp
    split at hs
    · next hle =>
      cases hs
      refine ⟨{ hl with }, ?_, nofun⟩
      refine hp.mono ?_
      have hneg : s.clock - tick = -(s.remaining tick) := by
        unfold remaining
        grind
      by_cases hmin : s.remaining tick = intMin 32
      · rw [hmin]
        decide
      · rw [hneg, toInt_neg_of_ne_intMin hmin] at hle
        omega
    · cases hs
  · next hpc =>
    rw [hpc] at hp
    obtain ⟨hl', ⟨t, late, he, hlate⟩, u, hpc'⟩ := hl.takeFirst hp
    rw [Option.some.inj hs] at hl' he hpc'
    subst he
    refine ⟨hl', ?_, by simpa using hlate⟩
    unfold PcInv
    rw [hpc']
    trivial
  · next t hpc =>
    cases hs
    refine ⟨{ hl with }, ?_, nofun⟩
    cases again <;> trivial
  · next t hpc =>
    rw [hpc] at hok
    obtain ⟨s₁, h₁, hs⟩ := Option.map_eq_some_iff.mp hs
    cases hs
    obtain ⟨hl', -⟩ := hl.addToList hok h₁
    exact ⟨⟨hl'.magic, hl'.nodup, hl'.sorted, hl'.late⟩, trivial, nofun⟩
  · next t hpc =>
    cases hs
    exact ⟨{ hl with }, trivial, nofun⟩
  · cases hs

/-- **`rtask_add`** keeps both invariants. -/
theorem rtaskAdd_inv (hl : s.ListInv) (hp : s.PcInv) (q : Q) (delay : Ticks) :
    (s.rtaskAdd q delay).ListInv ∧ (s.rtaskAdd q delay).PcInv := by
  unfold rtaskAdd
  split
  · exact ⟨hl, hp⟩
  · next t pool hpool =>
    have htick : ∀ u, (update s.timer t { s.timer t with delay := delay } u).tick = (s.timer u).tick := by
      intro u
      by_cases hu : u = t <;> simp [hu]
    have hmagic : ∀ u, (update s.timer t { s.timer t with delay := delay } u).magic = (s.timer u).magic := by
      intro u
      by_cases hu : u = t <;> simp [hu]
    refine ⟨⟨fun u => ?_, hl.nodup, ?_, fun u hu => ?_⟩, hp.grow rfl rfl (fun u hu => ⟨hu, ?_⟩) fun hpc => ?_⟩
    · show (update s.timer t _ u).magic = _ ↔ _
      rw [hmagic]
      exact hl.magic u
    · unfold rem remaining
      simp only [htick]
      exact hl.sorted
    · unfold remaining
      simp only [htick]
      exact hl.late u hu
    · unfold rem remaining
      simp only [htick]
    · unfold PcInv at hp
      rw [hpc] at hp
      refine ⟨hp.1, fun q' hq' => ?_⟩
      simp only [update_apply] at hq'
      split at hq'
      · cases hq'
      · exact hp.2 q' hq'

/-- **Every allowed step keeps the invariant**, and takes expired tasks only. -/
theorem step_inv (hl : s.ListInv) (hp : s.PcInv) {a : RtaskAction Q} {e : List (RtaskEvent T)} (hok : s.Ok a)
    (hs : s.step a = some (s', e)) :
    s'.ListInv ∧ s'.PcInv ∧ ∀ ev ∈ e, ∃ t late, ev = .removed t late ∧ 0 ≤ late := by
  cases a with
  | tick =>
    cases hs
    exact ⟨(hl.tick hok).1, hp.tick hl hok, nofun⟩
  | proc again => exact procStep_inv hl hp hok hs
  | add q delay =>
    simp only [step] at hs
    split at hs
    · cases hs
      obtain ⟨hl', hp'⟩ := rtaskAdd_inv hl hp q delay
      exact ⟨hl', hp', nofun⟩
    · cases hs
  | queue q =>
    simp only [step] at hs
    simp only [Ok] at hok
    split at hs
    · next t hq =>
      rw [hq] at hok
      obtain ⟨s₁, h₁, hs⟩ := Option.map_eq_some_iff.mp hs
      cases hs
      obtain ⟨hl', hmem, hrem, hclock, hnew, hpc, hadd⟩ := hl.addToList hok h₁
      have hne : s₁.rtList ≠ [] := ne_nil_of_mem ((hmem t).mpr (Or.inl rfl))
      refine ⟨⟨hl'.magic, hl'.nodup, hl'.sorted, hl'.late⟩, ?_, nofun⟩
      exact hp.grow hpc hclock (fun u hu => ⟨(hmem u).mpr (Or.inr hu), hrem u hu⟩) fun _ =>
        ⟨fun _ => hne, fun _ _ => hne⟩
    · cases hs
  | send q =>
    simp only [step] at hs
    split at hs
    · next hq =>
      cases hs
      refine ⟨{ hl with }, hp.grow rfl rfl (fun u hu => ⟨hu, rfl⟩) fun hpc => ?_, nofun⟩
      unfold PcInv at hp
      rw [hpc] at hp
      refine ⟨fun _ => hp.2 q hq, fun q' hq' => ?_⟩
      simp only [update_apply] at hq'
      split at hq'
      · cases hq'
      · exact hp.2 q' hq'
    · cases hs

end Rtask

/-- **The process takes expired tasks only.** In every run whose steps all meet the conditions, the section that takes
the first timer of the list has found one each time it was executed, and that timer had expired. -/
theorem rtask_removes_expired {s : Rtask Q T} {log : List (RtaskEvent T)} (h : rtaskMachine.Run Rtask.Ok s log) :
    ∀ ev ∈ log, ∃ t late, ev = .removed t late ∧ 0 ≤ late := by
  have hinv : s.ListInv ∧ s.PcInv ∧ ∀ ev ∈ log, ∃ t late, ev = .removed t late ∧ 0 ≤ late := by
    refine h.invariant (I := fun s log => s.ListInv ∧ s.PcInv ∧
      ∀ ev ∈ log, ∃ t late, ev = .removed t late ∧ 0 ≤ late) ?_ ?_
    · rintro s ⟨hlist, hpc, -, hmagic⟩
      refine ⟨⟨fun t => ?_, ?_, ?_, ?_⟩, ?_, nofun⟩
      · rw [hlist]
        exact ⟨fun hm => absurd hm (hmagic t), nofun⟩
      · rw [hlist]
        exact nodup_nil
      · rw [hlist]
        exact List.Pairwise.nil
      · rw [hlist]
        exact nofun
      · unfold Rtask.PcInv
        rw [hpc]
        trivial
    · rintro s log a s' e ⟨hl, hp, hlog⟩ hok hs
      obtain ⟨hl', hp', he⟩ := Rtask.step_inv hl hp hok hs
      exact ⟨hl', hp', forall_mem_append.mpr ⟨he, hlog⟩⟩
  exact hinv.2.2

end

/-- One task, one caller of `rtask_add`. -/
def rtaskStart : Rtask Unit Unit where
  clock := 0
  timer _ := { delay := 0, tick := 0, magic := 0 }
  rtList := []
  pool := [()]
  newTask := false
  pc := .start
  add _ := .idle

theorem rtaskStart_init : rtaskMachine.init rtaskStart :=
  ⟨rfl, rfl, fun _ => rfl, fun _ => (by decide : (0 : UInt16) ≠ timerMagicActive)⟩

/-- A task that is due after one tick is added while the process waits, and run. -/
theorem rtask_removes_expired_oneTask :
    ∃ s : Rtask Unit Unit, rtaskMachine.Run Rtask.Ok s [.removed () 0] ∧
      ∀ ev ∈ [RtaskEvent.removed () 0], ∃ t late, ev = .removed t late ∧ 0 ≤ late := by
  have h0 : rtaskMachine.Run Rtask.Ok rtaskStart [] := .init rtaskStart_init
  have h1 := h0.step (a := RtaskAction.proc false) (fun _ _ => nofun) rfl
  have h2 := h1.step (a := RtaskAction.add () 1) trivial rfl
  have h3 := h2.step (a := RtaskAction.queue ()) ⟨by decide, nofun⟩ rfl
  have h4 := h3.step (a := RtaskAction.send ()) trivial rfl
  have h5 := h4.step (a := RtaskAction.proc false) trivial rfl
  have h6 := h5.step (a := RtaskAction.proc false) trivial rfl
  have h7 := h6.step (a := RtaskAction.proc false) trivial rfl
  have h8 := h7.step (a := RtaskAction.tick) (fun u _ => by cases u; decide) rfl
  have h9 := h8.step (a := RtaskAction.proc false) trivial rfl
  have h10 := h9.step (a := RtaskAction.proc false) trivial rfl
  exact ⟨_, h10, rtask_removes_expired h10⟩

/-- The signal of `rtask_add` is sent when its task has been run already: the process takes a timer from the empty
list. -/
theorem stale_signal_takes_empty :
    ∃ s : Rtask Unit Unit, rtaskMachine.Run (fun _ _ => True) s [.removedEmpty, .removed () 1] := by
  have hsome : rtaskMachine.exec (fun _ _ => True) rtaskStart []
      [.add () 0, .queue (), .proc false, .proc false, .proc false, .tick, .proc false, .proc false, .proc false,
        .proc false, .proc false, .send (), .proc false, .proc false, .proc false, .tick, .proc false, .proc false] =
      some _ := rfl
  exact ⟨_, (Machine.Run.init rtaskStart_init).exec hsome⟩

end Bertos
