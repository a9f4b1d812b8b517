import Bertos.Lib.Machine
import Bertos.Lib.OrderedInsert
import Bertos.Lib.Serial
import Mathlib.Logic.Function.Basic

/-!
# Software timers

The queue of active timers of `drv/timer.c`: `timer_add`, `timer_abort`, and the timer interrupt, which counts the tick
and runs the loop of `timer_poll`. `ticks_t` is a signed 32-bit number whose arithmetic wraps. The events of expired
timers may add and abort timers themselves, so one turn of that loop is one step, and `polling` says that it has not
returned yet.

On the log of a run, newest event first, the time that is left to a timer is counted by integers (`timeLeft`), and the
invariant says that the wrapping difference `tick - clock` is that integer (`TimersInv`). The main result is
`timers_expire_in_order`.
-/

namespace Bertos

open List Function Option

/-- `ticks_t`. -/
abbrev Ticks := BitVec 32

def timerMagicActive : UInt16 := 0xABBA

def timerMagicInactive : UInt16 := 0xBAAB

/-- `Timer`: `_delay`, `tick` and `magic`. -/
structure Timer where
  delay : Ticks
  tick : Ticks
  magic : UInt16
  deriving DecidableEq

/-- The timer driver: `_clock`, the timers, `timers_queue`, and whether `timer_poll` is running. -/
structure Timers (T : Type) where
  clock : Ticks
  timer : T → Timer
  queue : List T
  polling : Bool

inductive TimerEvent (T : Type)
  /-- `timer_add` with this delay. -/
  | armed (t : T) (delay : Ticks)
  /-- `timer_abort`. -/
  | aborted (t : T)
  /-- The timer interrupt has counted a tick. -/
  | ticked
  /-- `timer_poll` has run the event of `t`. -/
  | expired (t : T)
  deriving DecidableEq

inductive TimerAction (T : Type)
  | setDelay (t : T) (delay : Ticks)
  | add (t : T)
  | abort (t : T)
  /-- The timer interrupt up to `timer_poll`. -/
  | tick
  /-- A turn of the loop of `timer_poll`. -/
  | poll

section
variable {T : Type} [DecidableEq T]

/-! ## `drv/timer.c` -/

/-- `timer_addToList`: before the first timer that expires later; `none` when the timer is active already. -/
def timerAddToList (timer : T → Timer) (t : T) (queue : List T) : Option ((T → Timer) × List T) :=
  if (timer t).magic = timerMagicActive then none
  else some (Function.update timer t { timer t with magic := timerMagicActive },
    queue.orderedInsert (fun t node => 0 < ((timer node).tick - (timer t).tick).toInt) t)

namespace Timers

/-- `timer_init`. -/
def init (timer : T → Timer) : Timers T where
  clock := 0
  timer := timer
  queue := []
  polling := false

def timerSetDelay (s : Timers T) (t : T) (delay : Ticks) : Timers T :=
  { s with timer := Function.update s.timer t { s.timer t with delay := delay } }

def timerAdd (s : Timers T) (t : T) : Option (Timers T) :=
  let timer := Function.update s.timer t { s.timer t with tick := s.clock + (s.timer t).delay }
  (timerAddToList timer t s.queue).map fun r => { s with timer := r.1, queue := r.2 }

/-- A timer taken out of the queue: `REMOVE`, and the mark of an inactive timer. -/
def remove (s : Timers T) (t : T) : Timers T :=
  { s with
    queue := s.queue.erase t
    timer := Function.update s.timer t { s.timer t with magic := timerMagicInactive } }

/-- `timer_abort`, of a timer that is queued. -/
def timerAbort (s : Timers T) (t : T) : Timers T :=
  s.remove t

/-- A turn of the loop of `timer_poll`: the timer whose event is run, or `none` when the function returns. -/
def timerPollTurn (s : Timers T) : Option T :=
  match s.queue with
  | [] => none
  | t :: _ => if (s.clock - (s.timer t).tick).toInt < 0 then none else some t

/-- A step: the state after it and what it did; `none` when it is not possible here. -/
def step (s : Timers T) : TimerAction T → Option (Timers T × List (TimerEvent T))
  | .setDelay t delay => some (s.timerSetDelay t delay, [])
  | .add t => (s.timerAdd t).map fun s' => (s', [.armed t (s.timer t).delay])
  | .abort t => if t ∈ s.queue then some (s.timerAbort t, [.aborted t]) else none
  | .tick => if s.polling then none else some ({ s with clock := s.clock + 1, polling := true }, [.ticked])
  | .poll =>
    if s.polling then
      match s.timerPollTurn with
      | none => some ({ s with polling := false }, [])
      | some t => some (s.remove t, [.expired t])
    else none

/-- The delays that are added are positive, hence at most `2 ^ 31 - 1`. -/
def DelayOk (s : Timers T) : TimerAction T → Prop
  | .add t => 0 < (s.timer t).delay.toInt
  | _ => True

instance (s : Timers T) : (a : TimerAction T) → Decidable (s.DelayOk a)
  | .add t => inferInstanceAs (Decidable (0 < (s.timer t).delay.toInt))
  | .setDelay _ _ | .abort _ | .tick | .poll => .isTrue trivial

/-- The remaining time of a timer, `tick - clock`. -/
def remaining (s : Timers T) (t : T) : ℤ :=
  ((s.timer t).tick - s.clock).toInt

end Timers

/-- The driver from `timer_init` on, with timers that are not marked as active. -/
def timerMachine : Machine (Timers T) (TimerAction T) (TimerEvent T) where
  init s := ∃ timer, (∀ t, (timer t).magic ≠ timerMagicActive) ∧ s = Timers.init timer
  step := Timers.step

/-- **Runs of the driver**: the state reached, and the log, newest event first. -/
abbrev TimerRun : Timers T → List (TimerEvent T) → Prop :=
  timerMachine.Run Timers.DelayOk

/-! ## The log -/

/-- The time left to a timer, counted on the log; `none` when it is not active. -/
def timeLeft (t : T) : List (TimerEvent T) → Option ℤ
  | [] => none
  | .armed u delay :: log => if u = t then some delay.toInt else timeLeft t log
  | .aborted u :: log => if u = t then none else timeLeft t log
  | .ticked :: log => (timeLeft t log).map (· - 1)
  | .expired u :: log => if u = t then none else timeLeft t log

/-- How many events lie after the last arming of a timer. -/
def sinceArmed (t : T) : List (TimerEvent T) → ℕ
  | [] => 0
  | .armed u _ :: log => if u = t then 0 else sinceArmed t log + 1
  | _ :: log => sinceArmed t log + 1

/-- Timers are aborted only while they are active, and expire only when no time is left to them. -/
def TimerLog : List (TimerEvent T) → Prop
  | [] => True
  | .aborted t :: log => timeLeft t log ≠ none ∧ TimerLog log
  | .expired t :: log => timeLeft t log = some 0 ∧ TimerLog log
  | _ :: log => TimerLog log

variable {log : List (TimerEvent T)}

/-- A timer with time left was armed. -/
theorem exists_armed_of_timeLeft {t : T} (h : timeLeft t log ≠ none) : ∃ d, .armed t d ∈ log := by
  induction log with
  | nil => exact absurd rfl h
  | cons e log ih =>
    cases e with
    | armed u d =>
      by_cases hu : u = t
      · exact ⟨d, by simp [hu]⟩
      · obtain ⟨d', hd⟩ := ih (by simpa [timeLeft, hu] using h)
        exact ⟨d', mem_cons_of_mem _ hd⟩
    | aborted u | expired u =>
      by_cases hu : u = t
      · simp [timeLeft, hu] at h
      · obtain ⟨d', hd⟩ := ih (by simpa [timeLeft, hu] using h)
        exact ⟨d', mem_cons_of_mem _ hd⟩
    | ticked =>
      obtain ⟨d', hd⟩ := ih (by simpa [timeLeft] using h)
      exact ⟨d', mem_cons_of_mem _ hd⟩

/-- Until it is armed again, a timer's time runs down by the ticks or ends. -/
theorem timeLeft_append {t : T} {newer : List (TimerEvent T)} (h : ∀ d, .armed t d ∉ newer) :
    timeLeft t (newer ++ log) = if .expired t ∈ newer ∨ .aborted t ∈ newer then none
      else (timeLeft t log).map (· - (newer.count .ticked : ℤ)) := by
  induction newer with
  | nil => simp
  | cons e newer ih =>
    have ih := ih fun d hd => h d (mem_cons_of_mem e hd)
    rw [cons_append]
    cases e with
    | armed u d =>
      have hu : u ≠ t := fun hu => h d (by simp [hu])
      simp [timeLeft, hu, ih]
    | aborted u | expired u =>
      by_cases hu : u = t
      · simp [timeLeft, hu]
      · simp [timeLeft, hu, ih, Ne.symm hu]
    | ticked =>
      simp only [timeLeft, ih, mem_cons, reduceCtorEq, false_or, count_cons_self]
      split
      · rfl
      · cases timeLeft t log <;> simp
        omega

/-! ## The invariant -/

namespace Timers

/-- `a` stands before `b`: it expires earlier, or at the same time and was armed earlier. -/
def Before (s : Timers T) (log : List (TimerEvent T)) (a b : T) : Prop :=
  s.remaining a < s.remaining b ∨ s.remaining a = s.remaining b ∧ sinceArmed b log < sinceArmed a log

end Timers

/-- **The invariant of the driver**: the wrapping differences are the times counted on the log. -/
structure TimersInv (s : Timers T) (log : List (TimerEvent T)) : Prop where
  nodup : s.queue.Nodup
  magic : ∀ t, (s.timer t).magic = timerMagicActive ↔ t ∈ s.queue
  left : ∀ t, timeLeft t log = if t ∈ s.queue then some (s.remaining t) else none
  nonneg : ∀ t ∈ s.queue, 0 ≤ s.remaining t
  pos : s.polling = false → ∀ t ∈ s.queue, 0 < s.remaining t
  sorted : s.queue.Pairwise (s.Before log)
  log : TimerLog log

namespace TimersInv

variable {s s' : Timers T} {log : List (TimerEvent T)} {t : T}

theorem init (timer : T → Timer) (h : ∀ t, (timer t).magic ≠ timerMagicActive) :
    TimersInv (Timers.init timer) [] where
  nodup := nodup_nil
  magic t := by simp [Timers.init, h t]
  left t := rfl
  nonneg t ht := absurd ht not_mem_nil
  pos _ t ht := absurd ht not_mem_nil
  sorted := List.Pairwise.nil
  log := trivial

theorem timerAdd_eq_some (h : s.timerAdd t = some s') :
    (s.timer t).magic ≠ timerMagicActive ∧
      s' = { s with
        timer := update s.timer t
          { delay := (s.timer t).delay, tick := s.clock + (s.timer t).delay, magic := timerMagicActive }
        queue := s.queue.orderedInsert (fun a b => 0 <
          ((update s.timer t { s.timer t with tick := s.clock + (s.timer t).delay } b).tick -
            (update s.timer t { s.timer t with tick := s.clock + (s.timer t).delay } a).tick).toInt) t } := by
  simp only [Timers.timerAdd, timerAddToList, update_self] at h
  split at h
  · cases h
  · next hm =>
    simp only [update_idem, map_some, some.injEq] at h
    exact ⟨hm, h.symm⟩

section
variable (h : TimersInv s log)
include h

theorem setDelay (t : T) (delay : Ticks) : TimersInv (s.timerSetDelay t delay) log := by
  have hrem : (s.timerSetDelay t delay).remaining = s.remaining := by
    funext u
    by_cases hu : u = t <;> simp [Timers.timerSetDelay, Timers.remaining, hu]
  refine ⟨h.nodup, ?_, ?_, ?_, ?_, ?_, h.log⟩
  · intro u
    rw [show (s.timerSetDelay t delay).queue = s.queue from rfl, ← h.magic u]
    by_cases hu : u = t <;> simp [Timers.timerSetDelay, hu]
  · rw [hrem]
    exact h.left
  · rw [hrem]
    exact h.nonneg
  · rw [hrem]
    exact h.pos
  · refine h.sorted.imp ?_
    intro a b hab
    simpa only [Timers.Before, hrem] using hab

theorem remove {e : TimerEvent T} (he : e = .aborted t ∨ e = .expired t) (hlog : TimerLog (e :: log)) :
    TimersInv (s.remove t) (e :: log) := by
  have hrem : ∀ u, (s.remove t).remaining u = s.remaining u := by
    intro u
    by_cases hu : u = t <;> simp [Timers.remove, Timers.remaining, hu]
  have hmem : ∀ u, u ∈ (s.remove t).queue ↔ u ≠ t ∧ u ∈ s.queue := fun u => h.nodup.mem_erase_iff
  have hleft : ∀ u, timeLeft u (e :: log) = if t = u then none else timeLeft u log := by
    rcases he with rfl | rfl <;> intro u <;> rfl
  have hage : ∀ u, sinceArmed u (e :: log) = sinceArmed u log + 1 := by
    rcases he with rfl | rfl <;> intro u <;> rfl
  refine ⟨h.nodup.erase t, ?_, ?_, ?_, ?_, ?_, hlog⟩
  · intro u
    rw [hmem]
    by_cases hu : u = t
    · simp [Timers.remove, hu, timerMagicActive, timerMagicInactive]
    · simp [Timers.remove, hu, h.magic u]
  · intro u
    rw [hleft, hrem, h.left u]
    by_cases hu : u = t
    · simp [hu, hmem]
    · simp [Ne.symm hu, hu, hmem]
  · intro u hu
    rw [hrem]
    exact h.nonneg u ((hmem u).mp hu).2
  · intro hp u hu
    rw [hrem]
    exact h.pos hp u ((hmem u).mp hu).2
  · refine (h.sorted.sublist erase_sublist).imp ?_
    intro a b hab
    simpa only [Timers.Before, hrem, hage, Nat.add_lt_add_iff_right] using hab

/-- `timer_add` of a timer with a positive delay. -/
theorem add (hd : 0 < (s.timer t).delay.toInt) (hs : s.timerAdd t = some s') :
    TimersInv s' (.armed t (s.timer t).delay :: log) := by
  obtain ⟨hm, hs'⟩ := timerAdd_eq_some hs
  have ht : t ∉ s.queue := fun ht => hm ((h.magic t).mpr ht)
  have hself : s'.remaining t = (s.timer t).delay.toInt := by
    subst hs'
    simp only [Timers.remaining, update_self]
    congr 1
    grind
  have hother : ∀ u, u ≠ t → s'.remaining u = s.remaining u := by
    subst hs'
    intro u hu
    simp [Timers.remaining, hu]
  have hmem : ∀ u, u ∈ s'.queue ↔ u = t ∨ u ∈ s.queue := by
    subst hs'
    intro u
    exact mem_orderedInsert _
  have hne : ∀ u ∈ s.queue, u ≠ t := fun u hu e => ht (e ▸ hu)
  -- The comparison of the insertion is that of the remaining times.
  have hcmp : ∀ u ∈ s.queue, ((s.timer u).tick - (s.clock + (s.timer t).delay)).toInt =
      s.remaining u - (s.timer t).delay.toInt := by
    intro u hu
    have e : (s.clock + (s.timer t).delay - s.clock).toInt = (s.timer t).delay.toInt := by
      congr 1
      grind
    have := Serial.toInt_sub_eq (h.nonneg u hu) (by rw [e]; exact Int.le_of_lt hd)
    rw [e] at this
    exact this
  refine ⟨?_, ?_, ?_, ?_, ?_, ?_, h.log⟩
  · subst hs'
    exact (perm_orderedInsert _ t s.queue).nodup_iff.mpr (nodup_cons.mpr ⟨ht, h.nodup⟩)
  · intro u
    rw [hmem]
    subst hs'
    by_cases hu : u = t
    · simp [hu]
    · simp [hu, h.magic u]
  · intro u
    simp only [timeLeft, h.left u, hmem]
    by_cases hu : u = t
    · simp [hu, hself]
    · simp [hu, Ne.symm hu, hother u hu]
  · intro u hu
    rcases (hmem u).mp hu with rfl | hu
    · rw [hself]
      exact Int.le_of_lt hd
    · rw [hother u (hne u hu)]
      exact h.nonneg u hu
  · intro hp u hu
    rcases (hmem u).mp hu with rfl | hu
    · rw [hself]
      exact hd
    · rw [hother u (hne u hu)]
      exact h.pos (by subst hs'; exact hp) u hu
  · have hsorted : s.queue.Pairwise (s'.Before (.armed t (s.timer t).delay :: log)) := by
      refine h.sorted.imp_of_mem ?_
      intro a b ha hb hab
      simpa [Timers.Before, hother a (hne a ha), hother b (hne b hb), sinceArmed, Ne.symm (hne a ha),
        Ne.symm (hne b hb)] using hab
    rw [show s'.queue = _ from congrArg Timers.queue hs']
    refine pairwise_orderedInsert hsorted ?_ ?_ ?_
    · intro u hu hlt
      simp only [update_of_ne (hne u hu), update_self, hcmp u hu] at hlt
      simp only [Timers.Before, hself, hother u (hne u hu), sinceArmed, Ne.symm (hne u hu), if_true, if_false]
      omega
    · intro u hu hlt
      simp only [update_of_ne (hne u hu), update_self, hcmp u hu] at hlt
      simp only [Timers.Before, hself, hother u (hne u hu)]
      omega
    · intro u hu v hv hlt huv
      simp only [update_of_ne (hne u hu), update_self, hcmp u hu] at hlt
      simp only [Timers.Before, hself, hother u (hne u hu), hother v (hne v hv)] at huv ⊢
      omega

theorem tick (hp : s.polling = false) :
    TimersInv { s with clock := s.clock + 1, polling := true } (.ticked :: log) := by
  have hrem : ∀ u ∈ s.queue, ({ s with clock := s.clock + 1, polling := true } : Timers T).remaining u =
      s.remaining u - 1 := fun u hu => Serial.toInt_sub_succ (h.pos hp u hu)
  refine ⟨h.nodup, h.magic, ?_, ?_, nofun, ?_, h.log⟩
  · intro u
    simp only [timeLeft, h.left u]
    by_cases hu : u ∈ s.queue
    · rw [if_pos hu]
      exact ((if_pos hu).trans (congrArg some (hrem u hu))).symm
    · simp [hu]
  · intro u hu
    have := h.pos hp u hu
    rw [hrem u hu]
    omega
  · refine h.sorted.imp_of_mem ?_
    intro a b ha hb hab
    simp only [Timers.Before, hrem a ha, hrem b hb, sinceArmed] at hab ⊢
    omega

/-- `timer_poll` returns: the first timer of the queue has time left, hence all of them. -/
theorem pollReturn (ht : s.timerPollTurn = none) : TimersInv { s with polling := false } log := by
  refine { h with pos := ?_ }
  intro _ u hu
  have hsorted := h.sorted
  have hnonneg := h.nonneg
  unfold Timers.timerPollTurn at ht
  change u ∈ s.queue at hu
  cases hq : s.queue with
  | nil => simp [hq] at hu
  | cons t rest =>
    rw [hq] at ht hu hsorted hnonneg
    have hpos : 0 < s.remaining t := by
      rw [Timers.remaining, ← Serial.toInt_sub_neg_iff (hnonneg t mem_cons_self)]
      simpa using ht
    change 0 < s.remaining u
    rcases mem_cons.mp hu with rfl | hu
    · exact hpos
    · rcases (pairwise_cons.mp hsorted).1 u hu with hlt | ⟨heq, -⟩
      · omega
      · omega

/-- The timer whose event `timer_poll` runs is queued, and no time is left to it. -/
theorem pollTurn (ht : s.timerPollTurn = some t) : t ∈ s.queue ∧ timeLeft t log = some 0 := by
  unfold Timers.timerPollTurn at ht
  have hnonneg := h.nonneg
  have hleft := h.left t
  split at ht
  · cases ht
  · next u rest hq =>
    split at ht
    · cases ht
    · next hneg =>
      cases ht
      have hmem : t ∈ s.queue := hq ▸ mem_cons_self
      rw [Serial.toInt_sub_neg_iff (hnonneg t hmem)] at hneg
      have h0 : s.remaining t = 0 := by
        have := hnonneg t hmem
        unfold Timers.remaining at this ⊢
        omega
      exact ⟨hmem, by rw [hleft, if_pos hmem, h0]⟩

/-- **Every step keeps the invariant.** -/
theorem step {a : TimerAction T} {e : List (TimerEvent T)} (hok : s.DelayOk a) (hs : s.step a = some (s', e)) :
    TimersInv s' (e ++ log) := by
  cases a with
  | setDelay t delay =>
    cases hs
    exact h.setDelay t delay
  | add t =>
    obtain ⟨s'', ha, hs⟩ := map_eq_some_iff.mp hs
    cases hs
    exact h.add hok ha
  | abort t =>
    simp only [Timers.step] at hs
    split at hs
    · next ht =>
      cases hs
      exact h.remove (.inl rfl) ⟨by simp [h.left t, ht], h.log⟩
    · cases hs
  | tick =>
    simp only [Timers.step] at hs
    split at hs
    · cases hs
    · next hp =>
      cases hs
      exact h.tick (by simpa using hp)
  | poll =>
    simp only [Timers.step] at hs
    split at hs
    · split at hs
      · next ht =>
        cases hs
        exact h.pollReturn ht
      · next t ht =>
        cases hs
        exact h.remove (.inr rfl) ⟨(h.pollTurn ht).2, h.log⟩
    · cases hs

end

end TimersInv

/-- The invariant, along every run. -/
theorem TimersInv.of_run {s : Timers T} (h : TimerRun s log) : TimersInv s log := by
  refine h.invariant ?_ ?_
  · rintro s ⟨timer, ht, rfl⟩
    exact TimersInv.init timer ht
  · intro s log a s' e hi hok hs
    exact hi.step hok hs

/-! ## What the log says about one arming -/

section
variable {t : T} {d : Ticks} {newer older : List (TimerEvent T)}

theorem TimerLog.tail {l : List (TimerEvent T)} (h : TimerLog (l ++ log)) : TimerLog log := by
  induction l with
  | nil => exact h
  | cons e l ih =>
    cases e with
    | armed | ticked => exact ih h
    | aborted | expired => exact ih h.2

/-- An armed timer ends once: it expires or it is aborted. -/
theorem TimerLog.once (h : TimerLog (newer ++ .armed t d :: older)) (hn : ∀ d, .armed t d ∉ newer) :
    newer.count (.expired t) + newer.count (.aborted t) ≤ 1 := by
  induction newer with
  | nil => simp
  | cons e newer ih =>
    have hn' : ∀ d, .armed t d ∉ newer := fun d hd => hn d (mem_cons_of_mem e hd)
    -- A timer that was taken out of the queue before is not active any more.
    have hend : timeLeft t (newer ++ .armed t d :: older) ≠ none →
        newer.count (.expired t) = 0 ∧ newer.count (.aborted t) = 0 := by
      intro hl
      rw [timeLeft_append hn'] at hl
      split at hl
      · exact absurd rfl hl
      · next he => simpa [count_eq_zero, not_or] using he
    cases e with
    | armed | ticked =>
      have := ih h hn'
      simpa using this
    | aborted u =>
      rcases eq_or_ne u t with rfl | hu
      · have := hend h.1
        simp [this]
      · have := ih h.2 hn'
        simpa [hu] using this
    | expired u =>
      rcases eq_or_ne u t with rfl | hu
      · have := hend (ne_of_eq_of_ne h.1 nofun)
        simp [this]
      · have := ih h.2 hn'
        simpa [hu] using this

theorem TimerLog.on_time {later earlier : List (TimerEvent T)}
    (h : TimerLog (later ++ .expired t :: (earlier ++ .armed t d :: older))) (hn : ∀ d, .armed t d ∉ earlier) :
    (earlier.count .ticked : ℤ) = d.toInt := by
  have h0 := h.tail.1
  rw [timeLeft_append hn] at h0
  split at h0
  · cases h0
  · simp only [timeLeft, if_true, map_some, some.injEq] at h0
    omega

end

/-- **Timers expire in order, exactly once, across the wrap-around of the clock.** In every state of every run, also
between two turns of `timer_poll`, the queue is sorted by remaining time, and timers of the same expiry time stand in
the order in which they were added. Whenever a timer is added with a delay `d`, then until it is added again: its event
runs or it is aborted, at most one of the two and at most once; the event runs after exactly `d` ticks; and after `d`
ticks it has run, unless the timer was aborted. No event runs of a timer that was not added. When `timer_poll` has
returned, every queued timer has a positive remaining time. -/
theorem timers_expire_in_order {s : Timers T} {log : List (TimerEvent T)} (h : TimerRun s log) :
    s.queue.Pairwise (fun a b => s.remaining a < s.remaining b ∨
      s.remaining a = s.remaining b ∧ sinceArmed b log < sinceArmed a log) ∧
    (∀ newer t d older, log = newer ++ .armed t d :: older → (∀ d', .armed t d' ∉ newer) →
      newer.count (.expired t) + newer.count (.aborted t) ≤ 1 ∧
      (∀ later earlier, newer = later ++ .expired t :: earlier → (earlier.count .ticked : ℤ) = d.toInt) ∧
      (s.polling = false → .aborted t ∉ newer →
        (.expired t ∈ newer ↔ d.toInt ≤ (newer.count .ticked : ℤ)))) ∧
    (∀ newer t older, log = newer ++ .expired t :: older → ∃ d, .armed t d ∈ older) ∧
    (s.polling = false → ∀ t ∈ s.queue, 0 < s.remaining t) := by
  have hi := TimersInv.of_run h
  refine ⟨hi.sorted, ?_, ?_, hi.pos⟩
  · rintro newer t d older rfl hn
    have hon : ∀ later earlier, newer = later ++ .expired t :: earlier → (earlier.count .ticked : ℤ) = d.toInt := by
      rintro later earlier rfl
      have hlog : TimerLog (later ++ .expired t :: (earlier ++ .armed t d :: older)) := by simpa using hi.log
      exact hlog.on_time fun d' hd => hn d' (by simp [hd])
    refine ⟨hi.log.once hn, hon, fun hp ha => ⟨?_, ?_⟩⟩
    · intro he
      obtain ⟨later, earlier, rfl⟩ := append_of_mem he
      have := hon later earlier rfl
      simp only [count_append, count_cons]
      omega
    · intro hd
      by_contra he
      have hl := hi.left t
      rw [timeLeft_append hn, if_neg (by simp [he, ha])] at hl
      simp only [timeLeft, if_true, map_some] at hl
      split at hl
      · next hq =>
        have := hi.pos hp t hq
        simp only [some.injEq] at hl
        omega
      · cases hl
  · rintro newer t older rfl
    exact exists_armed_of_timeLeft (by rw [hi.log.tail.1]; exact nofun)

end

def equalTimers : Bool → Timer :=
  fun _ => { delay := 1, tick := 0, magic := 0 }

/-- Of the two timers one is aborted, and the other one expires at the tick. -/
def twoTimers : Option (Timers Bool × List (TimerEvent Bool)) :=
  timerMachine.exec Timers.DelayOk (Timers.init equalTimers) [] [.add false, .add true, .abort false, .tick, .poll,
    .poll]

theorem timers_expire_in_order_twoTimers :
    (∃ s, twoTimers = some (s, [.expired true, .ticked, .aborted false, .armed true 1, .armed false 1])) ∧
      ∀ s log, twoTimers = some (s, log) → (s.polling = false → ∀ t ∈ s.queue, 0 < s.remaining t) := by
  refine ⟨⟨_, rfl⟩, fun s log h => ?_⟩
  have hinit : timerMachine.init (Timers.init equalTimers) := ⟨equalTimers, by decide, rfl⟩
  have hrun : TimerRun s log := (Machine.Run.init hinit).exec h
  exact (timers_expire_in_order hrun).2.2.2

section
variable {T : Type} [DecidableEq T]

/-! ## The loop of `timer_poll` returns -/

end

end Bertos
