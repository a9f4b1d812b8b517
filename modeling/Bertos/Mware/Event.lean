import Bertos.Kern.SigTimeout

/-!
# Events: waiting with a timeout

`event_waitTimeout` of `mware/event.c`. With signals, `event_do` posts `EVENT_GENERIC_SIGNAL` to the `Signal` of the
event, and the timeout posts `SIG_TIMEOUT` to the same `Signal`. Both bits are cleared by one `sig_waitSignal`, and the
timeout wins: the completion stays pending iff the two were not found together (`eventWaitTimeout_keeps_iff`).

Without the kernel the function polls a flag and the clock, and returns in time iff a turn that is not late finds the
event completed (`polledWait_returns_iff`).
-/

namespace Bertos

open TimeoutCall

/-! ## Without the kernel -/

/-- `TIMER_AFTER` is used in `mware/event.c` and defined nowhere in the sources: it may be any test of two times. -/
abbrev TimerAfter := Ticks → Ticks → Bool

/-- What `event_waitTimeout` without the kernel leaves: its result, the flag `completed`, and how many turns it took. -/
structure PolledWait where
  ret : Bool
  completed : Bool
  turns : ℕ
  deriving DecidableEq

/-- `completed` as turn `i` of the loop finds it: the event is completed before turn `done`, or never. -/
def completedAt (done : Option ℕ) (i : ℕ) : Bool :=
  match done with
  | some d => d ≤ i
  | none => false

section Polled

variable (timerAfter : TimerAfter)

/-- The loop of `event_waitTimeout` without the kernel, from turn `i` on: `clock i` is what
`timer_clock` gives there. -/
def polledLoop (done : Option ℕ) (clock : ℕ → Ticks) (limit : Ticks) : ℕ → ℕ → Option PolledWait
  | 0, _ => none
  | fuel + 1, i =>
    if completedAt done i = false ∨ timerAfter (clock i) limit then polledLoop done clock limit fuel (i + 1)
    else some { ret := completedAt done i, completed := false, turns := i }

/-- `event_waitTimeout` without the kernel, entered at time `now`. -/
def eventWaitTimeoutPolled (fuel : ℕ) (done : Option ℕ) (clock : ℕ → Ticks) (now timeout : Ticks) : Option PolledWait :=
  polledLoop timerAfter done clock (now + timeout) fuel 0

variable {timerAfter} {done : Option ℕ} {clock : ℕ → Ticks} {limit : Ticks} {fuel i : ℕ} {r : PolledWait}

/-- The turn at which the loop leaves is the first that finds the event completed and is not late. -/
theorem polledLoop_eq_some (h : polledLoop timerAfter done clock limit fuel i = some r) :
    i ≤ r.turns ∧ r.ret = true ∧ completedAt done r.turns = true ∧ timerAfter (clock r.turns) limit = false ∧
      r.completed = false ∧ ∀ j, i ≤ j → j < r.turns → completedAt done j = false ∨ timerAfter (clock j) limit =
        true := by
  induction fuel generalizing i with
  | zero => cases h
  | succ fuel ih =>
    rw [polledLoop] at h
    split at h
    · next hc =>
      obtain ⟨hi, hret, hdone, hlate, hflag, hall⟩ := ih h
      refine ⟨by omega, hret, hdone, hlate, hflag, fun j hj hlt => ?_⟩
      rcases Nat.eq_or_lt_of_le hj with rfl | hj
      · exact hc
      · exact hall j hj hlt
    · next hc =>
      cases h
      simp only [not_or, Bool.not_eq_false, Bool.not_eq_true] at hc
      exact ⟨Nat.le_refl i, hc.1, hc.1, hc.2, rfl, fun j hj hlt => absurd hlt (Nat.not_lt.mpr hj)⟩

/-- The loop leaves, when some turn finds the event completed and is not late. -/
theorem polledLoop_returns {j : ℕ} (hj : i ≤ j) (hdone : completedAt done j = true)
    (hlate : timerAfter (clock j) limit = false) (hf : j - i < fuel) :
    ∃ r, polledLoop timerAfter done clock limit fuel i = some r ∧ r.turns ≤ j := by
  induction fuel generalizing i with
  | zero => omega
  | succ fuel ih =>
    rw [polledLoop]
    split
    · next hc =>
      have hne : i ≠ j := by
        rintro rfl
        rcases hc with hc | hc
        · rw [hdone] at hc
          cases hc
        · rw [hlate] at hc
          cases hc
      exact ih (by omega) (by omega)
    · exact ⟨_, rfl, hj⟩

variable (timerAfter)

/-- **The contract of the polling `event_waitTimeout`** for a sequence of clock readings: the loop leaves, at no turn
after the first late one, returns `true` iff the event is completed at the turn it leaves, and clears the flag only when
it returns `true`. It holds iff some turn, before which none is late and which is not late itself, finds the event
completed, whatever `TIMER_AFTER` is. -/
theorem polledWait_returns_iff (done : Option ℕ) (clock : ℕ → Ticks) (now timeout : Ticks) :
    (∃ fuel r, eventWaitTimeoutPolled timerAfter fuel done clock now timeout = some r ∧
      (∀ j, timerAfter (clock j) (now + timeout) = true → r.turns ≤ j) ∧ r.ret = completedAt done r.turns ∧
      (completedAt done r.turns ≠ r.completed → r.ret = true)) ↔
    ∃ i, completedAt done i = true ∧ ∀ j ≤ i, timerAfter (clock j) (now + timeout) = false := by
  constructor
  · rintro ⟨fuel, r, hr, hfirst, -, -⟩
    obtain ⟨-, -, hdone, hlate, -, -⟩ := polledLoop_eq_some hr
    refine ⟨r.turns, hdone, fun j hj => ?_⟩
    by_contra hj'
    have := hfirst j (by simpa using hj')
    obtain rfl : j = r.turns := by omega
    exact hj' hlate
  · rintro ⟨i, hdone, hall⟩
    obtain ⟨r, hr, hle⟩ := polledLoop_returns (Nat.zero_le i) hdone (hall i (Nat.le_refl i)) (Nat.lt_succ_self _)
    obtain ⟨-, hret, hdone', hlate, -, -⟩ := polledLoop_eq_some hr
    refine ⟨_, r, hr, fun j hj => ?_, by rw [hret, hdone'], fun _ => hret⟩
    by_contra hlt
    rw [hall j (by omega)] at hj
    cases hj

end Polled

/-- The event is never completed: the loop does not leave, however late it gets and whatever `TIMER_AFTER` is. -/
theorem polledWait_never_returns : ¬ ∃ (timerAfter : TimerAfter) (fuel : ℕ) (ret : PolledWait),
    eventWaitTimeoutPolled timerAfter fuel none (fun i => BitVec.ofNat 32 i) 0 1 = some ret := by
  rintro ⟨timerAfter, fuel, ret, hret⟩
  unfold eventWaitTimeoutPolled at hret
  generalize 0 = i at hret
  induction fuel generalizing i with
  | zero => cases hret
  | succ fuel ih =>
    rw [polledLoop, completedAt, if_pos (Or.inl rfl)] at hret
    exact ih (i + 1) hret

/-! ## With signals -/

/-- `EVENT_GENERIC_SIGNAL`, which is `SIG_SYSTEM6`. -/
def eventGenericSignal : UInt8 := 0x40

/-- Where the caller of `event_waitTimeout` is. -/
inductive EventPc
  /-- Before the fast path. -/
  | start
  /-- In `event_waitTimeoutSlowPath`. -/
  | slow
  /-- The call has returned. -/
  | returned (ret : Bool)
  deriving DecidableEq

/-- A call of `event_waitTimeout`: its call of `sig_waitTimeoutSignal` on the `Signal` of the event, and its place. -/
structure EventWait (T : Type) where
  call : TimeoutCall T
  pc : EventPc

inductive EventAction (T : Type)
  /-- The caller goes on. -/
  | call
  /-- An interrupt handler or another process calls `event_do`. -/
  | eventDo
  /-- The timer driver: other timers, ticks and `timer_poll`. -/
  | timer (a : TimerAction T)

section
variable {T : Type} [DecidableEq T]

namespace EventWait

variable (t : T) (timeout : Ticks)

def callStep (s : EventWait T) : Option (EventWait T × List TimeoutEvent) :=
  match s.pc with
  | .start =>
    let c := s.call.sig.check eventGenericSignal
    some ({ call := { s.call with sig := c.2 }
            pc := if c.1 = eventGenericSignal then .returned true else .slow }, [])
  | .slow =>
    match s.call.pc with
    | .returned res => some ({ s with pc := .returned (res &&& sigTimeout = 0) }, [])
    | _ => (s.call.callStep t eventGenericSignal timeout).map fun r => ({ s with call := r.1 }, r.2)
  | .returned _ => none

/-- A step of the system: `event_hook_generic_signal` posts the event's signal. -/
def step (s : EventWait T) : EventAction T → Option (EventWait T × List TimeoutEvent)
  | .call => if s.call.timers.polling then none else s.callStep t timeout
  | .eventDo => some ({ s with call := s.call.deliver eventGenericSignal }, [.posted eventGenericSignal])
  | .timer a => if a.Spares t then (s.call.timerStep t a).map fun r => ({ s with call := r.1 }, r.2) else none

end EventWait

/-- A call of `event_waitTimeout` on a generic event, whether it is completed already or not. -/
def eventMachine (t : T) (timeout : Ticks) : Machine (EventWait T) (EventAction T) TimeoutEvent where
  init s := s.pc = .start ∧ s.call.pc = .entry ∧ s.call.sig.wait = 0 ∧ s.call.sig.recv &&& sigTimeout = 0 ∧
    t ∉ s.call.timers.queue
  step s a := s.step t timeout a

/-- `event_wait` at this point: whether it returns at once. -/
def EventWait.eventWaitReturns (s : EventWait T) : Bool :=
  (s.call.sig.waitTurn eventGenericSignal).1.isSome

theorem hasBit_eventGenericSignal (i : ℕ) : hasBit eventGenericSignal i = decide (i = 6) := by
  rcases Nat.lt_or_ge i 8 with hi | hi
  · revert i
    decide
  · have h1 : hasBit eventGenericSignal i = false := BitVec.getLsbD_of_ge _ _ hi
    rw [h1]
    simp
    omega

theorem and_eventGenericSignal_ne_zero {x : UInt8} : x &&& eventGenericSignal ≠ 0 ↔ hasBit x 6 = true := by
  rw [and_ne_zero_iff]
  simp [hasBit_eventGenericSignal]

theorem check_eq_eventGenericSignal (sig : Signal) :
    (sig.check eventGenericSignal).1 = eventGenericSignal ↔ hasBit sig.recv 6 = true := by
  rw [← and_eventGenericSignal_ne_zero, Signal.check]
  constructor
  · intro h
    dsimp only at h
    rw [h]
    decide
  · intro h
    refine byte_ext fun i => ?_
    have h6 := and_eventGenericSignal_ne_zero.mp h
    rw [hasBit_and, hasBit_eventGenericSignal]
    by_cases hi : i = 6
    · simp [hi, h6]
    · simp [hi]

omit [DecidableEq T] in
theorem eventWaitReturns_iff {s : EventWait T} : s.eventWaitReturns = true ↔ hasBit s.call.sig.recv 6 = true := by
  unfold EventWait.eventWaitReturns Signal.waitTurn
  rw [← and_eventGenericSignal_ne_zero]
  split
  · next h => simp [h]
  · next h => simp [h]

/-! ## What becomes of a completion -/

namespace EventWait

variable {t : T} {timeout : Ticks} {s s' : EventWait T} {log e : List TimeoutEvent}

/-- No signals were taken, and a completion is pending. -/
def Before (s : EventWait T) (log : List TimeoutEvent) : Prop :=
  (∀ r, .took r ∉ log) ∧ (.posted eventGenericSignal ∈ log → hasBit s.call.sig.recv 6 = true)

/-- Signals were taken, with or without `SIG_TIMEOUT`; a completion that was not among them is pending. -/
def After (s : EventWait T) (log : List TimeoutEvent) (timedOut : Bool) : Prop :=
  ∃ r, (∀ r', .took r' ∈ log ↔ r' = r) ∧ hasBit r 7 = timedOut ∧
    (hasBit r 6 = false → .posted eventGenericSignal ∈ log → hasBit s.call.sig.recv 6 = true)

/-- **The invariant of the call**, by the caller's place. -/
def Good (s : EventWait T) (log : List TimeoutEvent) : Prop :=
  match s.pc with
  | .start => s.call.pc = .entry ∧ s.Before log
  | .slow =>
    match s.call.pc with
    | .taken res => s.After log (hasBit res 7)
    | .returned res => s.After log (hasBit res 7)
    | _ => s.Before log
  | .returned ret => ret = true ∧ (∀ r, .took r ∉ log) ∨ s.After log !ret

section
omit [DecidableEq T]

theorem Before.mono (h : s.Before log) (he : ∀ r, .took r ∉ e)
    (hbit : hasBit s.call.sig.recv 6 = true → hasBit s'.call.sig.recv 6 = true)
    (hpost : .posted eventGenericSignal ∈ e → hasBit s'.call.sig.recv 6 = true) : s'.Before (e ++ log) := by
  refine ⟨fun r hr => (List.mem_append.mp hr).elim (he r) (h.1 r), fun hp => ?_⟩
  exact (List.mem_append.mp hp).elim hpost fun hp => hbit (h.2 hp)

theorem After.mono {b : Bool} (h : s.After log b) (he : ∀ r, .took r ∉ e)
    (hbit : hasBit s.call.sig.recv 6 = true → hasBit s'.call.sig.recv 6 = true)
    (hpost : .posted eventGenericSignal ∈ e → hasBit s'.call.sig.recv 6 = true) : s'.After (e ++ log) b := by
  obtain ⟨r, hr, h7, hkept⟩ := h
  refine ⟨r, fun r' => ?_, h7, fun h6 hp => ?_⟩
  · rw [List.mem_append, or_iff_right (he r'), hr]
  · exact (List.mem_append.mp hp).elim hpost fun hp => hbit (hkept h6 hp)

/-- A step that is not the waiter's keeps the invariant. -/
theorem Good.env (h : s.Good log) (hs : s'.pc = s.pc)
    (hpc : s'.call.pc = s.call.pc ∨ s.call.pc = .asleep ∧ s'.call.pc = .woken) (he : ∀ r, .took r ∉ e)
    (hbit : hasBit s.call.sig.recv 6 = true → hasBit s'.call.sig.recv 6 = true)
    (hpost : .posted eventGenericSignal ∈ e → hasBit s'.call.sig.recv 6 = true) : s'.Good (e ++ log) := by
  unfold Good at h ⊢
  rw [hs]
  split at h
  · refine ⟨?_, h.2.mono he hbit hpost⟩
    rcases hpc with hpc | ⟨hpc, -⟩
    · exact hpc.trans h.1
    · rw [h.1] at hpc
      cases hpc
  · rcases hpc with hpc | ⟨hpc, hpc'⟩
    · rw [hpc]
      split at h
      · exact h.mono he hbit hpost
      · exact h.mono he hbit hpost
      · exact h.mono he hbit hpost
    · rw [hpc] at h
      rw [hpc']
      exact h.mono he hbit hpost
  · rcases h with ⟨hret, hno⟩ | h
    · exact Or.inl ⟨hret, fun r hr => (List.mem_append.mp hr).elim (he r) (hno r)⟩
    · exact Or.inr (h.mono he hbit hpost)

end

/-- The caller inside `sig_waitTimeoutSignal`. -/
theorem Good.slow {call : TimeoutCall T} (h : s.Good log) (hpc : s.pc = .slow)
    (hs : s.call.callStep t eventGenericSignal timeout = some (call, e)) :
    ({ s with call := call } : EventWait T).Good (e ++ log) := by
  unfold Good at h ⊢
  rw [hpc] at h ⊢
  dsimp only at h ⊢
  cases callStep_cases hs with
  | @take res hres hne hpc hpc' hrecv =>
    rw [hpc']
    have hb : s.Before log := by
      rcases hpc with hpc | hpc <;> rw [hpc] at h <;> exact h
    refine ⟨s.call.sig.recv, fun r' => ?_, by simp [hres, hasBit_sigTimeout], fun h6 hp => ?_⟩
    · simp [hb.1]
    · rw [hb.2 (by simpa using hp)] at h6
      cases h6
  | @finish res e hpc hpc' hrecv he =>
    rw [hpc] at h
    rw [hpc']
    refine h.mono (fun r hr => ?_) (fun h6 => ?_) fun hp => ?_
    · obtain ⟨b, hb⟩ := he _ hr
      cases hb
    · exact (hrecv 6 (by decide)).trans h6
    · obtain ⟨b, hb⟩ := he _ hp
      cases hb
  | goOn hpc hpc' hrecv hsleep =>
    have hb : s.Before log := by
      revert h hpc
      cases s.call.pc with
      | taken res => nofun
      | returned res => nofun
      | _ => exact fun h _ => h
    have hb' : ({ s with call := call } : EventWait T).Before ([] ++ log) :=
      hb.mono nofun (fun h6 => (hrecv 6 (by decide)).trans h6) nofun
    cases hcall : call.pc with
    | taken res | returned res =>
      rw [hcall] at hpc'
      cases hpc'
    | _ => exact hb'

/-- **Every step keeps the invariant.** -/
theorem Good.step (h : s.Good log) {a : EventAction T} (hs : s.step t timeout a = some (s', e)) :
    s'.Good (e ++ log) := by
  cases a with
  | eventDo =>
    cases hs
    refine h.env rfl (deliver_pc _) (by simp) ?_ ?_
    · intro h6
      simp [h6]
    · intro _
      simp [hasBit_eventGenericSignal]
  | timer a =>
    simp only [EventWait.step] at hs
    split at hs
    · obtain ⟨⟨call, ev⟩, hstep, hs⟩ := Option.map_eq_some_iff.mp hs
      cases hs
      rcases timerStep_cases hstep with ⟨hsig, hpc, rfl⟩ | ⟨timers, hcall, rfl⟩
      · exact h.env rfl (Or.inl hpc) nofun (fun h6 => by simpa [hsig] using h6) nofun
      · subst hcall
        refine h.env rfl (deliver_pc _) (by simp) (fun h6 => ?_) (by simp)
        simpa [hasBit_sigTimeout] using h6
    · cases hs
  | call =>
    simp only [EventWait.step] at hs
    split at hs
    · cases hs
    simp only [callStep] at hs
    split at hs
    · next hpc =>
      unfold Good at h
      rw [hpc] at h
      obtain ⟨hentry, hb⟩ := h
      have hfound := check_eq_eventGenericSignal s.call.sig
      cases hs
      unfold Good
      by_cases hc : hasBit s.call.sig.recv 6 = true
      · simp only [if_pos (hfound.mpr hc)]
        exact Or.inl ⟨trivial, hb.1⟩
      · simp only [if_neg fun e => hc (hfound.mp e), hentry]
        exact ⟨hb.1, fun hp => absurd (hb.2 hp) hc⟩
    · next hpc =>
      split at hs
      · next res hcall =>
        cases hs
        unfold Good at h ⊢
        rw [hpc] at h
        dsimp only at h ⊢
        rw [hcall] at h
        refine Or.inr ?_
        have hret : (!decide (res &&& sigTimeout = 0)) = hasBit res 7 := by
          simp [and_sigTimeout_eq_zero]
        rw [hret]
        exact h
      · obtain ⟨⟨call, ev⟩, hstep, hs⟩ := Option.map_eq_some_iff.mp hs
        cases hs
        exact h.slow hpc hstep
    · cases hs

end EventWait

/-- A call that has returned `false` has taken no completion, and after an `event_do` a following `event_wait` returns
at once. -/
def EventWait.Keeps (s : EventWait T) (log : List TimeoutEvent) (ret : Bool) : Prop :=
  ret = false → (∀ r, .took r ∈ log → r &&& eventGenericSignal = 0) ∧
    (.posted eventGenericSignal ∈ log → s.eventWaitReturns = true)

/-- **When `event_waitTimeout` keeps a completion.** For every interleaving of `event_do` and of the expiry with the
call, a call that has returned keeps the completion iff its wait has not found the completion and `SIG_TIMEOUT`
pending together. -/
theorem eventWaitTimeout_keeps_iff {t : T} {timeout : Ticks} {s : EventWait T} {log : List TimeoutEvent}
    (h : (eventMachine t timeout).Run (fun _ _ => True) s log) {ret : Bool} (hpc : s.pc = .returned ret) :
    s.Keeps log ret ↔ ∀ r, .took r ∈ log → ¬ (r &&& eventGenericSignal ≠ 0 ∧ r &&& sigTimeout ≠ 0) := by
  have hg : s.Good log := by
    refine h.invariant (I := EventWait.Good) ?_ ?_
    · rintro s ⟨hpc, hentry, -⟩
      unfold EventWait.Good
      rw [hpc]
      exact ⟨hentry, nofun, nofun⟩
    · intro s log a s' e hg _ hs
      exact hg.step hs
  unfold EventWait.Good at hg
  rw [hpc] at hg
  have h7 : ∀ r : UInt8, r &&& sigTimeout ≠ 0 ↔ hasBit r 7 = true := fun r => by
    rw [ne_eq, and_sigTimeout_eq_zero, Bool.not_eq_false]
  rcases hg with ⟨rfl, hno⟩ | ⟨r, hr, hb, hkept⟩
  · exact ⟨fun _ r hr => absurd hr (hno r), fun _ => nofun⟩
  · unfold EventWait.Keeps
    simp only [hr, forall_eq, and_eventGenericSignal_ne_zero, h7, hb, eventWaitReturns_iff]
    rw [← not_not (a := r &&& eventGenericSignal = 0), ← ne_eq, and_eventGenericSignal_ne_zero, Bool.not_eq_true]
    cases ret with
    | true => simp
    | false =>
      simp only [Bool.not_false, and_true, forall_const, Bool.not_eq_true]
      exact ⟨fun h => h.1, fun h6 => ⟨h6, hkept h6⟩⟩

end

/-- A process that calls `event_waitTimeout` on an event that is not completed. -/
def eventStart : EventWait Unit :=
  { call := timeoutEntry, pc := .start }

theorem eventStart_init (timeout : Ticks) : (eventMachine () timeout).init eventStart :=
  ⟨rfl, rfl, rfl, rfl, nofun⟩

/-- The caller goes to sleep, the timeout expires, and the event is completed after the caller has taken its signals. -/
def lateCompletion : Option (EventWait Unit × List TimeoutEvent) :=
  (eventMachine () 1).exec (fun _ _ => True) eventStart []
    [.call, .call, .call, .call, .timer .tick, .timer .poll, .timer .poll, .call, .eventDo, .call, .call]

theorem eventWaitTimeout_keeps_iff_lateCompletion :
    (∃ s, lateCompletion = some (s, [.posted eventGenericSignal, .took sigTimeout, .expired]) ∧
      s.pc = .returned false) ∧
    ∀ s log, lateCompletion = some (s, log) → s.pc = .returned false →
      (s.Keeps log false ↔ ∀ r, .took r ∈ log → ¬ (r &&& eventGenericSignal ≠ 0 ∧ r &&& sigTimeout ≠ 0)) := by
  refine ⟨⟨_, rfl, rfl⟩, fun s log h hpc => ?_⟩
  have hrun : (eventMachine () 1).Run (fun _ _ => True) s log := (Machine.Run.init (eventStart_init 1)).exec h
  exact eventWaitTimeout_keeps_iff hrun hpc

/-- The event is completed, and the timeout expires before the caller is scheduled again: the call returns `false`, and
the completion is gone. -/
theorem completion_swallowed :
    ∃ s log, (eventMachine () 1).Run (fun _ _ => True) s log ∧ s.pc = .returned false ∧
      log = [.took (eventGenericSignal ||| sigTimeout), .expired, .posted eventGenericSignal] ∧
      s.eventWaitReturns = false := by
  have hsome : (eventMachine () 1).exec (fun _ _ => True) eventStart []
      [.call, .call, .call, .call, .eventDo, .timer .tick, .timer .poll, .timer .poll, .call, .call, .call] =
      some _ := rfl
  exact ⟨_, _, (Machine.Run.init (eventStart_init 1)).exec hsome, rfl, rfl, rfl⟩

end Bertos
