import Bertos.Drv.Timer
import Bertos.Kern.Signal

/-!
# Waiting for signals with a timeout

`sig_waitTimeoutSignal` (`kern/signal.c`): a timer on the caller's stack posts `SIG_TIMEOUT` to the `Signal` that the
caller waits on, and is taken out of the queue when another signal came first. The system is the `Signal`, the timers
of the whole kernel and the place of the caller in its code (`TimeoutCall`). Between two steps of the caller others
post signals, add and abort timers of their own, and the timer interrupt runs `timer_poll`, during which the caller
does not run.

The hook of the timer, `event_hook_signal` or the one that the caller gave, posts `SIG_TIMEOUT` to the same `Signal`.
The main result is `sigWaitTimeout_clean`.
-/

namespace Bertos

open List Option

/-- `SIG_TIMEOUT`, reserved for timeouts. -/
def sigTimeout : UInt8 := 0x80

/-- The caller's place in `sig_waitTimeoutSignal`. -/
inductive TimeoutPc
  /-- Before the call. -/
  | entry
  /-- The assertions have passed, the timer is not added yet. -/
  | checked
  /-- The timer is added, `sig_waitSignal` not called yet. -/
  | armed
  /-- Inside `proc_switch`, asleep. -/
  | asleep
  /-- Inside `proc_switch`, woken up. -/
  | woken
  /-- `sig_waitSignal` has returned. -/
  | taken (res : UInt8)
  /-- The call has returned. -/
  | returned (res : UInt8)
  deriving DecidableEq

/-- The `Signal`, the timers and the caller. -/
structure TimeoutCall (T : Type) where
  sig : Signal
  timers : Timers T
  pc : TimeoutPc

inductive TimeoutEvent
  /-- Signals were posted by somebody else. -/
  | posted (sigs : UInt8)
  /-- The caller's timer expired. -/
  | expired
  /-- `sig_waitSignal` found signals; all that was pending. -/
  | took (recv : UInt8)
  /-- `timer_abort` was called, and whether the timer was linked. -/
  | aborted (linked : Bool)
  deriving DecidableEq

inductive TimeoutAction (T : Type)
  /-- The caller goes on. -/
  | call
  /-- Another process or an interrupt handler posts or sends signals. -/
  | post (sigs : UInt8)
  /-- The timer driver works for somebody else: other timers, ticks and `timer_poll`. -/
  | timer (a : TimerAction T)

section
variable {T : Type} [DecidableEq T]

/-- The action is not about the timer `t`. -/
def TimerAction.Spares (t : T) : TimerAction T → Prop
  | .setDelay u _ => u ≠ t
  | .add u => u ≠ t
  | .abort u => u ≠ t
  | .tick => True
  | .poll => True

instance (t : T) : (a : TimerAction T) → Decidable (a.Spares t)
  | .setDelay _ _ | .add _ | .abort _ => inferInstanceAs (Decidable (_ ≠ _))
  | .tick | .poll => .isTrue trivial

namespace TimeoutCall

variable (t : T) (sigs : UInt8) (timeout : Ticks)

/-- Signals arrive: the caller is woken up when it waits for one of them. -/
def deliver (s : TimeoutCall T) (m : UInt8) : TimeoutCall T :=
  { s with
    sig := (s.sig.signal m).2
    pc := if (s.sig.signal m).1 = true ∧ s.pc = .asleep then .woken else s.pc }

/-- The loop of `sig_waitSignal` for `SIG_TIMEOUT | sigs`. -/
def waitTurn (s : TimeoutCall T) : TimeoutCall T × List TimeoutEvent :=
  match s.sig.waitTurn (sigTimeout ||| sigs) with
  | (some res, c) => ({ s with sig := c, pc := .taken res }, [.took s.sig.recv])
  | (none, c) => ({ s with sig := c, pc := .asleep }, [])

/-- The end of the call: the timer is removed when it has not fired. -/
def finish (s : TimeoutCall T) (res : UInt8) : TimeoutCall T × List TimeoutEvent :=
  if res &&& sigTimeout = 0 then
    if (s.sig.check sigTimeout).1 = 0 then
      ({ sig := (s.sig.check sigTimeout).2, timers := s.timers.timerAbort t, pc := .returned res },
        [.aborted (t ∈ s.timers.queue)])
    else ({ s with sig := (s.sig.check sigTimeout).2, pc := .returned res }, [])
  else ({ s with pc := .returned res }, [])

/-- The next step of the caller; `none` when it sleeps, has returned, or an assertion fails. -/
def callStep (s : TimeoutCall T) : Option (TimeoutCall T × List TimeoutEvent) :=
  match s.pc with
  | .entry =>
    if (s.sig.check sigTimeout).1 = 0 ∧ sigs &&& sigTimeout = 0 then
      some ({ s with sig := (s.sig.check sigTimeout).2, pc := .checked }, [])
    else none
  | .checked =>
    ((s.timers.timerSetDelay t timeout).timerAdd t).map fun timers => ({ s with timers := timers, pc := .armed }, [])
  | .armed => some (s.waitTurn sigs)
  | .asleep => none
  | .woken => some (s.waitTurn sigs)
  | .taken res => some (s.finish t res)
  | .returned _ => none

/-- A step of the timer driver: the event of the caller's timer posts `SIG_TIMEOUT`. -/
def timerStep (s : TimeoutCall T) (a : TimerAction T) : Option (TimeoutCall T × List TimeoutEvent) :=
  (s.timers.step a).map fun r =>
    if .expired t ∈ r.2 then ({ s with timers := r.1 }.deliver sigTimeout, [.expired])
      else ({ s with timers := r.1 }, [])

def step (s : TimeoutCall T) : TimeoutAction T → Option (TimeoutCall T × List TimeoutEvent)
  | .call => if s.timers.polling then none else s.callStep t sigs timeout
  | .post m => some (s.deliver m, [.posted m])
  | .timer a => if a.Spares t then s.timerStep t a else none

end TimeoutCall

/-- The call entered with `SIG_TIMEOUT` not pending, and with a timer that is not in use. -/
def timeoutMachine (t : T) (sigs : UInt8) (timeout : Ticks) : Machine (TimeoutCall T) (TimeoutAction T)
    TimeoutEvent where
  init s := s.pc = .entry ∧ s.sig.wait = 0 ∧ s.sig.recv &&& sigTimeout = 0 ∧ sigs &&& sigTimeout = 0 ∧
    t ∉ s.timers.queue
  step s a := s.step t sigs timeout a

/-- Nobody else posts the bit that is reserved for timeouts. -/
def TimeoutReserved (_ : TimeoutCall T) : TimeoutAction T → Prop
  | .post m => m &&& sigTimeout = 0
  | _ => True

instance (s : TimeoutCall T) : (a : TimeoutAction T) → Decidable (TimeoutReserved s a)
  | .post m => inferInstanceAs (Decidable (m &&& sigTimeout = 0))
  | .call | .timer _ => .isTrue trivial

/-! ## The bit `SIG_TIMEOUT` -/

theorem hasBit_sigTimeout (i : ℕ) : hasBit sigTimeout i = decide (i = 7) := by
  rcases Nat.lt_or_ge i 8 with hi | hi
  · revert i
    decide
  · have h1 : hasBit sigTimeout i = false := BitVec.getLsbD_of_ge _ _ hi
    rw [h1]
    simp
    omega

theorem and_sigTimeout_eq_zero {x : UInt8} : x &&& sigTimeout = 0 ↔ hasBit x 7 = false := by
  rw [← Bool.not_eq_true, ← not_iff_not, not_not, ← ne_eq, and_ne_zero_iff]
  simp [hasBit_sigTimeout]

/-! ## What a step of the caller does -/

def TimeoutPc.waits : TimeoutPc → Bool
  | .taken _ | .returned _ => false
  | _ => true

/-- **The steps of the caller**: it takes its signals, or it returns with them, or it goes on to its sleep. -/
inductive TimeoutCall.CallStep (sigs : UInt8) (s s' : TimeoutCall T) : List TimeoutEvent → Prop
  | take {res : UInt8} (hres : res = s.sig.recv &&& (sigTimeout ||| sigs)) (hne : res ≠ 0)
      (hpc : s.pc = .armed ∨ s.pc = .woken) (hpc' : s'.pc = .taken res)
      (hrecv : s'.sig.recv = s.sig.recv &&& ~~~(sigTimeout ||| sigs)) : CallStep sigs s s' [.took s.sig.recv]
  | finish {res : UInt8} {e : List TimeoutEvent} (hpc : s.pc = .taken res) (hpc' : s'.pc = .returned res)
      (hrecv : ∀ i, i ≠ 7 → hasBit s'.sig.recv i = hasBit s.sig.recv i) (he : ∀ x ∈ e, ∃ b, x = .aborted b) :
      CallStep sigs s s' e
  | goOn (hpc : s.pc.waits = true) (hpc' : s'.pc.waits = true)
      (hrecv : ∀ i, i ≠ 7 → hasBit s'.sig.recv i = hasBit s.sig.recv i)
      (hsleep : s'.pc = .asleep → s'.sig.wait = sigTimeout ||| sigs ∧ s'.sig.recv &&& (sigTimeout ||| sigs) = 0) :
      CallStep sigs s s' []

namespace TimeoutCall

variable {t : T} {sigs : UInt8} {timeout : Ticks} {s s' : TimeoutCall T} {e : List TimeoutEvent}

/-- Checking `SIG_TIMEOUT` leaves the other signals alone. -/
theorem hasBit_check_sigTimeout (c : Signal) {i : ℕ} (hi : i ≠ 7) :
    hasBit (c.check sigTimeout).2.recv i = hasBit c.recv i := by
  simp only [Signal.check, hasBit_and_not]
  simp [hasBit_sigTimeout, hi]

omit [DecidableEq T] in
theorem waitTurn_callStep (hpc : s.pc = .armed ∨ s.pc = .woken) :
    CallStep sigs s (s.waitTurn sigs).1 (s.waitTurn sigs).2 := by
  unfold TimeoutCall.waitTurn Signal.waitTurn
  by_cases hr : s.sig.recv &&& (sigTimeout ||| sigs) ≠ 0
  · rw [if_pos hr]
    exact .take rfl hr hpc rfl rfl
  · rw [if_neg hr]
    refine .goOn ?_ rfl (fun _ _ => rfl) fun _ => ⟨rfl, not_not.mp hr⟩
    rcases hpc with hpc | hpc <;> rw [hpc] <;> rfl

theorem finish_callStep {res : UInt8} (hpc : s.pc = .taken res) :
    CallStep sigs s (s.finish t res).1 (s.finish t res).2 := by
  unfold TimeoutCall.finish
  split
  · split
    · exact .finish hpc rfl (fun i hi => hasBit_check_sigTimeout s.sig hi) fun x hx => ⟨_, mem_singleton.mp hx⟩
    · exact .finish hpc rfl (fun i hi => hasBit_check_sigTimeout s.sig hi) nofun
  · exact .finish hpc rfl (fun _ _ => rfl) nofun

/-- What a step of the call can do. -/
theorem callStep_cases (hs : s.callStep t sigs timeout = some (s', e)) : CallStep sigs s s' e := by
  have done : ∀ {r : TimeoutCall T × List TimeoutEvent}, some r = some (s', e) → CallStep sigs s r.1 r.2 →
      CallStep sigs s s' e := by
    rintro r ⟨⟩ hr
    exact hr
  unfold callStep at hs
  split at hs
  · next hpc =>
    split_ifs at hs
    cases hs
    exact .goOn (by rw [hpc]; rfl) rfl (fun i hi => hasBit_check_sigTimeout s.sig hi) nofun
  · next hpc =>
    obtain ⟨timers, -, hs⟩ := map_eq_some_iff.mp hs
    cases hs
    exact .goOn (by rw [hpc]; rfl) rfl (fun _ _ => rfl) nofun
  · next hpc => exact done hs (waitTurn_callStep (.inl hpc))
  · cases hs
  · next hpc => exact done hs (waitTurn_callStep (.inr hpc))
  · next res hpc => exact done hs (finish_callStep hpc)
  · cases hs

/-- A step of the timer driver touches no signal but `SIG_TIMEOUT`. -/
theorem timerStep_cases {a : TimerAction T} (hs : s.timerStep t a = some (s', e)) :
    (s'.sig = s.sig ∧ s'.pc = s.pc ∧ e = []) ∨
      ∃ timers, s' = { s with timers := timers }.deliver sigTimeout ∧ e = [.expired] := by
  obtain ⟨⟨timers, ev⟩, -, hs⟩ := map_eq_some_iff.mp hs
  dsimp only at hs
  split at hs
  · cases hs
    exact .inr ⟨timers, rfl, rfl⟩
  · cases hs
    exact .inl ⟨rfl, rfl, rfl⟩

end TimeoutCall

/-! ## The timer in the queue -/

/-- What the driver does for others leaves the timer linked, unless it expires. -/
theorem Timers.count_step {s s' : Timers T} {t : T} {a : TimerAction T} {e : List (TimerEvent T)} (ha : a.Spares t)
    (hs : s.step a = some (s', e)) :
    .expired t ∉ e ∧ s'.queue.count t = s.queue.count t ∨ .expired t ∈ e ∧ s'.queue.count t + 1 = s.queue.count t := by
  cases a with
  | setDelay u delay =>
    cases hs
    exact .inl ⟨nofun, rfl⟩
  | add u =>
    obtain ⟨s'', hadd, hs⟩ := map_eq_some_iff.mp hs
    cases hs
    obtain ⟨-, rfl⟩ := TimersInv.timerAdd_eq_some hadd
    refine .inl ⟨by simp, ?_⟩
    rw [(perm_orderedInsert _ u s.queue).count_eq, count_cons_of_ne ha]
  | abort u =>
    simp only [Timers.step] at hs
    split_ifs at hs
    cases hs
    exact .inl ⟨by simp, count_erase_of_ne (Ne.symm ha)⟩
  | tick =>
    simp only [Timers.step] at hs
    split_ifs at hs
    cases hs
    exact .inl ⟨by simp, rfl⟩
  | poll =>
    simp only [Timers.step] at hs
    split_ifs at hs
    split at hs
    · cases hs
      exact .inl ⟨nofun, rfl⟩
    · next u hu =>
      cases hs
      rcases eq_or_ne u t with rfl | hne
      · have hmem : u ∈ s.queue := by
          unfold Timers.timerPollTurn at hu
          split at hu
          · cases hu
          · next hq =>
            split_ifs at hu
            cases hu
            rw [hq]
            exact mem_cons_self
        refine .inr ⟨by simp, ?_⟩
        have hpos := count_pos_iff.mpr hmem
        rw [show (s.remove u).queue = s.queue.erase u from rfl, count_erase_self]
        omega
      · exact .inl ⟨by simp [Ne.symm hne], count_erase_of_ne (Ne.symm hne)⟩

/-! ## The invariant -/

namespace TimeoutCall

variable {t : T} {sigs : UInt8} {s s' : TimeoutCall T}

/-- The timer is out of the queue and its signal is not pending. -/
def Clean (s : TimeoutCall T) (t : T) : Prop :=
  s.timers.queue.count t = 0 ∧ hasBit s.sig.recv 7 = false

/-- Either the timer is in the queue, or its signal is pending. -/
def Awaits (s : TimeoutCall T) (t : T) : Prop :=
  s.timers.queue.count t = 1 ∧ hasBit s.sig.recv 7 = false ∨ s.timers.queue.count t = 0 ∧ hasBit s.sig.recv 7 = true

/-- The result has `SIG_TIMEOUT` or a signal that was asked for. -/
def ResOk (sigs res : UInt8) : Prop :=
  res &&& sigTimeout ≠ 0 ∨ res &&& sigs ≠ 0

/-- **The invariant of the call**, by the caller's place. -/
def Good (s : TimeoutCall T) (t : T) (sigs : UInt8) : Prop :=
  match s.pc with
  | .entry | .checked => s.Clean t
  | .armed | .asleep | .woken => s.Awaits t
  | .taken res => ResOk sigs res ∧ (hasBit res 7 = true → s.Clean t) ∧ (hasBit res 7 = false → s.Awaits t)
  | .returned res => ResOk sigs res ∧ s.Clean t

/-- What others do moves the caller at most from its sleep to the ready list. -/
theorem Good.env (h : s.Good t sigs) (hpc : s'.pc = s.pc ∨ s.pc = .asleep ∧ s'.pc = .woken)
    (hc : s.Clean t → s'.Clean t) (ha : s.Awaits t → s'.Awaits t) : s'.Good t sigs := by
  unfold Good at h ⊢
  rcases hpc with hpc | ⟨hp, hp'⟩
  · rw [hpc]
    split at h
    · exact hc h
    · exact hc h
    · exact ha h
    · exact ha h
    · exact ha h
    · exact ⟨h.1, fun e => hc (h.2.1 e), fun e => ha (h.2.2 e)⟩
    · exact ⟨h.1, hc h.2⟩
  · rw [hp] at h
    rw [hp']
    exact ha h

section
omit [DecidableEq T]

theorem deliver_pc (m : UInt8) : (s.deliver m).pc = s.pc ∨ s.pc = .asleep ∧ (s.deliver m).pc = .woken := by
  unfold deliver
  dsimp only
  split
  · next h => exact .inr ⟨h.2, rfl⟩
  · exact .inl rfl

@[simp] theorem deliver_recv (m : UInt8) : (s.deliver m).sig.recv = s.sig.recv ||| m := by
  unfold deliver Signal.signal
  dsimp only
  split <;> rfl

end

theorem Good.post (h : s.Good t sigs) {m : UInt8} (hm : m &&& sigTimeout = 0) : (s.deliver m).Good t sigs := by
  have hbit : hasBit (s.deliver m).sig.recv 7 = hasBit s.sig.recv 7 := by
    simp [and_sigTimeout_eq_zero.mp hm]
  refine h.env (s.deliver_pc m) ?_ ?_
  · intro hc
    exact ⟨hc.1, hbit.trans hc.2⟩
  · rintro (⟨hq, hb⟩ | ⟨hq, hb⟩)
    · exact .inl ⟨hq, hbit.trans hb⟩
    · exact .inr ⟨hq, hbit.trans hb⟩

/-- A step of the timer keeps the call good, -/
theorem Good.timer (h : s.Good t sigs) {a : TimerAction T} {e : List TimeoutEvent} (ha : a.Spares t)
    (hs : s.timerStep t a = some (s', e)) : s'.Good t sigs ∧ ∀ b, .aborted b ∉ e := by
  obtain ⟨⟨timers, ev⟩, hstep, hs⟩ := map_eq_some_iff.mp hs
  dsimp only at hs
  rcases Timers.count_step ha hstep with ⟨hev, hcount⟩ | ⟨hev, hcount⟩
  · rw [if_neg hev] at hs
    cases hs
    refine ⟨h.env (.inl rfl) ?_ ?_, nofun⟩
    · intro hc
      exact ⟨hcount.trans hc.1, hc.2⟩
    · rintro (⟨hq, hb⟩ | ⟨hq, hb⟩)
      · exact .inl ⟨hcount.trans hq, hb⟩
      · exact .inr ⟨hcount.trans hq, hb⟩
  · rw [if_pos hev] at hs
    cases hs
    refine ⟨h.env (deliver_pc _) ?_ ?_, by simp⟩
    · intro hc
      have := hc.1
      omega
    · intro haw
      refine .inr ⟨?_, by simp [hasBit_sigTimeout]⟩
      show timers.queue.count t = 0
      rcases haw with ⟨hq, -⟩ | ⟨hq, -⟩ <;> omega

/-- a turn of the wait does, -/
theorem Good.waitTurn (h : s.Awaits t) (sigs : UInt8) :
    (s.waitTurn sigs).1.Good t sigs ∧ ∀ b, .aborted b ∉ (s.waitTurn sigs).2 := by
  unfold TimeoutCall.waitTurn Signal.waitTurn
  by_cases hr : s.sig.recv &&& (sigTimeout ||| sigs) ≠ 0
  · rw [if_pos hr]
    have hres : ∀ i, hasBit (s.sig.recv &&& (sigTimeout ||| sigs)) i =
        (hasBit s.sig.recv i && (decide (i = 7) || hasBit sigs i)) := by
      intro i
      simp [hasBit_sigTimeout]
    refine ⟨⟨?_, ?_, ?_⟩, by simp⟩
    · obtain ⟨i, hi, hm⟩ := and_ne_zero_iff.mp hr
      rw [hasBit_or, Bool.or_eq_true] at hm
      rcases hm with hm | hm
      · exact .inl (and_ne_zero_iff.mpr ⟨i, by simp [hi, hm], hm⟩)
      · exact .inr (and_ne_zero_iff.mpr ⟨i, by simp [hi, hm], hm⟩)
    · intro h7
      rw [hres] at h7
      have h7' : hasBit s.sig.recv 7 = true := by simpa using h7
      rcases h with ⟨-, hb⟩ | ⟨hq, -⟩
      · rw [hb] at h7'
        cases h7'
      · refine ⟨hq, ?_⟩
        simp only [hasBit_and_not]
        simp [hasBit_sigTimeout]
    · intro h7
      rw [hres] at h7
      have h7' : hasBit s.sig.recv 7 = false := by simpa using h7
      rcases h with ⟨hq, -⟩ | ⟨-, hb⟩
      · refine .inl ⟨hq, ?_⟩
        simp only [hasBit_and_not]
        simp [h7']
      · rw [hb] at h7'
        cases h7'
  · rw [if_neg hr]
    exact ⟨h, nofun⟩

/-- and the end of the call aborts its own timer at most. -/
theorem Good.finish {res : UInt8} (h : s.Good t sigs) (hpc : s.pc = .taken res) :
    (s.finish t res).1.Good t sigs ∧ ∀ b, .aborted b ∈ (s.finish t res).2 → b = true := by
  unfold Good at h
  rw [hpc] at h
  obtain ⟨hres, hclean, hawaits⟩ := h
  unfold TimeoutCall.finish
  by_cases h7 : res &&& sigTimeout = 0
  · rw [if_pos h7]
    have haw := hawaits (and_sigTimeout_eq_zero.mp h7)
    have hcheck : (s.sig.check sigTimeout).1 = 0 ↔ hasBit s.sig.recv 7 = false := and_sigTimeout_eq_zero
    have hclear : hasBit (s.sig.check sigTimeout).2.recv 7 = false := by
      simp only [Signal.check, hasBit_and_not]
      simp [hasBit_sigTimeout]
    by_cases hc : (s.sig.check sigTimeout).1 = 0
    · rw [if_pos hc]
      -- The timer has not fired: it is still in the queue.
      rcases haw with ⟨hq, -⟩ | ⟨-, hb⟩
      · have hmem : t ∈ s.timers.queue := count_pos_iff.mp (by omega)
        refine ⟨⟨hres, ?_, hclear⟩, by simpa using hmem⟩
        show (s.timers.queue.erase t).count t = 0
        rw [count_erase_self, hq]
      · rw [hcheck.mp hc] at hb
        cases hb
    · rw [if_neg hc]
      rcases haw with ⟨-, hb⟩ | ⟨hq, -⟩
      · exact absurd (hcheck.mpr hb) hc
      · exact ⟨⟨hres, hq, hclear⟩, nofun⟩
  · rw [if_neg h7]
    have hb : hasBit res 7 = true := by
      rw [← Bool.not_eq_false]
      exact fun e => h7 (and_sigTimeout_eq_zero.mpr e)
    exact ⟨⟨hres, hclean hb⟩, nofun⟩

/-- **Every step keeps the invariant**, when nobody else posts `SIG_TIMEOUT`. -/
theorem Good.step {timeout : Ticks} (h : s.Good t sigs) {a : TimeoutAction T} {e : List TimeoutEvent}
    (hok : TimeoutReserved s a) (hs : s.step t sigs timeout a = some (s', e)) :
    s'.Good t sigs ∧ ∀ b, .aborted b ∈ e → b = true := by
  have none_of : (∀ b, .aborted b ∉ e) → ∀ b, .aborted b ∈ e → b = true := fun h b hb => absurd hb (h b)
  cases a with
  | post m =>
    cases hs
    exact ⟨h.post hok, by simp⟩
  | timer a =>
    simp only [TimeoutCall.step] at hs
    split_ifs at hs with ha
    obtain ⟨hg, hev⟩ := h.timer ha hs
    exact ⟨hg, none_of hev⟩
  | call =>
    simp only [TimeoutCall.step, callStep] at hs
    split at hs
    · cases hs
    split at hs
    · next hpc =>
      unfold Good at h
      rw [hpc] at h
      split_ifs at hs
      cases hs
      refine ⟨⟨h.1, ?_⟩, nofun⟩
      simp only [Signal.check, hasBit_and_not]
      simp [h.2]
    · next hpc =>
      unfold Good at h
      rw [hpc] at h
      obtain ⟨timers, hadd, hs⟩ := map_eq_some_iff.mp hs
      cases hs
      obtain ⟨-, rfl⟩ := TimersInv.timerAdd_eq_some hadd
      refine ⟨.inl ⟨?_, h.2⟩, nofun⟩
      dsimp only
      rw [(perm_orderedInsert _ t _).count_eq, count_cons_self]
      exact congrArg (· + 1) h.1
    · next hpc =>
      unfold Good at h
      rw [hpc] at h
      obtain ⟨hg, hev⟩ := Good.waitTurn h sigs
      rw [some.inj hs] at hg hev
      exact ⟨hg, none_of hev⟩
    · cases hs
    · next hpc =>
      unfold Good at h
      rw [hpc] at h
      obtain ⟨hg, hev⟩ := Good.waitTurn h sigs
      rw [some.inj hs] at hg hev
      exact ⟨hg, none_of hev⟩
    · next res hpc =>
      obtain ⟨hg, hev⟩ := h.finish hpc
      rw [some.inj hs] at hg hev
      exact ⟨hg, hev⟩
    · cases hs

end TimeoutCall

/-- The invariant, along every run. -/
theorem TimeoutCall.Good.of_run {t : T} {sigs : UInt8} {timeout : Ticks} {s : TimeoutCall T} {log : List TimeoutEvent}
    (h : (timeoutMachine t sigs timeout).Run TimeoutReserved s log) :
    s.Good t sigs ∧ ∀ b, .aborted b ∈ log → b = true := by
  refine h.invariant (I := fun s log => s.Good t sigs ∧ ∀ b, .aborted b ∈ log → b = true) ?_ ?_
  · rintro s ⟨hpc, -, hrecv, -, ht⟩
    refine ⟨?_, nofun⟩
    unfold TimeoutCall.Good
    rw [hpc]
    exact ⟨count_eq_zero_of_not_mem ht, and_sigTimeout_eq_zero.mp hrecv⟩
  · rintro s log a s' e ⟨hg, hlog⟩ hok hs
    obtain ⟨hg', he⟩ := hg.step hok hs
    exact ⟨hg', fun b hb => (mem_append.mp hb).elim (he b) (hlog b)⟩

/-- **`sig_waitTimeoutSignal` leaves nothing behind**, for every interleaving with ticks, timers and signals of others
that are not `SIG_TIMEOUT`: when the call has returned, its timer is not in the queue, `timer_abort` was called only on
a linked timer, `SIG_TIMEOUT` is not pending, and the result has `SIG_TIMEOUT` or one of the signals asked for. -/
theorem sigWaitTimeout_clean {t : T} {sigs : UInt8} {timeout : Ticks} {s : TimeoutCall T} {log : List TimeoutEvent}
    (h : (timeoutMachine t sigs timeout).Run TimeoutReserved s log) {res : UInt8} (hpc : s.pc = .returned res) :
    t ∉ s.timers.queue ∧ (∀ linked, .aborted linked ∈ log → linked = true) ∧ s.sig.recv &&& sigTimeout = 0 ∧
      (res &&& sigTimeout ≠ 0 ∨ res &&& sigs ≠ 0) := by
  obtain ⟨hg, hlog⟩ := TimeoutCall.Good.of_run h
  unfold TimeoutCall.Good at hg
  rw [hpc] at hg
  exact ⟨count_eq_zero.mp hg.2.1, hlog, and_sigTimeout_eq_zero.mpr hg.2.2, hg.1⟩

end

/-- A process that enters `sig_waitTimeoutSignal` with no signal pending and no timer queued. -/
def timeoutEntry : TimeoutCall Unit where
  sig := ⟨0, 0⟩
  timers := Timers.init fun _ => { delay := 0, tick := 0, magic := 0 }
  pc := .entry

theorem timeoutEntry_init (timeout : Ticks) : (timeoutMachine () 1 timeout).init timeoutEntry :=
  ⟨rfl, rfl, rfl, rfl, nofun⟩

/-- The signal comes before the timeout: the timer is aborted. -/
def signalFirst : Option (TimeoutCall Unit × List TimeoutEvent) :=
  (timeoutMachine () 1 5).exec TimeoutReserved timeoutEntry [] [.call, .call, .call, .post 1, .call, .call]

theorem sigWaitTimeout_clean_signalFirst :
    ∃ s, signalFirst = some (s, [.aborted true, .took 1, .posted 1]) ∧ s.pc = .returned 1 ∧
      () ∉ s.timers.queue ∧ s.sig.recv &&& sigTimeout = 0 := by
  have hsome : signalFirst = some _ := rfl
  have hrun := (Machine.Run.init (timeoutEntry_init 5)).exec hsome
  have hclean := sigWaitTimeout_clean hrun rfl
  exact ⟨_, rfl, rfl, hclean.1, hclean.2.2.1⟩

/-- Another process sends `SIG_TIMEOUT`: the call returns, and its timer stays in the queue. -/
theorem sigTimeout_sent_leaves_timer :
    ∃ s log, (timeoutMachine () 1 5).Run (fun _ _ => True) s log ∧ s.pc = .returned sigTimeout ∧
      () ∈ s.timers.queue := by
  have hsome : (timeoutMachine () 1 5).exec (fun _ _ => True) timeoutEntry []
      [.call, .call, .call, .post sigTimeout, .call, .call] = some _ := rfl
  exact ⟨_, _, (Machine.Run.init (timeoutEntry_init 5)).exec hsome, rfl, by decide⟩

end Bertos
