import Bertos.Kern.Proc
import Bertos.Lib.CTypes

/-!
# Kernel calls, interrupts and runs

The calls of `kern/signal.c` and `kern/sem.c` over the kernel's state, and the steps of the whole system: a call by the
current process, the next stretch of a call in progress, the polling loop of the scheduler, an interrupt handler that
posts a signal, the timer tick and the preemption at the end of an interrupt (`KernAction`, `Kernel.step`).

A step is code that no other process and no handler can observe halfway. A preemption may fall between any two steps at
which interrupts are enabled; whether it happens there is decided by `proc_needPreempt` itself. `KernRun` is the set of
states, with what happened on the way, that a run reaches.
-/

namespace Bertos

section
variable {P S : Type} [DecidableEq P] [DecidableEq S]

namespace Kernel

/-! ## `kern/signal.c` -/

/-- `sig_waitSignal` on the signals of the calling process, from its test of `recv` on: entered by the call, and again
when the process is resumed. -/
def sigWaitSignal (cfg : KernConfig) (k : Kernel P S) (p : P) (sigs : UInt8) : Kernel P S :=
  if (k.proc p).recv &&& sigs ≠ 0 then
    k.setProc p { k.proc p with recv := (k.proc p).recv &&& ~~~sigs, pc := .user }
  else
    (k.setProc p { k.proc p with wait := sigs, pc := .sigAsleep sigs }).procSwitch cfg

/-- `__sig_signal`: `wakeup` is the calling process of `sig_sendSignal`, `none` for `sig_postSignal`. -/
def sigSignal (cfg : KernConfig) (k : Kernel P S) (q : P) (sigs : UInt8) (wakeup : Option P) : Kernel P S :=
  if ((k.proc q).recv ||| sigs) &&& (k.proc q).wait ≠ 0 then
    let woken := k.setProc q { k.proc q with recv := (k.proc q).recv ||| sigs, wait := 0 }
    match wakeup with
    | some p => woken.procWakeup cfg p q
    | none => woken.schedEnqueueHead q
  else
    k.setProc q { k.proc q with recv := (k.proc q).recv ||| sigs }

/-! ## `kern/sem.c` -/

/-- `LIST_ASSERT_VALID` on the wait queue of `s`: the links of a list are intact as long as each of its nodes is
linked once, and in no other list. -/
def waitQueueValid (k : Kernel P S) (s : S) : Prop :=
  (k.sem s).waitQueue.Nodup ∧
    ∀ p ∈ (k.sem s).waitQueue, p ∉ k.ready ∧ p ∉ k.zombies ∧ ∀ s' ≠ s, p ∉ (k.sem s').waitQueue

/-- The assertions of `sem_verify`. -/
def semVerify (k : Kernel P S) (s : S) : Prop :=
  k.waitQueueValid s ∧ 0 ≤ (k.sem s).nestCount ∧ (k.sem s).nestCount < 128

/-- `s->owner && s->owner != current_process`: another process has the semaphore. -/
def ownedByOther (k : Kernel P S) (p : P) (s : S) : Prop :=
  (k.sem s).owner ≠ none ∧ (k.sem s).owner ≠ some p

instance (k : Kernel P S) (p : P) (s : S) : Decidable (k.ownedByOther p s) :=
  inferInstanceAs (Decidable (_ ∧ _))

/-- The process locks the semaphore, or locks it once more; `nest_count` is an `int` of 32 bits. -/
def semLock (k : Kernel P S) (p : P) (s : S) : Kernel P S :=
  k.setSem s { k.sem s with owner := some p, nestCount := toSigned 32 ((k.sem s).nestCount + 1) }

/-- `sem_attempt` between `proc_forbid` and `proc_permit`. -/
def semAttempt (k : Kernel P S) (p : P) (s : S) : Kernel P S × List (KernEvent P S) :=
  if k.ownedByOther p s then (k.setPc p (.attemptDone s false), [])
  else ((k.semLock p s).setPc p (.attemptDone s true), [.obtained p s])

/-- `sem_obtain` between `proc_forbid` and `proc_permit`. -/
def semObtain (k : Kernel P S) (p : P) (s : S) : Kernel P S × List (KernEvent P S) :=
  if k.ownedByOther p s then
    ((k.setSem s { k.sem s with waitQueue := (k.sem s).waitQueue ++ [p] }).setPc p (.obtainQueued s), [.blocked p s])
  else
    ((k.semLock p s).setPc p (.obtainLocked s), [.obtained p s])

/-- `sem_release` between `proc_forbid` and `proc_permit`. -/
def semRelease (k : Kernel P S) (p : P) (s : S) : Kernel P S × List (KernEvent P S) :=
  let n := toSigned 32 ((k.sem s).nestCount - 1)
  if n = 0 then
    match (k.sem s).waitQueue with
    | [] =>
      ((k.setSem s { owner := none, waitQueue := [], nestCount := n }).setPc p (.releaseDone s none),
        [.released p s])
    | q :: r =>
      ((k.setSem s { owner := some q, waitQueue := r, nestCount := 1 }).setPc p (.releaseDone s (some q)),
        [.released p s, .granted q s 1])
  else
    ((k.setSem s { k.sem s with nestCount := n }).setPc p (.releaseDone s none), [.released p s])

/-! ## Calls -/

/-- `proc_setPri` up to `sched_reenqueue`. -/
def procSetPri (k : Kernel P S) (p q : P) (pri : ℤ) : Kernel P S :=
  if (k.proc q).pri = pri then k
  else
    let k' := k.setProc q { k.proc q with pri := pri }
    if q = p then k' else k'.setPc p (.setPriEnqueue q)

end Kernel

inductive KernCall (P S : Type)
  | new (q : Option P)
  | yield
  | exit
  | setPri (q : P) (pri : ℤ)
  | sigWait (sigs : UInt8)
  | sigSend (q : P) (sigs : UInt8)
  | sigPost (q : P) (sigs : UInt8)
  | semObtain (s : S)
  | semAttempt (s : S)
  | semRelease (s : S)

inductive KernAction (P S : Type)
  /-- The current process makes a call. -/
  | call (c : KernCall P S)
  /-- The code of the kernel that is in progress goes on. -/
  | advance
  /-- An interrupt handler calls `sig_post`. -/
  | irqPost (q : P) (sigs : UInt8)
  /-- The timer interrupt takes a tick from the time slice. -/
  | tick
  /-- An interrupt ends with `proc_needPreempt` and `proc_preempt`. -/
  | preempt

namespace Kernel

section
omit [DecidableEq S]

@[simp] theorem sigWaitSignal_sem (cfg : KernConfig) (k : Kernel P S) (p : P) (sigs : UInt8) :
    (k.sigWaitSignal cfg p sigs).sem = k.sem := by
  unfold sigWaitSignal
  split <;> simp

@[simp] theorem sigSignal_sem (cfg : KernConfig) (k : Kernel P S) (q : P) (sigs : UInt8) (wakeup : Option P) :
    (k.sigSignal cfg q sigs wakeup).sem = k.sem := by
  unfold sigSignal
  split
  · cases wakeup <;> simp [schedEnqueueHead]
  · simp

end

omit [DecidableEq S] in
@[simp] theorem procSetPri_sem (k : Kernel P S) (p q : P) (pri : ℤ) : (k.procSetPri p q pri).sem = k.sem := by
  unfold procSetPri
  dsimp only
  split_ifs <;> simp

/-- The first step of a call made by the process `p`. -/
def call (cfg : KernConfig) (k : Kernel P S) (p : P) : KernCall P S → Kernel P S × List (KernEvent P S)
  | .new q => k.procNew q
  | .yield => (k.procYield cfg p, [])
  | .exit => ((k.procForbid cfg).setPc p .exitForbidden, [])
  | .setPri q pri => (k.procSetPri p q pri, [])
  | .sigWait sigs => (k.sigWaitSignal cfg p sigs, [])
  | .sigSend q sigs => (k.sigSignal cfg q sigs (some p), [])
  | .sigPost q sigs => (k.sigSignal cfg q sigs none, [])
  | .semObtain s => ((k.procForbid cfg).setPc p (.obtainVerify s), [])
  | .semAttempt s => ((k.procForbid cfg).setPc p (.attemptVerify s), [])
  | .semRelease s => ((k.procForbid cfg).setPc p (.releaseVerify s), [])

/-- The next step of the process `p`, which is in the middle of a call. -/
def resume (cfg : KernConfig) (k : Kernel P S) (p : P) : Option (Kernel P S × List (KernEvent P S)) :=
  match (k.proc p).pc with
  | .user => none
  | .obtainVerify s => some (k.semObtain p s)
  | .obtainQueued s => some ((k.procPermit cfg).setPc p (.obtainSwitch s), [])
  | .obtainSwitch s => some ((k.setPc p (.obtainAsleep s)).procSwitch cfg, [])
  | .obtainAsleep s => some (k.setPc p .user, [.returned p s])
  | .obtainLocked s => some ((k.procPermit cfg).setPc p .user, [.returned p s])
  | .attemptVerify s => some (k.semAttempt p s)
  | .attemptDone s result =>
    some ((k.procPermit cfg).setPc p .user, if result then [.returned p s] else [])
  | .releaseVerify s => some (k.semRelease p s)
  | .releaseDone s q => some ((k.procPermit cfg).setPc p (.releaseWakeup s q), [])
  | .releaseWakeup _ none => some (k.setPc p .user, [])
  | .releaseWakeup _ (some q) => some ((k.setPc p .user).procWakeup cfg p q, [])
  | .sigAsleep sigs => some (k.sigWaitSignal cfg p sigs, [])
  | .exitForbidden =>
    some ({ k.setPc p .user with zombies := k.zombies ++ [p], current := none, cpu := .exitPermit }, [.exited p])
  | .setPriEnqueue q => some ((k.schedReenqueue q).setPc p .user, [])

def advance (cfg : KernConfig) (k : Kernel P S) : Option (Kernel P S × List (KernEvent P S)) :=
  match k.cpu with
  | .running => k.current.bind (k.resume cfg)
  | .exitPermit => some ({ k.procPermit cfg with cpu := .exitSwitch }, [])
  | .exitSwitch => some (k.procSwitch cfg, [])
  | .idle => if k.ready = [] then none else some (k.procSchedule, [])

/-- Interrupts are enabled: a process that comes out of `proc_switch` first restores them. -/
def irqEnabled (k : Kernel P S) : Bool :=
  match k.cpu, k.current with
  | .running, some p =>
    match (k.proc p).pc with
    | .obtainAsleep _ | .sigAsleep _ => false
    | _ => true
  | _, _ => true

/-- A step of the system: the state after it and what it did; `none` when it is not possible here. -/
def step (cfg : KernConfig) (k : Kernel P S) : KernAction P S → Option (Kernel P S × List (KernEvent P S))
  | .call c =>
    match k.cpu, k.current with
    | .running, some p => if (k.proc p).pc = .user then some (k.call cfg p c) else none
    | _, _ => none
  | .advance => k.advance cfg
  | .irqPost q sigs => if k.irqEnabled then some (k.sigSignal cfg q sigs none, []) else none
  | .tick => if k.irqEnabled then some ({ k with quantum := k.quantum - 1 }, []) else none
  | .preempt =>
    match k.current with
    | some p =>
      if cfg.preempt ∧ k.irqEnabled ∧ k.procNeedPreempt cfg then some (k.procPreempt cfg p, []) else none
    | none => none

end Kernel

/-! ## Runs -/

/-- The events of `p`'s life: how often it was created, and how often it exited. -/
def Alive (t : List (KernEvent P S)) (p : P) : Prop :=
  t.count (.exited p) < t.count (.created p)

instance (t : List (KernEvent P S)) (p : P) : Decidable (Alive t p) :=
  inferInstanceAs (Decidable (_ < _))

/-- A new process is put in memory that no live process uses. -/
def FreshNew (t : List (KernEvent P S)) : KernAction P S → Prop
  | .call (.new (some q)) => ¬ Alive t q
  | _ => True

instance (t : List (KernEvent P S)) : (a : KernAction P S) → Decidable (FreshNew t a)
  | .call (.new (some _)) => inferInstanceAs (Decidable (¬ _))
  | .call (.new none) | .call .yield | .call .exit | .call (.setPri _ _) | .call (.sigWait _) | .call (.sigSend _ _)
  | .call (.sigPost _ _) | .call (.semObtain _) | .call (.semAttempt _) | .call (.semRelease _)
  | .advance | .irqPost _ _ | .tick | .preempt => .isTrue trivial

/-- **Runs of the system** from `proc_init`, each step allowed by `ok`: the state reached, and the events so far. -/
inductive KernRun (cfg : KernConfig) (ok : Kernel P S → KernAction P S → Prop) :
    Kernel P S → List (KernEvent P S) → Prop
  | boot (m : P) : KernRun cfg ok (Kernel.boot m) [.created m]
  | step {k k' : Kernel P S} {t e : List (KernEvent P S)} {a : KernAction P S} (h : KernRun cfg ok k t)
      (hok : ok k a) (hnew : FreshNew t a) (hs : k.step cfg a = some (k', e)) : KernRun cfg ok k' (t ++ e)

/-- The state after these steps, and the events so far; `none` when one of the steps is not possible. -/
def Kernel.exec (cfg : KernConfig) (ok : Kernel P S → KernAction P S → Prop) [∀ k a, Decidable (ok k a)]
    (k : Kernel P S) (t : List (KernEvent P S)) : List (KernAction P S) → Option (Kernel P S × List (KernEvent P S))
  | [] => some (k, t)
  | a :: as =>
    if ok k a ∧ FreshNew t a then (k.step cfg a).bind (fun r => r.1.exec cfg ok (t ++ r.2) as) else none

theorem KernRun.exec {cfg : KernConfig} {ok : Kernel P S → KernAction P S → Prop} [∀ k a, Decidable (ok k a)]
    {k : Kernel P S} {t : List (KernEvent P S)} (h : KernRun cfg ok k t) {as : List (KernAction P S)}
    {r : Kernel P S × List (KernEvent P S)} (hr : k.exec cfg ok t as = some r) : KernRun cfg ok r.1 r.2 := by
  induction as generalizing k t with
  | nil =>
    cases hr
    exact h
  | cons a as ih =>
    unfold Kernel.exec at hr
    split at hr
    · next hok =>
      obtain ⟨⟨k', e⟩, hs, hr⟩ := Option.bind_eq_some_iff.mp hr
      exact ih (h.step hok.1 hok.2 hs) hr
    · cases hr

end

end Bertos
