import Bertos.Kern.Proc
import Bertos.Lib.Bits
import Bertos.Lib.Machine

/-!
# Signals

`kern/signal.c` over any number of `Signal` structures: the one in the control block of each process, and those in the
generic events. `sig_waitSignal` and `sig_checkSignal` are called by the process that owns the `Signal`;
`sig_sendSignal` and `sig_postSignal` by any process, and the latter by interrupt handlers.

The functions run with interrupts disabled, but the scheduler enables them in its polling loop, so that a wait is one
step up to `proc_switch` and one from the moment the process is scheduled again. The other steps (`SigAction`) are what
else moves processes between the CPU and the ready list.
-/

namespace Bertos

/-- `Signal`: the pending signals, and those that its owner waits for. -/
structure Signal where
  recv : UInt8
  wait : UInt8
  deriving DecidableEq

namespace Signal

/-- `__sig_checkSignal`: the signals found, which are cleared. -/
def check (s : Signal) (sigs : UInt8) : UInt8 × Signal :=
  (s.recv &&& sigs, { s with recv := s.recv &&& ~~~sigs })

/-- A turn of the loop of `sig_waitSignal`: the signals found, which are cleared, or `none` when the process goes to
sleep. -/
def waitTurn (s : Signal) (sigs : UInt8) : Option UInt8 × Signal :=
  if s.recv &&& sigs ≠ 0 then (some (s.recv &&& sigs), { s with recv := s.recv &&& ~~~sigs })
  else (none, { s with wait := sigs })

/-- `__sig_signal`: whether the owner is to be woken up. -/
def signal (s : Signal) (sigs : UInt8) : Bool × Signal :=
  if (s.recv ||| sigs) &&& s.wait ≠ 0 then (true, { recv := s.recv ||| sigs, wait := 0 })
  else (false, { s with recv := s.recv ||| sigs })

end Signal

/-- The kernel and its signals: `waiting p` says on which `Signal`, and for which bits, `p` stands in `proc_switch`. -/
structure SigSys (P M S : Type) where
  kern : Kernel P M
  sig : S → Signal
  waiting : P → Option (S × UInt8)

inductive SigEvent (S : Type)
  | posted (s : S) (sigs : UInt8)
  /-- `sig_waitSignal` returned. -/
  | waited (s : S) (sigs result : UInt8)
  /-- `sig_checkSignal` returned. -/
  | checked (s : S) (sigs result : UInt8)
  deriving DecidableEq

inductive SigAction (P S : Type)
  /-- The running process calls `sig_waitSignal`. -/
  | wait (s : S) (sigs : UInt8)
  /-- The current process comes out of the `proc_switch` of `sig_waitSignal`. -/
  | resume
  | check (s : S) (sigs : UInt8)
  | send (s : S) (sigs : UInt8)
  | post (s : S) (sigs : UInt8)
  /-- An interrupt handler calls `sig_postSignal`. -/
  | irqPost (s : S) (sigs : UInt8)
  | yield
  | forbid
  | permit
  /-- The running process changes the priority of a process. -/
  | setPri (q : P) (pri : ℤ)
  /-- The second half of `proc_setPri`. -/
  | reenqueue (q : P)
  /-- The running process goes to sleep on something else, or exits. -/
  | leave
  /-- The running process wakes up one that sleeps on something else. -/
  | wakeup (q : P)
  /-- The running process creates one. -/
  | new (q : P)
  /-- The polling loop of `proc_schedule` finds a process. -/
  | dispatch
  | tick
  | preempt

section
variable {P M S : Type} [DecidableEq P] [DecidableEq S]

namespace SigSys

variable (owner : S → P) (cfg : KernConfig)

/-- The current process, when it is not about to come out of `proc_switch`. -/
def active (k : SigSys P M S) : Option P :=
  match k.kern.current with
  | some p => if k.waiting p = none then some p else none
  | none => none

def irqEnabled (k : SigSys P M S) : Bool :=
  match k.kern.current with
  | some p => k.waiting p = none
  | none => true

/-- `sig_waitSignal` called by `p`, from its test on: entered by the call, and again when the process is resumed. -/
def sigWaitSignal (k : SigSys P M S) (p : P) (s : S) (sigs : UInt8) : SigSys P M S × List (SigEvent S) :=
  match (k.sig s).waitTurn sigs with
  | (some result, c) =>
    ({ k with sig := Function.update k.sig s c, waiting := Function.update k.waiting p none },
      [.waited s sigs result])
  | (none, c) =>
    ({ kern := k.kern.procSwitch cfg
       sig := Function.update k.sig s c
       waiting := Function.update k.waiting p (some (s, sigs)) }, [])

def sigCheckSignal (k : SigSys P M S) (s : S) (sigs : UInt8) : SigSys P M S × List (SigEvent S) :=
  ({ k with sig := Function.update k.sig s ((k.sig s).check sigs).2 }, [.checked s sigs ((k.sig s).check sigs).1])

/-- `sig_sendSignal` called by the process `wakeup`, or `sig_postSignal`. -/
def sigSignal (k : SigSys P M S) (s : S) (sigs : UInt8) (wakeup : Option P) : SigSys P M S × List (SigEvent S) :=
  match (k.sig s).signal sigs with
  | (true, c) =>
    ({ k with
       kern := match wakeup with
         | some p => k.kern.procWakeup cfg p (owner s)
         | none => k.kern.schedEnqueueHead (owner s)
       sig := Function.update k.sig s c }, [.posted s sigs])
  | (false, c) => ({ k with sig := Function.update k.sig s c }, [.posted s sigs])

/-- A process that runs its own code changes the kernel's lists. -/
def resched (k : SigSys P M S) (kern : Kernel P M) : SigSys P M S × List (SigEvent S) :=
  ({ k with kern := kern }, [])

/-- `p` is in the ready list or runs. -/
def Up (k : Kernel P M) (p : P) : Prop :=
  p ∈ k.ready ∨ k.current = some p

instance (k : Kernel P M) (p : P) : Decidable (Up k p) :=
  inferInstanceAs (Decidable (_ ∨ _))

/-- A step: the state after it and what it did; `none` when it is not possible here. -/
def step (k : SigSys P M S) (a : SigAction P S) : Option (SigSys P M S × List (SigEvent S)) :=
  match a with
  | .wait s sigs =>
    k.active.bind fun p =>
      if owner s = p ∧ k.kern.procPreemptAllowed cfg then some (k.sigWaitSignal cfg p s sigs) else none
  | .resume =>
    k.kern.current.bind fun p => (k.waiting p).bind fun w => some (k.sigWaitSignal cfg p w.1 w.2)
  | .check s sigs => k.active.bind fun p => if owner s = p then some (k.sigCheckSignal s sigs) else none
  | .send s sigs =>
    k.active.bind fun p => if k.kern.procPreemptAllowed cfg then some (k.sigSignal owner cfg s sigs (some p)) else none
  | .post s sigs => k.active.bind fun _ => some (k.sigSignal owner cfg s sigs none)
  | .irqPost s sigs => if k.irqEnabled then some (k.sigSignal owner cfg s sigs none) else none
  | .yield => k.active.bind fun p => some (k.resched (k.kern.procYield cfg p))
  | .forbid => k.active.bind fun _ => some (k.resched (k.kern.procForbid cfg))
  | .permit => k.active.bind fun _ => some (k.resched (k.kern.procPermit cfg))
  | .setPri q pri => k.active.bind fun _ => some (k.resched (k.kern.setProc q { k.kern.proc q with pri := pri }))
  | .reenqueue q => k.active.bind fun _ => some (k.resched (k.kern.schedReenqueue q))
  | .leave => k.active.bind fun _ => some (k.resched (k.kern.procSwitch cfg))
  | .wakeup q =>
    k.active.bind fun p =>
      if ¬ Up k.kern q ∧ k.waiting q = none then some (k.resched (k.kern.procWakeup cfg p q)) else none
  | .new q =>
    k.active.bind fun _ =>
      if ¬ Up k.kern q ∧ k.waiting q = none then some (k.resched (k.kern.schedEnqueue q)) else none
  | .dispatch => if k.kern.current = none ∧ k.kern.ready ≠ [] then some (k.resched k.kern.procSchedule) else none
  | .tick => if k.irqEnabled then some (k.resched { k.kern with quantum := k.kern.quantum - 1 }) else none
  | .preempt =>
    k.active.bind fun p =>
      if cfg.preempt ∧ k.kern.procNeedPreempt cfg then some (k.resched (k.kern.procPreempt cfg p)) else none

end SigSys

/-! ## Runs and their log -/

/-- The bits pending after the events of a log, newest first. -/
def sigPending (s : S) : List (SigEvent S) → UInt8
  | [] => 0
  | .posted u sigs :: log => if u = s then sigPending s log ||| sigs else sigPending s log
  | .waited u sigs _ :: log => if u = s then sigPending s log &&& ~~~sigs else sigPending s log
  | .checked u sigs _ :: log => if u = s then sigPending s log &&& ~~~sigs else sigPending s log

/-- A `Signal`, a mask and a result: what a return of `sig_waitSignal` or `sig_checkSignal` has taken. -/
def SigEvent.taken : SigEvent S → Option (S × UInt8 × UInt8)
  | .posted _ _ => none
  | .waited s sigs result => some (s, sigs, result)
  | .checked s sigs result => some (s, sigs, result)

/-- The event is a return of `sig_waitSignal` or `sig_checkSignal` on `s` whose mask has bit `i`. -/
def SigEvent.Masks (e : SigEvent S) (s : S) (i : ℕ) : Prop :=
  ∃ sigs result, e.taken = some (s, sigs, result) ∧ hasBit sigs i = true

structure Sched (k : Kernel P M) : Prop where
  nodup : k.ready.Nodup
  current : ∀ p, k.current = some p → p ∉ k.ready

/-- The system from a state without signals and without waiting processes. -/
def sigMachine (owner : S → P) (cfg : KernConfig) : Machine (SigSys P M S) (SigAction P S) (SigEvent S) where
  init k := Sched k.kern ∧ (∀ s, k.sig s = ⟨0, 0⟩) ∧ ∀ p, k.waiting p = none
  step k a := k.step owner cfg a

/-- **Runs of the system**: the state reached, and the log, newest event first. -/
abbrev SigRun (owner : S → P) (cfg : KernConfig) : SigSys P M S → List (SigEvent S) → Prop :=
  (sigMachine owner cfg).Run fun _ _ => True

end

end Bertos
