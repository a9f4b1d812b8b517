import Bertos.Kern.Proc
import Bertos.Lib.Machine

/-!
# The mutex of the lwIP port (`bertos/net/lwip/src/arch/sys_arch.c`)

`mutex_obtain`, `mutex_attempt` and `mutex_release` over the scheduler of `Bertos.Kern.Proc`. The exchange of `count`
is one step, the code between `proc_forbid` and `proc_permit` another, and an interrupt that ends with a preemption may
fall between any two of them. Otherwise processes block, and are made ready by an interrupt handler. `holders` is not
in the memory of the program: it lists who has obtained a mutex and has not released it.
-/

namespace Bertos

def mutexUnlocked : ℕ := 1

/-- `!MUTEX_UNLOCKED`. -/
def mutexLocked : ℕ := 0

/-- `struct Mutex`. -/
structure LwipMutex (P : Type) where
  waitQueue : List P
  count : ℕ

def mutexInit {P : Type} : LwipMutex P := ⟨[], 1⟩

/-- Where in the code of the mutexes a process stands. -/
inductive MutexPc (P M : Type)
  | user
  /-- In `mutex_slowpath_obtain`, before `proc_forbid`. -/
  | slow (m : M)
  /-- In `mutex_slowpath_obtain`, before `ADDTAIL`. -/
  | slowAdd (m : M)
  /-- In `mutex_slowpath_obtain`, before `proc_permit`. -/
  | slowPermit (m : M)
  /-- In `mutex_slowpath_obtain`, before `proc_switch`. -/
  | slowSwitch (m : M)
  /-- In `mutex_slowpath_obtain`, inside `proc_switch`. -/
  | asleep (m : M)
  /-- In `mutex_release`, after `proc_forbid`. -/
  | releaseRem (m : M)
  /-- In `mutex_release`, before `proc_permit`. -/
  | releasePermit (m : M) (proc : Option P)
  /-- In `mutex_release`, before `proc_wakeup`. -/
  | releaseWakeup (m : M) (proc : Option P)
  deriving DecidableEq

/-- The mutex that the process is about to wait for, or waits for. -/
def MutexPc.wants {P M : Type} : MutexPc P M → Option M
  | .slow m | .slowAdd m | .slowPermit m | .slowSwitch m | .asleep m => some m
  | _ => none

structure MutexSys (P S M : Type) where
  kern : Kernel P S
  pc : P → MutexPc P M
  mutex : M → LwipMutex P
  holders : M → List P

inductive MutexCall (M : Type)
  | obtain (m : M)
  | attempt (m : M)
  | release (m : M)

inductive MutexAct (P M : Type)
  /-- The current process makes a call. -/
  | call (c : MutexCall M)
  /-- The call of the current process goes on, or the polling loop of the scheduler. -/
  | advance
  /-- The current process waits for something else. -/
  | block
  /-- An interrupt handler makes a process ready that waits for something else. -/
  | arrive (q : P)
  | tick
  /-- An interrupt ends with `proc_needPreempt` and `proc_preempt`. -/
  | preempt

section
variable {P S M : Type} [DecidableEq P] [DecidableEq M]

namespace MutexSys

def setPc (x : MutexSys P S M) (p : P) (pc : MutexPc P M) : MutexSys P S M :=
  { x with pc := Function.update x.pc p pc }

def setMutex (x : MutexSys P S M) (m : M) (b : LwipMutex P) : MutexSys P S M :=
  { x with mutex := Function.update x.mutex m b }

def setHolders (x : MutexSys P S M) (m : M) (ps : List P) : MutexSys P S M :=
  { x with holders := Function.update x.holders m ps }

/-- `cpu_atomic_xchg(&s->count, MUTEX_LOCKED)`: the mutex afterwards, and whether the value was `MUTEX_UNLOCKED`. -/
def xchg (x : MutexSys P S M) (m : M) : MutexSys P S M × Bool :=
  (x.setMutex m { x.mutex m with count := mutexLocked }, (x.mutex m).count = mutexUnlocked)

/-- `mutex_obtain` up to `mutex_slowpath_obtain`. -/
def mutexObtain (x : MutexSys P S M) (p : P) (m : M) : MutexSys P S M :=
  let r := x.xchg m
  if r.2 then r.1.setHolders m (p :: x.holders m) else r.1.setPc p (.slow m)

def mutexAttempt (x : MutexSys P S M) (p : P) (m : M) : MutexSys P S M :=
  let r := x.xchg m
  if r.2 then r.1.setHolders m (p :: x.holders m) else r.1

/-- `mutex_release` between `proc_forbid` and `proc_permit`. -/
def mutexRelease (x : MutexSys P S M) (p : P) (m : M) : MutexSys P S M :=
  let x' := x.setHolders m ((x.holders m).erase p)
  match (x.mutex m).waitQueue with
  | [] => (x'.setMutex m ⟨[], 1⟩).setPc p (.releasePermit m none)
  | q :: r => (x'.setMutex m { x.mutex m with waitQueue := r }).setPc p (.releasePermit m (some q))

/-- The first step of a call made by the process `p`. -/
def call (cfg : KernConfig) (x : MutexSys P S M) (p : P) : MutexCall M → MutexSys P S M
  | .obtain m => x.mutexObtain p m
  | .attempt m => x.mutexAttempt p m
  | .release m => { x with kern := x.kern.procForbid cfg }.setPc p (.releaseRem m)

/-- The next step of the process `p`, which is in the middle of a call. -/
def resume (cfg : KernConfig) (x : MutexSys P S M) (p : P) : Option (MutexSys P S M) :=
  match x.pc p with
  | .user => none
  | .slow m => some ({ x with kern := x.kern.procForbid cfg }.setPc p (.slowAdd m))
  | .slowAdd m =>
    some ((x.setMutex m { x.mutex m with waitQueue := (x.mutex m).waitQueue ++ [p] }).setPc p (.slowPermit m))
  | .slowPermit m => some ({ x with kern := x.kern.procPermit cfg }.setPc p (.slowSwitch m))
  | .slowSwitch m => some ({ x with kern := x.kern.procSwitch cfg }.setPc p (.asleep m))
  | .asleep m => some ((x.setHolders m (p :: x.holders m)).setPc p .user)
  | .releaseRem m => some (x.mutexRelease p m)
  | .releasePermit m q => some ({ x with kern := x.kern.procPermit cfg }.setPc p (.releaseWakeup m q))
  | .releaseWakeup _ none => some (x.setPc p .user)
  | .releaseWakeup _ (some q) => some ({ x with kern := x.kern.procWakeup cfg p q }.setPc p .user)

/-- Interrupts are enabled: a process that comes out of `proc_switch` first restores them. -/
def irqEnabled (x : MutexSys P S M) : Bool :=
  match x.kern.cpu, x.kern.current with
  | .running, some p =>
    match x.pc p with
    | .asleep _ => false
    | _ => true
  | _, _ => true

/-- A process that is neither running, nor ready, nor in the code of a mutex. -/
def Away (x : MutexSys P S M) (q : P) : Prop :=
  x.kern.current ≠ some q ∧ q ∉ x.kern.ready ∧ x.pc q = .user

instance (x : MutexSys P S M) (q : P) : Decidable (x.Away q) := inferInstanceAs (Decidable (_ ∧ _ ∧ _))

def step (cfg : KernConfig) (x : MutexSys P S M) : MutexAct P M → Option (MutexSys P S M × List Unit)
  | .call c =>
    match x.kern.cpu, x.kern.current with
    | .running, some p => if x.pc p = .user then some (x.call cfg p c, []) else none
    | _, _ => none
  | .advance =>
    match x.kern.cpu, x.kern.current with
    | .running, some p => (x.resume cfg p).map (·, [])
    | .idle, none => if x.kern.ready = [] then none else some ({ x with kern := x.kern.procSchedule }, [])
    | _, _ => none
  | .block =>
    match x.kern.cpu, x.kern.current with
    | .running, some p => if x.pc p = .user then some ({ x with kern := x.kern.procSwitch cfg }, []) else none
    | _, _ => none
  | .arrive q =>
    if x.irqEnabled ∧ x.Away q then some ({ x with kern := x.kern.schedEnqueueHead q }, []) else none
  | .tick => if x.irqEnabled then some ({ x with kern := { x.kern with quantum := x.kern.quantum - 1 } }, []) else none
  | .preempt =>
    match x.kern.current with
    | some p =>
      if cfg.preempt ∧ x.irqEnabled ∧ x.kern.procNeedPreempt cfg then
        some ({ x with kern := x.kern.procPreempt cfg p }, [])
      else none
    | none => none

/-- A running process, any others ready, and all mutexes initialised. -/
structure Initial (x : MutexSys P S M) : Prop where
  running : x.kern.cpu = .running
  nodup : x.kern.ready.Nodup
  current : ∀ p, x.kern.current = some p → p ∉ x.kern.ready
  preemptCount : x.kern.preemptCount = 0
  pc : ∀ p, x.pc p = .user
  mutex : ∀ m, x.mutex m = mutexInit
  holders : ∀ m, x.holders m = []

end MutexSys

def mutexMachine (P S M : Type) [DecidableEq P] [DecidableEq M] (cfg : KernConfig) :
    Machine (MutexSys P S M) (MutexAct P M) Unit where
  init := MutexSys.Initial
  step := MutexSys.step cfg

/-- A mutex is released by a process that holds it. -/
def MutexOwned (x : MutexSys P S M) : MutexAct P M → Prop
  | .call (.release m) => x.kern.current.any (· ∈ x.holders m) = true
  | _ => True

instance (x : MutexSys P S M) : (a : MutexAct P M) → Decidable (MutexOwned x a)
  | .call (.release m) => inferInstanceAs (Decidable (x.kern.current.any (· ∈ x.holders m) = true))
  | .call (.obtain _) | .call (.attempt _) | .advance | .block | .arrive _ | .tick | .preempt => .isTrue trivial

/-- **What `mutex_slowpath_obtain` needs**: no mutex is unlocked while a process is between the exchange that has failed
and `proc_forbid`, and no process is preempted between `proc_permit` and `proc_switch`. -/
def MutexUndisturbed (x : MutexSys P S M) : MutexAct P M → Prop
  | .advance => ∀ p m, x.kern.current = some p → x.pc p = .releaseRem m → (x.mutex m).waitQueue = [] →
      ∀ q, x.pc q ≠ .slow m
  | .preempt => ∀ p m, x.kern.current = some p → x.pc p ≠ .slowSwitch m
  | _ => True

end

end Bertos
