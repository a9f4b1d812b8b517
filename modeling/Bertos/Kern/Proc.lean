import Mathlib.Data.List.Sort
import Mathlib.Logic.Function.Basic

/-!
# The kernel's process lists and the scheduler

The state of the BeRTOS kernel (`kern/proc.c`, `kern/proc_p.h`): the current process, the ready list, the exited
processes whose memory is still to be freed, the preemption counter and the time slice, the control blocks and the
semaphores. `LIST_ENQUEUE` and `LIST_ENQUEUE_HEAD` are the two ordered insertions of `struct/list.h`.

The control block carries the place in its kernel code where a process stands (`Pc`): a kernel call is a few steps, and
an interrupt falls between two of them wherever interrupts are enabled. The kernel without `CONFIG_KERN_PRI` is the one
in which all priorities are equal.
-/

namespace Bertos

/-- The kernel's configuration: `CONFIG_KERN_PREEMPT` and `CONFIG_KERN_QUANTUM`. -/
structure KernConfig where
  preempt : Bool
  quantum : ℕ

/-- Where in its kernel code a process stands. -/
inductive Pc (P S : Type)
  /-- In the application's code. -/
  | user
  /-- In `sem_obtain`, after `proc_forbid`. -/
  | obtainVerify (s : S)
  /-- In `sem_obtain`, in the wait queue, before `proc_permit`. -/
  | obtainQueued (s : S)
  /-- In `sem_obtain`, in the wait queue, between `proc_permit` and `proc_switch`. -/
  | obtainSwitch (s : S)
  /-- In `sem_obtain`, inside `proc_switch`. -/
  | obtainAsleep (s : S)
  /-- In `sem_obtain`, the semaphore locked, before `proc_permit`. -/
  | obtainLocked (s : S)
  /-- In `sem_attempt`, after `proc_forbid`. -/
  | attemptVerify (s : S)
  /-- In `sem_attempt`, the result known, before `proc_permit`. -/
  | attemptDone (s : S) (result : Bool)
  /-- In `sem_release`, after `proc_forbid`. -/
  | releaseVerify (s : S)
  /-- In `sem_release`, the next owner taken from the queue, before `proc_permit`. -/
  | releaseDone (s : S) (proc : Option P)
  /-- In `sem_release`, between `proc_permit` and `proc_wakeup`. -/
  | releaseWakeup (s : S) (proc : Option P)
  /-- In `sig_waitSignal`, inside `proc_switch`. -/
  | sigAsleep (sigs : UInt8)
  /-- In `proc_exit`, after `proc_forbid`. -/
  | exitForbidden
  /-- In `proc_setPri`, the priority written, before `sched_reenqueue`. -/
  | setPriEnqueue (proc : P)
  deriving DecidableEq

/-- The control block: `link.pri`, `sig.recv`, `sig.wait`. -/
structure Process (P S : Type) where
  pri : ℤ
  recv : UInt8
  wait : UInt8
  pc : Pc P S

/-- `Semaphore` (`kern/sem.h`). -/
structure Semaphore (P : Type) where
  owner : Option P
  waitQueue : List P
  nestCount : ℤ

/-- Which code the CPU executes when it is not an interrupt handler. -/
inductive Cpu
  /-- The code of the current process. -/
  | running
  /-- `proc_exit` after `current_process = NULL`, before `proc_permit`. -/
  | exitPermit
  /-- `proc_exit` between `proc_permit` and `proc_switch`. -/
  | exitSwitch
  /-- The polling loop of `proc_schedule`, with interrupts enabled. -/
  | idle
  deriving DecidableEq

/-- The kernel's state: processes are named by `P`, semaphores by `S`. -/
structure Kernel (P S : Type) where
  current : Option P
  ready : List P
  zombies : List P
  preemptCount : ℕ
  quantum : ℕ
  cpu : Cpu
  proc : P → Process P S
  sem : S → Semaphore P

/-- What a run does that its later states do not show. -/
inductive KernEvent (P S : Type)
  | created (p : P)
  | exited (p : P)
  | freed (p : P)
  /-- `p` was appended to the wait queue of `s`. -/
  | blocked (p : P) (s : S)
  /-- `p` locked `s` itself. -/
  | obtained (p : P) (s : S)
  /-- `p` was given `s` by `sem_release`, with this nesting count. -/
  | granted (p : P) (s : S) (nestCount : ℤ)
  /-- `sem_obtain` returned to `p`, or `sem_attempt` returned `true`. -/
  | returned (p : P) (s : S)
  | released (p : P) (s : S)
  deriving DecidableEq

section
variable {P S : Type} [DecidableEq P] [DecidableEq S]

/-! ## Updates of one field -/

namespace Kernel

/-- The control block of `p` replaced. -/
def setProc (k : Kernel P S) (p : P) (b : Process P S) : Kernel P S :=
  { k with proc := Function.update k.proc p b }

/-- `p` stands at `pc`. -/
def setPc (k : Kernel P S) (p : P) (pc : Pc P S) : Kernel P S :=
  k.setProc p { k.proc p with pc := pc }

/-- The semaphore `s` replaced. -/
def setSem (k : Kernel P S) (s : S) (b : Semaphore P) : Kernel P S :=
  { k with sem := Function.update k.sem s b }

/-! ## `kern/proc.h` and `kern/proc_p.h` -/

/-- `proc_forbid`, empty in the cooperative kernel. -/
def procForbid (cfg : KernConfig) (k : Kernel P S) : Kernel P S :=
  if cfg.preempt then { k with preemptCount := k.preemptCount + 1 } else k

/-- `proc_permit`, empty in the cooperative kernel. -/
def procPermit (cfg : KernConfig) (k : Kernel P S) : Kernel P S :=
  if cfg.preempt then { k with preemptCount := k.preemptCount - 1 } else k

def procPreemptAllowed (cfg : KernConfig) (k : Kernel P S) : Bool :=
  if cfg.preempt then k.preemptCount = 0 else true

def preemptResetQuantum (cfg : KernConfig) (k : Kernel P S) : Kernel P S :=
  if cfg.preempt then { k with quantum := cfg.quantum } else k

def prioProc (k : Kernel P S) (p : P) : ℤ :=
  (k.proc p).pri

/-- `SCHED_ENQUEUE`: before the first process of a lower priority. -/
def schedEnqueue (k : Kernel P S) (p : P) : Kernel P S :=
  { k with ready := k.ready.orderedInsert (fun a b => k.prioProc b < k.prioProc a) p }

/-- `SCHED_ENQUEUE_HEAD`: before the first process of a lower or the same priority. -/
def schedEnqueueHead (k : Kernel P S) (p : P) : Kernel P S :=
  { k with ready := k.ready.orderedInsert (fun a b => k.prioProc b ≤ k.prioProc a) p }

/-- `sched_reenqueue`: a process that is not in the ready list is left alone. -/
def schedReenqueue (k : Kernel P S) (p : P) : Kernel P S :=
  if p ∈ k.ready then { k with ready := k.ready.erase p }.schedEnqueue p else k

/-! ## `kern/proc.c` -/

/-- `proc_schedule`: the first ready process, or the polling loop when there is none. -/
def procSchedule (k : Kernel P S) : Kernel P S :=
  match k.ready with
  | [] => { k with current := none, cpu := .idle }
  | p :: r => { k with current := some p, ready := r, cpu := .running }

def procSwitch (cfg : KernConfig) (k : Kernel P S) : Kernel P S :=
  (k.preemptResetQuantum cfg).procSchedule

/-- `proc_switchTo`, called by the process `p`. -/
def procSwitchTo (cfg : KernConfig) (k : Kernel P S) (p q : P) : Kernel P S :=
  { (k.schedEnqueue p).preemptResetQuantum cfg with current := some q }

/-- `proc_wakeup`, called by the process `p`. -/
def procWakeup (cfg : KernConfig) (k : Kernel P S) (p q : P) : Kernel P S :=
  if k.prioProc p ≤ k.prioProc q then k.procSwitchTo cfg p q else k.schedEnqueueHead q

/-- `proc_yield`, called by the process `p`. -/
def procYield (cfg : KernConfig) (k : Kernel P S) (p : P) : Kernel P S :=
  match k.ready with
  | [] => k
  | q :: r => { k with ready := r }.procSwitchTo cfg p q

def procNeedPreempt (cfg : KernConfig) (k : Kernel P S) : Bool :=
  match k.current, k.ready with
  | some p, q :: _ => k.procPreemptAllowed cfg &&
      (if k.quantum ≠ 0 then k.prioProc p < k.prioProc q else k.prioProc p ≤ k.prioProc q)
  | _, _ => false

/-- `proc_preempt` of the process `p`. -/
def procPreempt (cfg : KernConfig) (k : Kernel P S) (p : P) : Kernel P S :=
  ((k.schedEnqueue p).preemptResetQuantum cfg).procSchedule

def procFreeZombies (k : Kernel P S) : Kernel P S × List (KernEvent P S) :=
  ({ k with zombies := [] }, k.zombies.map .freed)

/-- `proc_new`: the memory of the exited processes is freed first. The new process is `q`, or there is no memory for
its stack. -/
def procNew (k : Kernel P S) (q : Option P) : Kernel P S × List (KernEvent P S) :=
  match q with
  | none => k.procFreeZombies
  | some q =>
    (({ k with zombies := [] }.setProc q { pri := 0, recv := 0, wait := 0, pc := .user }).schedEnqueue q,
      k.zombies.map .freed ++ [.created q])

/-- `proc_init`, the semaphores initialised: `m` is the main process. -/
def boot (m : P) : Kernel P S where
  current := some m
  ready := []
  zombies := []
  preemptCount := 0
  quantum := 0
  cpu := .running
  proc := fun _ => { pri := 0, recv := 0, wait := 0, pc := .user }
  sem := fun _ => { owner := none, waitQueue := [], nestCount := 0 }

/-! ## What the scheduler leaves alone -/

section
variable (cfg : KernConfig) (k : Kernel P S) (p q : P)

section
omit [DecidableEq P] [DecidableEq S]

@[simp] theorem procForbid_proc : (k.procForbid cfg).proc = k.proc := by
  unfold procForbid; split <;> rfl

@[simp] theorem procForbid_sem : (k.procForbid cfg).sem = k.sem := by
  unfold procForbid; split <;> rfl

@[simp] theorem procPermit_proc : (k.procPermit cfg).proc = k.proc := by
  unfold procPermit; split <;> rfl

@[simp] theorem procPermit_sem : (k.procPermit cfg).sem = k.sem := by
  unfold procPermit; split <;> rfl

@[simp] theorem preemptResetQuantum_proc : (k.preemptResetQuantum cfg).proc = k.proc := by
  unfold preemptResetQuantum; split <;> rfl

@[simp] theorem preemptResetQuantum_sem : (k.preemptResetQuantum cfg).sem = k.sem := by
  unfold preemptResetQuantum; split <;> rfl

@[simp] theorem procSchedule_proc : k.procSchedule.proc = k.proc := by
  unfold procSchedule; split <;> rfl

@[simp] theorem procSchedule_sem : k.procSchedule.sem = k.sem := by
  unfold procSchedule; split <;> rfl

@[simp] theorem procSwitch_proc : (k.procSwitch cfg).proc = k.proc := by
  simp [procSwitch]

@[simp] theorem procSwitch_sem : (k.procSwitch cfg).sem = k.sem := by
  simp [procSwitch]

@[simp] theorem procSwitchTo_proc : (k.procSwitchTo cfg p q).proc = k.proc := by
  simp [procSwitchTo, schedEnqueue]

@[simp] theorem procSwitchTo_sem : (k.procSwitchTo cfg p q).sem = k.sem := by
  simp [procSwitchTo, schedEnqueue]

@[simp] theorem procWakeup_proc : (k.procWakeup cfg p q).proc = k.proc := by
  unfold procWakeup; split <;> simp [schedEnqueueHead]

@[simp] theorem procWakeup_sem : (k.procWakeup cfg p q).sem = k.sem := by
  unfold procWakeup; split <;> simp [schedEnqueueHead]

@[simp] theorem procYield_proc : (k.procYield cfg p).proc = k.proc := by
  unfold procYield; split <;> simp

@[simp] theorem procYield_sem : (k.procYield cfg p).sem = k.sem := by
  unfold procYield; split <;> simp

@[simp] theorem procPreempt_proc : (k.procPreempt cfg p).proc = k.proc := by
  simp [procPreempt, schedEnqueue]

@[simp] theorem procPreempt_sem : (k.procPreempt cfg p).sem = k.sem := by
  simp [procPreempt, schedEnqueue]

end

omit [DecidableEq P] in
@[simp] theorem setSem_proc (s : S) (b : Semaphore P) : (k.setSem s b).proc = k.proc := rfl

attribute [grind =] Function.update_apply

section
omit [DecidableEq S]

@[simp] theorem schedReenqueue_proc : (k.schedReenqueue q).proc = k.proc := by
  unfold schedReenqueue; split <;> rfl

@[simp] theorem schedReenqueue_sem : (k.schedReenqueue q).sem = k.sem := by
  unfold schedReenqueue; split <;> rfl

@[simp] theorem setProc_sem (b : Process P S) : (k.setProc p b).sem = k.sem := rfl

@[simp] theorem setPc_sem (pc : Pc P S) : (k.setPc p pc).sem = k.sem := rfl

theorem setProc_proc (b : Process P S) (y : P) : (k.setProc p b).proc y = if y = p then b else k.proc y :=
  Function.update_apply _ _ _ _

theorem setPc_pc (pc : Pc P S) (y : P) : ((k.setPc p pc).proc y).pc = if y = p then pc else (k.proc y).pc := by
  unfold setPc
  rw [setProc_proc]
  split <;> rfl

end

end

end Kernel

end

end Bertos
