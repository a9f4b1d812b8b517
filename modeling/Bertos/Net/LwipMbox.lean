import Bertos.Lib.NodePool
import Bertos.Mware.Event

/-!
# The mailboxes of the lwIP port (`bertos/net/lwip/src/arch/sys_arch.c`)

`sys_mbox_post`, `sys_mbox_trypost`, `sys_arch_mbox_fetch` and `sys_arch_mbox_tryfetch`, with `msg_get` of `kern/msg.h`
and the generic event of the mailbox. A `PROC_ATOMIC`, the code between `msg_lockPort` and `msg_unlockPort` and the
functions of `kern/signal.c` are one step each; between two steps of a process any other that is not asleep may run.
`mbox->event.Ev.Sig.sig_proc` is read and written outside of them.

`fetcher m` is the only process that fetches from `m`. `SCHED_ENQUEUE_HEAD` of a null pointer makes no process ready
here.
-/

namespace Bertos

def maxMsgCnt : ℕ := 32

/-- An element of `msg_pool`. -/
abbrev MsgNode := Fin maxMsgCnt

/-- `sys_mbox_t`: a `MsgPort` with a generic event. -/
structure LwipMbox (P : Type) where
  queue : List MsgNode
  sigProc : Option P
  sig : Signal

def sysMboxNew {P : Type} : LwipMbox P := ⟨[], none, ⟨0, 0⟩⟩

/-- Where in the code of the mailboxes a process stands. -/
inductive MboxPc (P M D : Type)
  | user
  /-- In `sys_mbox_trypost`, before the first `PROC_ATOMIC`; `again` when it is called by `sys_mbox_post`. -/
  | postAlloc (m : M) (d : D) (again : Bool)
  /-- Before `msg->data = data`. -/
  | postData (m : M) (d : D) (msg : MsgNode)
  /-- Before `ADDTAIL`. -/
  | postPut (m : M) (msg : MsgNode)
  /-- Before the test of `sig_proc`. -/
  | postTest (m : M)
  /-- In `event_hook_generic_signal`, before `sig_proc` is read again. -/
  | postDo (m : M)
  /-- In `event_hook_generic_signal`, before `__sig_signal`. -/
  | postSignal (m : M) (proc : Option P)
  /-- In `sys_arch_mbox_fetch`, before `msg_get`; `timed` when there is a timeout. -/
  | fetchGet (m : M) (timed : Bool)
  /-- `msg_get` has found nothing. -/
  | fetchRegister (m : M) (timed : Bool)
  /-- In `event_wait`, before `sig_proc` is written again. -/
  | eventWait (m : M)
  /-- In `event_wait`, in `sig_waitSignal`. -/
  | sigWait (m : M)
  /-- In `event_waitTimeout`, before `sig_checkSignal`. -/
  | timedCheck (m : M)
  /-- In `event_waitTimeoutSlowPath`, before `sig_proc` is written again. -/
  | timedRegister (m : M)
  /-- In `sig_waitTimeoutSignal`, before `timer_add`. -/
  | timedArm (m : M)
  /-- In `sig_waitTimeoutSignal`, in `sig_waitSignal`. -/
  | timedWait (m : M)
  /-- In `sig_waitTimeoutSignal`, after `sig_waitSignal`. -/
  | timedTaken (m : M) (res : UInt8)
  /-- Before `sig_proc = NULL; return SYS_ARCH_TIMEOUT`. -/
  | timeoutClear (m : M)
  /-- After the loop, before `sig_proc = NULL`. -/
  | fetchClear (m : M) (msg : MsgNode)
  /-- In `sys_arch_mbox_tryfetch`, before `msg_get`. -/
  | tryGet (m : M)
  /-- Before `*data` is written. -/
  | fetchData (m : M) (msg : MsgNode)
  /-- Before `ADDHEAD(&free_msg, …)`. -/
  | fetchFree (msg : MsgNode)

structure MboxSys (P M D : Type) where
  free : List MsgNode
  data : MsgNode → D
  box : M → LwipMbox P
  /-- The timer of `sig_waitTimeoutSignal` on the event of the mailbox is running. -/
  armed : M → Bool
  pc : P → MboxPc P M D
  /-- The process has called `proc_switch`, and has not been made ready. -/
  asleep : P → Bool

inductive MboxAct (P M D : Type)
  /-- `sys_mbox_trypost`, or `sys_mbox_post` (`again`). -/
  | post (p : P) (m : M) (d : D) (again : Bool)
  /-- `sys_arch_mbox_fetch`, with a timeout (`timed`) or without one. -/
  | fetch (m : M) (timed : Bool)
  | tryfetch (m : M)
  /-- The call of `p` goes on. -/
  | advance (p : P)
  /-- The timer on the event of `m` expires. -/
  | timer (m : M)

section
variable {P M D : Type} [DecidableEq P] [DecidableEq M]

namespace MboxSys

def setPc (x : MboxSys P M D) (p : P) (pc : MboxPc P M D) : MboxSys P M D :=
  { x with pc := Function.update x.pc p pc }

def setBox (x : MboxSys P M D) (m : M) (b : LwipMbox P) : MboxSys P M D :=
  { x with box := Function.update x.box m b }

def setSigProc (x : MboxSys P M D) (m : M) (proc : Option P) : MboxSys P M D :=
  x.setBox m { x.box m with sigProc := proc }

def setSig (x : MboxSys P M D) (m : M) (sig : Signal) : MboxSys P M D :=
  x.setBox m { x.box m with sig := sig }

def setAsleep (x : MboxSys P M D) (p : P) (b : Bool) : MboxSys P M D :=
  { x with asleep := Function.update x.asleep p b }

def setArmed (x : MboxSys P M D) (m : M) (b : Bool) : MboxSys P M D :=
  { x with armed := Function.update x.armed m b }

/-- `__sig_signal(&mbox->event.Ev.Sig.sig, proc, sigs, false)`. -/
def sigPostSignal (x : MboxSys P M D) (m : M) (proc : Option P) (sigs : UInt8) : MboxSys P M D :=
  let r := (x.box m).sig.signal sigs
  match r.1, proc with
  | true, some p => (x.setSig m r.2).setAsleep p false
  | _, _ => x.setSig m r.2

/-- The loop of `sig_waitSignal`: the result, or the process goes to sleep at this place. -/
def sigWaitSignal (x : MboxSys P M D) (p : P) (m : M) (sigs : UInt8) (next : UInt8 → MboxPc P M D) : MboxSys P M D :=
  match (x.box m).sig.waitTurn sigs with
  | (some res, sig) => (x.setSig m sig).setPc p (next res)
  | (none, sig) => (x.setSig m sig).setAsleep p true

/-- `sig_waitTimeoutSignal` after `sig_waitSignal`, and what `sys_arch_mbox_fetch` does with the result. -/
def timedTaken (x : MboxSys P M D) (p : P) (m : M) (res : UInt8) : MboxSys P M D :=
  if res &&& sigTimeout ≠ 0 then x.setPc p (.timeoutClear m)
  else
    let c := (x.box m).sig.check sigTimeout
    let x' := x.setSig m c.2
    (if c.1 = 0 then x'.setArmed m false else x').setPc p (.fetchGet m true)

/-- `msg_get`: the queue without its first message. -/
def popQueue (x : MboxSys P M D) (m : M) (r : List MsgNode) : MboxSys P M D :=
  x.setBox m { x.box m with queue := r }

/-- The next step of the process `p`, which is in the middle of a call. -/
def resume (x : MboxSys P M D) (p : P) : Option (MboxSys P M D × List (PoolEvent M D)) :=
  match x.pc p with
  | .user => none
  | .postAlloc m d again =>
    match x.free with
    | [] => some (if again then x else x.setPc p .user, [])
    | msg :: r => some ({ x with free := r }.setPc p (.postData m d msg), [])
  | .postData m d msg => some ({ x with data := Function.update x.data msg d }.setPc p (.postPut m msg), [])
  | .postPut m msg =>
    some ((x.setBox m { x.box m with queue := (x.box m).queue ++ [msg] }).setPc p (.postTest m), [.put m (x.data msg)])
  | .postTest m => some (x.setPc p (if (x.box m).sigProc.isSome then .postDo m else .user), [])
  | .postDo m => some (x.setPc p (.postSignal m (x.box m).sigProc), [])
  | .postSignal m proc => some ((x.sigPostSignal m proc eventGenericSignal).setPc p .user, [])
  | .fetchGet m timed =>
    match (x.box m).queue with
    | [] => some (x.setPc p (.fetchRegister m timed), [])
    | msg :: r => some ((x.popQueue m r).setPc p (.fetchClear m msg), [])
  | .fetchRegister m timed =>
    some ((x.setSigProc m (some p)).setPc p (if timed then .timedCheck m else .eventWait m), [])
  | .eventWait m => some ((x.setSigProc m (some p)).setPc p (.sigWait m), [])
  | .sigWait m => some (x.sigWaitSignal p m eventGenericSignal fun _ => .fetchGet m false, [])
  | .timedCheck m =>
    let c := (x.box m).sig.check eventGenericSignal
    some ((x.setSig m c.2).setPc p (if c.1 = eventGenericSignal then .fetchGet m true else .timedRegister m), [])
  | .timedRegister m => some ((x.setSigProc m (some p)).setPc p (.timedArm m), [])
  | .timedArm m => some ((x.setArmed m true).setPc p (.timedWait m), [])
  | .timedWait m => some (x.sigWaitSignal p m (sigTimeout ||| eventGenericSignal) fun res => .timedTaken m res, [])
  | .timedTaken m res => some (x.timedTaken p m res, [])
  | .timeoutClear m => some ((x.setSigProc m none).setPc p .user, [])
  | .fetchClear m msg => some ((x.setSigProc m none).setPc p (.fetchData m msg), [])
  | .tryGet m =>
    match (x.box m).queue with
    | [] => some (x.setPc p .user, [])
    | msg :: r => some ((x.popQueue m r).setPc p (.fetchData m msg), [])
  | .fetchData m msg => some (x.setPc p (.fetchFree msg), [.got m (x.data msg)])
  | .fetchFree msg => some ({ x with free := msg :: x.free }.setPc p .user, [])

/-- The process is not in the code of a mailbox. -/
def idle (x : MboxSys P M D) (p : P) : Bool :=
  match x.pc p with
  | .user => true
  | _ => false

def step (fetcher : M → P) (x : MboxSys P M D) : MboxAct P M D → Option (MboxSys P M D × List (PoolEvent M D))
  | .post p m d again => if x.idle p then some (x.setPc p (.postAlloc m d again), []) else none
  | .fetch m timed => if x.idle (fetcher m) then some (x.setPc (fetcher m) (.fetchGet m timed), []) else none
  | .tryfetch m => if x.idle (fetcher m) then some (x.setPc (fetcher m) (.tryGet m), []) else none
  | .advance p => if x.asleep p then none else x.resume p
  | .timer m =>
    if x.armed m then some ((x.setArmed m false).sigPostSignal m (x.box m).sigProc sigTimeout, []) else none

end MboxSys

/-- `sys_init`, and all mailboxes created; nothing is known of the data. -/
def mboxMachine (D : Type) (fetcher : M → P) : Machine (MboxSys P M D) (MboxAct P M D) (PoolEvent M D) where
  init := fun x => ∃ data, x =
    ⟨(List.finRange maxMsgCnt).reverse, data, fun _ => sysMboxNew, fun _ => false, fun _ => .user, fun _ => false⟩
  step := MboxSys.step fetcher

/-- **What the event needs**: no poster finds `sig_proc` null while the fetcher is between `msg_get`, which has found
nothing, and its registration; and the fetcher does not clear `sig_proc` while a poster is between its test of it and
the second reading. -/
def MboxUndisturbed (fetcher : M → P) (x : MboxSys P M D) : MboxAct P M D → Prop
  | .advance p => ∀ m,
    (x.pc p = .postTest m → x.pc (fetcher m) = .fetchRegister m false → (x.box m).sigProc ≠ none) ∧
      ((x.pc p = .timeoutClear m ∨ ∃ msg, x.pc p = .fetchClear m msg) → ∀ q, x.pc q ≠ .postDo m)
  | _ => True

end

end Bertos
