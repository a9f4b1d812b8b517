import Bertos.Kern.SignalInv

/-!
# Message ports

`msg_put` and `msg_get` (`kern/msg.h`) on a port whose event signals its receiver (`event_hook_signal`), on top of the
kernel with signals (`SigSys`). Any process may be in `msg_put`; the receiver runs the loop

    for (;;) { sig_wait(sig); while (msg_get(port)) ... }

and does what it likes between two calls of `msg_get`, as long as it does not go to sleep there or take the port's
signal away. The queue is protected by `proc_forbid` alone: `ADDTAIL` and `list_remHead` are two steps each, the
reading of the list and its change, and everything else of the kernel may come in between. The main result is
`msgPort_delivers`.
-/

namespace Bertos

open Function SigSys Option

/-- A process in `msg_put`. -/
inductive SendPc (Msg : Type)
  /-- Not in `msg_put`. -/
  | idle
  /-- After `msg_lockPort`. -/
  | locked (m : Msg)
  /-- In `ADDTAIL`, the list read. -/
  | adding (m : Msg) (queue : List Msg)
  /-- After `ADDTAIL`. -/
  | added
  /-- Between `msg_unlockPort` and `event_do`. -/
  | unlocked

inductive RecvPc (Msg : Type)
  /-- At `sig_wait`, or in it. -/
  | head
  /-- Before `msg_get`. -/
  | drain
  /-- In `msg_get`, after `msg_lockPort`. -/
  | locked
  /-- In `list_remHead`, the list read. -/
  | removing (queue : List Msg)
  /-- After `list_remHead`. -/
  | removed (m : Option Msg)

/-- The process is not in `msg_put`. -/
def SendPc.isIdle {Msg : Type} : SendPc Msg → Bool
  | .idle => true
  | _ => false

def SendPc.locks {Msg : Type} : SendPc Msg → Bool
  | .locked _ | .adding _ _ | .added => true
  | _ => false

/-- The process is between its `ADDTAIL` and its `event_do`. -/
def SendPc.between {Msg : Type} : SendPc Msg → Bool
  | .added | .unlocked => true
  | _ => false

theorem SendPc.locks_of_isIdle {Msg : Type} {pc : SendPc Msg} (h : pc.isIdle = true) : pc.locks = false := by
  cases pc with
  | idle => rfl
  | _ => cases h

/-- The receiver is about to call `msg_get`. -/
def RecvPc.isDrain {Msg : Type} : RecvPc Msg → Bool
  | .drain => true
  | _ => false

theorem RecvPc.eq_drain {Msg : Type} {pc : RecvPc Msg} (h : pc.isDrain = true) : pc = .drain := by
  cases pc with
  | drain => rfl
  | _ => cases h

def RecvPc.locks {Msg : Type} : RecvPc Msg → Bool
  | .locked | .removing _ | .removed _ => true
  | _ => false

/-- The kernel, the queue of the port, and where each process is. -/
structure MsgSys (P M S Msg : Type) where
  sys : SigSys P M S
  queue : List Msg
  send : P → SendPc Msg
  recv : RecvPc Msg

inductive MsgEvent (Msg : Type)
  /-- `msg_put` has queued a message. -/
  | queued (m : Msg)
  /-- `msg_get` has taken a message. -/
  | got (m : Msg)

inductive MsgAction (P S Msg : Type)
  /-- A step of the kernel or of the application. -/
  | kern (a : SigAction P S)
  /-- The current process calls `msg_put`. -/
  | put (m : Msg)
  /-- The current process goes on in `msg_put`. -/
  | send
  /-- The receiver goes on in its loop. -/
  | recv

section
variable {P M S Msg : Type} [DecidableEq P] [DecidableEq S]

/-- The step is one of the current process's own code. -/
def SigAction.ofCurrent : SigAction P S → Bool
  | .resume | .irqPost _ _ | .dispatch | .tick | .preempt => false
  | _ => true

/-- The step neither puts its process to sleep nor takes these signals. -/
def SigAction.spares (port : S) (bit : UInt8) : SigAction P S → Bool
  | .wait _ _ | .leave => false
  | .check s sigs => s ≠ port ∨ sigs &&& bit = 0
  | _ => true

/-- `sig_wait` of this signal has returned. -/
def SigEvent.isWait (port : S) (bit : UInt8) : SigEvent S → Bool
  | .waited s sigs _ => s = port ∧ sigs = bit
  | _ => false

namespace MsgSys

variable (owner : S → P) (cfg : KernConfig) (r : P) (port : S) (bit : UInt8)

/-- `p` runs the application's code: the receiver does between two calls of `msg_get`. -/
def free (s : MsgSys P M S Msg) (p : P) : Bool :=
  (s.send p).isIdle && (p ≠ r || s.recv.isDrain)

/-- The current process may take this step: one of the application's is taken outside of `msg_put` and
`msg_get` only. -/
def allows (s : MsgSys P M S Msg) (a : SigAction P S) : Bool :=
  match s.sys.kern.current with
  | some p => !a.ofCurrent || s.free r p && (p ≠ r || a.spares port bit)
  | none => true

def recvAfter (s : MsgSys P M S Msg) (e : List (SigEvent S)) : RecvPc Msg :=
  if e.any (SigEvent.isWait port bit) then .drain else s.recv

/-- A step of the kernel, with `f` for the rest of the state. -/
def kernStep (s : MsgSys P M S Msg) (a : SigAction P S) (f : MsgSys P M S Msg → MsgSys P M S Msg) :
    Option (MsgSys P M S Msg × List (MsgEvent Msg)) :=
  (s.sys.step owner cfg a).map fun x => (f { s with sys := x.1, recv := s.recvAfter port bit x.2 }, [])

/-- `msg_put` by the process `p`, after `msg_lockPort`. -/
def sendStep (s : MsgSys P M S Msg) (p : P) : Option (MsgSys P M S Msg × List (MsgEvent Msg)) :=
  match s.send p with
  | .idle => none
  | .locked m => some ({ s with send := Function.update s.send p (.adding m s.queue) }, [])
  | .adding m queue =>
    some ({ s with queue := queue ++ [m], send := Function.update s.send p .added }, [.queued m])
  | .added => s.kernStep owner cfg port bit .permit fun s' => { s' with send := Function.update s.send p .unlocked }
  | .unlocked =>
    s.kernStep owner cfg port bit (.post port bit) fun s' => { s' with send := Function.update s.send p .idle }

def recvStep (s : MsgSys P M S Msg) : Option (MsgSys P M S Msg × List (MsgEvent Msg)) :=
  match s.recv with
  | .head => s.kernStep owner cfg port bit (.wait port bit) id
  | .drain => s.kernStep owner cfg port bit .forbid fun s' => { s' with recv := .locked }
  | .locked => some ({ s with recv := .removing s.queue }, [])
  | .removing queue =>
    some ({ s with queue := queue.tail, recv := .removed queue.head? }, queue.head?.toList.map .got)
  | .removed m =>
    s.kernStep owner cfg port bit .permit fun s' => { s' with recv := if m.isSome then .drain else .head }

def step (s : MsgSys P M S Msg) : MsgAction P S Msg → Option (MsgSys P M S Msg × List (MsgEvent Msg))
  | .kern a => if s.allows r port bit a then s.kernStep owner cfg port bit a id else none
  | .put m =>
    s.sys.active.bind fun p =>
      if s.free r p then
        s.kernStep owner cfg port bit .forbid fun s' => { s' with send := Function.update s.send p (.locked m) }
      else none
  | .send => s.sys.active.bind fun p => s.sendStep owner cfg port bit p
  | .recv =>
    s.sys.active.bind fun p => if p = r ∧ (s.send r).isIdle = true then s.recvStep owner cfg port bit else none

end MsgSys

/-- The port is empty, and the receiver is about to run its loop. -/
def msgMachine (owner : S → P) (cfg : KernConfig) (r : P) (port : S) (bit : UInt8) :
    Machine (MsgSys P M S Msg) (MsgAction P S Msg) (MsgEvent Msg) where
  init s := (sigMachine owner cfg).init s.sys ∧ SigSys.Up s.sys.kern r ∧ s.queue = [] ∧ s.recv = .head ∧
    ∀ p, s.send p = .idle
  step s a := s.step owner cfg r port bit a

def msgQueued : List (MsgEvent Msg) → List Msg
  | [] => []
  | .queued m :: log => msgQueued log ++ [m]
  | .got _ :: log => msgQueued log

def msgGot : List (MsgEvent Msg) → List Msg
  | [] => []
  | .queued _ :: log => msgGot log
  | .got m :: log => msgGot log ++ [m]

open SigSys (Up)

/-! ## What a step of the kernel does -/

/-- **The effect of a step of the kernel** on the waits and on who is ready or runs. -/
inductive SigEffect (owner : S → P) (a : SigAction P S) (k k' : SigSys P M S) : List (SigEvent S) → Prop
  | lists (hw : k'.waiting = k.waiting)
      (hup : ∀ x, Up k.kern x → Up k'.kern x ∨ a = .leave ∧ k.kern.current = some x) : SigEffect owner a k k' []
  | posted (s : S) (sigs : UInt8) (hw : k'.waiting = k.waiting) (hup : ∀ x, Up k.kern x → Up k'.kern x) :
      SigEffect owner a k k' [.posted s sigs]
  | waited (s : S) (sigs result : UInt8) (hc : k.kern.current = some (owner s))
      (ha : a = .wait s sigs ∨ k.waiting (owner s) = some (s, sigs))
      (hw : k'.waiting = Function.update k.waiting (owner s) none) (hk : k'.kern = k.kern) :
      SigEffect owner a k k' [.waited s sigs result]
  | slept (s : S) (sigs : UInt8) (hc : k.kern.current = some (owner s))
      (ha : a = .wait s sigs ∨ k.waiting (owner s) = some (s, sigs))
      (hw : k'.waiting = Function.update k.waiting (owner s) (some (s, sigs)))
      (hup : ∀ x, x ≠ owner s → Up k.kern x → Up k'.kern x) : SigEffect owner a k k' []
  | checked (s : S) (sigs result : UInt8) (ha : a = .check s sigs) (hc : k.kern.current = some (owner s))
      (hw : k'.waiting = k.waiting) (hk : k'.kern = k.kern) : SigEffect owner a k k' [.checked s sigs result]

namespace SigInv

variable {owner : S → P} {cfg : KernConfig} {k k' : SigSys P M S} {a : SigAction P S} {e : List (SigEvent S)}

theorem wait_effect (h : SigInv owner k) {s : S} {sigs : UInt8} (hc : k.kern.current = some (owner s))
    (ha : a = .wait s sigs ∨ k.waiting (owner s) = some (s, sigs)) :
    SigEffect owner a k (k.sigWaitSignal cfg (owner s) s sigs).1 (k.sigWaitSignal cfg (owner s) s sigs).2 := by
  unfold sigWaitSignal
  split
  · exact .waited s sigs _ hc ha rfl rfl
  · refine .slept s sigs hc ha rfl fun x hx hup => ?_
    obtain ⟨-, hup'⟩ : Sched (k.kern.procSwitch cfg) ∧ _ := h.sched.switch
    refine (hup' x).mpr (hup.resolve_right fun hxc => hx ?_)
    exact (some.inj (hc.symm.trans hxc)).symm

theorem signal_effect (h : SigInv owner k) (s : S) (sigs : UInt8) {wakeup : Option P}
    (hc : ∀ p, wakeup = some p → k.kern.current = some p) :
    SigEffect owner a k (k.sigSignal owner cfg s sigs wakeup).1 (k.sigSignal owner cfg s sigs wakeup).2 := by
  unfold sigSignal Signal.signal
  by_cases hw : ((k.sig s).recv ||| sigs) &&& (k.sig s).wait ≠ 0
  · obtain ⟨sigs', -, ha⟩ := h.asleep_of_signal hw
    rw [if_pos hw]
    cases wakeup with
    | none =>
      obtain ⟨-, hup⟩ := h.sched.enqueueHead ha.up
      exact .posted s sigs rfl fun x hx => (hup x).mpr (.inr hx)
    | some p =>
      obtain ⟨-, hup⟩ := h.sched.wakeup (hc p rfl) ha.up
      exact .posted s sigs rfl fun x hx => (hup x).mpr (.inr hx)
  · rw [if_neg hw]
    exact .posted s sigs rfl fun _ => id

/-- **Every step of the kernel has one of these effects.** -/
theorem step_effect (h : SigInv owner k) (hs : k.step owner cfg a = some (k', e)) : SigEffect owner a k k' e := by
  suffices hx : ∀ x, SigStep owner cfg k a x → SigEffect owner a k x.1 x.2 from hx _ (h.step_cases hs)
  rintro _ (⟨s, sigs, hc, ha⟩ | ⟨s, sigs, ha, hc, -⟩ | ⟨s, sigs, wakeup, hc⟩ | ⟨kern, -, -, hkeep⟩)
  · exact h.wait_effect hc (ha.imp_left And.left)
  · exact .checked s sigs _ ha hc rfl rfl
  · exact h.signal_effect s sigs hc
  · exact .lists rfl hkeep

end SigInv

variable {e : List (SigEvent S)} {k k' : SigSys P M S}

section
variable {owner : S → P} {cfg : KernConfig}

/-- A process that has forbidden preemption stays on the CPU, whatever interrupts do. -/
theorem SigSys.step_forbidden {a : SigAction P S} {p : P}
    (hs : k.step owner cfg a = some (k', e)) (ha : a.ofCurrent = false) (hc : k.kern.current = some p)
    (hw : k.waiting p = none) (hf : cfg.preempt = true → k.kern.preemptCount ≠ 0) :
    k'.kern.current = some p ∧ k'.waiting p = none ∧ (cfg.preempt = true → k'.kern.preemptCount ≠ 0) := by
  cases a with
  | resume =>
    obtain ⟨q, hq, hs⟩ := bind_eq_some_iff.mp hs
    obtain rfl : p = q := some.inj (hc.symm.trans hq)
    rw [hw] at hs
    cases hs
  | irqPost s sigs =>
    simp only [step] at hs
    split at hs
    · unfold sigSignal at hs
      split at hs
      · cases hs
        exact ⟨hc, hw, hf⟩
      · cases hs
        exact ⟨hc, hw, hf⟩
    · cases hs
  | dispatch =>
    simp only [step] at hs
    split at hs
    · next hd =>
      rw [hc] at hd
      cases hd.1
    · cases hs
  | tick =>
    simp only [step] at hs
    split at hs
    · cases hs
      exact ⟨hc, hw, hf⟩
    · cases hs
  | preempt =>
    obtain ⟨q, -, hs⟩ := bind_eq_some_iff.mp hs
    split at hs
    · next hp =>
      have hneed := hp.2
      unfold Kernel.procNeedPreempt Kernel.procPreemptAllowed at hneed
      split at hneed
      · simp [hp.1, hf hp.1] at hneed
      · cases hneed
    · cases hs
  | _ => cases ha

theorem SigSys.step_forbid (hs : k.step owner cfg .forbid = some (k', e)) :
    e = [] ∧ k'.kern.current = k.kern.current ∧ k'.waiting = k.waiting ∧
      (cfg.preempt = true → k'.kern.preemptCount ≠ 0) := by
  obtain ⟨p, -, hs⟩ := bind_eq_some_iff.mp hs
  cases hs
  unfold Kernel.procForbid
  split
  · exact ⟨rfl, rfl, rfl, fun _ => Nat.succ_ne_zero _⟩
  · next hp => exact ⟨rfl, rfl, rfl, fun h => absurd h hp⟩

theorem SigSys.step_post {s : S} {sigs : UInt8} (hs : k.step owner cfg (.post s sigs) = some (k', e)) :
    k'.kern.current = k.kern.current ∧ k'.waiting = k.waiting ∧ (k'.sig s).recv = (k.sig s).recv ||| sigs := by
  obtain ⟨p, -, hs⟩ := bind_eq_some_iff.mp hs
  unfold sigSignal Signal.signal at hs
  by_cases hw : ((k.sig s).recv ||| sigs) &&& (k.sig s).wait ≠ 0
  · rw [if_pos hw] at hs
    cases hs
    exact ⟨rfl, rfl, by simp⟩
  · rw [if_neg hw] at hs
    cases hs
    exact ⟨rfl, rfl, by simp⟩

end

/-- A pending bit stays until a wait of its port takes it. -/
theorem sigPending_keep {port : S} {bit : UInt8} {e slog : List (SigEvent S)} (h : sigPending port slog &&& bit ≠ 0)
    (he : ∀ ev ∈ e, ∀ sigs result, ev.taken ≠ some (port, sigs, result)) : sigPending port (e ++ slog) &&& bit ≠ 0 := by
  induction e with
  | nil => exact h
  | cons ev e ih =>
    obtain ⟨hev, he⟩ := List.forall_mem_cons.mp he
    have ih := ih he
    cases ev with
    | posted u sigs =>
      rw [List.cons_append, sigPending]
      split
      · obtain ⟨i, hi, hb⟩ := and_ne_zero_iff.mp ih
        exact and_ne_zero_iff.mpr ⟨i, by simp [hi], hb⟩
      · exact ih
    | waited u sigs result | checked u sigs result =>
      rw [List.cons_append, sigPending, if_neg (fun hu => hev sigs result (by rw [SigEvent.taken, hu]))]
      exact ih

/-! ## The invariant -/

namespace MsgSys

/-- `p` has locked the port. -/
def Locks (s : MsgSys P M S Msg) (r p : P) : Prop :=
  (s.send p).locks = true ∨ p = r ∧ s.recv.locks = true

omit [DecidableEq P] [DecidableEq S] in
theorem not_locks {s : MsgSys P M S Msg} {r p : P} (hs : (s.send p).locks = false) (hr : p = r → s.recv.locks = false) :
    ¬ s.Locks r p := by
  rintro (hl | ⟨hp, hl⟩)
  · rw [hs] at hl
    cases hl
  · rw [hr hp] at hl
    cases hl

/-- What the receiver may do itself: anything that spares its signal between two calls of `msg_get`, and `sig_wait` or
the end of `msg_get` at the head of its loop. -/
def Spares (s : MsgSys P M S Msg) (port : S) (bit : UInt8) (a : SigAction P S) : Prop :=
  s.recv = .drain ∧ a.spares port bit = true ∨ s.recv = .head ∧ (a = .wait port bit ∨ a = .permit)

/-- **The invariant of a port**: whoever has locked it runs and cannot be preempted, so that what it has read of the
list is the list; and a receiver that is on its way to sleep has left nothing in the queue, unless its signal is pending
or is still to be sent. -/
structure Inv (owner : S → P) (cfg : KernConfig) (r : P) (port : S) (bit : UInt8) (s : MsgSys P M S Msg)
    (log : List (MsgEvent Msg)) : Prop where
  run : ∃ slog, SigRun owner cfg s.sys slog
  lock : ∀ p, s.Locks r p → s.sys.kern.current = some p ∧ s.sys.waiting p = none ∧
    (cfg.preempt = true → s.sys.kern.preemptCount ≠ 0)
  adding : ∀ p m queue, s.send p = .adding m queue → queue = s.queue
  removing : ∀ queue, s.recv = .removing queue → queue = s.queue
  removed : s.recv = .removed none → s.queue = []
  self : (s.send r).isIdle = false → s.recv = .drain
  busy : s.recv ≠ .head → Up s.sys.kern r ∧ s.sys.waiting r = none
  head : s.recv = .head → Up s.sys.kern r ∧ s.sys.waiting r = none ∨ s.sys.waiting r = some (port, bit)
  wake : s.recv = .head → s.queue ≠ [] →
    (s.sys.sig port).recv &&& bit ≠ 0 ∨ ∃ p, (s.send p).between = true
  fifo : msgQueued log = msgGot log ++ s.queue

namespace Inv

variable {owner : S → P} {cfg : KernConfig} {r : P} {port : S} {bit : UInt8} {s : MsgSys P M S Msg}
  {log : List (MsgEvent Msg)} {p : P}

section
variable (h : Inv owner cfg r port bit s log)
include h

theorem sigInv : SigInv owner s.sys := by
  obtain ⟨slog, hrun⟩ := h.run
  exact (SigGood.of_run hrun).inv

variable {e : List (SigEvent S)} {a : SigAction P S} {k' : SigSys P M S}

theorem pending_keep (hs : s.sys.step owner cfg a = some (k', e)) (hp : (s.sys.sig port).recv &&& bit ≠ 0)
    (he : ∀ ev ∈ e, ∀ sigs result, ev.taken ≠ some (port, sigs, result)) : (k'.sig port).recv &&& bit ≠ 0 := by
  obtain ⟨slog, hrun⟩ := h.run
  have hrun' : SigRun owner cfg k' (e ++ slog) := hrun.step trivial hs
  rw [(SigGood.of_run hrun').recv]
  rw [(SigGood.of_run hrun).recv] at hp
  exact sigPending_keep hp he

theorem run_step (hs : s.sys.step owner cfg a = some (k', e)) : ∃ slog, SigRun owner cfg k' slog := by
  obtain ⟨slog, hrun⟩ := h.run
  exact ⟨_, hrun.step trivial hs⟩

/-- **What a step of the kernel means for the receiver**: it gets its signal, or goes to sleep for it, or stays where it
is. -/
theorem receiver_cases (hport : owner port = r) (hs : s.sys.step owner cfg a = some (k', e))
    (hrecv : s.sys.kern.current = some r → a.ofCurrent = true → s.Spares port bit a) :
    (s.recvAfter port bit e = .drain ∧ Up k'.kern r ∧ k'.waiting r = none) ∨
    (s.recvAfter port bit e = s.recv ∧ s.recv = .head ∧ k'.waiting r = some (port, bit) ∧ e = []) ∨
    (s.recvAfter port bit e = s.recv ∧ k'.waiting r = s.sys.waiting r ∧ (Up s.sys.kern r → Up k'.kern r) ∧
      (s.recv = .head → ∀ ev ∈ e, ∀ sigs result, ev.taken ≠ some (port, sigs, result))) := by
  have mine : ∀ u sigs, s.sys.kern.current = some (owner u) →
      (a = .wait u sigs ∨ s.sys.waiting (owner u) = some (u, sigs)) → owner u = r →
      s.recv = .head ∧ u = port ∧ sigs = bit := by
    rintro u sigs hc (rfl | hw) hu
    · rcases hrecv (hu ▸ hc) rfl with ⟨-, hsp⟩ | ⟨hhead, ha | ha⟩
      · cases hsp
      · cases ha
        exact ⟨hhead, rfl, rfl⟩
      · cases ha
    · rw [hu] at hw
      by_cases hhead : s.recv = .head
      · rcases h.head hhead with ⟨-, hw'⟩ | hw'
        · rw [hw] at hw'
          cases hw'
        · rw [hw] at hw'
          cases hw'
          exact ⟨hhead, rfl, rfl⟩
      · rw [(h.busy hhead).2] at hw
        cases hw
  cases h.sigInv.step_effect hs with
  | lists hw hup =>
    refine .inr (.inr ⟨rfl, by rw [hw], fun hr => (hup r hr).resolve_right ?_, fun _ => nofun⟩)
    rintro ⟨rfl, hc⟩
    rcases hrecv hc rfl with ⟨-, hsp⟩ | ⟨-, ha | ha⟩
    · cases hsp
    · cases ha
    · cases ha
  | posted u sigs hw hup => exact .inr (.inr ⟨rfl, by rw [hw], hup r, by simp [SigEvent.taken]⟩)
  | waited u sigs result hc ha hw hk =>
    by_cases hu : owner u = r
    · obtain ⟨-, rfl, rfl⟩ := mine u sigs hc ha hu
      refine .inl ⟨by simp [recvAfter, SigEvent.isWait], ?_, by rw [hw, hu, update_self]⟩
      rw [hk]
      exact .inr (hu ▸ hc)
    · have hne : u ≠ port := fun e => hu (e ▸ hport)
      refine .inr (.inr ⟨by simp [recvAfter, SigEvent.isWait, hne], ?_, ?_, by simp [SigEvent.taken, hne]⟩)
      · rw [hw, update_of_ne (Ne.symm hu)]
      · rw [hk]
        exact id
  | slept u sigs hc ha hw hup =>
    by_cases hu : owner u = r
    · obtain ⟨hhead, rfl, rfl⟩ := mine u sigs hc ha hu
      exact .inr (.inl ⟨rfl, hhead, by rw [hw, hu, update_self], rfl⟩)
    · refine .inr (.inr ⟨rfl, ?_, hup r (Ne.symm hu), fun _ => nofun⟩)
      rw [hw, update_of_ne (Ne.symm hu)]
  | checked u sigs result ha hc hw hk =>
    refine .inr (.inr ⟨rfl, by rw [hw], by rw [hk]; exact id, fun hhead => ?_⟩)
    have hne : u ≠ port := by
      rintro rfl
      rw [hport] at hc
      rcases hrecv hc (by rw [ha]; rfl) with ⟨hd, -⟩ | ⟨-, ha' | ha'⟩
      · rw [hd] at hhead
        cases hhead
      · rw [ha] at ha'
        cases ha'
      · rw [ha] at ha'
        cases ha'
    simp [SigEvent.taken, hne]

/-- **A step of the kernel** by a process that has not locked the port. -/
theorem kern (hport : owner port = r) (hs : s.sys.step owner cfg a = some (k', e))
    (hfree : ∀ p, s.sys.kern.current = some p → a.ofCurrent = true → ¬ s.Locks r p)
    (hrecv : s.sys.kern.current = some r → a.ofCurrent = true → s.Spares port bit a) :
    Inv owner cfg r port bit { s with sys := k', recv := s.recvAfter port bit e } log := by
  have hcases := h.receiver_cases hport hs hrecv
  have hpc : s.recvAfter port bit e = s.recv ∨ s.recvAfter port bit e = .drain := by
    rcases hcases with ⟨hr, -⟩ | ⟨hr, -⟩ | ⟨hr, -⟩
    · exact .inr hr
    · exact .inl hr
    · exact .inl hr
  have hlocks : ∀ q, Locks { s with sys := k', recv := s.recvAfter port bit e } r q → s.Locks r q := by
    rintro q (hq | ⟨rfl, hq⟩)
    · exact .inl hq
    · rcases hpc with hr | hr
      · exact .inr ⟨rfl, by rw [← hr]; exact hq⟩
      · rw [hr] at hq
        cases hq
  have hsame : ∀ {pc}, s.recvAfter port bit e = pc → pc ≠ .drain → s.recv = pc := fun hr hne =>
    hpc.elim (fun hr' => hr'.symm.trans hr) fun hr' => absurd (hr.symm.trans hr') hne
  refine ⟨h.run_step hs, ?_, h.adding, ?_, ?_, ?_, ?_, ?_, ?_, h.fifo⟩
  · intro q hq
    obtain ⟨hc, hw, hf⟩ := h.lock q (hlocks q hq)
    cases ha : a.ofCurrent with
    | false => exact step_forbidden hs ha hc hw hf
    | true => exact absurd (hlocks q hq) (hfree q hc ha)
  · exact fun queue hr => h.removing queue (hsame hr nofun)
  · exact fun hr => h.removed (hsame hr nofun)
  · exact fun hi => hpc.elim (fun hr => hr.trans (h.self hi)) id
  · intro hr
    rcases hcases with ⟨-, hup, hw⟩ | ⟨hr', hhead, -⟩ | ⟨hr', hw, hup, -⟩
    · exact ⟨hup, hw⟩
    · exact absurd (hr'.trans hhead) hr
    · obtain ⟨hup0, hw0⟩ := h.busy fun hhead => hr (hr'.trans hhead)
      exact ⟨hup hup0, hw.trans hw0⟩
  · intro hr
    rcases hcases with ⟨hr', -⟩ | ⟨-, -, hw, -⟩ | ⟨hr', hw, hup, -⟩
    · cases hr.symm.trans hr'
    · exact .inr hw
    · refine (h.head (hsame hr nofun)).imp (fun hh => ⟨hup hh.1, hw.trans hh.2⟩) fun hh => hw.trans hh
  · intro hr hq
    have hhead := hsame hr nofun
    refine (h.wake hhead hq).imp_left fun hp => h.pending_keep hs hp ?_
    rcases hcases with ⟨hr', -⟩ | ⟨-, -, -, rfl⟩ | ⟨-, -, -, he⟩
    · cases hr.symm.trans hr'
    · exact nofun
    · exact he hhead

/-- A step that the current process takes itself. -/
theorem kernOf (hport : owner port = r) (hc : s.sys.kern.current = some p) (hs : s.sys.step owner cfg a = some (k', e))
    (hfree : ¬ s.Locks r p) (hrecv : p = r → s.Spares port bit a) :
    Inv owner cfg r port bit { s with sys := k', recv := s.recvAfter port bit e } log :=
  h.kern hport hs (fun _ hq _ => some.inj (hc.symm.trans hq) ▸ hfree) fun hr _ => hrecv (some.inj (hc.symm.trans hr))

theorem eq_of_locks (hc : s.sys.kern.current = some p) {q : P} (hq : s.Locks r q) : q = p :=
  some.inj ((h.lock q hq).1.symm.trans hc)

/-- **The current process goes on in `msg_put`.** -/
theorem moveSend (hc : s.sys.kern.current = some p) (hw : s.sys.waiting p = none) (hself : p = r → s.recv = .drain)
    {pc : SendPc Msg} {queue : List Msg} {e : List (MsgEvent Msg)}
    (hlock : pc.locks = true → cfg.preempt = true → s.sys.kern.preemptCount ≠ 0)
    (hadd : ∀ m q, pc = .adding m q → q = queue)
    (hwake : s.recv = .head → queue ≠ [] → (s.sys.sig port).recv &&& bit ≠ 0 ∨ pc.between = true ∨ ∃ q, q ≠ p ∧
      (s.send q).between = true)
    (hfifo : msgQueued (e ++ log) = msgGot (e ++ log) ++ queue) :
    Inv owner cfg r port bit { s with queue := queue, send := update s.send p pc } (e ++ log) := by
  have hrecv : s.recv.locks = false := by
    rw [← Bool.not_eq_true]
    intro hl
    rw [hself (h.eq_of_locks hc (.inr ⟨rfl, hl⟩)).symm] at hl
    cases hl
  have hother : ∀ q, q ≠ p → (s.send q).locks = false := by
    intro q hq
    rw [← Bool.not_eq_true]
    exact fun hl => hq (h.eq_of_locks hc (.inl hl))
  refine ⟨h.run, ?_, ?_, ?_, ?_, ?_, h.busy, h.head, ?_, hfifo⟩
  · rintro q (hq | ⟨rfl, hq⟩)
    · simp only [update_apply] at hq
      split at hq
      · next hqp =>
        subst hqp
        exact ⟨hc, hw, hlock hq⟩
      · next hqp =>
        rw [hother q hqp] at hq
        cases hq
    · rw [hrecv] at hq
      cases hq
  · intro q m l hq
    simp only [update_apply] at hq
    split at hq
    · exact hadd m l hq
    · next hqp =>
      have hl := hother q hqp
      rw [hq] at hl
      cases hl
  · intro l hr
    rw [hr] at hrecv
    cases hrecv
  · intro hr
    rw [hr] at hrecv
    cases hrecv
  · intro hi
    simp only [update_apply] at hi
    split at hi
    · next hrp => exact hself hrp.symm
    · exact h.self hi
  · intro hr hq
    rcases hwake hr hq with hp | hb | ⟨q, hq, hb⟩
    · exact .inl hp
    · exact .inr ⟨p, by simpa using hb⟩
    · exact .inr ⟨q, by simpa [hq] using hb⟩

/-- **The receiver goes on in `msg_get`.** -/
theorem moveRecv (hc : s.sys.kern.current = some r) (hw : s.sys.waiting r = none) (hidle : (s.send r).isIdle = true)
    {pc : RecvPc Msg} {queue : List Msg} {e : List (MsgEvent Msg)}
    (hlock : pc.locks = true → cfg.preempt = true → s.sys.kern.preemptCount ≠ 0)
    (hrem : ∀ q, pc = .removing q → q = queue) (hremd : pc = .removed none → queue = [])
    (hwake : pc = .head → queue ≠ [] → (s.sys.sig port).recv &&& bit ≠ 0 ∨ ∃ q, (s.send q).between = true)
    (hfifo : msgQueued (e ++ log) = msgGot (e ++ log) ++ queue) :
    Inv owner cfg r port bit { s with queue := queue, recv := pc } (e ++ log) := by
  have hother : ∀ q, (s.send q).locks = false := by
    intro q
    rw [← Bool.not_eq_true]
    intro hl
    obtain rfl := h.eq_of_locks hc (.inl hl)
    rw [SendPc.locks_of_isIdle hidle] at hl
    cases hl
  refine ⟨h.run, ?_, ?_, hrem, hremd, ?_, fun _ => ⟨.inr hc, hw⟩, fun _ => .inl ⟨.inr hc, hw⟩, hwake, hfifo⟩
  · rintro q (hq | ⟨rfl, hq⟩)
    · rw [hother q] at hq
      cases hq
    · exact ⟨hc, hw, hlock hq⟩
  · intro q m l hq
    have hl := hother q
    rw [hq] at hl
    cases hl
  · intro hi
    rw [hidle] at hi
    cases hi

end

omit [DecidableEq S] in
theorem not_locks_of_free (hf : s.free r p = true) : ¬ s.Locks r p ∧ (p = r → s.recv = .drain) := by
  unfold free at hf
  rw [Bool.and_eq_true, Bool.or_eq_true, decide_eq_true_iff] at hf
  have hdrain : p = r → s.recv = .drain := fun hp => RecvPc.eq_drain (hf.2.resolve_left (not_not.mpr hp))
  exact ⟨not_locks (SendPc.locks_of_isIdle hf.1) fun hp => by rw [hdrain hp]; rfl, hdrain⟩

variable {e : List (MsgEvent Msg)} {s' : MsgSys P M S Msg}

section
variable (h : Inv owner cfg r port bit s log) (hport : owner port = r)
include h hport

theorem sendStep (hbit : bit ≠ 0) (hc : s.sys.kern.current = some p) (hw : s.sys.waiting p = none)
    (hs : s.sendStep owner cfg port bit p = some (s', e)) : Inv owner cfg r port bit s' (e ++ log) := by
  have hself : (s.send p).isIdle = false → p = r → s.recv = .drain := by
    rintro hi rfl
    exact h.self hi
  have hlocked : (s.send p).locks = true → cfg.preempt = true → s.sys.kern.preemptCount ≠ 0 :=
    fun hl => (h.lock p (.inl hl)).2.2
  have hbetween : (s.send p).between = false → s.recv = .head → s.queue ≠ [] →
      (s.sys.sig port).recv &&& bit ≠ 0 ∨ ∃ q, q ≠ p ∧ (s.send q).between = true := by
    intro hb hr hq
    refine (h.wake hr hq).imp_right ?_
    rintro ⟨q, hqb⟩
    refine ⟨q, ?_, hqb⟩
    rintro rfl
    rw [hb] at hqb
    cases hqb
  unfold MsgSys.sendStep at hs
  split at hs
  · cases hs
  · next m hpc =>
    cases hs
    rw [hpc] at hself hlocked hbetween
    refine h.moveSend hc hw (hself rfl) (fun _ => hlocked rfl) ?_ (fun hr hq => ?_) h.fifo
    · rintro m' q ⟨⟩
      rfl
    · exact (hbetween rfl hr hq).imp_right .inr
  · next m queue hpc =>
    cases hs
    obtain rfl := h.adding p m queue hpc
    rw [hpc] at hself hlocked
    refine h.moveSend hc hw (hself rfl) (fun _ => hlocked rfl) nofun (fun _ _ => .inr (.inl rfl)) ?_
    show msgQueued log ++ [m] = msgGot log ++ (s.queue ++ [m])
    rw [h.fifo, List.append_assoc]
  · next hpc =>
    obtain ⟨⟨k', ev⟩, hk, hs⟩ := map_eq_some_iff.mp hs
    cases hs
    rw [hpc] at hself
    -- The port is unlocked as soon as the process stands behind `proc_permit`.
    have hmoved : Inv owner cfg r port bit { s with send := update s.send p .unlocked } ([] ++ log) :=
      h.moveSend hc hw (hself rfl) nofun nofun (fun _ _ => .inr (.inl rfl)) h.fifo
    refine hmoved.kernOf hport hc hk (not_locks ?_ fun hpr => ?_) fun hpr => .inl ⟨hself rfl hpr, rfl⟩
    · simp [SendPc.locks]
    · exact hself rfl hpr ▸ rfl
  · next hpc =>
    obtain ⟨⟨k', ev⟩, hk, hs⟩ := map_eq_some_iff.mp hs
    cases hs
    rw [hpc] at hself
    have hposted := h.kernOf hport hc hk (not_locks (by rw [hpc]; rfl) fun hpr => by rw [hself rfl hpr]; rfl)
      fun hpr => .inl ⟨hself rfl hpr, rfl⟩
    obtain ⟨hc', hw', hrecv⟩ := step_post hk
    refine hposted.moveSend (e := []) (p := p) (hc'.trans hc) (by rw [hw', hw]) ?_ nofun nofun (fun _ _ => .inl ?_)
      h.fifo
    · intro hpr
      have hd := hself rfl hpr
      unfold recvAfter
      split
      · rfl
      · exact hd
    · obtain ⟨i, hi⟩ := ne_zero_iff.mp hbit
      rw [hrecv]
      exact and_ne_zero_iff.mpr ⟨i, by simp [hi], hi⟩

theorem recvStep (hc : s.sys.kern.current = some r)
    (hw : s.sys.waiting r = none) (hidle : (s.send r).isIdle = true)
      (hs : s.recvStep owner cfg port bit = some (s', e)) :
    Inv owner cfg r port bit s' (e ++ log) := by
  have hsend := SendPc.locks_of_isIdle hidle
  have hlocked : s.recv.locks = true → cfg.preempt = true → s.sys.kern.preemptCount ≠ 0 :=
    fun hl => (h.lock r (.inr ⟨rfl, hl⟩)).2.2
  unfold MsgSys.recvStep at hs
  split at hs
  · next hpc =>
    obtain ⟨⟨k', ev⟩, hk, hs⟩ := map_eq_some_iff.mp hs
    cases hs
    exact h.kernOf hport hc hk (not_locks hsend fun _ => by rw [hpc]; rfl) fun _ => .inr ⟨hpc, .inl rfl⟩
  · next hpc =>
    obtain ⟨⟨k', ev⟩, hk, hs⟩ := map_eq_some_iff.mp hs
    cases hs
    have hforbid := h.kernOf hport hc hk (not_locks hsend fun _ => by rw [hpc]; rfl) fun _ => .inl ⟨hpc, rfl⟩
    obtain ⟨-, hc', hw', hcount⟩ := step_forbid hk
    have hmoved : Inv owner cfg r port bit { s with sys := k', recv := .locked } ([] ++ log) :=
      hforbid.moveRecv (hc'.trans hc) (by rw [hw', hw]) hidle (fun _ => hcount) nofun nofun nofun h.fifo
    exact hmoved
  · next hpc =>
    cases hs
    rw [hpc] at hlocked
    refine h.moveRecv hc hw hidle (fun _ => hlocked rfl) ?_ nofun nofun h.fifo
    rintro q ⟨⟩
    rfl
  · next queue hpc =>
    cases hs
    obtain rfl := h.removing queue hpc
    rw [hpc] at hlocked
    refine h.moveRecv hc hw hidle (fun _ => hlocked rfl) nofun ?_ nofun ?_
    · intro hr
      cases hq : s.queue with
      | nil => rfl
      | cons m rest =>
        rw [hq] at hr
        cases hr
    · have hfifo := h.fifo
      cases hq : s.queue with
      | nil =>
        rw [hq] at hfifo
        exact hfifo
      | cons m rest =>
        rw [hq] at hfifo
        show msgQueued log = msgGot log ++ [m] ++ rest
        rw [hfifo, List.append_assoc, List.singleton_append]
  · next m hpc =>
    obtain ⟨⟨k', ev⟩, hk, hs⟩ := map_eq_some_iff.mp hs
    cases hs
    have hpc' : ∀ b : Bool, (if b then .drain else .head : RecvPc Msg).locks = false := fun b => by cases b <;> rfl
    obtain ⟨q, -, hq⟩ := bind_eq_some_iff.mp hk
    obtain rfl : [] = ev := congrArg Prod.snd (some.inj hq)
    have hmoved : Inv owner cfg r port bit { s with recv := if m.isSome then .drain else .head } ([] ++ log) :=
      h.moveRecv hc hw hidle
      (fun hl => by rw [hpc'] at hl; cases hl) (fun q hq => by split at hq <;> cases hq)
      (fun hq => by split at hq <;> cases hq)
      (fun hr hq => by
        cases m with
        | none => exact absurd (h.removed hpc) hq
        | some m => cases hr)
      h.fifo
    refine hmoved.kernOf hport hc hk (not_locks hsend fun _ => hpc' _) fun _ => ?_
    cases m with
    | none => exact .inr ⟨rfl, .inr rfl⟩
    | some m => exact .inl ⟨rfl, rfl⟩

/-- **Every step keeps the invariant.** -/
theorem step (hbit : bit ≠ 0) {a : MsgAction P S Msg}
    (hs : s.step owner cfg r port bit a = some (s', e)) : Inv owner cfg r port bit s' (e ++ log) := by
  cases a with
  | kern a =>
    simp only [MsgSys.step] at hs
    split at hs
    · next hal =>
      obtain ⟨⟨k', ev⟩, hk, hs⟩ := map_eq_some_iff.mp hs
      cases hs
      have hfree : ∀ p, s.sys.kern.current = some p → a.ofCurrent = true →
          s.free r p = true ∧ (p = r → a.spares port bit = true) := by
        intro p hc ha
        rw [allows, hc] at hal
        simpa [ha, or_iff_not_imp_left] using hal
      refine h.kern hport hk (fun p hc ha => (not_locks_of_free (hfree p hc ha).1).1) fun hc ha => .inl ?_
      exact ⟨(not_locks_of_free (hfree r hc ha).1).2 rfl, (hfree r hc ha).2 rfl⟩
    · cases hs
  | put m =>
    obtain ⟨p, hp, hs⟩ := bind_eq_some_iff.mp hs
    obtain ⟨hc, hw⟩ := active_eq_some.mp hp
    split at hs
    · next hf =>
      obtain ⟨⟨k', ev⟩, hk, hs⟩ := map_eq_some_iff.mp hs
      cases hs
      obtain ⟨hnl, hdrain⟩ := not_locks_of_free hf
      obtain ⟨rfl, hc', hw', hcount⟩ := step_forbid hk
      have hforbid := h.kernOf hport hc hk hnl fun hpr => .inl ⟨hdrain hpr, rfl⟩
      refine hforbid.moveSend (e := []) (hc'.trans hc) (by rw [hw', hw]) hdrain (fun _ => hcount) nofun
        (fun hr hq => ?_)
        h.fifo
      refine (hforbid.wake hr hq).imp_right fun ⟨q, hqb⟩ => .inr ⟨q, ?_, hqb⟩
      rintro rfl
      have hi := (Bool.and_eq_true _ _ ▸ hf : (s.send q).isIdle = true ∧ _).1
      revert hqb hi
      cases s.send q <;> exact nofun
    · cases hs
  | send =>
    obtain ⟨p, hp, hs⟩ := bind_eq_some_iff.mp hs
    obtain ⟨hc, hw⟩ := active_eq_some.mp hp
    exact h.sendStep hport hbit hc hw hs
  | recv =>
    obtain ⟨p, hp, hrecv⟩ := bind_eq_some_iff.mp hs
    obtain ⟨hc, hw⟩ := active_eq_some.mp hp
    split at hrecv
    · next hpr =>
      obtain ⟨rfl, hidle⟩ := hpr
      exact h.recvStep hport hc hw hidle hrecv
    · cases hrecv

end

end Inv

end MsgSys

/-- **Messages are delivered once and in order, and the receiver never sleeps on them.** For any number of processes in
`msg_put`, in the preemptive and in the cooperative kernel, and whatever else runs: the messages obtained are a prefix
of those queued, none is obtained more often than it was queued, and when the queue is not empty the receiver's signal
is pending, or the receiver is ready or runs, or a sender is between its `ADDTAIL` and its `event_do`. -/
theorem msgPort_delivers [DecidableEq Msg] {owner : S → P} {cfg : KernConfig} {r : P} {port : S} {bit : UInt8}
    {s : MsgSys P M S Msg} {log : List (MsgEvent Msg)} (hport : owner port = r) (hbit : bit ≠ 0)
    (h : (msgMachine owner cfg r port bit).Run (fun _ _ => True) s log) :
    msgQueued log = msgGot log ++ s.queue ∧ msgGot log <+: msgQueued log ∧
      (∀ m, (msgGot log).count m ≤ (msgQueued log).count m) ∧
      (s.queue ≠ [] → (s.sys.sig port).recv &&& bit ≠ 0 ∨ Up s.sys.kern r ∨ ∃ p, (s.send p).between = true) := by
  have hinv : MsgSys.Inv owner cfg r port bit s log := by
    refine h.invariant (I := fun s log => MsgSys.Inv owner cfg r port bit s log) ?_ ?_
    · rintro s ⟨hsys, hup, hq, hr, hsend⟩
      refine ⟨⟨[], .init hsys⟩, ?_, ?_, ?_, ?_, ?_, ?_, ?_, ?_, by rw [hq]; rfl⟩
      · exact fun p hl => absurd hl (MsgSys.not_locks (by rw [hsend]; rfl) fun _ => by rw [hr]; rfl)
      · intro p m q hp
        rw [hsend] at hp
        cases hp
      · intro q hq
        rw [hr] at hq
        cases hq
      · exact fun _ => hq
      · intro hi
        rw [hsend] at hi
        cases hi
      · exact fun hne => absurd hr hne
      · exact fun _ => .inl ⟨hup, hsys.2.2 r⟩
      · exact fun _ hne => absurd hq hne
    · exact fun s log a s' e ih _ hs => ih.step hport hbit hs
  have hprefix : msgGot log <+: msgQueued log := ⟨s.queue, hinv.fifo.symm⟩
  refine ⟨hinv.fifo, hprefix, fun m => hprefix.sublist.count_le m, fun hq => ?_⟩
  by_cases hr : s.recv = .head
  · exact (hinv.wake hr hq).imp_right .inr
  · exact .inr (.inl (hinv.busy hr).1)

end

/-- The receiver `false` runs, process `true` is ready. -/
def emptyPort : MsgSys Bool Unit Unit ℕ where
  sys := twoProcesses
  queue := []
  send _ := .idle
  recv := .head

/-- The receiver goes to sleep; process `true` queues two messages, and the receiver obtains the first one. -/
def twoMessages : Option (MsgSys Bool Unit Unit ℕ × List (MsgEvent ℕ)) :=
  (msgMachine (fun _ => false) ⟨true, 1⟩ false () 1).exec (fun _ _ => True) emptyPort []
    [.recv, .put 7, .send, .send, .send, .send, .put 8, .send, .send, .kern .tick, .send, .kern .preempt,
      .kern .resume, .recv, .recv, .recv, .recv]

theorem msgPort_delivers_twoMessages :
    ∃ s, twoMessages = some (s, [.got 7, .queued 8, .queued 7]) ∧ s.queue = [8] ∧
      ((s.sys.sig ()).recv &&& 1 ≠ 0 ∨ SigSys.Up s.sys.kern false ∨ ∃ p, (s.send p).between = true) := by
  have hsome : twoMessages = some _ := rfl
  have hinit : (msgMachine (M := Unit) (fun _ : Unit => false) ⟨true, 1⟩ false () 1).init emptyPort :=
    ⟨⟨⟨by decide, by decide⟩, fun _ => rfl, fun _ => rfl⟩, by decide, rfl, rfl, fun _ => rfl⟩
  have hrun := (Machine.Run.init hinit).exec hsome
  have hall := msgPort_delivers rfl (by decide) hrun
  exact ⟨_, rfl, rfl, hall.2.2.2 nofun⟩

end Bertos
