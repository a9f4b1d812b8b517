import Bertos.Kern.Place
import Bertos.Net.LwipMutex

/-!
# No process waits for an unlocked mutex

A mutex is free, or held by one process, or granted to one that `mutex_release` has taken from the queue and that is
still inside `proc_switch` (`LockOk`). A process whose exchange has failed and that is not yet in the queue is missed
by `mutex_release`, and waits for a mutex that nobody holds (`mutex_strands`); and one that is preempted when it is in
the queue is in the ready list as well. In the runs without these (`MutexUndisturbed`) the invariant `MutexInv` holds,
and nobody waits for an unlocked mutex (`mutex_no_stranded`).
-/

namespace Bertos

open Kernel MutexAct

section
variable {P S M : Type} [DecidableEq P] [DecidableEq M]

/-! ## The scheduler -/

/-- A process is in the ready list once, and not while it runs. -/
structure SchedOk (k : Kernel P S) : Prop where
  nodup : k.ready.Nodup
  current : ∀ p, k.current = some p → p ∉ k.ready
  idle : k.cpu = .idle → k.current = none

def Kernel.Runs (k : Kernel P S) (p : P) : Prop := k.current = some p ∨ p ∈ k.ready

/-- What a step of the scheduler makes of a kernel: it is well-formed, and the processes that run are some of these. -/
structure Scheduled (k : Kernel P S) (R : P → Prop) (n : ℕ) : Prop where
  sched : SchedOk k
  runs : ∀ q, k.Runs q → R q
  preemptCount : k.preemptCount = n

section Scheduler

variable {cfg : KernConfig} {k : Kernel P S} {p q : P}

omit [DecidableEq P] in
theorem nodup_orderedInsert (r : P → P → Prop) [DecidableRel r] {l : List P} (hl : l.Nodup) (hp : p ∉ l) :
    (l.orderedInsert r p).Nodup :=
  (List.perm_orderedInsert r p l).nodup_iff.mpr (List.nodup_cons.mpr ⟨hp, hl⟩)

attribute [grind =] Kernel.Runs Kernel.preemptResetQuantum

section
omit [DecidableEq P]

theorem Kernel.scheduled (hk : k.ready.Nodup) : Scheduled k.procSchedule (· ∈ k.ready) k.preemptCount := by
  unfold procSchedule
  split
  · exact ⟨⟨hk, by grind, by grind⟩, by grind, rfl⟩
  · exact ⟨⟨by grind, by grind, by grind⟩, by grind, rfl⟩

theorem Kernel.scheduled_switch (cfg : KernConfig) (hk : k.ready.Nodup) :
    Scheduled (k.procSwitch cfg) (· ∈ k.ready) k.preemptCount := by
  have hready : (k.preemptResetQuantum cfg).ready = k.ready := by grind
  have hcount : (k.preemptResetQuantum cfg).preemptCount = k.preemptCount := by grind
  have h := scheduled (hready ▸ hk)
  rwa [hready, hcount] at h

theorem SchedOk.preempt (h : SchedOk k) (hp : k.current = some p) :
    Scheduled (k.procPreempt cfg p) k.Runs k.preemptCount := by
  have hnodup : (k.schedEnqueue p).ready.Nodup := nodup_orderedInsert _ h.nodup (h.current p hp)
  have hs := scheduled_switch cfg hnodup
  refine ⟨hs.sched, fun q hq => ?_, hs.preemptCount⟩
  obtain rfl | hq := (List.mem_orderedInsert _).mp (hs.runs q hq)
  · exact .inl hp
  · exact .inr hq

theorem SchedOk.enqueueHead (h : SchedOk k) (hq : ¬ k.Runs q) :
    Scheduled (k.schedEnqueueHead q) (fun y => k.Runs y ∨ y = q) k.preemptCount := by
  have hmem : ∀ y, y ∈ (k.schedEnqueueHead q).ready ↔ y = q ∨ y ∈ k.ready := fun y => List.mem_orderedInsert _
  have hcurrent : (k.schedEnqueueHead q).current = k.current := rfl
  have hrun := h.current
  exact ⟨⟨nodup_orderedInsert _ h.nodup (by grind), by grind, h.idle⟩, by grind, rfl⟩

end

section
variable (h : SchedOk k) (hp : k.current = some p) (hcpu : k.cpu = .running) (hq : ¬ k.Runs q)
include h hp hcpu hq

section
omit [DecidableEq P]

theorem SchedOk.switchTo : Scheduled (k.procSwitchTo cfg p q) (fun y => k.Runs y ∨ y = q) k.preemptCount := by
  have hready : (k.procSwitchTo cfg p q).ready = (k.schedEnqueue p).ready := by grind [procSwitchTo]
  have hmem : ∀ y, y ∈ (k.schedEnqueue p).ready ↔ y = p ∨ y ∈ k.ready := fun y => List.mem_orderedInsert _
  have hcurrent : (k.procSwitchTo cfg p q).current = some q := rfl
  have hidle : (k.procSwitchTo cfg p q).cpu = .running := by grind [procSwitchTo, schedEnqueue]
  refine ⟨⟨?_, by grind, by grind⟩, by grind, by grind [procSwitchTo, schedEnqueue]⟩
  rw [hready]
  exact nodup_orderedInsert _ h.nodup (h.current p hp)

theorem SchedOk.wakeup : Scheduled (k.procWakeup cfg p q) (fun y => k.Runs y ∨ y = q) k.preemptCount := by
  unfold procWakeup
  split
  · exact h.switchTo hp hcpu hq
  · exact h.enqueueHead hq

end

end

end Scheduler

/-! ## The invariant -/

/-- In the queue of this mutex, and not yet in `proc_switch`. -/
def MutexPc.queued : MutexPc P M → Option M
  | .slowPermit m | .slowSwitch m => some m
  | _ => none

def MutexPc.hand : MutexPc P M → Option P
  | .releasePermit _ q | .releaseWakeup _ q => q
  | _ => none

/-- Between `proc_forbid` and `proc_permit`. -/
def MutexPc.forbidden : MutexPc P M → Bool
  | .slowAdd _ | .slowPermit _ | .releaseRem _ | .releasePermit _ _ => true
  | _ => false

/-- The process cannot be preempted, or is not. -/
def MutexPc.stays : MutexPc P M → Bool
  | .slowSwitch _ => true
  | pc => pc.forbidden

/-- **The states of a mutex.** -/
inductive LockOk (x : MutexSys P S M) (m : M) : Prop
  | free (hcount : (x.mutex m).count = mutexUnlocked) (hqueue : (x.mutex m).waitQueue = [])
      (hholders : x.holders m = []) (hwants : ∀ p, (x.pc p).wants ≠ some m)
  | held (o : P) (hcount : (x.mutex m).count = mutexLocked) (hholders : x.holders m = [o])
      (hasleep : ∀ p, x.pc p = .asleep m → p ∈ (x.mutex m).waitQueue)
  | granted (o : P) (hcount : (x.mutex m).count = mutexLocked) (hholders : x.holders m = [])
      (hasleep : ∀ p, x.pc p = .asleep m ∧ p ∉ (x.mutex m).waitQueue ↔ p = o)

/-- What holds of the process `p` when it stands at `pc`. -/
structure PcOk (cfg : KernConfig) (x : MutexSys P S M) (p : P) (pc : MutexPc P M) : Prop where
  stay : pc.stays = true → x.kern.current = some p
  count : cfg.preempt = true → pc.forbidden = true → 0 < x.kern.preemptCount
  queued : ∀ m, p ∈ (x.mutex m).waitQueue → pc.queued = some m ∨ pc = .asleep m ∧ ¬ x.kern.Runs p
  in_queue : ∀ m, pc.queued = some m → p ∈ (x.mutex m).waitQueue
  hand : ∀ q, pc.hand = some q → ¬ x.kern.Runs q ∧ ∃ m, x.pc q = .asleep m ∧ q ∉ (x.mutex m).waitQueue
  holder : ∀ m, pc = .releaseRem m → p ∈ x.holders m

structure MutexInv (cfg : KernConfig) (x : MutexSys P S M) : Prop where
  sched : SchedOk x.kern
  nodup : ∀ m, (x.mutex m).waitQueue.Nodup
  pcs : ∀ p, PcOk cfg x p (x.pc p)
  hand_inj : ∀ p p' q, (x.pc p).hand = some q → (x.pc p').hand = some q → p = p'
  lock : ∀ m, LockOk x m

section Steps

variable {cfg : KernConfig} {x x' : MutexSys P S M} {p q : P} {m : M}

namespace MutexSys

section
omit [DecidableEq M]

@[grind =] theorem setPc_pc (pc : MutexPc P M) (y : P) : (x.setPc p pc).pc y = if y = p then pc else x.pc y :=
  Function.update_apply _ _ _ _

@[grind =] theorem setPc_mutex (pc : MutexPc P M) : (x.setPc p pc).mutex m = x.mutex m := rfl

@[grind =] theorem setPc_holders (pc : MutexPc P M) : (x.setPc p pc).holders m = x.holders m := rfl

@[grind =] theorem setPc_kern (pc : MutexPc P M) : (x.setPc p pc).kern = x.kern := rfl

end

section
omit [DecidableEq P]

@[grind =] theorem setMutex_mutex (b : LwipMutex P) (m' : M) :
    (x.setMutex m b).mutex m' = if m' = m then b else x.mutex m' :=
  Function.update_apply _ _ _ _

@[grind =] theorem setMutex_pc (b : LwipMutex P) : (x.setMutex m b).pc p = x.pc p := rfl

@[grind =] theorem setMutex_holders (b : LwipMutex P) (m' : M) : (x.setMutex m b).holders m' = x.holders m' := rfl

@[grind =] theorem setMutex_kern (b : LwipMutex P) : (x.setMutex m b).kern = x.kern := rfl

@[grind =] theorem setHolders_holders (ps : List P) (m' : M) :
    (x.setHolders m ps).holders m' = if m' = m then ps else x.holders m' :=
  Function.update_apply _ _ _ _

@[grind =] theorem setHolders_pc (ps : List P) : (x.setHolders m ps).pc p = x.pc p := rfl

@[grind =] theorem setHolders_mutex (ps : List P) (m' : M) : (x.setHolders m ps).mutex m' = x.mutex m' := rfl

@[grind =] theorem setHolders_kern (ps : List P) : (x.setHolders m ps).kern = x.kern := rfl

end

end MutexSys

attribute [grind =] MutexPc.queued MutexPc.hand MutexPc.forbidden MutexPc.stays MutexPc.wants
attribute [grind cases] PcOk MutexInv

section
omit [DecidableEq P] [DecidableEq M]

@[grind →] theorem MutexPc.stays_of_forbidden {pc : MutexPc P M} (h : pc.forbidden = true) : pc.stays = true := by
  cases pc <;> first | exact h | rfl

@[grind →] theorem MutexPc.stays_of_queued {pc : MutexPc P M} (h : pc.queued = some m) : pc.stays = true := by
  cases pc <;> first | rfl | cases h

theorem LockOk.frame (h : LockOk x m) (hm : x'.mutex m = x.mutex m) (hh : x'.holders m = x.holders m)
    (ha : ∀ p, x'.pc p = .asleep m ↔ x.pc p = .asleep m)
    (hw : (x.mutex m).count = mutexUnlocked → ∀ p, (x'.pc p).wants = some m → (x.pc p).wants = some m) :
    LockOk x' m := by
  cases h with
  | free hcount hqueue hholders hwants =>
    exact .free (hm ▸ hcount) (hm ▸ hqueue) (hh.trans hholders) fun p hp => hwants p (hw hcount p hp)
  | held o hcount hholders hasleep =>
    exact .held o (hm ▸ hcount) (hh.trans hholders) fun p hp => hm ▸ hasleep p ((ha p).mp hp)
  | granted o hcount hholders hasleep =>
    refine .granted o (hm ▸ hcount) (hh.trans hholders) fun p => ?_
    rw [hm, ha]
    exact hasleep p

end

section
variable (h : MutexInv cfg x)
include h

section
omit [DecidableEq P] [DecidableEq M]

@[grind →] theorem MutexInv.eq_of_stays (hp : x.kern.current = some p) (hq : (x.pc q).stays = true) : q = p :=
  Option.some.inj (((h.pcs q).stay hq).symm.trans hp)

/-- A process that runs is in no queue, except before it calls `proc_switch`. -/
theorem MutexInv.not_mem_queue (hr : x.kern.Runs p) (hq : (x.pc p).queued ≠ some m) : p ∉ (x.mutex m).waitQueue :=
  fun hmem => ((h.pcs p).queued m hmem).elim hq fun ha => ha.2 hr

end

omit [DecidableEq M] in
/-- The current process goes to a place that differs for the mutexes in nothing but `proc_forbid`. -/
theorem MutexInv.goto (hp : x.kern.current = some p) {pc : MutexPc P M} {n : ℕ} (hqueued : pc.queued = (x.pc p).queued)
    (hhand : ∀ q, pc.hand = some q → (x.pc p).hand = some q) (ha : ∀ m, x.pc p ≠ .asleep m) (ha' : ∀ m, pc ≠ .asleep m)
    (hwants : ∀ m, pc.wants = some m → (x.pc p).wants = some m ∨ (x.mutex m).count ≠ mutexUnlocked)
    (hholder : ∀ m, pc = .releaseRem m → p ∈ x.holders m) (hn : cfg.preempt = true → pc.forbidden = true → 0 < n) :
    MutexInv cfg ({ x with kern := { x.kern with preemptCount := n } }.setPc p pc) := by
  refine ⟨⟨h.sched.nodup, h.sched.current, h.sched.idle⟩, h.nodup, fun y => ?_, by grind, fun m => ?_⟩
  · constructor <;> grind
  · exact (h.lock m).frame rfl rfl (by grind) (by grind)

omit [DecidableEq P] [DecidableEq M] in
theorem MutexInv.reschedule {k : Kernel P S} {R : P → Prop} (hk : Scheduled k R x.kern.preemptCount)
    (hstay : ∀ p, (x.pc p).stays = true → k.current = some p)
    (hruns : ∀ q, R q → x.kern.Runs q ∨ (∀ m, q ∉ (x.mutex m).waitQueue) ∧ ∀ p, (x.pc p).hand ≠ some q) :
    MutexInv cfg { x with kern := k } where
  sched := hk.sched
  nodup := h.nodup
  pcs := fun p => {
    stay := hstay p
    count := fun hc hp => hk.preemptCount ▸ (h.pcs p).count hc hp
    queued := fun m hp => ((h.pcs p).queued m hp).imp_right fun ha =>
      ⟨ha.1, fun hr => (hruns p (hk.runs p hr)).elim ha.2 fun hn => hn.1 m hp⟩
    in_queue := (h.pcs p).in_queue
    hand := fun q hq => ⟨fun hr => (hruns q (hk.runs q hr)).elim ((h.pcs p).hand q hq).1 fun hn => hn.2 p hq,
      ((h.pcs p).hand q hq).2⟩
    holder := (h.pcs p).holder }
  hand_inj := h.hand_inj
  lock := fun m => (h.lock m).frame rfl rfl (fun _ => Iff.rfl) fun _ _ hw => hw

section
variable (hp : x.kern.current = some p)
include hp

/-- `ADDTAIL(&s->wait_queue, current_process)`: the new one in the queue is not asleep. -/
theorem MutexInv.enqueue (hpc : x.pc p = .slowAdd m) : MutexInv cfg
      ((x.setMutex m { x.mutex m with waitQueue := (x.mutex m).waitQueue ++ [p] }).setPc p (.slowPermit m)) := by
  have hnot : ∀ m', p ∉ (x.mutex m').waitQueue := fun m' => h.not_mem_queue (.inl hp) (by grind)
  refine ⟨h.sched, fun m' => ?_, fun y => ?_, by grind, fun m' => ?_⟩
  · grind
  · constructor <;> grind
  · cases h.lock m' with
    | free hc hq hh hw =>
      have hp := hw p
      apply LockOk.free <;> grind
    | held o hc hh ha => apply LockOk.held o <;> grind
    | granted o hc hh ha => apply LockOk.granted o <;> grind

omit [DecidableEq M] in
theorem MutexInv.sleep (hpc : x.pc p = .slowSwitch m) {k : Kernel P S}
    (hk : Scheduled k (· ∈ x.kern.ready) x.kern.preemptCount) :
    MutexInv cfg ({ x with kern := k }.setPc p (.asleep m)) := by
  have hmem : p ∈ (x.mutex m).waitQueue := (h.pcs p).in_queue m (by grind)
  have hrun : ¬ k.Runs p := fun hr => h.sched.current p hp (hk.runs p hr)
  have hruns : ∀ q, k.Runs q → x.kern.Runs q := fun q hr => .inr (hk.runs q hr)
  refine ⟨hk.sched, h.nodup, fun y => ?_, by grind, fun m' => ?_⟩
  · constructor <;> grind
  · cases h.lock m' with
    | free hc hq hh hw =>
      have hp := hw p
      apply LockOk.free <;> grind
    | held o hc hh ha => apply LockOk.held o <;> grind
    | granted o hc hh ha => apply LockOk.granted o <;> grind

/-- The process that the mutex was granted to comes out of `proc_switch`. -/
theorem MutexInv.wake (hpc : x.pc p = .asleep m) :
    MutexInv cfg ((x.setHolders m (p :: x.holders m)).setPc p .user) := by
  have hnot : ∀ m', p ∉ (x.mutex m').waitQueue := fun m' => h.not_mem_queue (.inl hp) (by grind)
  refine ⟨h.sched, h.nodup, fun y => ?_, by grind, fun m' => ?_⟩
  · constructor <;> grind
  · cases h.lock m' with
    | free hc hq hh hw =>
      have hp := hw p
      apply LockOk.free <;> grind
    | held o hc hh ha => apply LockOk.held o <;> grind
    | granted o hc hh ha =>
      by_cases hm : m' = m
      · apply LockOk.held p <;> grind
      · apply LockOk.granted o <;> grind

theorem MutexInv.acquire (hpc : x.pc p = .user) (hc : (x.mutex m).count = mutexUnlocked) :
    MutexInv cfg ((x.setMutex m { x.mutex m with count := mutexLocked }).setHolders m (p :: x.holders m)) := by
  have hlocked : mutexUnlocked ≠ mutexLocked := by decide
  refine ⟨h.sched, fun m' => ?_, fun y => ?_, by grind, fun m' => ?_⟩
  · grind
  · have hother := h.pcs y
    constructor <;> grind
  · by_cases hm : m' = m
    · subst hm
      cases h.lock m' with
      | free _ _ hh hw => apply LockOk.held p <;> grind
      | held o hc' | granted o hc' => exact absurd (hc.symm.trans hc') hlocked
    · apply (h.lock m').frame <;> grind

end

omit [DecidableEq P] [DecidableEq M] in
theorem MutexInv.releasing (hpc : x.pc p = .releaseRem m) :
    (x.mutex m).count = mutexLocked ∧ x.holders m = [p] ∧ ∀ y, x.pc y = .asleep m → y ∈ (x.mutex m).waitQueue := by
  have hmem := (h.pcs p).holder m hpc
  cases h.lock m with
  | free _ _ hh | granted o _ hh => rw [hh] at hmem; cases hmem
  | held o hc hh ha =>
    rw [hh, List.mem_singleton] at hmem
    exact ⟨hc, hmem ▸ hh, ha⟩

/-- `mutex_release` finds nobody in the queue: a process that wants the mutex could only be before `proc_forbid`. -/
theorem MutexInv.unlock (hp : x.kern.current = some p) (hpc : x.pc p = .releaseRem m)
    (hqueue : (x.mutex m).waitQueue = []) (hslow : ∀ q, x.pc q ≠ .slow m) :
    MutexInv cfg (((x.setHolders m ((x.holders m).erase p)).setMutex m ⟨[], 1⟩).setPc p (.releasePermit m none)) := by
  obtain ⟨-, hh, ha⟩ := h.releasing hpc
  have hnot : ∀ m', p ∉ (x.mutex m').waitQueue := fun m' => h.not_mem_queue (.inl hp) (by grind)
  refine ⟨h.sched, fun m' => ?_, fun y => ?_, by grind, fun m' => ?_⟩
  · grind
  · constructor <;> grind
  · by_cases hm : m' = m
    · subst hm
      refine .free (by grind [mutexUnlocked]) (by grind) (by grind) fun y hy => ?_
      have hys := hslow y
      cases hpcy : x.pc y <;> grind
    · apply (h.lock m').frame <;> grind

/-- `mutex_release` takes the first process from the queue. -/
theorem MutexInv.grant (hp : x.kern.current = some p) (hpc : x.pc p = .releaseRem m) {r : List P}
    (hqueue : (x.mutex m).waitQueue = q :: r) :
    MutexInv cfg (((x.setHolders m ((x.holders m).erase p)).setMutex m { x.mutex m with waitQueue := r }).setPc p
      (.releasePermit m (some q))) := by
  obtain ⟨hc, hh, ha⟩ := h.releasing hpc
  have hnodup := h.nodup m
  obtain ⟨hq, hrun⟩ : x.pc q = .asleep m ∧ ¬ x.kern.Runs q := by
    refine ((h.pcs q).queued m (by grind)).resolve_left fun hs => ?_
    grind
  refine ⟨h.sched, fun m' => ?_, fun y => ?_, ?_, fun m' => ?_⟩
  · have hnodup' := h.nodup m'
    grind
  · constructor <;> grind
  · intro y y' q' hy hy'
    grind
  · by_cases hm : m' = m
    · subst hm
      apply LockOk.granted q <;> grind
    · apply (h.lock m').frame <;> grind

end

omit [DecidableEq P] [DecidableEq M] in
theorem LockOk.count_cases (h : LockOk x m) : (x.mutex m).count = mutexUnlocked ∨ (x.mutex m).count = mutexLocked := by
  cases h with
  | free hc => exact .inl hc
  | held o hc | granted o hc => exact .inr hc

omit [DecidableEq P] in
theorem MutexSys.xchg_locked (hc : (x.mutex m).count = mutexLocked) : x.xchg m = (x, false) := by
  have hm : ({ x.mutex m with count := mutexLocked } : LwipMutex P) = x.mutex m := by rw [← hc]
  unfold MutexSys.xchg MutexSys.setMutex
  rw [hm, Function.update_eq_self, hc]
  rfl

section
variable (h : MutexInv cfg x) (hp : x.kern.current = some p)
include h hp

/-- The exchange of `mutex_obtain` and `mutex_attempt`, when it succeeds. -/
theorem MutexInv.xchg (hpc : x.pc p = .user) (hc : (x.mutex m).count = mutexUnlocked) :
    (x.xchg m).2 = true ∧ MutexInv cfg ((x.xchg m).1.setHolders m (p :: x.holders m)) :=
  ⟨decide_eq_true hc, h.acquire hp hpc hc⟩

/-- **The calls** keep the invariant. -/
theorem MutexInv.call (hpc : x.pc p = .user) {c : MutexCall M} (hok : MutexOwned x (.call c : MutexAct P M)) :
    MutexInv cfg (x.call cfg p c) := by
  cases c with
  | «obtain» m =>
    unfold MutexSys.call MutexSys.mutexObtain
    dsimp only
    obtain hc | hc := (h.lock m).count_cases
    · rw [if_pos (h.xchg hp hpc hc).1]
      exact (h.xchg hp hpc hc).2
    · rw [MutexSys.xchg_locked hc]
      have hlocked : mutexUnlocked ≠ mutexLocked := by decide
      apply h.goto hp <;> grind
  | attempt m =>
    unfold MutexSys.call MutexSys.mutexAttempt
    dsimp only
    obtain hc | hc := (h.lock m).count_cases
    · rw [if_pos (h.xchg hp hpc hc).1]
      exact (h.xchg hp hpc hc).2
    · rw [MutexSys.xchg_locked hc]
      exact h
  | release m =>
    unfold MutexSys.call
    rw [procForbid_eq]
    have hholder : p ∈ x.holders m := by simpa [MutexOwned, hp] using hok
    apply h.goto hp <;> grind

/-- **The steps of a call** keep the invariant. -/
theorem MutexInv.resume (hcpu : x.kern.cpu = .running) (hok : MutexUndisturbed x (.advance : MutexAct P M))
    (hs : x.resume cfg p = some x') : MutexInv cfg x' := by
  unfold MutexSys.resume at hs
  split at hs <;> cases hs
  · next m hpc =>
    rw [procForbid_eq]
    apply h.goto hp <;> grind
  · next m hpc => exact h.enqueue hp hpc
  · next m hpc =>
    rw [procPermit_eq]
    apply h.goto hp <;> grind
  · next m hpc => exact h.sleep hp hpc (scheduled_switch cfg h.sched.nodup)
  · next m hpc => exact h.wake hp hpc
  · next m hpc =>
    unfold MutexSys.mutexRelease
    split
    · next hq => exact h.unlock hp hpc hq (hok p m hp hpc hq)
    · next q r hq => exact h.grant hp hpc hq
  · next m q hpc =>
    rw [procPermit_eq]
    apply h.goto hp <;> grind
  · next m hpc =>
    apply h.goto hp <;> grind
  · next m q hpc =>
    obtain ⟨hrun, m', hq, hmem⟩ := (h.pcs p).hand q (by grind)
    have huser : MutexInv cfg (x.setPc p .user) := by
      apply h.goto hp <;> grind
    have hstay : ∀ y, (x.pc y).stays = true → y = p := fun y => h.eq_of_stays hp
    refine huser.reschedule (h.sched.wakeup hp hcpu hrun) (by grind) fun y hy => hy.imp_right ?_
    rintro rfl
    have hqueued := (h.pcs y).queued
    have hinj := h.hand_inj
    constructor <;> grind

omit [DecidableEq P] [DecidableEq M] in
/-- A preemption, of a process that is not on its way to `proc_switch`. -/
theorem MutexInv.preempt (hc : cfg.preempt = true) (hneed : x.kern.procNeedPreempt cfg = true)
    (hok : MutexUndisturbed x (.preempt : MutexAct P M)) :
    MutexInv cfg { x with kern := x.kern.procPreempt cfg p } := by
  have hzero : x.kern.preemptCount = 0 := by
    unfold procNeedPreempt at hneed
    split at hneed
    · have hallowed := (Bool.and_eq_true _ _ ▸ hneed).1
      rw [procPreemptAllowed, if_pos hc] at hallowed
      exact of_decide_eq_true hallowed
    · cases hneed
  have hstay : ∀ y, ¬ (x.pc y).stays = true := by
    intro y hy
    obtain rfl := h.eq_of_stays hp hy
    have hcount := (h.pcs y).count hc
    have hswitch := hok y
    cases hpc : x.pc y <;> grind
  exact h.reschedule (h.sched.preempt hp) (fun y hy => absurd hy (hstay y)) fun q hq => .inl hq

end

section
omit [DecidableEq P] [DecidableEq M]

theorem MutexInv.arrive (h : MutexInv cfg x) (hq : x.Away q) :
    MutexInv cfg { x with kern := x.kern.schedEnqueueHead q } := by
  refine h.reschedule (h.sched.enqueueHead fun hr => hr.elim hq.1 hq.2.1) (fun p hp => (h.pcs p).stay hp)
    fun y hy => hy.imp_right fun hyq => ?_
  subst hyq
  have haway := hq.2.2
  have hpcs := h.pcs
  constructor <;> grind

theorem MutexInv.block (h : MutexInv cfg x) (hp : x.kern.current = some p) (hpc : x.pc p = .user) :
    MutexInv cfg { x with kern := x.kern.procSwitch cfg } := by
  refine h.reschedule (scheduled_switch cfg h.sched.nodup) (fun y hy => ?_) fun q hq => .inl (.inr hq)
  rw [h.eq_of_stays hp hy, hpc] at hy
  cases hy

end

/-- **Every step** keeps the invariant. -/
theorem MutexInv.step (h : MutexInv cfg x) {a : MutexAct P M} {out : List Unit}
    (hok : MutexOwned x a ∧ MutexUndisturbed x a) (hs : x.step cfg a = some (x', out)) : MutexInv cfg x' := by
  cases a with
  | call c =>
    simp only [MutexSys.step] at hs
    split at hs
    · next p hcpu hp =>
      split_ifs at hs with hpc
      cases hs
      exact h.call hp hpc hok.1
    · cases hs
  | advance =>
    simp only [MutexSys.step] at hs
    split at hs
    · next p hcpu hp =>
      obtain ⟨y, hy, he⟩ := Option.map_eq_some_iff.mp hs
      cases he
      exact h.resume hp hcpu hok.2 hy
    · next hcpu hp =>
      split_ifs at hs
      cases hs
      refine h.reschedule (scheduled h.sched.nodup) (fun y hy => ?_) fun q hq => .inl (.inr hq)
      exact absurd (hp.symm.trans ((h.pcs y).stay hy)) (by simp)
    · cases hs
  | block =>
    simp only [MutexSys.step] at hs
    split at hs
    · next p hcpu hp =>
      split_ifs at hs with hpc
      cases hs
      exact h.block hp hpc
    · cases hs
  | arrive q =>
    simp only [MutexSys.step] at hs
    split_ifs at hs with hq
    cases hs
    exact h.arrive hq.2
  | tick =>
    simp only [MutexSys.step] at hs
    split_ifs at hs
    cases hs
    exact h.reschedule ⟨⟨h.sched.nodup, h.sched.current, h.sched.idle⟩, fun q hq => hq, rfl⟩
      (fun p hp => (h.pcs p).stay hp) fun q hq => .inl hq
  | preempt =>
    simp only [MutexSys.step] at hs
    split at hs
    · next p hp =>
      split_ifs at hs with hpre
      cases hs
      exact h.preempt hp hpre.1 hpre.2.2 hok.2
    · cases hs

omit [DecidableEq P] [DecidableEq M] in
theorem MutexSys.Initial.inv (h : x.Initial) : MutexInv cfg x where
  sched := ⟨h.nodup, h.current, fun hc => absurd (hc.symm.trans h.running) (by decide)⟩
  nodup := fun m => by rw [h.mutex]; exact List.nodup_nil
  pcs := fun p => by
    rw [h.pc]
    have hmutex := h.mutex
    constructor <;> grind [mutexInit]
  hand_inj := fun p p' q hp => by rw [h.pc] at hp; cases hp
  lock := fun m => .free (by rw [h.mutex]; rfl) (by rw [h.mutex]; rfl) (h.holders m)
    fun p hp => by rw [h.pc] at hp; cases hp

/-- **The condition on `mutex_release` is needed**: without it, the mutex is unlocked and a process goes on
to wait for it. -/
theorem mutexRelease_strands (hqueue : (x.mutex m).waitQueue = []) (hpc : x.pc p = .releaseRem m)
    (hq : x.pc q = .slow m) :
    ((x.mutexRelease p m).mutex m).count = mutexUnlocked ∧ ((x.mutexRelease p m).pc q).wants = some m := by
  have hqp : q ≠ p := fun he => by
    rw [he, hpc] at hq
    cases hq
  unfold MutexSys.mutexRelease
  simp only [hqueue, MutexSys.setPc_pc, if_neg hqp]
  refine ⟨?_, ?_⟩
  · show ((x.setMutex m ⟨[], 1⟩).mutex m).count = mutexUnlocked
    rw [MutexSys.setMutex_mutex, if_pos rfl]
    rfl
  · show (x.pc q).wants = some m
    rw [hq]
    rfl

end Steps

/-- **Nobody waits for an unlocked mutex**, and at most one process holds it, in every run in which the slow path of
`mutex_obtain` is not disturbed. -/
theorem mutex_no_stranded (cfg : KernConfig) {x : MutexSys P S M} {log : List Unit}
    (h : (mutexMachine P S M cfg).Run (fun x a => MutexOwned x a ∧ MutexUndisturbed x a) x log) (m : M) :
    ((x.mutex m).count = mutexUnlocked → (x.mutex m).waitQueue = [] ∧ ∀ p, (x.pc p).wants ≠ some m) ∧
      (∀ p, x.pc p = .asleep m → (x.mutex m).count = mutexLocked) ∧ (x.holders m).length ≤ 1 := by
  have hi : MutexInv cfg x := by
    refine h.invariant (I := fun x _ => MutexInv cfg x) (fun _ => MutexSys.Initial.inv) ?_
    intro x _ a x' out hx hok hs
    exact hx.step hok hs
  have hne : mutexLocked ≠ mutexUnlocked := by decide
  cases hi.lock m with
  | free hc hq hh hw =>
    refine ⟨fun _ => ⟨hq, hw⟩, fun p hp => ?_, by simp [hh]⟩
    exact absurd (by rw [hp]; rfl) (hw p)
  | held o hc hh | granted o hc hh => exact ⟨fun hu => absurd (hc.symm.trans hu) hne, fun _ _ => hc, by simp [hh]⟩

end

/-- Two processes of the same priority, and a mutex. -/
def mutexPair : MutexSys (Fin 2) Unit Unit :=
  ⟨{ Kernel.boot 0 with ready := [1] }, fun _ => .user, fun _ => mutexInit, fun _ => []⟩

theorem mutexPair_initial : mutexPair.Initial where
  running := rfl
  nodup := by decide
  current := by decide
  preemptCount := rfl
  pc := fun _ => rfl
  mutex := fun _ => rfl
  holders := fun _ => rfl

/-- A process waits for a mutex that is unlocked: the other has released it after the exchange failed. -/
theorem mutex_strands : ∃ (x : MutexSys (Fin 2) Unit Unit) (log : List Unit),
    (mutexMachine (Fin 2) Unit Unit ⟨true, 1⟩).Run MutexOwned x log ∧ (x.mutex ()).count = mutexUnlocked ∧
      (x.mutex ()).waitQueue = [1] ∧ x.pc 1 = .asleep () ∧ x.kern.current = some 0 ∧ x.kern.ready = [] := by
  have hinit : (mutexMachine (Fin 2) Unit Unit ⟨true, 1⟩).Run MutexOwned mutexPair [] := .init mutexPair_initial
  have hrun := @Machine.Run.exec _ _ _ _ MutexOwned _ _ _ hinit
    [.call (.obtain ()), .preempt, .call (.obtain ()), .tick, .preempt, .call (.release ()), .advance, .advance,
      .advance, .tick, .preempt, .advance, .advance, .advance, .advance] _ rfl
  exact ⟨_, _, hrun, rfl, rfl, rfl, rfl, rfl⟩

/-- The hypotheses hold: a process waits, and the mutex is granted to it. -/
theorem mutex_no_stranded_pair : ∃ (x : MutexSys (Fin 2) Unit Unit) (log : List Unit),
    (mutexMachine (Fin 2) Unit Unit ⟨true, 1⟩).Run (fun x a => MutexOwned x a ∧ MutexUndisturbed x a) x log ∧
      x.pc 1 = .asleep () ∧ x.pc 0 = .releasePermit () (some 1) ∧ (x.mutex ()).count = mutexLocked := by
  have h₀ : (mutexMachine (Fin 2) Unit Unit ⟨true, 1⟩).Run (fun x a => MutexOwned x a ∧ MutexUndisturbed x a)
    mutexPair [] :=
    .init mutexPair_initial
  have h₁ := h₀.step (a := call (.obtain ())) ⟨trivial, trivial⟩ rfl
  have h₂ := h₁.step (a := preempt) ⟨trivial, fun p m hp hpc => by cases hpc⟩ rfl
  have h₃ := h₂.step (a := call (.obtain ())) ⟨trivial, trivial⟩ rfl
  have h₄ := h₃.step (a := advance) ⟨trivial, fun p m hp hpc => by cases hp; cases hpc⟩ rfl
  have h₅ := h₄.step (a := advance) ⟨trivial, fun p m hp hpc => by cases hp; cases hpc⟩ rfl
  have h₆ := h₅.step (a := advance) ⟨trivial, fun p m hp hpc => by cases hp; cases hpc⟩ rfl
  have h₇ := h₆.step (a := advance) ⟨trivial, fun p m hp hpc => by cases hp; cases hpc⟩ rfl
  have h₈ := h₇.step (a := call (.release ())) ⟨rfl, trivial⟩ rfl
  have h₉ := h₈.step (a := advance) ⟨trivial, fun p m _ _ hq => by cases hq⟩ rfl
  exact ⟨_, _, h₉, rfl, rfl, (mutex_no_stranded _ h₉ ()).2.1 1 rfl⟩

end Bertos
