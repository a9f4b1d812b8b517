import Bertos.Kern.Calls

/-!
# Where the processes of a run are

Every process has at most one place: it is the current process, it is linked into one list, it sleeps in
`sig_waitSignal`, or a `sem_release` in progress has taken it out of a wait queue and not yet woken it (`KernPlace`).
`Placed k loc` says that `loc` names that place, and each step of the system is a chain of updates of `loc`. From
`ADDTAIL` to `proc_switch` in `sem_obtain` the place of the current process is the queue (`Pc.queued`); a preemption
there is the one step that breaks the invariant.
-/

namespace Bertos

open List Function Kernel Pc

inductive KernPlace (P S : Type)
  | current
  | ready
  | queue (s : S)
  /-- Asleep in `sig_waitSignal`. -/
  | signal
  /-- Taken from a wait queue by the `sem_release` of `q`, still to be woken. -/
  | hand (q : P)
  | zombie

/-- What the place of a process says about its life. -/
inductive KernLife
  | absent
  | alive
  | zombie
  deriving DecidableEq

def KernPlace.life {P S : Type} : Option (KernPlace P S) → KernLife
  | none => .absent
  | some .zombie => .zombie
  | some _ => .alive

/-- The semaphore in whose queue a process stands while it still runs. -/
def Pc.queued {P S : Type} : Pc P S → Option S
  | .obtainQueued s | .obtainSwitch s => some s
  | _ => none

/-- The process that a `sem_release` in progress has still to wake. -/
def Pc.hand {P S : Type} : Pc P S → Option P
  | .releaseDone _ q | .releaseWakeup _ q => q
  | _ => none

/-- The code between `proc_forbid` and `proc_permit`. -/
def Pc.forbidden {P S : Type} : Pc P S → Bool
  | .obtainVerify _ | .obtainQueued _ | .obtainLocked _ | .attemptVerify _ | .attemptDone _ _
  | .releaseVerify _ | .releaseDone _ _ | .exitForbidden => true
  | _ => false

/-- Where a process may stand while another one runs. Only a preemption stops it in the middle of `sem_release` or
`proc_setPri`. -/
def Pc.suspended {P S : Type} (cfg : KernConfig) : Pc P S → Bool
  | .user | .obtainAsleep _ | .sigAsleep _ => true
  | .releaseWakeup _ _ | .setPriEnqueue _ => cfg.preempt
  | _ => false

/-- Inside the `proc_switch` of `sig_waitSignal`. -/
def Pc.asleep {P S : Type} : Pc P S → Bool
  | .sigAsleep _ => true
  | _ => false

/-- The process sleeps in `sig_waitSignal`; with an empty mask nothing can wake it. -/
def Process.sleeping {P S : Type} (b : Process P S) : Prop :=
  match b.pc with
  | .sigAsleep sigs => b.wait ≠ 0 ∨ sigs = 0
  | _ => False

section
variable {P S : Type} [DecidableEq P]

/-- The process `p` is at the place `l`. -/
def Kernel.At (k : Kernel P S) (p : P) : KernPlace P S → Prop
  | .current => k.current = some p ∧ (k.proc p).pc.queued = none
  | .ready => p ∈ k.ready
  | .queue s => p ∈ (k.sem s).waitQueue
  | .signal => (k.proc p).sleeping
  | .hand q => (k.proc q).pc.hand = some p
  | .zombie => p ∈ k.zombies

/-- The processes are where `loc` says, and no list has a process twice. -/
structure Placed (k : Kernel P S) (loc : P → Option (KernPlace P S)) : Prop where
  at_iff : ∀ p l, k.At p l ↔ loc p = some l
  ready : k.ready.Nodup
  queue : ∀ s, (k.sem s).waitQueue.Nodup
  zombies : k.zombies.Nodup

/-! ## Moving one process -/

namespace Kernel
variable {k : Kernel P S} {p : P} {s : S} {b : Process P S} {w : Semaphore P}

attribute [grind =] setProc_proc setPc At

@[grind =] theorem setProc_current : (k.setProc p b).current = k.current := rfl

@[grind =] theorem setProc_ready : (k.setProc p b).ready = k.ready := rfl

@[grind =] theorem setProc_zombies : (k.setProc p b).zombies = k.zombies := rfl

@[grind =] theorem setProc_sem_apply : (k.setProc p b).sem s = k.sem s := rfl

@[grind =] theorem setProc_preemptCount : (k.setProc p b).preemptCount = k.preemptCount := rfl

section
omit [DecidableEq P]
variable [DecidableEq S]

@[grind =] theorem setSem_preemptCount : (k.setSem s w).preemptCount = k.preemptCount := rfl

@[grind =] theorem setSem_current : (k.setSem s w).current = k.current := rfl

@[grind =] theorem setSem_ready : (k.setSem s w).ready = k.ready := rfl

@[grind =] theorem setSem_zombies : (k.setSem s w).zombies = k.zombies := rfl

@[grind =] theorem setSem_proc_apply : (k.setSem s w).proc p = k.proc p := rfl

@[grind =] theorem setSem_sem (s' : S) : (k.setSem s w).sem s' = if s' = s then w else k.sem s' :=
  update_apply _ _ _ _

end

end Kernel

attribute [grind =] Process.sleeping Pc.asleep Pc.queued Pc.hand Pc.forbidden Pc.suspended KernPlace.life

omit [DecidableEq P] in
@[grind →] theorem Process.not_sleeping {b : Process P S} (h : b.pc.asleep = false) : ¬ b.sleeping := by
  unfold Process.sleeping
  cases hb : b.pc <;> simp_all [asleep]

namespace Placed
variable {k k' : Kernel P S} {loc : P → Option (KernPlace P S)}

omit [DecidableEq P] in
/-- The time slice, the preemption counter and the code on the CPU have nothing to do with the places. -/
theorem frame (h : Placed k loc) (hc : k'.current = k.current) (hr : k'.ready = k.ready)
    (hz : k'.zombies = k.zombies) (hp : k'.proc = k.proc) (hs : k'.sem = k.sem) : Placed k' loc := by
  refine ⟨fun y l => ?_, hr ▸ h.ready, hs ▸ h.queue, hz ▸ h.zombies⟩
  rw [← h.at_iff]
  cases l <;> simp only [Kernel.At, hc, hr, hz, hp, hs]

theorem insert {q : P} {r : List P} (h : Placed k loc) (hq : loc q = none) (hr : r.Perm (q :: k.ready)) :
    Placed { k with ready := r } (update loc q (some .ready)) := by
  have hmem : ∀ y, y ∈ r ↔ y ∈ q :: k.ready := fun y => hr.mem_iff
  have hnr := h.at_iff q .ready
  refine ⟨fun y l => ?_, hr.nodup_iff.mpr (nodup_cons.mpr ⟨by grind, h.ready⟩), h.queue, h.zombies⟩
  have hy := h.at_iff y l
  cases l <;> grind

theorem remHead {q : P} {r : List P} (h : Placed k loc) (hr : k.ready = q :: r) :
    Placed { k with ready := r } (update loc q none) := by
  have hq := h.at_iff q .ready
  have hnd : (q :: r).Nodup := hr ▸ h.ready
  refine ⟨fun y l => ?_, (nodup_cons.mp hnd).2, h.queue, h.zombies⟩
  have hy := h.at_iff y l
  cases l <;> grind

theorem setProc {p : P} {b : Process P S} (h : Placed k loc) (hq : b.pc.queued = (k.proc p).pc.queued)
    (hh : b.pc.hand = (k.proc p).pc.hand) (hs : b.sleeping ↔ (k.proc p).sleeping) : Placed (k.setProc p b) loc := by
  refine ⟨fun y l => ?_, h.ready, h.queue, h.zombies⟩
  have hy := h.at_iff y l
  cases l <;> grind

section
variable [DecidableEq S]

theorem setSem {s : S} {b : Semaphore P} (h : Placed k loc) (hb : b.waitQueue = (k.sem s).waitQueue) :
    Placed (k.setSem s b) loc := by
  have hqueue := h.queue
  refine ⟨fun y l => ?_, h.ready, by grind, h.zombies⟩
  have hy := h.at_iff y l
  cases l <;> grind

end

theorem leaveCurrent {p : P} {pc : Pc P S} (h : Placed k loc) (hp : k.current = some p)
    (hq : (k.proc p).pc.queued = none) (hh : (k.proc p).pc.hand = none) (ha : (k.proc p).pc.asleep = false)
    (hq' : pc.queued ≠ none) (hh' : pc.hand = none) (ha' : pc.asleep = false) :
    Placed (k.setPc p pc) (update loc p none) := by
  have hcur := h.at_iff p .current
  refine ⟨fun y l => ?_, h.ready, h.queue, h.zombies⟩
  have hy := h.at_iff y l
  cases l <;> grind

section
variable [DecidableEq S]

/-- `ADDTAIL` on a wait queue, of a process that is nowhere. -/
theorem addTail {p : P} {s : S} {b : Semaphore P} (h : Placed k loc) (hp : loc p = none)
    (hb : b.waitQueue = (k.sem s).waitQueue ++ [p]) :
    Placed (k.setSem s b) (update loc p (some (.queue s))) := by
  have hqueue := h.queue
  have hps := h.at_iff p (.queue s)
  refine ⟨fun y l => ?_, h.ready, by grind, h.zombies⟩
  have hy := h.at_iff y l
  cases l <;> grind

theorem remQueue {q : P} {s : S} {r : List P} {b : Semaphore P} (h : Placed k loc)
    (hw : (k.sem s).waitQueue = q :: r) (hb : b.waitQueue = r) :
    Placed (k.setSem s b) (update loc q none) := by
  have hqueue := h.queue
  have hqs := h.at_iff q (.queue s)
  refine ⟨fun y l => ?_, h.ready, by grind, h.zombies⟩
  have hy := h.at_iff y l
  cases l <;> grind

end

/-- A `sem_release` holds a process that is nowhere. -/
theorem takeHand {p q : P} {pc : Pc P S} (h : Placed k loc) (hq : loc q = none) (hh : (k.proc p).pc.hand = none)
    (hq' : pc.queued = (k.proc p).pc.queued) (ha : (k.proc p).pc.asleep = false) (hh' : pc.hand = some q)
    (ha' : pc.asleep = false) : Placed (k.setPc p pc) (update loc q (some (.hand p))) := by
  refine ⟨fun y l => ?_, h.ready, h.queue, h.zombies⟩
  have hy := h.at_iff y l
  cases l <;> grind

/-- A `sem_release` goes on without the process it held. -/
theorem dropHand {p q : P} {pc : Pc P S} (h : Placed k loc) (hh : (k.proc p).pc.hand = some q)
    (hq' : pc.queued = (k.proc p).pc.queued) (ha : (k.proc p).pc.asleep = false) (hh' : pc.hand = none)
    (ha' : pc.asleep = false) : Placed (k.setPc p pc) (update loc q none) := by
  have hq : loc q = some (.hand p) := (h.at_iff q (.hand p)).mp hh
  refine ⟨fun y l => ?_, h.ready, h.queue, h.zombies⟩
  have hy := h.at_iff y l
  cases l <;> grind

theorem freed_eq_none {q : P} (h : Placed k loc) (hq : KernPlace.life (loc q) ≠ .alive) :
    (if q ∈ k.zombies then none else loc q) = none := by
  have hz := h.at_iff q .zombie
  cases hl : loc q with
  | none => simp
  | some l => cases l <;> grind

omit [DecidableEq P] in
theorem unique (h : Placed k loc) {p : P} (l l' : KernPlace P S) (hl : k.At p l) (hl' : k.At p l') : l = l' := by
  have := (h.at_iff p l).mp hl
  rw [(h.at_iff p l').mp hl'] at this
  exact (Option.some.inj this).symm

end Placed

/-! ## The invariant -/

/-- How often preemption is forbidden at this point of the code. -/
def Kernel.forbids (k : Kernel P S) : ℕ :=
  match k.cpu, k.current with
  | .exitPermit, _ => 1
  | .running, some p => if (k.proc p).pc.forbidden then 1 else 0
  | _, _ => 0

/-- A process has a mask only while it sleeps in `sig_waitSignal`, and `M` holds for the masks waited for. -/
structure Masks (M : UInt8 → Prop) (b : P → Process P S) : Prop where
  wait : ∀ p, (b p).wait ≠ 0 → (b p).pc = .sigAsleep (b p).wait
  mask : ∀ p sigs, (b p).pc = .sigAsleep sigs → M sigs

/-- **The invariant**: `M` holds for the masks that processes wait for. -/
structure KernInv (cfg : KernConfig) (M : UInt8 → Prop) (k : Kernel P S) (loc : P → Option (KernPlace P S)) :
    Prop where
  placed : Placed k loc
  susp : ∀ p, k.current ≠ some p → (k.proc p).pc.suspended cfg = true
  cpu : k.cpu = .running ↔ k.current ≠ none
  count : cfg.preempt = true → k.preemptCount = k.forbids
  masks : Masks M k.proc
  queued : ∀ p s, k.current = some p → (k.proc p).pc.queued = some s → p ∈ (k.sem s).waitQueue

/-- The invariant in the middle of a switch, when no process is the current one. -/
structure Parked (cfg : KernConfig) (M : UInt8 → Prop) (k : Kernel P S) (loc : P → Option (KernPlace P S)) :
    Prop where
  placed : Placed { k with current := none } loc
  susp : ∀ p, (k.proc p).pc.suspended cfg = true
  count : cfg.preempt = true → k.preemptCount = 0
  masks : Masks M k.proc

section
variable {cfg : KernConfig} {M : UInt8 → Prop} {k : Kernel P S} {loc : P → Option (KernPlace P S)} {p q : P}

section
omit [DecidableEq P]

@[grind →] theorem Pc.queued_of_suspended {pc : Pc P S} (h : pc.suspended cfg = true) : pc.queued = none := by
  cases pc <;> simp_all [suspended, queued]

@[grind →] theorem Pc.forbidden_of_suspended {pc : Pc P S} (h : pc.suspended cfg = true) : pc.forbidden = false := by
  cases pc <;> simp_all [suspended, forbidden]

end

theorem Masks.setPc {b b' : P → Process P S} {pc : Pc P S} (h : Masks M b) (ha : (b p).pc.asleep = false)
    (ha' : pc.asleep = false) (hproc : b' = update b p { b p with pc := pc }) : Masks M b' := by
  have hwait := h.wait
  have hmask := h.mask
  subst hproc
  constructor <;> grind

theorem KernInv.park (h : KernInv cfg M k loc) (hp : k.current = some p)
    (hs : (k.proc p).pc.suspended cfg = true) : Parked cfg M k (update loc p none) := by
  have hcur := h.placed.at_iff p .current
  have hsusp := h.susp
  refine ⟨⟨fun y l => ?_, h.placed.ready, h.placed.queue, h.placed.zombies⟩, by grind, fun hc => ?_, h.masks⟩
  · have hy := h.placed.at_iff y l
    cases l <;> grind
  · have hr : k.cpu = .running := h.cpu.mpr (by simp [hp])
    simp [h.count hc, forbids, hr, hp, forbidden_of_suspended hs]

namespace Parked

/-- `current_process = q`, for a process that is nowhere. -/
theorem dispatch (h : Parked cfg M k loc) (hq : loc q = none) :
    KernInv cfg M { k with current := some q, cpu := .running } (update loc q (some .current)) := by
  have hsusp := h.susp
  refine ⟨⟨fun y l => ?_, h.placed.ready, h.placed.queue, h.placed.zombies⟩, fun y _ => h.susp y, by simp, fun hc => ?_,
    h.masks, by grind⟩
  · have hy := h.placed.at_iff y l
    cases l <;> grind
  · simp [h.count hc, forbids, forbidden_of_suspended (h.susp q)]

omit [DecidableEq P] in
theorem idle (h : Parked cfg M k loc) : KernInv cfg M { k with current := none, cpu := .idle } loc :=
  ⟨h.placed.frame rfl rfl rfl rfl rfl, fun y _ => h.susp y, by simp, fun hc => by simp [h.count hc, forbids],
    h.masks, by simp⟩

theorem insert {r : List P} (h : Parked cfg M k loc) (hq : loc q = none) (hr : r.Perm (q :: k.ready)) :
    Parked cfg M { k with ready := r } (update loc q (some .ready)) :=
  ⟨h.placed.insert hq hr, h.susp, h.count, h.masks⟩

omit [DecidableEq P] in
theorem resetQuantum (h : Parked cfg M k loc) : Parked cfg M (k.preemptResetQuantum cfg) loc := by
  unfold preemptResetQuantum
  split
  · exact ⟨h.placed.frame rfl rfl rfl rfl rfl, h.susp, h.count, h.masks⟩
  · exact h

end Parked

/-! ## Scheduling -/

/-- The life of every process is the same at its new place. -/
def SameLife (loc loc' : P → Option (KernPlace P S)) : Prop :=
  ∀ x, KernPlace.life (loc' x) = KernPlace.life (loc x)

omit [DecidableEq P] in
theorem SameLife.refl : SameLife loc loc := fun _ => rfl

variable {loc' : P → Option (KernPlace P S)}

omit [DecidableEq P] in
theorem SameLife.trans {loc'' : P → Option (KernPlace P S)} (h : SameLife loc loc') (h' : SameLife loc' loc'') :
    SameLife loc loc'' :=
  fun x => (h' x).trans (h x)

theorem SameLife.update {v : Option (KernPlace P S)} (h : SameLife loc loc')
    (hv : KernPlace.life v = KernPlace.life (loc p)) : SameLife loc (update loc' p v) := by
  intro x
  have hx := h x
  grind

/-- `proc_schedule`: the first ready process becomes the current one. -/
theorem Parked.schedule (h : Parked cfg M k loc) :
    ∃ loc', KernInv cfg M k.procSchedule loc' ∧ SameLife loc loc' := by
  unfold procSchedule
  split
  · exact ⟨loc, h.idle, .refl⟩
  · next q r hr =>
    have hq : loc q = some .ready := (h.placed.at_iff q .ready).mp (by simp [Kernel.At, hr])
    have hrem : Parked cfg M { k with ready := r } (update loc q none) :=
      ⟨h.placed.remHead hr, h.susp, h.count, h.masks⟩
    refine ⟨_, hrem.dispatch (update_self q none loc), ?_⟩
    rw [update_idem]
    exact SameLife.refl.update (by rw [hq]; rfl)

theorem Parked.switch (h : Parked cfg M k loc) :
    ∃ loc', KernInv cfg M (k.procSwitch cfg) loc' ∧ SameLife loc loc' :=
  h.resetQuantum.schedule

/-- `proc_switchTo`: the calling process `p` is put into the ready list, and `q`, which is nowhere, runs. -/
theorem KernInv.switchTo (h : KernInv cfg M k loc) (hp : k.current = some p)
    (hs : (k.proc p).pc.suspended cfg = true) (hq : loc q = none) :
    KernInv cfg M (k.procSwitchTo cfg p q)
      (update (update loc p (some .ready)) q (some .current)) := by
  have hpq : p ≠ q := by
    rintro rfl
    have := (h.placed.at_iff p .current).mp ⟨hp, queued_of_suspended hs⟩
    simp [this] at hq
  have hpark := (h.park hp hs).insert (r := (k.schedEnqueue p).ready) (update_self p none loc)
    (perm_orderedInsert _ _ _)
  rw [update_idem] at hpark
  have hdis := hpark.resetQuantum.dispatch (q := q) (by rw [update_of_ne hpq.symm, hq])
  have hcpu : k.cpu = .running := h.cpu.mpr (by simp [hp])
  have heq : k.procSwitchTo cfg p q =
      { (k.schedEnqueue p).preemptResetQuantum cfg with current := some q, cpu := .running } := by
    unfold procSwitchTo preemptResetQuantum
    split <;> simp [schedEnqueue, hcpu]
  rw [heq]
  exact hdis

/-- `SCHED_ENQUEUE_HEAD` of a process that is nowhere, while `p` goes on. -/
theorem KernInv.enqueueHead (h : KernInv cfg M k loc) (hq : loc q = none) :
    KernInv cfg M (k.schedEnqueueHead q) (update loc q (some .ready)) :=
  { h with placed := h.placed.insert hq (perm_orderedInsert _ _ _) }

section
variable (h : KernInv cfg M k loc) (hp : k.current = some p) (hs : (k.proc p).pc.suspended cfg = true)
include h hp hs

/-- `proc_wakeup` of a process that is nowhere. -/
theorem KernInv.wakeup (hq : loc q = none) :
    ∃ loc', KernInv cfg M (k.procWakeup cfg p q) loc' ∧ SameLife (update loc q (some .ready)) loc' := by
  have hloc : loc p = some .current := (h.placed.at_iff p .current).mp ⟨hp, queued_of_suspended hs⟩
  unfold procWakeup
  split
  · refine ⟨_, h.switchTo hp hs hq, fun x => ?_⟩
    grind
  · exact ⟨_, h.enqueueHead hq, .refl⟩

theorem KernInv.yield : ∃ loc', KernInv cfg M (k.procYield cfg p) loc' ∧ SameLife loc loc' := by
  unfold procYield
  split
  · exact ⟨loc, h, .refl⟩
  · next q r hr =>
    have hloc : loc p = some .current := (h.placed.at_iff p .current).mp ⟨hp, queued_of_suspended hs⟩
    have hq : loc q = some .ready := (h.placed.at_iff q .ready).mp (by simp [Kernel.At, hr])
    have hrem : KernInv cfg M { k with ready := r } (update loc q none) :=
      { h with placed := h.placed.remHead hr }
    refine ⟨_, hrem.switchTo hp hs (update_self q none loc), fun x => ?_⟩
    grind

end

/-! ## The steps of a call -/

section
omit [DecidableEq P]

theorem Kernel.procForbid_eq (k : Kernel P S) : k.procForbid cfg =
    { k with preemptCount := if cfg.preempt then k.preemptCount + 1 else k.preemptCount } := by
  unfold procForbid
  split <;> rfl

theorem Kernel.procPermit_eq (k : Kernel P S) : k.procPermit cfg =
    { k with preemptCount := if cfg.preempt then k.preemptCount - 1 else k.preemptCount } := by
  unfold procPermit
  split <;> rfl

end

namespace KernInv

section
omit [DecidableEq P]

theorem running (h : KernInv cfg M k loc) (hp : k.current = some p) : k.cpu = .running :=
  h.cpu.mpr (by simp [hp])

theorem preemptCount_eq (h : KernInv cfg M k loc) (hp : k.current = some p) (hc : cfg.preempt = true) :
    k.preemptCount = if (k.proc p).pc.forbidden then 1 else 0 := by
  rw [h.count hc]
  simp [forbids, h.running hp, hp]

end

/-- The current process goes on to `pc`: the invariant follows from the places. -/
theorem ofPlaced {k' : Kernel P S} {pc : Pc P S} (h : KernInv cfg M k loc)
    (hp : k.current = some p) (ha : (k.proc p).pc.asleep = false) (ha' : pc.asleep = false) (hpl : Placed k' loc')
    (hcur : k'.current = k.current) (hcpu : k'.cpu = k.cpu)
    (hproc : k'.proc = update k.proc p { k.proc p with pc := pc })
    (hn : cfg.preempt = true → k'.preemptCount = if pc.forbidden then 1 else 0)
    (hqd : ∀ s, pc.queued = some s → p ∈ (k'.sem s).waitQueue) : KernInv cfg M k' loc' := by
  have hsusp := h.susp
  have hpc : ∀ y, k'.proc y = if y = p then { k.proc p with pc := pc } else k.proc y := by
    intro y
    rw [hproc, update_apply]
  refine ⟨hpl, by grind, by rw [hcur, hcpu]; exact h.cpu, fun hc => ?_, h.masks.setPc ha ha' hproc, by grind⟩
  simp [hn hc, forbids, hproc, hcpu, hcur, h.running hp, hp]

/-- The current process goes on to `pc`, with `n` as the preemption counter, and no place changes. -/
theorem goto {n : ℕ} {pc : Pc P S} (h : KernInv cfg M k loc) (hp : k.current = some p)
    (hq : pc.queued = (k.proc p).pc.queued) (hh : pc.hand = (k.proc p).pc.hand)
    (ha : (k.proc p).pc.asleep = false) (ha' : pc.asleep = false)
    (hn : cfg.preempt = true → n = if pc.forbidden then 1 else 0) :
    KernInv cfg M ({ k with preemptCount := n }.setPc p pc) loc := by
  have hpl : Placed { k with preemptCount := n } loc := h.placed.frame rfl rfl rfl rfl rfl
  refine h.ofPlaced hp ha ha' (hpl.setProc hq hh ?_) rfl rfl rfl hn (fun s hs => h.queued p s hp (hq ▸ hs))
  exact iff_of_false (Process.not_sleeping ha') (Process.not_sleeping ha)

section
variable [DecidableEq S]

theorem setSem {s : S} {b : Semaphore P} (h : KernInv cfg M k loc) (hb : b.waitQueue = (k.sem s).waitQueue) :
    KernInv cfg M (k.setSem s b) loc := by
  have hqueued := h.queued
  exact ⟨h.placed.setSem hb, h.susp, h.cpu, h.count, h.masks, by grind⟩

/-- `sem_obtain` on a semaphore of another process: the current process is in the queue. -/
theorem block {s : S} (h : KernInv cfg M k loc) (hp : k.current = some p) (hpc : (k.proc p).pc = .obtainVerify s) :
    KernInv cfg M
      ((k.setSem s { k.sem s with waitQueue := (k.sem s).waitQueue ++ [p] }).setPc p (.obtainQueued s))
      (update loc p (some (.queue s))) := by
  have hout : Placed (k.setPc p (.obtainQueued s)) (update loc p none) := by
    apply h.placed.leaveCurrent hp <;> grind
  have hin := hout.addTail (s := s) (b := { k.sem s with waitQueue := (k.sem s).waitQueue ++ [p] })
    (update_self p none loc) rfl
  rw [update_idem] at hin
  have hcount := h.preemptCount_eq hp
  exact h.ofPlaced hp (by grind) rfl hin rfl rfl rfl (by grind) (by grind)

/-- `sem_release` gives the semaphore to the first process of the queue. -/
theorem handOver {s : S} {r : List P} (h : KernInv cfg M k loc) (hp : k.current = some p)
    (hpc : (k.proc p).pc = .releaseVerify s) (hw : (k.sem s).waitQueue = q :: r) :
    KernInv cfg M
      ((k.setSem s { owner := some q, waitQueue := r, nestCount := 1 }).setPc p (.releaseDone s (some q)))
      (update loc q (some (.hand p))) := by
  have hout := h.placed.remQueue (b := { owner := some q, waitQueue := r, nestCount := 1 }) hw rfl
  have hin := hout.takeHand (p := p) (update_self q none loc) (by grind) (by grind) (by grind)
    (show (releaseDone s (some q)).hand = some q from rfl) rfl
  rw [update_idem] at hin
  have hcount := h.preemptCount_eq hp
  exact h.ofPlaced hp (by grind) rfl hin rfl rfl rfl (by grind) (by grind)

end

/-- `sem_release` wakes the process it took from the queue. -/
theorem releaseWakeup {s : S} (h : KernInv cfg M k loc) (hp : k.current = some p)
    (hpc : (k.proc p).pc = .releaseWakeup s (some q)) :
    ∃ loc', KernInv cfg M ((k.setPc p .user).procWakeup cfg p q) loc' ∧ SameLife loc loc' := by
  have hq : loc q = some (.hand p) := (h.placed.at_iff q (.hand p)).mp (by grind)
  have hdrop : Placed (k.setPc p .user) (update loc q none) := by
    apply h.placed.dropHand <;> grind
  have hcount := h.preemptCount_eq hp
  have huser : KernInv cfg M (k.setPc p .user) (update loc q none) :=
    h.ofPlaced hp (by grind) rfl hdrop rfl rfl rfl (by grind) (by grind)
  obtain ⟨loc', hinv, hlife⟩ := huser.wakeup (p := p) (q := q) hp (by grind) (update_self q none loc)
  rw [update_idem] at hlife
  exact ⟨loc', hinv, (SameLife.refl.update (by rw [hq]; rfl)).trans hlife⟩

theorem found {r : UInt8} (h : KernInv cfg M k loc) (hp : k.current = some p)
    (hs : (k.proc p).pc = .user ∨ ∃ sigs, (k.proc p).pc = .sigAsleep sigs) :
    KernInv cfg M (k.setProc p { k.proc p with recv := r, pc := .user }) loc := by
  have hcur := h.placed.at_iff p .current
  have hsig := h.placed.at_iff p .signal
  have hwait := h.masks.wait
  have hmask := h.masks.mask
  have hsusp := h.susp
  have hcount := h.preemptCount_eq hp
  refine ⟨h.placed.setProc (by grind) (by grind) (by grind),
    by grind, h.cpu, fun hc => ?_, ⟨by grind, by grind⟩, by grind⟩
  have hforbidden : (k.proc p).pc.forbidden = false := by grind
  rw [hforbidden] at hcount
  simp [setProc, forbids, h.running hp, hp, hcount hc, forbidden]

end KernInv

/-- A process that is nowhere goes to sleep in `sig_waitSignal`. -/
theorem Parked.sleep {sigs : UInt8} (h : Parked cfg M k loc) (hp : loc p = none) (hh : (k.proc p).pc.hand = none)
    (hm : M sigs) :
    Parked cfg M (k.setProc p { k.proc p with wait := sigs, pc := .sigAsleep sigs })
      (update loc p (some .signal)) := by
  have hwait := h.masks.wait
  have hmask := h.masks.mask
  have hsusp := h.susp
  refine ⟨⟨fun y l => ?_, h.placed.ready, h.placed.queue, h.placed.zombies⟩, by grind, h.count, ⟨by grind, by grind⟩⟩
  have hy := h.placed.at_iff y l
  cases l <;> grind

/-- `sig_waitSignal`, from the call or from the point where the process had been put to sleep. -/
theorem KernInv.sigWait {sigs : UInt8} (h : KernInv cfg M k loc) (hp : k.current = some p)
    (hs : (k.proc p).pc = .user ∨ ∃ sigs, (k.proc p).pc = .sigAsleep sigs) (hm : M sigs) :
    ∃ loc', KernInv cfg M (k.sigWaitSignal cfg p sigs) loc' ∧ SameLife loc loc' := by
  unfold sigWaitSignal
  split
  · exact ⟨loc, h.found hp hs, .refl⟩
  · have hsus : (k.proc p).pc.suspended cfg = true := by grind
    have hloc : loc p = some .current := (h.placed.at_iff p .current).mp ⟨hp, queued_of_suspended hsus⟩
    have hsleep := (h.park hp hsus).sleep (update_self p none loc) (by grind) hm
    rw [update_idem] at hsleep
    obtain ⟨loc', hinv, hlife⟩ := hsleep.switch
    exact ⟨loc', hinv, (SameLife.refl.update (by rw [hloc]; rfl)).trans hlife⟩

namespace KernInv

/-- A control block changes, but neither the code where the process stands nor the mask it waits for, unless the mask
is cleared. -/
theorem setProc {b : Process P S} (h : KernInv cfg M k loc)
    (hpl : Placed (k.setProc q b) loc') (hpc : b.pc = (k.proc q).pc)
    (hw : b.wait = 0 ∨ b.wait = (k.proc q).wait) : KernInv cfg M (k.setProc q b) loc' := by
  have hpcs : ∀ y, ((k.setProc q b).proc y).pc = (k.proc y).pc := by grind
  have hwait := h.masks.wait
  refine ⟨hpl, fun y hy => hpcs y ▸ h.susp y hy, h.cpu, fun hc => ?_,
    ⟨by grind, fun y sigs hy => h.masks.mask y sigs ((hpcs y).symm.trans hy)⟩,
    fun y s hy hs => h.queued y s hy (hpcs y ▸ hs)⟩
  refine (h.count hc).trans ?_
  simp only [forbids, hpcs]
  rfl

theorem setField {b : Process P S} (h : KernInv cfg M k loc) (hpc : b.pc = (k.proc q).pc)
    (hw : b.wait = (k.proc q).wait) : KernInv cfg M (k.setProc q b) loc :=
  h.setProc (h.placed.setProc (by rw [hpc]) (by rw [hpc]) (by simp only [Process.sleeping, hpc, hw])) hpc (.inr hw)

/-- The mask of a sleeping process is cleared: it is nowhere until it is put into the ready list. -/
theorem wake {r : UInt8} (h : KernInv cfg M k loc) (hw : (k.proc q).wait ≠ 0) :
    KernInv cfg M (k.setProc q { k.proc q with recv := r, wait := 0 }) (update loc q none) ∧
      loc q = some .signal := by
  have hpc := h.masks.wait q hw
  have hq : loc q = some .signal := (h.placed.at_iff q .signal).mp (by simp [Kernel.At, Process.sleeping, hpc, hw])
  refine ⟨h.setProc ⟨fun y l => ?_, h.placed.ready, h.placed.queue, h.placed.zombies⟩ rfl (.inl rfl), hq⟩
  have hy := h.placed.at_iff y l
  cases l <;> grind

section
variable (h : KernInv cfg M k loc)
include h

theorem signal (q : P) (sigs : UInt8) (wakeup : Option P)
    (hw : ∀ p, wakeup = some p → k.current = some p ∧ (k.proc p).pc = .user) :
    ∃ loc', KernInv cfg M (k.sigSignal cfg q sigs wakeup) loc' ∧ SameLife loc loc' := by
  unfold Kernel.sigSignal
  split
  · next hr =>
    have hwait : (k.proc q).wait ≠ 0 := by
      intro h0
      simp [h0] at hr
    obtain ⟨hwake, hq⟩ := h.wake (r := (k.proc q).recv ||| sigs) hwait
    have hlife : SameLife loc (update loc q (some .ready)) := SameLife.refl.update (by rw [hq]; rfl)
    cases wakeup with
    | none =>
      refine ⟨_, hwake.enqueueHead (update_self q none loc), ?_⟩
      rw [update_idem]
      exact hlife
    | some p =>
      obtain ⟨hp, hpc⟩ := hw p rfl
      have hpq : p ≠ q := by
        rintro rfl
        simp [h.masks.wait p hwait] at hpc
      obtain ⟨loc', hinv, hl⟩ := hwake.wakeup (p := p) hp
        (by simp [Kernel.setProc, hpq, hpc, suspended]) (update_self q none loc)
      rw [update_idem] at hl
      exact ⟨loc', hinv, hlife.trans hl⟩
  · exact ⟨loc, h.setField rfl rfl, .refl⟩

/-- `proc_exit` makes the current process a zombie. -/
theorem exit (hp : k.current = some p) (hpc : (k.proc p).pc = .exitForbidden) :
    KernInv cfg M { k.setPc p .user with zombies := k.zombies ++ [p], current := none, cpu := .exitPermit }
      (update loc p (some .zombie)) := by
  have hcur := h.placed.at_iff p .current
  have hz := h.placed.at_iff p .zombie
  have hnodup := h.placed.zombies
  have hsusp := h.susp
  refine ⟨⟨fun y l => ?_, h.placed.ready, h.placed.queue, by grind⟩, by grind, by simp, fun hc => ?_,
    h.masks.setPc (by grind) rfl rfl, by simp⟩
  · have hy := h.placed.at_iff y l
    cases l <;> grind
  · have hcount := h.preemptCount_eq hp hc
    rw [hpc] at hcount
    exact hcount

omit [DecidableEq P] in
theorem parkNone (hc : k.current = none) (hf : k.forbids = 0) : Parked cfg M k loc :=
  ⟨h.placed.frame hc.symm rfl rfl rfl rfl, fun p => h.susp p (by simp [hc]), fun hp => (h.count hp).trans hf, h.masks⟩

theorem freeZombies : KernInv cfg M { k with zombies := [] } (fun x => if x ∈ k.zombies then none else loc x) := by
  refine ⟨⟨fun y l => ?_, h.placed.ready, h.placed.queue, nodup_nil⟩, h.susp, h.cpu, h.count, h.masks, h.queued⟩
  have hl := h.placed.at_iff y l
  have hz := h.placed.at_iff y .zombie
  cases l <;> grind

/-- `proc_new` in memory that no live process uses. -/
theorem new (hq : KernPlace.life (loc q) ≠ .alive) (hpc : (k.proc q).pc = .user) : KernInv cfg M (k.procNew (some q)).1
      (update (fun x => if x ∈ k.zombies then none else loc x) q (some .ready)) := by
  have hinit := h.freeZombies.setProc (q := q) (b := { pri := 0, recv := 0, wait := 0, pc := .user })
    (h.freeZombies.placed.setProc (by rw [hpc]) (by rw [hpc])
      (iff_of_false (Process.not_sleeping rfl) (Process.not_sleeping (by simp [hpc, asleep])))) hpc.symm (.inl rfl)
  exact ⟨hinit.placed.insert (h.placed.freed_eq_none hq) (perm_orderedInsert _ _ _), hinit.susp, hinit.cpu, hinit.count,
    hinit.masks, hinit.queued⟩

/-- `proc_preempt`, outside of the stretch where the process is queued. -/
theorem preempt (hp : k.current = some p) (hs : (k.proc p).pc.suspended cfg = true) :
    ∃ loc', KernInv cfg M (k.procPreempt cfg p) loc' ∧ SameLife loc loc' := by
  have hloc : loc p = some .current := (h.placed.at_iff p .current).mp ⟨hp, queued_of_suspended hs⟩
  have hin := (h.park hp hs).insert (r := (k.schedEnqueue p).ready) (update_self p none loc)
    (perm_orderedInsert _ _ _)
  rw [update_idem] at hin
  obtain ⟨loc', hinv, hlife⟩ := hin.resetQuantum.schedule
  exact ⟨loc', hinv, (SameLife.refl.update (by rw [hloc]; rfl)).trans hlife⟩

end

theorem obtainSwitch {s : S} (h : KernInv cfg M k loc) (hp : k.current = some p)
    (hpc : (k.proc p).pc = .obtainSwitch s) :
    ∃ loc', KernInv cfg M ((k.setPc p (.obtainAsleep s)).procSwitch cfg) loc' ∧ SameLife loc loc' := by
  have hsusp := h.susp
  have hcount := h.preemptCount_eq hp
  have hpark : Parked cfg M (k.setPc p (.obtainAsleep s)) loc := by
    refine ⟨⟨fun y l => ?_, h.placed.ready, h.placed.queue, h.placed.zombies⟩, by grind, fun hc => ?_,
      h.masks.setPc (by grind) rfl rfl⟩
    · have hy := h.placed.at_iff y l
      cases l <;> grind
    · rw [hpc] at hcount
      exact hcount hc
  exact hpark.switch

/-- `sched_reenqueue` permutes the ready list. -/
theorem reenqueue (h : KernInv cfg M k loc) : KernInv cfg M (k.schedReenqueue q) loc := by
  unfold schedReenqueue
  split
  · next hq =>
    have hperm : ({ k with ready := k.ready.erase q }.schedEnqueue q).ready.Perm k.ready :=
      (perm_orderedInsert _ _ _).trans (perm_cons_erase hq).symm
    refine ⟨⟨fun y l => ?_, hperm.nodup_iff.mpr h.placed.ready, h.placed.queue, h.placed.zombies⟩,
      h.susp, h.cpu, h.count, h.masks, h.queued⟩
    rw [← h.placed.at_iff]
    cases l with
    | ready => exact hperm.mem_iff
    | _ => exact Iff.rfl
  · exact h

end KernInv

end

end

end Bertos
