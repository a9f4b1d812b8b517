import Bertos.Kern.Invariant

/-!
# Semaphores

What a semaphore (`kern/sem.c`) guarantees along a run in which only the owner calls `sem_release` and the `int` that
counts the nesting does not wrap: mutual exclusion with recursion, and a hand-over in the order of arrival. The
invariant `SemInv` ties the events of the run to the state of the semaphore and to where each process is suspended. A
step either leaves the semaphores alone (`SemQuiet`), or it is one of the three stretches between `proc_forbid` and
`proc_permit`, or it returns to a caller that has the semaphore.
-/

namespace Bertos

open List Kernel KernEvent Pc

section
variable {P S : Type} [DecidableEq P] [DecidableEq S] {cfg : KernConfig} {M : UInt8 → Prop} {k k' : Kernel P S}
  {loc : P → Option (KernPlace P S)} {p q : P} {s : S} {t e : List (KernEvent P S)}

/-! ## What the events say -/

/-- `p` was given `s` by `sem_release`. -/
def KernEvent.isGrant (p : P) (s : S) : KernEvent P S → Bool
  | .granted q s' _ => q = p ∧ s' = s
  | _ => false

/-- How often `p` has locked `s`, by itself or by a hand-over. -/
def acquired (t : List (KernEvent P S)) (p : P) (s : S) : ℕ :=
  t.count (.obtained p s) + t.countP (KernEvent.isGrant p s)

/-- The processes that blocked on `s`, in their order. -/
def blockedOrder (t : List (KernEvent P S)) (s : S) : List P :=
  t.filterMap (fun
    | .blocked p s' => if s' = s then some p else none
    | _ => none)

/-- The processes that were given `s`, in their order, each with the nesting count it got. -/
def grantedOrder (t : List (KernEvent P S)) (s : S) : List (P × ℤ) :=
  t.filterMap (fun
    | .granted p s' n => if s' = s then some (p, n) else none
    | _ => none)

theorem acquired_append (t e : List (KernEvent P S)) (p : P) (s : S) :
    acquired (t ++ e) p s = acquired t p s + acquired e p s := by
  simp only [acquired, count_append, countP_append]
  omega

section
omit [DecidableEq P]

theorem blockedOrder_append (t e : List (KernEvent P S)) (s : S) :
    blockedOrder (t ++ e) s = blockedOrder t s ++ blockedOrder e s :=
  filterMap_append

theorem grantedOrder_append (t e : List (KernEvent P S)) (s : S) :
    grantedOrder (t ++ e) s = grantedOrder t s ++ grantedOrder e s :=
  filterMap_append

end

/-! ## The invariant -/

/-- Waiting for `s`, from `ADDTAIL` until `sem_obtain` returns. -/
def Pc.waits (s : S) : Pc P S → Bool
  | .obtainQueued s' | .obtainSwitch s' | .obtainAsleep s' => s' = s
  | _ => false

/-- Holding `s` in a call that has not returned. -/
def Pc.holds (s : S) : Pc P S → Bool
  | .obtainLocked s' | .attemptDone s' true => s' = s
  | _ => false

omit [DecidableEq P] in
@[grind →] theorem Pc.holds_of_waits {pc : Pc P S} (h : pc.waits s = true) : pc.holds s = false := by
  cases pc <;> simp_all [waits, holds]

/-- The semaphore that the next step of the process locks, if it is free or the process has it. -/
def Pc.lockTarget : Pc P S → Option S
  | .obtainVerify s | .attemptVerify s => some s
  | _ => none

/-- `p` has got `s` in a call that has not returned. -/
def Kernel.pending (k : Kernel P S) (p : P) (s : S) : Prop :=
  (k.proc p).pc.holds s = true ∨ (k.proc p).pc.waits s = true ∧ p ∉ (k.sem s).waitQueue

instance (k : Kernel P S) (p : P) (s : S) : Decidable (k.pending p s) :=
  inferInstanceAs (Decidable (_ ∨ _))

/-- The state of a semaphore, and where the processes stand that wait for it or release it. -/
structure SemShape (k : Kernel P S) (s : S) : Prop where
  owner_iff : (k.sem s).owner = none ↔ (k.sem s).nestCount = 0
  nonneg : 0 ≤ (k.sem s).nestCount
  fits : (k.sem s).nestCount ≤ 2147483647
  queue : (k.sem s).owner = none → (k.sem s).waitQueue = []
  owner_out : ∀ p, (k.sem s).owner = some p → p ∉ (k.sem s).waitQueue
  waiting : ∀ p ∈ (k.sem s).waitQueue, (k.proc p).pc.waits s = true
  releasing : ∀ p, (k.proc p).pc = .releaseVerify s → (k.sem s).owner = some p

/-- The state of a semaphore is what the events of the run say. -/
structure SemLog (k : Kernel P S) (t : List (KernEvent P S)) (s : S) : Prop where
  held : ∀ p, (acquired t p s : ℤ) =
    t.count (.released p s) + if (k.sem s).owner = some p then (k.sem s).nestCount else 0
  returned : ∀ p, acquired t p s = t.count (.returned p s) + if k.pending p s then 1 else 0
  fifo : blockedOrder t s = (grantedOrder t s).map Prod.fst ++ (k.sem s).waitQueue
  ones : ∀ g ∈ grantedOrder t s, g.2 = 1

/-- **The invariant of one semaphore.** -/
structure SemInv (k : Kernel P S) (t : List (KernEvent P S)) (s : S) : Prop where
  shape : SemShape k s
  log : SemLog k t s

/-! ## Steps that leave the semaphores alone -/

/-- The events say nothing about `s`. -/
structure SemSilent (e : List (KernEvent P S)) (s : S) : Prop where
  acquired : ∀ p, acquired e p s = 0
  released : ∀ p, e.count (.released p s) = 0
  returned : ∀ p, e.count (.returned p s) = 0
  blocked : blockedOrder e s = []
  granted : grantedOrder e s = []

/-- The semaphore `s` does not change, and no process enters or leaves a wait for it or a lock of it. -/
structure SemQuiet (k k' : Kernel P S) (s : S) : Prop where
  sem : k'.sem s = k.sem s
  waits : ∀ p, (k'.proc p).pc.waits s = (k.proc p).pc.waits s
  holds : ∀ p, (k'.proc p).pc.holds s = (k.proc p).pc.holds s
  releasing : ∀ p, (k'.proc p).pc = .releaseVerify s → (k.proc p).pc = .releaseVerify s ∨ (k.sem s).owner = some p

omit [DecidableEq P] in
theorem SemShape.quiet (h : SemShape k s) (hq : SemQuiet k k' s) : SemShape k' s := by
  obtain ⟨hiff, hpos, hfits, hqueue, hout, hwaiting, hreleasing⟩ := h
  obtain ⟨hsem, hwaits, hholds, hrel⟩ := hq
  constructor <;> grind

/-- The log goes on with the events `e`, which say what has become of the semaphore. -/
theorem SemLog.extend (h : SemLog k t s)
    (hheld : ∀ y, (acquired e y s : ℤ) + (if (k.sem s).owner = some y then (k.sem s).nestCount else 0) =
      e.count (.released y s) + if (k'.sem s).owner = some y then (k'.sem s).nestCount else 0)
    (hret : ∀ y, acquired e y s + (if k.pending y s then 1 else 0) =
      e.count (.returned y s) + if k'.pending y s then 1 else 0)
    (hfifo : (k.sem s).waitQueue ++ blockedOrder e s = (grantedOrder e s).map Prod.fst ++ (k'.sem s).waitQueue)
    (hones : ∀ g ∈ grantedOrder e s, g.2 = 1) : SemLog k' (t ++ e) s := by
  refine ⟨fun y => ?_, fun y => ?_, ?_, fun g hg => ?_⟩
  · have hy := h.held y
    have hy' := hheld y
    rw [acquired_append, count_append]
    omega
  · have hy := h.returned y
    have hy' := hret y
    rw [acquired_append, count_append]
    omega
  · rw [blockedOrder_append, grantedOrder_append, h.fifo, append_assoc, hfifo, map_append, append_assoc]
  · rw [grantedOrder_append] at hg
    exact (mem_append.mp hg).elim (h.ones g) (hones g)

theorem SemLog.quiet (h : SemLog k t s) (hq : SemQuiet k k' s) (he : SemSilent e s) : SemLog k' (t ++ e) s := by
  have hpend : ∀ p, k'.pending p s ↔ k.pending p s := by
    intro p
    simp only [pending, hq.sem, hq.waits, hq.holds]
  refine h.extend (fun y => ?_) (fun y => ?_) ?_ (by simp [he.granted])
  · rw [he.acquired, he.released, hq.sem]
  · rw [he.acquired, he.returned, if_congr (hpend y) rfl rfl]
  · rw [he.blocked, he.granted, hq.sem, append_nil]
    rfl

theorem SemInv.quiet (h : SemInv k t s) (hq : SemQuiet k k' s) (he : SemSilent e s) : SemInv k' (t ++ e) s :=
  ⟨h.shape.quiet hq, h.log.quiet hq he⟩

theorem SemSilent.nil : SemSilent ([] : List (KernEvent P S)) s :=
  ⟨fun _ => rfl, fun _ => rfl, fun _ => rfl, rfl, rfl⟩

theorem SemSilent.append (h : SemSilent t s) (h' : SemSilent e s) : SemSilent (t ++ e) s :=
  ⟨fun p => by rw [acquired_append, h.acquired, h'.acquired],
    fun p => by rw [count_append, h.released, h'.released],
    fun p => by rw [count_append, h.returned, h'.returned],
    by rw [blockedOrder_append, h.blocked, h'.blocked]; rfl, by rw [grantedOrder_append, h.granted, h'.granted]; rfl⟩

/-- The semaphore that an event is about. -/
def KernEvent.sem : KernEvent P S → Option S
  | .blocked _ s | .obtained _ s | .granted _ s _ | .returned _ s | .released _ s => some s
  | _ => none

theorem SemSilent.single {x : KernEvent P S} (h : x.sem ≠ some s) : SemSilent [x] s := by
  refine ⟨fun p => ?_, fun p => ?_, fun p => ?_, ?_, ?_⟩ <;> cases x <;>
    simp_all [KernEvent.sem, Bertos.acquired, blockedOrder, grantedOrder, KernEvent.isGrant]

theorem SemSilent.of_forall (h : ∀ x ∈ e, x.sem ≠ some s) : SemSilent e s := by
  induction e with
  | nil => exact .nil
  | cons x e ih =>
    exact (SemSilent.single (h x mem_cons_self)).append (ih (fun y hy => h y (mem_cons_of_mem x hy)))

/-! ## The calls -/

section
variable {pc : Pc P S}

attribute [grind =] Kernel.semLock Kernel.ownedByOther Kernel.pending Pc.waits Pc.holds

section
omit [DecidableEq P]

/-- Below the largest `int` the count does not wrap. -/
theorem SemShape.nest_add_one (h : SemShape k s) (hn : (k.sem s).nestCount < 2147483647) :
    toSigned 32 ((k.sem s).nestCount + 1) = (k.sem s).nestCount + 1 := by
  have hpos := h.nonneg
  exact toSigned_of_range (by decide) (by omega) (by omega)

theorem SemShape.nest_sub_one (h : SemShape k s) :
    toSigned 32 ((k.sem s).nestCount - 1) = (k.sem s).nestCount - 1 := by
  have hpos := h.nonneg
  have hfits := h.fits
  exact toSigned_of_range (by decide) (by omega) (by omega)

end

theorem SemShape.lock (h : SemShape k s) (hn : (k.sem s).nestCount < 2147483647) (hown : ¬ k.ownedByOther p s)
    (hw : (k.proc p).pc.waits s = false) (hr : pc ≠ .releaseVerify s) : SemShape ((k.semLock p s).setPc p pc) s := by
  have hadd := h.nest_add_one hn
  obtain ⟨hiff, hpos, hfits, hqueue, hout, hwaiting, hreleasing⟩ := h
  constructor <;> grind

/-- Taking a semaphore that no other process owns. -/
theorem SemLog.lock (h : SemLog k t s) (hs : SemShape k s) (hn : (k.sem s).nestCount < 2147483647)
    (hown : ¬ k.ownedByOther p s) (hw : (k.proc p).pc.waits s = false) (hh : (k.proc p).pc.holds s = false)
    (hh' : pc.holds s = true) : SemLog ((k.semLock p s).setPc p pc) (t ++ [.obtained p s]) s := by
  have hadd := hs.nest_add_one hn
  have hev : ∀ y, acquired [obtained p s] y s = if y = p then 1 else 0 := by
    intro y
    simp [acquired, isGrant]
    grind
  have hfree := hs.owner_iff
  refine h.extend (fun y => ?_) (fun y => ?_) ?_ (by simp [grantedOrder])
  · rw [hev]
    grind
  · rw [hev]
    grind
  · simp [blockedOrder, grantedOrder]
    grind

/-- The state in which `p` has been appended to the queue of `s`. -/
def Kernel.semBlock (k : Kernel P S) (p : P) (s : S) : Kernel P S :=
  (k.setSem s { k.sem s with waitQueue := (k.sem s).waitQueue ++ [p] }).setPc p (.obtainQueued s)

theorem SemShape.block (h : SemShape k s) (hown : k.ownedByOther p s) : SemShape (k.semBlock p s) s := by
  obtain ⟨hiff, hpos, hfits, hqueue, hout, hwaiting, hreleasing⟩ := h
  unfold semBlock
  constructor <;> grind

theorem SemLog.block (h : SemLog k t s) (hw : (k.proc p).pc.waits s = false)
    (hh : (k.proc p).pc.holds s = false) : SemLog (k.semBlock p s) (t ++ [.blocked p s]) s := by
  have hev : ∀ y, acquired [blocked p s] y s = 0 := fun _ => by simp [acquired, isGrant]
  refine h.extend (fun y => ?_) (fun y => ?_) ?_ (by simp [grantedOrder])
  · rw [hev]
    grind [semBlock]
  · rw [hev]
    grind [semBlock]
  · simp [blockedOrder, grantedOrder, semBlock, setSem]

theorem SemShape.release {b : Semaphore P} (h : SemShape k s) (hown : (k.sem s).owner = some p)
    (hn : b.nestCount = (k.sem s).nestCount - 1) (hq : b.waitQueue = (k.sem s).waitQueue)
    (ho : b.owner = if b.nestCount = 0 then none else some p) (hw : b.nestCount = 0 → b.waitQueue = [])
    (hr : pc ≠ .releaseVerify s) : SemShape ((k.setSem s b).setPc p pc) s := by
  obtain ⟨hiff, hpos, hfits, hqueue, hout, hwaiting, hreleasing⟩ := h
  constructor <;> grind

theorem SemLog.release {b : Semaphore P} (h : SemLog k t s) (hown : (k.sem s).owner = some p)
    (hn : b.nestCount = (k.sem s).nestCount - 1) (hq : b.waitQueue = (k.sem s).waitQueue)
    (ho : b.owner = if b.nestCount = 0 then none else some p)
    (hpw : (k.proc p).pc = .releaseVerify s) (hw' : pc.waits s = false) (hh' : pc.holds s = false) :
    SemLog ((k.setSem s b).setPc p pc) (t ++ [.released p s]) s := by
  have hev : ∀ y, acquired [released p s] y s = 0 := fun _ => by simp [acquired, isGrant]
  refine h.extend (fun y => ?_) (fun y => ?_) ?_ (by simp [grantedOrder])
  · rw [hev]
    grind
  · rw [hev]
    grind
  · simp [blockedOrder, grantedOrder, setSem, hq]

/-- The state in which the `sem_release` of `p` has given `s` to `q`, the first process of the queue. -/
def Kernel.semGrant (k : Kernel P S) (p q : P) (s : S) (r : List P) : Kernel P S :=
  (k.setSem s { owner := some q, waitQueue := r, nestCount := 1 }).setPc p (.releaseDone s (some q))

/-- The owner releases the semaphore, and the first process of the queue gets it. -/
theorem SemShape.grant {r : List P} (h : SemShape k s) (hown : (k.sem s).owner = some p)
    (hq : (k.sem s).waitQueue = q :: r) (hnd : (q :: r).Nodup) : SemShape (k.semGrant p q s r) s := by
  obtain ⟨hiff, hpos, hfits, hqueue, hout, hwaiting, hreleasing⟩ := h
  constructor <;> grind [semGrant]

/-- The last release grants the semaphore to the first waiter. -/
theorem SemLog.grant {r : List P} (h : SemLog k t s) (hs : SemShape k s) (hown : (k.sem s).owner = some p)
    (hn : (k.sem s).nestCount = 1) (hq : (k.sem s).waitQueue = q :: r) (hnd : (q :: r).Nodup)
    (hpc : (k.proc p).pc = .releaseVerify s) :
    SemLog (k.semGrant p q s r) (t ++ [.released p s, .granted q s 1]) s := by
  have hout := hs.owner_out p hown
  have hwq := hs.waiting q
  have hev : ∀ y, acquired [released p s, .granted q s 1] y s = if y = q then 1 else 0 := by
    intro y
    simp [acquired, isGrant]
    grind
  refine h.extend (fun y => ?_) (fun y => ?_) ?_ (by simp [grantedOrder])
  · rw [hev]
    grind [semGrant]
  · rw [hev]
    grind [semGrant]
  · simp [blockedOrder, grantedOrder, semGrant, setSem, hq]

theorem SemInv.ret (h : SemInv k t s) (hp : k.pending p s) (hsem : k'.sem = k.sem)
    (hpcs : ∀ y, (k'.proc y).pc = if y = p then .user else (k.proc y).pc) :
    SemInv k' (t ++ [.returned p s]) s := by
  obtain ⟨⟨hiff, hpos, hfits, hqueue, hout, hwaiting, hreleasing⟩, hlog⟩ := h
  have hsem : ∀ s, k'.sem s = k.sem s := congrFun hsem
  have hev : ∀ y, acquired [returned p s] y s = 0 := fun _ => by simp [acquired, isGrant]
  refine ⟨by constructor <;> grind, hlog.extend (fun y => ?_) (fun y => ?_) ?_ (by simp [grantedOrder])⟩
  · rw [hev]
    grind
  · rw [hev]
    grind
  · simp [blockedOrder, grantedOrder, hsem]

/-! ## Steps and runs -/

theorem SemQuiet.of_moved (hsem : k'.sem s = k.sem s) (hpcs : ∀ y, y ≠ p → (k'.proc y).pc = (k.proc y).pc)
    (hw : (k'.proc p).pc.waits s = (k.proc p).pc.waits s) (hh : (k'.proc p).pc.holds s = (k.proc p).pc.holds s)
    (hr : (k'.proc p).pc = .releaseVerify s → (k.proc p).pc = .releaseVerify s ∨ (k.sem s).owner = some p) :
    SemQuiet k k' s := by
  refine ⟨hsem, fun y => ?_, fun y => ?_, fun y => ?_⟩ <;> by_cases hy : y = p <;> grind

omit [DecidableEq P] in
theorem SemQuiet.of_eq (hsem : k'.sem = k.sem) (hpcs : ∀ y, (k'.proc y).pc = (k.proc y).pc) : SemQuiet k k' s :=
  ⟨by rw [hsem], fun y => by rw [hpcs], fun y => by rw [hpcs], fun y => by rw [hpcs]; exact .inl⟩

def SemAll (k : Kernel P S) (t : List (KernEvent P S)) : Prop :=
  ∀ s, SemInv k t s

namespace SemAll

/-- A step of `p` on the semaphore `s`, from a place that is in no wait and no lock: the others stay as they are. -/
theorem on {b : Semaphore P} {pc₀ : Pc P S} (h : SemAll k t) (hpc : (k.proc p).pc = pc₀) (he : ∀ x ∈ e, x.sem = some s)
    (hidle : ∀ s', pc₀.waits s' = false ∧ pc₀.holds s' = false)
    (hpc' : ∀ s', s' ≠ s → pc.waits s' = false ∧ pc.holds s' = false ∧ pc ≠ .releaseVerify s')
    (hself : SemInv ((k.setSem s b).setPc p pc) (t ++ e) s) : SemAll ((k.setSem s b).setPc p pc) (t ++ e) := by
  intro s'
  by_cases hs : s' = s
  · exact hs ▸ hself
  · refine (h s').quiet (SemQuiet.of_moved (p := p) ?_ (fun y hy => setPc_pc_of_ne hy) ?_ ?_ ?_)
      (SemSilent.of_forall (fun x hx => ?_)) <;> grind

theorem semObtain (h : SemAll k t) (hpc : (k.proc p).pc = .obtainVerify s) (hn : (k.sem s).nestCount < 2147483647) :
    SemAll (k.semObtain p s).1 (t ++ (k.semObtain p s).2) := by
  have hw : (k.proc p).pc.waits s = false := by rw [hpc]; rfl
  have hh : (k.proc p).pc.holds s = false := by rw [hpc]; rfl
  unfold Kernel.semObtain
  split
  · next hown =>
    exact h.on hpc (by simp [KernEvent.sem]) (fun _ => ⟨rfl, rfl⟩)
      (fun s' hs => ⟨by simp [waits, Ne.symm hs], rfl, by simp⟩) ⟨(h s).shape.block hown, (h s).log.block hw hh⟩
  · next hown =>
    exact h.on hpc (by simp [KernEvent.sem]) (fun _ => ⟨rfl, rfl⟩)
      (fun s' hs => ⟨rfl, by simp [holds, Ne.symm hs], by simp⟩)
      ⟨(h s).shape.lock hn hown hw (by simp), (h s).log.lock (h s).shape hn hown hw hh (by simp [holds])⟩

theorem semAttempt (h : SemAll k t) (hpc : (k.proc p).pc = .attemptVerify s) (hn : (k.sem s).nestCount < 2147483647) :
    SemAll (k.semAttempt p s).1 (t ++ (k.semAttempt p s).2) := by
  have hw : (k.proc p).pc.waits s = false := by rw [hpc]; rfl
  have hh : (k.proc p).pc.holds s = false := by rw [hpc]; rfl
  unfold Kernel.semAttempt
  split
  · refine fun s' => (h s').quiet (SemQuiet.of_moved (p := p) rfl (fun y hy => Kernel.setPc_pc_of_ne hy) ?_ ?_ ?_)
      .nil <;>
      simp [Kernel.setPc_pc, hpc, waits, holds]
  · next hown =>
    exact h.on hpc (by simp [KernEvent.sem]) (fun _ => ⟨rfl, rfl⟩)
      (fun s' hs => ⟨rfl, by simp [holds, Ne.symm hs], by simp⟩)
      ⟨(h s).shape.lock hn hown hw (by simp), (h s).log.lock (h s).shape hn hown hw hh (by simp [holds])⟩

/-- **`sem_release`** keeps the invariant of all semaphores. -/
theorem semRelease (h : SemAll k t) (hpc : (k.proc p).pc = .releaseVerify s)
    (hnd : (k.sem s).waitQueue.Nodup) : SemAll (k.semRelease p s).1 (t ++ (k.semRelease p s).2) := by
  have hown := (h s).shape.releasing p hpc
  unfold Kernel.semRelease
  rw [(h s).shape.nest_sub_one]
  dsimp only
  split
  · next hn =>
    split
    · next hq =>
      exact h.on hpc (by simp [KernEvent.sem]) (fun _ => ⟨rfl, rfl⟩) (fun _ _ => ⟨rfl, rfl, by simp⟩)
        ⟨(h s).shape.release hown rfl hq.symm (by simp [hn]) (fun _ => rfl) (by simp),
          (h s).log.release hown rfl hq.symm (by simp [hn]) hpc rfl rfl⟩
    · next q r hq =>
      rw [hq] at hnd
      exact h.on hpc (by simp [KernEvent.sem]) (fun _ => ⟨rfl, rfl⟩) (fun _ _ => ⟨rfl, rfl, by simp⟩)
        ⟨(h s).shape.grant hown hq hnd, (h s).log.grant (h s).shape hown (by omega) hq hnd hpc⟩
  · next hn =>
    exact h.on hpc (by simp [KernEvent.sem]) (fun _ => ⟨rfl, rfl⟩) (fun _ _ => ⟨rfl, rfl, by simp⟩)
      ⟨(h s).shape.release hown rfl rfl (by simp [hn, hown]) (fun h0 => absurd h0 hn) (by simp),
        (h s).log.release hown rfl rfl (by simp [hn, hown]) hpc rfl rfl⟩

/-- `p` goes from one place in its code to another; neither is in a wait or in a lock. -/
theorem goto (h : SemAll k t) (hsem : k'.sem = k.sem) (hpcs : ∀ y, y ≠ p → (k'.proc y).pc = (k.proc y).pc)
    (hw : ∀ s, (k'.proc p).pc.waits s = (k.proc p).pc.waits s)
    (hh : ∀ s, (k'.proc p).pc.holds s = (k.proc p).pc.holds s)
    (hr : ∀ s, (k'.proc p).pc = .releaseVerify s → (k.sem s).owner = some p) : SemAll k' (t ++ []) :=
  fun s => (h s).quiet (SemQuiet.of_moved (p := p) (by rw [hsem]) hpcs (hw s) (hh s) (fun hpc => .inr (hr s hpc))) .nil

theorem same (h : SemAll k t) (hsem : k'.sem = k.sem) (hpcs : ∀ y, (k'.proc y).pc = (k.proc y).pc)
    (he : ∀ x ∈ e, x.sem = none) : SemAll k' (t ++ e) :=
  fun s => (h s).quiet (SemQuiet.of_eq hsem hpcs) (SemSilent.of_forall (fun x hx => by simp [he x hx]))

/-- A call of the process `p`, which releases only what it owns. -/
theorem call (cfg : KernConfig) (c : KernCall P S) (h : SemAll k t) (hpc : (k.proc p).pc = .user)
    (hnew : ∀ q, c = .new (some q) → (k.proc q).pc = .user)
    (hrel : ∀ s, c = .semRelease s → (k.sem s).owner = some p) :
    SemAll (k.call cfg p c).1 (t ++ (k.call cfg p c).2) := by
  have hfor : ∀ pc : Pc P S, (∀ s, pc.waits s = false) → (∀ s, pc.holds s = false) →
      (∀ s, pc = .releaseVerify s → (k.sem s).owner = some p) →
      SemAll ((k.procForbid cfg).setPc p pc) (t ++ []) := by
    intro pc hw hh hr
    refine h.goto (p := p) (by simp) (fun y hy => by simp [Kernel.setPc_pc, hy]) (fun s => ?_) (fun s => ?_)
      (fun s => ?_)
    · simp only [Kernel.setPc_pc, if_true, hw, hpc]
      rfl
    · simp only [Kernel.setPc_pc, if_true, hh, hpc]
      rfl
    · simp only [Kernel.setPc_pc, if_true]
      exact hr s
  cases c with
  | new q =>
    cases q with
    | none =>
      refine h.same rfl (fun _ => rfl) (fun x hx => ?_)
      obtain ⟨z, -, rfl⟩ := mem_map.mp hx
      rfl
    | some q =>
      refine h.same rfl (fun y => ?_) (fun x hx => ?_)
      · have := hnew q rfl
        by_cases hy : y = q <;>
          simp [Kernel.call, Kernel.procNew, Kernel.schedEnqueue, Kernel.setProc_proc, hy, this]
      · rcases mem_append.mp hx with hx | hx
        · obtain ⟨z, -, rfl⟩ := mem_map.mp hx
          rfl
        · rw [mem_singleton.mp hx]
          rfl
  | yield => exact h.same (by simp [Kernel.call]) (by simp [Kernel.call]) (by simp [Kernel.call])
  | exit | semObtain s | semAttempt s => exact hfor _ (fun _ => rfl) (fun _ => rfl) (by simp)
  | setPri q pri =>
    refine h.goto (p := p) (by simp [Kernel.call]) (fun y hy => Kernel.procSetPri_pc k pri hy) (fun s => ?_)
      (fun s => ?_) (fun s => ?_) <;>
      rcases Kernel.procSetPri_pc_self (p := p) (q := q) k pri with hpc' | hpc' <;>
      simp only [Kernel.call, hpc', hpc, waits, holds, reduceCtorEq, false_imp_iff]
  | sigWait sigs =>
    refine h.goto (p := p) (by simp [Kernel.call]) (fun y hy => Kernel.sigWaitSignal_pc k sigs hy) (fun s => ?_)
      (fun s => ?_) (fun s => ?_) <;>
      rcases Kernel.sigWaitSignal_pc_self (p := p) cfg k sigs with hpc' | hpc' <;>
      simp only [Kernel.call, hpc', hpc, waits, holds, reduceCtorEq, false_imp_iff]
  | sigSend q sigs | sigPost q sigs =>
    exact h.same (by simp [Kernel.call]) (Kernel.sigSignal_pc k sigs _) (by simp [Kernel.call])
  | semRelease s =>
    refine hfor _ (fun _ => rfl) (fun _ => rfl) ?_
    rintro s' ⟨⟩
    exact hrel s rfl

theorem ret (h : SemAll k t) (hp : k.pending p s) (hw : ∀ s', s' ≠ s → (k.proc p).pc.waits s' = false)
    (hh : ∀ s', s' ≠ s → (k.proc p).pc.holds s' = false) (hsem : k'.sem = k.sem)
    (hpcs : ∀ y, (k'.proc y).pc = if y = p then .user else (k.proc y).pc) : SemAll k' (t ++ [.returned p s]) := by
  intro s'
  by_cases hs : s' = s
  · subst hs
    exact (h s').ret hp hsem hpcs
  · refine (h s').quiet (SemQuiet.of_moved (p := p) (by rw [hsem]) (fun y hy => by rw [hpcs, if_neg hy]) ?_ ?_ ?_)
      (SemSilent.single (by simpa [KernEvent.sem] using Ne.symm hs))
    · rw [hpcs, if_pos rfl, hw s' hs]
      rfl
    · rw [hpcs, if_pos rfl, hh s' hs]
      rfl
    · simp [hpcs]

/-- The process `p` goes on in the middle of a call. -/
theorem resume (h : SemAll k t) (hk : KernInv cfg M k loc) (hp : k.current = some p)
    (hn : ∀ s, (k.proc p).pc.lockTarget = some s → (k.sem s).nestCount < 2147483647)
    (hs : k.resume cfg p = some (k', e)) : SemAll k' (t ++ e) := by
  have hpcs : ∀ y, y ≠ p → (k'.proc y).pc = (k.proc y).pc := fun y hy => Kernel.resume_pc hs hy
  revert hs
  unfold Kernel.resume
  cases hpc : (k.proc p).pc with
  | user => rintro ⟨⟩
  | obtainVerify s =>
    intro hs
    have hstep := h.semObtain hpc (hn s (by rw [hpc]; rfl))
    rwa [Option.some.inj hs] at hstep
  | attemptVerify s =>
    intro hs
    have hstep := h.semAttempt hpc (hn s (by rw [hpc]; rfl))
    rwa [Option.some.inj hs] at hstep
  | releaseVerify s =>
    intro hs
    have hstep := h.semRelease hpc (hk.placed.queue s)
    rwa [Option.some.inj hs] at hstep
  | obtainQueued s | obtainSwitch s | releaseDone s q | setPriEnqueue q =>
    rintro ⟨⟩
    apply h.goto _ hpcs <;> simp [Kernel.setPc_pc, hpc, waits, holds]
  | releaseWakeup s q =>
    cases q <;> rintro ⟨⟩ <;> apply h.goto _ hpcs <;> simp [Kernel.setPc_pc, hpc, waits, holds]
  | obtainAsleep s =>
    rintro ⟨⟩
    have hpq : p ∉ (k.sem s).waitQueue := by
      intro hq
      have := hk.placed.unique .current (.queue s) ⟨hp, by rw [hpc]; rfl⟩ hq
      cases this
    exact h.ret (.inr ⟨by simp [hpc, waits], hpq⟩) (fun s' hs' => by simp [hpc, waits, Ne.symm hs'])
      (fun s' _ => by rw [hpc]; rfl) (by simp) (Kernel.setPc_pc k p .user)
  | obtainLocked s =>
    rintro ⟨⟩
    exact h.ret (.inl (by simp [hpc, holds])) (fun s' _ => by rw [hpc]; rfl)
      (fun s' hs' => by simp [hpc, holds, Ne.symm hs']) (by simp) (by simp [Kernel.setPc_pc])
  | attemptDone s result =>
    rintro ⟨⟩
    cases result with
    | true =>
      exact h.ret (.inl (by simp [hpc, holds])) (fun s' _ => by rw [hpc]; rfl)
        (fun s' hs' => by simp [hpc, holds, Ne.symm hs']) (by simp) (by simp [Kernel.setPc_pc])
    | false => apply h.goto _ hpcs <;> simp [Kernel.setPc_pc, hpc, waits, holds]
  | sigAsleep sigs =>
    rintro ⟨⟩
    refine h.goto (by simp) hpcs (fun s => ?_) (fun s => ?_) (fun s => ?_) <;>
      rcases Kernel.sigWaitSignal_pc_self (p := p) cfg k sigs with hpc' | hpc' <;>
      simp only [hpc', hpc, waits, holds, reduceCtorEq, false_imp_iff]
  | exitForbidden =>
    rintro ⟨⟩
    refine fun s => (h s).quiet (SemQuiet.of_moved (p := p) rfl hpcs ?_ ?_ ?_)
      (SemSilent.single (by simp [KernEvent.sem])) <;>
      simp [Kernel.setPc_pc, hpc, waits, holds]

end SemAll

/-- Only the owner of a semaphore calls `sem_release`. -/
def ReleaseByOwner (k : Kernel P S) : KernAction P S → Prop
  | .call (.semRelease s) => ∀ p ∈ k.current, (k.sem s).owner = some p
  | _ => True

instance (k : Kernel P S) : (a : KernAction P S) → Decidable (ReleaseByOwner k a)
  | .call (.semRelease _) => Option.decidableForallMem k.current
  | .call (.new _) | .call .yield | .call .exit | .call (.setPri _ _) | .call (.sigWait _) | .call (.sigSend _ _)
  | .call (.sigPost _ _) | .call (.semObtain _) | .call (.semAttempt _)
  | .advance | .irqPost _ _ | .tick | .preempt => .isTrue trivial

/-- No process locks a semaphore whose nesting count is the largest `int`. -/
def NestingFits (k : Kernel P S) : KernAction P S → Prop
  | .advance => ∀ p ∈ k.current, ∀ s ∈ (k.proc p).pc.lockTarget, (k.sem s).nestCount < 2147483647
  | _ => True

instance (k : Kernel P S) : (a : KernAction P S) → Decidable (NestingFits k a)
  | .advance => Option.decidableForallMem k.current
  | .call _ | .irqPost _ _ | .tick | .preempt => .isTrue trivial

/-- **Every step keeps the invariant of the semaphores.** -/
theorem SemAll.step {a : KernAction P S} (h : SemAll k t) (hg : KernGood cfg M k t loc) (hrel : ReleaseByOwner k a)
    (hnest : NestingFits k a) (hnew : FreshNew t a) (hs : k.step cfg a = some (k', e)) : SemAll k' (t ++ e) := by
  rcases step_cases hs with ⟨p, c, rfl, hp, hpc, hr⟩ | ⟨p, rfl, hp, hr⟩ | ⟨-, hsem, hpcs, rfl⟩
  · have := h.call cfg c hpc ?_ ?_
    · rwa [hr] at this
    · rintro q rfl
      exact hg.dead q (mt (hg.tally.alive_iff q).mpr hnew)
    · rintro s rfl
      exact hrel p hp
  · exact h.resume hg.inv hp (hnest p hp) hr
  · exact h.same hsem hpcs (by simp)

theorem SemAll.boot (m : P) : SemAll (Kernel.boot m : Kernel P S) [.created m] := by
  intro s
  refine ⟨⟨by simp [Kernel.boot], by simp [Kernel.boot], by simp [Kernel.boot], by simp [Kernel.boot],
    by simp [Kernel.boot], by simp [Kernel.boot], by simp [Kernel.boot]⟩,
      ⟨fun p => ?_, fun p => ?_, rfl, by simp [grantedOrder]⟩⟩
  · simp [acquired, isGrant, Kernel.boot]
  · simp [acquired, isGrant, Kernel.boot, Kernel.pending, holds, waits]

/-- Steps of a program that releases only what it owns, and that nests at most 2^31 - 1 locks. -/
def OwnerStep (k : Kernel P S) (a : KernAction P S) : Prop :=
  ReleaseByOwner k a ∧ NestingFits k a

instance (k : Kernel P S) (a : KernAction P S) : Decidable (OwnerStep k a) :=
  inferInstanceAs (Decidable (_ ∧ _))

/-- **The invariant of the semaphores holds along every run** of the cooperative kernel in which only owners release
and the nesting counts do not wrap. -/
theorem KernRun.semAll (hc : cfg.preempt = false) (h : KernRun cfg OwnerStep k t) : SemAll k t := by
  induction h with
  | boot m => exact SemAll.boot m
  | step h' hok hnew hs ih =>
    obtain ⟨loc, hg⟩ := h'.good (fun _ _ _ hp => by simp [hc] at hp) (fun _ a _ => MasksIn.trivial a)
    exact ih.step hg hok.1 hok.2 hnew hs

/-- **Recursive mutual exclusion with FIFO hand-over.** In every state of a run of the cooperative kernel in which only
owners call `sem_release` and no nesting count wraps: a semaphore is free exactly when its nesting count is zero;
processes wait only for a semaphore that has an owner, and the owner does not wait; the owner has locked it `nestCount`
times more than it has released it; a process that returned with the semaphore more often than it released it is the
owner; and the processes that blocked were given the semaphore in the order in which they blocked, with a nesting count
of one. -/
theorem coop_semaphore (hc : cfg.preempt = false) (h : KernRun cfg OwnerStep k t) (s : S) :
    ((k.sem s).owner = none ↔ (k.sem s).nestCount = 0) ∧
      ((k.sem s).waitQueue ≠ [] → (k.sem s).owner ≠ none) ∧
      (∀ p, (k.sem s).owner = some p → p ∉ (k.sem s).waitQueue ∧
        (acquired t p s : ℤ) - t.count (.released p s) = (k.sem s).nestCount) ∧
      (∀ p, t.count (.released p s) < t.count (.returned p s) → (k.sem s).owner = some p) ∧
      blockedOrder t s = (grantedOrder t s).map Prod.fst ++ (k.sem s).waitQueue ∧
      ∀ g ∈ grantedOrder t s, g.2 = 1 := by
  have hinv := h.semAll hc s
  refine ⟨hinv.shape.owner_iff, fun hq ho => hq (hinv.shape.queue ho), fun p hp => ⟨hinv.shape.owner_out p hp, ?_⟩,
    fun p hp => ?_, hinv.log.fifo, hinv.log.ones⟩
  · have := hinv.log.held p
    rw [if_pos hp] at this
    omega
  · by_contra ho
    have hheld := hinv.log.held p
    have hret := hinv.log.returned p
    rw [if_neg ho] at hheld
    omega

/-! ## The nesting count wraps -/

/-- A round of `sem_obtain` on a semaphore that no other process has: the count goes up by one, as an `int`. -/
theorem KernRun.relock {q : ℕ} (h : KernRun ⟨false, q⟩ ReleaseByOwner k t) (hp : k.current = some p)
    (hcpu : k.cpu = .running) (hpc : (k.proc p).pc = .user) (hown : ¬ k.ownedByOther p s) :
    ∃ k' t', KernRun ⟨false, q⟩ ReleaseByOwner k' t' ∧ k'.current = some p ∧ k'.cpu = .running ∧
      (k'.proc p).pc = .user ∧ (k'.sem s).owner = some p ∧
      (k'.sem s).nestCount = toSigned 32 ((k.sem s).nestCount + 1) := by
  have hcall : k.step ⟨false, q⟩ (.call (.semObtain s)) = some (k.setPc p (.obtainVerify s), []) := by
    simp [Kernel.step, hcpu, hp, hpc, Kernel.call, procForbid]
  obtain ⟨k₁, hk₁⟩ : ∃ k₁, k₁ = k.setPc p (.obtainVerify s) := ⟨_, rfl⟩
  have hlock : k₁.step ⟨false, q⟩ .advance = some ((k₁.semLock p s).setPc p (.obtainLocked s), [.obtained p s]) := by
    have hown₁ : ¬ k₁.ownedByOther p s := hk₁ ▸ hown
    have hpc₁ : (k₁.proc p).pc = .obtainVerify s := by simp [hk₁, setPc_pc]
    have hcur : k₁.cpu = .running ∧ k₁.current = some p := hk₁ ▸ ⟨hcpu, hp⟩
    simp [Kernel.step, Kernel.advance, hcur, Kernel.resume, hpc₁, Kernel.semObtain, hown₁]
  obtain ⟨k₂, hk₂⟩ : ∃ k₂, k₂ = (k₁.semLock p s).setPc p (.obtainLocked s) := ⟨_, rfl⟩
  have hret : k₂.step ⟨false, q⟩ .advance = some (k₂.setPc p .user, [.returned p s]) := by
    have hpc₂ : (k₂.proc p).pc = .obtainLocked s := by simp [hk₂, setPc_pc]
    have hcur : k₂.cpu = .running ∧ k₂.current = some p := by subst hk₂ hk₁; exact ⟨hcpu, hp⟩
    simp [Kernel.step, Kernel.advance, hcur, Kernel.resume, hpc₂, procPermit]
  rw [← hk₁] at hcall
  rw [← hk₂] at hlock
  have hrun := ((h.step (a := .call (.semObtain s)) trivial trivial hcall).step (a := .advance) trivial trivial
    hlock).step (a := .advance) trivial trivial hret
  refine ⟨_, _, hrun, ?_⟩
  subst hk₂ hk₁
  exact ⟨hp, hcpu, by simp [setPc_pc], by simp [semLock, setSem], by simp [semLock, setSem]⟩

/-- A process that calls `sem_obtain` again and again brings the count to every `int`. -/
theorem KernRun.nested (m : P) (s : S) (n : ℕ) :
    ∃ k t, KernRun ⟨false, 0⟩ ReleaseByOwner k t ∧ k.current = some m ∧ k.cpu = .running ∧ (k.proc m).pc = .user ∧
      (k.sem s).owner = some m ∧ (k.sem s).nestCount = toSigned 32 (n + 1) := by
  induction n with
  | zero => exact (KernRun.boot m).relock rfl rfl rfl (by simp [ownedByOther, Kernel.boot])
  | succ n ih =>
    obtain ⟨k, t, hr, hp, hcpu, hpc, ho, hn⟩ := ih
    obtain ⟨k', t', hr', hp', hcpu', hpc', ho', hn'⟩ := hr.relock hp hcpu hpc (s := s) (by simp [ownedByOther, ho])
    refine ⟨k', t', hr', hp', hcpu', hpc', ho', ?_⟩
    rw [hn', hn, toSigned_add_left]
    push_cast
    rfl

end

end

/-- Process `true` waits while process `false` locks once more and then releases twice. -/
def contendedRelock : List (KernAction Bool Unit) :=
  [.call (.new (some true)), .call (.semObtain ()), .advance, .advance, .call .yield, .call (.semObtain ()), .advance,
    .advance, .advance, .call (.semObtain ()), .advance, .advance, .call (.semRelease ()), .advance, .advance,
    .advance, .call (.semRelease ()), .advance, .advance, .advance, .advance]

theorem contendedRelock_runs :
    ((Kernel.boot false).exec ⟨false, 0⟩ OwnerStep [.created false] contendedRelock).isSome := by
  decide

theorem coop_semaphore_contendedRelock :
    ∃ (k : Kernel Bool Unit) (t : List (KernEvent Bool Unit)),
      KernRun ⟨false, 0⟩ OwnerStep k t ∧ t.count (.returned true ()) = 1 ∧
        (t.count (.released true ()) < t.count (.returned true ()) → (k.sem ()).owner = some true) := by
  have hrun := (KernRun.boot false).exec (Option.some_get contendedRelock_runs).symm
  exact ⟨_, _, hrun, by decide, (coop_semaphore rfl hrun ()).2.2.2.1 true⟩

/-- After 2^32 nested calls of `sem_obtain` the semaphore has an owner and its count is zero. -/
theorem nesting_wraps :
    ∃ (k : Kernel Unit Unit) (t : List (KernEvent Unit Unit)),
      KernRun ⟨false, 0⟩ ReleaseByOwner k t ∧ (k.sem ()).owner = some () ∧ (k.sem ()).nestCount = 0 := by
  obtain ⟨k, t, hr, -, -, -, ho, hn⟩ := KernRun.nested () () 4294967295
  exact ⟨k, t, hr, ho, hn.trans (by decide)⟩

end Bertos
