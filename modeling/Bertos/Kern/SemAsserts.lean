import Bertos.Kern.SemInv

/-!
# The assertions of the semaphores

`sem_verify`, `sem_obtain` and `sem_release` (`kern/sem.c`) assert what they expect of a semaphore. In a legal program,
which releases only what it owns and nests fewer than 128 locks, one of them can fail: `sem_obtain` expects an empty
queue whenever it does not block, and a process that locks its own semaphore again does not block while others may be
waiting. That is the only case (`sem_asserts_iff`).
-/

namespace Bertos

open Kernel Pc

section
variable {P S : Type} [DecidableEq P] [DecidableEq S] {cfg : KernConfig} {M : UInt8 → Prop} {k k' : Kernel P S}
  {loc : P → Option (KernPlace P S)} {p q : P} {s : S} {t e : List (KernEvent P S)}

/-- The assertions that the current process is about to check. -/
def Kernel.AssertsHold (k : Kernel P S) : Prop :=
  ∀ p ∈ k.current,
    match (k.proc p).pc with
    | .attemptVerify s => k.semVerify s
    | .obtainVerify s => k.semVerify s ∧ (¬ k.ownedByOther p s → (k.sem s).waitQueue = [])
    | .releaseVerify s => k.semVerify s ∧ (k.sem s).owner = some p
    | _ => True

/-- A legal program: only the owner releases, and it nests fewer than 128 locks. -/
def LegalSem (k : Kernel P S) : KernAction P S → Prop
  | .call (.semRelease s) => ∀ p ∈ k.current, (k.sem s).owner = some p
  | .call (.semObtain s) | .call (.semAttempt s) =>
    ∀ p ∈ k.current, (k.sem s).owner = some p → (k.sem s).nestCount + 1 < 128
  | _ => True

/-- A process locks its own semaphore again only while no other process waits for it. -/
def RelockAlone (k : Kernel P S) : KernAction P S → Prop
  | .call (.semObtain s) => ∀ p ∈ k.current, (k.sem s).owner = some p → (k.sem s).waitQueue = []
  | _ => True

instance (k : Kernel P S) : (a : KernAction P S) → Decidable (LegalSem k a)
  | .call (.semRelease _) | .call (.semObtain _) | .call (.semAttempt _) => Option.decidableForallMem k.current
  | .call (.new _) | .call .yield | .call .exit | .call (.setPri _ _) | .call (.sigWait _) | .call (.sigSend _ _)
  | .call (.sigPost _ _) | .advance | .irqPost _ _ | .tick | .preempt => .isTrue trivial

instance (k : Kernel P S) : (a : KernAction P S) → Decidable (RelockAlone k a)
  | .call (.semObtain _) => Option.decidableForallMem k.current
  | .call (.new _) | .call .yield | .call .exit | .call (.setPri _ _) | .call (.sigWait _) | .call (.sigSend _ _)
  | .call (.sigPost _ _) | .call (.semAttempt _) | .call (.semRelease _)
  | .advance | .irqPost _ _ | .tick | .preempt => .isTrue trivial

omit [DecidableEq P] [DecidableEq S] in
theorem LegalSem.releaseByOwner {a : KernAction P S} (h : LegalSem k a) : ReleaseByOwner k a := by
  unfold ReleaseByOwner
  split
  · exact h
  · trivial

/-! ## What holds before a semaphore is checked -/

/-- The nesting counts are in range, and stay so when the calls in progress go on. -/
structure SemSafe (k : Kernel P S) : Prop where
  bound : ∀ s, (k.sem s).nestCount < 128
  nest : ∀ p s, (k.proc p).pc = .obtainVerify s ∨ (k.proc p).pc = .attemptVerify s →
    (k.sem s).owner = some p → (k.sem s).nestCount + 1 < 128
  alone : ∀ p s, (k.proc p).pc = .obtainVerify s → (k.sem s).owner = some p → (k.sem s).waitQueue = []

/-- About to check a semaphore in order to lock it. -/
def Pc.locks : Pc P S → Bool
  | .obtainVerify _ | .attemptVerify _ => true
  | _ => false

section
omit [DecidableEq P] [DecidableEq S]

theorem Pc.locks_of_eq {pc : Pc P S} (h : pc = .obtainVerify s ∨ pc = .attemptVerify s) :
    pc.locks = true := by
  rcases h with rfl | rfl <;> rfl

theorem SemSafe.of_not_locks (hb : ∀ s, (k.sem s).nestCount < 128) (hl : ∀ p, (k.proc p).pc.locks = false) :
    SemSafe k := by
  constructor <;> grind [locks]

/-- The semaphores are the same, and a process that is about to lock was so before, or the lock is one that the
invariant allows. -/
theorem SemSafe.mono (h : SemSafe k) (hsem : k'.sem = k.sem)
    (hpcs : ∀ y, (k'.proc y).pc.locks = true → (k'.proc y).pc = (k.proc y).pc ∨
      ∀ s, (k'.proc y).pc = .obtainVerify s ∨ (k'.proc y).pc = .attemptVerify s → (k.sem s).owner = some y →
        (k.sem s).nestCount + 1 < 128 ∧ ((k'.proc y).pc = .obtainVerify s → (k.sem s).waitQueue = [])) :
    SemSafe k' := by
  obtain ⟨hb, hn, ha⟩ := h
  constructor <;> rw [hsem]
  · exact hb
  · intro p s hp ho
    have := hpcs p (locks_of_eq hp)
    grind
  · intro p s hp ho
    have := hpcs p (locks_of_eq (.inl hp))
    grind

theorem Pc.locks_of_suspended {pc : Pc P S} (h : pc.suspended cfg = true) : pc.locks = false := by
  cases pc <;> simp_all [suspended, locks]

end

/-! ## Steps and runs -/

namespace Kernel

section
omit [DecidableEq S]

theorem call_sem (cfg : KernConfig) (k : Kernel P S) (p : P) (c : KernCall P S) : (k.call cfg p c).1.sem = k.sem := by
  cases c with
  | new q => cases q <;> rfl
  | _ => simp [call]

/-- The process that makes a call is about to lock only if the call is `sem_obtain` or `sem_attempt`. -/
theorem call_locks (cfg : KernConfig) {c : KernCall P S} (hpc : (k.proc p).pc = .user)
    (ho : ∀ s, c ≠ .semObtain s) (ha : ∀ s, c ≠ .semAttempt s) :
    (((k.call cfg p c).1).proc p).pc.locks = false := by
  cases c with
  | new q =>
    cases q with
    | none => simp [call, procNew, procFreeZombies, hpc, locks]
    | some q =>
      by_cases hq : p = q
      · simp [call, procNew, schedEnqueue, setProc_proc, hq, locks]
      · simp [call, procNew, schedEnqueue, setProc_proc, hq, hpc, locks]
  | yield => simp [call, hpc, locks]
  | exit | semRelease s => simp [call, setPc_pc, locks]
  | setPri q pri => rcases procSetPri_pc_self (p := p) (q := q) k pri with h | h <;> simp [call, h, hpc, locks]
  | sigWait sigs => rcases sigWaitSignal_pc_self (p := p) cfg k sigs with h | h <;> simp [call, h, locks]
  | sigSend q sigs | sigPost q sigs => simp [call, sigSignal_pc, hpc, locks]
  | semObtain s => exact absurd rfl (ho s)
  | semAttempt s => exact absurd rfl (ha s)

end

/-- A process that ran on is not about to lock. -/
theorem resume_locks (hs : k.resume cfg p = some (k', e)) : (k'.proc p).pc.locks = false := by
  revert hs
  unfold resume
  cases hpc : (k.proc p).pc with
  | obtainVerify s =>
    unfold semObtain
    dsimp only
    split <;> rintro ⟨⟩ <;> simp [setPc_pc, locks]
  | attemptVerify s =>
    unfold semAttempt
    dsimp only
    split <;> rintro ⟨⟩ <;> simp [setPc_pc, locks]
  | releaseVerify s =>
    unfold semRelease
    dsimp only
    split
    · split <;> rintro ⟨⟩ <;> simp [setPc_pc, locks]
    · rintro ⟨⟩
      simp [setPc_pc, locks]
  | sigAsleep sigs =>
    rintro ⟨⟩
    rcases sigWaitSignal_pc_self (p := p) cfg k sigs with h | h <;> simp [h, locks]
  | releaseWakeup s q => cases q <;> rintro ⟨⟩ <;> simp [setPc_pc, locks]
  | _ => rintro ⟨⟩ <;> simp [setPc_pc, locks]

end Kernel

namespace SemSafe

omit [DecidableEq P] [DecidableEq S] in
/-- The counts are far from the largest `int`. -/
theorem nestingFits (h : SemSafe k) (a : KernAction P S) : NestingFits k a := by
  unfold NestingFits
  split
  · intro p _ s _
    have := h.bound s
    omega
  · trivial

omit [DecidableEq P] in
theorem lock_bound (h : SemSafe k) (hinv : SemShape k s) (hown : ¬ k.ownedByOther p s)
    (hpc : (k.proc p).pc = .obtainVerify s ∨ (k.proc p).pc = .attemptVerify s) (s' : S) :
    ((k.semLock p s).sem s').nestCount < 128 := by
  have hnest := h.nest p s hpc
  have hfree := hinv.owner_iff
  have hadd := hinv.nest_add_one (by have := h.bound s; omega)
  have hb := h.bound s'
  grind

/-- The nesting count stays below 128. -/
theorem resume_bound (h : SemSafe k) (hinv : SemAll k t) (hs : k.resume cfg p = some (k', e)) (s' : S) :
    (k'.sem s').nestCount < 128 := by
  revert hs
  unfold resume
  have hb := h.bound s'
  cases hpc : (k.proc p).pc with
  | obtainVerify s =>
    unfold semObtain
    dsimp only
    split
    · rintro ⟨⟩
      grind
    · next hown =>
      rintro ⟨⟩
      exact h.lock_bound (hinv s).shape hown (.inl hpc) s'
  | attemptVerify s =>
    unfold semAttempt
    dsimp only
    split
    · rintro ⟨⟩
      exact hb
    · next hown =>
      rintro ⟨⟩
      exact h.lock_bound (hinv s).shape hown (.inr hpc) s'
  | releaseVerify s =>
    have hle : ∀ b : Semaphore P, b.nestCount < 128 → ((k.setSem s b).sem s').nestCount < 128 := by grind
    have hn : (k.sem s).nestCount - 1 < 128 := by
      have := h.bound s
      omega
    unfold semRelease
    dsimp only
    rw [(hinv s).shape.nest_sub_one]
    split
    · split <;> rintro ⟨⟩
      · exact hle _ hn
      · exact hle _ (by simp)
    · rintro ⟨⟩
      exact hle _ hn
  | releaseWakeup s q => cases q <;> rintro ⟨⟩ <;> simpa using hb
  | _ => rintro ⟨⟩ <;> simpa using hb

omit [DecidableEq S] in
/-- A call of a legal program that does not lock a semaphore again for which another process waits. -/
theorem call (cfg : KernConfig) {c : KernCall P S} (h : SemSafe k) (hp : k.current = some p)
    (hpc : (k.proc p).pc = .user)
    (hl : LegalSem k (.call c)) (ha : RelockAlone k (.call c)) : SemSafe (k.call cfg p c).1 := by
  refine h.mono (call_sem cfg k p c) fun y hlocks => ?_
  by_cases hy : y = p
  · subst hy
    cases c with
    | semObtain s =>
      refine .inr fun s' hs ho => ?_
      obtain rfl : s = s' := by simpa [call, setPc_pc] using hs
      exact ⟨hl y hp ho, fun _ => ha y hp ho⟩
    | semAttempt s =>
      refine .inr fun s' hs ho => ?_
      obtain rfl : s = s' := by simpa [call, setPc_pc] using hs
      exact ⟨hl y hp ho, fun hs => by simp [call, setPc_pc] at hs⟩
    | _ => simp [call_locks cfg hpc] at hlocks
  · rcases call_pc cfg k c hy with hy | hy
    · exact .inl hy
    · simp [hy, locks] at hlocks

/-- A step of a legal program that does not lock a semaphore again for which another process waits. -/
theorem step {a : KernAction P S} (h : SemSafe k) (hg : KernGood cfg M k t loc) (hinv : SemAll k t)
    (hl : LegalSem k a) (ha : RelockAlone k a) (hs : k.step cfg a = some (k', e)) : SemSafe k' := by
  rcases step_cases hs with ⟨p, c, rfl, hp, hpc, hr⟩ | ⟨p, rfl, hp, hr⟩ | ⟨-, hsem, hpcs, rfl⟩
  · have := h.call cfg hp hpc hl ha
    rwa [hr] at this
  · refine SemSafe.of_not_locks (h.resume_bound hinv hr) (fun y => ?_)
    by_cases hy : y = p
    · rw [hy]
      exact resume_locks hr
    · rw [resume_pc hr hy]
      refine locks_of_suspended (hg.inv.susp y ?_)
      rw [hp]
      simpa using Ne.symm hy
  · exact h.mono hsem fun y _ => .inl (hpcs y)

end SemSafe

section
omit [DecidableEq P] [DecidableEq S]

theorem SemSafe.boot (m : P) : SemSafe (Kernel.boot m : Kernel P S) :=
  ⟨by simp [Kernel.boot], by simp [Kernel.boot], by simp [Kernel.boot]⟩

theorem KernInv.waitQueueValid (h : KernInv cfg M k loc) (s : S) : k.waitQueueValid s := by
  refine ⟨h.placed.queue s, fun p hp => ⟨fun hr => ?_, fun hz => ?_, fun s' hs' hp' => ?_⟩⟩
  · cases h.placed.unique (.queue s) .ready hp hr
  · cases h.placed.unique (.queue s) .zombie hp hz
  · cases h.placed.unique (.queue s) (.queue s') hp hp'
    exact hs' rfl

end

theorem SemSafe.assertsHold (h : SemSafe k) (hk : KernInv cfg M k loc) (hinv : SemAll k t) : k.AssertsHold := by
  intro p hp
  have hver : ∀ s, k.semVerify s := fun s => ⟨hk.waitQueueValid s, (hinv s).shape.nonneg, h.bound s⟩
  split
  · exact hver _
  · next s hpc =>
    refine ⟨hver s, fun hown => ?_⟩
    have halone := h.alone p s hpc
    have hqueue := (hinv s).shape.queue
    grind
  · next s hpc => exact ⟨hver s, (hinv s).shape.releasing p hpc⟩
  · trivial

omit [DecidableEq S] in
/-- What the assertion of `sem_obtain` says about a process that locks its own semaphore again. -/
theorem Kernel.AssertsHold.queue_of_relock (h : ((k.procForbid cfg).setPc p (.obtainVerify s)).AssertsHold)
    (hp : k.current = some p) (ho : (k.sem s).owner = some p) : (k.sem s).waitQueue = [] := by
  have hcur : ((k.procForbid cfg).setPc p (.obtainVerify s)).current = some p := by
    simpa [procForbid_eq, setPc, setProc] using hp
  have hp' := h p hcur
  rw [setPc_pc, if_pos rfl] at hp'
  have hown : ¬ ((k.procForbid cfg).setPc p (.obtainVerify s)).ownedByOther p s := by
    simp [ownedByOther, ho]
  simpa using hp'.2 hown

/-- The steps of a legal program whose preemptions, if any, do not fall into the `proc_switch` of `sem_obtain`. -/
def LegalStep (cfg : KernConfig) (k : Kernel P S) (a : KernAction P S) : Prop :=
  (cfg.preempt = true → SwitchAtomic k a) ∧ LegalSem k a

instance (cfg : KernConfig) (k : Kernel P S) (a : KernAction P S) : Decidable (LegalStep cfg k a) :=
  inferInstanceAs (Decidable (_ ∧ _))

/-- The two invariants need each other: the bound keeps the counts from wrapping, and counts that have not wrapped say
who has a semaphore. -/
theorem KernRun.semSafe (h : KernRun cfg (fun k a => LegalStep cfg k a ∧ RelockAlone k a) k t) :
    SemSafe k ∧ SemAll k t := by
  induction h with
  | boot m => exact ⟨SemSafe.boot m, SemAll.boot m⟩
  | step h' hok hnew hs ih =>
    obtain ⟨loc, hg⟩ := h'.good (fun _ _ hok => hok.1.1) (fun _ a _ => MasksIn.trivial a)
    exact ⟨ih.1.step hg ih.2 hok.1.2 hok.2 hs,
      ih.2.step hg hok.1.2.releaseByOwner (ih.1.nestingFits _) hnew hs⟩

/-- **The assertions of the semaphores.** In a run of a legal program in which no process has locked its own semaphore
again while another process waited for it, all assertions hold; after one more legal step they hold exactly when that
step is not such a lock either. -/
theorem sem_asserts_iff {a : KernAction P S}
    (h : KernRun cfg (fun k a => LegalStep cfg k a ∧ RelockAlone k a) k t) (hl : LegalStep cfg k a)
    (hnew : FreshNew t a) (hs : k.step cfg a = some (k', e)) :
    k.AssertsHold ∧ (k'.AssertsHold ↔ RelockAlone k a) := by
  obtain ⟨loc, hg⟩ := h.good (fun _ _ hok => hok.1.1) (fun _ b _ => MasksIn.trivial b)
  obtain ⟨hsafe, hinv⟩ := h.semSafe
  refine ⟨hsafe.assertsHold hg.inv hinv, fun hk' => ?_, fun ha => ?_⟩
  · unfold RelockAlone
    split
    · intro p hp ho
      rcases step_cases hs with ⟨p', c, hc, hp', -, hr⟩ | ⟨_, hc, _⟩ | ⟨hc, _⟩
      · cases hc
        rw [show k.current = some p from hp] at hp'
        cases hp'
        cases hr
        exact hk'.queue_of_relock hp ho
      · cases hc
      · exact absurd rfl (hc _)
    · trivial
  · obtain ⟨loc', hg'⟩ := hg.step hl.1 (MasksIn.trivial a) hnew hs
    have hinv' := hinv.step hg hl.2.releaseByOwner (hsafe.nestingFits a) hnew hs
    exact (hsafe.step hg hinv hl.2 ha hs).assertsHold hg'.inv hinv'

end

/-- Process `true` waits for the semaphore of process `false`, which runs again. -/
def waiterAsleep : List (KernAction Bool Unit) :=
  [.call (.new (some true)), .call (.semObtain ()), .advance, .advance, .call .yield, .call (.semObtain ()), .advance,
    .advance, .advance]

theorem waiterAsleep_runs : ((Kernel.boot false).exec ⟨false, 0⟩
    (fun k a => LegalStep ⟨false, 0⟩ k a ∧ RelockAlone k a) [.created false] waiterAsleep).isSome := by
  decide

theorem sem_asserts_iff_waiter :
    ∃ (k k' : Kernel Bool Unit) (t e : List (KernEvent Bool Unit)),
      KernRun ⟨false, 0⟩ (fun k a => LegalStep ⟨false, 0⟩ k a ∧ RelockAlone k a) k t ∧
        k.step ⟨false, 0⟩ (.call (.semObtain ())) = some (k', e) ∧ k.AssertsHold ∧
        (k'.AssertsHold ↔ RelockAlone k (.call (.semObtain ()))) := by
  have hrun := (KernRun.boot false).exec (Option.some_get waiterAsleep_runs).symm
  have hsome : ((((boot false).exec ⟨false, 0⟩ (fun k a => LegalStep ⟨false, 0⟩ k a ∧ RelockAlone k a)
      [.created false] waiterAsleep).get waiterAsleep_runs).1.step ⟨false, 0⟩
        (.call (.semObtain ()))).isSome := by decide
  exact ⟨_, _, _, _, hrun, (Option.some_get hsome).symm,
    sem_asserts_iff hrun (by decide) trivial (Option.some_get hsome).symm⟩

theorem relock_runs : ((Kernel.boot false).exec ⟨false, 0⟩ (LegalStep ⟨false, 0⟩) [.created false]
    (waiterAsleep ++ [.call (.semObtain ())])).isSome := by
  decide

/-- In a legal program the owner locks its semaphore again while another process waits: the assertion fails. -/
theorem relock_assert_fails :
    ∃ (k : Kernel Bool Unit) (t : List (KernEvent Bool Unit)),
      KernRun ⟨false, 0⟩ (LegalStep ⟨false, 0⟩) k t ∧ ¬ k.AssertsHold := by
  refine ⟨_, _, (KernRun.boot false).exec (Option.some_get relock_runs).symm, fun h => ?_⟩
  have h0 := (h false rfl).2 (by decide)
  revert h0
  decide

end Bertos
