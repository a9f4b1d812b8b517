import Mathlib.Data.List.Count
import Bertos.Kern.Place

/-!
# One place for every process

Every step of the system keeps the invariant of `Bertos.Kern.Place` (`KernGood.step`, `KernRun.good`), with one
exception: a preemption of a process that stands in a wait queue and has not yet called `proc_switch`. `coop_one_place`
says when each process is at exactly one place in the cooperative kernel, `linkedOnce_iff_switchAtomic` which
preemption links a process twice.
-/

namespace Bertos

open List Kernel KernPlace Option

section
variable {P S : Type} [DecidableEq P] [DecidableEq S] {cfg : KernConfig} {M : UInt8 → Prop} {k k' : Kernel P S}
  {loc : P → Option (KernPlace P S)} {p q : P} {t e : List (KernEvent P S)}

/-! ## The steps of a process -/

/-- What happened neither creates, ends nor frees a process. -/
def Lifeless (e : List (KernEvent P S)) : Prop :=
  ∀ x, .created x ∉ e ∧ .exited x ∉ e ∧ .freed x ∉ e

/-- The invariant after a step that changes no process's life. -/
def KernInv.Kept (cfg : KernConfig) (M : UInt8 → Prop) (loc : P → Option (KernPlace P S))
    (r : Kernel P S × List (KernEvent P S)) : Prop :=
  (∃ loc', KernInv cfg M r.1 loc' ∧ SameLife loc loc') ∧ Lifeless r.2

namespace KernInv

section
variable {pc : Pc P S} (h : KernInv cfg M k loc) (hp : k.current = some p)
include h hp

section
omit [DecidableEq S]

/-- The current process enters the code between `proc_forbid` and `proc_permit`. -/
theorem forbid (hpc : (k.proc p).pc = .user)
    (hq : pc.queued = none) (hh : pc.hand = none) (ha : pc.asleep = false) (hf : pc.forbidden = true) :
    KernInv cfg M ((k.procForbid cfg).setPc p pc) loc := by
  have hcount := h.preemptCount_eq hp
  rw [procForbid_eq]
  apply h.goto hp <;> grind

/-- The current process leaves the code between `proc_forbid` and `proc_permit`. -/
theorem permit (hf : (k.proc p).pc.forbidden = true) (hq : pc.queued = (k.proc p).pc.queued)
    (hh : pc.hand = (k.proc p).pc.hand) (ha : pc.asleep = false) (hf' : pc.forbidden = false) :
    KernInv cfg M ((k.procPermit cfg).setPc p pc) loc := by
  have ha' : (k.proc p).pc.asleep = false := by
    cases hpc : (k.proc p).pc <;> simp_all [Pc.forbidden, Pc.asleep]
  have hcount := h.preemptCount_eq hp
  rw [procPermit_eq]
  apply h.goto hp <;> grind

/-- The current process goes on inside the code between `proc_forbid` and `proc_permit`, or outside of it. -/
theorem proceed (hf : pc.forbidden = (k.proc p).pc.forbidden) (hq : pc.queued = (k.proc p).pc.queued)
    (hh : pc.hand = (k.proc p).pc.hand) (ha' : (k.proc p).pc.asleep = false) (ha : pc.asleep = false) :
    KernInv cfg M (k.setPc p pc) loc := by
  refine h.goto (n := k.preemptCount) hp hq hh ha' ha (fun hc => ?_)
  rw [hf]
  exact h.preemptCount_eq hp hc

end

end

section
variable {s : S} (h : KernInv cfg M k loc)
include h

theorem lock : KernInv cfg M (k.semLock p s) loc :=
  h.setSem rfl

theorem semAttempt (hp : k.current = some p) (hpc : (k.proc p).pc = .attemptVerify s) :
    Kept cfg M loc (k.semAttempt p s) := by
  unfold Kernel.semAttempt
  split
  · refine ⟨⟨loc, ?_, .refl⟩, by simp [Lifeless]⟩
    apply h.proceed hp <;> simp [hpc, Pc.forbidden, Pc.queued, Pc.hand, Pc.asleep]
  · refine ⟨⟨loc, ?_, .refl⟩, by simp [Lifeless]⟩
    apply h.lock.proceed hp <;> simp [Kernel.semLock, hpc, Pc.forbidden, Pc.queued, Pc.hand, Pc.asleep]

theorem semObtain (hp : k.current = some p) (hpc : (k.proc p).pc = .obtainVerify s) :
    Kept cfg M loc (k.semObtain p s) := by
  have hloc : loc p = some .current := (h.placed.at_iff p .current).mp ⟨hp, by rw [hpc]; rfl⟩
  unfold Kernel.semObtain
  split
  · exact ⟨⟨_, h.block hp hpc, SameLife.refl.update (by rw [hloc]; rfl)⟩, by simp [Lifeless]⟩
  · refine ⟨⟨loc, ?_, .refl⟩, by simp [Lifeless]⟩
    apply h.lock.proceed hp <;> simp [Kernel.semLock, hpc, Pc.forbidden, Pc.queued, Pc.hand, Pc.asleep]

theorem semRelease (hp : k.current = some p) (hpc : (k.proc p).pc = .releaseVerify s) :
    Kept cfg M loc (k.semRelease p s) := by
  have hdone : ∀ b : Semaphore P, b.waitQueue = (k.sem s).waitQueue →
      KernInv cfg M ((k.setSem s b).setPc p (.releaseDone s none)) loc := by
    intro b hb
    apply (h.setSem hb).proceed hp <;> simp [hpc, Pc.forbidden, Pc.queued, Pc.hand, Pc.asleep]
  unfold Kernel.semRelease
  dsimp only
  split
  · split
    · next hw => exact ⟨⟨loc, hdone _ hw.symm, .refl⟩, by simp [Lifeless]⟩
    · next q r hw =>
      have hq : loc q = some (.queue s) := (h.placed.at_iff q (.queue s)).mp (by simp [Kernel.At, hw])
      exact ⟨⟨_, h.handOver hp hpc hw, SameLife.refl.update (by rw [hq]; rfl)⟩, by simp [Lifeless]⟩
  · exact ⟨⟨loc, hdone _ rfl, .refl⟩, by simp [Lifeless]⟩

end

section
omit [DecidableEq S]

theorem setPri {pri : ℤ} (h : KernInv cfg M k loc) (hp : k.current = some p) (hpc : (k.proc p).pc = .user) :
    KernInv cfg M (k.procSetPri p q pri) loc := by
  unfold procSetPri
  split
  · exact h
  · have hpri : KernInv cfg M (k.setProc q { k.proc q with pri := pri }) loc := h.setField rfl rfl
    split
    · exact hpri
    · have hpc' : ((k.setProc q { k.proc q with pri := pri }).proc p).pc = .user := by grind
      apply hpri.proceed hp <;> simp [hpc', Pc.forbidden, Pc.queued, Pc.hand, Pc.asleep]

/-- A call that neither creates a process nor blocks on an unwanted mask. -/
theorem call {c : KernCall P S} (h : KernInv cfg M k loc) (hp : k.current = some p) (hpc : (k.proc p).pc = .user)
    (hm : ∀ sigs, c = .sigWait sigs → M sigs) (hc : ∀ q, c ≠ .new q) : Kept cfg M loc (k.call cfg p c) := by
  have hnil : Lifeless ([] : List (KernEvent P S)) := by simp [Lifeless]
  have hsus : (k.proc p).pc.suspended cfg = true := by
    rw [hpc]
    rfl
  cases c with
  | new q => exact absurd rfl (hc q)
  | yield => exact ⟨h.yield hp hsus, hnil⟩
  | exit | semObtain s | semAttempt s | semRelease s => exact ⟨⟨loc, h.forbid hp hpc rfl rfl rfl rfl, .refl⟩, hnil⟩
  | setPri q pri => exact ⟨⟨loc, h.setPri hp hpc, .refl⟩, hnil⟩
  | sigWait sigs => exact ⟨h.sigWait hp (.inl hpc) (hm sigs rfl), hnil⟩
  | sigSend q sigs =>
    refine ⟨h.signal q sigs (some p) ?_, hnil⟩
    rintro p' ⟨⟩
    exact ⟨hp, hpc⟩
  | sigPost q sigs => exact ⟨h.signal q sigs none (by simp), hnil⟩

end

/-- The process goes on in the middle of a call, other than in `proc_exit`. -/
theorem resume (h : KernInv cfg M k loc) (hp : k.current = some p) (hpc : (k.proc p).pc ≠ .exitForbidden)
    (hs : k.resume cfg p = some (k', e)) : Kept cfg M loc (k', e) := by
  have hnil : Lifeless ([] : List (KernEvent P S)) := by simp [Lifeless]
  revert hs
  unfold Kernel.resume
  cases hpc' : (k.proc p).pc with
  | user => rintro ⟨⟩
  | obtainVerify s => exact fun hs => some.inj hs ▸ h.semObtain hp hpc'
  | attemptVerify s => exact fun hs => some.inj hs ▸ h.semAttempt hp hpc'
  | releaseVerify s => exact fun hs => some.inj hs ▸ h.semRelease hp hpc'
  | obtainQueued s | obtainLocked s | releaseDone s q =>
    rintro ⟨⟩
    refine ⟨⟨loc, ?_, .refl⟩, by simp [Lifeless]⟩
    apply h.permit hp <;> simp [hpc', Pc.forbidden, Pc.queued, Pc.hand, Pc.asleep]
  | attemptDone s result =>
    rintro ⟨⟩
    refine ⟨⟨loc, ?_, .refl⟩, by cases result <;> simp [Lifeless]⟩
    apply h.permit hp <;> simp [hpc', Pc.forbidden, Pc.queued, Pc.hand, Pc.asleep]
  | obtainSwitch s =>
    rintro ⟨⟩
    exact ⟨h.obtainSwitch hp hpc', hnil⟩
  | obtainAsleep s =>
    rintro ⟨⟩
    refine ⟨⟨loc, ?_, .refl⟩, by simp [Lifeless]⟩
    apply h.proceed hp <;> simp [hpc', Pc.forbidden, Pc.queued, Pc.hand, Pc.asleep]
  | releaseWakeup s q =>
    cases q with
    | none =>
      rintro ⟨⟩
      refine ⟨⟨loc, ?_, .refl⟩, hnil⟩
      apply h.proceed hp <;> simp [hpc', Pc.forbidden, Pc.queued, Pc.hand, Pc.asleep]
    | some q =>
      rintro ⟨⟩
      exact ⟨h.releaseWakeup hp hpc', hnil⟩
  | sigAsleep sigs =>
    rintro ⟨⟩
    exact ⟨h.sigWait hp (.inr ⟨sigs, hpc'⟩) (h.masks.mask p sigs hpc'), hnil⟩
  | exitForbidden => exact absurd hpc' hpc
  | setPriEnqueue q =>
    rintro ⟨⟩
    have hcur : (k.schedReenqueue q).current = some p := by
      unfold Kernel.schedReenqueue
      split <;> exact hp
    refine ⟨⟨loc, ?_, .refl⟩, hnil⟩
    apply h.reenqueue.proceed hcur <;> simp [hpc', Pc.forbidden, Pc.queued, Pc.hand, Pc.asleep]

end KernInv

/-! ## Where the other processes stand -/

namespace Kernel

variable {y : P}

section
omit [DecidableEq S]

theorem setPc_pc_of_ne {k : Kernel P S} {pc : Pc P S} (h : y ≠ p) : ((k.setPc p pc).proc y).pc = (k.proc y).pc := by
  rw [setPc_pc, if_neg h]

theorem sigSignal_pc (k : Kernel P S) (sigs : UInt8) (wakeup : Option P) (y : P) :
    ((k.sigSignal cfg q sigs wakeup).proc y).pc = (k.proc y).pc := by
  unfold sigSignal
  split
  · cases wakeup <;> simp [schedEnqueueHead] <;> grind
  · grind

theorem sigWaitSignal_pc (k : Kernel P S) (sigs : UInt8) (h : y ≠ p) :
    ((k.sigWaitSignal cfg p sigs).proc y).pc = (k.proc y).pc := by
  unfold sigWaitSignal
  split <;> simp [setProc_proc, h]

theorem sigWaitSignal_pc_self (cfg : KernConfig) (k : Kernel P S) (sigs : UInt8) :
    ((k.sigWaitSignal cfg p sigs).proc p).pc = .user ∨ ((k.sigWaitSignal cfg p sigs).proc p).pc = .sigAsleep sigs := by
  unfold sigWaitSignal
  split <;> simp [setProc_proc]

end

theorem semObtain_pc (k : Kernel P S) (s : S) (h : y ≠ p) : (((k.semObtain p s).1).proc y).pc = (k.proc y).pc := by
  unfold semObtain
  split <;> simp [setPc_pc_of_ne h, semLock]

theorem semAttempt_pc (k : Kernel P S) (s : S) (h : y ≠ p) : (((k.semAttempt p s).1).proc y).pc = (k.proc y).pc := by
  unfold semAttempt
  split <;> simp [setPc_pc_of_ne h, semLock]

theorem semRelease_pc (k : Kernel P S) (s : S) (h : y ≠ p) : (((k.semRelease p s).1).proc y).pc = (k.proc y).pc := by
  unfold semRelease
  dsimp only
  split <;> grind

section
omit [DecidableEq S]

theorem procSetPri_pc (k : Kernel P S) (pri : ℤ) (h : y ≠ p) : ((k.procSetPri p q pri).proc y).pc = (k.proc y).pc := by
  grind [procSetPri]

theorem procSetPri_pc_self (k : Kernel P S) (pri : ℤ) : ((k.procSetPri p q pri).proc p).pc = (k.proc p).pc ∨
    ((k.procSetPri p q pri).proc p).pc = .setPriEnqueue q := by
  grind [procSetPri]

end

/-- A process that runs on changes its own place alone. -/
theorem resume_pc (hs : k.resume cfg p = some (k', e)) (h : y ≠ p) : (k'.proc y).pc = (k.proc y).pc := by
  revert hs
  unfold resume
  split
  case h_1 => rintro ⟨⟩
  case h_2 s _ =>
    intro hs
    have hpc := semObtain_pc k s h
    rwa [some.inj hs] at hpc
  case h_7 s _ =>
    intro hs
    have hpc := semAttempt_pc k s h
    rwa [some.inj hs] at hpc
  case h_9 s _ =>
    intro hs
    have hpc := semRelease_pc k s h
    rwa [some.inj hs] at hpc
  case h_13 =>
    rintro ⟨⟩
    exact sigWaitSignal_pc k _ h
  all_goals
    rintro ⟨⟩
    simp [setPc_pc_of_ne h]

omit [DecidableEq S] in
/-- A call moves no other process in its code, except that a new process starts in the application's code. -/
theorem call_pc (cfg : KernConfig) (k : Kernel P S) (c : KernCall P S) (h : y ≠ p) :
    (((k.call cfg p c).1).proc y).pc = (k.proc y).pc ∨ (((k.call cfg p c).1).proc y).pc = .user := by
  cases c with
  | new q =>
    cases q with
    | none => exact .inl rfl
    | some q =>
      by_cases hy : y = q
      · exact .inr (by simp [call, procNew, schedEnqueue, setProc_proc, hy])
      · exact .inl (by simp [call, procNew, schedEnqueue, setProc_proc, hy])
  | yield => exact .inl (by simp [call])
  | setPri q pri => exact .inl (procSetPri_pc k pri h)
  | sigWait sigs => exact .inl (sigWaitSignal_pc k sigs h)
  | sigSend q sigs | sigPost q sigs => exact .inl (sigSignal_pc k sigs _ y)
  | _ => exact .inl (by simp [call, setPc_pc_of_ne h])

/-- A step is a call, or it goes on with a call in progress, or it moves no process in its code and leaves the
semaphores alone. -/
theorem step_cases {a : KernAction P S} (hs : k.step cfg a = some (k', e)) :
    (∃ p c, a = .call c ∧ k.current = some p ∧ (k.proc p).pc = .user ∧ k.call cfg p c = (k', e)) ∨
      (∃ p, a = .advance ∧ k.current = some p ∧ k.resume cfg p = some (k', e)) ∨
      (∀ c, a ≠ .call c) ∧ k'.sem = k.sem ∧ (∀ y, (k'.proc y).pc = (k.proc y).pc) ∧ e = [] := by
  revert hs
  unfold step
  cases a with
  | call c =>
    dsimp only
    split
    · next p _ hp =>
      split
      · next hpc => exact fun hs => .inl ⟨p, c, rfl, hp, hpc, some.inj hs⟩
      · rintro ⟨⟩
    · rintro ⟨⟩
  | advance =>
    unfold advance
    dsimp only
    split
    · intro hs
      obtain ⟨p, hp, hs⟩ := bind_eq_some_iff.mp hs
      exact .inr (.inl ⟨p, rfl, hp, hs⟩)
    · rintro ⟨⟩
      exact .inr (.inr ⟨by simp, by simp, by simp, rfl⟩)
    · rintro ⟨⟩
      exact .inr (.inr ⟨by simp, by simp, by simp, rfl⟩)
    · split
      · rintro ⟨⟩
      · rintro ⟨⟩
        exact .inr (.inr ⟨by simp, by simp, by simp, rfl⟩)
  | irqPost q sigs =>
    dsimp only
    split
    · rintro ⟨⟩
      exact .inr (.inr ⟨by simp, by simp, fun y => sigSignal_pc k sigs none y, rfl⟩)
    · rintro ⟨⟩
  | tick =>
    dsimp only
    split
    · rintro ⟨⟩
      exact .inr (.inr ⟨by simp, rfl, fun _ => rfl, rfl⟩)
    · rintro ⟨⟩
  | preempt =>
    dsimp only
    split
    · split
      · rintro ⟨⟩
        exact .inr (.inr ⟨by simp, by simp, by simp, rfl⟩)
      · rintro ⟨⟩
    · rintro ⟨⟩

end Kernel

/-! ## Steps and runs -/

/-- In the wait queue, between `proc_permit` and `proc_switch`. -/
def Pc.switching : Pc P S → Bool
  | .obtainSwitch _ => true
  | _ => false

/-- No preemption falls between the `proc_permit` and the `proc_switch` of a `sem_obtain` that blocks. -/
def SwitchAtomic (k : Kernel P S) (a : KernAction P S) : Prop :=
  match a with
  | .preempt => ∀ p ∈ k.current, (k.proc p).pc.switching = false
  | _ => True

instance (k : Kernel P S) : (a : KernAction P S) → Decidable (SwitchAtomic k a)
  | .preempt => Option.decidableForallMem k.current
  | .call _ | .advance | .irqPost _ _ | .tick => .isTrue trivial

/-- The masks of `sig_waitSignal` satisfy `M`. -/
def MasksIn (M : UInt8 → Prop) : KernAction P S → Prop
  | .call (.sigWait sigs) => M sigs
  | _ => True

omit [DecidableEq P] [DecidableEq S] in
theorem MasksIn.trivial (a : KernAction P S) : MasksIn (fun _ => True) a := by
  unfold MasksIn
  split <;> exact True.intro

/-- The events of a run agree with the life of each process. -/
def Tally (t : List (KernEvent P S)) (loc : P → Option (KernPlace P S)) : Prop :=
  ∀ x, t.count (.created x) = t.count (.exited x) + (if KernPlace.life (loc x) = .alive then 1 else 0) ∧
    t.count (.exited x) = t.count (.freed x) + (if KernPlace.life (loc x) = .zombie then 1 else 0)

theorem Tally.keep {loc' : P → Option (KernPlace P S)} (h : Tally t loc) (hl : SameLife loc loc') (he : Lifeless e) :
    Tally (t ++ e) loc' := by
  intro x
  obtain ⟨h1, h2, h3⟩ := he x
  simp only [count_append, count_eq_zero.mpr h1, count_eq_zero.mpr h2, count_eq_zero.mpr h3,
    Nat.add_zero, hl x]
  exact h x

theorem Tally.free (h : Tally t loc) (hp : Placed k loc) :
    Tally (t ++ k.zombies.map .freed) (fun x => if x ∈ k.zombies then none else loc x) := by
  intro x
  have hc : (k.zombies.map (KernEvent.freed (S := S))).count (.freed x) = k.zombies.count x :=
    count_map_of_injective k.zombies _ (fun a b hab => KernEvent.freed.inj hab) x
  have h1 : (k.zombies.map (KernEvent.freed (S := S))).count (.created x) = 0 := count_eq_zero.mpr (by simp)
  have h2 : (k.zombies.map (KernEvent.freed (S := S))).count (.exited x) = 0 := count_eq_zero.mpr (by simp)
  have hx := h x
  have hz := hp.at_iff x .zombie
  have hone := @count_eq_one_of_mem _ _ _ x k.zombies hp.zombies
  have hzero : k.zombies.count x = 0 ↔ x ∉ k.zombies := count_eq_zero
  simp only [count_append, hc, h1, h2]
  grind

theorem Tally.create (h : Tally t loc) (hq : KernPlace.life (loc q) = .absent) :
    Tally (t ++ [.created q]) (Function.update loc q (some .ready)) := by
  intro x
  have hx := h x
  simp only [count_append]
  grind

theorem Tally.exit (h : Tally t loc) (hp : KernPlace.life (loc p) = .alive) :
    Tally (t ++ [.exited p]) (Function.update loc p (some .zombie)) := by
  intro x
  have hx := h x
  simp only [count_append]
  grind

theorem Tally.alive_iff (h : Tally t loc) (x : P) : Alive t x ↔ KernPlace.life (loc x) = .alive := by
  have := (h x).1
  grind [Alive]

/-- The invariant, together with the events of the run so far. -/
structure KernGood (cfg : KernConfig) (M : UInt8 → Prop) (k : Kernel P S) (t : List (KernEvent P S))
    (loc : P → Option (KernPlace P S)) : Prop where
  inv : KernInv cfg M k loc
  tally : Tally t loc
  dead : ∀ x, KernPlace.life (loc x) ≠ .alive → (k.proc x).pc = .user

namespace KernGood

section
variable (h : KernGood cfg M k t loc)
include h

theorem current_alive (hp : k.current = some p) : KernPlace.life (loc p) = .alive := by
  by_contra hl
  have hpc := h.dead p hl
  have := (h.inv.placed.at_iff p .current).mp ⟨hp, by rw [hpc]; rfl⟩
  simp [this, life] at hl

theorem keep (hk : KernInv.Kept cfg M loc (k', e))
    (hpc : ∀ y, k.current ≠ some y → (k'.proc y).pc = (k.proc y).pc ∨ (k'.proc y).pc = .user) :
    ∃ loc', KernGood cfg M k' (t ++ e) loc' := by
  obtain ⟨⟨loc', hinv, hlife⟩, he⟩ := hk
  refine ⟨loc', hinv, h.tally.keep hlife he, fun x hx => ?_⟩
  rw [hlife x] at hx
  have hcur : k.current ≠ some x := fun hc => hx (h.current_alive hc)
  have hdead := h.dead x hx
  have hx' := hpc x hcur
  grind

theorem new {q : Option P} (hq : ∀ x, q = some x → ¬ Alive t x) :
    ∃ loc', KernGood cfg M (k.procNew q).1 (t ++ (k.procNew q).2) loc' := by
  have hfree := h.tally.free h.inv.placed
  have hdead : ∀ x, life (if x ∈ k.zombies then none else loc x) ≠ .alive → (k.proc x).pc = .user := by
    intro x hx
    have hz := h.inv.placed.at_iff x .zombie
    have hdead := h.dead x
    grind
  cases q with
  | none => exact ⟨_, h.inv.freeZombies, hfree, hdead⟩
  | some q =>
    have hq := fun ha => hq q rfl ((h.tally.alive_iff q).mpr ha)
    refine ⟨_, h.inv.new hq (h.dead q hq), ?_, fun x hx => ?_⟩
    · rw [show (k.procNew (some q)).2 = k.zombies.map .freed ++ [.created q] from rfl, ← append_assoc]
      exact hfree.create (by rw [h.inv.placed.freed_eq_none hq]; rfl)
    · have hxq : x ≠ q := by
        rintro rfl
        simp [life] at hx
      rw [Function.update_of_ne hxq] at hx
      simpa [procNew, schedEnqueue, setProc_proc, hxq] using hdead x hx

theorem exit (hp : k.current = some p) (hpc : (k.proc p).pc = .exitForbidden) :
    ∃ loc', KernGood cfg M { k.setPc p .user with zombies := k.zombies ++ [p], current := none, cpu := .exitPermit }
      (t ++ [.exited p]) loc' := by
  refine ⟨_, h.inv.exit hp hpc, h.tally.exit (h.current_alive hp), fun x hx => ?_⟩
  have hdead := h.dead x
  grind

theorem advance (hs : k.advance cfg = some (k', e)) : ∃ loc', KernGood cfg M k' (t ++ e) loc' := by
  have hnil : Lifeless ([] : List (KernEvent P S)) := by simp [Lifeless]
  have hnone : k.cpu ≠ .running → k.current = none := by
    intro hc
    by_contra hn
    exact hc (h.inv.cpu.mpr hn)
  revert hs
  unfold Kernel.advance
  cases hcpu : k.cpu with
  | running =>
    cases hp : k.current with
    | none => rintro ⟨⟩
    | some p =>
      intro hs
      by_cases hpc : (k.proc p).pc = .exitForbidden
      · simp only [bind_some, Kernel.resume, hpc] at hs
        cases hs
        exact h.exit hp hpc
      · refine h.keep (h.inv.resume hp hpc hs) (fun y hy => .inl (Kernel.resume_pc hs ?_))
        rintro rfl
        exact hy hp
  | exitPermit =>
    rintro ⟨⟩
    have hc := hnone (by simp [hcpu])
    refine h.keep ⟨⟨loc, ?_, .refl⟩, hnil⟩ (fun y _ => .inl (by simp))
    have hcount : cfg.preempt = true → k.preemptCount = 1 := fun hp => (h.inv.count hp).trans
      (by simp [Kernel.forbids, hcpu])
    rw [Kernel.procPermit_eq]
    refine ⟨h.inv.placed.frame rfl rfl rfl rfl rfl, h.inv.susp, by simp [hc], fun hp => ?_, h.inv.masks,
      h.inv.queued⟩
    simp [hp, hcount hp, Kernel.forbids]
  | exitSwitch =>
    rintro ⟨⟩
    have hc := hnone (by simp [hcpu])
    exact h.keep ⟨(h.inv.parkNone hc (by simp [Kernel.forbids, hcpu])).switch, hnil⟩ (fun y _ => .inl (by simp))
  | idle =>
    dsimp only
    split
    · rintro ⟨⟩
    · rintro ⟨⟩
      have hc := hnone (by simp [hcpu])
      exact h.keep ⟨(h.inv.parkNone hc (by simp [Kernel.forbids, hcpu])).schedule, hnil⟩ (fun y _ => .inl (by simp))

end

omit [DecidableEq P] [DecidableEq S] in
/-- A process is preempted where preemption is allowed and interrupts are enabled. -/
theorem suspended_of_needPreempt (h : KernInv cfg M k loc) (hp : k.current = some p) (hc : cfg.preempt = true)
    (hn : k.procNeedPreempt cfg = true) (hs : (k.proc p).pc.switching = false) :
    (k.proc p).pc.suspended cfg = true := by
  have hcount : k.preemptCount = 0 := by
    unfold procNeedPreempt at hn
    split at hn
    · simp only [procPreemptAllowed, hc, if_true, Bool.and_eq_true, decide_eq_true_eq] at hn
      exact hn.1
    · cases hn
  have hf := (h.preemptCount_eq hp hc).symm.trans hcount
  cases hpc : (k.proc p).pc <;> simp_all [Pc.suspended, Pc.forbidden, Pc.switching]

/-- **Every step keeps the invariant**, unless it preempts a process that stands in a wait queue. -/
theorem step {a : KernAction P S} (h : KernGood cfg M k t loc) (hsw : cfg.preempt = true → SwitchAtomic k a)
    (hm : MasksIn M a)
    (hnew : FreshNew t a) (hs : k.step cfg a = some (k', e)) : ∃ loc', KernGood cfg M k' (t ++ e) loc' := by
  have hnil : Lifeless ([] : List (KernEvent P S)) := by simp [Lifeless]
  revert hs
  cases a with
  | call c =>
    unfold Kernel.step
    dsimp only
    split
    · next p hcpu hp =>
      split
      · next hpc =>
        intro hs
        have hr : k.call cfg p c = (k', e) := some.inj hs
        by_cases hc : ∃ q, c = .new q
        · obtain ⟨q, rfl⟩ := hc
          have hr : k.procNew q = (k', e) := hr
          have := h.new (q := q) (by rintro x rfl; exact hnew)
          rwa [hr] at this
        · have hk := h.inv.call (c := c) hp hpc (by rintro sigs rfl; exact hm) (fun q hq => hc ⟨q, hq⟩)
          rw [hr] at hk
          refine h.keep hk (fun y hy => ?_)
          have hy : y ≠ p := by
            rintro rfl
            exact hy hp
          have := Kernel.call_pc cfg k c hy
          rwa [hr] at this
      · rintro ⟨⟩
    · rintro ⟨⟩
  | advance => exact h.advance
  | irqPost q sigs =>
    unfold Kernel.step
    dsimp only
    split
    · rintro ⟨⟩
      exact h.keep ⟨h.inv.signal q sigs none (by simp), hnil⟩ (fun y _ => .inl (Kernel.sigSignal_pc k sigs none y))
    · rintro ⟨⟩
  | tick =>
    unfold Kernel.step
    dsimp only
    split
    · rintro ⟨⟩
      exact h.keep ⟨⟨loc, ⟨h.inv.placed.frame rfl rfl rfl rfl rfl, h.inv.susp, h.inv.cpu, h.inv.count, h.inv.masks,
        h.inv.queued⟩,
        .refl⟩, hnil⟩ (fun y _ => .inl rfl)
    · rintro ⟨⟩
  | preempt =>
    unfold Kernel.step
    dsimp only
    split
    · next p hp =>
      split
      · next hc =>
        rintro ⟨⟩
        have hsus := suspended_of_needPreempt h.inv hp hc.1 hc.2.2 (hsw hc.1 p hp)
        exact h.keep ⟨h.inv.preempt hp hsus, hnil⟩ (fun y _ => .inl (by simp))
      · rintro ⟨⟩
    · rintro ⟨⟩

end KernGood

theorem KernGood.boot (m : P) :
    ∃ loc, KernGood cfg M (Kernel.boot m : Kernel P S) [.created m] loc := by
  refine ⟨fun x => if x = m then some .current else none,
    ⟨⟨fun y l => ?_, nodup_nil, fun _ => nodup_nil, nodup_nil⟩, fun _ _ => rfl, by simp [Kernel.boot],
      fun _ => rfl, ⟨by simp [Kernel.boot], by simp [Kernel.boot]⟩, fun _ _ _ hs => by cases hs⟩, fun x => ?_,
        fun x _ => rfl⟩
  · have hc : m = y ↔ y = m := eq_comm
    by_cases hy : y = m <;> cases l <;>
      simp [Kernel.At, Kernel.boot, Process.sleeping, Pc.hand, Pc.queued, hy, hc]
  · have hc : m = x ↔ x = m := eq_comm
    by_cases hx : x = m <;> simp [hx, hc, life]

/-- **The invariant holds along every run** whose preemptions do not fall into the `proc_switch` of `sem_obtain`. -/
theorem KernRun.good {ok : Kernel P S → KernAction P S → Prop}
    (hsw : ∀ k a, ok k a → cfg.preempt = true → SwitchAtomic k a) (hm : ∀ k a, ok k a → MasksIn M a)
    (h : KernRun cfg ok k t) : ∃ loc, KernGood cfg M k t loc := by
  induction h with
  | boot m => exact KernGood.boot m
  | step _ hok hnew hs ih =>
    obtain ⟨loc, hg⟩ := ih
    exact hg.step (hsw _ _ hok) (hm _ _ hok) hnew hs

/-! ## The cooperative kernel -/

/-- The places of a process that has not exited. -/
inductive LivePlace (S : Type)
  | current
  | ready
  | queue (s : S)
  /-- In `sig_waitSignal`, with the mask it waits for in `sig.wait`. -/
  | signal

def LivePlace.toKernPlace {P S : Type} : LivePlace S → KernPlace P S
  | .current => .current
  | .ready => .ready
  | .queue s => .queue s
  | .signal => .signal

omit [DecidableEq P] [DecidableEq S] in
theorem LivePlace.toKernPlace_inj {l l' : LivePlace S}
    (h : (l.toKernPlace : KernPlace P S) = l'.toKernPlace) : l = l' := by
  cases l <;> cases l' <;> simp_all [LivePlace.toKernPlace]

/-- The process `p` is at the place `l`. -/
def Kernel.In (k : Kernel P S) (p : P) : LivePlace S → Prop
  | .current => k.current = some p
  | .ready => p ∈ k.ready
  | .queue s => p ∈ (k.sem s).waitQueue
  | .signal => (k.proc p).pc = .sigAsleep (k.proc p).wait ∧ (k.proc p).wait ≠ 0

instance (k : Kernel P S) (p : P) : (l : LivePlace S) → Decidable (k.In p l)
  | .current => inferInstanceAs (Decidable (k.current = some p))
  | .ready | .queue _ => inferInstanceAs (Decidable (_ ∈ _))
  | .signal => inferInstanceAs (Decidable (_ ∧ _))

/-- The current process is neither between the `ADDTAIL` and the `proc_switch` of `sem_obtain` nor between the
`list_remHead` and the `proc_wakeup` of `sem_release`. -/
def Kernel.Settled (k : Kernel P S) : Prop :=
  ∀ p, k.current = some p → (k.proc p).pc.queued = none ∧ (k.proc p).pc.hand = none

section
omit [DecidableEq P] [DecidableEq S]

theorem Pc.hand_of_suspended {pc : Pc P S} (hc : cfg.preempt = false) (h : pc.suspended cfg = true) :
    pc.hand = none := by
  cases pc <;> simp_all [Pc.suspended, Pc.hand]

/-- Apart from a current process that is in a wait queue already, the places of `LivePlace` are those of the
invariant. -/
theorem KernInv.at_of_in (h : KernInv cfg M k loc) {l : LivePlace S} (hl : k.In p l)
    (hq : k.current = some p → (k.proc p).pc.queued = none) : loc p = some l.toKernPlace := by
  rw [← h.placed.at_iff]
  cases l with
  | current => exact ⟨hl, hq hl⟩
  | ready | queue s => exact hl
  | signal => simp [Kernel.At, LivePlace.toKernPlace, Process.sleeping, hl.1, hl.2]

end

section
omit [DecidableEq S]

/-- Without preemption a live process is on some list when the kernel has settled. -/
theorem KernInv.exists_in (h : KernInv cfg (· ≠ 0) k loc) (hc : cfg.preempt = false) (hr : k.Settled)
    (hl : KernPlace.life (loc p) = .alive) : ∃ l, k.In p l := by
  cases hp : loc p with
  | none => simp [hp, life] at hl
  | some l =>
    have hat := (h.placed.at_iff p l).mpr hp
    cases l with
    | current => exact ⟨.current, hat.1⟩
    | ready => exact ⟨.ready, hat⟩
    | queue s => exact ⟨.queue s, hat⟩
    | signal =>
      have hw : (k.proc p).wait ≠ 0 := by
        simp only [Kernel.At, Process.sleeping] at hat
        split at hat
        · next sigs hpc => exact hat.resolve_right (h.masks.mask p sigs hpc)
        · exact hat.elim
      exact ⟨.signal, h.masks.wait p hw, hw⟩
    | hand q =>
      have hnone : (k.proc q).pc.hand = none := by
        by_cases hq : k.current = some q
        · exact (hr q hq).2
        · exact Pc.hand_of_suspended hc (h.susp q hq)
      simp [Kernel.At, hnone] at hat
    | zombie => simp [hp, life] at hl

theorem KernInv.existsUnique_in (h : KernInv cfg (· ≠ 0) k loc) (hc : cfg.preempt = false) (hr : k.Settled)
    (hl : KernPlace.life (loc p) = .alive) : ∃! l, k.In p l := by
  obtain ⟨l, hin⟩ := h.exists_in hc hr hl
  refine ⟨l, hin, fun l' hin' => ?_⟩
  have hloc := h.at_of_in hin' (fun hp => (hr p hp).1)
  rw [h.at_of_in hin (fun hp => (hr p hp).1), some.injEq] at hloc
  exact (LivePlace.toKernPlace_inj hloc).symm

end

omit [DecidableEq P] [DecidableEq S] in
/-- Between `ADDTAIL` and `proc_switch` the current process is at two places; between `list_remHead` and `proc_wakeup`
the process that is to be woken is at none. -/
theorem KernInv.settled_of_existsUnique (h : KernInv cfg M k loc)
    (hu : ∀ p, KernPlace.life (loc p) = .alive → ∃! l, k.In p l) : k.Settled := by
  intro p hp
  constructor
  · by_contra hq
    obtain ⟨s, hs⟩ := Option.ne_none_iff_exists'.mp hq
    have hqueue : k.In p (.queue s) := h.queued p s hp hs
    have hloc := (h.placed.at_iff p (.queue s)).mp hqueue
    have hcur : k.In p .current := hp
    cases (hu p (by rw [hloc]; rfl)).unique hcur hqueue
  · by_contra hq
    obtain ⟨q, hs⟩ := Option.ne_none_iff_exists'.mp hq
    have hloc := (h.placed.at_iff q (.hand p)).mp hs
    obtain ⟨l, hl, -⟩ := hu q (by rw [hloc]; rfl)
    have hnone : k.current = some q → (k.proc q).pc.queued = none := by
      intro hcur
      obtain rfl : p = q := some.inj (hp.symm.trans hcur)
      revert hs
      cases (k.proc p).pc <;> simp [Pc.hand, Pc.queued]
    have := h.at_of_in hl hnone
    rw [hloc] at this
    cases l <;> cases this

/-- **Every process is in exactly one place.** In a state of a run of the cooperative kernel, each process that was
created and has not exited is at exactly one place just when the current process is not in the middle of a move from
one place to another; and in every state no list has a process twice, and every exited process is a zombie until it is
freed, once for each time it exited. -/
theorem coop_one_place (hc : cfg.preempt = false) (h : KernRun cfg (fun _ a => MasksIn (· ≠ 0) a) k t) :
    ((∀ p, Alive t p → ∃! l, k.In p l) ↔ k.Settled) ∧
      (k.ready.Nodup ∧ (∀ s, (k.sem s).waitQueue.Nodup) ∧ k.zombies.Nodup) ∧
      (∀ p, t.count (.exited p) = t.count (.freed p) + k.zombies.count p) ∧
      ∀ p ∈ k.zombies, ¬ Alive t p := by
  obtain ⟨loc, hg⟩ := h.good (fun _ _ _ hp => by simp [hc] at hp) (fun _ _ ha => ha)
  refine ⟨⟨fun hu => ?_, fun hr p hp => ?_⟩, ⟨hg.inv.placed.ready, hg.inv.placed.queue, hg.inv.placed.zombies⟩,
    fun p => ?_, fun p hp => ?_⟩
  · exact hg.inv.settled_of_existsUnique (fun p hp => hu p ((hg.tally.alive_iff p).mpr hp))
  · exact hg.inv.existsUnique_in hc hr ((hg.tally.alive_iff p).mp hp)
  · rw [(hg.tally p).2]
    by_cases hz : p ∈ k.zombies
    · rw [(hg.inv.placed.at_iff p .zombie).mp hz, count_eq_one_of_mem hg.inv.placed.zombies hz]
      rfl
    · have hl : life (loc p) ≠ .zombie := by
        intro hl
        apply hz
        refine (hg.inv.placed.at_iff p .zombie).mpr ?_
        cases hp : loc p with
        | none => simp [hp, life] at hl
        | some l => cases l <;> simp_all [life]
      rw [if_neg hl, count_eq_zero.mpr hz]
  · rw [hg.tally.alive_iff, (hg.inv.placed.at_iff p .zombie).mp hp]
    simp [life]

instance : (a : KernAction P S) → Decidable (MasksIn (· ≠ 0) a)
  | .call (.sigWait sigs) => inferInstanceAs (Decidable (sigs ≠ 0))
  | .call (.new _) | .call .yield | .call .exit | .call (.setPri _ _) | .call (.sigSend _ _) | .call (.sigPost _ _)
  | .call (.semObtain _) | .call (.semAttempt _) | .call (.semRelease _)
  | .advance | .irqPost _ _ | .tick | .preempt => .isTrue trivial

end

/-- Process `0` runs and has the semaphore that process `1` waits for; process `2` waits for a signal. -/
def allBlocked : List (KernAction (Fin 3) Unit) :=
  [.call (.new (some 1)), .call (.new (some 2)), .call (.semObtain ()), .advance, .advance, .call .yield,
    .call (.semObtain ()), .advance, .advance, .advance, .call (.sigWait 1)]

theorem allBlocked_runs : ((Kernel.boot 0).exec ⟨false, 0⟩ (fun _ a => MasksIn (· ≠ 0) a) [.created 0]
    allBlocked).isSome := by
  decide

theorem coop_one_place_allBlocked :
    ∃ (k : Kernel (Fin 3) Unit) (t : List (KernEvent (Fin 3) Unit)),
      KernRun ⟨false, 0⟩ (fun _ a => MasksIn (· ≠ 0) a) k t ∧ k.In 0 .current ∧ k.In 1 (.queue ()) ∧ k.In 2 .signal ∧
        ∀ p, Alive t p → ∃! l, k.In p l := by
  have hrun := (KernRun.boot 0).exec (some_get allBlocked_runs).symm
  refine ⟨_, _, hrun, rfl, by decide, by decide, (coop_one_place rfl hrun).1.mpr ?_⟩
  rintro p ⟨⟩
  decide

theorem allBlocked_release_runs : ((Kernel.boot 0).exec ⟨false, 0⟩ (fun _ a => MasksIn (· ≠ 0) a) [.created 0]
    (allBlocked ++ [.call (.semRelease ()), .advance])).isSome := by
  decide

/-- With an empty mask `sig_wait` never returns, and the process is nowhere; and between `list_remHead` and
`proc_wakeup` in `sem_release` the next owner is nowhere. -/
theorem alive_nowhere :
    (∃ (k : Kernel Unit Unit) (t : List (KernEvent Unit Unit)),
      KernRun ⟨false, 0⟩ (fun _ _ => True) k t ∧ k.Settled ∧ Alive t () ∧ ∀ l, ¬ k.In () l) ∧
      ∃ (k : Kernel (Fin 3) Unit) (t : List (KernEvent (Fin 3) Unit)),
        KernRun ⟨false, 0⟩ (fun _ a => MasksIn (· ≠ 0) a) k t ∧ Alive t 1 ∧ ∀ l, ¬ k.In 1 l := by
  constructor
  · refine ⟨_, _, .step (a := .call (.sigWait 0)) (.boot ()) trivial trivial rfl, ?_, by decide, ?_⟩
    · intro p hp
      cases hp
    · rintro (_ | _ | s | _) hl
      · cases hl
      · cases hl
      · cases hl
      · exact hl.2 rfl
  · refine ⟨_, _, (KernRun.boot 0).exec (some_get allBlocked_release_runs).symm, by decide, ?_⟩
    rintro (_ | _ | ⟨⟨⟩⟩ | _) <;> decide

section
variable {P S : Type} [DecidableEq P] [DecidableEq S] {cfg : KernConfig} {M : UInt8 → Prop} {k k' : Kernel P S}
  {loc : P → Option (KernPlace P S)} {p q : P} {s : S} {t e : List (KernEvent P S)}

/-! ## The preemptive kernel -/

/-- No process is in a wait queue and in the ready list, and the current process is not in the ready list. -/
def Kernel.LinkedOnce (k : Kernel P S) : Prop :=
  (∀ p s, p ∈ (k.sem s).waitQueue → p ∉ k.ready) ∧ ∀ p, p ∈ k.ready → k.current ≠ some p

section
omit [DecidableEq P] [DecidableEq S]

theorem KernInv.linkedOnce (h : KernInv cfg M k loc) : k.LinkedOnce := by
  refine ⟨fun p s hs hr => ?_, fun p hr hp => ?_⟩
  · have := h.placed.unique (.queue s) .ready hs hr
    cases this
  · cases hq : (k.proc p).pc.queued with
    | none =>
      have := h.placed.unique .current .ready ⟨hp, hq⟩ hr
      cases this
    | some s =>
      have := h.placed.unique (.queue s) .ready (h.queued p s hp hq) hr
      cases this

/-- A preempted process is ready. -/
theorem Kernel.mem_ready_procPreempt (hp : k.current = some p) (hn : k.procNeedPreempt cfg = true) :
    p ∈ (k.procPreempt cfg p).ready := by
  unfold procNeedPreempt at hn
  split at hn
  · next p' q r hp' hr =>
    rw [hp] at hp'
    cases hp'
    have hle : ¬ k.prioProc q < k.prioProc p := by
      simp only [Bool.and_eq_true] at hn
      split_ifs at hn <;> simp only [decide_eq_true_eq] at hn <;> omega
    have hins : (k.schedEnqueue p).ready = q :: r.orderedInsert (fun a b => k.prioProc b < k.prioProc a) p := by
      simp [schedEnqueue, hr, hle]
    have hq : ((k.schedEnqueue p).preemptResetQuantum cfg).ready = (k.schedEnqueue p).ready := by
      unfold preemptResetQuantum
      split <;> rfl
    simp [procPreempt, procSchedule, hq, hins, mem_orderedInsert]
  · cases hn

end

/-- **Preemption and the lists of the kernel.** As long as no preemption falls between the `proc_permit` and the
`proc_switch` of a `sem_obtain` that blocks, no process is linked into two lists; and the first preemption that does
fall there links the process a second time. -/
theorem linkedOnce_iff_switchAtomic {a : KernAction P S} (h : KernRun cfg SwitchAtomic k t) (hnew : FreshNew t a)
    (hs : k.step cfg a = some (k', e)) : k.LinkedOnce ∧ (k'.LinkedOnce ↔ SwitchAtomic k a) := by
  obtain ⟨loc, hg⟩ := h.good (fun _ _ hok _ => hok) (fun _ a _ => MasksIn.trivial a)
  refine ⟨hg.inv.linkedOnce, fun hk' => ?_, fun hsw => ?_⟩
  · cases a with
    | preempt =>
      intro p hp
      by_contra hpc
      obtain ⟨s, hq⟩ : ∃ s, (k.proc p).pc.queued = some s := by
        revert hpc
        cases (k.proc p).pc <;> simp [Pc.switching, Pc.queued]
      simp only [step, show k.current = some p from hp] at hs
      split at hs
      · next hc =>
        cases hs
        refine hk'.1 p s ?_ (mem_ready_procPreempt hp hc.2.2)
        rw [procPreempt_sem]
        exact hg.inv.queued p s hp hq
      · cases hs
    | _ => trivial
  · obtain ⟨loc', hg'⟩ := hg.step (fun _ => hsw) (MasksIn.trivial a) hnew hs
    exact hg'.inv.linkedOnce

end

/-- Process `true` waits for the semaphore of process `false`, up to the call of `proc_switch`. -/
def waiterAtSwitch : List (KernAction Bool Unit) :=
  [.call (.new (some true)), .call (.semObtain ()), .advance, .advance, .call .yield, .call (.semObtain ()), .advance,
    .advance, .tick]

theorem waiterAtSwitch_runs :
    ((Kernel.boot false).exec ⟨true, 1⟩ SwitchAtomic [.created false] waiterAtSwitch).isSome := by
  decide

/-- The interrupt that preempts the process there is possible, and it is the one the theorem excludes. -/
theorem linkedOnce_iff_switchAtomic_waiter :
    ∃ (k k' : Kernel Bool Unit) (t e : List (KernEvent Bool Unit)), k.step ⟨true, 1⟩ .preempt = some (k', e) ∧
      KernRun ⟨true, 1⟩ SwitchAtomic k t ∧ k.LinkedOnce ∧ (k'.LinkedOnce ↔ SwitchAtomic k .preempt) := by
  have hrun := (KernRun.boot false).exec (some_get waiterAtSwitch_runs).symm
  have hsome : ((((boot false).exec ⟨true, 1⟩ SwitchAtomic [.created false] waiterAtSwitch).get
      waiterAtSwitch_runs).1.step ⟨true, 1⟩ .preempt).isSome := by decide
  exact ⟨_, _, _, _, (some_get hsome).symm, hrun,
    linkedOnce_iff_switchAtomic hrun trivial (some_get hsome).symm⟩

theorem preemptedWaiter_runs :
    ((Kernel.boot false).exec ⟨true, 1⟩ (fun _ _ => True) [.created false] (waiterAtSwitch ++ [.preempt])).isSome := by
  decide

/-- Process `true` is in the wait queue and in the ready list. -/
theorem preemptedWaiter_linked_twice :
    ∃ (k : Kernel Bool Unit) (t : List (KernEvent Bool Unit)),
      KernRun ⟨true, 1⟩ (fun _ _ => True) k t ∧ true ∈ (k.sem ()).waitQueue ∧ true ∈ k.ready := by
  refine ⟨_, _, (KernRun.boot false).exec (some_get preemptedWaiter_runs).symm, ?_, ?_⟩ <;> decide

end Bertos
