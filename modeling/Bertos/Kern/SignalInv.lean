import Bertos.Kern.Signal

/-!
# Signals are never lost

The invariant of the signals (`SigInv`): a process in the `proc_switch` of `sig_waitSignal` either sleeps, is announced
in `wait` and has none of its bits pending, or was woken up, `wait` is clear and one of its bits is pending. Every step
keeps it (`SigInv.step`), together with the log (`SigLog`). The main result is `signals_never_lost`.
-/

namespace Bertos

open List Function Kernel SigSys
open Option hiding or_assoc

section
variable {P M S : Type} [DecidableEq P] [DecidableEq S]

open SigSys (Up)

/-! ## What the scheduler does with a process -/

namespace Sched

variable {cfg : KernConfig} {k : Kernel P M} {p q : P}

/-- The kernel is in order, and these processes are ready or run. -/
abbrev Runs (k : Kernel P M) (up : P → Prop) : Prop := Sched k ∧ ∀ x, Up k x ↔ up x

section
omit [DecidableEq P]

theorem schedule (hnd : k.ready.Nodup) : Runs k.procSchedule (· ∈ k.ready) := by
  unfold procSchedule
  split
  · next hr => exact ⟨⟨hr ▸ nodup_nil, nofun⟩, fun x => by simp [Up, hr]⟩
  · next q r hr =>
    obtain ⟨hq, hnd'⟩ := nodup_cons.mp (hr ▸ hnd)
    refine ⟨⟨hnd', ?_⟩, fun x => ?_⟩
    · rintro x ⟨⟩
      exact hq
    · simp only [Up, hr, mem_cons, some.injEq]
      exact ⟨fun h => h.symm.imp Eq.symm id, fun h => h.symm.imp id Eq.symm⟩

/-- `proc_switch`: what was ready is ready or runs. -/
theorem switch (h : Sched k) : Runs (k.procSwitch cfg) (· ∈ k.ready) := by
  have hr : (k.preemptResetQuantum cfg).ready = k.ready := by
    unfold preemptResetQuantum
    split <;> rfl
  have hs := schedule (k := k.preemptResetQuantum cfg) (hr.symm ▸ h.nodup)
  exact ⟨hs.1, fun x => by rw [← hr]; exact hs.2 x⟩

theorem not_mem (h : Sched k) (hp : k.current = some p) : p ∉ k.ready :=
  h.current p hp

theorem insert {r : List P} (h : Sched k) (hq : ¬ Up k q) (hr : r.Perm (q :: k.ready)) :
    Runs { k with ready := r } fun x => x = q ∨ Up k x := by
  have hq' : q ∉ k.ready := fun hm => hq (.inl hm)
  refine ⟨⟨hr.nodup_iff.mpr (nodup_cons.mpr ⟨hq', h.nodup⟩), ?_⟩, fun x => ?_⟩
  · intro x hx hm
    rcases mem_cons.mp (hr.mem_iff.mp hm) with rfl | hm
    · exact hq (.inr hx)
    · exact h.current x hx hm
  · simp only [Up, hr.mem_iff, mem_cons, or_assoc]

theorem enqueueHead (h : Sched k) (hq : ¬ Up k q) : Runs (k.schedEnqueueHead q) fun x => x = q ∨ Up k x :=
  h.insert hq (perm_orderedInsert _ q k.ready)

theorem enqueue (h : Sched k) (hq : ¬ Up k q) : Runs (k.schedEnqueue q) fun x => x = q ∨ Up k x :=
  h.insert hq (perm_orderedInsert _ q k.ready)

end

section
variable (h : Sched k) (hp : k.current = some p)
include h hp

section
omit [DecidableEq P]

/-- `proc_switchTo`: the current process goes to the ready list, and `q` runs. -/
theorem switchTo (hq : ¬ Up k q) : Runs (k.procSwitchTo cfg p q) fun x => x = q ∨ Up k x := by
  have hpr := h.not_mem hp
  have hqp : q ≠ p := fun e => hq (.inr (e ▸ hp))
  have hr : (k.procSwitchTo cfg p q).ready.Perm (p :: k.ready) := by
    have : (k.procSwitchTo cfg p q).ready = (k.schedEnqueue p).ready := by
      unfold procSwitchTo preemptResetQuantum
      split <;> rfl
    rw [this]
    exact perm_orderedInsert _ p k.ready
  have hc : (k.procSwitchTo cfg p q).current = some q := rfl
  refine ⟨⟨hr.nodup_iff.mpr (nodup_cons.mpr ⟨hpr, h.nodup⟩), ?_⟩, fun x => ?_⟩
  · intro x hx hm
    obtain rfl : q = x := some.inj (hc.symm.trans hx)
    rcases mem_cons.mp (hr.mem_iff.mp hm) with hm | hm
    · exact hqp hm
    · exact hq (.inl hm)
  · simp only [Up, hr.mem_iff, mem_cons, hc, hp, some.injEq, eq_comm]
    tauto

theorem wakeup (hq : ¬ Up k q) : Runs (k.procWakeup cfg p q) fun x => x = q ∨ Up k x := by
  unfold procWakeup
  split
  · exact h.switchTo hp hq
  · exact h.enqueueHead hq

theorem yield : Runs (k.procYield cfg p) (Up k) := by
  unfold procYield
  split
  · exact ⟨h, fun x => Iff.rfl⟩
  · next q r hr =>
    obtain ⟨hq, hnd⟩ := nodup_cons.mp (hr ▸ h.nodup)
    have h' : Sched { k with ready := r } := by
      refine ⟨hnd, fun x hx hm => h.current x hx ?_⟩
      rw [hr]
      exact mem_cons_of_mem q hm
    have hqp : ¬ Up { k with ready := r } q := by
      rintro (hm | hc)
      · exact hq hm
      · exact h.current q hc (hr ▸ mem_cons_self)
    obtain ⟨hs, hup⟩ : Sched ({ k with ready := r }.procSwitchTo cfg p q) ∧ _ := h'.switchTo hp hqp
    refine ⟨hs, fun x => (hup x).trans ?_⟩
    simp only [Up, hr, mem_cons, or_assoc]

theorem preempt : Runs (k.procPreempt cfg p) (Up k) := by
  have hr : ((k.schedEnqueue p).preemptResetQuantum cfg).ready.Perm (p :: k.ready) := by
    have : ((k.schedEnqueue p).preemptResetQuantum cfg).ready = (k.schedEnqueue p).ready := by
      unfold preemptResetQuantum
      split <;> rfl
    rw [this]
    exact perm_orderedInsert _ p k.ready
  have hs := schedule (hr.nodup_iff.mpr (nodup_cons.mpr ⟨h.not_mem hp, h.nodup⟩))
  refine ⟨hs.1, fun x => (hs.2 x).trans ?_⟩
  simp only [Up, hr.mem_iff, mem_cons, hp, some.injEq, eq_comm]
  tauto

end

end

theorem reenqueue (h : Sched k) (q : P) : Runs (k.schedReenqueue q) (Up k) := by
  unfold schedReenqueue
  split
  · next hq =>
    have hr : ({ k with ready := k.ready.erase q }.schedEnqueue q).ready.Perm k.ready :=
      (perm_orderedInsert _ q _).trans (perm_cons_erase hq).symm
    refine ⟨⟨hr.nodup_iff.mpr h.nodup, fun x hx hm => h.current x hx (hr.mem_iff.mp hm)⟩, fun x => ?_⟩
    simp only [Up, hr.mem_iff]
    exact Iff.rfl
  · exact ⟨h, fun x => Iff.rfl⟩

section
omit [DecidableEq P]

theorem dispatch (h : Sched k) (hc : k.current = none) : Runs k.procSchedule (Up k) := by
  have hs := schedule h.nodup
  refine ⟨hs.1, fun x => (hs.2 x).trans ?_⟩
  simp [Up, hc]

theorem same (h : Sched k) (k' : Kernel P M) (hr : k'.ready = k.ready) (hc : k'.current = k.current) : Runs k' (Up k) :=
  ⟨⟨hr ▸ h.nodup, fun x hx => hr ▸ h.current x (hc ▸ hx)⟩, fun x => by simp only [Up, hr, hc]⟩

end

end Sched

/-! ## The invariant -/

/-- `p` sleeps on `s`: it is announced, and none of its signals is pending. -/
structure SigAsleep (k : SigSys P M S) (p : P) (s : S) (sigs : UInt8) : Prop where
  wait : (k.sig s).wait = sigs
  recv : (k.sig s).recv &&& sigs = 0
  up : ¬ Up k.kern p

/-- `p` was woken up: the announcement is withdrawn, and one of its signals is pending. -/
structure SigWoken (k : SigSys P M S) (p : P) (s : S) (sigs : UInt8) : Prop where
  wait : (k.sig s).wait = 0
  recv : (k.sig s).recv &&& sigs ≠ 0
  up : Up k.kern p

/-- **The invariant of the signals.** -/
structure SigInv (owner : S → P) (k : SigSys P M S) : Prop where
  sched : Sched k.kern
  own : ∀ p s sigs, k.waiting p = some (s, sigs) → owner s = p
  waits : ∀ p s sigs, k.waiting p = some (s, sigs) → SigAsleep k p s sigs ∨ SigWoken k p s sigs
  idle : ∀ s, (∀ sigs, k.waiting (owner s) ≠ some (s, sigs)) → (k.sig s).wait = 0

namespace SigInv

variable {owner : S → P} {cfg : KernConfig} {k : SigSys P M S} {p : P} {s : S} {sigs : UInt8}

section
omit [DecidableEq P] [DecidableEq S]

theorem init (hs : Sched k.kern) (hsig : ∀ s, k.sig s = ⟨0, 0⟩) (hw : ∀ p, k.waiting p = none) : SigInv owner k := by
  refine ⟨hs, ?_, ?_, fun s _ => by rw [hsig]⟩
  · intro p s sigs hp
    rw [hw] at hp
    cases hp
  · intro p s sigs hp
    rw [hw] at hp
    cases hp

/-- A wait is kept where its `Signal` and its process are as before. -/
theorem waits_keep {k' : SigSys P M S} (h : SigAsleep k p s sigs ∨ SigWoken k p s sigs) (hsig : k'.sig s = k.sig s)
    (hup : Up k'.kern p ↔ Up k.kern p) : SigAsleep k' p s sigs ∨ SigWoken k' p s sigs := by
  rcases h with ⟨hw, hr, hu⟩ | ⟨hw, hr, hu⟩
  · exact .inl ⟨hsig ▸ hw, hsig ▸ hr, mt hup.mp hu⟩
  · exact .inr ⟨hsig ▸ hw, hsig ▸ hr, hup.mpr hu⟩

end

omit [DecidableEq P] in
/-- A step that concerns the `Signal` `s` alone. -/
theorem update {k' : SigSys P M S} (h : SigInv owner k) (hk : Sched k'.kern) (hsig : ∀ u, u ≠ s → k'.sig u = k.sig u)
    (hwait : ∀ x u m, u ≠ s → (k'.waiting x = some (u, m) ↔ k.waiting x = some (u, m)))
    (hup : ∀ x u m, u ≠ s → k.waiting x = some (u, m) → (Up k'.kern x ↔ Up k.kern x))
    (hself : ∀ x m, k'.waiting x = some (s, m) → owner s = x ∧ (SigAsleep k' x s m ∨ SigWoken k' x s m))
    (hidle : (∀ m, k'.waiting (owner s) ≠ some (s, m)) → (k'.sig s).wait = 0) : SigInv owner k' := by
  refine ⟨hk, fun x u m hx => ?_, fun x u m hx => ?_, fun u hu => ?_⟩ <;> by_cases hus : u = s
  · exact hus ▸ (hself x m (hus ▸ hx)).1
  · exact h.own x u m ((hwait x u m hus).mp hx)
  · exact hus ▸ (hself x m (hus ▸ hx)).2
  · have hx' := (hwait x u m hus).mp hx
    exact waits_keep (h.waits x u m hx') (hsig u hus) (hup x u m hus hx')
  · exact hus ▸ hidle (hus ▸ hu)
  · rw [hsig u hus]
    exact h.idle u fun m => mt (hwait _ u m hus).mpr (hu m)

section
variable (h : SigInv owner k)
include h

section
omit [DecidableEq P] [DecidableEq S]

theorem resched {kern : Kernel P M} (hs : Sched kern) (hup : ∀ x, k.waiting x ≠ none → (Up kern x ↔ Up k.kern x)) :
    SigInv owner (k.resched kern).1 := by
  refine ⟨hs, h.own, fun p s sigs hw => ?_, h.idle⟩
  exact waits_keep (h.waits p s sigs hw) rfl (hup p (ne_none_iff_exists'.mpr ⟨_, hw⟩))

/-- Nobody waits on a `Signal` whose owner is not in a wait. -/
theorem wait_eq_zero (hw : k.waiting (owner s) = none) : (k.sig s).wait = 0 :=
  h.idle s fun sigs e => by simp [hw] at e

end

omit [DecidableEq P] in
/-- `sig_checkSignal` by a process that is not in a wait. -/
theorem check (hw : k.waiting (owner s) = none) (sigs : UInt8) : SigInv owner (k.sigCheckSignal s sigs).1 := by
  refine h.update h.sched (fun u hu => update_of_ne hu _ _) (fun _ _ _ _ => Iff.rfl)
    (fun _ _ _ _ _ => Iff.rfl) (fun x m hx => ?_) fun _ => ?_
  · have hx' : k.waiting x = some (s, m) := hx
    rw [← h.own x s m hx', hw] at hx'
    cases hx'
  · simpa [sigCheckSignal, Signal.check] using h.wait_eq_zero hw

omit [DecidableEq P] [DecidableEq S] in
theorem asleep_of_signal (hc : ((k.sig s).recv ||| sigs) &&& (k.sig s).wait ≠ 0) :
    ∃ sigs', k.waiting (owner s) = some (s, sigs') ∧ SigAsleep k (owner s) s sigs' := by
  have hne : (k.sig s).wait ≠ 0 := by
    intro h0
    simp [h0] at hc
  have hw : ∃ sigs', k.waiting (owner s) = some (s, sigs') := by
    by_contra hno
    exact hne (h.idle s fun sigs' e => hno ⟨sigs', e⟩)
  obtain ⟨sigs', hw⟩ := hw
  rcases h.waits _ _ _ hw with ha | ha
  · exact ⟨sigs', hw, ha⟩
  · exact absurd ha.wait hne

section
omit [DecidableEq P]

/-- The owner of the woken `Signal` goes to the ready list, or runs. -/
theorem wake (hc : ((k.sig s).recv ||| sigs) &&& (k.sig s).wait ≠ 0) {kern : Kernel P M} (hs : Sched kern)
    (hup : ∀ x, Up kern x ↔ x = owner s ∨ Up k.kern x) :
    SigInv owner { k with kern := kern, sig := Function.update k.sig s ⟨(k.sig s).recv ||| sigs, 0⟩ } := by
  obtain ⟨sigs', hw, ha⟩ := h.asleep_of_signal hc
  refine h.update hs (fun u hu => update_of_ne hu _ _) (fun _ _ _ _ => Iff.rfl) (fun x u m hu hx => ?_)
    (fun x m hx => ?_) fun _ => by simp
  · have hne : x ≠ owner s := by
      rintro rfl
      exact hu (congrArg Prod.fst (some.inj (hw.symm.trans hx))).symm
    simp only [hup, hne, false_or]
  · obtain rfl := h.own x s m hx
    obtain rfl : sigs' = m := by simpa [hw] using hx
    refine ⟨rfl, .inr ⟨by simp, ?_, (hup _).mpr (.inl rfl)⟩⟩
    rw [ha.wait] at hc
    simpa using hc

theorem add (hc : ¬ ((k.sig s).recv ||| sigs) &&& (k.sig s).wait ≠ 0) :
    SigInv owner { k with sig := Function.update k.sig s { k.sig s with recv := (k.sig s).recv ||| sigs } } := by
  refine h.update h.sched (fun u hu => update_of_ne hu _ _) (fun _ _ _ _ => Iff.rfl)
    (fun _ _ _ _ _ => Iff.rfl) (fun x m hx => ⟨h.own x s m hx, ?_⟩) fun hs => by simpa using h.idle s hs
  rcases h.waits x s m hx with ha | ha
  · refine .inl ⟨by simpa using ha.wait, ?_, ha.up⟩
    rw [ha.wait] at hc
    simpa using hc
  · refine .inr ⟨by simpa using ha.wait, ?_, ha.up⟩
    obtain ⟨i, hi, hm⟩ := and_ne_zero_iff.mp ha.recv
    exact and_ne_zero_iff.mpr ⟨i, by simp [hi], hm⟩

/-- `sig_postSignal`, and `sig_sendSignal` by the current process. -/
theorem signal (sigs : UInt8) {wakeup : Option P} (hc : ∀ p, wakeup = some p → k.kern.current = some p) :
    SigInv owner (k.sigSignal owner cfg s sigs wakeup).1 := by
  unfold SigSys.sigSignal Signal.signal
  by_cases hw : ((k.sig s).recv ||| sigs) &&& (k.sig s).wait ≠ 0
  · obtain ⟨sigs', hwait, ha⟩ := h.asleep_of_signal hw
    rw [if_pos hw]
    cases wakeup with
    | none =>
      obtain ⟨hs, hup⟩ := h.sched.enqueueHead ha.up
      exact h.wake hw hs hup
    | some p =>
      obtain ⟨hs, hup⟩ := h.sched.wakeup (hc p rfl) ha.up
      exact h.wake hw hs hup
  · rw [if_neg hw]
    exact h.add hw

end

/-- `sig_waitSignal` by the current process, which owns the `Signal` and is announced on none. -/
theorem wait (hc : k.kern.current = some (owner s)) (hw : ∀ u m, k.waiting (owner s) = some (u, m) → u = s)
    (hz : (k.sig s).wait = 0) (sigs : UInt8) : SigInv owner (k.sigWaitSignal cfg (owner s) s sigs).1 := by
  have hown : ∀ x m, k.waiting x = some (s, m) → owner s = x := fun x m => h.own x s m
  unfold SigSys.sigWaitSignal Signal.waitTurn
  by_cases hr : (k.sig s).recv &&& sigs ≠ 0
  · rw [if_pos hr]
    exact h.update h.sched (fun u hu => update_of_ne hu _ _) (by grind) (fun _ _ _ _ _ => Iff.rfl) (by grind)
      fun _ => by simpa using hz
  · rw [if_neg hr]
    obtain ⟨hs, hup⟩ : Sched (k.kern.procSwitch cfg) ∧ _ := h.sched.switch
    refine h.update hs (fun u hu => update_of_ne hu _ _) (by grind) (fun x u m hu hx => ?_) (fun x m hx => ?_)
      fun hno => absurd (by simp) (hno sigs)
    · have hne : some (owner s) ≠ some x := fun hx' => hu (hw u m (some.inj hx' ▸ hx))
      rw [hup]
      simp only [Up, hc, hne, or_false]
    · obtain ⟨rfl, rfl⟩ : owner s = x ∧ sigs = m := by grind
      refine ⟨rfl, .inl ⟨by simp, by simpa using hr, ?_⟩⟩
      rw [hup]
      exact h.sched.not_mem hc

omit [DecidableEq P] [DecidableEq S] in
/-- The current process in a wait was woken up: the assertions after `proc_switch` hold. -/
theorem woken (hc : k.kern.current = some p) (hw : k.waiting p = some (s, sigs)) : SigWoken k p s sigs :=
  (h.waits p s sigs hw).resolve_left fun ha => ha.up (.inr hc)

end

end SigInv

/-! ## The log -/

/-- What is returned is what was pending: of a wait, at least one bit. -/
def SigLog : List (SigEvent S) → Prop
  | [] => True
  | .posted _ _ :: log => SigLog log
  | .waited s sigs result :: log => result = sigPending s log &&& sigs ∧ result ≠ 0 ∧ SigLog log
  | .checked s sigs result :: log => result = sigPending s log &&& sigs ∧ SigLog log

theorem SigLog.tail {l log : List (SigEvent S)} (h : SigLog (l ++ log)) : SigLog log := by
  induction l with
  | nil => exact h
  | cons e l ih =>
    cases e with
    | posted => exact ih h
    | waited => exact ih h.2.2
    | checked => exact ih h.2

variable {log : List (SigEvent S)}

/-- What a return gives is what was pending before it, within its mask. -/
theorem SigLog.taken {e : SigEvent S} {s : S} {sigs result : UInt8} (h : SigLog (e :: log))
    (he : e.taken = some (s, sigs, result)) : result = sigPending s log &&& sigs := by
  cases e with
  | posted => cases he
  | waited u m r | checked u m r =>
    obtain ⟨rfl, rfl, rfl⟩ : u = s ∧ m = sigs ∧ r = result := by simpa [SigEvent.taken] using he
    exact h.1

/-- Bit `i` of `s` was posted, and no return whose mask has it came after. -/
def PostedSince (log : List (SigEvent S)) (s : S) (i : ℕ) : Prop :=
  ∃ mid sigs older, log = mid ++ .posted s sigs :: older ∧ hasBit sigs i = true ∧ ∀ e ∈ mid, ¬ e.Masks s i

omit [DecidableEq S] in
theorem postedSince_cons {e : SigEvent S} {s : S} {i : ℕ} : PostedSince (e :: log) s i ↔
      (∃ sigs, e = .posted s sigs ∧ hasBit sigs i = true) ∨ ¬ e.Masks s i ∧ PostedSince log s i := by
  constructor
  · rintro ⟨mid, sigs, older, hlog, hi, hmid⟩
    cases mid with
    | nil =>
      cases hlog
      exact .inl ⟨sigs, rfl, hi⟩
    | cons e' mid =>
      cases hlog
      exact .inr ⟨hmid _ mem_cons_self, mid, sigs, older, rfl, hi, fun e he =>
        hmid e (mem_cons_of_mem _ he)⟩
  · rintro (⟨sigs, rfl, hi⟩ | ⟨he, mid, sigs, older, rfl, hi, hmid⟩)
    · exact ⟨[], sigs, log, rfl, hi, nofun⟩
    · exact ⟨e :: mid, sigs, older, rfl, hi, forall_mem_cons.mpr ⟨he, hmid⟩⟩

/-- **The pending bits are those posted and not returned since.** -/
theorem hasBit_sigPending {s : S} {i : ℕ} : hasBit (sigPending s log) i = true ↔ PostedSince log s i := by
  induction log with
  | nil => simp [sigPending, PostedSince]
  | cons e log ih =>
    rw [postedSince_cons, ← ih]
    cases e with
    | posted u sigs =>
      have hm : ¬ (SigEvent.posted u sigs).Masks s i := by
        rintro ⟨_, _, ⟨⟩, _⟩
      rcases eq_or_ne u s with rfl | hu
      · simp [sigPending, hm, or_comm]
      · simp [sigPending, hu, hm]
    | waited u sigs r | checked u sigs r =>
      rcases eq_or_ne u s with rfl | hu
      · simp only [sigPending, if_true, hasBit_and_not]
        simp [SigEvent.Masks, SigEvent.taken, and_comm]
      · simp [sigPending, hu, SigEvent.Masks, SigEvent.taken]

/-! ## Steps and runs -/

variable {k : SigSys P M S}

omit [DecidableEq P] [DecidableEq S] in
theorem SigSys.active_eq_some {p : P} : k.active = some p ↔ k.kern.current = some p ∧ k.waiting p = none := by
  unfold active
  split
  · next q hq =>
    rw [hq]
    split
    · next hw => exact ⟨by rintro ⟨⟩; exact ⟨rfl, hw⟩, fun h => h.1⟩
    · next hw => exact ⟨nofun, by rintro ⟨⟨⟩, h⟩; exact absurd h hw⟩
  · next hq => simp [hq]

/-- **What a step does**: the owner of a `Signal` is in `sig_waitSignal` or in `sig_checkSignal`, a `Signal` is posted,
or the kernel's lists change. -/
inductive SigStep (owner : S → P) (cfg : KernConfig) (k : SigSys P M S) (a : SigAction P S) :
    SigSys P M S × List (SigEvent S) → Prop
  | wait (s : S) (sigs : UInt8) (hc : k.kern.current = some (owner s))
      (ha : a = .wait s sigs ∧ k.waiting (owner s) = none ∨ k.waiting (owner s) = some (s, sigs)) :
      SigStep owner cfg k a (k.sigWaitSignal cfg (owner s) s sigs)
  | check (s : S) (sigs : UInt8) (ha : a = .check s sigs) (hc : k.kern.current = some (owner s))
      (hw : k.waiting (owner s) = none) : SigStep owner cfg k a (k.sigCheckSignal s sigs)
  | signal (s : S) (sigs : UInt8) (wakeup : Option P) (hc : ∀ p, wakeup = some p → k.kern.current = some p) :
      SigStep owner cfg k a (k.sigSignal owner cfg s sigs wakeup)
  | resched (kern : Kernel P M) (hs : Sched kern) (hup : ∀ x, k.waiting x ≠ none → (Up kern x ↔ Up k.kern x))
      (hkeep : ∀ x, Up k.kern x → Up kern x ∨ a = .leave ∧ k.kern.current = some x) :
      SigStep owner cfg k a (k.resched kern)

/-- What a step of the system can do. -/
theorem SigInv.step_cases {owner : S → P} {cfg : KernConfig} {a : SigAction P S}
    {x : SigSys P M S × List (SigEvent S)} (h : SigInv owner k) (hs : k.step owner cfg a = some x) :
    SigStep owner cfg k a x := by
  -- The step of a process that runs its own code.
  have run : ∀ {f : P → Option (SigSys P M S × List (SigEvent S))}, k.active.bind f = some x →
      ∃ p, k.kern.current = some p ∧ k.waiting p = none ∧ f p = some x := by
    intro f hf
    obtain ⟨p, hp, hf⟩ := bind_eq_some_iff.mp hf
    obtain ⟨hc, hw⟩ := active_eq_some.mp hp
    exact ⟨p, hc, hw, hf⟩
  have same : ∀ {kern : Kernel P M}, Sched.Runs kern (Up k.kern) →
      SigStep owner cfg k a (k.resched kern) :=
    fun hk => .resched _ hk.1 (fun y _ => hk.2 y) fun y hy => .inl ((hk.2 y).mpr hy)
  have more : ∀ {kern : Kernel P M} {q : P}, k.waiting q = none → Sched.Runs kern (fun y => y = q ∨ Up k.kern y) →
      SigStep owner cfg k a (k.resched kern) := by
    refine fun hq hk => .resched _ hk.1 (fun y hy => (hk.2 y).trans (or_iff_right ?_)) fun y hy => ?_
    · rintro rfl
      exact hy hq
    · exact .inl ((hk.2 y).mpr (.inr hy))
  cases a with
  | wait s sigs =>
    obtain ⟨p, hc, hw, hs⟩ := run hs
    obtain ⟨⟨rfl, -⟩, ⟨⟩⟩ := ite_none_right_eq_some.mp hs
    exact .wait s sigs hc (.inl ⟨rfl, hw⟩)
  | resume =>
    obtain ⟨p, hc, hs⟩ := bind_eq_some_iff.mp hs
    obtain ⟨⟨s, sigs⟩, hw, ⟨⟩⟩ := bind_eq_some_iff.mp hs
    obtain rfl := h.own p s sigs hw
    exact .wait s sigs hc (.inr hw)
  | check s sigs =>
    obtain ⟨p, hc, hw, hs⟩ := run hs
    obtain ⟨rfl, ⟨⟩⟩ := ite_none_right_eq_some.mp hs
    exact .check s sigs rfl hc hw
  | send s sigs =>
    obtain ⟨p, hc, hw, hs⟩ := run hs
    obtain ⟨-, ⟨⟩⟩ := ite_none_right_eq_some.mp hs
    exact .signal s sigs _ (by rintro _ ⟨⟩; exact hc)
  | post s sigs =>
    obtain ⟨p, hc, hw, ⟨⟩⟩ := run hs
    exact .signal s sigs none nofun
  | irqPost s sigs =>
    obtain ⟨-, ⟨⟩⟩ := ite_none_right_eq_some.mp hs
    exact .signal s sigs none nofun
  | yield =>
    obtain ⟨p, hc, hw, ⟨⟩⟩ := run hs
    exact same (h.sched.yield hc)
  | forbid =>
    obtain ⟨p, hc, hw, ⟨⟩⟩ := run hs
    exact same (h.sched.same _ (by unfold procForbid; split <;> rfl) (by unfold procForbid; split <;> rfl))
  | permit =>
    obtain ⟨p, hc, hw, ⟨⟩⟩ := run hs
    exact same (h.sched.same _ (by unfold procPermit; split <;> rfl) (by unfold procPermit; split <;> rfl))
  | setPri q pri =>
    obtain ⟨p, hc, hw, ⟨⟩⟩ := run hs
    exact same (h.sched.same _ rfl rfl)
  | reenqueue q =>
    obtain ⟨p, hc, hw, ⟨⟩⟩ := run hs
    exact same (h.sched.reenqueue q)
  | leave =>
    obtain ⟨p, hc, hw, ⟨⟩⟩ := run hs
    obtain ⟨hsched, hup⟩ : Sched (k.kern.procSwitch cfg) ∧ _ := h.sched.switch
    refine .resched _ hsched (fun y hy => (hup y).trans ⟨.inl, fun hu => hu.resolve_right fun hyc => ?_⟩)
      fun y hy => hy.imp (hup y).mpr fun hyc => ⟨rfl, hyc⟩
    exact hy (some.inj (hc.symm.trans hyc) ▸ hw)
  | wakeup q =>
    obtain ⟨p, hc, hw, hs⟩ := run hs
    obtain ⟨hq, ⟨⟩⟩ := ite_none_right_eq_some.mp hs
    exact more hq.2 (h.sched.wakeup hc hq.1)
  | new q =>
    obtain ⟨p, hc, hw, hs⟩ := run hs
    obtain ⟨hq, ⟨⟩⟩ := ite_none_right_eq_some.mp hs
    exact more hq.2 (h.sched.enqueue hq.1)
  | dispatch =>
    obtain ⟨hc, ⟨⟩⟩ := ite_none_right_eq_some.mp hs
    exact same (h.sched.dispatch hc.1)
  | tick =>
    obtain ⟨-, ⟨⟩⟩ := ite_none_right_eq_some.mp hs
    exact same (h.sched.same _ rfl rfl)
  | preempt =>
    obtain ⟨p, hc, hw, hs⟩ := run hs
    obtain ⟨-, ⟨⟩⟩ := ite_none_right_eq_some.mp hs
    exact same (h.sched.preempt hc)

structure SigGood (owner : S → P) (k : SigSys P M S) (log : List (SigEvent S)) : Prop where
  inv : SigInv owner k
  recv : ∀ s, (k.sig s).recv = sigPending s log
  log : SigLog log

namespace SigGood

variable {owner : S → P} {cfg : KernConfig} {k : SigSys P M S} {log : List (SigEvent S)} {p : P} {s : S}

section
variable (h : SigGood owner k log)
include h

section
omit [DecidableEq P]

theorem resched {kern : Kernel P M} (hs : Sched kern) (hup : ∀ x, k.waiting x ≠ none → (Up kern x ↔ Up k.kern x)) :
    SigGood owner (k.resched kern).1 ((k.resched kern).2 ++ log) :=
  ⟨h.inv.resched hs hup, h.recv, h.log⟩

theorem signal (sigs : UInt8) {wakeup : Option P} (hc : ∀ p, wakeup = some p → k.kern.current = some p) :
    SigGood owner (k.sigSignal owner cfg s sigs wakeup).1 ((k.sigSignal owner cfg s sigs wakeup).2 ++ log) := by
  have he : (k.sigSignal owner cfg s sigs wakeup).2 = [.posted s sigs] := by
    unfold SigSys.sigSignal
    split <;> rfl
  rw [he]
  refine ⟨h.inv.signal sigs hc, fun u => ?_, h.log⟩
  have hsig : ((k.sigSignal owner cfg s sigs wakeup).1.sig u).recv =
      if u = s then (k.sig s).recv ||| sigs else (k.sig u).recv := by
    unfold SigSys.sigSignal Signal.signal
    by_cases hw : ((k.sig s).recv ||| sigs) &&& (k.sig s).wait ≠ 0
    · rw [if_pos hw]
      by_cases hu : u = s <;> simp [hu]
    · rw [if_neg hw]
      by_cases hu : u = s <;> simp [hu]
  rw [hsig]
  by_cases hu : u = s
  · simp [sigPending, hu, h.recv]
  · simp [sigPending, hu, Ne.symm hu, h.recv]

theorem check (hw : k.waiting (owner s) = none) (sigs : UInt8) :
    SigGood owner (k.sigCheckSignal s sigs).1 ((k.sigCheckSignal s sigs).2 ++ log) := by
  refine ⟨h.inv.check hw sigs, fun u => ?_, ?_, h.log⟩
  · by_cases hu : u = s
    · simp [sigCheckSignal, Signal.check, sigPending, hu, h.recv]
    · simp [sigCheckSignal, sigPending, hu, Ne.symm hu, h.recv]
  · show _ = sigPending s log &&& sigs
    rw [← h.recv]
    rfl

end

theorem wait (hc : k.kern.current = some (owner s)) (hw : ∀ u m, k.waiting (owner s) = some (u, m) → u = s)
    (hz : (k.sig s).wait = 0) (sigs : UInt8) :
    SigGood owner (k.sigWaitSignal cfg (owner s) s sigs).1 ((k.sigWaitSignal cfg (owner s) s sigs).2 ++ log) := by
  have hi : SigInv owner (k.sigWaitSignal cfg (owner s) s sigs).1 := h.inv.wait hc hw hz sigs
  unfold SigSys.sigWaitSignal Signal.waitTurn at hi ⊢
  by_cases hr : (k.sig s).recv &&& sigs ≠ 0
  · rw [if_pos hr] at hi ⊢
    refine ⟨hi, fun u => ?_, ?_, hr, h.log⟩
    · by_cases hu : u = s
      · simp [sigPending, hu, h.recv]
      · simp [sigPending, hu, Ne.symm hu, h.recv]
    · show _ = sigPending s log &&& sigs
      rw [h.recv]
  · rw [if_neg hr] at hi ⊢
    refine ⟨hi, fun u => ?_, h.log⟩
    by_cases hu : u = s
    · simp [hu, h.recv]
    · simp [hu, h.recv]

/-- **Every step keeps the invariant.** -/
theorem step {a : SigAction P S} {k' : SigSys P M S} {e : List (SigEvent S)} (hs : k.step owner cfg a = some (k', e)) :
    SigGood owner k' (e ++ log) := by
  suffices hx : ∀ x, SigStep owner cfg k a x → SigGood owner x.1 (x.2 ++ log) from hx _ (h.inv.step_cases hs)
  rintro _ (⟨s, sigs, hc, ⟨-, hw⟩ | hw⟩ | ⟨s, sigs, -, -, hw⟩ | ⟨s, sigs, wakeup, hc⟩ | ⟨kern, hsched, hup, -⟩)
  · exact h.wait hc (by rw [hw]; exact nofun) (h.inv.wait_eq_zero hw) sigs
  · refine h.wait hc ?_ (h.inv.woken hc hw).wait sigs
    intro u m hu
    rw [hw] at hu
    cases hu
    rfl
  · exact h.check hw sigs
  · exact h.signal sigs hc
  · exact h.resched hsched hup

end

end SigGood

/-- The invariant, along every run. -/
theorem SigGood.of_run {owner : S → P} {cfg : KernConfig} (h : SigRun owner cfg k log) : SigGood owner k log := by
  refine h.invariant ?_ ?_
  · rintro k ⟨hs, hsig, hw⟩
    exact ⟨SigInv.init hs hsig hw, fun s => by rw [hsig]; rfl, trivial⟩
  · intro k log a k' e hg _ hs
    exact hg.step hs

/-- **Signals are never lost and never cause a spurious wake-up.** In every state of every run: the pending bits of a
`Signal` are those posted and not returned since; every return of `sig_waitSignal` or `sig_checkSignal` gives the bits
of its mask that were posted and not returned before, so that a posted bit is given by the first return whose mask has
it; `sig_waitSignal` does not return 0; a process in `sig_waitSignal` with a pending bit of its mask is ready or runs;
when it runs again the two assertions after `proc_switch` hold; and a `Signal` that wakes its owner up does not belong
to the current process. -/
theorem signals_never_lost {owner : S → P} {cfg : KernConfig} {k : SigSys P M S} {log : List (SigEvent S)}
    (h : SigRun owner cfg k log) :
    (∀ s i, hasBit (k.sig s).recv i = true ↔ PostedSince log s i) ∧
    (∀ newer e older s sigs result, log = newer ++ e :: older → e.taken = some (s, sigs, result) →
      ∀ i, hasBit result i = true ↔ hasBit sigs i = true ∧ PostedSince older s i) ∧
    (∀ s sigs result, .waited s sigs result ∈ log → result ≠ 0) ∧
    (∀ p s sigs, k.waiting p = some (s, sigs) → (k.sig s).recv &&& sigs ≠ 0 → Up k.kern p) ∧
    (∀ p s sigs, k.kern.current = some p → k.waiting p = some (s, sigs) →
      (k.sig s).wait = 0 ∧ (k.sig s).recv &&& sigs ≠ 0) ∧
    (∀ s sigs, ((k.sig s).recv ||| sigs) &&& (k.sig s).wait ≠ 0 → k.kern.current ≠ some (owner s)) := by
  have hg := SigGood.of_run h
  refine ⟨?_, ?_, ?_, ?_, ?_, ?_⟩
  · intro s i
    rw [hg.recv, hasBit_sigPending]
  · rintro newer e older s sigs result rfl he i
    rw [hg.log.tail.taken he, hasBit_and, Bool.and_eq_true, hasBit_sigPending, and_comm]
  · intro s sigs result hm
    obtain ⟨newer, older, rfl⟩ := append_of_mem hm
    exact hg.log.tail.2.1
  · intro p s sigs hw hr
    rcases hg.inv.waits p s sigs hw with ha | ha
    · exact absurd ha.recv hr
    · exact ha.up
  · intro p s sigs hc hw
    have ha := hg.inv.woken hc hw
    exact ⟨ha.wait, ha.recv⟩
  · intro s sigs hc hcur
    obtain ⟨sigs', -, ha⟩ := hg.inv.asleep_of_signal hc
    exact ha.up (.inr hcur)

end

/-- Process `false` runs and owns the only `Signal`, process `true` is ready. -/
def twoProcesses : SigSys Bool Unit Unit where
  kern := { Kernel.boot false with ready := [true] }
  sig _ := ⟨0, 0⟩
  waiting _ := none

/-- Process `false` waits for bit 0; an interrupt posts bits 0 and 1 while process `true` runs. -/
def postedWhileAsleep : Option (SigSys Bool Unit Unit × List (SigEvent Unit)) :=
  (sigMachine (fun _ => false) ⟨false, 0⟩).exec (fun _ _ => True) twoProcesses []
    [.wait () 1, .irqPost () 3, .yield, .resume]

theorem signals_never_lost_postedWhileAsleep :
    (∃ k, postedWhileAsleep = some (k, [.waited () 1 1, .posted () 3])) ∧
      ∀ k log, postedWhileAsleep = some (k, log) →
        ∀ i, hasBit (k.sig ()).recv i = true ↔ PostedSince log () i := by
  refine ⟨⟨_, rfl⟩, fun k log h => ?_⟩
  have hinit : (sigMachine (fun _ => false) ⟨false, 0⟩).init twoProcesses :=
    ⟨⟨by decide, by decide⟩, fun _ => rfl, fun _ => rfl⟩
  have hrun : SigRun (fun _ => false) ⟨false, 0⟩ k log := (Machine.Run.init hinit).exec h
  exact (signals_never_lost hrun).1 ()

end Bertos
