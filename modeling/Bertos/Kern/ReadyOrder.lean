import Bertos.Kern.Invariant
import Bertos.Lib.OrderedInsert

/-!
# The order of the ready list

`proc_ready_list` is sorted by priority, but `proc_setPri` writes a priority first and moves the process to its place
later, in a section of its own. Whoever is put in the list in between may stop at the process that was changed, before
others of a higher priority, and nothing repairs that later (`setPri_irq_unsorted`). Without this the list is sorted
whenever no `proc_setPri` is in progress (`ready_sorted`).
-/

namespace Bertos

open Kernel Option

section
variable {P S : Type} [DecidableEq P] [DecidableEq S]

/-- The process whose priority a `proc_setPri` in progress has changed. -/
def Pc.target : Pc P S → Option P
  | .setPriEnqueue q => some q
  | _ => none

variable {pc : Pc P S}

omit [DecidableEq P] [DecidableEq S] in
theorem Pc.eq_of_target {q : P} (h : pc.target = some q) : pc = .setPriEnqueue q := by
  revert h
  cases pc <;> simp [Pc.target]

namespace Kernel

def wakes (k : Kernel P S) (q : P) (sigs : UInt8) : Bool :=
  ((k.proc q).recv ||| sigs) &&& (k.proc q).wait ≠ 0

/-- The step puts a process in the ready list. -/
def enqueues (k : Kernel P S) : KernAction P S → Bool
  | .call (.new q) => q.isSome
  | .call .yield => true
  | .call (.sigSend q sigs) | .call (.sigPost q sigs) | .irqPost q sigs => k.wakes q sigs
  | .call _ | .tick => false
  | .advance =>
    match k.current with
    | none => false
    | some p =>
      match (k.proc p).pc with
      | .releaseWakeup _ q => q.isSome
      | .setPriEnqueue q => q ∈ k.ready
      | _ => false
  | .preempt => true

/-- While a process of the ready list is between the two parts of `proc_setPri`, the only one that is put in the list is
this process, by this call. -/
def SetPriAlone (k : Kernel P S) (a : KernAction P S) : Prop :=
  k.enqueues a = true → ∀ x q, (k.proc x).pc = .setPriEnqueue q → q ∈ k.ready → a = .advance ∧ k.current = some x

/-- The ready list is sorted by priority, highest first. -/
def Sorted (k : Kernel P S) : Prop :=
  k.ready.Pairwise fun a b => k.prioProc b ≤ k.prioProc a

/-- No `proc_setPri` on `x` is in progress. -/
def Clean (k : Kernel P S) (x : P) : Prop :=
  ∀ p, (k.proc p).pc.target ≠ some x

/-- The ready list is sorted, but for the processes between the two parts of `proc_setPri`. -/
def SortedClean (k : Kernel P S) : Prop :=
  k.ready.Pairwise fun a b => k.Clean a → k.Clean b → k.prioProc b ≤ k.prioProc a

variable {cfg : KernConfig} {k k' : Kernel P S} {p q : P} {b : Process P S}

section
omit [DecidableEq S]

theorem setProc_prioProc_of_ne {x : P} (h : x ≠ q) : (k.setProc q b).prioProc x = k.prioProc x := by
  rw [prioProc, setProc_proc, if_neg h, prioProc]

theorem setPc_prioProc (k : Kernel P S) (p : P) (pc : Pc P S) : (k.setPc p pc).prioProc = k.prioProc := by
  funext x
  unfold prioProc setPc
  rw [setProc_proc]
  split
  · next hx => rw [hx]
  · rfl

end

section
omit [DecidableEq P] [DecidableEq S]

theorem Sorted.clean (h : k.Sorted) : k.SortedClean :=
  h.imp fun hab _ _ => hab

theorem SortedClean.sorted (h : k.SortedClean) (hc : ∀ x ∈ k.ready, k.Clean x) : k.Sorted :=
  h.imp_of_mem fun ha hb hab => hab (hc _ ha) (hc _ hb)

/-- The order is kept where the list only loses processes, and those that count already counted with the same
priority. -/
theorem SortedClean.mono (h : k.SortedClean) (hr : k'.ready.Sublist k.ready)
    (hx : ∀ x ∈ k'.ready, k'.Clean x → k.Clean x ∧ k'.prioProc x = k.prioProc x) : k'.SortedClean := by
  refine List.Pairwise.imp_of_mem (fun {a b} ha hb hab hca hcb => ?_) (h.sublist hr)
  obtain ⟨hca, hpa⟩ := hx a ha hca
  obtain ⟨hcb, hpb⟩ := hx b hb hcb
  rw [hpa, hpb]
  exact hab hca hcb

end

/-! ## What keeps the order -/

/-- The same priorities, the same calls of `proc_setPri` in progress, and nobody is put in the list. -/
structure OrderKept (k k' : Kernel P S) : Prop where
  target : ∀ y, (k'.proc y).pc.target = (k.proc y).pc.target
  pri : ∀ y, (k'.proc y).pri = (k.proc y).pri
  ready : k'.ready.Sublist k.ready

namespace OrderKept

section
omit [DecidableEq P] [DecidableEq S]

theorem of_proc (hp : k'.proc = k.proc) (hr : k'.ready.Sublist k.ready) : OrderKept k k' :=
  ⟨fun y => by rw [hp], fun y => by rw [hp], hr⟩

theorem trans {k'' : Kernel P S} (h : OrderKept k k') (h' : OrderKept k' k'') : OrderKept k k'' :=
  ⟨fun y => (h'.target y).trans (h.target y), fun y => (h'.pri y).trans (h.pri y), h'.ready.trans h.ready⟩

end

section
omit [DecidableEq S]

theorem setProc (ht : b.pc.target = (k.proc p).pc.target) (hp : b.pri = (k.proc p).pri) :
    OrderKept k (k.setProc p b) := by
  refine ⟨fun y => ?_, fun y => ?_, List.Sublist.refl _⟩
  · rw [setProc_proc]
    split
    · next hy => rw [hy, ht]
    · rfl
  · rw [setProc_proc]
    split
    · next hy => rw [hy, hp]
    · rfl

theorem setPc (ht : pc.target = (k.proc p).pc.target) : OrderKept k (k.setPc p pc) :=
  setProc ht rfl

end

section
omit [DecidableEq P] [DecidableEq S]

theorem schedule : OrderKept k k.procSchedule := by
  refine of_proc (by simp) ?_
  unfold procSchedule
  split
  · exact List.Sublist.refl _
  · next q r hr =>
    rw [hr]
    exact List.sublist_cons_self q r

theorem resetQuantum : OrderKept k (k.preemptResetQuantum cfg) := by
  refine of_proc (by simp) ?_
  unfold preemptResetQuantum
  split <;> exact List.Sublist.refl _

theorem switch : OrderKept k (k.procSwitch cfg) :=
  resetQuantum.trans schedule

theorem forbid : OrderKept k (k.procForbid cfg) := by
  refine of_proc (by simp) ?_
  unfold procForbid
  split <;> exact List.Sublist.refl _

theorem permit : OrderKept k (k.procPermit cfg) := by
  refine of_proc (by simp) ?_
  unfold procPermit
  split <;> exact List.Sublist.refl _

end

omit [DecidableEq P] in
theorem setSem {s : S} {b : Semaphore P} : OrderKept k (k.setSem s b) :=
  of_proc rfl (List.Sublist.refl _)

section
omit [DecidableEq P] [DecidableEq S]

theorem sortedClean (h : OrderKept k k') (hk : k.SortedClean) : k'.SortedClean :=
  hk.mono h.ready fun x _ hc => ⟨fun p => h.target p ▸ hc p, h.pri x⟩

theorem sorted (h : OrderKept k k') (hk : k.Sorted) : k'.Sorted := by
  refine (hk.sublist h.ready).imp fun {a b} hab => ?_
  unfold prioProc at hab ⊢
  rw [h.pri, h.pri]
  exact hab

end

end OrderKept

/-! ## Putting a process in the list -/

namespace Sorted

section
variable (h : k.Sorted)
include h

section
omit [DecidableEq P] [DecidableEq S]

theorem enqueue (q : P) : (k.schedEnqueue q).Sorted := by
  refine pairwise_orderedInsert h ?_ ?_ ?_
  · exact fun b _ hb => not_lt.mp hb
  · exact fun b _ hb => le_of_lt hb
  · exact fun b _ c _ hb hc => le_trans hc (le_of_lt hb)

theorem enqueueHead (q : P) : (k.schedEnqueueHead q).Sorted := by
  refine pairwise_orderedInsert h ?_ ?_ ?_
  · exact fun b _ hb => le_of_lt (not_le.mp hb)
  · exact fun b _ hb => hb
  · exact fun b _ c _ hb hc => le_trans hc hb

theorem switchTo (p q : P) : (k.procSwitchTo cfg p q).Sorted := by
  have hk : ((k.schedEnqueue p).preemptResetQuantum cfg).Sorted := OrderKept.resetQuantum.sorted (h.enqueue p)
  exact hk

theorem wakeup (p q : P) : (k.procWakeup cfg p q).Sorted := by
  unfold procWakeup
  split
  · exact h.switchTo p q
  · exact h.enqueueHead q

theorem yield (p : P) : (k.procYield cfg p).Sorted := by
  unfold procYield
  split
  · exact h
  · next q r hr =>
    have hr' : Sorted { k with ready := r } := by
      have hkept : OrderKept k { k with ready := r } := OrderKept.of_proc rfl (hr ▸ List.sublist_cons_self q r)
      exact hkept.sorted h
    exact hr'.switchTo p q

end

omit [DecidableEq S] in
theorem signal (q : P) (sigs : UInt8) (wakeup : Option P) : (k.sigSignal cfg q sigs wakeup).Sorted := by
  unfold sigSignal
  split
  · have hwoken : (k.setProc q { k.proc q with recv := (k.proc q).recv ||| sigs, wait := 0 }).Sorted :=
      OrderKept.sorted (OrderKept.setProc rfl rfl) h
    cases wakeup with
    | none => exact hwoken.enqueueHead q
    | some p => exact hwoken.wakeup p q
  · exact OrderKept.sorted (OrderKept.setProc rfl rfl) h

omit [DecidableEq P] [DecidableEq S] in
theorem preempt (p : P) : (k.procPreempt cfg p).Sorted :=
  (OrderKept.resetQuantum.trans OrderKept.schedule).sorted (h.enqueue p)

end

end Sorted

/-! ## The steps -/

section
omit [DecidableEq S]

theorem OrderKept.signal {sigs : UInt8} {wakeup : Option P} (h : k.wakes q sigs = false) :
    OrderKept k (k.sigSignal cfg q sigs wakeup) := by
  unfold wakes at h
  rw [sigSignal, if_neg (by simpa using h)]
  exact OrderKept.setProc rfl rfl

theorem OrderKept.sigWait {sigs : UInt8} (hp : (k.proc p).pc.target = none) :
    OrderKept k (k.sigWaitSignal cfg p sigs) := by
  unfold sigWaitSignal
  split
  · exact OrderKept.setProc hp.symm rfl
  · exact (OrderKept.setProc (b := { k.proc p with wait := sigs, pc := .sigAsleep sigs }) hp.symm rfl).trans .switch

theorem SortedClean.signal {sigs : UInt8} {wakeup : Option P} (h : k.SortedClean)
    (hc : k.wakes q sigs = true → ∀ x ∈ k.ready, k.Clean x) : (k.sigSignal cfg q sigs wakeup).SortedClean := by
  cases hw : k.wakes q sigs with
  | true => exact ((h.sorted (hc hw)).signal q sigs wakeup).clean
  | false => exact (OrderKept.signal hw).sortedClean h

theorem Sorted.setProc (h : k.Sorted) (hq : q ∉ k.ready) : (k.setProc q b).Sorted := by
  have hne : ∀ x ∈ k.ready, x ≠ q := fun x hx hxq => hq (hxq ▸ hx)
  refine List.Pairwise.imp_of_mem (fun {x y} hx hy hxy => ?_) h
  rw [setProc_prioProc_of_ne (hne x hx), setProc_prioProc_of_ne (hne y hy)]
  exact hxy

theorem Sorted.setPc (h : k.Sorted) : (k.setPc p pc).Sorted := by
  unfold Sorted
  rw [setPc_prioProc]
  exact h

theorem SortedClean.new {q : Option P} (h : k.SortedClean) (hc : q.isSome = true → ∀ x ∈ k.ready, k.Clean x)
    (hq : ∀ x ∈ q, x ∉ k.ready) : ((k.procNew q).1).SortedClean := by
  cases q with
  | none => exact h
  | some q =>
    have hfreed : Sorted { k with zombies := [] } := h.sorted (hc rfl)
    exact ((hfreed.setProc (hq q rfl)).enqueue q).clean

/-- The first part of `proc_setPri`: the process that was changed no longer counts. -/
theorem SortedClean.setPri {pri : ℤ} (h : k.SortedClean) (hpc : (k.proc p).pc = .user) (hp : p ∉ k.ready) :
    (k.procSetPri p q pri).SortedClean := by
  unfold procSetPri
  dsimp only
  split_ifs with hpri hq
  · exact h
  · refine h.mono (List.Sublist.refl _) fun x hx hc => ⟨fun y => ?_, ?_⟩
    · have hcy := hc y
      rw [setProc_proc] at hcy
      split at hcy
      · next hy => rwa [hy]
      · exact hcy
    · have hxq : x ≠ q := fun hxq => hp (hq ▸ hxq ▸ hx)
      exact setProc_prioProc_of_ne hxq
  · refine h.mono (List.Sublist.refl _) fun x hx hc => ⟨fun y => ?_, ?_⟩
    · by_cases hy : y = p
      · rw [hy, hpc]
        exact nofun
      · have hcy := hc y
        rw [setPc_pc_of_ne hy, setProc_proc] at hcy
        split at hcy
        · next hyq => rwa [hyq]
        · exact hcy
    · have hxq : x ≠ q := fun hxq => hc p (by rw [setPc_pc, if_pos rfl, hxq]; rfl)
      rw [setPc_prioProc, setProc_prioProc_of_ne hxq]

/-- The second part: the process that was changed is taken to its place. -/
theorem SortedClean.reenqueue (h : k.SortedClean) (hpc : (k.proc p).pc = .setPriEnqueue q) (hnd : k.ready.Nodup)
    (hc : q ∈ k.ready → ∀ x ∈ k.ready, x ≠ q → k.Clean x) : ((k.schedReenqueue q).setPc p .user).SortedClean := by
  unfold schedReenqueue
  split
  · next hq =>
    have herase : Sorted { k with ready := k.ready.erase q } := by
      refine List.Pairwise.imp_of_mem (fun {x y} hx hy hxy => ?_) (h.sublist List.erase_sublist)
      obtain ⟨hxq, hx⟩ := hnd.mem_erase_iff.mp hx
      obtain ⟨hyq, hy⟩ := hnd.mem_erase_iff.mp hy
      exact hxy (hc hq x hx hxq) (hc hq y hy hyq)
    exact (herase.enqueue q).setPc.clean
  · next hq =>
    refine h.mono (List.Sublist.refl _) fun x hx hcx => ⟨fun y => ?_, by rw [setPc_prioProc]⟩
    by_cases hy : y = p
    · rw [hy, hpc]
      exact fun hxq => hq (some.inj hxq ▸ hx)
    · have hcy := hcx y
      rwa [setPc_pc_of_ne hy] at hcy

/-- While nobody of the list is between the two parts of `proc_setPri`, the whole list is sorted. -/
theorem SetPriAlone.clean {a : KernAction P S} (h : k.SetPriAlone a) (ha : a ≠ .advance) (he : k.enqueues a = true) :
    ∀ x ∈ k.ready, k.Clean x := by
  intro x hx p hp
  exact ha (h he p x (Pc.eq_of_target hp) hx).1

theorem SortedClean.call {c : KernCall P S} (h : k.SortedClean) (ha : k.SetPriAlone (.call c))
    (hpc : (k.proc p).pc = .user) (hp : p ∉ k.ready) (hnew : ∀ q, c = .new (some q) → q ∉ k.ready) :
    ((k.call cfg p c).1).SortedClean := by
  have hc := ha.clean nofun
  have ht : (k.proc p).pc.target = none := by rw [hpc]; rfl
  have hforbid : ∀ pc : Pc P S, pc.target = none → ((k.procForbid cfg).setPc p pc).SortedClean := fun pc hpc' =>
    (OrderKept.forbid.trans (OrderKept.setPc (by rw [procForbid_proc, ht, hpc']))).sortedClean h
  cases c with
  | new q => exact h.new hc (fun x hx => hnew x (by rw [hx]))
  | yield => exact ((h.sorted (hc rfl)).yield p).clean
  | setPri q pri => exact h.setPri hpc hp
  | sigWait sigs => exact (OrderKept.sigWait ht).sortedClean h
  | sigSend q sigs | sigPost q sigs => exact h.signal hc
  | exit | semObtain s | semAttempt s | semRelease s => exact hforbid _ rfl

end

/-- `sem_obtain`, `sem_attempt` and `sem_release` between `proc_forbid` and `proc_permit`. -/
theorem OrderKept.setSemPc {s : S} {b : Semaphore P} (hp : (k.proc p).pc.target = none)
    (hpc : pc.target = none) : OrderKept k ((k.setSem s b).setPc p pc) :=
  OrderKept.setSem.trans (OrderKept.setPc (by rw [setSem_proc, hp, hpc]))

section
variable {s : S} (hp : (k.proc p).pc.target = none)
include hp

theorem OrderKept.semObtain : OrderKept k (k.semObtain p s).1 := by
  unfold Kernel.semObtain
  split <;> exact setSemPc hp rfl

theorem OrderKept.semAttempt : OrderKept k (k.semAttempt p s).1 := by
  unfold Kernel.semAttempt
  split
  · exact OrderKept.setPc hp.symm
  · exact setSemPc hp rfl

theorem OrderKept.semRelease : OrderKept k (k.semRelease p s).1 := by
  unfold Kernel.semRelease
  dsimp only
  split
  · split <;> exact setSemPc hp rfl
  · exact setSemPc hp rfl

end

/-- The ready list stays sorted while a process runs on. -/
theorem SortedClean.resume {e : List (KernEvent P S)} (h : k.SortedClean) (hp : k.current = some p)
    (hnd : k.ready.Nodup) (ha : k.SetPriAlone .advance) (hs : k.resume cfg p = some (k', e)) : k'.SortedClean := by
  have huser : (k.proc p).pc.target = none → OrderKept k (k.setPc p .user) := fun hpc => OrderKept.setPc hpc.symm
  have hpermit : ∀ pc : Pc P S, pc.target = (k.proc p).pc.target → OrderKept k ((k.procPermit cfg).setPc p pc) :=
    fun pc hpc => OrderKept.permit.trans (OrderKept.setPc (by rw [procPermit_proc, hpc]))
  have hfst : ∀ {r : Kernel P S × List (KernEvent P S)}, some r = some (k', e) → OrderKept k r.1 → k'.SortedClean :=
    fun hr hk => (congrArg Prod.fst (some.inj hr) ▸ hk).sortedClean h
  -- a process of the list that is between the two parts of `proc_setPri` was put there by the current process
  have hc : k.enqueues .advance = true → ∀ x ∈ k.ready, (k.proc p).pc.target ≠ some x → k.Clean x := by
    intro he x hx hpx y hy
    have hyp := (ha he y x (Pc.eq_of_target hy) hx).2
    rw [hp] at hyp
    exact hpx (some.inj hyp ▸ hy)
  revert hs
  unfold Kernel.resume
  cases hpc : (k.proc p).pc with
  | user => rintro ⟨⟩
  | setPriEnqueue q =>
    rintro ⟨⟩
    refine h.reenqueue hpc hnd fun hq x hx hxq => hc (by simp [enqueues, hp, hpc, hq]) x hx fun hqx => hxq ?_
    rw [hpc] at hqx
    exact (some.inj hqx).symm
  | releaseWakeup s q =>
    have hidle : OrderKept k (k.setPc p .user) := huser (by rw [hpc]; rfl)
    cases q with
    | none =>
      rintro ⟨⟩
      exact hidle.sortedClean h
    | some q =>
      rintro ⟨⟩
      have hsorted := h.sorted fun x hx => hc (by simp [enqueues, hp, hpc]) x hx (by rw [hpc]; exact nofun)
      exact ((hidle.sorted hsorted).wakeup p q).clean
  | obtainVerify s =>
    intro hs
    exact hfst hs (OrderKept.semObtain (by rw [hpc]; rfl))
  | attemptVerify s =>
    intro hs
    exact hfst hs (OrderKept.semAttempt (by rw [hpc]; rfl))
  | releaseVerify s =>
    intro hs
    exact hfst hs (OrderKept.semRelease (by rw [hpc]; rfl))
  | sigAsleep sigs =>
    rintro ⟨⟩
    exact (OrderKept.sigWait (by rw [hpc]; rfl)).sortedClean h
  | obtainSwitch s =>
    rintro ⟨⟩
    exact (OrderKept.trans (OrderKept.setPc (by rw [hpc]; rfl)) OrderKept.switch).sortedClean h
  | obtainAsleep s | exitForbidden =>
    rintro ⟨⟩
    exact (huser (by rw [hpc]; rfl)).sortedClean h
  | obtainQueued s | obtainLocked s | attemptDone s result | releaseDone s q =>
    rintro ⟨⟩
    exact (hpermit _ (by rw [hpc]; rfl)).sortedClean h

/-- **One step**: the order is kept by every step that puts nobody in the list between the two parts
of `proc_setPri`. -/
theorem SortedClean.step {a : KernAction P S} {e : List (KernEvent P S)} (h : k.SortedClean) (hnd : k.ready.Nodup)
    (hcur : ∀ p, k.current = some p → p ∉ k.ready) (hnew : ∀ q, a = .call (.new (some q)) → q ∉ k.ready)
    (ha : k.SetPriAlone a) (hs : k.step cfg a = some (k', e)) : k'.SortedClean := by
  revert hs
  unfold Kernel.step
  cases a with
  | call c =>
    dsimp only
    split
    · next p _ hp =>
      split
      · next hpc =>
        intro hs
        have hk : ((k.call cfg p c).1).SortedClean := h.call ha hpc (hcur p hp) fun q hq => hnew q (by rw [hq])
        rwa [some.inj hs] at hk
      · rintro ⟨⟩
    · rintro ⟨⟩
  | advance =>
    unfold Kernel.advance
    dsimp only
    split
    · intro hs
      obtain ⟨p, hp, hs⟩ := bind_eq_some_iff.mp hs
      exact h.resume hp hnd ha hs
    · rintro ⟨⟩
      exact OrderKept.permit.sortedClean h
    · rintro ⟨⟩
      exact OrderKept.switch.sortedClean h
    · split
      · rintro ⟨⟩
      · rintro ⟨⟩
        exact OrderKept.schedule.sortedClean h
  | irqPost q sigs =>
    dsimp only
    split
    · rintro ⟨⟩
      exact h.signal (ha.clean nofun)
    · rintro ⟨⟩
  | tick =>
    dsimp only
    split
    · rintro ⟨⟩
      exact h
    · rintro ⟨⟩
  | preempt =>
    dsimp only
    split
    · next p hp =>
      split
      · rintro ⟨⟩
        exact ((h.sorted (ha.clean nofun rfl)).preempt p).clean
      · rintro ⟨⟩
    · rintro ⟨⟩

omit [DecidableEq S] in
theorem SetPriAlone.of_user {a : KernAction P S} (h : ∀ x, (k.proc x).pc = .user) : k.SetPriAlone a := by
  intro _ x q hx
  rw [h x] at hx
  cases hx

end Kernel

/-! ## Runs -/

/-- The condition on the steps of a run: `Kernel.SetPriAlone`, and, in the preemptive kernel, that no preemption links a
process into two lists. -/
def ReadySafe (cfg : KernConfig) (k : Kernel P S) (a : KernAction P S) : Prop :=
  (cfg.preempt = true → SwitchAtomic k a) ∧ k.SetPriAlone a

variable {cfg : KernConfig} {k : Kernel P S} {t : List (KernEvent P S)}

omit [DecidableEq S] in
theorem ReadySafe.coop {a : KernAction P S} {n : ℕ} (h : k.SetPriAlone a) : ReadySafe ⟨false, n⟩ k a :=
  ⟨fun hp => absurd hp Bool.false_ne_true, h⟩

theorem KernGood.notMem_ready {M : UInt8 → Prop} {loc : P → Option (KernPlace P S)} (h : KernGood cfg M k t loc)
    {q : P} (hq : ¬ Alive t q) : q ∉ k.ready := by
  intro hr
  have hloc := (h.inv.placed.at_iff q .ready).mp hr
  refine hq ((h.tally.alive_iff q).mpr ?_)
  rw [hloc]
  rfl

theorem KernRun.sortedClean (h : KernRun cfg (ReadySafe cfg) k t) : k.SortedClean := by
  induction h with
  | boot m => exact List.Pairwise.nil
  | @step k k' t e a h hok hnew hs ih =>
    obtain ⟨loc, hg⟩ := h.good (fun _ _ hok => hok.1) (fun _ a _ => MasksIn.trivial a)
    refine ih.step hg.inv.placed.ready (fun p hp hr => hg.inv.linkedOnce.2 p hr hp) (fun q hq => ?_) hok.2 hs
    subst hq
    exact hg.notMem_ready hnew

/-- **The ready list is sorted** by priority in every run in which nobody is put in it while a process of the list is
between the two parts of `proc_setPri`, whenever no `proc_setPri` is in progress. -/
theorem ready_sorted (h : KernRun cfg (ReadySafe cfg) k t) (hno : ∀ p q, (k.proc p).pc ≠ .setPriEnqueue q) :
    k.ready.Pairwise fun a b => k.prioProc b ≤ k.prioProc a :=
  h.sortedClean.sorted fun x _ p hp => hno p x (Pc.eq_of_target hp)

end

/-- Two processes are created and the first of them is given a lower priority, up to `sched_reenqueue`. -/
def loweredOne : Kernel ℕ Unit :=
  ((((Kernel.boot 0).procNew (some 1)).1.procNew (some 2)).1).procSetPri 0 1 (-1)

/-- The theorem at work: after `sched_reenqueue` the process of the lower priority is the second of the list. -/
theorem ready_sorted_loweredOne : ((loweredOne.schedReenqueue 1).setPc 0 .user).ready = [2, 1] ∧
    [2, 1].Pairwise fun a b => ((loweredOne.schedReenqueue 1).setPc 0 .user).prioProc b ≤
      ((loweredOne.schedReenqueue 1).setPc 0 .user).prioProc a := by
  have hboot : ∀ x, ((boot 0 : Kernel ℕ Unit).proc x).pc = .user := fun _ => rfl
  have hnew : ∀ (k : Kernel ℕ Unit) q, (∀ x, (k.proc x).pc = .user) → ∀ x, ((k.procNew (some q)).1.proc x).pc =
    .user := by
    intro k q hk x
    simp only [procNew, schedEnqueue, setProc_proc]
    split
    · rfl
    · exact hk x
  have hrest : ∀ x, x ≠ 0 → (loweredOne.proc x).pc = .user := fun x hx =>
    (procSetPri_pc _ _ hx).trans (hnew _ 2 (hnew _ 1 hboot) x)
  have hinit : KernRun ⟨false, 0⟩ (ReadySafe ⟨false, 0⟩) (boot 0 : Kernel ℕ Unit) [.created 0] := .boot 0
  have hone := hinit.step (a := KernAction.call (.new (some 1))) (.coop (.of_user hboot)) (by decide) rfl
  have htwo := hone.step (a := KernAction.call (.new (some 2))) (.coop (.of_user (hnew _ 1 hboot))) (by decide) rfl
  have hset : KernRun ⟨false, 0⟩ (ReadySafe ⟨false, 0⟩) loweredOne _ :=
    htwo.step (a := KernAction.call (.setPri 1 (-1))) (.coop fun he => by cases he) trivial rfl
  have halone : loweredOne.SetPriAlone .advance := by
    refine fun _ x q hx _ => ⟨rfl, ?_⟩
    by_contra hx0
    rw [hrest x fun h0 => hx0 (by rw [h0]; rfl)] at hx
    cases hx
  have hrun := hset.step (a := KernAction.advance) (.coop halone) trivial rfl
  refine ⟨by decide, ready_sorted hrun fun p q hpq => ?_⟩
  by_cases hp : p = 0
  · simp [hp, setPc_pc] at hpq
  · rw [setPc_pc, if_neg hp, schedReenqueue_proc, hrest p hp] at hpq
    cases hpq

/-- Three processes are created; the third one waits for a signal and is given the priority -1, the first one the
priority -2, and the signal comes between the two parts of that `proc_setPri`. The processes are named by two bits. -/
def signalInSetPri : List (KernAction (Bool × Bool) Unit) :=
  [.call (.new (some (false, true))), .call (.new (some (true, false))), .call (.new (some (true, true))),
    .call .yield, .call .yield, .call .yield, .call (.sigWait 1),
    .call (.setPri (true, true) (-1)), .advance, .call (.setPri (false, true) (-2)), .irqPost (true, true) 1, .advance]

theorem signalInSetPri_runs : ((Kernel.boot (false, false)).exec ⟨false, 0⟩ (fun _ _ => True)
    [.created (false, false)] signalInSetPri).isSome := by
  decide

/-- The process that was woken up stays before one of a higher priority, with no `proc_setPri` in progress. -/
theorem setPri_irq_unsorted :
    ∃ (k : Kernel (Bool × Bool) Unit) (t : List (KernEvent (Bool × Bool) Unit)),
      KernRun ⟨false, 0⟩ (fun _ _ => True) k t ∧ k.irqEnabled = true ∧ (∀ p q, (k.proc p).pc ≠ .setPriEnqueue q) ∧
        ¬ k.ready.Pairwise fun a b => k.prioProc b ≤ k.prioProc a := by
  refine ⟨_, _, (KernRun.boot (false, false)).exec (some_get signalInSetPri_runs).symm, by decide, ?_, by decide⟩
  rintro ⟨_ | _, _ | _⟩ ⟨_ | _, _ | _⟩ <;> decide

end Bertos
