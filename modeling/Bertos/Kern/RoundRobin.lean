import Bertos.Kern.Proc
import Mathlib.Data.List.Rotate

/-!
# Round robin (`kern/proc.c`, `kern/preempt.c`)

Processes of one priority take turns, since `SCHED_ENQUEUE` puts a process behind the others of its priority.
-/

namespace Bertos

open List

namespace Kernel

variable {P S : Type} {k : Kernel P S} {p q : P} {hs ls : List P}

/-- The current process is preempted, or yields. -/
def turn (cfg : KernConfig) (k : Kernel P S) (preempted : Bool) : Kernel P S :=
  match k.current with
  | none => k
  | some p => if preempted then k.procPreempt cfg p else k.procYield cfg p

section Turns

variable (cfg : KernConfig) (heq : ∀ x ∈ hs, k.prioProc x = k.prioProc p) (hlow : ∀ x ∈ ls, k.prioProc x < k.prioProc p)
include heq hlow

theorem orderedInsert_prio :
    (hs ++ ls).orderedInsert (fun a b => k.prioProc b < k.prioProc a) p = hs ++ p :: ls := by
  induction hs with
  | nil =>
    cases ls with
    | nil => rfl
    | cons q ls => exact if_pos (hlow q mem_cons_self)
  | cons q hs ih =>
    obtain ⟨hq, heq⟩ := forall_mem_cons.mp heq
    rw [cons_append, orderedInsert_cons, if_neg (by simp [hq]), ih heq]
    rfl

theorem turn_next (hq : k.prioProc q = k.prioProc p) (hcur : k.current = some p) (hready : k.ready = q :: (hs ++ ls))
    (b : Bool) : (k.turn cfg b).current = some q ∧ (k.turn cfg b).ready = hs ++ p :: ls ∧
      (k.turn cfg b).prioProc = k.prioProc := by
  have hins := orderedInsert_prio heq hlow
  have hkeep : ∀ k : Kernel P S, (k.preemptResetQuantum cfg).ready = k.ready ∧ (k.preemptResetQuantum cfg).proc =
    k.proc := by
    intro k
    unfold preemptResetQuantum
    split <;> exact ⟨rfl, rfl⟩
  unfold prioProc at hins hq ⊢
  cases b with
  | true => simp [turn, hcur, procPreempt, procSchedule, hkeep, schedEnqueue, prioProc, hready, hq, hins]
  | false =>
    simp only [turn, hcur, procYield, hready]
    exact ⟨rfl, (hkeep _).1.trans hins, by rw [procSwitchTo, (hkeep _).2]; rfl⟩

/-- **Round robin**: however the processes of the highest priority are preempted or yield, each turn moves the next one
to the front, and the others wait in order. -/
theorem roundRobin (hcur : k.current = some p) (hready : k.ready = hs ++ ls) (hne : hs ≠ []) (turns : List Bool) :
    (turns.foldl (turn cfg) k).current = ((p :: hs).rotate turns.length).head? ∧
      (turns.foldl (turn cfg) k).ready = ((p :: hs).rotate turns.length).tail ++ ls := by
  induction turns generalizing k p hs with
  | nil => simp [hcur, hready]
  | cons b turns ih =>
    obtain ⟨q, hs, rfl⟩ := exists_cons_of_ne_nil hne
    obtain ⟨hq, heq⟩ := forall_mem_cons.mp heq
    obtain ⟨hcur', hready', hprio⟩ := turn_next cfg heq hlow hq hcur hready b
    rw [length_cons, rotate_cons_succ, foldl_cons]
    refine ih ?_ ?_ hcur' (by simpa using hready') (by simp)
    · simpa [hprio, hq, or_imp, forall_and] using heq
    · simpa [hprio, hq] using hlow

end Turns

theorem roundRobin_three : ([true, false].foldl (turn ⟨true, 1⟩)
    { (boot 0 : Kernel ℕ Unit) with ready := [1, 2] }).current = some 2 :=
  (@roundRobin _ _ _ _ [1, 2] _ ⟨true, 1⟩ (by simp [prioProc, boot]) (forall_mem_nil _) rfl rfl (by simp) _).1

end Kernel

end Bertos
