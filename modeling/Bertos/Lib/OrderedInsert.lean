import Mathlib.Data.List.Sort

/-!
# Ordered insertion by a test that is an order only on the list at hand

Mathlib keeps a list sorted by `List.orderedInsert r` for a total and transitive `r`. A test of a program (a difference
that may wrap, a priority that is read from mutable memory) has these properties only for the elements that are in the
list, so the rule here asks for them there and nowhere else (`pairwise_orderedInsert`).
-/

namespace Bertos

open List

variable {α : Type} {r R : α → α → Prop} [DecidableRel r] {a : α} {l : List α}

/-- **Insertion keeps a list sorted by `R`**, when `r` tells for the elements of this list on which side of `a` they
belong. -/
theorem pairwise_orderedInsert (hl : l.Pairwise R) (hbefore : ∀ b ∈ l, ¬ r a b → R b a)
    (hafter : ∀ b ∈ l, r a b → R a b) (htrans : ∀ b ∈ l, ∀ c ∈ l, r a b → R b c → R a c) :
    (l.orderedInsert r a).Pairwise R := by
  induction l with
  | nil => simp
  | cons b l ih =>
    obtain ⟨hb, hl'⟩ := pairwise_cons.mp hl
    obtain ⟨hbefore', hbefore⟩ := forall_mem_cons.mp hbefore
    obtain ⟨hafter', hafter⟩ := forall_mem_cons.mp hafter
    rw [orderedInsert_cons]
    split
    · next h =>
      refine pairwise_cons.mpr ⟨forall_mem_cons.mpr ⟨hafter' h, fun c hc => ?_⟩, hl⟩
      exact htrans b mem_cons_self c (mem_cons_of_mem b hc) h (hb c hc)
    · next h =>
      refine pairwise_cons.mpr ⟨fun c hc => ?_, ih hl' hbefore hafter fun c hc d hd => ?_⟩
      · rcases (mem_orderedInsert r).mp hc with rfl | hc
        · exact hbefore' h
        · exact hb c hc
      · exact htrans c (mem_cons_of_mem b hc) d (mem_cons_of_mem b hd)

end Bertos
