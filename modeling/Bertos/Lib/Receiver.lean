import Mathlib.Data.List.Basic
import Mathlib.Tactic.Common

/-!
# Receivers of escaped bytes

A receiver takes one character after the other; a character may complete a message. `feed` collects the messages of a
whole stream. A sender puts an escape character in front of each special one (`stuff`), and a receiver that undoes the
escapes, character by character, undoes those of a whole text (`feed_stuff`).
-/

namespace Receiver

variable {S α M : Type*}

/-- The messages of a stream, and the state that it leaves. -/
def feed (step : S → α → S × Option M) : S → List α → S × List M
  | s, [] => (s, [])
  | s, c :: cs => ((feed step (step s c).1 cs).1, (step s c).2.toList ++ (feed step (step s c).1 cs).2)

variable (step : S → α → S × Option M)

theorem feed_cons (s : S) (c : α) (cs : List α) : feed step s (c :: cs) =
    ((feed step (step s c).1 cs).1, (step s c).2.toList ++ (feed step (step s c).1 cs).2) := rfl

theorem feed_cons_none {s s' : S} {c : α} (h : step s c = (s', none)) (cs : List α) :
    feed step s (c :: cs) = feed step s' cs := by
  rw [feed_cons, h]
  rfl

theorem feed_append (s : S) (cs ds : List α) : feed step s (cs ++ ds) =
    ((feed step (feed step s cs).1 ds).1, (feed step s cs).2 ++ (feed step (feed step s cs).1 ds).2) := by
  induction cs generalizing s with
  | nil => rfl
  | cons c cs ih => rw [List.cons_append, feed_cons, feed_cons, ih, List.append_assoc]

theorem feed_append_quiet {s s' : S} {cs : List α} (h : feed step s cs = (s', [])) (ds : List α) :
    feed step s (cs ++ ds) = feed step s' ds := by
  rw [feed_append, h]
  rfl

theorem feed_quiet_split {s s' : S} {cs ds : List α} (h : feed step s (cs ++ ds) = (s', [])) :
    ∃ s₁, feed step s cs = (s₁, []) ∧ feed step s₁ ds = (s', []) := by
  rw [feed_append, Prod.mk.injEq, List.append_eq_nil_iff] at h
  obtain ⟨hs, hcs, hds⟩ := h
  exact ⟨_, Prod.ext rfl hcs, Prod.ext hs hds⟩

/-- **Invariants of a stream**, with what holds of every message. -/
theorem feed_invariant {I : S → Prop} {Q : M → Prop}
    (hstep : ∀ s c, I s → I (step s c).1 ∧ ∀ m ∈ (step s c).2, Q m) {s : S} (hs : I s) (cs : List α) :
    I (feed step s cs).1 ∧ ∀ m ∈ (feed step s cs).2, Q m := by
  induction cs generalizing s with
  | nil => exact ⟨hs, fun _ hm => nomatch hm⟩
  | cons c cs ih =>
    obtain ⟨hI, hQ⟩ := hstep s c hs
    obtain ⟨hI', hQ'⟩ := ih hI
    exact ⟨hI', List.forall_mem_append.mpr ⟨fun m hm => hQ m (Option.mem_toList.mp hm), hQ'⟩⟩

/-- A text with an escape in front of each special character. -/
def stuff (special : α → Bool) (esc : α) (bs : List α) : List α :=
  bs.flatMap fun c => if special c then [esc, c] else [c]

variable {special : α → Bool} {esc : α}

theorem stuff_cons (c : α) (bs : List α) :
    stuff special esc (c :: bs) = (if special c then [esc, c] else [c]) ++ stuff special esc bs := rfl

theorem stuff_append (bs bs' : List α) : stuff special esc (bs ++ bs') = stuff special esc bs ++
    stuff special esc bs' :=
  List.flatMap_append

/-- **A whole text is undone**: `put` is what a receiver does with a character of the text, and `P` what the receiver
needs to know before the characters that are still to come. -/
theorem feed_stuff {step : S → α → S × Option M} {put : S → α → S} {P : List α → S → Prop}
    (hplain : ∀ s c bs, P (c :: bs) s → special c = false → step s c = (put s c, none))
    (hesc : ∀ s c bs, P (c :: bs) s → special c = true → ∃ s', step s esc = (s', none) ∧ step s' c = (put s c, none))
    (hput : ∀ s c bs, P (c :: bs) s → P bs (put s c)) {s : S} {bs : List α} (h : P bs s) :
    feed step s (stuff special esc bs) = (bs.foldl put s, []) := by
  induction bs generalizing s with
  | nil => rfl
  | cons c bs ih =>
    have hrest := ih (hput s c bs h)
    rw [stuff_cons]
    cases hc : special c with
    | false =>
      rw [if_neg Bool.false_ne_true, List.singleton_append, feed_cons_none step (hplain s c bs h hc), hrest]
      rfl
    | true =>
      obtain ⟨s', he, hs'⟩ := hesc s c bs h hc
      rw [if_pos rfl, List.cons_append, List.singleton_append, feed_cons_none step he, feed_cons_none step hs', hrest]
      rfl

end Receiver
