import Mathlib.Data.List.Basic

/-!
# Message authentication codes (`sec/mac.h`)

A MAC is an object with a context: `set_key`, and then any number of computations of `begin`, `update`s and `final`.
`Mac.Computes` says that every tag is a function of the key and of the concatenated updates; then so are the tags of all
computations after one `set_key` (`Mac.Computes.runs`).
-/

namespace Bertos

variable {σ : Type*}

/-- `Mac`, over the state of the context. -/
structure Mac (σ : Type*) where
  setKey : σ → List UInt8 → σ
  begin : σ → σ
  update : σ → List UInt8 → σ
  final : σ → σ × List UInt8
  digestLen : ℕ
  keyLen : ℕ

/-- A whole computation: the context afterwards and the tag. -/
def Mac.run (m : Mac σ) (s : σ) (chunks : List (List UInt8)) : σ × List UInt8 :=
  m.final (chunks.foldl m.update (m.begin s))

def Mac.runs (m : Mac σ) : σ → List (List (List UInt8)) → List (List UInt8)
  | _, [] => []
  | s, chunks :: rest => (m.run s chunks).2 :: m.runs (m.run s chunks).1 rest

/-- From every context that is `ok`, a key that is `fits` makes the context `ready`, and it stays so after every message
that is `valid`, whose tag is `M`. -/
structure Mac.Computes (m : Mac σ) (ok : σ → Prop) (fits : List UInt8 → Prop) (ready : List UInt8 → σ → Prop)
    (valid : List UInt8 → Prop) (M : List UInt8 → List UInt8 → List UInt8) : Prop where
  setKey : ∀ {s : σ} {key : List UInt8}, ok s → fits key → ready key (m.setKey s key)
  run : ∀ {s : σ} {key : List UInt8} (chunks : List (List UInt8)), ready key s → valid chunks.flatten →
    ready key (m.run s chunks).1 ∧ (m.run s chunks).2 = M key chunks.flatten
  length : ∀ key msg : List UInt8, (M key msg).length = m.digestLen

/-- The tags of all computations after one `set_key`. -/
theorem Mac.Computes.runs {m : Mac σ} {ok : σ → Prop} {fits : List UInt8 → Prop} {ready : List UInt8 → σ → Prop}
    {valid : List UInt8 → Prop} {M : List UInt8 → List UInt8 → List UInt8} (hm : m.Computes ok fits ready valid M)
    {s : σ} {key : List UInt8} (hs : ready key s) {messages : List (List (List UInt8))}
    (hvalid : ∀ chunks ∈ messages, valid chunks.flatten) :
    m.runs s messages = messages.map fun chunks => M key chunks.flatten := by
  induction messages generalizing s with
  | nil => rfl
  | cons chunks rest ih =>
    obtain ⟨hnext, htag⟩ := hm.run chunks hs (hvalid chunks List.mem_cons_self)
    rw [Mac.runs, htag, ih hnext fun c hc => hvalid c (List.mem_cons_of_mem _ hc)]
    rfl

end Bertos
