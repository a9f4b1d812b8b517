import Mathlib.Data.List.Basic
import Mathlib.Tactic.Common

/-!
# Key derivation functions (`sec/kdf.h`)

A key derivation function produces blocks; `kdf_read` hands out their bytes in portions of any length, and keeps a
pointer to what is left of the last block. `Kdf.Produces` says what the successive blocks are. The portions put together
are then a beginning of the blocks put together, wherever they are cut (`kdfReads_prefix`).
-/

namespace Bertos

open List

variable {σ : Type*}

/-- The fields of `Kdf` that change: the bytes at the block pointer (none at `NULL`), how many of them are left to read,
and the context of the algorithm. -/
structure KdfContext (σ : Type*) where
  block : Option (List UInt8)
  toRead : ℕ
  ctx : σ

/-- The functions of `Kdf`. -/
structure Kdf (σ : Type*) where
  begin : KdfContext σ → (pwd salt : List UInt8) → KdfContext σ
  next : KdfContext σ → KdfContext σ

/-- `if (kdf->to_read == 0) kdf->next(kdf);` -/
def kdfFetch (k : Kdf σ) (s : KdfContext σ) : KdfContext σ := if s.toRead = 0 then k.next s else s

/-- `kdf_read`. A block without bytes is an assertion failure. -/
def kdfRead (k : Kdf σ) (s : KdfContext σ) (len : ℕ) : Option (KdfContext σ × List UInt8) :=
  if (kdfFetch k s).toRead = 0 then none
  else match (kdfFetch k s).block with
    | none => none
    | some block =>
      let c := min len (kdfFetch k s).toRead
      let s' : KdfContext σ := ⟨some (block.drop c), (kdfFetch k s).toRead - c, (kdfFetch k s).ctx⟩
      if len - c = 0 then some (s', block.take c)
      else (kdfRead k s' (len - c)).map fun r => (r.1, block.take c ++ r.2)
termination_by len

/-- Successive calls of `kdf_read`: the portions they return. -/
def kdfReads (k : Kdf σ) : KdfContext σ → List ℕ → Option (List (List UInt8))
  | _, [] => some []
  | s, len :: lens => (kdfRead k s len).bind fun r => (kdfReads k r.1 lens).map (r.2 :: ·)

/-- The context has produced `i` blocks, and `rest` is left of the last one. -/
structure Kdf.At (inv : ℕ → σ → Prop) (i : ℕ) (rest : List UInt8) (s : KdfContext σ) : Prop where
  ctx : inv i s.ctx
  toRead : s.toRead = rest.length
  block : rest ≠ [] → ∃ tail, s.block = some (rest ++ tail)

/-- Block `i` is `T i`, and no block is empty. -/
structure Kdf.Produces (k : Kdf σ) (inv : ℕ → σ → Prop) (T : ℕ → List UInt8) : Prop where
  next : ∀ {i : ℕ} {s : KdfContext σ}, inv i s.ctx → Kdf.At inv (i + 1) (T i) (k.next s)
  nonempty : ∀ i, T i ≠ []

/-- Blocks `i` up to `j`, put together. -/
def blocksFrom (T : ℕ → List UInt8) (i n : ℕ) : List UInt8 := (List.range' i n).flatMap T

section Reading

variable {k : Kdf σ} {inv : ℕ → σ → Prop} {T : ℕ → List UInt8}

theorem blocksFrom_add (i n m : ℕ) : blocksFrom T i (n + m) = blocksFrom T i n ++ blocksFrom T (i + n) m := by
  rw [blocksFrom, ← range'_append_1, flatMap_append]
  rfl

variable {rest : List UInt8} {s : KdfContext σ}

theorem Kdf.Produces.fetch (hk : k.Produces inv T) {i : ℕ} (hs : Kdf.At inv i rest s) :
    ∃ n rest', rest' ≠ [] ∧ Kdf.At inv (i + n) rest' (kdfFetch k s) ∧ rest' = rest ++ blocksFrom T i n := by
  unfold kdfFetch
  by_cases hrest : rest = []
  · rw [if_pos (by rw [hs.toRead, hrest]; rfl)]
    exact ⟨1, T i, hk.nonempty i, hk.next hs.ctx, by rw [hrest, nil_append]; exact (append_nil _).symm⟩
  · rw [if_neg (by rw [hs.toRead]; exact fun h => hrest (length_eq_zero_iff.mp h))]
    exact ⟨0, rest, hrest, hs, (append_nil _).symm⟩

/-- A read takes up the stream where the last one ended. -/
theorem Kdf.Produces.read (hk : k.Produces inv T) (len : ℕ) {i : ℕ} (hs : Kdf.At inv i rest s) :
    ∃ n rest' s' out, kdfRead k s len = some (s', out) ∧ Kdf.At inv (i + n) rest' s' ∧ out.length = len ∧
      out ++ rest' = rest ++ blocksFrom T i n := by
  induction len using Nat.strongRecOn generalizing i rest s with
  | ind len ih =>
    obtain ⟨n, now, hne, hnow, heq⟩ := hk.fetch hs
    rw [kdfRead]
    generalize kdfFetch k s = s₁ at hnow
    obtain ⟨tail, hblock⟩ := hnow.block hne
    have hpos : 0 < now.length := length_pos_iff.mpr hne
    have hto := hnow.toRead
    simp only [hto, hblock]
    rw [if_neg (by omega)]
    have hc : min len now.length ≤ now.length := Nat.min_le_right ..
    have htake : (now ++ tail).take (min len now.length) = now.take (min len now.length) :=
      take_append_of_le_length hc
    have hafter : Kdf.At inv (i + n) (now.drop (min len now.length))
        ⟨some ((now ++ tail).drop (min len now.length)), now.length - min len now.length, s₁.ctx⟩ :=
      ⟨hnow.ctx, length_drop.symm, fun _ => ⟨tail, congrArg some (drop_append_of_le_length hc)⟩⟩
    split
    · refine ⟨n, _, _, _, rfl, hafter, ?_, ?_⟩
      · rw [htake, length_take]
        omega
      · rw [htake, take_append_drop, heq]
    · -- the block has been read up, and the rest comes from the next ones
      rename_i hmore
      have hmin : min len now.length = now.length := by omega
      obtain ⟨m, rest', s', out, hread, hat, hlen, hout⟩ := ih (len - min len now.length) (by omega) hafter
      rw [hmin, drop_length, nil_append] at hout
      refine ⟨n + m, rest', s', now ++ out, ?_, by rw [← Nat.add_assoc]; exact hat, ?_, ?_⟩
      · rw [hread, htake, hmin, take_length]
        rfl
      · rw [length_append, hlen]
        omega
      · rw [append_assoc, hout, heq, append_assoc, ← blocksFrom_add]

/-- **Reading is independent of the cuts**: the calls return portions of the lengths that were asked for, and together
these are a beginning of the blocks. -/
theorem kdfReads_prefix (hk : k.Produces inv T) (lens : List ℕ) {i : ℕ} (hs : Kdf.At inv i rest s) :
    ∃ outs n, kdfReads k s lens = some outs ∧ outs.map List.length = lens ∧
      outs.flatten <+: rest ++ blocksFrom T i n := by
  induction lens generalizing i rest s with
  | nil => exact ⟨[], 0, rfl, rfl, nil_prefix⟩
  | cons len lens ih =>
    obtain ⟨n, rest', s', out, hread, hat, hlen, hout⟩ := hk.read len hs
    obtain ⟨outs, m, hreads, hlens, tail, htail⟩ := ih hat
    refine ⟨out :: outs, n + m, ?_, by rw [map_cons, hlen, hlens], tail, ?_⟩
    · rw [kdfReads, hread, Option.bind_some, hreads, Option.map_some]
    · rw [flatten_cons, append_assoc, htail, ← append_assoc, hout, append_assoc, ← blocksFrom_add]

end Reading

end Bertos
