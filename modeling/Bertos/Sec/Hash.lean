import Bertos.Lib.Blocks
import Bertos.Lib.Words

/-!
# Streaming hashes (`sec/hash.h`)

A hash is an object with a context: `begin`, any number of `update`s, `final`. `Hash.Computes` says that the digest is
a function of the concatenated updates. The hashes of the library pad a message to whole blocks of 64 bytes (`padded`),
with as few zeros as possible, and fold their block transform over it. A context stands for the message so far when it
has absorbed its whole blocks and keeps the rest in a buffer (`Absorbed`).
-/

namespace Bertos

open Blocks List

variable {σ S : Type*}

/-- `Hash`, over the state of the context. -/
structure Hash (σ : Type*) where
  begin : σ → σ
  update : σ → List UInt8 → σ
  final : σ → σ × List UInt8
  digestLen : ℕ
  blockLen : ℕ

/-- A whole computation: the context afterwards and the digest. -/
def Hash.run (h : Hash σ) (s : σ) (chunks : List (List UInt8)) : σ × List UInt8 :=
  h.final (chunks.foldl h.update (h.begin s))

/-- From every context that is `ok`, the digest of the messages that are `valid` is `H` of the concatenated updates. -/
structure Hash.Computes (h : Hash σ) (ok : σ → Prop) (valid : List UInt8 → Prop) (H : List UInt8 → List UInt8) :
    Prop where
  run : ∀ {s : σ} (chunks : List (List UInt8)), ok s → valid chunks.flatten →
    ok (h.run s chunks).1 ∧ (h.run s chunks).2 = H chunks.flatten
  length : ∀ m : List UInt8, (H m).length = h.digestLen

/-- A hash computes what its contexts stand for: `rep m s` says that the context `s` stands for the message `m`. -/
theorem Hash.computes_of_rep {h : Hash σ} {ok : σ → Prop} {valid : List UInt8 → Prop} {H : List UInt8 → List UInt8}
    (rep : List UInt8 → σ → Prop) (hbegin : ∀ {s}, ok s → rep [] (h.begin s))
    (hupdate : ∀ {s m d}, rep m s → valid (m ++ d) → rep (m ++ d) (h.update s d))
    (hfinal : ∀ {s m}, rep m s → valid m → ok (h.final s).1 ∧ (h.final s).2 = H m)
    (hvalid : ∀ {m d}, valid (m ++ d) → valid m) (hlen : ∀ m, (H m).length = h.digestLen) : h.Computes ok valid H where
  run {s} chunks hs hm := by
    have hrun : ∀ (cs : List (List UInt8)) {m : List UInt8} {s : σ}, rep m s → valid (m ++ cs.flatten) →
        rep (m ++ cs.flatten) (cs.foldl h.update s) := by
      intro cs
      induction cs with
      | nil =>
        intro m s hrep _
        rwa [flatten_nil, append_nil]
      | cons c cs ih =>
        intro m s hrep hv
        rw [flatten_cons, ← append_assoc] at hv ⊢
        exact ih (hupdate hrep (hvalid hv)) hv
    exact hfinal (hrun chunks (hbegin hs) hm) hm
  length := hlen

theorem length_lt_of_append {m d : List UInt8} {n : ℕ} (h : (m ++ d).length < n) : m.length < n :=
  Nat.lt_of_le_of_lt (by rw [length_append]; exact Nat.le_add_right _ _) h

/-! ## Padding -/

/-- The number of zero bytes between the mark and the bit count. -/
def padZeros (len : ℕ) : ℕ := (119 - len % 64) % 64

/-- The message with the mark `0x80`, zeros and the count of its bits. -/
def padded (count : ℕ → List UInt8) (m : List UInt8) : List UInt8 :=
  m ++ 0x80 :: (List.replicate (padZeros m.length) 0 ++ count (8 * m.length))

/-- With the zeros and a count of 8 bytes the message has whole blocks. -/
theorem padZeros_mod (len : ℕ) : (len + (1 + (padZeros len + 8))) % 64 = 0 := by
  unfold padZeros
  omega

theorem padZeros_least {len z : ℕ} (h : (len + (1 + (z + 8))) % 64 = 0) : padZeros len ≤ z := by
  unfold padZeros
  omega

/-- The two cases of the padding code: the mark and the count fit behind what is left of the message, or the count goes
to a block of its own. -/
theorem padZeros_eq (len : ℕ) : padZeros len = if len % 64 < 56 then 55 - len % 64 else 119 - len % 64 := by
  unfold padZeros
  split <;> omega

theorem length_padded {count : ℕ → List UInt8} (hcount : ∀ n, (count n).length = 8) (m : List UInt8) :
    (padded count m).length % 64 = 0 := by
  simp only [padded, length_append, length_cons, length_replicate, hcount]
  have h := padZeros_mod m.length
  rw [← h]
  congr 1
  omega

/-- The digest as it is specified: the block transform, folded over the padded message. -/
def digestOf (T : S → List UInt8 → S) (init : S) (count : ℕ → List UInt8) (bytes : S → List UInt8) (m : List UInt8) :
    List UInt8 := bytes (absorb T 64 init (padded count m)).1

/-! ## Contexts between two calls -/

/-- A state and a buffer that stand for the message `m`. -/
structure Absorbed (T : S → List UInt8 → S) (init : S) (m : List UInt8) (h : S) (buf : List UInt8) : Prop where
  length : buf.length = 64
  state : absorb T 64 init m = (h, buf.take (m.length % 64))

namespace Absorbed

variable {T : S → List UInt8 → S} {init h : S} {m buf : List UInt8}

theorem empty (hbuf : buf.length = 64) : Absorbed T init [] init buf :=
  ⟨hbuf, absorb_of_lt (by simp)⟩

theorem append (ha : Absorbed T init m h buf) (d : List UInt8) :
    absorb T 64 init (m ++ d) = absorb T 64 h (buf.take (m.length % 64) ++ d) := by
  rw [absorb_append, ha.state]

theorem length_rest (ha : Absorbed T init m h buf) : (buf.take (m.length % 64)).length = m.length % 64 := by
  rw [length_take, ha.length]
  omega

theorem of_rest {h' : S} {buf' d rest : List UInt8} (ha : Absorbed T init m h buf)
    (hrest : absorb T 64 h (buf.take (m.length % 64) ++ d) = (h', rest)) (hbuf' : buf'.length = 64)
    (htake : buf'.take rest.length = rest) : Absorbed T init (m ++ d) h' buf' := by
  have happ := (ha.append d).trans hrest
  have hlen := length_absorb (T := T) (show 0 < 64 by decide) init (m ++ d)
  rw [happ] at hlen
  exact ⟨hbuf', by rw [happ, ← hlen, htake]⟩

theorem fill (ha : Absorbed T init m h buf) {d : List UInt8} (hd : m.length % 64 + d.length < 64) :
    Absorbed T init (m ++ d) h (splice buf (m.length % 64) d) := by
  have hlen : (buf.take (m.length % 64) ++ d).length = m.length % 64 + d.length := by
    rw [length_append, ha.length_rest]
  refine ha.of_rest (absorb_of_lt (by omega)) ?_ ?_
  · rw [length_splice (by rw [ha.length]; omega), ha.length]
  · rw [hlen, take_splice (by rw [ha.length]; omega)]

/-- Data that fill the block up: the block is transformed, and the buffer is free. -/
theorem block (ha : Absorbed T init m h buf) {d : List UInt8} (hd : m.length % 64 + d.length = 64) (buf' : List UInt8)
    (hbuf' : buf'.length = 64) : Absorbed T init (m ++ d) (T h (buf.take (m.length % 64) ++ d)) buf' := by
  have hb : (buf.take (m.length % 64) ++ d).length = 64 := by rw [length_append, ha.length_rest, hd]
  have hblock := absorb_block (T := T) (h := h) (m := []) (by decide) hb
  rw [append_nil, absorb_of_lt (show ([] : List UInt8).length < 64 by decide)] at hblock
  exact ha.of_rest hblock hbuf' rfl

section Padded

variable {count : ℕ → List UInt8} (ha : Absorbed T init m h buf) (hcount : ∀ n, (count n).length = 8)
include ha hcount

/-- The mark and the count fit into the block. -/
theorem padded_one (hr : m.length % 64 < 56) : (absorb T 64 init (padded count m)).1 =
    T h (buf.take (m.length % 64) ++ 0x80 :: List.replicate (55 - m.length % 64) 0 ++ count (8 * m.length)) := by
  have hblock := ha.block (d := 0x80 :: (replicate (55 - m.length % 64) 0 ++ count (8 * m.length)))
    (by rw [length_cons, length_append, length_replicate, hcount]; omega) buf ha.length
  rw [padded, padZeros_eq, if_pos hr, hblock.state, append_assoc, cons_append]

/-- The count goes to a block of its own. -/
theorem padded_two (hr : ¬ m.length % 64 < 56) : (absorb T 64 init (padded count m)).1 =
    T (T h (buf.take (m.length % 64) ++ 0x80 :: List.replicate (63 - m.length % 64) 0))
      (List.replicate 56 0 ++ count (8 * m.length)) := by
  have hfull := ha.block (d := 0x80 :: replicate (63 - m.length % 64) 0)
    (by rw [length_cons, length_replicate]; omega) buf ha.length
  have hm : (m ++ 0x80 :: replicate (63 - m.length % 64) 0).length % 64 = 0 := by
    rw [length_append, length_cons, length_replicate]
    omega
  have hlast := hfull.block (d := replicate 56 0 ++ count (8 * m.length))
    (by rw [hm, length_append, length_replicate, hcount]) buf ha.length
  rw [hm, take_zero, nil_append] at hlast
  rw [padded, padZeros_eq, if_neg hr, show 119 - m.length % 64 = (63 - m.length % 64) + 56 by omega, replicate_add,
    append_assoc, ← cons_append, ← append_assoc, hlast.state]

end Padded

end Absorbed

/-- The two words of the count at the end of the buffer. -/
theorem splice_words {buf : List UInt8} (hbuf : buf.length = 64) (big : Bool) (x y : UInt32) :
    splice (splice buf 56 (storeWord big x)) 60 (storeWord big y) =
      buf.take 56 ++ (storeWord big x ++ storeWord big y) := by
  have htwo := splice_splice (p := 56) (d := storeWord big x) (by omega : 56 ≤ buf.length) (storeWord big y)
  rw [length_storeWord] at htwo
  exact htwo.trans (splice_end (by rw [length_append, length_storeWord, length_storeWord, hbuf]))

end Bertos
