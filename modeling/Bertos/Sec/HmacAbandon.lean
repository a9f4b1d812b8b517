import Bertos.Sec.Hmac
import Bertos.Sec.Md5
import Mathlib.Algebra.Ring.Parity

/-!
# Abandoned computations of HMAC

A computation that is begun and never finalised leaves the key buffer in the form for the inner hash, and the next
`begin` turns it back: two abandoned computations cancel, and after one the two hashes of the next computation use each
other's key (`hmac_abandoned_iff`).
-/

namespace Bertos

open List

variable {σ : Type*}

/-- A computation that is begun, and perhaps updated, and then given up. -/
def Mac.abandon (m : Mac σ) (s : σ) (chunks : List (List UInt8)) : σ := chunks.foldl m.update (m.begin s)

section Abandon

variable (pl : Placing) {h : Hash σ} {ok : σ → Prop} {valid : List UInt8 → Prop} {H : List UInt8 → List UInt8}

theorem foldl_abandon (hB : h.blockLen ≤ 64)
    (hkeep : ∀ {s : σ} {chunks : List (List UInt8)}, ok s → valid chunks.flatten →
      ok (chunks.foldl h.update (h.begin s)))
    {K : List UInt8} (hlen : K.length = h.blockLen) {dropped : List (List (List UInt8))}
    (hvalid : ∀ chunks ∈ dropped, ∀ p : List UInt8, p.length = h.blockLen → valid (p ++ chunks.flatten))
    {ctx : HmacContext σ} {k : UInt8} (hok : ok ctx.h) (hk : HmacKey h.blockLen K k ctx.key) :
    ok (dropped.foldl (hmac pl h).abandon ctx).h ∧
      HmacKey h.blockLen K (hmacToggle^[dropped.length] k) (dropped.foldl (hmac pl h).abandon ctx).key := by
  induction dropped generalizing ctx k with
  | nil => exact ⟨hok, hk⟩
  | cons chunks dropped ih =>
    have hx := hk.xor pl hB (0x36 ^^^ 0x5C)
    have hnext : (hmac pl h).abandon ctx chunks =
        ⟨(K.map (· ^^^ hmacToggle k) :: chunks).foldl h.update (h.begin ctx.h),
          hmacXor pl h ctx.key (0x36 ^^^ 0x5C)⟩ := by
      show chunks.foldl (hmacUpdate h) (hmacBegin pl h ctx) = _
      rw [foldl_hmacUpdate, hmacBegin, hx.key]
      rfl
    have hhash := @hkeep _ (K.map (· ^^^ hmacToggle k) :: chunks) hok
      (hvalid chunks mem_cons_self _ (by rw [length_map, hlen]))
    rw [foldl_cons, hnext]
    exact ih (fun c hc => hvalid c (mem_cons_of_mem _ hc)) hhash hx

end Abandon

/-- **An abandoned computation leaves no trace** exactly if another one follows it: after an odd number of them the tag
is that of the two pads exchanged. -/
theorem hmac_abandoned_iff (pl : Placing) {h : Hash σ} {ok : σ → Prop} {valid : List UInt8 → Prop}
    {H : List UInt8 → List UInt8} (hc : h.Computes ok valid H)
    (hkeep : ∀ {s : σ} {chunks : List (List UInt8)}, ok s → valid chunks.flatten →
      ok (chunks.foldl h.update (h.begin s)))
    (hout : ∀ p d : List UInt8, p.length = h.blockLen → d.length = h.digestLen → valid (p ++ d))
    (hB : h.blockLen ≤ 64) (hL : h.digestLen ≤ 64) {ctx : HmacContext σ} (hok : ok ctx.h) (hbuf : ctx.key.length = 64)
    {key : List UInt8} (hkey : h.blockLen < key.length → valid key) {dropped : List (List (List UInt8))}
    {chunks : List (List UInt8)}
    (hvalid : ∀ cs ∈ chunks :: dropped, ∀ p : List UInt8, p.length = h.blockLen → valid (p ++ cs.flatten)) :
    let m := hmac pl h
    let K := hmacKey H h.blockLen key
    (m.run (dropped.foldl m.abandon (m.setKey ctx key)) chunks).2 = (m.run (m.setKey ctx key) chunks).2 ↔
      Even dropped.length ∨
        H (K.map (· ^^^ 0x36) ++ H (K.map (· ^^^ 0x5C) ++ chunks.flatten)) =
          hmacOf H h.blockLen key chunks.flatten := by
  have hr := hmacSetKey_ready pl hc hB hL hok hbuf hkey
  have hmsg := hvalid chunks mem_cons_self
  obtain ⟨hok', hk'⟩ := foldl_abandon pl hB hkeep (length_hmacKey _ _ _) (fun c hc => hvalid c (mem_cons_of_mem _ hc))
    hr.hash hr.key
  have htag := (hmac_run pl hc hB hout hr hmsg).2
  intro m K
  rw [show (m.run (m.setKey ctx key) chunks).2 = _ from htag]
  by_cases he : Even dropped.length
  · rw [hmacToggle_involutive.iterate_even he] at hk'
    have hsame := hmac_run_key pl hc hB hout hok' (length_hmacKey _ _ _) hk' hmsg
    exact ⟨fun _ => Or.inl he, fun _ => hsame.2.2⟩
  · rw [hmacToggle_involutive.iterate_odd (Nat.not_even_iff_odd.mp he)] at hk'
    have hswap := hmac_run_key pl hc hB hout hok' (length_hmacKey _ _ _) hk' hmsg
    exact ⟨fun h => Or.inr (hswap.2.2.symm.trans h), fun h => hswap.2.2.trans (h.resolve_left he)⟩

theorem hmac_abandoned_twice :
    let m := hmac ⟨true, false⟩ byteHash
    let s := m.setKey ⟨7, replicate 64 9⟩ [1, 2]
    (m.run ([[[5]], []].foldl m.abandon s) [[3]]).2 = (m.run s [[3]]).2 :=
  (hmac_abandoned_iff ⟨true, false⟩ byteHash_computes (fun _ _ => trivial) (fun _ _ _ _ => trivial) (by decide)
    (by decide) trivial rfl (fun _ => trivial) fun _ _ _ _ => trivial).mpr (Or.inl (by decide))

/-- HMAC-MD5 of the empty message under the empty key, after one computation that was given up. -/
theorem hmac_abandoned_md5 :
    let m := hmac ⟨true, false⟩ (md5 false)
    let s := m.setKey ⟨⟨md5Init, replicate 64 0, 0⟩, replicate 64 0⟩ []
    (m.run ([[]].foldl m.abandon s) []).2 ≠ (m.run s []).2 := by
  decide +kernel

end Bertos
