import Bertos.Sec.Md5
import Bertos.Sec.Ripemd
import Bertos.Sec.Sha1

/-!
# The digests of the library

MD5, SHA-1 and RIPEMD-160 together: the digest of a message is that of its padding, whatever the updates
(`hashes_depend_on_message`).
-/

namespace Bertos

open Blocks

/-- **Streaming hashes depend only on the message**: for every way of cutting a message into updates, the digest is the
fold of the block transform over the padded message. The padding gives whole blocks, with as few zeros as possible. -/
theorem hashes_depend_on_message (big : Bool) (chunks : List (List UInt8)) (hlen : chunks.flatten.length < 536870912) :
    (∀ ctx : Md5Context, ctx.inp.length = 64 →
      ((md5 big).run ctx chunks).2 = digestOf md5Block md5Init (leBytesOf 8) Md5Words.bytes chunks.flatten) ∧
    (∀ ctx : Sha1Context, ctx.buffer.length = 64 →
      ((sha1 big).run ctx chunks).2 =
        digestOf (sha1Transform big) sha1Init (beBytesOf 8) Sha1Words.bytes chunks.flatten) ∧
    (∀ ctx : RipemdContext, ((ripemd big).run ctx chunks).2 =
      digestOf (ripemdCompress big) ripemdInit (leBytesOf 8) RipemdWords.bytes chunks.flatten) ∧
    ∀ count : ℕ → List UInt8, (∀ n, (count n).length = 8) → (padded count chunks.flatten).length % 64 = 0 ∧
      ∀ z, (chunks.flatten ++ 0x80 :: (List.replicate z 0 ++ count (8 * chunks.flatten.length))).length % 64 = 0 →
        padZeros chunks.flatten.length ≤ z := by
  refine ⟨fun ctx h => ((md5_computes big).run chunks h hlen).2, fun ctx h => ((sha1_computes big).run chunks h hlen).2,
    fun ctx => ((ripemd_computes big).run chunks trivial hlen).2, fun count hc => ⟨length_padded hc _, ?_⟩⟩
  intro z hz
  simp only [List.length_append, List.length_cons, List.length_replicate, hc] at hz
  exact padZeros_least (by rw [← hz]; congr 1; omega)

/-- The message `abc`, with an empty update in between. -/
theorem hashes_depend_on_message_abc :
    ((md5 false).run ⟨md5Init, List.replicate 64 0, 0⟩ [[97], [], [98, 99]]).2 =
      digestOf md5Block md5Init (leBytesOf 8) Md5Words.bytes [97, 98, 99] ∧
    ((sha1 false).run ⟨sha1Init, 0, 0, List.replicate 64 0⟩ [[97], [], [98, 99]]).2 =
      digestOf (sha1Transform false) sha1Init (beBytesOf 8) Sha1Words.bytes [97, 98, 99] ∧
    ((ripemd false).run ⟨ripemdInit, 0, [], 0⟩ [[97], [], [98, 99]]).2 =
      digestOf (ripemdCompress false) ripemdInit (leBytesOf 8) RipemdWords.bytes [97, 98, 99] :=
  have h := hashes_depend_on_message false [[97], [], [98, 99]] (by decide)
  ⟨h.1 _ rfl, h.2.1 _ rfl, h.2.2.1 _⟩

end Bertos
