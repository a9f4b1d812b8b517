import Bertos.Drv.FlashStm32

/-!
# The rules of the flash

A half-word may be programmed once after each erasure of its sector (`Fresh`, `Legal`). `DevInv` is the invariant of
the device: the log is legal, stays in the application's partition, and fresh half-words read `0xFFFF`. Writing a block
keeps it if the block starts a sector or its half-words are fresh (`flashWriteDirect_spec`).
-/

namespace Bertos

open List

/-! ## Logs -/

def InSector (s a : ℕ) : Prop := sectorStart s ≤ a ∧ a < sectorEnd s

/-- The half-word at `a` has not been programmed since the last erasure of its sector; logs are newest first. -/
def Fresh (a : ℕ) : List FlashOp → Prop
  | [] => False
  | .erase s :: log => InSector s a ∨ Fresh a log
  | .program b :: log => a ≠ b ∧ Fresh a log

def Legal : List FlashOp → Prop
  | [] => True
  | .erase _ :: log => Legal log
  | .program a :: log => Fresh a log ∧ Legal log

/-- The operation leaves the first `TRIM_START` blocks alone; half-words are aligned. -/
def FlashOp.inPartition : FlashOp → Prop
  | .erase s => 128 * 1024 ≤ sectorStart s
  | .program a => 128 * 1024 ≤ a ∧ a % 2 = 0

/-- A fresh half-word has an erasure in its past, and was not programmed after it. -/
theorem Fresh.exists_erase {a : ℕ} : ∀ {log : List FlashOp}, Fresh a log →
    ∃ newer s older, log = newer ++ .erase s :: older ∧ InSector s a ∧ FlashOp.program a ∉ newer
  | .erase s :: log, h => by
    rcases h with h | h
    · exact ⟨[], s, log, rfl, h, not_mem_nil⟩
    · obtain ⟨newer, t, older, rfl, hs, hn⟩ := h.exists_erase
      exact ⟨.erase s :: newer, t, older, rfl, hs, by simp [hn]⟩
  | .program b :: log, h => by
    obtain ⟨newer, t, older, rfl, hs, hn⟩ := h.2.exists_erase
    exact ⟨.program b :: newer, t, older, rfl, hs, by simp [hn, h.1]⟩

theorem Legal.fresh {a : ℕ} {older : List FlashOp} :
    ∀ (newer : List FlashOp), Legal (newer ++ .program a :: older) → Fresh a older
  | [], h => h.1
  | .erase _ :: newer, h => Legal.fresh newer h
  | .program _ :: newer, h => Legal.fresh newer h.2

/-! ## The sectors of the partition -/

/-- The sector of block `k` of the partition. -/
def blockSector (k : ℕ) : ℕ := k / 128 + 5

/-- The address of block `k` of the partition. -/
def blockAddr (k : ℕ) : ℕ := (128 + k) * 1024

theorem blockAddr_succ (k : ℕ) : blockAddr (k + 1) = blockAddr k + 1024 := by simp only [blockAddr]; omega

section Sector

variable {k : ℕ} (hk : k < 896)
include hk

theorem stm32SectorIndex_block :
    stm32SectorIndex (blockAddr k) = if k % 128 = 0 then some (blockSector k) else none := by
  have hd : blockAddr k / 1024 = 128 + k := by simp only [blockAddr]; omega
  have hm : blockAddr k % 1024 = 0 := by simp only [blockAddr]; omega
  simp only [stm32SectorIndex, hm, hd, ne_eq, not_true_eq_false, if_false]
  by_cases h : k % 128 = 0
  · have hj : k = 128 * 0 ∨ k = 128 * 1 ∨ k = 128 * 2 ∨ k = 128 * 3 ∨ k = 128 * 4 ∨ k = 128 * 5 ∨ k = 128 * 6 := by
      omega
    rcases hj with rfl | rfl | rfl | rfl | rfl | rfl | rfl <;> rfl
  · rw [if_neg h]
    simp only [sectorIndexFrom, sectorBoundaries]
    repeat rw [if_neg (by omega)]

theorem sectorStart_block : sectorStart (blockSector k) = blockAddr (128 * (k / 128)) := by
  have h : k / 128 = 0 ∨ k / 128 = 1 ∨ k / 128 = 2 ∨ k / 128 = 3 ∨ k / 128 = 4 ∨ k / 128 = 5 ∨ k / 128 = 6 := by omega
  rcases h with h | h | h | h | h | h | h <;> simp only [blockSector, h] <;> rfl

theorem sectorEnd_block : sectorEnd (blockSector k) = blockAddr (128 * (k / 128) + 128) := by
  have h : k / 128 = 0 ∨ k / 128 = 1 ∨ k / 128 = 2 ∨ k / 128 = 3 ∨ k / 128 = 4 ∨ k / 128 = 5 ∨ k / 128 = 6 := by omega
  rcases h with h | h | h | h | h | h | h <;> simp only [blockSector, h] <;> rfl

end Sector

/-! ## The invariant of the device -/

structure DevInv (d : FlashDev) : Prop where
  legal : Legal d.log
  part : ∀ op ∈ d.log, op.inPartition
  erased : ∀ a, a % 2 = 0 → Fresh a d.log → d.mem a = 0xFF ∧ d.mem (a + 1) = 0xFF

section Device

variable {d : FlashDev}

theorem eraseSector_inv (h : DevInv d) {s : ℕ} (hs : 128 * 1024 ≤ sectorStart s) : DevInv (stm32EraseSector d s) := by
  refine ⟨h.legal, forall_mem_cons.mpr ⟨hs, h.part⟩, ?_⟩
  intro a ha hf
  have hlt : a < sectorEnd s → a + 1 < sectorEnd s := by simp only [sectorEnd]; omega
  simp only [stm32EraseSector]
  rcases hf with ⟨h1, h2⟩ | hf
  · exact ⟨if_pos ⟨h1, h2⟩, if_pos ⟨by omega, hlt h2⟩⟩
  · obtain ⟨h1, h2⟩ := h.erased a ha hf
    constructor <;> split <;> first | rfl | assumption

/-- Programming a fresh half-word stores it, and leaves the others as they are. -/
theorem writeWord_spec (h : DevInv d) {addr : ℕ} (lo hi : UInt8) (hp : 128 * 1024 ≤ addr) (ha : addr % 2 = 0)
    (hf : Fresh addr d.log) :
    DevInv (stm32WriteWord d addr lo hi) ∧ (stm32WriteWord d addr lo hi).mem = Mem.write d.mem addr [lo, hi] := by
  obtain ⟨h0, h1⟩ := h.erased addr ha hf
  have hmem : (stm32WriteWord d addr lo hi).mem = Mem.write d.mem addr [lo, hi] := by
    simp only [stm32WriteWord, h0, h1]
    rw [show (0xFF : UInt8) = -1 from rfl, UInt8.neg_one_and, UInt8.neg_one_and]
  refine ⟨⟨⟨hf, h.legal⟩, forall_mem_cons.mpr ⟨⟨hp, ha⟩, h.part⟩, ?_⟩, hmem⟩
  intro a ha' hf'
  rw [hmem, Mem.write_of_not_mem, Mem.write_of_not_mem]
  · exact h.erased a ha' hf'.2
  · have := hf'.1; simp only [length_cons, length_nil]; omega
  · have := hf'.1; simp only [length_cons, length_nil]; omega

/-- Fresh half-words hold what is programmed. -/
theorem writeWords_spec : ∀ (bs : List UInt8) {d : FlashDev} (addr : ℕ), DevInv d → bs.length % 2 = 0 →
    128 * 1024 ≤ addr → addr % 2 = 0 → (∀ a, a % 2 = 0 → addr ≤ a → a < addr + bs.length → Fresh a d.log) →
    DevInv (stm32WriteWords d addr bs) ∧ (stm32WriteWords d addr bs).mem = Mem.write d.mem addr bs ∧
      ∀ a, a % 2 = 0 → a < addr ∨ addr + bs.length ≤ a → Fresh a d.log → Fresh a (stm32WriteWords d addr bs).log
  | [], d, addr, h, _, _, _, _ => ⟨h, (Mem.write_nil _ _).symm, fun _ _ _ hf => hf⟩
  | [_], _, _, _, hlen, _, _, _ => by simp at hlen
  | lo :: hi :: bs, d, addr, h, hlen, hp, ha, hf => by
    simp only [length_cons] at hlen hf ⊢
    obtain ⟨h1, hmem⟩ := writeWord_spec h lo hi hp ha (hf addr ha (Nat.le_refl _) (by omega))
    have hfresh : ∀ a, a % 2 = 0 → a ≠ addr → Fresh a d.log → Fresh a (stm32WriteWord d addr lo hi).log :=
      fun a _ hne hf => ⟨hne, hf⟩
    obtain ⟨h2, hmem2, hf2⟩ := writeWords_spec bs (addr + 2) h1 (by omega) (by omega) (by omega)
      fun a ha' hlo hhi => hfresh a ha' (by omega) (hf a ha' (by omega) (by omega))
    refine ⟨h2, ?_, fun a ha' hout hfa => hf2 a ha' (by omega) (hfresh a ha' (by omega) hfa)⟩
    rw [stm32WriteWords, hmem2, hmem]
    exact Mem.write_append d.mem addr [lo, hi] bs

/-- The half-words from block `k` to the end of its sector are fresh. -/
def FreshFrom (k : ℕ) (log : List FlashOp) : Prop :=
  ∀ a, a % 2 = 0 → blockAddr k ≤ a → a < sectorEnd (blockSector k) → Fresh a log

/-- **Writing a block** that starts a sector or is fresh stores it. The blocks before it keep their content, and the
rest of the sector is fresh then. -/
theorem flashWriteDirect_spec (h : DevInv d) {k : ℕ} (hk : k < 896) {bs : List UInt8} (hbs : bs.length = 1024)
    (hw : k % 128 = 0 ∨ FreshFrom k d.log) (offset : ℕ) :
    ∃ d', stm32FlashWriteDirect d (128 + k) bs offset = (1024, d') ∧ DevInv d' ∧
      Mem.read d'.mem (blockAddr k) 1024 = bs ∧ (∀ a, a < blockAddr k → d'.mem a = d.mem a) ∧
      ((k + 1) % 128 = 0 ∨ FreshFrom (k + 1) d'.log) := by
  -- the device when the sector has been erased, if the block starts one
  obtain ⟨d1, hd1, h1, hmem1, hf1⟩ : ∃ d1, stm32EraseAt d (blockAddr k) = d1 ∧ DevInv d1 ∧ (∀ a, a < blockAddr k →
    d1.mem a = d.mem a) ∧ (∀ a, a % 2 = 0 → blockAddr k ≤ a → a < sectorEnd (blockSector k) → Fresh a d1.log) := by
    rw [stm32EraseAt, stm32SectorIndex_block hk]
    by_cases h0 : k % 128 = 0
    · have hs : sectorStart (blockSector k) = blockAddr k := by
        rw [sectorStart_block hk, Nat.mul_div_cancel' (Nat.dvd_of_mod_eq_zero h0)]
      rw [if_pos h0]
      refine ⟨_, rfl, eraseSector_inv h ?_, ?_, ?_⟩
      · rw [hs]; simp only [blockAddr]; omega
      · intro a ha
        exact if_neg (by rw [hs]; omega)
      · intro a _ hlo hhi
        exact .inl ⟨by rw [hs]; exact hlo, hhi⟩
    · rw [if_neg h0]
      exact ⟨d, rfl, h, fun _ _ => rfl, hw.resolve_left h0⟩
  have hend : blockAddr k + 1024 ≤ sectorEnd (blockSector k) := by
    rw [sectorEnd_block hk]; simp only [blockAddr]; omega
  obtain ⟨h2, hmem2, hf2⟩ := writeWords_spec bs (blockAddr k) h1 (by omega)
    (by simp only [blockAddr]; omega) (by simp only [blockAddr]; omega)
    fun a ha hlo hhi => hf1 a ha hlo (by omega)
  refine ⟨stm32WriteWords d1 (blockAddr k) bs, ?_, h2, ?_, ?_, ?_⟩
  · rw [← hd1]; rfl
  · rw [hmem2, ← hbs, Mem.read_write_self]
  · intro a ha
    rw [hmem2, Mem.write_of_not_mem _ _ _ (.inl ha), hmem1 a ha]
  · by_cases hnext : (k + 1) % 128 = 0
    · exact .inl hnext
    · have hsame : blockSector (k + 1) = blockSector k := by simp only [blockSector]; omega
      rw [← hsame] at hf1
      refine .inr fun a ha hlo hhi => ?_
      rw [blockAddr_succ] at hlo
      exact hf2 a ha (.inr (by omega)) (hf1 a ha (by omega) hhi)

end Device

end Bertos
