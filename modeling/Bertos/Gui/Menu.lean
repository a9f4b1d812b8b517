import Mathlib.Data.Int.Notation
import Mathlib.Logic.ExistsUnique
import Mathlib.Logic.Function.Basic
import Mathlib.Tactic.Common

/-!
# Menus: exclusive items

`menu_doselect` of `gui/menu.c`. It unchecks the items the selected one excludes before it looks whether the selected
one is disabled, so refusing a disabled item may leave its group without a checked one. The hook of an item is a pure
function here, and the path of `PUSH_ABORT`, by which a hook leaves the menu, is left out.
-/

namespace Bertos

def mifChecked : ℕ := 8
def mifCheckit : ℕ := 9
def mifToggle : ℕ := 10
def mifDisabled : ℕ := 12
def menuDisabled : ℤ := -4

structure MenuItem where
  flags : BitVec 32
  hook : Option (ℤ → ℤ)
  userdata : ℤ

namespace MenuItem

/-- Whether bit `b` of the flags is set. The bits 0 to 7 name the excluded items. -/
def has (item : MenuItem) (b : ℕ) : Bool := item.flags.getLsbD b

def uncheck (item : MenuItem) : MenuItem :=
  { item with flags := item.flags &&& ~~~ BitVec.twoPow 32 mifChecked }

/-- "Handle checkable items". -/
def check (item : MenuItem) : MenuItem :=
  if item.has mifToggle then { item with flags := item.flags ^^^ BitVec.twoPow 32 mifChecked }
  else if item.has mifCheckit then { item with flags := item.flags ||| BitVec.twoPow 32 mifChecked }
  else item

def result (item : MenuItem) : ℤ :=
  match item.hook with
  | some hook => hook item.userdata
  | none => item.userdata

theorem uncheck_has (item : MenuItem) (b : ℕ) : item.uncheck.has b = (item.has b && !decide (mifChecked = b)) := by
  simp only [has, uncheck, BitVec.getLsbD_and, BitVec.getLsbD_not, BitVec.getLsbD_twoPow]
  cases hb : item.flags.getLsbD b with
  | false => rfl
  | true => simp [BitVec.lt_of_getLsbD hb, mifChecked]

theorem check_checked {item : MenuItem} (ht : item.has mifToggle = false) (hc : item.has mifCheckit = true) :
    item.check.has mifChecked = true := by
  unfold check
  rw [if_neg (by rw [ht]; decide), if_pos hc]
  simp [has, mifChecked]

/-- The same item, checked or not. -/
def SameBut (x y : MenuItem) : Prop :=
  x.result = y.result ∧ ∀ b ≠ mifChecked, x.has b = y.has b

theorem uncheck_same (item : MenuItem) : item.uncheck.SameBut item := by
  refine ⟨rfl, fun b hb => ?_⟩
  rw [uncheck_has, decide_eq_false hb.symm, Bool.not_false, Bool.and_true]

theorem check_same (item : MenuItem) : item.check.SameBut item := by
  unfold check
  split_ifs
  all_goals exact ⟨rfl, fun b hb => by simp [has, BitVec.getLsbD_twoPow, hb.symm]⟩

end MenuItem

open Function MenuItem

/-- The loop over the mask, from item `i` on; the mask of eight bits is empty after eight turns. -/
def excludeLoop : (fuel : ℕ) → (mask : BitVec 32) → (i : ℕ) → (ℕ → MenuItem) → ℕ → MenuItem
  | 0, _, _, items => items
  | fuel + 1, mask, i, items =>
    if mask = 0 then items
    else excludeLoop fuel (mask >>> 1) (i + 1)
      (if mask.getLsbD 0 then update items i (items i).uncheck else items)

/-- Select item `sel`: the value returned, and the items afterwards. -/
def menuDoselect (items : ℕ → MenuItem) (sel : ℕ) : ℤ × (ℕ → MenuItem) :=
  let items := excludeLoop 8 ((items sel).flags &&& 0xFF) 0 items
  if (items sel).has mifDisabled then (menuDisabled, items)
  else ((items sel).result, update items sel (items sel).check)

/-- The loop unchecks the items whose bit is in the mask. -/
theorem excludeLoop_apply (fuel : ℕ) (mask : BitVec 32) (i : ℕ) (items : ℕ → MenuItem) (k : ℕ) :
    excludeLoop fuel mask i items k =
      if i ≤ k ∧ k < i + fuel ∧ mask.getLsbD (k - i) then (items k).uncheck else items k := by
  induction fuel generalizing mask i items with
  | zero => exact (if_neg (by omega)).symm
  | succ fuel ih =>
    unfold excludeLoop
    by_cases hmask : mask = 0
    · simp [hmask]
    · have hother : k ≠ i →
          (if mask.getLsbD 0 then update items i (items i).uncheck else items) k = items k := by
        intro hk
        split
        · exact update_of_ne hk _ _
        · rfl
      rw [if_neg hmask, ih, BitVec.getLsbD_ushiftRight]
      rcases Nat.lt_trichotomy k i with hk | rfl | hk
      · rw [hother (by omega), if_neg (by omega), if_neg (by omega)]
      · rw [if_neg (by omega : ¬ (k + 1 ≤ k ∧ _)), Nat.sub_self]
        cases mask.getLsbD 0 <;> simp
      · rw [hother (by omega), show 1 + (k - (i + 1)) = k - i by omega]
        refine if_congr ⟨?_, ?_⟩ rfl rfl
        all_goals
          rintro ⟨hlow, hhigh, hbit⟩
          exact ⟨by omega, by omega, hbit⟩

section Group
variable {items : ℕ → MenuItem} {sel : ℕ} {G : ℕ → Prop}

theorem excludeLoop_same (fuel : ℕ) (mask : BitVec 32) (i : ℕ) (items : ℕ → MenuItem) (k : ℕ) :
    (excludeLoop fuel mask i items k).SameBut (items k) := by
  rw [excludeLoop_apply]
  split
  · exact uncheck_same _
  · exact ⟨rfl, fun _ _ => rfl⟩

theorem menuDoselect_same (items : ℕ → MenuItem) (sel k : ℕ) : ((menuDoselect items sel).2 k).SameBut (items k) := by
  have hloop := excludeLoop_same 8 ((items sel).flags &&& 0xFF) 0 items k
  unfold menuDoselect
  dsimp only
  split_ifs
  · exact hloop
  · by_cases hk : k = sel
    · subst hk
      dsimp only
      rw [update_self]
      obtain ⟨hres, hbits⟩ := check_same (excludeLoop 8 ((items k).flags &&& 0xFF) 0 items k)
      exact ⟨hres.trans hloop.1, fun b hb => (hbits b hb).trans (hloop.2 b hb)⟩
    · dsimp only
      rwa [update_of_ne hk]

/-- The items of `G` can be checked, and each one excludes all the others. -/
structure MenuGroup (G : ℕ → Prop) (items : ℕ → MenuItem) : Prop where
  checkit : ∀ i, G i → (items i).has mifCheckit
  excludes : ∀ i, G i → ∀ j, G j → i ≠ j → j < 8 ∧ (items i).has j

theorem MenuGroup.select (hg : MenuGroup G items) (sel : ℕ) : MenuGroup G (menuDoselect items sel).2 := by
  refine ⟨fun i hi => ?_, fun i hi j hj hij => ?_⟩
  · rw [(menuDoselect_same items sel i).2 _ (by decide)]
    exact hg.checkit i hi
  · obtain ⟨hlt, hhas⟩ := hg.excludes i hi j hj hij
    rw [(menuDoselect_same items sel i).2 j (by unfold mifChecked; omega)]
    exact ⟨hlt, hhas⟩

/-- An item that is neither disabled nor toggles is the checked one of its group when it has been selected. -/
theorem MenuGroup.checks (hg : MenuGroup G items) (hsel : G sel) (hd : (items sel).has mifDisabled = false)
    (ht : (items sel).has mifToggle = false) : (menuDoselect items sel).1 = (items sel).result ∧
      ∀ k, G k → (((menuDoselect items sel).2 k).has mifChecked ↔ k = sel) := by
  have hloop := excludeLoop_same 8 ((items sel).flags &&& 0xFF) 0 items sel
  unfold menuDoselect
  dsimp only
  rw [if_neg (by rw [hloop.2 _ (by decide), hd]; decide)]
  refine ⟨hloop.1, fun k hk => ?_⟩
  dsimp only
  by_cases hks : k = sel
  · subst hks
    rw [update_self]
    refine iff_of_true (check_checked ?_ ?_) rfl
    · rw [hloop.2 _ (by decide), ht]
    · rw [hloop.2 _ (by decide), hg.checkit k hk]
  · obtain ⟨hlt, hhas⟩ := hg.excludes sel hsel k hk (Ne.symm hks)
    have hmask : ((items sel).flags &&& 0xFF).getLsbD (k - 0) = true := by
      have hbit : ∀ k < 8, (0xFF : BitVec 32).getLsbD k = true := by decide
      exact (BitVec.getLsbD_and ..).trans (by rw [Nat.sub_zero, hbit k hlt, Bool.and_true]; exact hhas)
    rw [update_of_ne hks, excludeLoop_apply, if_pos ⟨Nat.zero_le _, by omega, hmask⟩, uncheck_has]
    simp [hks]

/-- A sequence of selections: the values returned, and the items afterwards. -/
def menuRun : List ℕ → (ℕ → MenuItem) → List ℤ × (ℕ → MenuItem)
  | [], items => ([], items)
  | sel :: sels, items =>
    let (r, items) := menuDoselect items sel
    let (rs, items) := menuRun sels items
    (r :: rs, items)

/-- **One item stays checked** as long as no disabled or toggling item of the group is selected; no call is refused
then, apart from an item that returns `MENU_DISABLED` by itself. -/
theorem menuRun_exclusive (hg : MenuGroup G items) (hone : ∃! i, G i ∧ (items i).has mifChecked) {sels : List ℕ}
    (hs : ∀ i ∈ sels, G i ∧ (items i).has mifDisabled = false ∧ (items i).has mifToggle = false ∧
      (items i).result ≠ menuDisabled) :
    (∃! i, G i ∧ ((menuRun sels items).2 i).has mifChecked) ∧ menuDisabled ∉ (menuRun sels items).1 := by
  induction sels generalizing items with
  | nil => exact ⟨hone, List.not_mem_nil⟩
  | cons sel sels ih =>
    obtain ⟨hsel, hd, ht, hr⟩ := hs sel List.mem_cons_self
    obtain ⟨hres, hchecked⟩ := hg.checks hsel hd ht
    obtain ⟨hrest, hnot⟩ := ih (hg.select sel) ⟨sel, ⟨hsel, (hchecked sel hsel).mpr rfl⟩,
      fun i hi => (hchecked i hi.1).mp hi.2⟩ fun i hi => by
        obtain ⟨hi', hbits⟩ := hs i (List.mem_cons_of_mem _ hi)
        obtain ⟨hsame, hsameBits⟩ := menuDoselect_same items sel i
        rw [hsame, hsameBits _ (by decide), hsameBits _ (by decide)]
        exact ⟨hi', hbits⟩
    refine ⟨hrest, fun hmem => ?_⟩
    rcases List.mem_cons.mp hmem with heq | hmem
    · exact hr (hres.symm.trans heq.symm)
    · exact hnot hmem

end Group

/-- Two items that exclude one another: the first is checked, the second disabled or not. -/
def twoItems (second : BitVec 32) : ℕ → MenuItem :=
  fun i => if i = 0 then ⟨0x302, none, 0⟩ else ⟨second, none, 0⟩

theorem menuRun_exclusive_second : (∃! i, i < 2 ∧ ((menuRun [1, 0] (twoItems 0x201)).2 i).has mifChecked) ∧
    menuDisabled ∉ (menuRun [1, 0] (twoItems 0x201)).1 :=
  menuRun_exclusive (G := (· < 2)) ⟨by decide, by decide⟩
    ⟨0, by decide, fun i hi => (by decide : ∀ i < 2, (twoItems 0x201 i).has mifChecked → i = 0) i hi.1 hi.2⟩ (by decide)

/-- Selecting the disabled item is refused, and leaves none of the two checked. -/
theorem menuDoselect_refused : MenuGroup (· < 2) (twoItems 0x1201) ∧
    (∃! i, i < 2 ∧ (twoItems 0x1201 i).has mifChecked) ∧ (menuDoselect (twoItems 0x1201) 1).1 = menuDisabled ∧
    ∀ i < 2, ((menuDoselect (twoItems 0x1201) 1).2 i).has mifChecked = false :=
  ⟨⟨by decide, by decide⟩,
    ⟨0, by decide, fun i hi => (by decide : ∀ i < 2, (twoItems 0x1201 i).has mifChecked → i = 0) i hi.1 hi.2⟩,
    by decide, by decide⟩

end Bertos
