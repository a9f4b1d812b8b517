import Bertos.Struct.HashTable

/-!
# The hash table is a finite map

The step of a lookup is odd, so it meets every node (`lookupLoop_spec`), and a node is only ever filled where a lookup
of its key ends (`HtInv`). Hence the table behaves as the map of `mapExec`, for every sequence of calls
(`htExec_eq_mapExec`).
-/

namespace Bertos

open List HashTable Probing Nat

variable {D : Type}

/-! ## Indices -/

section Index

variable {ht : HashTable D}

theorem HashTable.size_pos : 0 < ht.size := by
  rw [size, Nat.one_shiftLeft]
  exact Nat.two_pow_pos _

theorem HashTable.size_le (hn : ht.maxEltsLog2 ≤ 15) : ht.size ≤ 32768 := by
  rw [size, Nat.one_shiftLeft]
  exact Nat.pow_le_pow_right (by decide) hn

theorem and_mask_toNat (hn : ht.maxEltsLog2 ≤ 15) (x : UInt16) : (x &&& ht.mask).toNat = x.toNat % ht.size := by
  have hmask : ht.mask.toNat = ht.size - 1 := by
    have hle := size_le hn
    rw [mask, UInt16.toNat_ofNat', HashTable.size] at *
    omega
  rw [UInt16.toNat_and, hmask, HashTable.size, one_shiftLeft, and_two_pow_sub_one_eq_mod]

theorem next_index_toNat (hn : ht.maxEltsLog2 ≤ 15) (index step : UInt16) :
    ((index + step) &&& ht.mask).toNat = (index.toNat + step.toNat) % ht.size := by
  have hdvd : ht.size ∣ 65536 := by
    rw [HashTable.size, one_shiftLeft]
    exact pow_dvd_pow 2 (by omega : ht.maxEltsLog2 ≤ 16)
  rw [and_mask_toNat hn, UInt16.toNat_add]
  exact mod_mod_of_dvd _ hdvd

theorem or_one_coprime (ht : HashTable D) (x : UInt16) : Nat.Coprime (x ||| 1).toNat ht.size := by
  have hodd : (x ||| 1).toNat % 2 = 1 := by simp [UInt16.toNat_or]
  have htwo : Nat.Coprime (x ||| 1).toNat 2 := by
    rw [coprime_comm, Nat.Coprime, gcd_rec, hodd]
    rfl
  rw [HashTable.size, one_shiftLeft]
  exact htwo.pow_right _

end Index

/-! ## Lookups -/

section Lookup

variable (charVal : UInt8 → UInt16) {ht : HashTable D} {key : List UInt8}

def HashTable.view (ht : HashTable D) (index : ℕ) : Option (List UInt8 × D) :=
  (ht.node index).map fun d => (nodeGetKey ht index, d)

def firstIndex (ht : HashTable D) (key : List UInt8) : UInt16 := calcHash charVal key &&& ht.mask

def probeStep (ht : HashTable D) (key : List UInt8) : UInt16 :=
  (rotr (calcHash charVal key) (UInt16.ofNat ht.maxEltsLog2) &&& ht.mask) ||| 1

def HashTable.path (ht : HashTable D) (key : List UInt8) : ℕ → ℕ :=
  Probing.cycle ht.size (firstIndex charVal ht key).toNat (probeStep charVal ht key).toNat

theorem nodeStops_iff (index : UInt16) : nodeStops ht key index = true ↔ ¬ Probing.Miss ht.view key index.toNat := by
  unfold nodeStops nodeKeyMatch Probing.Miss HashTable.view
  cases ht.node index.toNat with
  | none => simp
  | some d =>
    rw [Option.isNone_some, Bool.false_or, beq_iff_eq, Option.map_some]
    constructor
    · rintro rfl ⟨k', d', he, hne⟩
      exact hne (congrArg Prod.fst (Option.some.inj he)).symm
    · intro h
      exact Classical.byContradiction fun hne => h ⟨_, d, rfl, fun he => hne he.symm⟩

theorem path_zero (hn : ht.maxEltsLog2 ≤ 15) : (firstIndex charVal ht key).toNat = ht.path charVal key 0 := by
  have hlt : (firstIndex charVal ht key).toNat < ht.size := by
    rw [firstIndex, and_mask_toNat hn]
    exact mod_lt _ size_pos
  rw [path, cycle, zero_mul, add_zero, mod_eq_of_lt hlt]

theorem path_succ (hn : ht.maxEltsLog2 ≤ 15) {i : ℕ} {index : UInt16} (hindex : index.toNat = ht.path charVal key i) :
    ((index + probeStep charVal ht key) &&& ht.mask).toNat = ht.path charVal key (i + 1) := by
  rw [next_index_toNat hn, hindex, path, cycle, cycle, mod_add_mod, succ_mul,
    add_assoc]

theorem path_lt (i : ℕ) : ht.path charVal key i < ht.size := mod_lt _ size_pos

theorem probeStep_coprime : Nat.Coprime (probeStep charVal ht key).toNat ht.size := or_one_coprime ht _

theorem exists_path_eq (key : List UInt8) {s : ℕ} (hs : s < ht.size) : ∃ i < ht.size, ht.path charVal key i = s :=
  exists_cycle_eq (probeStep_coprime charVal) hs

theorem path_back_iff (hn : ht.maxEltsLog2 ≤ 15) {i : ℕ} (hi : i < ht.size) :
    ht.path charVal key (i + 1) = (firstIndex charVal ht key).toNat ↔ ht.size = i + 1 := by
  have hfirst : (firstIndex charVal ht key).toNat < ht.size := path_zero charVal hn ▸ path_lt charVal 0
  refine (cycle_eq_first_iff (probeStep_coprime charVal) hfirst).trans ?_
  exact ⟨fun h => le_antisymm (le_of_dvd (succ_pos i) h) hi, fun h => h ▸ dvd_refl _⟩

/-- **The loop** ends: at the node where the key is looked for, or with other keys in all nodes. -/
theorem lookupLoop_spec (hn : ht.maxEltsLog2 ≤ 15) {i : ℕ} (hi : i < ht.size)
    (hmiss : ∀ j ≤ i, Probing.Miss ht.view key (ht.path charVal key j)) {fuel : ℕ} (hf : ht.size - i ≤ fuel)
    {index : UInt16} (hindex : index.toNat = ht.path charVal key i) :
    ∃ r visits, lookupLoop ht key (firstIndex charVal ht key) (probeStep charVal ht key) fuel index = some (r, visits) ∧
      visits ≤ ht.size - i ∧
      ((∃ s < ht.size, r = some s ∧ Probing.Lands (ht.path charVal) ht.view key s) ∨
        r = none ∧ ∀ s < ht.size, Probing.Miss ht.view key s) := by
  -- one turn meets the next node of the path; `i` nodes have been met
  induction fuel generalizing i index with
  | zero => omega
  | succ fuel ih =>
    have hnext := path_succ charVal hn hindex
    rw [lookupLoop]
    by_cases hstop : nodeStops ht key ((index + probeStep charVal ht key) &&& ht.mask) = true
    · have hhit := (nodeStops_iff _).mp hstop
      rw [hnext] at hhit
      refine ⟨_, 1, if_pos hstop, by omega, Or.inl ⟨_, path_lt charVal (i + 1), congrArg some hnext, hhit, i + 1, rfl,
        ?_⟩⟩
      exact fun j hj => hmiss j (le_of_lt_succ hj)
    · have hmiss' : Probing.Miss ht.view key (ht.path charVal key (i + 1)) := by
        rw [← hnext]
        exact Classical.not_not.mp fun h => hstop ((nodeStops_iff _).mpr h)
      have hall : ∀ j ≤ i + 1, Probing.Miss ht.view key (ht.path charVal key j) := by
        intro j hj
        obtain rfl | hj := eq_or_lt_of_le hj
        · exact hmiss'
        · exact hmiss j (le_of_lt_succ hj)
      simp only [if_neg hstop]
      by_cases hback : (index + probeStep charVal ht key) &&& ht.mask = firstIndex charVal ht key
      · have hsize := (path_back_iff charVal hn hi).mp (hnext ▸ congrArg UInt16.toNat hback)
        rw [if_neg (fun h => h hback)]
        refine ⟨none, 1, rfl, by omega, Or.inr ⟨rfl, fun s hs => ?_⟩⟩
        obtain ⟨j, hj, rfl⟩ := exists_path_eq charVal key hs
        exact hall j (by omega)
      · have hne : ht.size ≠ i + 1 := fun h =>
          hback (UInt16.toNat_inj.mp (hnext.trans ((path_back_iff charVal hn hi).mpr h)))
        have hi' : i + 1 < ht.size := by omega
        obtain ⟨r, visits, hrun, hvisits, hr⟩ := ih hi' hall (by omega) hnext
        rw [if_pos hback, hrun]
        exact ⟨r, visits + 1, rfl, by omega, hr⟩

/-- **A lookup** ends after at most one visit more than there are nodes. -/
theorem performLookup_spec (hn : ht.maxEltsLog2 ≤ 15) {fuel : ℕ} (hf : ht.size ≤ fuel) (key : List UInt8) :
    ∃ r visits, performLookup charVal fuel ht key = some (r, visits) ∧ visits ≤ ht.size + 1 ∧
      ((∃ s < ht.size, r = some s ∧ Probing.Lands (ht.path charVal) ht.view key s) ∨
        r = none ∧ ∀ s < ht.size, Probing.Miss ht.view key s) := by
  have hzero : (firstIndex charVal ht key).toNat = ht.path charVal key 0 := path_zero charVal hn
  by_cases hstop : nodeStops ht key (firstIndex charVal ht key) = true
  · have hhit := (nodeStops_iff _).mp hstop
    rw [hzero] at hhit
    refine ⟨_, 1, if_pos hstop, by omega, Or.inl ⟨_, path_lt charVal 0, congrArg some hzero, hhit, 0, rfl, ?_⟩⟩
    exact fun j hj => absurd hj (not_lt_zero j)
  · have hmiss : Probing.Miss ht.view key (ht.path charVal key 0) := by
      rw [← hzero]
      exact Classical.not_not.mp fun h => hstop ((nodeStops_iff _).mpr h)
    obtain ⟨r, visits, hrun, hvisits, hr⟩ := lookupLoop_spec charVal hn size_pos
      (fun j hj => le_zero.mp hj ▸ hmiss) hf hzero
    refine ⟨r, visits + 1, ?_, by omega, hr⟩
    have hlookup : performLookup charVal fuel ht key = (lookupLoop ht key (firstIndex charVal ht key)
        (probeStep charVal ht key) fuel (firstIndex charVal ht key)).map fun r => (r.1, r.2 + 1) := if_neg hstop
    rw [hlookup, hrun]
    rfl

end Lookup

/-! ## Inserting -/

section Insert

variable {ht : HashTable D} {key : List UInt8} {d : D} {index : ℕ}

/-- The key may be stored with the data: it is short enough, or the one of the hook. -/
def KeyData.Fits : KeyData D → List UInt8 → D → Prop
  | .mem _, key, _ => key.length ≤ internalKeyMaxLength
  | .hook getKey, key, d => key = getKey (some d)

/-- The table with an entry in a node. -/
def HashTable.put (ht : HashTable D) (index : ℕ) (key : List UInt8) (d : D) : HashTable D :=
  { ht with keyData := ht.keyData.store index key, mem := ht.mem.set index (some d) }

theorem node_put_self (hi : index < ht.mem.length) : (ht.put index key d).node index = some d := by
  simp [node, put, hi]

theorem node_put_of_ne {i : ℕ} (hne : i ≠ index) : (ht.put index key d).node i = ht.node i := by
  simp [node, put, getElem?_set_ne hne.symm]

/-- A key just put is read back, -/
theorem nodeGetKey_put_self (hi : index < ht.mem.length) (hfits : ht.keyData.Fits key d) :
    nodeGetKey (ht.put index key d) index = key := by
  unfold nodeGetKey
  rw [node_put_self hi]
  cases hkd : ht.keyData with
  | hook getKey =>
    rw [hkd] at hfits
    simp only [put, hkd, KeyData.store]
    exact hfits.symm
  | mem keys =>
    rw [hkd] at hfits
    simp only [put, hkd, KeyData.store]
    have hread := Mem.read_write_self keys (keyInternalGetPtr index) (UInt8.ofNat key.length :: key)
    rw [length_cons, Mem.read_succ] at hread
    obtain ⟨hlen, hkey⟩ := cons.inj hread
    have hle : key.length ≤ 15 := hfits
    have hmod : (UInt8.ofNat key.length).toNat = key.length := by
      rw [UInt8.toNat_ofNat']
      omega
    rw [hlen, hmod, hkey]

/-- and the others are untouched. -/
theorem nodeGetKey_put_of_ne {i : ℕ} {e : List UInt8 × D} (hne : i ≠ index) (hfits : ht.keyData.Fits key d)
    (hv : ht.view i = some e) (he : ht.keyData.Fits e.1 e.2) : nodeGetKey (ht.put index key d) i = nodeGetKey ht i := by
  have hkey : nodeGetKey ht i = e.1 := by
    obtain ⟨d', -, rfl⟩ := Option.map_eq_some_iff.mp hv
    rfl
  unfold nodeGetKey at hkey ⊢
  rw [node_put_of_ne hne]
  cases hkd : ht.keyData with
  | hook getKey => simp only [put, hkd, KeyData.store]
  | mem keys =>
    rw [hkd] at hfits he hkey
    simp only [put, hkd, KeyData.store]
    have hle : key.length ≤ 15 := hfits
    have hle' : (keys (keyInternalGetPtr i)).toNat ≤ 15 := by
      rw [← hkey] at he
      simpa [KeyData.Fits, internalKeyMaxLength] using he
    have hptr : keyInternalGetPtr i + 16 ≤ keyInternalGetPtr index ∨
        keyInternalGetPtr index + 16 ≤ keyInternalGetPtr i := by
      unfold keyInternalGetPtr internalKeyMaxLength
      omega
    rw [Mem.write_of_not_mem _ _ _ (by rw [length_cons]; omega),
      Mem.read_write_of_disjoint _ _ _ (by rw [length_cons]; omega)]

/-- **The view** of the table with an entry more. -/
theorem view_put (hi : index < ht.mem.length) (hfits : ht.keyData.Fits key d)
    (hall : ∀ i e, ht.view i = some e → ht.keyData.Fits e.1 e.2) :
    (ht.put index key d).view = Function.update ht.view index (some (key, d)) := by
  funext i
  by_cases hne : i = index
  · subst hne
    rw [Function.update_self, HashTable.view, node_put_self hi, Option.map_some, nodeGetKey_put_self hi hfits]
  · rw [Function.update_of_ne hne, HashTable.view, node_put_of_ne hne]
    cases hv : ht.view i with
    | none =>
      rw [Option.map_eq_none_iff.mp hv]
      rfl
    | some e =>
      rw [nodeGetKey_put_of_ne hne hfits hv (hall i e hv)]
      exact hv

end Insert

/-! ## Calls -/

section Calls

/-- **What holds of the table** when these entries are stored. -/
structure HtInv (charVal : UInt8 → UInt16) (ht : HashTable D) (stored : List (List UInt8 × D)) : Prop where
  length : ht.mem.length = ht.size
  fits : ∀ i e, ht.view i = some e → ht.keyData.Fits e.1 e.2
  ordered : Probing.Ordered (ht.path charVal) ht.view
  stores : Probing.Stores ht.size ht.view stored

def SameKeys : KeyData D → KeyData D → Prop
  | .hook getKey, keyData => keyData = .hook getKey
  | .mem _, keyData => ∃ keys, keyData = .mem keys

variable {charVal : UInt8 → UInt16} {ht : HashTable D} {stored : List (List UInt8 × D)} {fuel : ℕ}
  {keyData : KeyData D}

theorem sameKeys_refl : ∀ keyData : KeyData D, SameKeys keyData keyData
  | .hook _ => rfl
  | .mem keys => ⟨keys, rfl⟩

variable {keyData' : KeyData D}

theorem SameKeys.store (h : SameKeys keyData keyData') (index : ℕ) (key : List UInt8) :
    SameKeys keyData (keyData'.store index key) := by
  cases keyData with
  | hook getKey =>
    obtain rfl := h
    rfl
  | mem _ =>
    obtain ⟨keys, rfl⟩ := h
    exact ⟨_, rfl⟩

theorem htInv_init (ht : HashTable D) : HtInv charVal (htInit ht) [] := by
  have hnode : ∀ i, (htInit ht).view i = none := by
    intro i
    simp [HashTable.view, node, htInit, getElem?_replicate]
    split <;> rfl
  refine ⟨length_replicate, fun i e hv => ?_, fun i k d hv => ?_, Probing.Stores.empty fun i _ => hnode i⟩
  · rw [hnode i] at hv
    cases hv
  · rw [hnode i] at hv
    cases hv

/-- **A put** at its slot keeps the table in order. -/
theorem HtInv.put (h : HtInv charVal ht stored) {key : List UInt8} {d : D} {s : ℕ} (hs : s < ht.size)
    (hl : Probing.Lands (ht.path charVal) ht.view key s) (hfits : ht.keyData.Fits key d) :
    HtInv charVal (ht.put s key d) ((key, d) :: Probing.others key stored) := by
  have hview := view_put (h.length.symm ▸ hs) hfits h.fits
  refine ⟨?_, fun i e hv => ?_, ?_, ?_⟩
  · rw [HashTable.put, length_set]
    exact h.length
  · have hstore : ∀ k d', ht.keyData.Fits k d' → (ht.put s key d).keyData.Fits k d' := by
      intro k d' hk
      unfold HashTable.put
      cases hkd : ht.keyData <;> rw [hkd] at hk <;> exact hk
    rw [hview] at hv
    by_cases hi : i = s
    · rw [hi, Function.update_self] at hv
      obtain rfl := Option.some.inj hv
      exact hstore _ _ hfits
    · rw [Function.update_of_ne hi] at hv
      exact hstore _ _ (h.fits i e hv)
  · rw [hview]
    exact h.ordered.put hl
  · rw [hview]
    exact h.stores.put h.ordered hl hs

section
variable (h : HtInv charVal ht stored) (hn : ht.maxEltsLog2 ≤ 15) (hf : ht.size ≤ fuel) (key : List UInt8)
include h hn hf key

/-- **An insert** is that of the map, and changes nothing if it fails. -/
theorem insert_spec (data : Option D) (hfits : ∀ d, data = some d → ht.keyData.Fits (ht.keyData.cut key) d) :
    ∃ ht', ht.insert charVal fuel key data = some (ht', (mapInsert ht.size stored (ht.keyData.cut key) data).2) ∧
      HtInv charVal ht' (mapInsert ht.size stored (ht.keyData.cut key) data).1 ∧
      (ht' = ht ∨ (mapInsert ht.size stored (ht.keyData.cut key) data).2 = true ∧
        ∃ s d, ht' = ht.put s (ht.keyData.cut key) d) := by
  cases data with
  | none => exact ⟨ht, rfl, h, Or.inl rfl⟩
  | some d =>
    obtain ⟨r, visits, hrun, -, hr⟩ := performLookup_spec charVal hn hf (ht.keyData.cut key)
    have hroom := h.stores.others_length_eq h.ordered (k := ht.keyData.cut key)
    obtain ⟨s, hs, rfl, hl⟩ | ⟨rfl, hmiss⟩ := hr
    · have hne : (others (ht.keyData.cut key) stored).length ≠ ht.size := fun he => hl.hit (hroom.mp he s hs)
      simp only [HashTable.insert, hrun, mapInsert, if_neg hne]
      exact ⟨_, rfl, h.put hs hl (hfits d rfl), Or.inr ⟨trivial, s, d, rfl⟩⟩
    · simp only [HashTable.insert, hrun, mapInsert, if_pos (hroom.mpr hmiss)]
      exact ⟨ht, rfl, h, Or.inl rfl⟩

/-- **A find** is that of the map. -/
theorem htFind_spec : htFind charVal fuel ht key = some (Probing.find (ht.keyData.cut key) stored) := by
  obtain ⟨r, visits, hrun, -, hr⟩ := performLookup_spec charVal hn hf (ht.keyData.cut key)
  rw [htFind, hrun]
  obtain ⟨s, hs, rfl, hl⟩ | ⟨rfl, hmiss⟩ := hr
  · rw [h.stores.find_eq h.ordered hl hs, HashTable.view]
    cases hnode : ht.node s with
    | none | some d => simp [hnode]
  · have hnone : find (ht.keyData.cut key) stored = none := by
      refine find_eq_none fun d he => ?_
      obtain ⟨s, hs, hv⟩ := (h.stores.mem_iff _).mp he
      obtain ⟨k', d', hv', hne⟩ := hmiss s hs
      rw [hv] at hv'
      exact hne (congrArg Prod.fst (Option.some.inj hv')).symm
    rw [hnone]
    rfl

end

variable (debug : Bool)

/-- A key that is given for a table with a hook is the one of the hook; a debug build checks it. -/
theorem htInsertWithKey_eq {key : List UInt8} {data : Option D}
    (ha : (HtCall.insertWithKey key data).Allowed ht.keyData) :
    htInsertWithKey charVal debug fuel ht key data = ht.insert charVal fuel key data := by
  unfold htInsertWithKey
  split
  · next getKey _ hkd =>
    rw [hkd] at ha
    split
    · rfl
    · next hne =>
      cases data with
      | none => rfl
      | some d => exact absurd (ha rfl) hne
  · rfl

/-- **A call** is that of the map. -/
theorem htCall_spec (h : HtInv charVal ht stored) (hn : ht.maxEltsLog2 ≤ 15) (hf : ht.size ≤ fuel)
    (call : HtCall D) (ha : call.Allowed ht.keyData) :
    ∃ ht', htCall charVal debug fuel ht call = some (ht', (mapCall ht.size ht.keyData stored call).2) ∧
      HtInv charVal ht' (mapCall ht.size ht.keyData stored call).1 ∧
      (ht' = ht ∨ (mapCall ht.size ht.keyData stored call).2 = .inserted true ∧ ∃ s key d, ht' = ht.put s key d) := by
  cases call with
  | insert data =>
    cases hkd : ht.keyData with
    | mem keys =>
      rw [hkd] at ha
      exact ha.elim
    | hook getKey =>
      have hcut : ht.keyData.cut (getKey data) = getKey data := by rw [hkd]; rfl
      obtain ⟨ht', hrun, hinv, hht⟩ := insert_spec h hn hf (getKey data) data fun d hd => by
        rw [hcut, hkd, hd]
        rfl
      rw [hcut] at hrun hinv hht
      refine ⟨ht', ?_, hinv, hht.imp_right fun ⟨hok, s, d, he⟩ => ⟨congrArg HtResult.inserted hok, s, _, d, he⟩⟩
      simp only [htCall, htInsert, hkd, hrun, Option.map_some]
      rfl
  | insertWithKey key data =>
    obtain ⟨ht', hrun, hinv, hht⟩ := insert_spec h hn hf key data fun d hd => by
      cases hkd : ht.keyData with
      | mem keys => exact (length_take_le ..)
      | hook getKey =>
        rw [hkd, hd] at ha
        exact ha rfl
    refine ⟨ht', ?_, hinv, hht.imp_right fun ⟨hok, s, d, he⟩ => ⟨congrArg HtResult.inserted hok, s, _, d, he⟩⟩
    rw [htCall, htInsertWithKey_eq debug ha, hrun]
    rfl
  | find key =>
    refine ⟨ht, ?_, h, Or.inl rfl⟩
    rw [htCall, htFind_spec h hn hf]
    rfl

theorem SameKeys.mapCall_eq (h : SameKeys keyData keyData') (room : ℕ)
    (stored : List (List UInt8 × D)) (call : HtCall D) :
    mapCall room keyData' stored call = mapCall room keyData stored call := by
  cases keyData with
  | hook getKey => rw [show keyData' = _ from h]
  | mem _ =>
    obtain ⟨keys, rfl⟩ := h
    cases call <;> rfl

theorem SameKeys.allowed_iff (h : SameKeys keyData keyData') (call : HtCall D) :
    call.Allowed keyData' ↔ call.Allowed keyData := by
  cases keyData with
  | hook getKey => rw [show keyData' = _ from h]
  | mem _ =>
    obtain ⟨keys, rfl⟩ := h
    cases call <;> rfl

/-- A sequence of calls, by induction over them. -/
theorem htExec_spec (calls : List (HtCall D)) (h : HtInv charVal ht stored) (hn : ht.maxEltsLog2 ≤ 15)
    (hf : ht.size ≤ fuel) (hk : SameKeys keyData ht.keyData) (ha : ∀ call ∈ calls, call.Allowed keyData) :
    ∃ ht', htExec charVal debug fuel ht calls = some (ht', (mapExec ht.size keyData stored calls).2) ∧
      HtInv charVal ht' (mapExec ht.size keyData stored calls).1 ∧ ht'.maxEltsLog2 = ht.maxEltsLog2 ∧
      SameKeys keyData ht'.keyData := by
  induction calls generalizing ht stored with
  | nil => exact ⟨ht, rfl, h, rfl, hk⟩
  | cons call calls ih =>
    obtain ⟨ht1, hrun1, hinv1, hht1⟩ :=
      htCall_spec debug h hn hf call ((hk.allowed_iff call).mpr (ha call mem_cons_self))
    rw [hk.mapCall_eq] at hrun1 hinv1
    have hsame : ht1.maxEltsLog2 = ht.maxEltsLog2 ∧ SameKeys keyData ht1.keyData := by
      obtain rfl | ⟨-, s, key, d, rfl⟩ := hht1
      · exact ⟨rfl, hk⟩
      · exact ⟨rfl, hk.store s key⟩
    have hsize : ht1.size = ht.size := congrArg (1 <<< ·) hsame.1
    obtain ⟨ht2, hrun2, hinv2, hn2, hk2⟩ := ih hinv1 (hsame.1.symm ▸ hn) (hsize.symm ▸ hf) hsame.2
      fun c hc => ha c (mem_cons_of_mem _ hc)
    rw [hsize] at hrun2 hinv2
    refine ⟨ht2, ?_, hinv2, hn2.trans hsame.1, hk2⟩
    rw [htExec, hrun1]
    simp only [Option.bind_eq_bind, Option.bind_some, hrun2]
    rfl

end Calls

/-! ## Iterating -/

section Iterate

variable {ht : HashTable D}

/-- From a node on, an iteration gets the data of the nodes that are in use. -/
theorem htIterate_from {pos k fuel : ℕ} (hk : pos + k = ht.size) (hf : k < fuel) :
    htIterate ht fuel ⟨skipEmpty ht k pos, ht.size⟩ = some (((List.range' pos k).filterMap ht.node).map some) := by
  induction k generalizing pos fuel with
  | zero =>
    obtain ⟨fuel, rfl⟩ := exists_eq_succ_of_ne_zero (ne_of_gt hf)
    have hpos : pos = ht.size := hk
    rw [htIterate, if_pos (by simp [skipEmpty, htIterCmp, htIterEnd, hpos])]
    rfl
  | succ k ih =>
    cases hnode : ht.node pos with
    | none =>
      rw [skipEmpty, hnode, if_pos Option.isNone_none, ih (by omega) (by omega), range'_succ, filterMap_cons_none hnode]
    | some d =>
      obtain ⟨fuel, rfl⟩ := exists_eq_succ_of_ne_zero (ne_of_gt (zero_lt_of_lt hf))
      have hskip : skipEmpty ht (k + 1) pos = pos := by
        rw [skipEmpty, hnode]
        rfl
      have hnext : htIterNext ht ⟨pos, ht.size⟩ = ⟨skipEmpty ht k (pos + 1), ht.size⟩ := by
        rw [htIterNext, show ht.size - (pos + 1) = k by omega]
      have hne : ¬ htIterCmp ⟨pos, ht.size⟩ (htIterEnd ht) = true := by
        simp only [htIterCmp, htIterEnd, beq_iff_eq]
        omega
      rw [hskip, htIterate, if_neg hne, hnext, ih (by omega) (by omega), range'_succ,
        filterMap_cons_some hnode, htIterGet, hnode]
      rfl

/-- **An iteration** gets each entry once. -/
theorem htIterate_spec {charVal : UInt8 → UInt16} {stored : List (List UInt8 × D)} {fuel : ℕ}
    (h : HtInv charVal ht stored) (hf : ht.size < fuel) :
    ∃ visited, htIterate ht fuel (htIterBegin ht) = some visited ∧ visited.Perm (stored.map fun e => some e.2) := by
  refine ⟨_, htIterate_from (zero_add _) hf, ?_⟩
  have hdata : (range' 0 ht.size).filterMap ht.node = ((range ht.size).filterMap ht.view).map Prod.snd := by
    rw [map_filterMap, range_eq_range']
    refine filterMap_congr fun i _ => ?_
    rw [HashTable.view]
    cases ht.node i <;> rfl
  rw [hdata, map_map]
  exact (h.stores.perm h.ordered).map _

end Iterate

/-! ## The table -/

/-- **The hash table is a finite map**: the results of a sequence of calls are those of the map, an iteration gets each
stored element once, a lookup visits at most one node more than there are, and an insert that fails changes nothing. -/
theorem htExec_eq_mapExec (charVal : UInt8 → UInt16) (debug : Bool) (ht : HashTable D) (hn : ht.maxEltsLog2 ≤ 15)
    {fuel : ℕ} (hf : ht.size ≤ fuel) (calls : List (HtCall D)) (ha : ∀ call ∈ calls, call.Allowed ht.keyData) :
    ∃ ht', htExec charVal debug fuel (htInit ht) calls = some (ht', (mapExec ht.size ht.keyData [] calls).2) ∧
      (∃ visited, htIterate ht' (ht.size + 1) (htIterBegin ht') = some visited ∧
        visited.Perm ((mapExec ht.size ht.keyData [] calls).1.map fun e => some e.2)) ∧
      (∀ key, ∃ r visits, performLookup charVal fuel ht' key = some (r, visits) ∧ visits ≤ ht.size + 1) ∧
      ∀ call ht'', call.Allowed ht.keyData → htCall charVal debug fuel ht' call = some (ht'', .inserted false) →
        ht'' = ht' := by
  obtain ⟨ht', hrun, hinv, hn', hk⟩ := htExec_spec debug calls (htInv_init ht) hn hf (sameKeys_refl ht.keyData) ha
  have hsize : ht'.size = ht.size := congrArg (1 <<< ·) hn'
  have hle : ht'.maxEltsLog2 ≤ 15 := hn'.symm ▸ hn
  have hfuel : ht'.size ≤ fuel := hsize.symm ▸ hf
  refine ⟨ht', hrun, htIterate_spec hinv (by omega), fun key => ?_, fun call ht'' hcall hfail => ?_⟩
  · obtain ⟨r, visits, hlookup, hvisits, -⟩ := performLookup_spec charVal hle hfuel key
    exact ⟨r, visits, hlookup, hsize ▸ hvisits⟩
  · obtain ⟨ht₁, hrun₁, -, hht⟩ := htCall_spec debug hinv hle hfuel call ((hk.allowed_iff call).mpr hcall)
    obtain ⟨rfl, hresult⟩ := Prod.mk.inj (Option.some.inj (hfail.symm.trans hrun₁))
    obtain h | ⟨h, -⟩ := hht
    · exact h
    · rw [← hresult] at h
      cases h

/-- Two nodes with keys in the table: a third key does not fit, and is not found; the first one is found again under a
longer key that is cut to it. -/
theorem htExec_eq_mapExec_full :
    ∃ ht', htExec UInt8.toUInt16 false 2 (htInit (⟨[], 1, .mem fun _ => 0xff⟩ : HashTable ℕ))
      [.insertWithKey (List.replicate 15 7) (some 10), .insertWithKey [2] (some 20), .insertWithKey [3] (some 30),
        .find [3], .find (List.replicate 16 7)] =
      some (ht', [.inserted true, .inserted true, .inserted false, .found none, .found (some 10)]) := by
  obtain ⟨ht', hrun, -⟩ := htExec_eq_mapExec UInt8.toUInt16 false (⟨[], 1, .mem fun _ => 0xff⟩ : HashTable ℕ)
    (by decide) (le_refl 2) [.insertWithKey (replicate 15 7) (some 10), .insertWithKey [2] (some 20),
      .insertWithKey [3] (some 30), .find [3], .find (replicate 16 7)] (by simp [HtCall.Allowed])
  exact ⟨ht', hrun⟩

end Bertos
