import Bertos.Lib.Mem
import Bertos.Lib.Probing

/-!
# Hash tables (`bertos/struct/hashtable.c`, `hashtable.h`)

A table of `1 << max_elts_log2` nodes, with open addressing and double hashing. The key of a node is stored in the
table, cut at `INTERNAL_KEY_MAX_LENGTH` bytes, or is got from the data with a hook. A pointer to data is an `Option`, a
key the list of its bytes. The memory of the keys is not cleared by `ht_init`. Whether a `char` has a sign is up to the
compiler (`charVal`).

`htExec` runs a sequence of calls; `mapExec` is the purpose: what a finite map with room for so many keys returns.
-/

namespace Bertos

def internalKeyMaxLength : ℕ := 15

variable {D : Type}

/-- `key_data`, with `flags.key_internal`: a hook to get the key of some data, or the memory of the keys. -/
inductive KeyData (D : Type)
  | hook (getKey : Option D → List UInt8)
  | mem (keys : ℕ → UInt8)

structure HashTable (D : Type) where
  mem : List (Option D)
  maxEltsLog2 : ℕ
  keyData : KeyData D

def HashTable.size (ht : HashTable D) : ℕ := 1 <<< ht.maxEltsLog2

/-- `*node`. -/
def HashTable.node (ht : HashTable D) (index : ℕ) : Option D := ht.mem[index]?.join

/-! ## Nodes and keys -/

/-- `key_internal_get_ptr`, from the beginning of the memory of the keys. -/
def keyInternalGetPtr (index : ℕ) : ℕ := index * (internalKeyMaxLength + 1)

def nodeGetKey (ht : HashTable D) (index : ℕ) : List UInt8 :=
  match ht.keyData with
  | .mem keys => Mem.read keys (keyInternalGetPtr index + 1) (keys (keyInternalGetPtr index)).toNat
  | .hook getKey => getKey (ht.node index)

/-- `node_key_match`: the lengths and the bytes are the same. -/
def nodeKeyMatch (ht : HashTable D) (index : ℕ) (key : List UInt8) : Bool := key == nodeGetKey ht index

def rotl (x rot : UInt16) : UInt16 := (x <<< rot) ||| (x >>> (16 - rot))

def rotr (x rot : UInt16) : UInt16 := (x >>> rot) ||| (x <<< (16 - rot))

section Lookup

variable (charVal : UInt8 → UInt16)

def calcHash (key : List UInt8) : UInt16 :=
  let hash := key.foldl (fun hash c => rotl hash 4 ^^^ charVal c) (UInt16.ofNat key.length)
  hash ^^^ (hash >>> 6) ^^^ (hash >>> 13)

def HashTable.mask (ht : HashTable D) : UInt16 := UInt16.ofNat (1 <<< ht.maxEltsLog2 - 1)

/-- `NODE_EMPTY(node) || node_key_match(ht, node, key, key_length)`. -/
def nodeStops (ht : HashTable D) (key : List UInt8) (index : UInt16) : Bool :=
  (ht.node index.toNat).isNone || nodeKeyMatch ht index.toNat key

/-- The loop of `perform_lookup`: the node or `NULL`, and the number of nodes visited; `none` when it has not ended. -/
def lookupLoop (ht : HashTable D) (key : List UInt8) (firstIndex step : UInt16) :
    ℕ → UInt16 → Option (Option ℕ × ℕ)
  | 0, _ => none
  | fuel + 1, index =>
    let index := (index + step) &&& ht.mask
    if nodeStops ht key index then some (some index.toNat, 1)
    else if index ≠ firstIndex then (lookupLoop ht key firstIndex step fuel index).map fun r => (r.1, r.2 + 1)
    else some (none, 1)

def performLookup (fuel : ℕ) (ht : HashTable D) (key : List UInt8) : Option (Option ℕ × ℕ) :=
  let hash := calcHash charVal key
  let index := hash &&& ht.mask
  if nodeStops ht key index then some (some index.toNat, 1)
  else
    let step := (rotr hash (UInt16.ofNat ht.maxEltsLog2) &&& ht.mask) ||| 1
    (lookupLoop ht key index step fuel index).map fun r => (r.1, r.2 + 1)

/-! ## The functions -/

def htInit (ht : HashTable D) : HashTable D := { ht with mem := List.replicate ht.size none }

/-- The key as it is compared: cut, if keys are stored in the table. -/
def KeyData.cut : KeyData D → List UInt8 → List UInt8
  | .mem _, key => key.take internalKeyMaxLength
  | .hook _, key => key

/-- The key is stored for a node, if keys are stored in the table. -/
def KeyData.store : KeyData D → ℕ → List UInt8 → KeyData D
  | .mem keys, index, key => .mem (Mem.write keys (keyInternalGetPtr index) (UInt8.ofNat key.length :: key))
  | .hook getKey, _, _ => .hook getKey

def HashTable.insert (fuel : ℕ) (ht : HashTable D) (key : List UInt8) (data : Option D) : Option (HashTable D × Bool) :=
  match data with
  | none => some (ht, false)
  | some d =>
    (performLookup charVal fuel ht (ht.keyData.cut key)).map fun
      | (none, _) => (ht, false)
      | (some index, _) =>
        ({ ht with keyData := ht.keyData.store index (ht.keyData.cut key), mem := ht.mem.set index (some d) }, true)

/-- `ht_insert_with_key`; `debug` is whether `_DEBUG` is defined. -/
def htInsertWithKey (debug : Bool) (fuel : ℕ) (ht : HashTable D) (key : List UInt8) (data : Option D) :
    Option (HashTable D × Bool) :=
  match debug, ht.keyData with
  | true, .hook getKey => if key = getKey data then ht.insert charVal fuel key data else some (ht, false)
  | _, _ => ht.insert charVal fuel key data

/-- `ht_insert`, for a table with a hook. -/
def htInsert (fuel : ℕ) (ht : HashTable D) (data : Option D) : Option (HashTable D × Bool) :=
  match ht.keyData with
  | .hook getKey => ht.insert charVal fuel (getKey data) data
  | .mem _ => some (ht, false)

def htFind (fuel : ℕ) (ht : HashTable D) (key : List UInt8) : Option (Option D) :=
  (performLookup charVal fuel ht (ht.keyData.cut key)).map fun
    | (none, _) => none
    | (some index, _) => ht.node index

end Lookup

/-! ## Iterators -/

structure HashIterator where
  pos : ℕ
  endPos : ℕ

/-- `while (h.pos != h.end && !*h.pos) ++h.pos;`, with the number of nodes up to the end. -/
def skipEmpty (ht : HashTable D) : ℕ → ℕ → ℕ
  | 0, pos => pos
  | k + 1, pos => if (ht.node pos).isNone then skipEmpty ht k (pos + 1) else pos

def htIterBegin (ht : HashTable D) : HashIterator := ⟨skipEmpty ht ht.size 0, ht.size⟩

def htIterEnd (ht : HashTable D) : HashIterator := ⟨ht.size, ht.size⟩

def htIterCmp (it₁ it₂ : HashIterator) : Bool := it₁.pos == it₂.pos

def htIterGet (ht : HashTable D) (it : HashIterator) : Option D := ht.node it.pos

def htIterNext (ht : HashTable D) (it : HashIterator) : HashIterator :=
  ⟨skipEmpty ht (it.endPos - (it.pos + 1)) (it.pos + 1), it.endPos⟩

/-- What a loop from an iterator to the end gets; `none` when it has not ended. -/
def htIterate (ht : HashTable D) : ℕ → HashIterator → Option (List (Option D))
  | 0, _ => none
  | fuel + 1, it =>
    if htIterCmp it (htIterEnd ht) then some []
    else (htIterate ht fuel (htIterNext ht it)).map (htIterGet ht it :: ·)

/-! ## Sequences of calls -/

inductive HtCall (D : Type)
  | insert (data : Option D)
  | insertWithKey (key : List UInt8) (data : Option D)
  | find (key : List UInt8)

inductive HtResult (D : Type)
  | inserted (ok : Bool)
  | found (data : Option D)

/-- What the header asks of a call: `ht_insert` needs a hook, and a key that is given must be the one of the hook. -/
def HtCall.Allowed : KeyData D → HtCall D → Prop
  | .hook _, .insert _ => True
  | .mem _, .insert _ => False
  | .hook getKey, .insertWithKey key data => data.isSome → key = getKey data
  | .mem _, .insertWithKey _ _ => True
  | _, .find _ => True

section Calls

variable (charVal : UInt8 → UInt16) (debug : Bool) (fuel : ℕ)

def htCall (ht : HashTable D) : HtCall D → Option (HashTable D × HtResult D)
  | .insert data => (htInsert charVal fuel ht data).map fun r => (r.1, .inserted r.2)
  | .insertWithKey key data => (htInsertWithKey charVal debug fuel ht key data).map fun r => (r.1, .inserted r.2)
  | .find key => (htFind charVal fuel ht key).map fun data => (ht, .found data)

/-- A sequence of calls; `none` when one of them does not end. -/
def htExec (ht : HashTable D) : List (HtCall D) → Option (HashTable D × List (HtResult D))
  | [] => some (ht, [])
  | call :: calls => do
    let (ht, result) ← htCall charVal debug fuel ht call
    let (ht, results) ← htExec ht calls
    return (ht, result :: results)

end Calls

/-! ## A finite map -/

/-- An insert fails when the data is `NULL`, or when there is no room because of other keys. -/
def mapInsert (room : ℕ) (stored : List (List UInt8 × D)) (key : List UInt8) :
    Option D → List (List UInt8 × D) × Bool
  | none => (stored, false)
  | some d =>
    if (Probing.others key stored).length = room then (stored, false)
    else ((key, d) :: Probing.others key stored, true)

/-- The key of some data that is inserted without one. -/
def KeyData.ofData : KeyData D → Option D → List UInt8
  | .hook getKey, data => getKey data
  | .mem _, _ => []

def mapCall (room : ℕ) (keyData : KeyData D) (stored : List (List UInt8 × D)) :
    HtCall D → List (List UInt8 × D) × HtResult D
  | .insert data =>
    let r := mapInsert room stored (keyData.ofData data) data
    (r.1, .inserted r.2)
  | .insertWithKey key data =>
    let r := mapInsert room stored (keyData.cut key) data
    (r.1, .inserted r.2)
  | .find key => (stored, .found (Probing.find (keyData.cut key) stored))

def mapExec (room : ℕ) (keyData : KeyData D) (stored : List (List UInt8 × D)) :
    List (HtCall D) → List (List UInt8 × D) × List (HtResult D)
  | [] => (stored, [])
  | call :: calls =>
    let r := mapCall room keyData stored call
    let rs := mapExec room keyData r.1 calls
    (rs.1, r.2 :: rs.2)

end Bertos
