import DpdkStudy.TenantQos.Parse
import DpdkStudy.TenantQos.Qos

/-!
# The classifier

The classifier (`dataplane/classify.c`) finds the action of a flow: a hash
table of the keys gives each of them an index, and the actions are an array
over these indices. The hash table is a parameter of the model (`RteHash`):
nothing the data plane promises rests on more than its interface.
-/

namespace TenantQos

/-- **A hash table of flow keys** (`rte_hash`), as far as the classifier uses
it. -/
structure RteHash where
  /-- A table. -/
  Table : Type
  /-- `rte_hash_create`, for a number of entries. -/
  create : UInt32 → Option Table
  /-- `rte_hash_add_key`: the index of the key, negative on failure. -/
  addKey : Table → DpFlowKey → Int × Table
  /-- `rte_hash_lookup`: the index of the key, negative where it is absent. -/
  lookup : Table → DpFlowKey → Int

/-- **A hash table that gives out indices in the order keys come**, up to a
number of entries; a table of fewer than `RTE_HASH_BUCKET_ENTRIES` is not
created. -/
def RteHash.inOrder : RteHash where
  Table := ℕ × List DpFlowKey
  create entries := if entries < 8 then none else some (entries.toNat, [])
  addKey
    | (entries, keys), key =>
      if key ∈ keys then (keys.idxOf key, (entries, keys))
      else if keys.length < entries then (keys.length, (entries, keys ++ [key]))
      else (-28, (entries, keys))
  lookup
    | (_, keys), key => if key ∈ keys then keys.idxOf key else -2

variable (H : RteHash)

/-- **The classifier** (`struct dp_classifier`). -/
structure DpClassifier where
  hash : H.Table
  /-- The array of actions; the indices that are used are below `maxRules`. -/
  actions : ℕ → DpFlowAction
  maxRules : UInt32

variable {H}

/-- `dp_classify_init`; `zmalloc` says whether the array of actions can be
allocated. The array is zeroed. -/
def dpClassifyInit (zmalloc : Bool) (maxRules : UInt32) : Option (DpClassifier H) := do
  let hash ← H.create maxRules
  if zmalloc then some { hash := hash, actions := fun _ => ⟨0, 0, 0⟩, maxRules := maxRules }
  else none

/-- **`dp_classify_add`**. A key that finds no room may stay in the hash
table. -/
def dpClassifyAdd (classifier : DpClassifier H) (key : DpFlowKey) (action : DpFlowAction) :
    Int × DpClassifier H :=
  let (idx, hash) := H.addKey classifier.hash key
  if idx < 0 ∨ (classifier.maxRules.toNat : Int) ≤ idx then
    (-1, { classifier with hash := hash })
  else
    (0, { classifier with
      hash := hash
      actions := Function.update classifier.actions idx.toNat action })

/-- **`dp_classify_lookup`**: the action of a flow, and none where it has no
rule. -/
def dpClassifyLookup (classifier : DpClassifier H) (key : DpFlowKey) : Option DpFlowAction :=
  let idx := H.lookup classifier.hash key
  if idx < 0 ∨ (classifier.maxRules.toNat : Int) ≤ idx then none
  else some (classifier.actions idx.toNat)

end TenantQos
