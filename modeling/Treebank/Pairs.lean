/-!
# Keyed lists

A list of pairs in which every key stands once, in the order in which the keys came. Setting a key that is there replaces its value
and leaves its place; a new key goes to the end. Reading is `List.lookup`.
-/

namespace Treebank.Pairs

variable {α β : Type} [BEq α]

/-- Whether a key is there. -/
def has (pairs : List (α × β)) (key : α) : Bool := pairs.any (·.1 == key)

/-- Sets a key. -/
def put (pairs : List (α × β)) (key : α) (value : β) : List (α × β) :=
  if has pairs key then pairs.map fun (k, v) => if k == key then (k, value) else (k, v)
  else pairs ++ [(key, value)]

/-- Sets the keys of a second list, one after the other. -/
def putAll (pairs more : List (α × β)) : List (α × β) := more.foldl (fun ps (k, v) => put ps k v) pairs

/-- The keys. -/
def keys (pairs : List (α × β)) : List α := pairs.map (·.1)

end Treebank.Pairs
