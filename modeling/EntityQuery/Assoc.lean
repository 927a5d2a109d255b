/-! Maps that keep the order in which their keys were first set, as lists of pairs. -/

namespace EntityQuery.Assoc

variable {α β : Type} [DecidableEq α]

/-- The value of a key. -/
def get? (m : List (α × β)) (k : α) : Option β := (m.find? (·.1 = k)).map (·.2)

def contains (m : List (α × β)) (k : α) : Bool := m.any (·.1 = k)

/-- Sets a key: a key that is there keeps its place, a new one goes to the end. -/
def set : List (α × β) → α → β → List (α × β)
  | [], k, v => [(k, v)]
  | (k', v') :: rest, k, v => if k' = k then (k, v) :: rest else (k', v') :: set rest k v

/-- Sets every pair of the second list in turn. -/
def merge (m m' : List (α × β)) : List (α × β) := m'.foldl (fun m (k, v) => set m k v) m

/-- The map of a list of pairs, in which later pairs win. -/
def ofPairs (pairs : List (α × β)) : List (α × β) := merge [] pairs

def keys (m : List (α × β)) : List α := m.map (·.1)

end EntityQuery.Assoc
