import EntityQuery.Entity
import EntityQuery.Text.Path

/-! Left joins of related entities, in the order in which they are made. -/

namespace EntityQuery

variable {ι : Type}

/-- One left join: the relation of the entity under alias `parent`, joined under `aliasName`. A selected
join loads its entity into the result, any other serves a filter or an ordering. -/
structure Join (ι : Type) where
  parent : String
  relation : Relation ι
  aliasName : String
  path : String
  selected : Bool

def Join.parentPath (j : Join ι) : String := Path.parent j.path

/-- Joins with distinct aliases, in the order in which they were made. -/
abbrev Joins (ι : Type) := List (Join ι)

namespace Joins

def get? (joins : Joins ι) (aliasName : String) : Option (Join ι) := joins.find? (·.aliasName = aliasName)

/-- Adds a join unless its alias is joined already; a selected join then marks the earlier one as
selected. The join in force is returned. -/
def add : Joins ι → Join ι → Join ι × Joins ι
  | [], j => (j, [j])
  | k :: rest, j =>
    if k.aliasName = j.aliasName then
      let kept := { k with selected := k.selected || j.selected }
      (kept, kept :: rest)
    else
      let (kept, rest') := add rest j
      (kept, k :: rest')

end Joins

end EntityQuery
