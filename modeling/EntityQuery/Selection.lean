import EntityQuery.Predicate.Reading

/-! Selections: the columns that a result shows, of the root entity and of its included relations,
each under its own name or another. -/

namespace EntityQuery

variable {ι : Type}

inductive Selection where
  | column (field : String) (outputName : Option String)
  | relation (relation : String) (children : List Selection)

/-- A member of an object that is false or null is as good as missing. -/
def Value.isOff : Value → Bool
  | .bool false => true
  | .null => true
  | _ => false

namespace Selection

/-- The key under which a column is shown; an empty name gives way to the field. -/
def outputKey (field : String) : Option String → String
  | some name => if name.isEmpty then field else name
  | none => field

mutual

def members : Selection → List (String × Value)
  | .column field none => [(field, .bool true)]
  | .column field (some name) => [(field, .obj [("as", .str name)])]
  | .relation name [] => [(name, .bool true)]
  | .relation name children => [(name, .obj (mergedMembers [] children))]

def mergedMembers (merged : List (String × Value)) : List Selection → List (String × Value)
  | [] => merged
  | s :: rest => mergedMembers (Assoc.merge merged s.members) rest

end

def toValue (s : Selection) : Value := .obj s.members

/-- A column is selected as it is, or renamed to a text that is not empty. -/
def readColumn (field path : String) : Value → Except QueryError Selection
  | .bool true => pure (.column field none)
  | .obj [("as", .str name)] =>
    if name.isEmpty then throw (.validation .outputName (some path))
    else pure (.column field (some name))
  | .obj [("as", _)] => throw (.validation .outputName (some path))
  | _ => throw (.validation (.columnSelection field) (some path))

def readMembers (g : EntityGraph ι) (e : ι) (path : String) :
    List (String × Value) → Except QueryError (List Selection)
  | [] => pure []
  | (key, value) :: rest => do
    let here := Path.child path key
    if value.isOff then readMembers g e path rest
    else
      let first ←
        match (g.entity e).relation? key with
        | some r =>
          match value with
          | .bool true => pure (Selection.relation key [])
          | .obj members => pure (Selection.relation key (← readMembers g r.target here members))
          | _ => throw (.validation (.relationSelection key) (some here))
        | none =>
          if (g.entity e).hasColumn key then readColumn key here value
          else throw (.noField key (g.entity e).name (g.entity e).fieldNames (some here))
      return first :: (← readMembers g e path rest)
termination_by members => sizeOf members
decreasing_by all_goals first | exact Value.sizeOf_rest_lt _ _ | exact Value.sizeOf_members_lt _ _ _

end Selection

namespace EntityGraph

/-- Reads a selection on an entity of the graph. -/
def readSelection (g : EntityGraph ι) (e : ι) : Value → Except QueryError (List Selection)
  | .obj members => Selection.readMembers g e "" members
  | value => throw (.validation (.notSelection value.kindName) (placeOf ""))

end EntityGraph

end EntityQuery
