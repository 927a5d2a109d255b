import EntityQuery.Selection

/-! Inclusions: the relations to be joined into a result, each with an optional alias and with
inclusions of its own. -/

namespace EntityQuery

variable {ι : Type}

inductive Inclusion where
  | mk (relation : String) (aliasName : Option String) (children : List Inclusion)

namespace Inclusion

def relation : Inclusion → String
  | mk relation _ _ => relation

def aliasName : Inclusion → Option String
  | mk _ aliasName _ => aliasName

def children : Inclusion → List Inclusion
  | mk _ _ children => children

mutual

def members : Inclusion → List (String × Value)
  | mk relation none [] => [(relation, .bool true)]
  | mk relation none children => [(relation, .obj [("include", .obj (mergedMembers [] children))])]
  | mk relation (some aliasName) [] => [(relation, .obj [("as", .str aliasName)])]
  | mk relation (some aliasName) children =>
    [(relation, .obj [("as", .str aliasName), ("include", .obj (mergedMembers [] children))])]

def mergedMembers (merged : List (String × Value)) : List Inclusion → List (String × Value)
  | [] => merged
  | i :: rest => mergedMembers (Assoc.merge merged i.members) rest

end

def toValue (i : Inclusion) : Value := .obj i.members

/-- The keys of an inclusion object. -/
def knownKeys : List String := ["as", "include"]

/-- An alias is missing, null, or a text that is not empty. -/
def readAlias (path : String) : Value → Except QueryError (Option String)
  | .null => pure none
  | .str aliasName =>
    if aliasName.isEmpty then throw (.validation .outputName (some path)) else pure (some aliasName)
  | _ => throw (.validation .outputName (some path))

mutual

def readMembers (g : EntityGraph ι) (e : ι) (path : String) :
    List (String × Value) → Except QueryError (List Inclusion)
  | [] => pure []
  | (key, value) :: rest => do
    let here := Path.child path key
    if value.isOff then readMembers g e path rest
    else
      let first ←
        match (g.entity e).relation? key with
        | none => throw ((g.entity e).noRelation key here)
        | some r =>
          match value with
          | .bool true => pure (mk key none [])
          | .obj members => do
            let unknown := (Assoc.keys members).filter fun k => !knownKeys.contains k
            if !unknown.isEmpty then throw (.validation (.inclusionKeys unknown) (some here))
            let aliasName ← readAlias here (Value.member members "as")
            pure (mk key aliasName (← readNested g r.target here members))
          | _ => throw (.validation (.relationInclusion key) (some here))
      return first :: (← readMembers g e path rest)
termination_by members => sizeOf members
decreasing_by all_goals first | exact Value.sizeOf_rest_lt _ _ | exact Value.sizeOf_members_lt _ _ _

/-- The inclusions under the key for them, if it holds anything. -/
def readNested (g : EntityGraph ι) (e : ι) (path : String) :
    List (String × Value) → Except QueryError (List Inclusion)
  | [] => pure []
  | (key, value) :: rest =>
    if key = "include" then
      match value with
      | .obj members => readMembers g e path members
      | value =>
        if value.isPresent then throw (.validation (.notInclusion value.kindName) (placeOf path))
        else pure []
    else readNested g e path rest
termination_by members => sizeOf members
decreasing_by all_goals first | exact Value.sizeOf_rest_lt _ _ | exact Value.sizeOf_members_lt _ _ _

end

end Inclusion

namespace EntityGraph

/-- Reads an inclusion on an entity of the graph. -/
def readInclusion (g : EntityGraph ι) (e : ι) : Value → Except QueryError (List Inclusion)
  | .obj members => Inclusion.readMembers g e "" members
  | value => throw (.validation (.notInclusion value.kindName) (placeOf ""))

end EntityGraph

end EntityQuery
