import EntityQuery.Join
import EntityQuery.Join.Alias
import EntityQuery.Step

/-! The joins reached from a root entity. Every user of a relation path goes through the one tree,
so that a path is joined at most once and always under the same alias. -/

namespace EntityQuery

variable {ι : Type}

structure JoinTree (ι : Type) where
  root : ι
  aliases : Aliases
  joins : Joins ι
  /-- The entities at the paths joined so far, the root at the empty path. -/
  reached : List (String × ι)

/-- A wish for a relation path to be joined. -/
structure JoinRequest where
  path : String
  /-- The alias to walk from when no part of the path is joined yet. -/
  start : Option String := none
  /-- Load the entities along the path into the result. -/
  select : Bool := false
  /-- The alias for the end of the path, if it is new. -/
  aliasName : Option String := none

/-- A text that is there and not empty. -/
def nonEmpty? : Option String → Option String
  | some s => if s.isEmpty then none else some s
  | none => none

namespace JoinTree

def start (root : ι) (aliasName : String) : JoinTree ι where
  root
  aliases := .start aliasName
  joins := []
  reached := [("", root)]

/-- How many segments from the front make up the longest path that has an alias. -/
def joinedLength (t : JoinTree ι) (segments : List String) : Nat → Nat
  | 0 => 0
  | n + 1 =>
    if t.aliases.contains (Path.ofSegments (segments.take (n + 1))) then n + 1
    else joinedLength t segments n

def register (aliasName path : String) : Step (JoinTree ι) String :=
  .ofRun fun t =>
    match t.aliases.register aliasName path with
    | .ok (bound, aliases) => (.ok bound, { t with aliases })
    | .error e => (.error e, t)

def addJoin (j : Join ι) : Step (JoinTree ι) (Join ι) :=
  .ofRun fun t =>
    let (kept, joins) := t.joins.add j
    (.ok kept, { t with joins })

/-- Joins the segments that follow `before`, each from the entity and alias of the one before. -/
def extend (g : EntityGraph ι) (request : JoinRequest) :
    List String → ι → String → List String → Step (JoinTree ι) Unit
  | _, _, _, [] => pure ()
  | before, e, parent, s :: rest => do
    match (g.entity e).relation? s with
    | none => throw ((g.entity e).noRelation s request.path)
    | some relation =>
      let path := Path.ofSegments (before ++ [s])
      let wish := if rest.isEmpty then nonEmpty? request.aliasName else none
      let aliasName ← register (wish.getD ((← get).aliases.synthesize path)) path
      let _ ← addJoin { parent, relation, aliasName, path, selected := request.select }
      modify fun t => { t with reached := Assoc.set t.reached path relation.target }
      extend g request (before ++ [s]) relation.target aliasName rest

/-- Marks every join along a path as selected. -/
def selectAlong (t : JoinTree ι) (segments : List String) : JoinTree ι :=
  (List.range segments.length).foldl
    (fun t n =>
      match t.aliases.get? (Path.ofSegments (segments.take (n + 1))) with
      | none => t
      | some aliasName =>
        match t.joins.get? aliasName with
        | none => t
        | some join => { t with joins := (t.joins.add { join with selected := true }).2 })
    t

/-- Joins what is missing of a path and returns its alias. -/
def reach (g : EntityGraph ι) (request : JoinRequest) : Step (JoinTree ι) String := do
  let segments := Path.segments request.path
  let t ← get
  let joined := t.joinedLength segments segments.length
  let lead := Path.ofSegments (segments.take joined)
  match Assoc.get? t.reached lead with
  | none => throw (.unboundPath lead)
  | some e =>
    let parent ←
      if lead.isEmpty then pure ((nonEmpty? request.start).getD t.aliases.root)
      else Step.ofExcept (t.aliases.aliasFor lead)
    extend g request (segments.take joined) e parent (segments.drop joined)
    if request.select then modify (·.selectAlong segments)
    match (← get).aliases.get? request.path with
    | some aliasName => return aliasName
    | none => throw (.unboundPath request.path)

/-- The entity at a path, without joining it. -/
def entityAt (g : EntityGraph ι) (t : JoinTree ι) (path : String) : Except QueryError ι :=
  match Assoc.get? t.reached path with
  | some e => pure e
  | none => g.walk path t.root (Path.segments path)

end JoinTree

end EntityQuery
