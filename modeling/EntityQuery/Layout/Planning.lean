import EntityQuery.Context

/-! Planning of layouts. An inclusion joins its relation for loading and adds a branch; a selection
sets columns of branches that are there and joins nothing. -/

namespace EntityQuery

variable {ι : Type}

namespace Layout

/-- The path whose branches take the inclusions below it; none stands for the root. -/
def holder (l : Layout) (path : String) : Option String :=
  if !path.isEmpty && (l.branch? path).isSome then some path else none

def placeAt (l : Layout) (holder : Option String) (b : Branch) (rename : Option String) : Layout :=
  match holder with
  | none => { l with branches := Branch.place l.branches b rename }
  | some path => l.modifyBranch path fun p => { p with children := Branch.place p.children b rename }

end Layout

namespace Inclusion

mutual

/-- Joins one inclusion below the entity at `path`, which stands under `aliasName`. -/
def plan (g : EntityGraph ι) (aliasName : Option String) (path : String) (holder : Option String) :
    Inclusion → Step (Context ι) Unit
  | mk relation wish children => do
    let here := Path.child path relation
    let bound ← Context.inTree
      (JoinTree.reach g { path := here, start := aliasName, select := true, aliasName := wish })
    let rename := nonEmpty? wish
    let branch := Branch.mk relation here path bound (rename.getD relation) [] []
    modify fun c => { c with layout := c.layout.placeAt holder branch rename }
    if !children.isEmpty then
      planAll g (some bound) here ((← get).layout.holder here) children

def planAll (g : EntityGraph ι) (aliasName : Option String) (path : String) (holder : Option String) :
    List Inclusion → Step (Context ι) Unit
  | [] => pure ()
  | i :: rest => do
    plan g aliasName path holder i
    planAll g aliasName path holder rest

end

/-- Joins inclusions of the root entity. -/
def planRoot (g : EntityGraph ι) (inclusions : List Inclusion) : Step (Context ι) Unit :=
  planAll g none "" none inclusions

end Inclusion

namespace Selection

/-- Sets the output key of a column at the branch of a path, or at the root. -/
def setColumn (path field key : String) : Step (Context ι) Unit := do
  let layout := (← get).layout
  if path.isEmpty then
    modify fun c =>
      { c with layout := { layout with rootColumns := Assoc.set layout.rootColumns field key } }
  else if (layout.branch? path).isNone then throw (.relationNotIncluded path)
  else
    modify fun c => { c with
      layout := layout.modifyBranch path fun b =>
        { b with columns := Assoc.set b.columns field key } }

mutual

def plan (path : String) : Selection → Step (Context ι) Unit
  | column field name => setColumn path field (outputKey field name)
  | relation name children => do
    let here := Path.child path name
    if ((← get).layout.branch? here).isNone then throw (.relationNotIncluded here)
    planAll here children

/-- Records selections below the entity at `path`; a later one of the same column wins. -/
def planAll (path : String) : List Selection → Step (Context ι) Unit
  | [] => pure ()
  | s :: rest => do
    plan path s
    planAll path rest

end

end Selection

end EntityQuery
