import EntityQuery.Inclusion

/-! The layout of a result: which relations are shown below the root entity, and at each level which
columns under which keys. A level without columns of its own shows every column. -/

namespace EntityQuery

/-- A level of a layout below the root. -/
structure Branch where
  name : String
  path : String
  parentPath : String
  aliasName : String
  outputKey : String
  columns : List (String × String)
  children : List Branch

structure Layout where
  rootColumns : List (String × String)
  branches : List Branch

namespace Branch

def find? (branches : List Branch) (name : String) : Option Branch := branches.find? (·.name = name)

/-- The branch at the end of a chain of names. -/
def at? : List Branch → List String → Option Branch
  | _, [] => none
  | branches, [name] => find? branches name
  | branches, name :: rest => (find? branches name).bind fun b => at? b.children rest

/-- Changes the branch of a name. -/
def modify (name : String) (f : Branch → Branch) : List Branch → List Branch
  | [] => []
  | b :: rest => if b.name = name then f b :: rest else b :: modify name f rest

/-- Changes the branch at the end of a chain of names. -/
def modifyAt (f : Branch → Branch) : List String → List Branch → List Branch
  | [], branches => branches
  | [name], branches => modify name f branches
  | name :: rest, branches =>
    modify name (fun b => { b with children := modifyAt f rest b.children }) branches

/-- Adds a branch, or renames the output of the one that has its name already. -/
def place (branches : List Branch) (b : Branch) (rename : Option String) : List Branch :=
  match find? branches b.name with
  | none => branches ++ [b]
  | some _ =>
    match rename with
    | some key => modify b.name (fun old => { old with outputKey := key }) branches
    | none => branches

mutual

/-- A branch and all below it, each before its children. -/
def walk : Branch → List Branch
  | b@⟨_, _, _, _, _, _, children⟩ => b :: walkAll children

def walkAll : List Branch → List Branch
  | [] => []
  | b :: rest => walk b ++ walkAll rest

end

def columnsValue (columns : List (String × String)) : Value :=
  .obj (columns.map fun (field, key) => (field, .str key))

mutual

def toValue : Branch → Value
  | ⟨_, path, _, aliasName, outputKey, columns, children⟩ => .obj
    [("path", .str path), ("alias", .str aliasName), ("output_key", .str outputKey),
      ("columns", columnsValue columns), ("children", .obj (members children))]

def members : List Branch → List (String × Value)
  | [] => []
  | b :: rest => (b.name, toValue b) :: members rest

end

end Branch

namespace Layout

def empty : Layout := ⟨[], []⟩

/-- The branch at a dotted path. -/
def branch? (l : Layout) (path : String) : Option Branch :=
  Branch.at? l.branches (Path.segments path)

def modifyBranch (l : Layout) (path : String) (f : Branch → Branch) : Layout :=
  { l with branches := Branch.modifyAt f (Path.segments path) l.branches }

def walk (l : Layout) : List Branch := Branch.walkAll l.branches

def toValue (l : Layout) : Value :=
  .obj [("root_columns", Branch.columnsValue l.rootColumns),
    ("relations", .obj (Branch.members l.branches))]

end Layout

end EntityQuery
