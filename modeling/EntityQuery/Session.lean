import EntityQuery.Dialect
import EntityQuery.KeyPath
import EntityQuery.Page
import EntityQuery.Store.Assemble
import EntityQuery.Store.Change
import EntityQuery.Store.Draft

/-! Sessions: registered models with settings, an optional operator table and named repositories, and
perhaps an engine to run on. A query bound to a session is built up in steps and then run. -/

namespace EntityQuery

variable {ι : Type}

structure Session (ι : Type) where
  mapping : Mapping ι
  catalogue : Catalogue ι
  settings : Settings
  table : Option OperatorTable
  repositories : List (String × ι)
  /-- Whether there is an engine to run on. -/
  connected : Bool

/-- A query on one model of a session. -/
structure BoundQuery (ι : Type) where
  session : Session ι
  model : ι
  query : Query

namespace Session

variable [DecidableEq ι] (s : Session ι)

def isRegistered (e : ι) : Bool := (s.catalogue.byName.map (·.2)).contains e

def graph : EntityGraph ι := s.mapping.graph s.isRegistered

/-- Models are registered under the names of their entities. -/
def catalogueOf (m : Mapping ι) (models : List ι) : Catalogue ι :=
  models.foldl (fun c e => c.register (m.model e).name e) .empty

/-- The dialect of the settings, else the engine's, if there is one. -/
def dialectName : Option String :=
  s.settings.dialect <|> (if s.connected then some "sqlite" else none)

def operators : OperatorTable := s.table.getD (OperatorTable.ofDialect s.dialectName)

/-- A fresh query on a registered model. -/
def queryOn (e : ι) : Except QueryError (BoundQuery ι) := do
  let e ← s.catalogue.get (s.mapping.model e).name
  return ⟨s, e, .empty⟩

def addRepository (name : String) (e : ι) : Except QueryError (Session ι) := do
  let e ← s.catalogue.get (s.mapping.model e).name
  return { s with repositories := Assoc.set s.repositories name e }

def addRepositories : Session ι → List (String × ι) → Except QueryError (Session ι)
  | s, [] => pure s
  | s, (name, e) :: rest => do addRepositories (← s.addRepository name e) rest

def repositoryNames : List String := Assoc.keys s.repositories

/-- A fresh query on the model of a repository. -/
def repository (name : String) : Except QueryError (BoundQuery ι) :=
  match Assoc.get? s.repositories name with
  | some e => s.queryOn e
  | none => throw (.repositoryNotRegistered name)

/-- A repository as a member of the session; names that start with an underscore are kept out of it. -/
def member (name : String) : Except QueryError (BoundQuery ι) :=
  if name.startsWith "_" then throw (.hiddenMember name)
  else match s.repository name with
    | .error (.repositoryNotRegistered name) => throw (.missingMember "DbContext" name)
    | result => result

/-- A call of the engine, which fails where there is none. -/
def requireEngine (call : String) : Except QueryError Unit :=
  if s.connected then pure () else throw (.missingMember Value.null.kindName call)

end Session

namespace BoundQuery

variable [DecidableEq ι] (b : BoundQuery ι)

def entity : Entity ι := b.session.graph.entity b.model

/-! ### Building -/

def modify (f : Query → Query) : BoundQuery ι := { b with query := f b.query }

/-- Narrows the query by a predicate object. -/
def filtered (data : Value) : Except QueryError (BoundQuery ι) := do
  let p ← b.session.graph.readPredicate b.model data
  return b.modify (·.addPredicate p)

def including (data : Value) : Except QueryError (BoundQuery ι) := do
  let inclusions ← b.session.graph.readInclusion b.model data
  return b.modify (·.addInclusions inclusions)

def selecting (data : Value) : Except QueryError (BoundQuery ι) := do
  let selections ← b.session.graph.readSelection b.model data
  return b.modify (·.addSelections selections)

def orderBy (key : String) (d : Direction) : BoundQuery ι := b.modify (·.orderBy key d)

def thenBy (key : String) (d : Direction) : BoundQuery ι := b.modify (·.thenBy key d)

def distinct : BoundQuery ι := b.modify (·.setDistinct true)

/-- A count is an integer that is not negative; truth values are none. -/
def readCount (caller : String) : Value → Except QueryError Int
  | .int n => if n < 0 then throw (.validation (.negativeCount caller (.int n)) none) else pure n
  | v => throw (.validation (.negativeCount caller v) none)

def skip (count : Value) : Except QueryError (BoundQuery ι) := do
  let n ← readCount "skip" count
  return b.modify (·.paginate none (some n))

def take (count : Value) : Except QueryError (BoundQuery ι) := do
  let n ← readCount "take" count
  return b.modify (·.paginate (some n) none)

/-- Takes at most `n`, and no more than is asked for already. -/
def limited (n : Int) : BoundQuery ι :=
  b.modify (·.paginate (some (match b.query.limit with
    | some limit => min n limit
    | none => n)) none)

/-! ### Planning -/

def rootAlias : String := Text.lower b.entity.name

/-- The plan of the query, with its limit clamped by the settings. -/
def plan : Except QueryError (QueryPlan ι) := do
  let limit := b.session.settings.clamp b.query.limit
  let q := if limit = b.query.limit then b.query else b.query.paginate limit none
  let quote ← match b.session.dialectName with
    | some name => do pure (← Dialect.ofName name).quote
    | none => pure id
  q.plan b.session.graph b.model (some b.rootAlias) b.session.operators quote
    b.session.settings.stableOrdering

variable (db : Database ι)

/-- The plan of a query whose statement can be run. -/
def ready (statement : QueryPlan ι → Statement ι) : Except QueryError (QueryPlan ι) := do
  let p ← b.plan
  b.session.requireEngine "execute"
  db.accept b.session.mapping (statement p)
  return p

/-! ### Reading -/

def toList : Except QueryError (List Row) := do
  (← b.ready db .list).shapedRows b.session.mapping db

/-- The first row, if there is one. -/
def first? : Except QueryError (Option Row) := do
  return (← (b.limited 1).toList db).head?

def first : Except QueryError Row := do
  match ← b.first? db with
  | some row => pure row
  | none => throw (.noEntity b.entity.name)

/-- The only row, if there is one; several are refused. -/
def single? : Except QueryError (Option Row) := do
  match ← (b.limited 2).toList db with
  | [] => pure none
  | [row] => pure (some row)
  | _ => throw (.severalEntities b.entity.name)

def single : Except QueryError Row := do
  match ← b.single? db with
  | some row => pure row
  | none => throw (.noEntity b.entity.name)

def any : Except QueryError Bool := do
  return (← b.ready db (.any ·.whole)).any b.session.mapping db

/-- The number of roots that match; pages do not count. -/
def count : Except QueryError Nat := do
  return (← b.ready db (.count ·.whole)).count b.session.mapping db

/-- The number of roots that match and the rows of the page. -/
def withCount : Except QueryError (Nat × List Row) := do
  let total ← b.count db
  return (total, ← b.toList db)

/-- One page of `size` rows, the first one having number one. -/
def toPage (number size : Int) : Except QueryError Page := do
  if number < 1 ∨ size < 1 then throw (.validation (.pageNumbers number size) none)
  let total ← b.count db
  let page ← (← b.skip (.int ((number - 1) * size))).take (.int size)
  let items ← page.toList db
  return ⟨items.map .obj, total, number, size⟩

/-! ### Keys -/

/-- The values of the primary key: a list for a key of several columns, else the value itself. -/
def keyValues (id : Value) : Except QueryError Row :=
  let fields := b.entity.primaryKey
  let values := match fields, id with
    | _ :: _ :: _, .list items => items
    | _, id => [id]
  if values.length = fields.length then pure (fields.zip values)
  else throw (.validation (.keyWidth b.entity.name fields.length values.length) none)

def byKey (id : Value) : Except QueryError (BoundQuery ι) := do
  let key ← b.keyValues id
  b.filtered (.obj (key.map fun (field, value) => (field, .obj [(Operator.eq.token, value)])))

def find (id : Value) : Except QueryError Row := do (← b.byKey id).first db

def find? (id : Value) : Except QueryError (Option Row) := do (← b.byKey id).first? db

def byPath (path : String) (value : Value) : Except QueryError (BoundQuery ι) :=
  b.filtered (KeyPath.predicate path value)

def findBy (path : String) (value : Value) : Except QueryError Row := do
  (← b.byPath path value).first db

def findBy? (path : String) (value : Value) : Except QueryError (Option Row) := do
  (← b.byPath path value).first? db

/-! ### Changing -/

/-- Refuses names that the model does not have. -/
def checkNames (given : Row) : Except QueryError Unit :=
  (b.session.mapping.model b.model).checkDraft (Assoc.keys given)

def create (given : Row) : Except QueryError (Row × Database ι) := do
  b.checkNames given
  b.session.requireEngine "add"
  db.run b.session.mapping (.insert b.model given) (b.session.mapping.insert db b.model given)

/-- Adds several records, or none where one of them is refused. -/
def createMany (items : List Row) : Except QueryError (List Row × Database ι) := do
  items.forM b.checkNames
  b.session.requireEngine "add_all"
  items.foldlM
    (fun (keys, db) given => do
      let (key, db) ← db.run b.session.mapping (.insert b.model given)
        (b.session.mapping.insert db b.model given)
      return (keys ++ [key], db))
    ([], db)

/-- Sets fields of the record under a key and returns the number of records. -/
def update (id : Value) (values : Row) : Except QueryError (Nat × Database ι) := do
  if values.isEmpty then throw (.validation .nothingToUpdate none)
  match (Assoc.keys values).find? fun name => !b.entity.hasColumn name with
  | some name => throw (.noField name b.entity.name b.entity.columnFields none)
  | none =>
    let key ← b.keyValues id
    b.session.requireEngine "execute"
    db.run b.session.mapping (.update b.model key values)
      (b.session.mapping.update db b.model key values)

def deleteAll : Except QueryError (Nat × Database ι) := do
  return (← b.ready db (.delete ·.whole)).delete b.session.mapping db

def delete (id : Value) : Except QueryError (Nat × Database ι) := do
  (← b.byKey id).deleteAll db

def deleteBy (path : String) (value : Value) : Except QueryError (Nat × Database ι) := do
  (← b.byPath path value).deleteAll db

/-- A query as text: its entity and the object that describes it. -/
def describe : String :=
  "Queryable(" ++ b.entity.name ++ ", " ++ b.query.toValue.literal ++ ")"

end BoundQuery

end EntityQuery
