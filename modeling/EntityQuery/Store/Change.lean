import EntityQuery.Store.Result

/-! Changes of tables: new records, new values of the records under a key, and the removal of the
roots that a plan matches. -/

namespace EntityQuery

variable {ι : Type} [DecidableEq ι]

namespace Database

/-- A database with the table of one entity replaced. -/
def put (db : Database ι) (e : ι) (table : List Record) : Database ι :=
  { db with records := fun e' => if e' = e then table else db e' }

end Database

namespace Model

/-- The key column that numbers its records by itself. -/
def serial? (m : Model ι) : Option Column :=
  match m.primaryKey with
  | [field] => (m.column? field).filter fun c => c.type == .integer
  | _ => none

/-- Records under a numbering key are kept in the order of their numbers. -/
def arrange (m : Model ι) (table : List Record) : List Record :=
  match m.serial? with
  | none => table
  | some c => table.mergeSort fun r s => (cellNamed r c.name).compare (cellNamed s c.name) != .gt

/-- The next number of a numbering key, one more than the greatest that there is. -/
def nextSerial (table : List Record) (c : Column) : Int :=
  let numbers := table.filterMap fun r => match cellNamed r c.name with
    | .int n => some n
    | _ => none
  match numbers with
  | [] => 1
  | n :: rest => rest.foldl max n + 1

/-- The values of a new record: those given, with the defaults of the columns in place of nulls. -/
def newValues (m : Model ι) (table : List Record) (given : Row) : Row :=
  m.columns.map fun c =>
    match Value.member given c.field with
    | .null =>
      if m.serial?.any (·.field == c.field) then (c.field, .int (nextSerial table c))
      else (c.field, c.default.toValue c.type)
    | v => (c.field, v)

def recordOf (m : Model ι) (values : Row) : Record :=
  m.columns.map fun c => (c.name, (Cell.ofValue (Value.member values c.field)).store c.type)

/-- Whether a record has given values in its key. -/
def hasKey (m : Model ι) (key : Row) (r : Record) : Bool :=
  key.all fun (field, value) =>
    match m.column? field with
    | some c => Relop.eq.eval c.type (cellNamed r c.name) value == .true
    | none => false

/-- A record with new values for some of its fields. -/
def withValues (m : Model ι) (values : Row) (r : Record) : Record :=
  values.foldl
    (fun r (field, value) => match m.column? field with
      | some c => Assoc.set r c.name ((Cell.ofValue value).store c.type)
      | none => r)
    r

end Model

namespace Mapping

variable (m : Mapping ι)

/-- Adds a record and returns the values of its key. -/
def insert (db : Database ι) (e : ι) (given : Row) : Row × Database ι :=
  let model := m.model e
  let values := model.newValues (db e) given
  let key := model.primaryKey.map fun field => (field, Value.member values field)
  (key, db.put e (model.arrange (db e ++ [model.recordOf values])))

/-- Changes the records under a key and returns their number. -/
def update (db : Database ι) (e : ι) (key values : Row) : Nat × Database ι :=
  let model := m.model e
  let changed := (db e).map fun r => if model.hasKey key r then model.withValues values r else r
  ((db e).countP (model.hasKey key), db.put e (model.arrange changed))

end Mapping

namespace QueryPlan

/-- Removes the roots that match, whatever the page, and returns their number. -/
def delete (m : Mapping ι) (db : Database ι) (p : QueryPlan ι) : Nat × Database ι :=
  let keys := p.matchedKeys m db
  let gone := fun (r : Record) => keys.contains ((p.rootModel m).key r)
  ((db p.entity).countP gone, db.put p.entity ((db p.entity).filter fun r => !gone r))

end QueryPlan

end EntityQuery
