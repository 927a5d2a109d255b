import EntityQuery.Layout
import EntityQuery.Store.Model

/-! Drafts: records that are not stored yet, with only some fields and relations given. Of a draft
only what is given is shown, and of its relations only those of a layout. -/

namespace EntityQuery

variable {ι : Type}

namespace Model

/-- The first name that a draft gives and its model does not have. -/
def checkDraft (m : Model ι) (names : List String) : Except QueryError Unit :=
  match names.find? fun name => (m.column? name).isNone && (m.link? name).isNone with
  | some name => throw (.unknownAttribute name m.name)
  | none => pure ()

end Model

namespace Mapping

variable (m : Mapping ι)

mutual

/-- Checks the names of a draft after those of the drafts inside it. -/
def checkDraft (e : ι) : Value → Except QueryError Unit
  | .obj members => do
    checkMembers e members
    (m.model e).checkDraft (Assoc.keys members)
  | _ => pure ()

def checkMembers (e : ι) : List (String × Value) → Except QueryError Unit
  | [] => pure ()
  | (name, value) :: rest => do
    match (m.model e).link? name with
    | some link =>
      match value with
      | .list items => checkItems link.target items
      | value => checkDraft link.target value
    | none => pure ()
    checkMembers e rest

def checkItems (e : ι) : List Value → Except QueryError Unit
  | [] => pure ()
  | v :: rest => do
    checkDraft e v
    checkItems e rest

end

/-- The fields that a draft gives, in column order. -/
def draftColumns (e : ι) (given : Row) : Row :=
  (m.model e).columns.filterMap fun c => (Assoc.get? given c.field).map fun v => (c.field, v)

mutual

/-- The relations that a draft gives, of those of the branches. -/
def draftRelations (e : ι) (given : Row) : List Branch → Row
  | [] => []
  | b :: rest => draftRelation e given b ++ draftRelations e given rest

def draftRelation (e : ι) (given : Row) : Branch → Row
  | ⟨name, _, _, _, _, _, children⟩ =>
    match (m.model e).link? name, Assoc.get? given name with
    | some link, some value =>
      let draft := fun (item : Value) => match item with
        | .obj row =>
          Value.obj (m.draftColumns link.target row ++ draftRelations link.target row children)
        | item => item
      match value with
      | .list items => [(name, .list (items.map draft))]
      | value => [(name, draft value)]
    | _, _ => []

end

/-- A draft as a row, with the relations of a layout. -/
def draft (e : ι) (layout : Layout) (given : Row) : Row :=
  m.draftColumns e given ++ m.draftRelations e given layout.branches

end Mapping

end EntityQuery
