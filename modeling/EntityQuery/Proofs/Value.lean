import EntityQuery.Operator
import EntityQuery.Value

/-! Properties of the keys of objects, at every depth of a value. -/

namespace EntityQuery.Value

mutual

/-- Of the keys of every object in a value, the value itself among them, a property holds. -/
def EachObject (P : List String → Prop) : Value → Prop
  | .list items => EachOfItems P items
  | .obj members => P (Assoc.keys members) ∧ EachOfMembers P members
  | _ => True

def EachOfItems (P : List String → Prop) : List Value → Prop
  | [] => True
  | item :: rest => EachObject P item ∧ EachOfItems P rest

def EachOfMembers (P : List String → Prop) : List (String × Value) → Prop
  | [] => True
  | (_, value) :: rest => EachObject P value ∧ EachOfMembers P rest

end

variable {P : List String → Prop}

theorem eachOfItems_iff {items : List Value} : EachOfItems P items ↔ ∀ item ∈ items, item.EachObject P := by
  induction items with
  | nil => simp [EachOfItems]
  | cons item rest ih => rw [EachOfItems, ih, List.forall_mem_cons]

theorem eachOfMembers_iff {members : List (String × Value)} :
    EachOfMembers P members ↔ ∀ m ∈ members, m.2.EachObject P := by
  induction members with
  | nil => simp [EachOfMembers]
  | cons m rest ih =>
    obtain ⟨key, value⟩ := m
    rw [EachOfMembers, ih, List.forall_mem_cons]

theorem eachObject_list {items : List Value} :
    (list items).EachObject P ↔ ∀ item ∈ items, item.EachObject P := by
  rw [EachObject, eachOfItems_iff]

theorem eachObject_obj {members : List (String × Value)} :
    (obj members).EachObject P ↔ P (Assoc.keys members) ∧ ∀ m ∈ members, m.2.EachObject P := by
  rw [EachObject, eachOfMembers_iff]

/-- No object holds a key twice. -/
def Keyed (value : Value) : Prop := value.EachObject List.Nodup

/-- No key is spelled with a `$` in front. -/
def Plain (value : Value) : Prop := value.EachObject fun keys => ∀ key ∈ keys, Token.normalize key = key

end EntityQuery.Value
