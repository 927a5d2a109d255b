import EntityQuery.Layout.Shape
import EntityQuery.Proofs.Layout.Levels
import EntityQuery.Proofs.Step

/-! What the levels of a layout show of a row. The columns of a level, then its branches that have a value
on the row, each put one datum under a key; the level shows the last datum of each key. -/

namespace EntityQuery

def Value.isNull : Value → Bool
  | .null => true
  | _ => false

namespace Branch

mutual

/-- A row as a result holds it for the branches of a level. -/
inductive Hydrated : List Branch → Row → Prop
  | mk {bs : List Branch} {row : Row} (hkeys : (Assoc.keys row).Nodup)
    (hrelates : ∀ b ∈ bs, Relates b (Value.member row b.name)) : Hydrated bs row

/-- What a result holds for a branch: nothing, a related row or several. -/
inductive Relates : Branch → Value → Prop
  | none {b : Branch} : Relates b .null
  | one {b : Branch} {row : Row} (hrow : Hydrated b.children row) : Relates b (.obj row)
  | several {b : Branch} {rows : List Row} (hrows : ∀ row ∈ rows, Hydrated b.children row) :
    Relates b (.list (rows.map .obj))

end

/-- The data that the columns of a level show of a row, without columns every member that no branch
takes. -/
def columnData (columns : List (String × String)) (branches : List Branch) (row : Row) : Row :=
  if columns.isEmpty then row.filter fun m => (find? branches m.1).isNone
  else columns.map fun (field, key) => (key, Value.member row field)

mutual

/-- What a branch shows of a value, if that is not null. -/
def shown? : Branch → Value → Option Value
  | ⟨_, _, _, _, _, columns, children⟩, value =>
    let one := fun (row : Row) =>
      Value.obj (Assoc.ofPairs (columnData columns children row ++ relatedData children row))
    match value with
    | .obj row => some (one row)
    | .list items => some (.list (items.map fun item => match item with
      | .obj row => one row
      | item => item))
    | _ => none

/-- The data that the branches of a level show of a row. -/
def relatedData : List Branch → Row → Row
  | [], _ => []
  | b :: rest, row =>
    ((shown? b (Value.member row b.name)).map fun value => (b.outputKey, value)).toList ++
      relatedData rest row

end

end Branch

namespace Level

/-- A row as a level shows it. -/
def shape (l : Level) (row : Row) : Except QueryError Row :=
  Branch.shapeRelations row (Branch.shapeColumns l.columns l.branches row) l.branches

/-- The data that a level shows of a row, in the order in which they are put out. -/
def data (l : Level) (row : Row) : Row :=
  Branch.columnData l.columns l.branches row ++ Branch.relatedData l.branches row

/-- The keys under which a level shows a row: one for each of its columns, or for each column of the row
if it has none, and one for each branch whose value is not null. -/
def outputKeys (l : Level) (row : Row) : List String :=
  (if l.columns.isEmpty then
    Assoc.keys (row.filter fun m => (Branch.find? l.branches m.1).isNone)
  else l.columns.map (·.2)) ++
    (l.branches.filter fun b => !(Value.member row b.name).isNull).map (·.outputKey)

end Level

theorem Layout.shape_eq (l : Layout) (row : Row) : l.shape row = l.level.shape row := rfl

namespace Branch

theorem shapeRelation_obj (b : Branch) (row : Row) :
    shapeRelation b (.obj row) = (do return some (.obj (← b.level.shape row))) := by
  cases b
  simp [shapeRelation, Level.shape, level]

theorem shapeRelation_list (b : Branch) (rows : List Row) :
    shapeRelation b (.list (rows.map .obj)) =
      (do return some (.list (← rows.mapM fun row => do return .obj (← b.level.shape row)))) := by
  cases b
  simp only [shapeRelation, Level.shape, level, List.mapM_map]
  rfl

theorem shown?_obj (b : Branch) (row : Row) :
    b.shown? (.obj row) = some (.obj (Assoc.ofPairs (b.level.data row))) := by
  cases b
  rfl

theorem shown?_list (b : Branch) (rows : List Row) :
    b.shown? (.list (rows.map .obj)) =
      some (.list (rows.map fun row => .obj (Assoc.ofPairs (b.level.data row)))) := by
  cases b
  rw [shown?]
  simp only [List.map_map]
  rfl

theorem shapeColumns_eq (columns : List (String × String)) (branches : List Branch) {row : Row}
    (hrow : (Assoc.keys row).Nodup) :
    shapeColumns columns branches row = Assoc.ofPairs (columnData columns branches row) := by
  unfold shapeColumns columnData
  split
  · refine (Assoc.ofPairs_of_nodup ?_).symm
    exact hrow.sublist (List.filter_sublist.map _)
  · rw [Assoc.ofPairs, Assoc.merge, List.foldl_map]

/-- The data of the branches come after those of the columns. -/
theorem shape_eq_of_relations (l : Level) {row : Row} (hkeys : (Assoc.keys row).Nodup)
    (h : ∀ out, shapeRelations row out l.branches =
      .ok (Assoc.merge out (relatedData l.branches row))) :
    l.shape row = .ok (Assoc.ofPairs (l.data row)) := by
  rw [Level.shape, h, shapeColumns_eq l.columns l.branches hkeys, Level.data]
  exact congrArg Except.ok (Assoc.merge_append [] _ _).symm

mutual

theorem shapeRelation_eq (b : Branch) {value : Value} (h : b.Relates value) :
    shapeRelation b value = .ok (b.shown? value) := by
  obtain ⟨name, path, parentPath, aliasName, outputKey, columns, children⟩ := b
  have hshape : ∀ {row}, Hydrated children row → (Level.mk columns children).shape row =
      .ok (Assoc.ofPairs ((Level.mk columns children).data row)) := fun ⟨hkeys, hrelates⟩ =>
    shape_eq_of_relations _ hkeys (shapeRelations_eq children hrelates)
  cases h with
  | none => rfl
  | one hrow =>
    rw [shapeRelation_obj, shown?_obj]
    exact congrArg (· >>= fun out => pure (some (Value.obj out))) (hshape hrow)
  | @several _ rows hrows =>
    have hone : ∀ row ∈ rows, (do return Value.obj (← (Level.mk columns children).shape row)) =
        .ok (.obj (Assoc.ofPairs ((Level.mk columns children).data row))) := fun row hrow =>
      congrArg (· >>= fun out => pure (Value.obj out)) (hshape (hrows row hrow))
    rw [shapeRelation_list, shown?_list]
    exact congrArg (· >>= fun items => pure (some (Value.list items))) (Except.mapM_eq_ok hone)

theorem shapeRelations_eq (bs : List Branch) {row : Row}
    (h : ∀ b ∈ bs, b.Relates (Value.member row b.name)) (out : Row) :
    shapeRelations row out bs = .ok (Assoc.merge out (relatedData bs row)) := by
  cases bs with
  | nil => rfl
  | cons b rest =>
    obtain ⟨hb, hrest⟩ := List.forall_mem_cons.1 h
    rw [shapeRelations, shapeRelation_eq b hb, relatedData, Assoc.merge_append]
    cases b.shown? (Value.member row b.name) with
    | none => exact shapeRelations_eq rest hrest out
    | some value => exact shapeRelations_eq rest hrest _

end

/-! ### Keys -/

theorem keys_columnData (columns : List (String × String)) (bs : List Branch) (row : Row) :
    Assoc.keys (columnData columns bs row) = if columns.isEmpty then
      Assoc.keys (row.filter fun m => (find? bs m.1).isNone) else columns.map (·.2) := by
  unfold columnData
  split
  · rfl
  · rw [Assoc.keys, List.map_map]
    rfl

theorem Relates.isSome_shown? {b : Branch} {value : Value} (h : b.Relates value) :
    (b.shown? value).isSome = !value.isNull := by
  cases h with
  | none => cases b; rfl
  | one => rw [shown?_obj]; rfl
  | several => rw [shown?_list]; rfl

theorem keys_relatedData {bs : List Branch} {row : Row}
    (h : ∀ b ∈ bs, b.Relates (Value.member row b.name)) :
    Assoc.keys (relatedData bs row) =
      (bs.filter fun b => !(Value.member row b.name).isNull).map (·.outputKey) := by
  induction bs with
  | nil => rfl
  | cons b rest ih =>
    obtain ⟨hb, hrest⟩ := List.forall_mem_cons.1 h
    rw [relatedData, Assoc.keys, List.map_append, ← Assoc.keys, ← Assoc.keys, ih hrest,
      List.filter_cons, ← hb.isSome_shown?]
    cases b.shown? (Value.member row b.name) <;> rfl

end Branch

namespace Level

/-- How a level shows a row: every key of its data has one entry, which holds the last datum of that key.
Each datum has an entry of its own exactly where all keys are different. -/
structure Shows (l : Level) (row out : Row) : Prop where
  eq_ofPairs : out = Assoc.ofPairs (l.data row)
  keys_data : Assoc.keys (l.data row) = l.outputKeys row
  nodup : (Assoc.keys out).Nodup
  mem_keys : ∀ key, key ∈ Assoc.keys out ↔ key ∈ l.outputKeys row
  get?_eq : ∀ key, Assoc.get? out key = Assoc.get? (l.data row).reverse key
  length_eq_iff : out.length = (l.outputKeys row).length ↔ (l.outputKeys row).Nodup
  eq_data : (l.outputKeys row).Nodup → out = l.data row

theorem exists_shape (l : Level) {row : Row} (h : Branch.Hydrated l.branches row) :
    ∃ out, l.shape row = .ok out ∧ l.Shows row out := by
  cases h with
  | mk hkeys hrelates =>
    have hdata : Assoc.keys (l.data row) = l.outputKeys row := by
      rw [data, Assoc.keys, List.map_append, ← Assoc.keys, ← Assoc.keys, Branch.keys_columnData,
        Branch.keys_relatedData hrelates, outputKeys]
    refine ⟨_, Branch.shape_eq_of_relations l hkeys (Branch.shapeRelations_eq l.branches hrelates), ?_⟩
    constructor
    case eq_ofPairs => rfl
    case keys_data => exact hdata
    case nodup => exact Assoc.nodup_keys_ofPairs _
    case mem_keys => exact fun key => by rw [Assoc.mem_keys_ofPairs, hdata]
    case get?_eq => exact Assoc.get?_ofPairs _
    case length_eq_iff =>
      rw [← hdata, Assoc.keys, List.length_map, ← Assoc.keys]
      exact Assoc.length_ofPairs_eq_iff
    case eq_data => exact fun hnodup => Assoc.ofPairs_of_nodup (hdata ▸ hnodup)

end Level

end EntityQuery
