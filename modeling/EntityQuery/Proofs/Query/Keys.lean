import EntityQuery.Proofs.Query.Narrowing

/-! Records under their keys. A cell that a column keeps as it is meets its own value there, and no cell
that differs from it; where the key columns of an entity keep the cells of its records, each record is
the only one under its key. -/

namespace EntityQuery

variable {ι : Type}

namespace Cell

/-- A cell that a column of the type keeps, and that it shows as a value of its own. -/
structure Settled (type : ColumnType) (c : Cell) : Prop where
  notNull : c ≠ .null
  kind : c.convert type = c
  boolean : type = .boolean → c = .int 0 ∨ c = .int 1

theorem Settled.convert_toValue {type : ColumnType} {c : Cell} (h : c.Settled type) :
    (ofValue (c.toValue type)).convert type = c := by
  cases type with
  | boolean => rcases h.boolean rfl with rfl | rfl <;> rfl
  | integer | real | text | untyped => cases c <;> exact h.kind

theorem ofBool_holds_eq_iff {o : Ordering} : Truth.ofBool (Relop.eq.holds o) = .true ↔ o = .eq := by
  cases o <;> decide

/-- The cells that equal the value of a settled cell are those that tie with it. -/
theorem Settled.eval_iff {type : ColumnType} {c : Cell} (h : c.Settled type) (s : Cell) :
    Relop.eq.eval type s (c.toValue type) = .true ↔ s.compare c = .eq := by
  have hnull := h.notNull
  unfold Relop.eval
  rw [h.convert_toValue]
  cases s with
  | null =>
    refine iff_of_false nofun ?_
    cases c with
    | null => exact absurd rfl hnull
    | _ => simp [compare, storageClass]
  | _ =>
    cases c with
    | null => exact absurd rfl hnull
    | _ => exact ofBool_holds_eq_iff

end Cell

/-! ### Keys as they are shown -/

section Keys

variable (m : Mapping ι) (e : ι) (r : Record)

/-- The fields of the primary key with their values on a record, as its columns show them. -/
def shownKey : Row :=
  (m.model e).primaryKey.map fun field => (field, Value.member (QueryPlan.columnValues m e r) field)

/-- The key of a record as callers give it: a list for a key of several columns, else the value itself. -/
def idOf : Value :=
  match (shownKey m e r).map (·.2) with
  | [value] => value
  | values => .list values

end Keys

/-- An entity whose primary key has columns, told apart by their names, which keep the cells of all
records. -/
structure Database.Identified (m : Mapping ι) (db : Database ι) (e : ι) : Prop where
  key : (m.model e).primaryKey ≠ []
  columns : ∀ field ∈ (m.model e).primaryKey, ∃ c, (m.model e).column? field = some c ∧
    (m.model e).typeNamed c.name = c.type ∧
      ∀ r ∈ db e, (Model.cellNamed r c.name).Settled c.type

variable {m : Mapping ι} {db : Database ι} {registered : ι → Bool} {e : ι}

theorem Model.get?_columns {α : Type} {model : Model ι} {field : String} {c : Column}
    (h : model.column? field = some c) (f : Column → α) :
    Assoc.get? (model.columns.map fun c => (c.field, f c)) field = some (f c) := by
  rw [Assoc.get?, List.find?_map]
  unfold column? at h
  simpa [Function.comp_def] using ⟨c, h, rfl⟩

theorem Model.columnName_eq {model : Model ι} {keep : ι → Bool} {field : String} {c : Column}
    (h : model.column? field = some c) : (model.toEntity keep).columnName field = c.name := by
  rw [Entity.columnName, toEntity, get?_columns h Column.name]
  rfl

theorem member_columnValues {field : String} {c : Column} (h : (m.model e).column? field = some c)
    (r : Record) :
    Value.member (QueryPlan.columnValues m e r) field = (Model.cellNamed r c.name).toValue c.type := by
  rw [Value.member, QueryPlan.columnValues, Model.get?_columns h]
  rfl

/-- A key names columns of its entity. -/
theorem Database.Identified.namesColumns (h : db.Identified m e) (hm : m.Proper) (r : Record) :
    Predicate.NamesColumns ((m.graph registered).entity e) (shownKey m e r) := by
  intro x hx
  obtain ⟨field, hfield, rfl⟩ := List.mem_map.1 hx
  obtain ⟨c, hc, -⟩ := h.columns field hfield
  have hcolumn : ((m.graph registered).entity e).hasColumn field = true := by
    rw [Entity.hasColumn, Assoc.contains_eq_isSome]
    exact congrArg Option.isSome (Model.get?_columns hc Column.name)
  exact ⟨hm.relation?_of_hasColumn hcolumn, hcolumn⟩

/-! ### Matching a key -/

namespace Predicate

/-- Equalities are true where each of the columns equals its value. -/
theorem truths_equalities (ev : Evaluation) (rowAt : String → RowSight) (row : RowSight)
    (path : String) (owner : Entity ι) (key : Row) :
    truths ev rowAt row path (equalities owner key) =
      key.map fun x => Relop.eq.eval (row (owner.columnName x.1)).1 (row (owner.columnName x.1)).2 x.2 := by
  induction key with
  | nil => rfl
  | cons x key ih =>
    have hfirst : truth ev rowAt row path
        (.field x.1 (owner.columnName x.1) [.test .eq x.2]) =
          some (Relop.eq.eval (row (owner.columnName x.1)).1 (row (owner.columnName x.1)).2 x.2) := by
      rw [truth, Comparison.truths, Comparison.truths, Comparison.truth]
      exact congrArg some (Truth.and_true _)
    have hcons : equalities owner (x :: key) =
        .field x.1 (owner.columnName x.1) [.test .eq x.2] :: equalities owner key := rfl
    rw [List.map_cons, ← ih, hcons, truths, hfirst]
    rfl

theorem truths_ofKey_iff {ev : Evaluation} {rowAt : String → RowSight} {row : RowSight}
    {path : String} {owner : Entity ι} {key : Row} :
    (∀ t ∈ truths ev rowAt row path [ofKey owner key], t = .true) ↔
      ∀ x ∈ key, Relop.eq.eval (row (owner.columnName x.1)).1 (row (owner.columnName x.1)).2 x.2 = .true := by
  have hall : (∀ t ∈ truths ev rowAt row path (equalities owner key), t = .true) ↔
      ∀ x ∈ key, Relop.eq.eval (row (owner.columnName x.1)).1 (row (owner.columnName x.1)).2 x.2 = .true := by
    rw [truths_equalities, List.forall_mem_map]
  rw [← hall]
  match key with
  | [x] => exact Iff.rfl
  | [] => exact Iff.rfl
  | x :: y :: key =>
    have hfields : ofKey owner (x :: y :: key) = .fields (equalities owner (x :: y :: key)) := rfl
    rw [hfields, truths, truths, List.append_nil, truth]
    generalize truths ev rowAt row path (equalities owner (x :: y :: key)) = ts
    cases ts with
    | nil => simp [together]
    | cons t ts => exact List.forall_mem_singleton.trans Truth.all_eq_true_iff

end Predicate

/-- On a record of the entity, the key of another one is true where the two are the same. -/
theorem Database.Identified.allTrue_iff (h : db.Identified m e) (hapart : db.Apart m)
    {records : String → Option Record} {r s : Record} (hr : r ∈ db e) (hs : s ∈ db e)
    (hroot : records "" = some s) :
    AllTrue m db (m.graph registered) e [.ofKey ((m.graph registered).entity e) (shownKey m e r)]
        records ↔
      s = r := by
  have hfield : ∀ field ∈ (m.model e).primaryKey,
      let name := ((m.graph registered).entity e).columnName field
      Relop.eq.eval (sightAt m (m.graph registered) e records "" name).1
          (sightAt m (m.graph registered) e records "" name).2
          (Value.member (QueryPlan.columnValues m e r) field) = .true ↔
        ((m.model e).cell s field).compare ((m.model e).cell r field) = .eq := by
    intro field hfield
    obtain ⟨c, hc, htype, hsettled⟩ := h.columns field hfield
    have hname : ((m.graph registered).entity e).columnName field = c.name := Model.columnName_eq hc
    have hcell : ∀ t, (m.model e).cell t field = Model.cellNamed t c.name := fun t => by
      rw [Model.cell, hc]
    have hsight : sightAt m (m.graph registered) e records "" c.name =
        (c.type, Model.cellNamed s c.name) := by
      have hentity : (m.graph registered).entityOn e "" = e := rfl
      rw [sightAt, hroot, hentity, htype]
    dsimp only
    rw [hname, hsight, hcell, hcell, member_columnValues hc]
    exact (hsettled r hr).eval_iff _
  unfold AllTrue
  rw [Predicate.truths_ofKey_iff, shownKey, List.forall_mem_map]
  constructor
  · intro heval
    exact hapart.inj hs hr fun field hmem => (hfield field hmem).1 (heval field hmem)
  · rintro rfl field hmem
    exact (hfield field hmem).2 Std.ReflCmp.compare_self

/-! ### Pinned plans -/

/-- A query on the record under the key of `r`, and on that one root. -/
def Query.pinned (q : Query) (m : Mapping ι) (owner : Entity ι) (e : ι) (r : Record) : Query :=
  { q.addPredicate (.ofKey owner (shownKey m e r)) with limit := some 1 }

theorem Query.ReadOn.pinned {q : Query} (hq : q.ReadOn (m.graph registered) e) (hm : m.Proper)
    (h : db.Identified m e) (r : Record) :
    (q.pinned m ((m.graph registered).entity e) e r).ReadOn (m.graph registered) e := by
  refine ⟨fun p hp => ?_, hq.inclusions⟩
  rcases List.mem_append.1 hp with hp | hp
  · exact hq.predicates p hp
  · obtain rfl := List.mem_singleton.1 hp
    exact ⟨_, Predicate.readPredicate_keyObject (h.namesColumns hm r)⟩

theorem Query.distinct_of_plan {g : EntityGraph ι} {q : Query} {aliasName : Option String}
    {table : OperatorTable} {quote : String → String} {stable : Bool} {p : QueryPlan ι}
    (h : q.plan g e aliasName table quote stable = .ok p) : p.distinct = q.distinct := by
  obtain ⟨c₁, c₂, c₃, c₄, filters, order, -, rfl⟩ := plan_eq_ok.1 h
  rfl

/-- Pinned to the key of a record, a query has a plan that is pinned to the record. -/
theorem Query.exists_pins {q : Query} {aliasName : Option String} {table : OperatorTable}
    {quote : String → String} {stable : Bool} {symbol : String} {p : QueryPlan ι}
    (hq : q.ReadOn (m.graph registered) e) (hm : m.Proper)
    (htable : table.get? Operator.eq.token = some (.eq, symbol)) (hapart : db.Apart m)
    (hidentified : db.Identified m e) (hoffset : q.offset = none) (hdistinct : q.distinct = false)
    (h : q.plan (m.graph registered) e aliasName table quote stable = .ok p) {r : Record}
    (hr : r ∈ db e) :
    ∃ p', (q.pinned m ((m.graph registered).entity e) e r).plan (m.graph registered) e aliasName table
      quote stable = .ok p' ∧ QueryPlan.Pins m db p p' r := by
  have hg := hm.dotFree registered
  have hq' := hq.pinned hm hidentified r
  obtain ⟨p', h', hmirrors, hoffset', hlimit', hdistinct'⟩ :=
    exists_plan_narrowed htable h (shownKey m e r) (some 1)
  have hp := plan_wellFormed hg hq h
  have hp' := plan_wellFormed hg hq' h'
  have hrepeated := (distinct_of_plan h).trans hdistinct
  refine ⟨p', h', hmirrors, ⟨hrepeated, hdistinct'.trans hdistinct⟩, hoffset'.trans hoffset, hlimit',
    fun byAlias hcombination => ?_⟩
  obtain ⟨records, hunfolds, hshared⟩ := hp.exists_unfolding hg hcombination
  have hshared' : QueryPlan.WellFormed.Shared p' records byAlias :=
    ⟨hmirrors.rootAlias.symm ▸ hshared.root, fun j hj => hshared.joins j (hmirrors.joins ▸ hj)⟩
  obtain ⟨s, hs, hroot⟩ := hunfolds.root
  have hkey : byAlias p.rootAlias = some r ↔ s = r := by
    rw [← hshared.root, hroot, Option.some.injEq]
  rw [holdsOn_iff hp hg hq h hshared, hkey, ← hidentified.allTrue_iff hapart hr hs hroot,
    ← allTrue_append]
  exact holdsOn_iff hp' hg hq' h' hshared'

end EntityQuery
