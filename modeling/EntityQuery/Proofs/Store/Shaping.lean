import EntityQuery.Store.Assemble
import EntityQuery.Proofs.Store.Combination

/-! Assembled rows can be shown by the layout that they are assembled for. Each branch of the layout
finds under its name what was assembled for it, as long as no column of its entity has the same name. -/

namespace EntityQuery

variable {ι : Type}

/-! ### Layouts over a mapping -/

/-- A mapping in which the columns and the relations of a model have different names, and relations
have names that can be segments of paths. -/
structure Mapping.Proper (m : Mapping ι) : Prop where
  names : ∀ e, ((m.model e).columns.map (·.field) ++ (m.model e).links.map (·.name)).Nodup
  segments : ∀ e, ∀ l ∈ (m.model e).links, Path.IsSegment l.name

/-- A branch that follows a relation of a model, with branches of its target below. -/
inductive Branch.Follows (m : Mapping ι) : ι → Branch → Prop
  | mk {e : ι} {b : Branch} {link : Link ι} (hlink : (m.model e).link? b.name = some link)
    (hcolumn : b.name ∉ (m.model e).columns.map (·.field)) (hnames : (b.children.map (·.name)).Nodup)
    (hchildren : ∀ c ∈ b.children, Follows m link.target c) : Follows m e b

/-- A layout whose branches follow the relations of an entity. -/
structure Layout.Follows (m : Mapping ι) (e : ι) (l : Layout) : Prop where
  names : (l.branches.map (·.name)).Nodup
  branches : ∀ b ∈ l.branches, b.Follows m e

namespace Mapping.Proper

variable {m : Mapping ι}

theorem dotFree (hm : m.Proper) (registered : ι → Bool) : (m.graph registered).DotFree := by
  intro e r hr
  obtain ⟨l, hl, rfl⟩ := List.mem_map.1 hr
  exact hm.segments e l (List.mem_filter.1 hl).1

/-- A relation of the graph is a link of the model, and no column has its name. -/
theorem exists_link (hm : m.Proper) {registered : ι → Bool} {e : ι} {name : String} {r : Relation ι}
    (h : ((m.graph registered).entity e).relation? name = some r) :
    ∃ link, (m.model e).link? name = some link ∧ r = ⟨link.name, link.target, link.toMany⟩ ∧
      name ∉ (m.model e).columns.map (·.field) := by
  obtain ⟨-, hnodup, hdisjoint⟩ := List.nodup_append.1 (hm.names e)
  obtain ⟨l, hl, rfl⟩ := List.mem_map.1 (List.mem_of_find?_eq_some h)
  have hmem := (List.mem_filter.1 hl).1
  have hname : l.name = name := by simpa using List.find?_some h
  refine ⟨l, ?_, rfl, fun hcolumn => ?_⟩
  · rw [← hname]
    exact find?_of_nodup hnodup hmem
  · exact hdisjoint name hcolumn name (List.mem_map.2 ⟨l, hmem, hname⟩) rfl

theorem link_of_relation (hm : m.Proper) {registered : ι → Bool} {e : ι} {name : String}
    {r : Relation ι} (h : ((m.graph registered).entity e).relation? name = some r) :
    ∃ link, (m.model e).link? name = some link ∧ link.target = r.target ∧
      name ∉ (m.model e).columns.map (·.field) := by
  obtain ⟨link, hlink, rfl, hcolumn⟩ := hm.exists_link h
  exact ⟨link, hlink, rfl, hcolumn⟩

/-- What is a column is no relation. -/
theorem relation?_of_hasColumn (hm : m.Proper) {registered : ι → Bool} {e : ι} {field : String}
    (h : ((m.graph registered).entity e).hasColumn field = true) :
    ((m.graph registered).entity e).relation? field = none := by
  have hfield : field ∈ (m.model e).columns.map (·.field) := by
    obtain ⟨x, hx, hname⟩ := List.mem_map.1 (Assoc.contains_iff.1 h)
    obtain ⟨c, hc, rfl⟩ := List.mem_map.1 hx
    exact List.mem_map.2 ⟨c, hc, hname⟩
  cases hrelation : ((m.graph registered).entity e).relation? field with
  | none => rfl
  | some r =>
    obtain ⟨-, -, -, hcolumn⟩ := hm.link_of_relation hrelation
    exact absurd hfield hcolumn

end Mapping.Proper

/-! ### Assembled members -/

namespace QueryPlan

variable [DecidableEq ι] {m : Mapping ι} {p : QueryPlan ι} (rows : List JoinedRow)

/-- What a row holds for a branch, null if the result does not load it. -/
def assembled (m : Mapping ι) (p : QueryPlan ι) (rows : List JoinedRow) (owner : ι) (r : Record)
    (b : Branch) : Value :=
  Value.member (p.assembleOne m rows owner r b) b.name

theorem assembleOne_eq {owner : ι} {r : Record} {b : Branch}
    {link : Link ι} (hlink : (m.model owner).link? b.name = some link) :
    p.assembleOne m rows owner r b = [] ∨ ∃ records : List Record,
      p.assembleOne m rows owner r b = [(b.name,
        let items := records.map fun t =>
          Value.obj (columnValues m link.target t ++ p.assembleAll m rows link.target t b.children)
        if link.toMany then .list items else items.headD .null)] := by
  cases b with
  | mk name path parentPath aliasName outputKey columns children =>
    rw [assembleOne, hlink]
    dsimp only
    split
    · exact .inl rfl
    · next records _ =>
      refine .inr ⟨records, ?_⟩
      split <;> rfl

theorem keys_assembleOne {owner : ι} {r : Record} {b : Branch} :
    ∀ x ∈ p.assembleOne m rows owner r b, x.1 = b.name := by
  intro x hx
  cases hlink : (m.model owner).link? b.name with
  | none =>
    cases b with
    | mk name path parentPath aliasName outputKey columns children =>
      rw [assembleOne, hlink] at hx
      simp at hx
  | some link =>
    rcases assembleOne_eq rows (p := p) (r := r) hlink with h | ⟨records, h⟩
    · simp [h] at hx
    · rw [h, List.mem_singleton] at hx
      rw [hx]

theorem get?_assembleOne_of_ne {owner : ι} {r : Record} {b : Branch}
    {name : String} (hne : b.name ≠ name) :
    Assoc.get? (p.assembleOne m rows owner r b) name = none := by
  rw [Assoc.get?_eq_none_iff]
  intro hmem
  obtain ⟨x, hx, rfl⟩ := List.mem_map.1 hmem
  exact hne (keys_assembleOne rows x hx).symm

theorem get?_assembleAll_of_not_mem {owner : ι} {r : Record}
    {bs : List Branch} {name : String} (hname : name ∉ bs.map (·.name)) :
    Assoc.get? (p.assembleAll m rows owner r bs) name = none := by
  induction bs with
  | nil => rfl
  | cons b rest ih =>
    rw [List.map_cons, List.mem_cons, not_or] at hname
    rw [assembleAll, Assoc.get?_append, get?_assembleOne_of_ne rows (Ne.symm hname.1), Option.none_or]
    exact ih hname.2

theorem member_assembleAll {owner : ι} {r : Record} {bs : List Branch}
    (hnames : (bs.map (·.name)).Nodup) {b : Branch} (hb : b ∈ bs) :
    Value.member (p.assembleAll m rows owner r bs) b.name = p.assembled m rows owner r b := by
  induction bs with
  | nil => simp at hb
  | cons c rest ih =>
    obtain ⟨hc, hnames⟩ := List.nodup_cons.1 hnames
    rw [assembleAll, Value.member, Assoc.get?_append]
    rcases List.mem_cons.1 hb with rfl | hb
    · rw [get?_assembleAll_of_not_mem rows hc, Option.or_none]
      rfl
    · have hne : c.name ≠ b.name := fun h => hc (List.mem_map.2 ⟨b, hb, h.symm⟩)
      rw [get?_assembleOne_of_ne rows hne, Option.none_or]
      exact ih hnames hb

mutual

/-- What is assembled depends on a plan by the records that it relates. -/
theorem assembleOne_congr {p' : QueryPlan ι} (h : p'.related? m = p.related? m)
    (rows : List JoinedRow) (owner : ι) (r : Record) (b : Branch) :
    p'.assembleOne m rows owner r b = p.assembleOne m rows owner r b := by
  obtain ⟨name, path, parentPath, aliasName, outputKey, columns, children⟩ := b
  rw [assembleOne, assembleOne, h]
  simp only [assembleAll_congr h rows _ _ children]

theorem assembleAll_congr {p' : QueryPlan ι} (h : p'.related? m = p.related? m)
    (rows : List JoinedRow) (owner : ι) (r : Record) (bs : List Branch) :
    p'.assembleAll m rows owner r bs = p.assembleAll m rows owner r bs := by
  cases bs with
  | nil => rfl
  | cons b rest =>
    rw [assembleAll, assembleAll, assembleOne_congr h rows owner r b,
      assembleAll_congr h rows owner r rest]

end

omit [DecidableEq ι] in
theorem member_columnValues_append {owner : ι} {r : Record} {name : String}
    (hname : name ∉ (m.model owner).columns.map (·.field)) (row : Row) :
    Value.member (columnValues m owner r ++ row) name = Value.member row name := by
  have hnone : Assoc.get? (columnValues m owner r) name = none := by
    rw [Assoc.get?_eq_none_iff]
    simpa [columnValues, Assoc.keys, Function.comp_def] using hname
  rw [Value.member, Assoc.get?_append, hnone, Option.none_or]
  rfl

/-! ### Shapes -/

omit [DecidableEq ι] in
theorem forall₂_of_mapM {ε α β : Type} {f : α → Except ε β} {xs : List α}
    (h : ∀ x ∈ xs, ∃ y, f x = .ok y) :
    ∃ ys, xs.mapM f = .ok ys ∧ List.Forall₂ (fun x y => f x = .ok y) xs ys := by
  induction xs with
  | nil => exact ⟨[], rfl, .nil⟩
  | cons x xs ih =>
    obtain ⟨y, hy⟩ := h x (by simp)
    obtain ⟨ys, hys, hforall⟩ := ih fun x hx => h x (List.mem_cons_of_mem _ hx)
    exact ⟨y :: ys, by rw [List.mapM_cons, hy, hys]; rfl, .cons hy hforall⟩

omit [DecidableEq ι] in
theorem exists_shapeRelation_list {α : Type} {b : Branch} {items : List α} {row : α → Row}
    (h : ∀ x, ∃ shown, Branch.shapeRelations (row x)
      (Branch.shapeColumns b.columns b.children (row x)) b.children = .ok shown) :
    ∃ shown, Branch.shapeRelation b (.list (items.map fun x => .obj (row x))) = .ok shown := by
  obtain ⟨name, path, parentPath, aliasName, outputKey, columns, children⟩ := b
  let one (x : α) : Except QueryError Value := do
    return .obj (← Branch.shapeRelations (row x) (Branch.shapeColumns columns children (row x)) children)
  have hone : ∀ x ∈ items, ∃ y, one x = .ok y := by
    intro x _
    obtain ⟨shown, hshown⟩ := h x
    exact ⟨.obj shown, congrArg (· >>= fun out => pure (Value.obj out)) hshown⟩
  obtain ⟨ys, hys, -⟩ := forall₂_of_mapM hone
  refine ⟨some (.list ys), ?_⟩
  simp only [Branch.shapeRelation, List.mapM_map]
  exact congrArg (· >>= fun ys => pure (some (Value.list ys))) hys

mutual

theorem exists_shapeRelation {e : ι} (b : Branch) (hb : b.Follows m e)
    (r : Record) : ∃ shown, Branch.shapeRelation b (p.assembled m rows e r b) = .ok shown := by
  obtain ⟨name, path, parentPath, aliasName, outputKey, columns, children⟩ := b
  cases hb with
  | @mk _ _ link hlink hcolumn hnames hchildren =>
    have hone : ∀ t out, ∃ shown, Branch.shapeRelations
        (columnValues m link.target t ++ p.assembleAll m rows link.target t children) out children =
          .ok shown := by
      refine fun t out => exists_shapeRelations children hchildren t (fun c hc => ?_) out
      cases hchildren c hc with
      | mk _ hfield _ _ => rw [member_columnValues_append hfield, member_assembleAll rows hnames hc]
    rcases assembleOne_eq rows (p := p) (r := r) hlink with h | ⟨records, h⟩
    · refine ⟨none, ?_⟩
      rw [assembled, h]
      rfl
    · rw [assembled, h]
      simp only [Value.member, Assoc.get?_cons, if_true, Option.getD_some]
      split
      · exact exists_shapeRelation_list fun t => hone t _
      · cases records with
        | nil => exact ⟨none, rfl⟩
        | cons t _ =>
          obtain ⟨shown, hshown⟩ := hone t (Branch.shapeColumns columns children
            (columnValues m link.target t ++ p.assembleAll m rows link.target t children))
          refine ⟨some (.obj shown), ?_⟩
          simp [Branch.shapeRelation, hshown]

theorem exists_shapeRelations {e : ι} (bs : List Branch)
    (hbs : ∀ b ∈ bs, b.Follows m e) (r : Record) {row : Row}
    (hrow : ∀ b ∈ bs, Value.member row b.name = p.assembled m rows e r b) (out : Row) :
    ∃ shown, Branch.shapeRelations row out bs = .ok shown := by
  cases bs with
  | nil => exact ⟨out, rfl⟩
  | cons b rest =>
    obtain ⟨shown, hshown⟩ := exists_shapeRelation b (hbs b (by simp)) r
    have hrest := exists_shapeRelations rest (fun b hb => hbs b (List.mem_cons_of_mem _ hb)) r
      fun b hb => hrow b (List.mem_cons_of_mem _ hb)
    rw [Branch.shapeRelations, hrow b (by simp), hshown]
    cases shown with
    | none => exact hrest out
    | some value => exact hrest _

end

/-- What the layout of a plan shows of a root of its result. -/
def Shows (m : Mapping ι) (db : Database ι) (p : QueryPlan ι) (r : Record) (row : Row) : Prop :=
  p.layout.shape (p.assemble m (p.resultRows m db) p.entity r p.layout.branches) = .ok row

/-- What is assembled for the root of a plan can be shown. -/
theorem exists_shape (h : p.layout.Follows m p.entity) (r : Record) :
    ∃ row, p.layout.shape (p.assemble m rows p.entity r p.layout.branches) = .ok row := by
  refine exists_shapeRelations (p := p) rows p.layout.branches h.branches r (fun b hb => ?_) _
  cases h.branches b hb with
  | mk _ hcolumn _ _ =>
    rw [assemble, member_columnValues_append hcolumn, member_assembleAll _ h.names hb]

/-- A result can be shown, root by root. -/
theorem exists_shapedRows (db : Database ι) (h : p.layout.Follows m p.entity) :
    ∃ rows, p.shapedRows m db = .ok rows ∧ List.Forall₂ (p.Shows m db) (p.roots m db) rows :=
  forall₂_of_mapM fun r _ => exists_shape _ h r

end QueryPlan

/-! ### Layouts of plans -/

section Layouts

variable {m : Mapping ι} {registered : ι → Bool}

/-- Branches whose paths are joined follow relations. -/
theorem Branch.Placed.follows (hm : m.Proper) {t : JoinTree ι} (ht : t.Rooted (m.graph registered))
    {before : List String} {b : Branch} (hb : b.Placed before) {e : ι}
    (hbefore : ∀ s ∈ before, Path.IsSegment s)
    (he : (m.graph registered).entityAlong t.root before = some e)
    (hjoined : ∀ x ∈ b.walk, ∃ j ∈ t.joins, j.path = x.path) : b.Follows m e := by
  induction hb generalizing e with
  | @mk before b hname hpath hparent hnames hchildren ih =>
    have hsegs : ∀ s ∈ before ++ [b.name], Path.IsSegment s := by
      simpa [or_imp, forall_and] using ⟨hbefore, hname⟩
    rw [walk_eq] at hjoined
    obtain ⟨j, hj, hjpath⟩ := hjoined b (by simp)
    have hrelation := ht.relation j hj
    rw [hjpath, hpath, Path.segments_ofSegments (by simp) fun s hs => (hsegs s hs).2,
      EntityGraph.relationAlong_concat, he, Option.bind_some] at hrelation
    obtain ⟨link, hlink, htarget, hcolumn⟩ := hm.link_of_relation hrelation
    refine .mk hlink hcolumn hnames fun c hc => ih c hc hsegs ?_ fun x hx => ?_
    · rw [EntityGraph.entityAlong_concat, he, Option.bind_some, hrelation, Option.map_some, htarget]
    · refine hjoined x (List.mem_cons_of_mem _ (mem_walkAll.2 ⟨c, hc, ?_⟩))
      rw [walk_eq] at hx
      exact List.mem_cons.1 hx

/-- The layout of a coherent context follows the relations of the root. -/
theorem Context.Coherent.follows (hm : m.Proper) {c : Context ι}
    (hc : c.Coherent (m.graph registered)) : c.layout.Follows m c.tree.root where
  names := hc.layout.names
  branches b hb := by
    have hplaced : b.Placed [] := hc.layout.placed b hb
    refine hplaced.follows hm hc.tree (by simp) rfl fun x hx => ?_
    have hwalk : x ∈ c.layout.walk := by
      refine Branch.mem_walkAll.2 ⟨b, hb, ?_⟩
      rw [Branch.walk_eq] at hx
      exact List.mem_cons.1 hx
    have hget := hc.aliases x.path x.aliasName (List.mem_map.2 ⟨x, hwalk, rfl⟩)
    obtain ⟨j, hj, hpath, -⟩ := hc.tree.aligned.exists_of_get? hget
    exact ⟨j, hj, hpath⟩

end Layouts

end EntityQuery
