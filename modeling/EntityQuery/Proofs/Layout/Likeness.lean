import Mathlib.Data.List.Perm.Basic
import EntityQuery.Layout.Shape
import EntityQuery.Proofs.Assoc
import EntityQuery.Proofs.Step

/-! Rows that differ in the order of lists only. Shaping such rows by one layout gives rows that again
differ in the order of lists only. -/

namespace EntityQuery

/-- Members under one key whose values are related. -/
inductive Value.SameKey (R : Value → Value → Prop) : String × Value → String × Value → Prop
  | mk {key : String} {v v' : Value} (h : R v v') : SameKey R (key, v) (key, v')

/-- Values that are the same but for the order of the elements of lists, at any depth. -/
inductive Value.Alike : Value → Value → Prop
  | refl (v : Value) : Alike v v
  | list {items shuffled items' : List Value} (hperm : items.Perm shuffled)
    (h : List.Forall₂ Alike shuffled items') : Alike (.list items) (.list items')
  | obj {members members' : List (String × Value)}
    (h : List.Forall₂ (SameKey Alike) members members') : Alike (.obj members) (.obj members')

/-- Rows with the same keys in the same order, whose values differ in the order of lists only. -/
abbrev Row.Alike : Row → Row → Prop := List.Forall₂ (Value.SameKey Value.Alike)

namespace Row.Alike

variable {row row' : Row}

theorem refl (row : Row) : Row.Alike row row :=
  List.forall₂_same.2 fun x _ => .mk (.refl x.2)

theorem member (h : Row.Alike row row') (key : String) :
    (Value.member row key).Alike (Value.member row' key) := by
  induction h with
  | nil => exact .refl _
  | @cons x x' row row' hx _ ih =>
    cases hx with
    | mk hv =>
      unfold Value.member at ih ⊢
      rw [Assoc.get?_cons, Assoc.get?_cons]
      split
      · exact hv
      · exact ih

theorem set (h : Row.Alike row row') (key : String) {v v' : Value} (hv : v.Alike v') :
    Row.Alike (Assoc.set row key v) (Assoc.set row' key v') := by
  induction h with
  | nil => exact .cons (.mk hv) .nil
  | @cons x x' row row' hx hrest ih =>
    cases hx with
    | mk hvalue =>
      unfold Assoc.set
      split
      · exact .cons (.mk hv) hrest
      · exact .cons (.mk hvalue) ih

theorem filter (h : Row.Alike row row') (keep : String → Bool) :
    Row.Alike (row.filter fun x => keep x.1) (row'.filter fun x => keep x.1) := by
  induction h with
  | nil => exact .nil
  | @cons x x' row row' hx _ ih =>
    cases hx with
    | mk hvalue =>
      rw [List.filter_cons, List.filter_cons]
      split
      · exact .cons (.mk hvalue) ih
      · exact ih

end Row.Alike

/-! ### Shapes -/

namespace Branch

theorem shapeColumns_alike (columns : List (String × String)) (branches : List Branch)
    {row row' : Row} (h : Row.Alike row row') :
    Row.Alike (shapeColumns columns branches row) (shapeColumns columns branches row') := by
  unfold shapeColumns
  split
  · exact h.filter fun name => (find? branches name).isNone
  · suffices hset : ∀ out out' : Row, Row.Alike out out' → Row.Alike
        (columns.foldl (fun out column => Assoc.set out column.2 (Value.member row column.1)) out)
        (columns.foldl (fun out column => Assoc.set out column.2 (Value.member row' column.1)) out') from
      hset [] [] .nil
    clear * - h
    induction columns with
    | nil => exact fun _ _ hout => hout
    | cons column columns ih => exact fun out out' hout => ih _ _ (hout.set column.2 (h.member column.1))

theorem forall₂_of_mapM_eq_ok {α β : Type} {f : α → Except QueryError β} {xs : List α} {ys : List β}
    (h : xs.mapM f = .ok ys) : List.Forall₂ (fun x y => f x = .ok y) xs ys := by
  induction xs generalizing ys with
  | nil =>
    obtain rfl := Except.ok.inj h
    exact .nil
  | cons x xs ih =>
    rw [List.mapM_cons] at h
    obtain ⟨y, hy, h⟩ := Except.bind_eq_ok.1 h
    obtain ⟨rest, hrest, h⟩ := Except.bind_eq_ok.1 h
    obtain rfl := Except.ok.inj h
    exact .cons hy (ih hrest)

/-- Items that are shown one by one are shown alike in another order. -/
theorem mapM_alike {one : Value → Except QueryError Value}
    (hone : ∀ v v' shown, v.Alike v' → one v = .ok shown →
      ∃ shown', one v' = .ok shown' ∧ shown.Alike shown')
    {items shuffled items' shown : List Value} (hperm : items.Perm shuffled)
    (halike : List.Forall₂ Value.Alike shuffled items') (h : items.mapM one = .ok shown) :
    ∃ shown', items'.mapM one = .ok shown' ∧ Value.Alike (.list shown) (.list shown') := by
  obtain ⟨reordered, hreordered, hshown⟩ :=
    List.perm_comp_forall₂ hperm.symm (forall₂_of_mapM_eq_ok h)
  suffices hsuffices : ∃ shown', items'.mapM one = .ok shown' ∧
      List.Forall₂ Value.Alike reordered shown' by
    obtain ⟨shown', hitems', halike'⟩ := hsuffices
    exact ⟨shown', hitems', .list hshown.symm halike'⟩
  clear * - hone halike hreordered
  induction halike generalizing reordered with
  | nil =>
    cases hreordered
    exact ⟨[], rfl, .nil⟩
  | @cons v v' _ _ hv _ ih =>
    obtain ⟨y, rest, hy, hrest, rfl⟩ := List.forall₂_cons_left_iff.1 hreordered
    obtain ⟨y', hy', hyy'⟩ := hone v v' y hv hy
    obtain ⟨ys, hys, halike⟩ := ih rest hrest
    refine ⟨y' :: ys, ?_, .cons hyy' halike⟩
    rw [List.mapM_cons, hy', hys]
    rfl

theorem shapeRelation_obj_eq_ok {b : Branch} {row : Row} {shown : Option Value} :
    shapeRelation b (.obj row) = .ok shown ↔ ∃ out,
      shapeRelations row (shapeColumns b.columns b.children row) b.children = .ok out ∧
        shown = some (.obj out) := by
  cases b with
  | mk name path parentPath aliasName outputKey columns children =>
    rw [shapeRelation]
    dsimp only
    cases shapeRelations row (shapeColumns columns children row) children with
    | error cause => exact iff_of_false nofun nofun
    | ok out =>
      constructor
      · intro h
        exact ⟨out, rfl, (Except.ok.inj h).symm⟩
      · rintro ⟨out, ⟨⟩, rfl⟩
        rfl

mutual

theorem shapeRelation_alike (b : Branch) {v v' : Value} {shown : Option Value} (hv : v.Alike v')
    (h : shapeRelation b v = .ok shown) :
    ∃ shown', shapeRelation b v' = .ok shown' ∧ Option.Rel Value.Alike shown shown' := by
  obtain ⟨name, path, parentPath, aliasName, outputKey, columns, children⟩ := b
  let rowOf (row : Row) : Except QueryError Row :=
    shapeRelations row (shapeColumns columns children row) children
  have hrowOf : ∀ row row' out, Row.Alike row row' → rowOf row = .ok out →
      ∃ out', rowOf row' = .ok out' ∧ Row.Alike out out' := fun row row' out hrow hout =>
    shapeRelations_alike children hrow (shapeColumns_alike columns children hrow) hout
  cases hv with
  | refl =>
    refine ⟨shown, h, ?_⟩
    cases shown with
    | none => exact .none
    | some value => exact .some (.refl value)
  | @list items shuffled items' hperm hitems =>
    obtain ⟨values, hvalues, h⟩ := Except.bind_eq_ok.1 h
    obtain rfl := Except.ok.inj h
    obtain ⟨values', hvalues', halike⟩ := mapM_alike (fun v v' value hv hvalue => by
      cases hv with
      | refl => exact ⟨value, hvalue, .refl value⟩
      | list => cases hvalue
      | @obj row row' hrow =>
        obtain ⟨out, hout, hvalue⟩ := Except.bind_eq_ok.1 hvalue
        obtain ⟨out', hout', halike⟩ := hrowOf row row' out hrow hout
        obtain rfl := Except.ok.inj hvalue
        exact ⟨.obj out', Except.bind_eq_ok.2 ⟨out', hout', rfl⟩, .obj halike⟩) hperm hitems hvalues
    exact ⟨_, Except.bind_eq_ok.2 ⟨values', hvalues', rfl⟩, .some halike⟩
  | @obj row row' hrow =>
    obtain ⟨out, hout, rfl⟩ := shapeRelation_obj_eq_ok.1 h
    obtain ⟨out', hout', halike⟩ := hrowOf row row' out hrow hout
    exact ⟨_, shapeRelation_obj_eq_ok.2 ⟨out', hout', rfl⟩, .some (.obj halike)⟩

theorem shapeRelations_alike (bs : List Branch) {row row' out out' shown : Row}
    (hrow : Row.Alike row row') (hout : Row.Alike out out')
    (h : shapeRelations row out bs = .ok shown) :
    ∃ shown', shapeRelations row' out' bs = .ok shown' ∧ Row.Alike shown shown' := by
  cases bs with
  | nil =>
    obtain rfl := Except.ok.inj h
    exact ⟨out', rfl, hout⟩
  | cons b rest =>
    obtain ⟨value, hvalue, hrest⟩ := Except.bind_eq_ok.1 h
    obtain ⟨value', hvalue', halike⟩ := shapeRelation_alike b (hrow.member b.name) hvalue
    rw [shapeRelations, hvalue']
    cases halike with
    | none => exact shapeRelations_alike rest hrow hout hrest
    | some halike => exact shapeRelations_alike rest hrow (hout.set b.outputKey halike) hrest

end

end Branch

/-- Rows that differ in the order of lists are shown alike. -/
theorem Layout.shape_alike (l : Layout) {row row' shown : Row} (hrow : Row.Alike row row')
    (h : l.shape row = .ok shown) : ∃ shown', l.shape row' = .ok shown' ∧ Row.Alike shown shown' :=
  Branch.shapeRelations_alike l.branches hrow (Branch.shapeColumns_alike l.rootColumns l.branches hrow) h

end EntityQuery
