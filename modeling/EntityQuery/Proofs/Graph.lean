import EntityQuery.Entity
import EntityQuery.Proofs.Path

/-! Chains of relations in a graph of entities, and the paths that name them. Where no name holds a dot and
the root has no relation of the empty name, a path is taken apart into the chain that it was made from. -/

namespace EntityQuery

variable {ι : Type} {g : EntityGraph ι}

namespace EntityGraph

/-! ### Chains of relations -/

/-- The entity at the end of a chain of relations. -/
def entityAlong (g : EntityGraph ι) : ι → List String → Option ι
  | e, [] => some e
  | e, s :: rest => ((g.entity e).relation? s).bind fun r => entityAlong g r.target rest

/-- The last relation of a chain of relations. -/
def relationAlong (g : EntityGraph ι) : ι → List String → Option (Relation ι)
  | _, [] => none
  | e, [s] => (g.entity e).relation? s
  | e, s :: rest => ((g.entity e).relation? s).bind fun r => relationAlong g r.target rest

theorem entityAlong_append (e : ι) (segs more : List String) :
    g.entityAlong e (segs ++ more) =
      (g.entityAlong e segs).bind fun e' => g.entityAlong e' more := by
  induction segs generalizing e with
  | nil => rfl
  | cons t segs ih =>
    rw [List.cons_append, entityAlong, entityAlong]
    cases (g.entity e).relation? t with
    | none => rfl
    | some r => exact ih r.target

theorem entityAlong_concat (e : ι) (segs : List String) (s : String) :
    g.entityAlong e (segs ++ [s]) =
      (g.entityAlong e segs).bind fun e' => ((g.entity e').relation? s).map (·.target) := by
  rw [entityAlong_append]
  congr 1
  funext e'
  rw [entityAlong]
  cases (g.entity e').relation? s <;> rfl

theorem relationAlong_concat (e : ι) (segs : List String) (s : String) :
    g.relationAlong e (segs ++ [s]) =
      (g.entityAlong e segs).bind fun e' => (g.entity e').relation? s := by
  induction segs generalizing e with
  | nil => rfl
  | cons t segs ih =>
    rw [List.cons_append, entityAlong, relationAlong]
    · cases (g.entity e).relation? t with
      | none => rfl
      | some r => exact ih r.target
    · simp

/-- A chain leads to the target of its last relation. -/
theorem entityAlong_of_relationAlong {e : ι} {segs : List String} {r : Relation ι}
    (h : g.relationAlong e segs = some r) : g.entityAlong e segs = some r.target := by
  rcases List.eq_nil_or_concat segs with rfl | ⟨segs, s, rfl⟩
  · simp [relationAlong] at h
  · rw [List.concat_eq_append] at h ⊢
    rw [relationAlong_concat] at h
    rw [entityAlong_concat]
    cases he : g.entityAlong e segs with
    | none => simp [he] at h
    | some e' =>
      rw [he, Option.bind_some] at h
      rw [Option.bind_some, h]
      rfl

/-! ### Names of relations -/

theorem of_relation? {e : ι} {s : String} {r : Relation ι} (h : (g.entity e).relation? s = some r) :
    r ∈ (g.entity e).relations ∧ r.name = s :=
  ⟨List.mem_of_find?_eq_some h, by simpa using List.find?_some h⟩

/-- What holds of the names of all relations holds of those that make up a chain. -/
theorem forall_of_entityAlong {P : String → Prop} (hP : ∀ e, ∀ r ∈ (g.entity e).relations, P r.name)
    {e e' : ι} {segs : List String} (h : g.entityAlong e segs = some e') : ∀ s ∈ segs, P s := by
  induction segs generalizing e with
  | nil => simp
  | cons s segs ih =>
    rw [entityAlong, Option.bind_eq_some_iff] at h
    obtain ⟨r, hr, h⟩ := h
    obtain ⟨hmem, rfl⟩ := of_relation? hr
    rw [List.forall_mem_cons]
    exact ⟨hP e r hmem, ih h⟩

/-- All relations have names that can be segments. -/
def DotFree (g : EntityGraph ι) : Prop :=
  ∀ e, ∀ r ∈ (g.entity e).relations, Path.IsSegment r.name

theorem DotFree.isSegment (hg : g.DotFree) {e : ι} {s : String} {r : Relation ι}
    (h : (g.entity e).relation? s = some r) : Path.IsSegment s := by
  obtain ⟨hmem, rfl⟩ := of_relation? h
  exact hg e r hmem

theorem DotFree.isSegment_of_entityAlong (hg : g.DotFree) {e e' : ι} {segs : List String}
    (h : g.entityAlong e segs = some e') : ∀ s ∈ segs, Path.IsSegment s :=
  forall_of_entityAlong hg h

/-- Names of relations hold no dots. -/
def Undotted (g : EntityGraph ι) : Prop := ∀ e, ∀ r ∈ (g.entity e).relations, '.' ∉ r.name.toList

theorem Undotted.not_mem_of_relation? (hg : g.Undotted) {e : ι} {s : String} {r : Relation ι}
    (h : (g.entity e).relation? s = some r) : '.' ∉ s.toList := by
  obtain ⟨hmem, rfl⟩ := of_relation? h
  exact hg e r hmem

theorem Undotted.not_mem_of_entityAlong (hg : g.Undotted) {e e' : ι} {segs : List String}
    (h : g.entityAlong e segs = some e') : ∀ s ∈ segs, '.' ∉ s.toList :=
  forall_of_entityAlong (P := fun s => '.' ∉ s.toList) hg h

/-- Paths name chains of relations from a root entity: names hold no dots, and no relation of the root
has the path of the root for its name. -/
structure Navigable (g : EntityGraph ι) (root : ι) : Prop where
  undotted : ∀ e, ∀ r ∈ (g.entity e).relations, '.' ∉ r.name.toList
  named : (g.entity root).relation? "" = none

theorem DotFree.navigable (hg : g.DotFree) (root : ι) : g.Navigable root where
  undotted e r hr := (hg e r hr).2
  named := by
    rw [Option.eq_none_iff_forall_ne_some]
    exact fun r hr => (hg.isSegment hr).1 rfl

section Named

variable {root e : ι} {segs : List String}

theorem head?_ne_of_entityAlong (hroot : (g.entity root).relation? "" = none)
    (h : g.entityAlong root segs = some e) : segs.head? ≠ some "" := by
  cases segs with
  | nil => simp
  | cons s rest =>
    rintro hs
    obtain rfl := Option.some.inj hs
    rw [entityAlong, hroot] at h
    cases h

/-- The path of a chain of relations is taken apart into the chain. -/
theorem Navigable.segments_ofSegments (hg : g.Navigable root) (h : g.entityAlong root segs = some e)
    (hne : segs ≠ []) : Path.segments (Path.ofSegments segs) = segs :=
  Path.segments_ofSegments hne (Undotted.not_mem_of_entityAlong hg.undotted h)

theorem Navigable.ofSegments_concat (hg : g.Navigable root) (h : g.entityAlong root segs = some e)
    (name : String) : Path.ofSegments (segs ++ [name]) = Path.child (Path.ofSegments segs) name :=
  Path.ofSegments_concat_of_head (head?_ne_of_entityAlong hg.named h) name

end Named

/-! ### Walks -/

variable {path : String} {e e' : ι} {segs : List String}

theorem walk_eq_ok_iff : g.walk path e segs = .ok e' ↔ g.entityAlong e segs = some e' := by
  induction segs generalizing e with
  | nil => simp [walk, entityAlong, pure, Except.pure]
  | cons s rest ih =>
    rw [walk, entityAlong]
    cases (g.entity e).relation? s with
    | none => simp [throw, throwThe, MonadExceptOf.throw]
    | some r => exact ih

/-- The walk from an entity breaks off at a segment: those before it lead to an entity that has no relation
of its name. -/
def Breaks (g : EntityGraph ι) (e : ι) (segs : List String) (owner : ι) (s : String) : Prop :=
  ∃ before rest, segs = before ++ s :: rest ∧ g.entityAlong e before = some owner ∧
    (g.entity owner).relation? s = none

theorem breaks_cons_iff {s s' : String} {rest : List String} {owner : ι} :
    g.Breaks e (s :: rest) owner s' ↔
      (owner = e ∧ s' = s ∧ (g.entity e).relation? s = none) ∨
      ∃ r, (g.entity e).relation? s = some r ∧ g.Breaks r.target rest owner s' := by
  constructor
  · rintro ⟨before, later, hsplit, howner, hbad⟩
    cases before with
    | nil =>
      obtain ⟨rfl, rfl⟩ := List.cons_eq_cons.1 hsplit
      obtain rfl := Option.some.inj howner
      exact .inl ⟨rfl, rfl, hbad⟩
    | cons s₁ before =>
      obtain ⟨rfl, rfl⟩ := List.cons_eq_cons.1 hsplit
      rw [entityAlong, Option.bind_eq_some_iff] at howner
      obtain ⟨r, hr, howner⟩ := howner
      exact .inr ⟨r, hr, before, later, rfl, howner, hbad⟩
  · rintro (⟨rfl, rfl, hbad⟩ | ⟨r, hr, before, later, rfl, howner, hbad⟩)
    · exact ⟨[], rest, rfl, rfl, hbad⟩
    · refine ⟨s :: before, later, rfl, ?_, hbad⟩
      rw [entityAlong, hr]
      exact howner

/-- A walk fails where it breaks off, and says so. -/
theorem walk_eq_error_iff {cause : QueryError} :
    g.walk path e segs = .error cause ↔
      ∃ owner s, g.Breaks e segs owner s ∧ cause = (g.entity owner).noRelation s path := by
  induction segs generalizing e with
  | nil => simp [walk, pure, Except.pure, Breaks]
  | cons s rest ih =>
    simp only [breaks_cons_iff]
    rw [walk]
    cases (g.entity e).relation? s with
    | none => simp [throw, throwThe, MonadExceptOf.throw, eq_comm, and_assoc]
    | some r => simpa using ih

end EntityGraph

namespace Sample

/-- An entity with a relation to itself and a nameless one to another entity, which has a relation to
itself as well. -/
def namelessGraph : EntityGraph Bool where
  entity
    | false => ⟨"Root", [], [], [⟨"", true, false⟩, ⟨"next", false, false⟩]⟩
    | true => ⟨"Far", [], [], [⟨"next", true, false⟩]⟩

end Sample

end EntityQuery
