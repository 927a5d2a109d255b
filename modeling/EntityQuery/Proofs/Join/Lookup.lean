import EntityQuery.Proofs.Join.Honest
import EntityQuery.Sample

/-! Asking for the entity at a path without joining it. A tree answers from the entities that it has
reached, and walks along the relations from its root where it has not reached the path. After any requests,
also ones that failed on the way, both answers are the same. -/

namespace EntityQuery

variable {ι : Type} {g : EntityGraph ι}

namespace JoinTree

variable {t t' u : JoinTree ι} {request : JoinRequest}

/-- A join of a tree that another one was attached to is that one, or stood there but for its mark. -/
theorem Aligned.of_mem_attached (ht : t.Aligned) {wish : String} {aliases : Aliases} {j k : Join ι}
    (h : t.aliases.register wish j.path = .ok (j.aliasName, aliases))
    (hk : k ∈ (t.attached aliases j).joins) :
    k = j ∨ ∃ i ∈ t.joins, k.path = i.path ∧ k.relation = i.relation ∧ k.parent = i.parent := by
  rcases ht.attached_cases h with ⟨-, -, -, -, -, hjoins⟩ | ⟨-, -, hjoins⟩ <;>
    rw [JoinTree.attached, hjoins] at hk
  · rcases List.mem_append.1 hk with hk | hk
    · exact .inr ⟨k, hk, rfl, rfl, rfl⟩
    · exact .inl (List.mem_singleton.1 hk)
  · obtain ⟨i, hi, rfl⟩ := List.mem_map.1 hk
    exact .inr ⟨i, hi, by simp, by simp, by simp⟩

/-- An honest tree that knows of no entity that its path does not lead to, and whose joins have the relations
at the ends of their paths. -/
structure Faithful (g : EntityGraph ι) (t : JoinTree ι) : Prop extends Honest g t where
  known : ∀ path e, path ≠ "" → Assoc.get? t.reached path = some e →
    g.entityAlong t.root (Path.segments path) = some e
  relation : ∀ j ∈ t.joins, g.relationAlong t.root (Path.segments j.path) = some j.relation

theorem faithful_start (g : EntityGraph ι) (root : ι) (aliasName : String) :
    (start root aliasName).Faithful g where
  toHonest := honest_start g root aliasName
  known path e hne h := by
    rw [start, Assoc.get?_cons, if_neg (Ne.symm hne)] at h
    cases h
  relation := by simp [start]

namespace Faithful

theorem attached (hu : u.Faithful g) (hroot : (g.entity t.root).relation? "" = none)
    {before rest : List String} {e : ι} {s : String} {j : Join ι} {aliases : Aliases}
    (hstrode : Strode g request t u before e (s :: rest))
    (hrelation : (g.entity e).relation? s = some j.relation)
    (hpath : j.path = Path.ofSegments (before ++ [s])) (hselect : j.selected = request.select)
    (hregister : u.aliases.register (u.wishFor request (Path.ofSegments (before ++ [s])) rest) j.path =
      .ok (j.aliasName, aliases)) : (u.attached aliases j).Faithful g := by
  have hsegments : Path.segments j.path = before ++ [s] := hpath ▸ hstrode.segments_next
  constructor
  case toHonest => exact (hstrode.step hroot hrelation hpath hselect hregister).honest
  case known =>
    intro path e' hne hget
    rw [JoinTree.attached, Assoc.get?_set] at hget
    split at hget
    · next heq =>
      obtain rfl := Option.some.inj hget
      rw [← heq, hsegments]
      exact hstrode.entity_next hrelation
    · exact hu.known path e' hne hget
  case relation =>
    intro k hk
    rcases hu.aligned.of_mem_attached hregister hk with rfl | ⟨i, hi, hkpath, hkrelation, -⟩
    · rw [hsegments]
      exact hstrode.relation_next hrelation
    · rw [hkpath, hkrelation]
      exact hu.relation i hi

theorem selectFor (ht : t.Faithful g) (request : JoinRequest) : (t.selectFor request).Faithful g := by
  refine ⟨ht.toHonest.selectFor request, ?_, ?_⟩ <;> rw [ht.aligned.selectFor_eq]
  · exact ht.known
  · intro k hk
    obtain ⟨j, hj, rfl⟩ := List.mem_map.1 hk
    exact ht.relation j hj

/-- A request keeps a tree faithful, also one that fails. -/
theorem exec_reach (ht : t.Faithful g) (hroot : (g.entity t.root).relation? "" = none)
    (request : JoinRequest) : ((reach g request).exec t).2.Faithful g := by
  obtain ⟨u, -, -, -, -, walked, -, hu, -, hrun⟩ :=
    ht.toHonest.exists_stops_of hroot request (P := fun u _ _ => u.Faithful g) (fun _ _ _ => ht)
      fun u before e s rest j aliases hstrode hu hrelation hpath hselect hregister =>
        hu.attached hroot hstrode hrelation hpath hselect hregister
  rw [hrun]
  cases walked with
  | error cause => exact hu
  | ok _ => exact hu.selectFor request

theorem answers (ht : t.Faithful g) (hroot : (g.entity t.root).relation? "" = none)
    (requests : List JoinRequest) : (JoinTree.answers g requests t).2.Faithful g := by
  suffices h : (JoinTree.answers g requests t).2.Faithful g ∧
      (JoinTree.answers g requests t).2.root = t.root from h.1
  refine answers_induct (P := fun u => u.Faithful g ∧ u.root = t.root) ?_ ⟨ht, rfl⟩
  rintro request - u ⟨hu, hsame⟩
  exact ⟨hu.exec_reach (hsame ▸ hroot) request,
    (hu.aligned.exec_reach g request).2.root.trans hsame⟩

/-- What a tree knows of a path is what a walk from the root finds. -/
theorem entityAt_eq (ht : t.Faithful g) {path : String} (hne : path ≠ "") :
    t.entityAt g path = g.walk path t.root (Path.segments path) := by
  unfold entityAt
  split
  · next e he => exact (EntityGraph.walk_eq_ok_iff.2 (ht.known path e hne he)).symm
  · rfl

/-- A joined path leads to the target of its join, which the tree has reached. -/
theorem reached_of_mem (ht : t.Faithful g) {j : Join ι} (hj : j ∈ t.joins) :
    g.entityAlong t.root (Path.segments j.path) = some j.relation.target ∧
      Assoc.get? t.reached j.path = some j.relation.target := by
  have hentity := EntityGraph.entityAlong_of_relationAlong (ht.relation j hj)
  obtain ⟨e, he, hreached⟩ := ht.reached _ _ (ht.aligned.get?_of_mem hj)
  obtain rfl := Option.some.inj (he.symm.trans hentity)
  exact ⟨he, hreached⟩

end Faithful

/-- The step that asks for the entity at a path. -/
def lookup (g : EntityGraph ι) (path : String) : Step (JoinTree ι) ι := do
  Step.ofExcept ((← get).entityAt g path)

/-- After any requests on a tree whose root has no relation of the empty name, asking for the entity at a
path that is not empty gives what a walk from the root gives and leaves the tree as it is: the entity at
the end of the relations, or the first segment that is no relation, with the entity that lacks it. A request
for the path that succeeds reaches the same entity, by a join whose relation leads to it. -/
theorem lookup_transparent {root : ι} (hroot : (g.entity root).relation? "" = none)
    (rootAlias : String) (requests : List JoinRequest) {path : String} (hne : path ≠ "") :
    (lookup g path).exec (JoinTree.answers g requests (start root rootAlias)).2 =
      (g.walk path root (Path.segments path), (JoinTree.answers g requests (start root rootAlias)).2) ∧
    (∀ e, (JoinTree.answers g requests (start root rootAlias)).2.entityAt g path = .ok e ↔
      g.entityAlong root (Path.segments path) = some e) ∧
    (∀ cause, (JoinTree.answers g requests (start root rootAlias)).2.entityAt g path = .error cause ↔
      ∃ owner s, g.Breaks root (Path.segments path) owner s ∧
        cause = .relationNotFound s (g.entity owner).name (g.entity owner).relationNames (some path)) ∧
    ∀ request : JoinRequest, request.path = path → ∀ bound t',
      (reach g request).exec (JoinTree.answers g requests (start root rootAlias)).2 = (.ok bound, t') →
      ∃ e, (JoinTree.answers g requests (start root rootAlias)).2.entityAt g path = .ok e ∧
        Assoc.get? t'.reached path = some e ∧
        ∃ j ∈ t'.joins, j.path = path ∧ j.aliasName = bound ∧ j.relation.target = e := by
  have ht := (faithful_start g root rootAlias).answers hroot requests
  have hsame := (answers_root g root rootAlias requests).1
  generalize (JoinTree.answers g requests (start root rootAlias)).2 = t at ht hsame ⊢
  subst hsame
  have hwalk := ht.entityAt_eq hne
  refine ⟨?_, ?_, ?_, ?_⟩
  · rw [lookup, Step.exec_bind, Step.exec_get, ← hwalk]
    rfl
  · intro e
    rw [hwalk, EntityGraph.walk_eq_ok_iff]
  · intro cause
    rw [hwalk, EntityGraph.walk_eq_error_iff]
    rfl
  · rintro request rfl bound t' hrun
    have ht' := ht.exec_reach hroot request
    rw [hrun] at ht'
    obtain ⟨-, hgrows, hbound⟩ := ht.aligned.reach hrun
    obtain ⟨j, hj, hpath, hname⟩ := ht'.aligned.exists_of_get? hbound
    obtain ⟨hentity, hreached⟩ := ht'.reached_of_mem hj
    rw [hpath] at hentity hreached
    rw [hgrows.root] at hentity
    exact ⟨j.relation.target, hwalk.trans (EntityGraph.walk_eq_ok_iff.2 hentity), hreached, j, hj,
      hpath, hname, rfl⟩

end JoinTree

namespace Sample

/-- Once the root of a graph has been reached again under the empty name, a path joined from there is
looked up elsewhere than where the relations lead. -/
theorem lookup_behind_nameless :
    (∀ e, ∀ r ∈ (namelessGraph.entity e).relations, '.' ∉ r.name.toList) ∧
    ((JoinTree.answers namelessGraph [{ path := "" }, { path := "next" }]
      (.start false "root")).2.entityAt namelessGraph "next").toOption = some true ∧
    namelessGraph.entityAlong false (Path.segments "next") = some false := by
  decide +kernel

/-- A path whose walk broke off, and one that leads back to users. -/
def retries : List JoinRequest :=
  [{ path := "posts.authors" }, { path := "posts.author", select := true }]

theorem lookup_transparent_retries :
    ((mapping.graph fun _ => true).entity "User").relation? "" = none ∧ "posts.author.posts" ≠ "" ∧
    ∀ e, (JoinTree.answers (mapping.graph fun _ => true) retries (.start "User" "user")).2.entityAt
        (mapping.graph fun _ => true) "posts.author.posts" = .ok e ↔
      (mapping.graph fun _ => true).entityAlong "User" (Path.segments "posts.author.posts") = some e :=
  ⟨rfl, by decide,
    (JoinTree.lookup_transparent rfl "user" retries
      (show "posts.author.posts" ≠ "" by decide)).2.1⟩

end Sample

end EntityQuery
