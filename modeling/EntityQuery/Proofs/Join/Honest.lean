import EntityQuery.Proofs.Graph
import EntityQuery.Proofs.Join.Requests

/-! Trees of joins over a graph whose relation names may be empty, but not at the root, where the empty
path stands for the root itself. Whatever requests have been made of such a tree, it knows for each joined
path the entity that the relations of the path lead to, so that a request for a valid path fails only
where an alias names another path. -/

namespace EntityQuery

variable {ι : Type} {g : EntityGraph ι}

namespace JoinTree

variable {t t' u : JoinTree ι} {request : JoinRequest}

/-- An aligned tree that knows its root and, at each path with an alias, the entity at the end of the
chain of relations. -/
structure Honest (g : EntityGraph ι) (t : JoinTree ι) : Prop where
  aligned : t.Aligned
  reachedRoot : Assoc.get? t.reached "" = some t.root
  reached : ∀ path aliasName, t.aliases.get? path = some aliasName →
    ∃ e, g.entityAlong t.root (Path.segments path) = some e ∧ Assoc.get? t.reached path = some e

theorem honest_start (g : EntityGraph ι) (root : ι) (aliasName : String) :
    (start root aliasName).Honest g :=
  ⟨aligned_start root aliasName, rfl, fun _ _ h => by cases h⟩

/-- How far a walk along a path has come in an honest tree. -/
structure Strode (g : EntityGraph ι) (request : JoinRequest) (t u : JoinTree ι) (before : List String)
    (e : ι) (todo : List String) : Prop where
  honest : u.Honest g
  passed : Passed request t u before todo
  entity : g.entityAlong u.root before = some e
  joined : before ≠ [] → (u.aliases.get? (Path.ofSegments before)).isSome = true

namespace Strode

variable {before rest todo : List String} {e : ι} {s : String} {relation : Relation ι}

theorem segments_next (h : Strode g request t u before e (s :: rest)) :
    Path.segments (Path.ofSegments (before ++ [s])) = before ++ [s] :=
  Path.segments_ofSegments_of_prefix (by simp) (prefix_of_append_cons h.passed.path)

theorem relation_next (h : Strode g request t u before e (s :: rest))
    (hrelation : (g.entity e).relation? s = some relation) :
    g.relationAlong u.root (before ++ [s]) = some relation := by
  rw [EntityGraph.relationAlong_concat, h.entity]
  exact hrelation

theorem entity_next (h : Strode g request t u before e (s :: rest))
    (hrelation : (g.entity e).relation? s = some relation) :
    g.entityAlong u.root (before ++ [s]) = some relation.target :=
  EntityGraph.entityAlong_of_relationAlong (h.relation_next hrelation)

theorem next_ne_empty (hroot : (g.entity t.root).relation? "" = none)
    (h : Strode g request t u before e (s :: rest))
    (hrelation : (g.entity e).relation? s = some relation) :
    Path.ofSegments (before ++ [s]) ≠ "" := by
  rw [Ne, Path.ofSegments_eq_empty_iff_of_head]
  · simp
  · exact EntityGraph.head?_ne_of_entityAlong (h.passed.grows.root.symm ▸ hroot)
      (h.entity_next hrelation)

theorem step (hroot : (g.entity t.root).relation? "" = none) {j : Join ι} {aliases : Aliases}
    (h : Strode g request t u before e (s :: rest))
    (hrelation : (g.entity e).relation? s = some j.relation)
    (hpath : j.path = Path.ofSegments (before ++ [s])) (hselect : j.selected = request.select)
    (hregister : u.aliases.register (u.wishFor request (Path.ofSegments (before ++ [s])) rest) j.path =
      .ok (j.aliasName, aliases)) :
    Strode g request t (u.attached aliases j) (before ++ [s]) j.relation.target rest := by
  have hentity := h.entity_next hrelation
  have hsegments : Path.segments j.path = before ++ [s] := hpath ▸ h.segments_next
  have hne : j.path ≠ "" := hpath ▸ h.next_ne_empty hroot hrelation
  have hget := h.honest.aligned.get?_attached hregister
  constructor
  case honest =>
    refine ⟨h.honest.aligned.attached (wishFor_ne_empty u request _ rest) hregister,
      (Assoc.get?_set_of_ne _ hne _).trans h.honest.reachedRoot, fun path a ha => ?_⟩
    rw [hget] at ha
    by_cases heq : j.path = path
    · subst heq
      exact ⟨_, hsegments ▸ hentity, Assoc.get?_set_self _ _ _⟩
    · rw [if_neg heq] at ha
      obtain ⟨e', he', hreached⟩ := h.honest.reached path a ha
      exact ⟨e', he', (Assoc.get?_set_of_ne _ heq _).trans hreached⟩
  case passed => exact h.passed.step hpath hselect hregister
  case entity => exact hentity
  case joined =>
    intro _
    rw [hget, if_pos hpath]
    rfl

/-- A walk along the whole path gives the alias of the path. -/
theorem exists_finish (h : Strode g request t u before e []) :
    ∃ bound, finish request (.ok (), u) = (.ok bound, u.selectFor request) := by
  have hwhole := h.passed.path
  rw [List.append_nil] at hwhole
  have hget := h.joined (hwhole ▸ Path.segments_ne_nil request.path)
  rw [hwhole, Path.ofSegments_segments] at hget
  obtain ⟨bound, hbound⟩ := Option.isSome_iff_exists.1 hget
  refine ⟨bound, ?_⟩
  rw [finish, h.honest.aligned.aliases_selectFor, hbound]
  rfl

end Strode

namespace Honest

/-- A reach of an honest tree has somewhere to walk from. -/
theorem exists_starts (ht : t.Honest g) (hroot : (g.entity t.root).relation? "" = none)
    (request : JoinRequest) : ∃ e parent, t.Starts request e parent ∧
      Strode g request t t (t.lead request.path) e (t.missing request.path) := by
  have hpassed := Passed.start ht.aligned request
  rcases JoinTree.lead_cases t request.path with hlead | ⟨hlead, hjoined⟩
  · have hempty : Path.ofSegments (t.lead request.path) = "" := by rw [hlead]; rfl
    refine ⟨t.root, _, ⟨hempty ▸ ht.reachedRoot, fun _ => rfl, by simp [hempty]⟩, ht, hpassed, ?_, ?_⟩
    · rw [hlead]
      rfl
    · exact fun hne => absurd hlead hne
  · obtain ⟨parent, hparent⟩ := Option.isSome_iff_exists.1 hjoined
    obtain ⟨e, he, hreached⟩ := ht.reached _ _ hparent
    rw [Path.segments_ofSegments_of_prefix hlead (List.take_prefix _ _)] at he
    have hempty : (Path.ofSegments (t.lead request.path)).isEmpty = false := by
      have hhead := EntityGraph.head?_ne_of_entityAlong hroot he
      simpa [Path.ofSegments_eq_empty_iff_of_head hhead] using hlead
    refine ⟨e, parent, ⟨hreached, by simp [hempty], fun _ => ?_⟩, ht, hpassed, he, fun _ => hjoined⟩
    rw [Aliases.aliasFor, hempty, if_neg (by simp), hparent]
    rfl

theorem selectFor (ht : t.Honest g) (request : JoinRequest) : (t.selectFor request).Honest g := by
  refine ⟨ht.aligned.selectFor request, ?_, ?_⟩ <;> rw [ht.aligned.selectFor_eq]
  · exact ht.reachedRoot
  · exact ht.reached

/-- A reach of an honest tree walks as far as it can, then marks its path. What holds where the walk starts
and is kept by each join that it attaches holds where it stops. -/
theorem exists_stops_of (ht : t.Honest g) (hroot : (g.entity t.root).relation? "" = none)
    (request : JoinRequest) {P : JoinTree ι → List String → String → Prop}
    (hstart : ∀ e parent, t.Starts request e parent → P t (t.lead request.path) parent)
    (hstep : ∀ u before e s rest j aliases, Strode g request t u before e (s :: rest) →
      P u before j.parent → (g.entity e).relation? s = some j.relation →
      j.path = Path.ofSegments (before ++ [s]) → j.selected = request.select →
      u.aliases.register (u.wishFor request (Path.ofSegments (before ++ [s])) rest) j.path =
        .ok (j.aliasName, aliases) →
      P (u.attached aliases j) (before ++ [s]) j.aliasName) :
    ∃ u before e parent todo walked, Strode g request t u before e todo ∧ P u before parent ∧
      Stops g request u before e todo walked ∧ (reach g request).exec t = finish request (walked, u) := by
  obtain ⟨e, parent, hstarts, hstrode⟩ := ht.exists_starts hroot request
  obtain ⟨u, before, e', parent', todo, walked, -, ⟨hstrode', hP⟩, hstops⟩ :=
    hstarts.exists_stops (g := g) ht.aligned
      (P := fun u before e parent todo => Strode g request t u before e todo ∧ P u before parent)
      ⟨hstrode, hstart e parent hstarts⟩
      fun u before e s rest j aliases _ hu hrelation hpath hselect hregister =>
        ⟨hu.1.step hroot hrelation hpath hselect hregister,
          hstep u before e s rest j aliases hu.1 hu.2 hrelation hpath hselect hregister⟩
  exact ⟨u, before, e', parent', todo, walked, hstrode', hP, hstops⟩

theorem exists_stops (ht : t.Honest g) (hroot : (g.entity t.root).relation? "" = none)
    (request : JoinRequest) : ∃ u before e todo walked, Strode g request t u before e todo ∧
      Stops g request u before e todo walked ∧ (reach g request).exec t = finish request (walked, u) := by
  obtain ⟨u, before, e, -, todo, walked, hstrode, -, hstops⟩ :=
    ht.exists_stops_of hroot request (P := fun _ _ _ => True) (fun _ _ _ => trivial)
      fun _ _ _ _ _ _ _ _ _ _ _ _ _ => trivial
  exact ⟨u, before, e, todo, walked, hstrode, hstops⟩

/-- A reach keeps a tree honest, also one that fails. On a valid path it fails only where an alias names
another path. -/
theorem exec_reach (ht : t.Honest g) (hroot : (g.entity t.root).relation? "" = none)
    (request : JoinRequest) :
    ((reach g request).exec t).2.Honest g ∧
      ((g.entityAlong t.root (Path.segments request.path)).isSome = true →
        ((reach g request).exec t).1.isOk = true ∨ ∃ aliasName existing requested,
          ((reach g request).exec t).1 =
            .error (.aliasConflict aliasName existing requested)) := by
  obtain ⟨u, before, e, todo, walked, hstrode, hstop, hrun⟩ := ht.exists_stops hroot request
  have hwhole := hstrode.passed.path
  rw [hrun]
  cases hstop with
  | arrived =>
    obtain ⟨bound, hfinish⟩ := hstrode.exists_finish
    rw [hfinish]
    exact ⟨hstrode.honest.selectFor request, fun _ => .inl rfl⟩
  | noRelation hrelation =>
    refine ⟨hstrode.honest, fun hvalid => ?_⟩
    rw [← hstrode.passed.grows.root, ← hwhole, EntityGraph.entityAlong_append, hstrode.entity,
      Option.bind_some, EntityGraph.entityAlong, hrelation] at hvalid
    cases hvalid
  | refused _ hregister =>
    obtain ⟨other, -, -, rfl⟩ := Aliases.register_eq_error hregister
    exact ⟨hstrode.honest, fun _ => .inr ⟨_, _, _, rfl⟩⟩

/-- What a successful reach comes to: its path is joined, and loaded where that is asked for. -/
structure Arrives (g : EntityGraph ι) (request : JoinRequest) (t t' : JoinTree ι) (bound : String) :
    Prop where
  honest : t'.Honest g
  grows : t.Extends t'
  bound : t'.aliases.get? request.path = some bound
  keeps : ∀ path, t.Selected path → t'.Selected path
  selected : request.select = true → t'.Selected request.path

theorem reach (ht : t.Honest g) (hroot : (g.entity t.root).relation? "" = none) {bound : String}
    (h : (JoinTree.reach g request).exec t = (.ok bound, t')) : Arrives g request t t' bound := by
  obtain ⟨u, before, e, todo, walked, hstrode, hstop, hrun⟩ := ht.exists_stops hroot request
  obtain ⟨rfl, rfl, hbound⟩ := finish_eq_ok (hrun.symm.trans h)
  obtain rfl := hstop.eq_nil
  have haligned := hstrode.honest.aligned
  have hselected := @Aligned.selected_selectFor _ _ request haligned
  constructor
  case honest => exact hstrode.honest.selectFor request
  case grows => exact hstrode.passed.grows.trans (haligned.extends_selectFor request)
  case bound => exact hbound
  case keeps => exact fun path hpath => hselected.2 (.inl (hstrode.passed.keeps path hpath))
  case selected =>
    intro hselect
    rw [haligned.aliases_selectFor] at hbound
    obtain ⟨j, hj, hpath, -⟩ := haligned.exists_of_get? hbound
    have hlead := mem_leads_self (Path.segments_ne_nil request.path)
    rw [Path.ofSegments_segments] at hlead
    exact hselected.2 (.inr ⟨mem_selecting.2 ⟨hselect, hlead⟩, j, hj, hpath⟩)

end Honest

theorem Aligned.selectFor_of_selected (ht : t.Aligned)
    (h : ∀ path ∈ selecting request, t.Selected path) : t.selectFor request = t := by
  have hmap : t.joins.map (Join.selectedAt (selecting request)) = t.joins := by
    refine (List.map_congr_left fun j hj => ?_).trans (List.map_id _)
    by_cases hpath : j.path ∈ selecting request
    · have hselected := (ht.selected_iff hj).1 (h _ hpath)
      cases j
      simp_all [Join.selectedAt]
    · simp [Join.selectedAt, hpath]
  rw [ht.selectFor_eq, hmap]

/-- A path that is joined is reached again under its alias, and nothing is joined. -/
theorem Honest.exec_reach_of_bound (ht : t.Honest g)
    (hroot : (g.entity t.root).relation? "" = none) {bound : String}
    (hbound : t.aliases.get? request.path = some bound) :
    (JoinTree.reach g request).exec t = (.ok bound, t.selectFor request) := by
  obtain ⟨e, parent, hstarts, -⟩ := ht.exists_starts hroot request
  have hpositive : 0 < (Path.segments request.path).length :=
    List.length_pos_iff.2 (Path.segments_ne_nil request.path)
  have hcontains : t.aliases.contains (Path.ofSegments ((Path.segments request.path).take
      (Path.segments request.path).length)) = true := by
    rw [List.take_length, Path.ofSegments_segments, Aliases.contains, Assoc.contains_eq_isSome]
    exact Option.isSome_iff_exists.2 ⟨bound, hbound⟩
  have hmissing : t.missing request.path = [] :=
    List.drop_eq_nil_iff.2 (le_joinedLength hpositive (Nat.le_refl _) hcontains)
  rw [hstarts.exec_reach, hmissing, extend, Step.exec_pure, finish, ht.aligned.aliases_selectFor, hbound]
  rfl

/-- A path that is joined, with its parts loaded, is reached without a change. -/
theorem Honest.exec_reach_of_selected (ht : t.Honest g)
    (hroot : (g.entity t.root).relation? "" = none) {bound : String}
    (hbound : t.aliases.get? request.path = some bound)
    (hselected : ∀ path ∈ leads (Path.segments request.path), t.Selected path) :
    (JoinTree.reach g request).exec t = (.ok bound, t) := by
  have hmarked : t.selectFor request = t := ht.aligned.selectFor_of_selected fun path hpath =>
    hselected path (mem_selecting.1 hpath).2
  rw [ht.exec_reach_of_bound hroot hbound, hmarked]

/-- Requests in turn keep a tree honest. -/
theorem Honest.answers (ht : t.Honest g) (hroot : (g.entity t.root).relation? "" = none)
    (requests : List JoinRequest) : (JoinTree.answers g requests t).2.Honest g := by
  suffices h : (JoinTree.answers g requests t).2.Honest g ∧
      (JoinTree.answers g requests t).2.root = t.root from h.1
  refine answers_induct (P := fun u => u.Honest g ∧ u.root = t.root) ?_ ⟨ht, rfl⟩
  rintro request - u ⟨hu, hsame⟩
  exact ⟨(hu.exec_reach (hsame ▸ hroot) request).1,
    (hu.aligned.exec_reach g request).2.root.trans hsame⟩

end JoinTree

end EntityQuery
