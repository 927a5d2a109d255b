import EntityQuery.Proofs.Join.Honest

/-! Aliases made from paths. Dots become underlines there, so that different paths can be made into one
alias. Requests that ask for no aliases fall into conflict where they pass two such paths, and only
there; no two joins ever share an alias. -/

namespace EntityQuery

variable {ι : Type} {g : EntityGraph ι}

/-- A path with underlines for its dots. -/
def Path.flat (path : String) : String := path.map fun c => if c = '.' then '_' else c

theorem Path.toList_flat (path : String) :
    (flat path).toList = path.toList.map fun c => if c = '.' then '_' else c :=
  String.toList_map

theorem Path.length_flat (path : String) : (flat path).length = path.length := by
  rw [← String.length_toList, ← String.length_toList, toList_flat, List.length_map]

/-- Paths without underlines can be told apart when they are flattened. -/
theorem Path.flat_inj {p q : String} (hp : '_' ∉ p.toList) (hq : '_' ∉ q.toList)
    (h : flat p = flat q) : p = q := by
  have hback : ∀ {path : String}, '_' ∉ path.toList →
      (flat path).toList.map (fun c => if c = '_' then '.' else c) = path.toList := by
    intro path hpath
    rw [toList_flat, List.map_map]
    refine (List.map_congr_left fun c hc => ?_).trans (List.map_id _)
    have hne : c ≠ '_' := fun heq => hpath (heq ▸ hc)
    by_cases hdot : c = '.' <;> simp [hdot, hne]
  apply String.toList_inj.1
  rw [← hback hp, ← hback hq, h]

namespace Aliases

theorem synthesize_eq_iff (a : Aliases) (p q : String) :
    a.synthesize p = a.synthesize q ↔ Path.flat p = Path.flat q :=
  String.append_right_inj _

end Aliases

/-- Two different parts of requested paths are made into one alias. -/
def Collide (requests : List JoinRequest) : Prop :=
  ∃ p q, p ≠ q ∧ Path.flat p = Path.flat q ∧ (∃ request ∈ requests, request.Passes p) ∧
    ∃ request ∈ requests, request.Passes q

/-- Some answer is that an alias names another path. -/
def Conflict (answers : List (Except QueryError String)) : Prop :=
  ∃ aliasName existing requested, .error (.aliasConflict aliasName existing requested) ∈ answers

namespace JoinTree

variable {t t' u : JoinTree ι} {request : JoinRequest} {requests : List JoinRequest}

/-- A tree whose aliases are all made from the paths that requests pass. -/
structure Plain (requests : List JoinRequest) (t : JoinTree ι) : Prop where
  aligned : t.Aligned
  made : ∀ path aliasName, t.aliases.get? path = some aliasName →
    aliasName = t.aliases.synthesize path ∧ ∃ request ∈ requests, request.Passes path

theorem plain_start (requests : List JoinRequest) (root : ι) (aliasName : String) :
    (start root aliasName).Plain requests :=
  ⟨aligned_start root aliasName, fun _ _ h => by cases h⟩

namespace Plain

theorem passed (h : t.Plain requests) (hrequest : request ∈ requests)
    (hunnamed : request.aliasName = none) {before todo : List String}
    (hp : Passed request t u before todo) : u.Plain requests := by
  refine ⟨hp.aligned, fun path aliasName hget => ?_⟩
  rw [Aliases.synthesize_congr hp.grows.rootAlias]
  rcases hp.added path aliasName hget with hget | ⟨hlead, rfl⟩
  · exact h.made path aliasName hget
  · have hpart : before <+: Path.segments request.path := ⟨todo, hp.path⟩
    refine ⟨?_, request, hrequest, leads_subset_of_prefix hpart hlead⟩
    rw [JoinRequest.wish, hunnamed]
    simp [nonEmpty?]

theorem selectFor (h : t.Plain requests) (request : JoinRequest) :
    (t.selectFor request).Plain requests := by
  refine ⟨h.aligned.selectFor request, ?_⟩
  rw [h.aligned.selectFor_eq]
  exact h.made

/-- The path that an alias names which was made from a path. -/
theorem flat_eq_of_boundPath? (h : t.Plain requests) {path other : String}
    (hother : t.aliases.boundPath? (t.aliases.synthesize path) = some other) :
    Path.flat path = Path.flat other ∧ ∃ request ∈ requests, request.Passes other := by
  rw [Aliases.boundPath?, if_neg (t.aliases.synthesize_ne_root path), Option.map_eq_some_iff] at hother
  obtain ⟨entry, hfind, rfl⟩ := hother
  have hmem := List.mem_of_find?_eq_some hfind
  have hname : entry.2 = t.aliases.synthesize path := by simpa using List.find?_some hfind
  rw [h.aligned.entries, List.mem_map] at hmem
  obtain ⟨j, hj, rfl⟩ := hmem
  obtain ⟨hmade, hpasses⟩ := h.made j.path j.aliasName (h.aligned.get?_of_mem hj)
  exact ⟨(t.aliases.synthesize_eq_iff path j.path).1 (hname.symm.trans hmade), hpasses⟩

/-- A request keeps a tree plain, also one that fails; it finds a conflict only where requests
collide. -/
theorem exec_reach (h : t.Plain requests) (hrequest : request ∈ requests)
    (hunnamed : request.aliasName = none) :
    ((reach g request).exec t).2.Plain requests ∧
      ∀ aliasName existing requested, ((reach g request).exec t).1 =
        .error (.aliasConflict aliasName existing requested) → Collide requests := by
  rcases exists_starts_or_unbound g request t with ⟨e, parent, hstarts⟩ | ⟨path, hunbound⟩
  · obtain ⟨u, before, e', _, todo, walked, hpassed, -, hstop, hrun⟩ :=
      hstarts.exists_stops (g := g) h.aligned (P := fun _ _ _ _ _ => True) trivial
        fun _ _ _ _ _ _ _ _ _ _ _ _ _ => trivial
    rw [hrun]
    have hu := h.passed hrequest hunnamed hpassed
    cases hstop with
    | arrived =>
      refine ⟨hu.selectFor request, fun _ _ _ hanswer => ?_⟩
      rw [finish] at hanswer
      cases hget : (u.selectFor request).aliases.get? request.path <;> rw [hget] at hanswer <;>
        cases hanswer
    | noRelation hrelation => exact ⟨hu, fun _ _ _ hanswer => by cases hanswer⟩
    | @refused s rest _ cause _ hregister =>
      refine ⟨hu, fun _ _ _ _ => ?_⟩
      obtain ⟨other, hother, hne, -⟩ := Aliases.register_eq_error hregister
      have hwish : u.wishFor request (Path.ofSegments (before ++ [s])) rest =
          u.aliases.synthesize (Path.ofSegments (before ++ [s])) := by
        rw [wishFor, hunnamed]
        simp [nonEmpty?]
      rw [hwish] at hother
      obtain ⟨hflat, hpasses⟩ := hu.flat_eq_of_boundPath? hother
      have hlead := leads_subset_of_prefix (prefix_of_append_cons hpassed.path)
        (mem_leads_self (by simp))
      exact ⟨_, other, hne.symm, hflat, ⟨request, hrequest, hlead⟩, hpasses⟩
  · rw [hunbound]
    exact ⟨h, fun _ _ _ hanswer => by cases hanswer⟩

theorem imp {requests' : List JoinRequest} (h : t.Plain requests)
    (hpass : ∀ path, (∃ request ∈ requests, request.Passes path) →
      ∃ request ∈ requests', request.Passes path) : t.Plain requests' :=
  ⟨h.aligned, fun path aliasName hget => (h.made path aliasName hget).imp_right (hpass path)⟩

/-- What a request does to a plain tree depends on the path that it is for. -/
theorem exec_reach_of_passes (h : t.Plain requests) (hunnamed : request.aliasName = none)
    (hpass : ∀ path, request.Passes path → ∃ request ∈ requests, request.Passes path) :
    ((reach g request).exec t).2.Plain requests ∧
      ∀ aliasName existing requested, ((reach g request).exec t).1 =
        .error (.aliasConflict aliasName existing requested) → Collide requests := by
  have hback : ∀ path, (∃ r ∈ request :: requests, r.Passes path) →
      ∃ r ∈ requests, r.Passes path := by
    simp only [List.exists_mem_cons_iff]
    exact fun path hpasses => hpasses.elim (hpass path) id
  have hmore := h.imp fun path ⟨r, hr, hpasses⟩ => ⟨r, List.mem_cons_of_mem request hr, hpasses⟩
  obtain ⟨hplain, hconflict⟩ := hmore.exec_reach (g := g) List.mem_cons_self hunnamed
  refine ⟨hplain.imp hback, fun aliasName existing requested herror => ?_⟩
  obtain ⟨p, q, hne, hflat, hp, hq⟩ := hconflict aliasName existing requested herror
  exact ⟨p, q, hne, hflat, hback p hp, hback q hq⟩

end Plain

/-- Every answer has a property that each request secures, along with what it keeps. -/
theorem answers_forall {P : JoinTree ι → Prop} {Q : Except QueryError String → Prop}
    {requests : List JoinRequest} (hstep : ∀ request ∈ requests, ∀ t, P t →
      P ((reach g request).exec t).2 ∧ Q ((reach g request).exec t).1)
    {t : JoinTree ι} (h₀ : P t) : ∀ answer ∈ (answers g requests t).1, Q answer := by
  induction requests generalizing t with
  | nil => exact fun _ h => by cases h
  | cons request rest ih =>
    obtain ⟨hnext, hanswer⟩ := hstep request List.mem_cons_self t h₀
    rw [answers_cons, List.forall_mem_cons]
    exact ⟨hanswer, ih (fun request hrequest => hstep request (List.mem_cons_of_mem _ hrequest)) hnext⟩

/-- Valid paths are all reached, unless some request finds a conflict. -/
theorem isOk_or_conflict {root : ι} (hnamed : (g.entity root).relation? "" = none) (rootAlias : String)
    (hvalid : ∀ request ∈ requests,
      (g.entityAlong root (Path.segments request.path)).isSome = true) :
    (∀ answer ∈ (answers g requests (start root rootAlias)).1, answer.isOk = true) ∨
      Conflict (answers g requests (start root rootAlias)).1 := by
  have hcases : ∀ answer ∈ (answers g requests (start root rootAlias)).1, answer.isOk = true ∨
      ∃ aliasName existing requested,
        answer = .error (.aliasConflict aliasName existing requested) := by
    refine answers_forall (P := fun t => t.Honest g ∧ t.root = root) ?_
      ⟨honest_start g root rootAlias, rfl⟩
    rintro request hrequest t ⟨ht, rfl⟩
    obtain ⟨hhonest, hcases⟩ := ht.exec_reach hnamed request
    exact ⟨⟨hhonest, (ht.aligned.exec_reach g request).2.root⟩, hcases (hvalid request hrequest)⟩
  rw [or_iff_not_imp_right]
  intro hnone answer hanswer
  refine (hcases answer hanswer).resolve_right ?_
  rintro ⟨aliasName, existing, requested, rfl⟩
  exact hnone ⟨aliasName, existing, requested, hanswer⟩

section Runs

variable (hplain : ∀ request ∈ requests, request.start = none ∧ request.aliasName = none)
  (g : EntityGraph ι) (root : ι) (rootAlias : String)

include hplain

theorem plain_answers : (answers g requests (start root rootAlias)).2.Plain requests := by
  apply answers_induct _ (plain_start requests root rootAlias)
  exact fun request hrequest t ht => (ht.exec_reach hrequest (hplain request hrequest).2).1

theorem collide_of_conflict (h : Conflict (answers g requests (start root rootAlias)).1) :
    Collide requests := by
  obtain ⟨aliasName, existing, requested, hmem⟩ := h
  refine answers_forall (P := Plain requests) (Q := fun answer => ∀ aliasName existing requested,
    answer = .error (.aliasConflict aliasName existing requested) → Collide requests) ?_
    (plain_start requests root rootAlias) _ hmem _ _ _ rfl
  exact fun request hrequest t ht => ht.exec_reach hrequest (hplain request hrequest).2

/-- Where all requests succeed, two parts made into one alias would be joined under it. -/
theorem not_collide_of_isOk
    (h : ∀ answer ∈ (answers g requests (start root rootAlias)).1, answer.isOk = true) :
    ¬ Collide requests := by
  rintro ⟨p, q, hne, hflat, hp, hq⟩
  obtain ⟨bounds, hbounds⟩ := Except.exists_eq_map_ok h
  have hrun : answers g requests (start root rootAlias) = (bounds.map .ok, _) := Prod.ext hbounds rfl
  have hsettled := (answers_settled (fun request hr => (hplain request hr).1) hrun).1
  have hunnamed : ∀ request ∈ requests, nonEmpty? request.aliasName = none := by
    intro request hrequest
    rw [(hplain request hrequest).2]
    rfl
  have hgetp := (hsettled.aliases p).trans (Aliases.settled_of_unnamed _ hunnamed hp)
  have hgetq := (hsettled.aliases q).trans (Aliases.settled_of_unnamed _ hunnamed hq)
  obtain ⟨j, hj, rfl, hjname⟩ := hsettled.aligned.exists_of_get? hgetp
  obtain ⟨k, hk, rfl, hkname⟩ := hsettled.aligned.exists_of_get? hgetq
  apply hne
  rw [← hsettled.aligned.path_eq_iff hj hk, hjname, hkname, Aliases.synthesize_eq_iff]
  exact hflat

end Runs

theorem not_collide_of_not_mem (h : ∀ request ∈ requests, '_' ∉ request.path.toList) :
    ¬ Collide requests := by
  have hparts : ∀ {path : String}, (∃ request ∈ requests, request.Passes path) →
      '_' ∉ path.toList := by
    rintro path ⟨request, hrequest, hpass⟩ hmem
    obtain ⟨n, -, -, rfl⟩ := mem_leads.1 hpass
    exact h request hrequest (Path.mem_of_mem_ofSegments_take hmem)
  rintro ⟨p, q, hne, hflat, hp, hq⟩
  exact hne (Path.flat_inj (hparts hp) (hparts hq) hflat)

/-- The parts of one path have different lengths, so that no two are made into one alias. -/
theorem not_collide_singleton (request : JoinRequest) : ¬ Collide [request] := by
  rintro ⟨p, q, hne, hflat, ⟨_, hmem, hp⟩, _, hmem', hq⟩
  obtain rfl := List.mem_singleton.1 hmem
  obtain rfl := List.mem_singleton.1 hmem'
  have hlength := congrArg String.length hflat
  rw [Path.length_flat, Path.length_flat] at hlength
  exact hne (eq_of_mem_leads_of_length_eq hp hq hlength)

/-- A valid path is reached where nothing is joined yet. -/
theorem exists_reach_start {root : ι} (hnamed : (g.entity root).relation? "" = none)
    (rootAlias : String) (hunnamed : request.aliasName = none)
    (hvalid : (g.entityAlong root (Path.segments request.path)).isSome = true) :
    ∃ bound t, (reach g request).exec (start root rootAlias) = (.ok bound, t) := by
  rcases hrun : (reach g request).exec (start root rootAlias) with ⟨cause | bound, t⟩
  · have hcases := ((honest_start g root rootAlias).exec_reach hnamed request).2 hvalid
    rw [hrun] at hcases
    rcases hcases with hok | ⟨aliasName, existing, requested, hconflict⟩
    · cases hok
    · have hplain := plain_start [request] root rootAlias
      have hcollide := (hplain.exec_reach (g := g) List.mem_cons_self hunnamed).2
      rw [hrun] at hcollide
      exact absurd (hcollide _ _ _ hconflict) (not_collide_singleton request)
  · exact ⟨bound, t, rfl⟩

/-- Requests that ask for no aliases and walk from the root: a conflict shows that they collide, and
requests that collide do not all succeed. The aliases of joins differ from each other and from the root's
in any case. Where no relation of the root has the empty name and the paths are valid, nothing but a
conflict goes wrong, so that some request finds a conflict exactly where they collide. Paths without
underlines never do. -/
theorem conflicts_of_flattening (g : EntityGraph ι) (root : ι) (rootAlias : String)
    {requests : List JoinRequest}
    (hplain : ∀ request ∈ requests, request.start = none ∧ request.aliasName = none) :
    (Conflict (answers g requests (start root rootAlias)).1 → Collide requests) ∧
    ((∀ answer ∈ (answers g requests (start root rootAlias)).1, answer.isOk = true) →
      ¬ Collide requests) ∧
    (∀ j ∈ (answers g requests (start root rootAlias)).2.joins,
      j.aliasName ≠ rootAlias ∧
      ∀ k ∈ (answers g requests (start root rootAlias)).2.joins,
        j.path ≠ k.path → j.aliasName ≠ k.aliasName) ∧
    ((g.entity root).relation? "" = none →
      (∀ request ∈ requests, (g.entityAlong root (Path.segments request.path)).isSome = true) →
      ((∀ answer ∈ (answers g requests (start root rootAlias)).1, answer.isOk = true) ∨
        Conflict (answers g requests (start root rootAlias)).1) ∧
      (Conflict (answers g requests (start root rootAlias)).1 ↔ Collide requests)) ∧
    ((∀ request ∈ requests, '_' ∉ request.path.toList) → ¬ Collide requests) := by
  have ht := plain_answers hplain g root rootAlias
  have hroot := (answers_root g root rootAlias requests).2
  refine ⟨collide_of_conflict hplain g root rootAlias, not_collide_of_isOk hplain g root rootAlias,
    fun j hj => ⟨?_, fun k hk hne hname => ?_⟩, fun hnamed hvalid => ?_, not_collide_of_not_mem⟩
  · have hmade := (ht.made j.path j.aliasName (ht.aligned.get?_of_mem hj)).1
    have hne := Aliases.synthesize_ne_root
      (answers g requests (start root rootAlias)).2.aliases j.path
    rw [← hmade, hroot] at hne
    exact hne
  · exact hne ((ht.aligned.path_eq_iff hj hk).1 hname)
  · have hor := isOk_or_conflict hnamed rootAlias hvalid
    refine ⟨hor, collide_of_conflict hplain g root rootAlias, fun hcollide => ?_⟩
    exact hor.resolve_left fun hok => not_collide_of_isOk hplain g root rootAlias hok hcollide

end JoinTree

namespace Sample

/-- An entity with relations to itself, one of them under the flattened path of two others. -/
def underlinedGraph : EntityGraph Unit where
  entity _ := ⟨"Root", [], [], [⟨"a", (), false⟩, ⟨"b", (), false⟩, ⟨"a_b", (), false⟩]⟩

/-- The path of `b` behind `a`, then `a_b`. -/
def underlined : List JoinRequest := [{ path := "a.b" }, { path := "a_b" }]

theorem underlined_collide : Collide underlined :=
  ⟨"a.b", "a_b", by decide, by decide +kernel, ⟨{ path := "a.b" }, by simp [underlined],
    by decide +kernel⟩, { path := "a_b" }, by simp [underlined], by decide +kernel⟩

theorem conflicts_of_flattening_underlined :
    (∀ request ∈ underlined, request.start = none ∧ request.aliasName = none) ∧
    (∀ request ∈ underlined,
      (underlinedGraph.entityAlong () (Path.segments request.path)).isSome = true) ∧
    Conflict (JoinTree.answers underlinedGraph underlined (.start () "root")).1 := by
  have hplain : ∀ request ∈ underlined, request.start = none ∧ request.aliasName = none := by
    simp [underlined]
  have hvalid : ∀ request ∈ underlined,
      (underlinedGraph.entityAlong () (Path.segments request.path)).isSome = true := by decide +kernel
  have hconflicts := JoinTree.conflicts_of_flattening underlinedGraph () "root" hplain
  exact ⟨hplain, hvalid, (hconflicts.2.2.2.1 rfl hvalid).2.2 underlined_collide⟩

end Sample

end EntityQuery
