import EntityQuery.Proofs.Join.Rooted

/-! Requests that fail on the way. A path may break off at a segment that is no relation, or at one whose
alias names another path. Such a request leaves what was there as it was, adds the joins of the segments
before, and each of these hangs where it belongs, so that later requests go on from there. -/

namespace EntityQuery

variable {ι : Type} {g : EntityGraph ι}

namespace JoinTree

variable {t t' u : JoinTree ι} {request : JoinRequest}

/-- A tree in which all fits together: the joined paths are those with aliases, in the same order; a path
has an alias exactly where the alias names the path; parts of joined paths are joined; and each join
has the relation at the end of its path, hangs on the alias one segment before, and has its target
reached. -/
structure Consistent (g : EntityGraph ι) (t : JoinTree ι) : Prop where
  entries : t.aliases.entries = t.joins.map fun j => (j.path, j.aliasName)
  paths : (t.joins.map (·.path)).Nodup
  bijective : ∀ path aliasName, t.aliases.get? path = some aliasName ↔
    path ≠ "" ∧ t.aliases.boundPath? aliasName = some path
  closed : ∀ j ∈ t.joins, ∀ path ∈ leads (Path.segments j.path), path ∈ t.joins.map (·.path)
  relation : ∀ j ∈ t.joins, g.relationAlong t.root (Path.segments j.path) = some j.relation
  parent : ∀ j ∈ t.joins, t.aliases.aliasFor j.parentPath = .ok j.parent
  reached : ∀ j ∈ t.joins, Assoc.get? t.reached j.path = some j.relation.target

/-- A path has an alias where the alias names the path. -/
theorem Rooted.get?_eq_some_iff (ht : t.Rooted g) (path aliasName : String) :
    t.aliases.get? path = some aliasName ↔
      path ≠ "" ∧ t.aliases.boundPath? aliasName = some path := by
  have haligned := ht.aligned
  constructor
  · intro hget
    obtain ⟨j, hj, rfl, rfl⟩ := haligned.exists_of_get? hget
    have hne := ht.path_ne_empty hj
    refine ⟨hne, ?_⟩
    have hnodup : (t.aliases.entries.map (·.2)).Nodup := by
      rw [haligned.entries, List.map_map]
      exact haligned.names
    have hentry : (j.path, j.aliasName) ∈ t.aliases.entries := Assoc.mem_of_get? hget
    rw [Aliases.boundPath?, if_neg fun h => hne (haligned.rootAlias j hj h),
      find?_of_nodup hnodup hentry]
    rfl
  · rintro ⟨hne, hbound⟩
    unfold Aliases.boundPath? at hbound
    split at hbound
    · exact absurd (Option.some.inj hbound).symm hne
    · obtain ⟨entry, hfind, rfl⟩ := Option.map_eq_some_iff.1 hbound
      have hname : entry.2 = aliasName := by simpa using List.find?_some hfind
      have hkeys : (Assoc.keys t.aliases.entries).Nodup := haligned.keys_entries ▸ haligned.paths
      exact Assoc.get?_of_mem hkeys (hname ▸ List.mem_of_find?_eq_some hfind)

theorem Rooted.consistent (ht : t.Rooted g) : t.Consistent g where
  entries := ht.aligned.entries
  paths := ht.aligned.paths
  bijective := ht.get?_eq_some_iff
  closed _ hj _ hpath := ht.ordered.mem_paths_of_mem_leads hj hpath
  relation := ht.relation
  parent := ht.hung
  reached _ hj := (ht.reached_of_mem hj).2

/-! ### How a request fails -/

/-- A cause for a path not to be reached from a root: it breaks off at a segment, or an alias names another
path. -/
def Refusal (g : EntityGraph ι) (root : ι) (path : String) (cause : QueryError) : Prop :=
  (∃ owner s, g.Breaks root (Path.segments path) owner s ∧
    cause = .relationNotFound s (g.entity owner).name (g.entity owner).relationNames (some path)) ∨
  ∃ aliasName existing requested, cause = .aliasConflict aliasName existing requested

theorem Strode.refusal {before todo : List String} {e : ι} {cause : QueryError}
    (h : Strode g request t u before e todo)
    (hstops : Stops g request u before e todo (.error cause)) :
    Refusal g t.root request.path cause := by
  cases hstops with
  | @noRelation s rest hrelation =>
    exact .inl ⟨e, s, ⟨before, rest, h.passed.path.symm, h.passed.grows.root ▸ h.entity, hrelation⟩, rfl⟩
  | refused _ hregister =>
    obtain ⟨other, -, -, rfl⟩ := Aliases.register_eq_error hregister
    exact .inr ⟨_, _, _, rfl⟩

theorem Honest.refusal (ht : t.Honest g) (hroot : (g.entity t.root).relation? "" = none)
    {cause : QueryError} (h : ((JoinTree.reach g request).exec t).1 = .error cause) :
    Refusal g t.root request.path cause := by
  obtain ⟨u, before, e, todo, walked, hstrode, hstops, hrun⟩ := ht.exists_stops hroot request
  rw [hrun] at h
  cases walked with
  | error cause' =>
    obtain rfl := Except.error.inj h
    exact hstrode.refusal hstops
  | ok _ =>
    obtain rfl := hstops.eq_nil
    obtain ⟨bound, hfinish⟩ := hstrode.exists_finish
    rw [hfinish] at h
    cases h

/-- What a request that fails leaves: the aliases and joins that were there, then those at the parts of its
path that had none, up to the segment at which it fails. -/
structure Halted (g : EntityGraph ι) (request : JoinRequest) (t : JoinTree ι) (cause : QueryError)
    (t' : JoinTree ι) : Prop where
  refusal : Refusal g t.root request.path cause
  root : t'.root = t.root ∧ t'.aliases.root = t.aliases.root
  added : ∃ joined passed added, joined ≤ passed ∧ passed < (Path.segments request.path).length ∧
    (∀ n, 0 < n → n ≤ (Path.segments request.path).length →
      ((t.aliases.get? (Path.ofSegments ((Path.segments request.path).take n))).isSome = true ↔
        n ≤ joined)) ∧
    t'.joins = t.joins ++ added ∧
    t'.aliases.entries = t.aliases.entries ++ added.map (fun j => (j.path, j.aliasName)) ∧
    added.map (·.path) = (leads ((Path.segments request.path).take passed)).drop joined

namespace Rooted

/-- A part of a requested path has an alias where it is no longer than the lead. -/
theorem isSome_get?_take_iff (ht : t.Rooted g) (request : JoinRequest) {n : Nat} (hpos : 0 < n)
    (hn : n ≤ (Path.segments request.path).length) :
    (t.aliases.get? (Path.ofSegments ((Path.segments request.path).take n))).isSome = true ↔
      n ≤ (t.lead request.path).length := by
  constructor
  · intro hsome
    by_contra hlt
    rw [get?_eq_none_of_lead_lt (by omega) hn] at hsome
    cases hsome
  · intro hle
    rcases t.lead_cases request.path with hlead | ⟨hlead, hjoined⟩
    · rw [hlead, List.length_nil] at hle
      omega
    · have hpart : t.lead request.path <+: Path.segments request.path := List.take_prefix _ _
      obtain ⟨bound, hbound⟩ := Option.isSome_iff_exists.1 hjoined
      obtain ⟨j, hj, hpath, -⟩ := ht.aligned.exists_of_get? hbound
      refine (ht.aligned.isSome_get?_iff _).2 (ht.ordered.mem_paths_of_mem_leads hj ?_)
      rw [hpath, Path.segments_ofSegments_of_prefix hlead hpart]
      refine mem_leads.2 ⟨n, hpos, hle, ?_⟩
      rw [List.prefix_iff_eq_take.1 hpart, List.take_take, Nat.min_eq_left hle]

theorem halted (ht : t.Rooted g) (hanchors : t.Anchors request) {cause : QueryError}
    (h : (JoinTree.reach g request).exec t = (.error cause, t')) : Halted g request t cause t' := by
  obtain ⟨u, before, e, parent, todo, walked, hstrode, hgrown, hstops, hrun⟩ := ht.exists_grown hanchors
  have hrefusal := ht.toHonest.refusal ht.named (congrArg Prod.fst h)
  rw [hrun] at h
  cases walked with
  | ok _ =>
    obtain rfl := hstops.eq_nil
    obtain ⟨bound, hfinish⟩ := hstrode.exists_finish
    cases hfinish.symm.trans h
  | error cause' =>
    obtain ⟨-, rfl⟩ := Prod.mk.inj h
    obtain ⟨added, hjoins, hadded⟩ := hgrown.added
    have htodo : todo ≠ [] := by
      rintro rfl
      cases hstops
    have hshort := congrArg List.length hstrode.passed.path
    rw [List.length_append] at hshort
    have hbefore : before = (Path.segments request.path).take before.length :=
      List.prefix_iff_eq_take.1 ⟨todo, hstrode.passed.path⟩
    refine ⟨hrefusal, ⟨hstrode.passed.grows.root, hstrode.passed.grows.rootAlias⟩, _, before.length,
      added, hgrown.length, ?_, fun n => ht.isSome_get?_take_iff request, hjoins, ?_, ?_⟩
    · have := List.length_pos_iff.2 htodo
      omega
    · rw [hgrown.rooted.aligned.entries, hjoins, List.map_append, ← ht.aligned.entries]
    · rw [hadded, ← hbefore]

end Rooted

/-- After requests from a root that has no relation of the empty name, all in the tree fits together. -/
theorem consistent_answers {root : ι} (hroot : (g.entity root).relation? "" = none)
    (rootAlias : String) {requests : List JoinRequest} (hstart : ∀ request ∈ requests, request.start = none) :
    (JoinTree.answers g requests (start root rootAlias)).2.Consistent g :=
  ((rooted_start hroot rootAlias).answers hstart).consistent

/-- After any requests from a root that has no relation of the empty name, all in the tree fits together. A
request that fails does so because its path breaks off or an alias is taken; it leaves what was there and
adds the parts of its path that were missing up to where it fails, and all still fits together. No later
request finds a gap: a joined path is reached under its alias, and a valid one is reached unless an alias
is taken. -/
theorem failures_leave_consistent {root : ι} (hroot : (g.entity root).relation? "" = none)
    (rootAlias : String) {requests : List JoinRequest}
    (hstart : ∀ request ∈ requests, request.start = none) :
    (answers g requests (start root rootAlias)).2.Consistent g ∧
    (∀ request : JoinRequest, request.start = none → ∀ cause t',
      (reach g request).exec (answers g requests (start root rootAlias)).2 = (.error cause, t') →
      Halted g request (answers g requests (start root rootAlias)).2 cause t' ∧ t'.Consistent g) ∧
    ∀ request : JoinRequest,
      (∀ path, ((reach g request).exec (answers g requests (start root rootAlias)).2).1 ≠
        .error (.unboundPath path)) ∧
      (∀ bound, (answers g requests (start root rootAlias)).2.aliases.get? request.path = some bound →
        ((reach g request).exec (answers g requests (start root rootAlias)).2).1 = .ok bound) ∧
      ((g.entityAlong root (Path.segments request.path)).isSome = true →
        ((reach g request).exec (answers g requests (start root rootAlias)).2).1.isOk = true ∨
          ∃ aliasName existing requested,
            ((reach g request).exec (answers g requests (start root rootAlias)).2).1 =
              .error (.aliasConflict aliasName existing requested)) := by
  have ht := (rooted_start hroot rootAlias).answers hstart
  have hsame := (answers_root g root rootAlias requests).1
  generalize (answers g requests (start root rootAlias)).2 = t at ht hsame ⊢
  subst hsame
  refine ⟨ht.consistent, ?_, fun request => ⟨?_, ?_, ?_⟩⟩
  · intro request hnone cause t' hrun
    have hanchors := t.anchors_of_start hnone
    have ht' := ht.exec_reach hanchors
    rw [hrun] at ht'
    exact ⟨ht.halted hanchors hrun, ht'.consistent⟩
  · intro path herror
    rcases ht.toHonest.refusal hroot herror with ⟨_, _, -, hcause⟩ | ⟨_, _, _, hcause⟩ <;> cases hcause
  · intro bound hbound
    rw [ht.toHonest.exec_reach_of_bound hroot hbound]
  · exact (ht.toHonest.exec_reach hroot request).2

end JoinTree

namespace Sample

/-- Once the root of a graph has been reached again under the empty name, a request that fails further on
has joined the relation of another entity than the one that its path leads to. -/
theorem failure_behind_nameless :
    (∀ e, ∀ r ∈ (namelessGraph.entity e).relations, '.' ∉ r.name.toList) ∧
    (JoinTree.answers namelessGraph [{ path := "" }, { path := "next.bogus" }]
      (.start false "root")).1.map Except.toOption = [some "root_", none] ∧
    ∃ j ∈ (JoinTree.answers namelessGraph [{ path := "" }, { path := "next.bogus" }]
      (.start false "root")).2.joins, j.path = "next" ∧ j.parent = "root" ∧
      j.relation.target = true ∧
      (namelessGraph.relationAlong false (Path.segments j.path)).map (·.target) = some false := by
  decide +kernel

/-- The first request has posts joined when it breaks off; the second one goes on from there. -/
theorem failures_leave_consistent_retries :
    ((mapping.graph fun _ => true).entity "User").relation? "" = none ∧
    (∀ request ∈ retries, request.start = none) ∧
    (JoinTree.answers (mapping.graph fun _ => true) retries (.start "User" "user")).2.joins.map
      (fun j => (j.path, j.parent)) = [("posts", "user"), ("posts.author", "user_posts")] ∧
    (JoinTree.answers (mapping.graph fun _ => true) retries (.start "User" "user")).2.Consistent
      (mapping.graph fun _ => true) :=
  ⟨rfl, by simp [retries], by decide +kernel,
    (JoinTree.failures_leave_consistent rfl "user" (by simp [retries])).1⟩

end Sample

end EntityQuery
