import EntityQuery.Proofs.Join.Failures

/-! What requests come to that all succeed. The tree after them can be told from the requests alone, and
where none asks for an alias their order makes no difference. -/

namespace EntityQuery

variable {ι : Type} {g : EntityGraph ι}

namespace JoinTree

variable {t t' : JoinTree ι}

namespace Settled

variable {requests requests' : List JoinRequest}
  (h : t.Settled requests) (h' : t'.Settled requests')
  (hmem : ∀ request, request ∈ requests ↔ request ∈ requests')
  (hunnamed : ∀ request ∈ requests, nonEmpty? request.aliasName = none)
  (hroot : t.aliases.root = t'.aliases.root)

include h h' hmem hunnamed hroot

theorem get?_eq (path : String) : t.aliases.get? path = t'.aliases.get? path := by
  have hunnamed' : ∀ request ∈ requests', nonEmpty? request.aliasName = none :=
    fun request hrequest => hunnamed request ((hmem request).2 hrequest)
  rw [h.aliases, h'.aliases]
  by_cases hpass : ∃ request ∈ requests, request.Passes path
  · have hpass' : ∃ request ∈ requests', request.Passes path := by simpa only [← hmem] using hpass
    rw [Aliases.settled_of_unnamed _ hunnamed hpass, Aliases.settled_of_unnamed _ hunnamed' hpass',
      Aliases.synthesize_congr hroot]
  · have hpass' : ¬ ∃ request ∈ requests', request.Passes path := by simpa only [← hmem] using hpass
    rw [← Aliases.isSome_settled_iff t.aliases, Bool.not_eq_true, Option.isSome_eq_false_iff,
      Option.isNone_iff_eq_none] at hpass
    rw [← Aliases.isSome_settled_iff t'.aliases, Bool.not_eq_true, Option.isSome_eq_false_iff,
      Option.isNone_iff_eq_none] at hpass'
    rw [hpass, hpass']

/-- The join at a path has the same alias and mark after requests in another order. -/
theorem exists_join {j : Join ι} (hj : j ∈ t.joins) :
    ∃ k ∈ t'.joins, k.path = j.path ∧ k.aliasName = j.aliasName ∧ k.selected = j.selected := by
  have hget := h.aligned.get?_of_mem hj
  rw [get?_eq h h' hmem hunnamed hroot] at hget
  obtain ⟨k, hk, hpath, hname⟩ := h'.aligned.exists_of_get? hget
  refine ⟨k, hk, hpath, hname, ?_⟩
  rw [Bool.eq_iff_iff, ← h'.aligned.selected_iff hk, ← h.aligned.selected_iff hj, hpath, h.selected,
    h'.selected]
  simp only [hmem]

theorem mem_entries {entry : String × String × Bool}
    (hentry : entry ∈ t.joins.map fun j => (j.path, j.aliasName, j.selected)) :
    entry ∈ t'.joins.map fun j => (j.path, j.aliasName, j.selected) := by
  obtain ⟨j, hj, rfl⟩ := List.mem_map.1 hentry
  obtain ⟨k, hk, hpath, hname, hselected⟩ := exists_join h h' hmem hunnamed hroot hj
  exact List.mem_map.2 ⟨k, hk, by rw [hpath, hname, hselected]⟩

/-- In trees in which all fits together the whole join is the same. -/
theorem mem_joins (ht : t.Consistent g) (ht' : t'.Consistent g) (hentity : t.root = t'.root)
    {j : Join ι} (hj : j ∈ t.joins) : j ∈ t'.joins := by
  obtain ⟨k, hk, hpath, hname, hselected⟩ := exists_join h h' hmem hunnamed hroot hj
  have hparent : j.parent = k.parent := by
    have hsame : t.aliases.aliasFor j.parentPath = t'.aliases.aliasFor k.parentPath := by
      rw [Aliases.aliasFor, Aliases.aliasFor, Join.parentPath, Join.parentPath, hpath, hroot,
        get?_eq h h' hmem hunnamed hroot]
    rw [ht.parent j hj, ht'.parent k hk] at hsame
    exact Except.ok.inj hsame
  have hrelation : j.relation = k.relation := by
    have hk' := ht'.relation k hk
    rw [hpath, ← hentity, ht.relation j hj] at hk'
    exact Option.some.inj hk'
  have hsame : j = k := by
    cases j
    cases k
    simp_all
  exact hsame ▸ hk

end Settled

/-- After requests that all succeed, in a tree that starts without joins: the parts of the requested paths
are joined, each once; a path is selected where a request that passes it asks for that; its alias is what
the first request that passes it wishes for, and does not change when more requests follow; joins come
after those they depend on; each request is given the alias of its path. Where no request asks for an
alias, other requests with the same members make joins of the same paths, with the same aliases and
marks, and from a root that has no relation of the empty name the same joins altogether. -/
theorem requests_settle (g : EntityGraph ι) (root : ι) (rootAlias : String)
    {requests : List JoinRequest} (hstart : ∀ request ∈ requests, request.start = none)
    {bounds : List String} {t : JoinTree ι}
    (h : answers g requests (start root rootAlias) = (bounds.map .ok, t)) :
    (t.joins.map (·.path)).Nodup ∧
    (∀ path, path ∈ t.joins.map (·.path) ↔ ∃ request ∈ requests, request.Passes path) ∧
    (∀ path, t.Selected path ↔
      ∃ request ∈ requests, request.select = true ∧ request.Passes path) ∧
    (∀ j ∈ t.joins, (Aliases.start rootAlias).settled requests j.path = some j.aliasName) ∧
    (∀ earlier later, requests = earlier ++ later →
      ∀ j ∈ (answers g earlier (start root rootAlias)).2.joins,
        ∃ k ∈ t.joins, k.path = j.path ∧ k.aliasName = j.aliasName) ∧
    t.Ordered ∧
    List.Forall₂ (fun request bound => ∃ j ∈ t.joins, j.path = request.path ∧ j.aliasName = bound)
      requests bounds ∧
    ∀ (requests' : List JoinRequest) (bounds' : List String) (t' : JoinTree ι),
      (∀ request, request ∈ requests ↔ request ∈ requests') →
      (∀ request ∈ requests, nonEmpty? request.aliasName = none) →
      answers g requests' (start root rootAlias) = (bounds'.map .ok, t') →
      (∀ entry, entry ∈ t.joins.map (fun j => (j.path, j.aliasName, j.selected)) ↔
        entry ∈ t'.joins.map fun j => (j.path, j.aliasName, j.selected)) ∧
      ((g.entity root).relation? "" = none → ∀ j, j ∈ t.joins ↔ j ∈ t'.joins) := by
  obtain ⟨hsettled, hbounds⟩ := answers_settled hstart h
  have halone := aligned_start root rootAlias
  have hroot := answers_root g root rootAlias requests
  rw [h] at hroot
  refine ⟨hsettled.aligned.paths, hsettled.joined, hsettled.selected, ?_, ?_, hsettled.ordered, ?_, ?_⟩
  · intro j hj
    rw [Aliases.settled_congr (b := t.aliases) hroot.2.symm, ← hsettled.aliases]
    exact hsettled.aligned.get?_of_mem hj
  · rintro earlier later rfl j hj
    have hearlier := halone.answers g earlier
    have hgrows := (hearlier.1.answers g later).2
    rw [answers_append] at h
    rw [(Prod.mk.inj h).2] at hgrows
    exact hsettled.aligned.exists_of_get? (hgrows.get? (hearlier.1.get?_of_mem hj))
  · exact hbounds.imp fun _ _ hget => hsettled.aligned.exists_of_get? hget
  · intro requests' bounds' t' hmem hunnamed h'
    have hmem' := fun request => (hmem request).symm
    have hstart' : ∀ request ∈ requests', request.start = none :=
      fun request hrequest => hstart request ((hmem' request).1 hrequest)
    have hunnamed' : ∀ request ∈ requests', nonEmpty? request.aliasName = none :=
      fun request hrequest => hunnamed request ((hmem' request).1 hrequest)
    have hsettled' := (answers_settled hstart' h').1
    have hroot' := answers_root g root rootAlias requests'
    rw [h'] at hroot'
    have hsame := hroot.2.trans hroot'.2.symm
    constructor
    · exact fun entry => ⟨hsettled.mem_entries hsettled' hmem hunnamed hsame,
        hsettled'.mem_entries hsettled hmem' hunnamed' hsame.symm⟩
    · intro hnamed j
      have hconsistent := consistent_answers hnamed rootAlias hstart
      have hconsistent' := consistent_answers hnamed rootAlias hstart'
      rw [h] at hconsistent
      rw [h'] at hconsistent'
      have hentity := hroot.1.trans hroot'.1.symm
      exact ⟨hsettled.mem_joins hsettled' hmem hunnamed hsame hconsistent hconsistent' hentity,
        hsettled'.mem_joins hsettled hmem' hunnamed' hsame.symm hconsistent' hconsistent
          hentity.symm⟩

end JoinTree

namespace Sample

/-- A relation without a name takes the place of the root, whose path is empty too: requests made after it
walk from its target. -/
theorem nameless_requests_depend_on_order :
    (∀ e, ∀ r ∈ (namelessGraph.entity e).relations, '.' ∉ r.name.toList) ∧
    (JoinTree.answers namelessGraph [{ path := "" }, { path := "next" }]
      (.start false "root")).1.map Except.toOption = [some "root_", some "root_next"] ∧
    (JoinTree.answers namelessGraph [{ path := "next" }, { path := "" }]
      (.start false "root")).1.map Except.toOption = [some "root_next", some "root_"] ∧
    ∃ j ∈ (JoinTree.answers namelessGraph [{ path := "" }, { path := "next" }]
        (.start false "root")).2.joins,
      ∀ k ∈ (JoinTree.answers namelessGraph [{ path := "next" }, { path := "" }]
        (.start false "root")).2.joins,
        k.path = j.path → k.relation.target ≠ j.relation.target := by
  decide +kernel

/-- Comments of posts to load, posts under a name that comes too late, and a profile under one. -/
def visits : List JoinRequest :=
  [{ path := "posts.comments", select := true }, { path := "posts", aliasName := some "p" },
    { path := "profile", aliasName := some "x" }]

theorem requests_settle_visits :
    (∀ request ∈ visits, request.start = none) ∧
    (JoinTree.answers (mapping.graph fun _ => true) visits (.start "User" "user")).1.map
      Except.toOption = ["user_posts_comments", "user_posts", "x"].map some ∧
    ∀ path, (JoinTree.answers (mapping.graph fun _ => true) visits (.start "User" "user")).2.Selected
      path ↔ ∃ request ∈ visits, request.select = true ∧ request.Passes path := by
  have hstart : ∀ request ∈ visits, request.start = none := by simp [visits]
  have hrun : (JoinTree.answers (mapping.graph fun _ => true) visits (.start "User" "user")).1.map
      Except.toOption = ["user_posts_comments", "user_posts", "x"].map some := by decide +kernel
  have hsettle := JoinTree.requests_settle (mapping.graph fun _ => true) "User" "user" hstart
    (JoinTree.answers_eq_of_toOption hrun)
  exact ⟨hstart, hrun, hsettle.2.2.1⟩

end Sample

end EntityQuery
