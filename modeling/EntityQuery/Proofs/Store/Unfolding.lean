import EntityQuery.Proofs.Store.Combination

/-! What a query means apart from its plans. An unfolding of a record gives a record, or none, for every
path from it, each step as a left join finds it. The combinations of a plan are the unfoldings, cut down
to the paths that the plan joins; hence plans that join different paths show the same records. -/

namespace EntityQuery

variable {ι : Type}

/-! ### Chains of paths -/

namespace Path

/-- The segments of a path; the empty path has none. -/
def chain (path : String) : List String := if path = "" then [] else segments path

theorem ofSegments_chain (path : String) : ofSegments (chain path) = path := by
  unfold chain
  split
  · next hempty =>
    rw [hempty]
    rfl
  · exact ofSegments_segments path

theorem chain_ofSegments {segs : List String} (h : ∀ s ∈ segs, IsSegment s) :
    chain (ofSegments segs) = segs := by
  unfold chain
  split
  · next hempty => exact ((ofSegments_eq_empty_iff h).1 hempty).symm
  · next hne =>
    have hsegs : segs ≠ [] := fun hnil => hne ((ofSegments_eq_empty_iff h).2 hnil)
    exact segments_ofSegments hsegs fun s hs => (h s hs).2

end Path

namespace EntityGraph

variable {g : EntityGraph ι}

/-- The entity at a path from `e`. -/
def entityOn (g : EntityGraph ι) (e : ι) (path : String) : ι :=
  (g.entityAlong e (Path.chain path)).getD e

theorem entityOn_ofSegments (hg : g.DotFree) {e e' : ι} {segs : List String}
    (h : g.entityAlong e segs = some e') : g.entityOn e (Path.ofSegments segs) = e' := by
  rw [entityOn, Path.chain_ofSegments (hg.isSegment_of_entityAlong h), h]
  rfl

end EntityGraph

/-! ### Unfoldings -/

section Unfoldings

variable (m : Mapping ι) (db : Database ι) (g : EntityGraph ι) (e : ι)

/-- What a left join along a relation may find for the record of its parent. -/
def Finds (owner : ι) (relation : String) (parent : Option Record) : Option Record → Prop
  | some t => ∃ r, parent = some r ∧ QueryPlan.Links m db owner relation r t
  | none => ∀ r t, parent = some r → ¬ QueryPlan.Links m db owner relation r t

theorem exists_finds (owner : ι) (relation : String) (parent : Option Record) :
    ∃ found, Finds m db owner relation parent found := by
  by_cases h : ∃ r t, parent = some r ∧ QueryPlan.Links m db owner relation r t
  · obtain ⟨r, t, hparent, hlinks⟩ := h
    exact ⟨some t, r, hparent, hlinks⟩
  · exact ⟨none, fun r t hparent hlinks => h ⟨r, t, hparent, hlinks⟩⟩

/-- What left joins find for one record is the same, none or some, unless they find different records. -/
theorem Finds.eq {m : Mapping ι} {db : Database ι} {owner : ι} {relation : String}
    {parent found found' : Option Record} (h : Finds m db owner relation parent found)
    (h' : Finds m db owner relation parent found')
    (hone : ∀ t t', found = some t → found' = some t' → t = t') : found = found' := by
  cases found with
  | none =>
    cases found' with
    | none => rfl
    | some t' =>
      obtain ⟨r, hr, hlinks⟩ := h'
      exact absurd hlinks (h r t' hr)
  | some t =>
    cases found' with
    | none =>
      obtain ⟨r, hr, hlinks⟩ := h
      exact absurd hlinks (h' r t hr)
    | some t' => rw [hone t t' rfl rfl]

/-- One of the records that a left join may find. -/
noncomputable def someFound (owner : ι) (relation : String) (parent : Option Record) : Option Record :=
  (exists_finds m db owner relation parent).choose

theorem finds_someFound (owner : ι) (relation : String) (parent : Option Record) :
    Finds m db owner relation parent (someFound m db owner relation parent) :=
  (exists_finds m db owner relation parent).choose_spec

/-- Records for the paths from an entity as left joins along its relations find them. -/
structure Unfolds (records : String → Option Record) : Prop where
  root : ∃ r ∈ db e, records "" = some r
  steps : ∀ segs s owner relation, g.entityAlong e segs = some owner →
    (g.entity owner).relation? s = some relation →
      Finds m db owner s (records (Path.ofSegments segs)) (records (Path.ofSegments (segs ++ [s])))

open Classical in
/-- Records that are given at some paths, continued along chains of relations, whose last segment comes
first. -/
noncomputable def continued (known : Set String) (given : String → Option Record) :
    List String → Option Record
  | [] => given ""
  | s :: rest =>
    let path := Path.ofSegments (rest.reverse ++ [s])
    if path ∈ known then given path
    else someFound m db ((g.entityAlong e rest.reverse).getD e) s (continued known given rest)

variable {m db g e}

theorem continued_of_mem {known : Set String} {given : String → Option Record} {segs : List String}
    (h : segs = [] ∨ Path.ofSegments segs ∈ known) :
    continued m db g e known given segs.reverse = given (Path.ofSegments segs) := by
  rcases List.eq_nil_or_concat segs with rfl | ⟨segs, s, rfl⟩
  · rfl
  · have hmem := h.resolve_left (by simp)
    rw [List.concat_eq_append] at hmem ⊢
    rw [List.reverse_append, List.reverse_singleton, List.singleton_append, continued,
      List.reverse_reverse, if_pos hmem]

/-- Records that are given at some paths, as left joins find them, belong to an unfolding. -/
theorem exists_unfolds (hg : g.DotFree) {known : Set String} {given : String → Option Record}
    (hroot : ∃ r ∈ db e, given "" = some r)
    (hknown : ∀ segs s owner relation, g.entityAlong e segs = some owner →
      (g.entity owner).relation? s = some relation → Path.ofSegments (segs ++ [s]) ∈ known →
        (segs = [] ∨ Path.ofSegments segs ∈ known) ∧
        Finds m db owner s (given (Path.ofSegments segs)) (given (Path.ofSegments (segs ++ [s])))) :
    ∃ records, Unfolds m db g e records ∧ records "" = given "" ∧
      ∀ segs, (∀ s ∈ segs, Path.IsSegment s) → Path.ofSegments segs ∈ known →
        records (Path.ofSegments segs) = given (Path.ofSegments segs) := by
  refine ⟨fun path => continued m db g e known given (Path.chain path).reverse, ⟨hroot, ?_⟩, rfl, ?_⟩
  · intro segs s owner relation howner hrelation
    have hsegs := hg.isSegment_of_entityAlong howner
    have hsegs' : ∀ x ∈ segs ++ [s], Path.IsSegment x := by
      simpa [or_imp, forall_and] using ⟨hsegs, hg.isSegment hrelation⟩
    rw [Path.chain_ofSegments hsegs, Path.chain_ofSegments hsegs']
    by_cases hmem : Path.ofSegments (segs ++ [s]) ∈ known
    · obtain ⟨hparent, hfinds⟩ := hknown segs s owner relation howner hrelation hmem
      rw [continued_of_mem hparent, continued_of_mem (.inr hmem)]
      exact hfinds
    · rw [List.reverse_append, List.reverse_singleton, List.singleton_append, continued,
        List.reverse_reverse, howner, if_neg hmem]
      exact finds_someFound m db owner s _
  · intro segs hsegs hmem
    dsimp only
    rw [Path.chain_ofSegments hsegs]
    exact continued_of_mem (.inr hmem)

end Unfoldings

/-! ### Joined records -/

section Joined

variable (m : Mapping ι) (db : Database ι) (g : EntityGraph ι) (e : ι)

/-- The records that relations lead to from a record. -/
inductive JoinsTo (r : Record) : List String → Record → Prop
  | root : JoinsTo r [] r
  | step {segs : List String} {s : String} {owner : ι} {relation : Relation ι} {t t' : Record}
    (h : JoinsTo r segs t) (howner : g.entityAlong e segs = some owner)
    (hrelation : (g.entity owner).relation? s = some relation)
    (hlinks : QueryPlan.Links m db owner s t t') : JoinsTo r (segs ++ [s]) t'

/-- On the way along some relations there is more than one record joined to a record. -/
def Forks (r : Record) (segs : List String) : Prop :=
  ∃ before, before <+: segs ∧ ∃ t t', JoinsTo m db g e r before t ∧ JoinsTo m db g e r before t' ∧ t ≠ t'

variable {m db g e} {r t : Record} {segs : List String}

theorem joinsTo_nil_iff : JoinsTo m db g e r [] t ↔ t = r := by
  constructor
  · intro h
    generalize hsegs : [] = segs at h
    cases h with
    | root => rfl
    | step => simp at hsegs
  · rintro rfl
    exact .root

theorem joinsTo_concat_iff {s : String} : JoinsTo m db g e r (segs ++ [s]) t ↔
    ∃ t₀ owner relation, JoinsTo m db g e r segs t₀ ∧ g.entityAlong e segs = some owner ∧
      (g.entity owner).relation? s = some relation ∧ QueryPlan.Links m db owner s t₀ t := by
  constructor
  · intro h
    generalize hconcat : segs ++ [s] = segs' at h
    cases h with
    | root => simp at hconcat
    | step h howner hrelation hlinks =>
      obtain ⟨rfl, hs⟩ := List.append_inj' hconcat rfl
      obtain rfl := List.singleton_inj.1 hs
      exact ⟨_, _, _, h, howner, hrelation, hlinks⟩
  · rintro ⟨t₀, owner, relation, h, howner, hrelation, hlinks⟩
    exact .step h howner hrelation hlinks

theorem Forks.mono {before : List String} (h : Forks m db g e r before) (hbefore : before <+: segs) :
    Forks m db g e r segs := by
  obtain ⟨first, hfirst, hfork⟩ := h
  exact ⟨first, hfirst.trans hbefore, hfork⟩

theorem eq_of_not_forks {t' : Record} (h : ¬ Forks m db g e r segs) (ht : JoinsTo m db g e r segs t)
    (ht' : JoinsTo m db g e r segs t') : t = t' := by
  by_contra hne
  exact h ⟨segs, List.prefix_rfl, t, t', ht, ht', hne⟩

/-- An unfolding shows joined records. -/
theorem Unfolds.joinsTo {records : String → Option Record} (h : Unfolds m db g e records)
    (hroot : records "" = some r) {owner : ι} (howner : g.entityAlong e segs = some owner)
    (ht : records (Path.ofSegments segs) = some t) : JoinsTo m db g e r segs t := by
  induction segs using List.reverseRecOn generalizing owner t with
  | nil =>
    obtain rfl := Option.some.inj (hroot.symm.trans ht)
    exact .root
  | append_singleton segs s ih =>
    rw [EntityGraph.entityAlong_concat, Option.bind_eq_some_iff] at howner
    obtain ⟨parent, hparent, howner⟩ := howner
    obtain ⟨relation, hrelation, -⟩ := Option.map_eq_some_iff.1 howner
    have hfinds := h.steps segs s parent relation hparent hrelation
    rw [ht] at hfinds
    obtain ⟨t', ht', hlinks⟩ := hfinds
    exact .step (ih hparent ht') hparent hrelation hlinks

/-- Unfoldings of one record show the same along relations on which nothing forks. -/
theorem Unfolds.eq_of_not_forks {records records' : String → Option Record}
    (h : Unfolds m db g e records) (h' : Unfolds m db g e records') (hroot : records "" = some r)
    (hroot' : records' "" = some r) {owner : ι} (howner : g.entityAlong e segs = some owner)
    (hone : ¬ Forks m db g e r segs) :
    records (Path.ofSegments segs) = records' (Path.ofSegments segs) := by
  induction segs using List.reverseRecOn generalizing owner with
  | nil => exact hroot.trans hroot'.symm
  | append_singleton segs s ih =>
    have hjoins := fun t => h.joinsTo (t := t) hroot howner
    have hjoins' := fun t => h'.joinsTo (t := t) hroot' howner
    rw [EntityGraph.entityAlong_concat, Option.bind_eq_some_iff] at howner
    obtain ⟨parent, hparent, howner⟩ := howner
    obtain ⟨relation, hrelation, -⟩ := Option.map_eq_some_iff.1 howner
    have hsame := ih hparent fun hforks => hone (hforks.mono (List.prefix_append segs [s]))
    have hfinds := h.steps segs s parent relation hparent hrelation
    have hfinds' := h'.steps segs s parent relation hparent hrelation
    rw [← hsame] at hfinds'
    exact hfinds.eq hfinds' fun t t' ht ht' =>
      EntityQuery.eq_of_not_forks hone (hjoins t ht) (hjoins' t' ht')

end Joined

/-! ### Combinations as unfoldings -/

namespace QueryPlan.WellFormed

variable {m : Mapping ι} {db : Database ι} {g : EntityGraph ι} {e : ι} {quote : String → String}
variable {predicates : List Predicate} {p : QueryPlan ι}

theorem get?_aliasName (hp : p.WellFormed g e quote predicates) {j : Join ι} (hj : j ∈ p.joins) :
    p.joins.get? j.aliasName = some j :=
  find?_of_nodup (List.nodup_cons.1 hp.names).2 hj

theorem aliasName_ne_root (hp : p.WellFormed g e quote predicates) {j : Join ι} (hj : j ∈ p.joins) :
    j.aliasName ≠ p.rootAlias :=
  fun h => (List.nodup_cons.1 hp.names).1 (h ▸ List.mem_map_of_mem hj)

theorem entityOf_root (hp : p.WellFormed g e quote predicates) : p.entityOf p.rootAlias = e := by
  rw [entityOf, if_pos rfl, hp.entity]

theorem entityOf_join (hp : p.WellFormed g e quote predicates) {j : Join ι} (hj : j ∈ p.joins) :
    p.entityOf j.aliasName = j.relation.target := by
  rw [entityOf, if_neg (hp.aliasName_ne_root hj), hp.get?_aliasName hj]
  rfl

/-- A join as a step: its path is a chain, whose last relation leads on from the entity of its parent. -/
structure Step (g : EntityGraph ι) (e : ι) (p : QueryPlan ι) (j : Join ι) (segs : List String)
    (s : String) : Prop where
  path : j.path = Path.ofSegments (segs ++ [s])
  segments : ∀ x ∈ segs ++ [s], Path.IsSegment x
  owner : g.entityAlong e segs = some (p.entityOf j.parent)
  relation : (g.entity (p.entityOf j.parent)).relation? s = some j.relation
  name : j.relation.name = s
  parent : (segs = [] ∧ j.parent = p.rootAlias) ∨
    (segs ≠ [] ∧ ∃ k ∈ p.joins, k.path = Path.ofSegments segs ∧ k.aliasName = j.parent)

theorem exists_step (hp : p.WellFormed g e quote predicates) (hg : g.DotFree) {j : Join ι}
    (hj : j ∈ p.joins) : ∃ segs s, Step g e p j segs s := by
  have hrelation := hp.relation j hj
  have halong := hg.isSegment_of_entityAlong (EntityGraph.entityAlong_of_relationAlong hrelation)
  have hpath : j.path = Path.ofSegments (Path.segments j.path) := (Path.ofSegments_segments _).symm
  rcases List.eq_nil_or_concat (Path.segments j.path) with hnil | ⟨segs, s, hsegments⟩
  · exact absurd hnil (Path.segments_ne_nil _)
  rw [List.concat_eq_append] at hsegments
  rw [hsegments] at hrelation halong hpath
  rw [EntityGraph.relationAlong_concat, Option.bind_eq_some_iff] at hrelation
  obtain ⟨owner, howner, hrelation⟩ := hrelation
  have hname : j.relation.name = s := by simpa using List.find?_some hrelation
  have hlength : (Path.segments j.path).length = segs.length + 1 := by
    rw [hsegments, List.length_append, List.length_singleton]
  by_cases hne : segs = []
  · subst hne
    have hparent := hp.parent_root j hj hlength
    have hentity : p.entityOf j.parent = owner := by
      rw [hparent, hp.entityOf_root]
      exact Option.some.inj howner
    exact ⟨[], s, hpath, halong, hentity ▸ howner, hentity ▸ hrelation, hname, .inl ⟨rfl, hparent⟩⟩
  · obtain ⟨before, after, hjoins⟩ := List.append_of_mem hj
    have hpos := List.length_pos_iff.2 hne
    obtain ⟨k, hk, hkpath, hkname⟩ := hp.parent_join before j after hjoins (by omega)
    have hmem : k ∈ p.joins := by
      rw [hjoins]
      exact List.mem_append_left _ hk
    have hparent : k.path = Path.ofSegments segs := by
      rw [hkpath, Join.parentPath, Path.parent, hsegments, List.dropLast_concat]
    have hdots : ∀ x ∈ segs, '.' ∉ x.toList := fun x hx => (halong x (by simp [hx])).2
    have hentity : p.entityOf j.parent = owner := by
      have hk' := EntityGraph.entityAlong_of_relationAlong (hp.relation k hmem)
      rw [hparent, Path.segments_ofSegments hne hdots, howner] at hk'
      rw [← hkname, hp.entityOf_join hmem]
      exact (Option.some.inj hk').symm
    exact ⟨segs, s, hpath, halong, hentity ▸ howner, hentity ▸ hrelation, hname,
      .inr ⟨hne, k, hmem, hparent, hkname⟩⟩

theorem path_ne_empty (hp : p.WellFormed g e quote predicates) (hg : g.DotFree) {j : Join ι}
    (hj : j ∈ p.joins) : j.path ≠ "" := by
  obtain ⟨segs, s, hstep⟩ := hp.exists_step hg hj
  rw [hstep.path, Ne, Path.ofSegments_eq_empty_iff hstep.segments]
  simp

theorem entityOn_path (hp : p.WellFormed g e quote predicates) (hg : g.DotFree) {j : Join ι}
    (hj : j ∈ p.joins) : g.entityOn e j.path = p.entityOf j.aliasName := by
  have halong := EntityGraph.entityAlong_of_relationAlong (hp.relation j hj)
  have hentity := EntityGraph.entityOn_ofSegments hg halong
  rw [Path.ofSegments_segments] at hentity
  rw [hentity, hp.entityOf_join hj]

/-- Records for the paths of a plan and for its aliases are the same. -/
structure Shared (p : QueryPlan ι) (records byAlias : String → Option Record) : Prop where
  root : records "" = byAlias p.rootAlias
  joins : ∀ j ∈ p.joins, records j.path = byAlias j.aliasName

theorem Shared.parent {records byAlias : String → Option Record} (h : Shared p records byAlias)
    {j : Join ι} {segs : List String} {s : String} (hstep : Step g e p j segs s) :
    records (Path.ofSegments segs) = byAlias j.parent := by
  rcases hstep.parent with ⟨rfl, hparent⟩ | ⟨-, k, hk, hpath, hname⟩
  · rw [hparent]
    exact h.root
  · rw [← hpath, ← hname]
    exact h.joins k hk

/-- Under an unfolding, the joins of a plan find what the unfolding has at their paths. -/
theorem exists_combination (hp : p.WellFormed g e quote predicates) (hg : g.DotFree)
    {records : String → Option Record} (h : Unfolds m db g e records) :
    ∃ byAlias, p.Combination m db byAlias ∧ Shared p records byAlias := by
  let byAlias (a : String) : Option Record := match p.joins.get? a with
    | some j => records j.path
    | none => records ""
  have hshared : Shared p records byAlias := by
    refine ⟨?_, fun j hj => ?_⟩
    · have hnone : p.joins.get? p.rootAlias = none := by
        refine List.find?_eq_none.2 fun j hj => ?_
        simpa using hp.aliasName_ne_root hj
      simp only [byAlias, hnone]
    · simp only [byAlias, hp.get?_aliasName hj]
  obtain ⟨r, hr, hroot⟩ := h.root
  refine ⟨byAlias, ⟨⟨r, hp.entity ▸ hr, hshared.root ▸ hroot⟩, fun j hj => ?_⟩, hshared⟩
  obtain ⟨segs, s, hstep⟩ := hp.exists_step hg hj
  have hfinds := h.steps segs s _ _ hstep.owner hstep.relation
  rw [hshared.parent hstep, ← hstep.path, hshared.joins j hj, ← hstep.name] at hfinds
  exact hfinds

/-- A combination of a plan belongs to an unfolding. -/
theorem exists_unfolding (hp : p.WellFormed g e quote predicates) (hg : g.DotFree)
    {byAlias : String → Option Record} (h : p.Combination m db byAlias) :
    ∃ records, Unfolds m db g e records ∧ Shared p records byAlias := by
  let given (path : String) : Option Record := match p.joins.find? (·.path = path) with
    | some j => byAlias j.aliasName
    | none => byAlias p.rootAlias
  have hshared : Shared p given byAlias := by
    refine ⟨?_, fun j hj => ?_⟩
    · have hnone : p.joins.find? (·.path = "") = none := by
        refine List.find?_eq_none.2 fun j hj => ?_
        simpa using hp.path_ne_empty hg hj
      simp only [given, hnone]
    · have hfind := find?_of_nodup hp.paths hj
      simp only [given, hfind]
  have hroot : ∃ r ∈ db e, given "" = some r := by
    obtain ⟨r, hr, hroot⟩ := h.root
    exact ⟨r, hp.entity ▸ hr, hshared.root.trans hroot⟩
  let known : Set String := {path | ∃ j ∈ p.joins, j.path = path}
  have hknown : ∀ segs s owner relation, g.entityAlong e segs = some owner →
      (g.entity owner).relation? s = some relation → Path.ofSegments (segs ++ [s]) ∈ known →
        (segs = [] ∨ Path.ofSegments segs ∈ known) ∧
        Finds m db owner s (given (Path.ofSegments segs)) (given (Path.ofSegments (segs ++ [s]))) := by
    rintro segs s owner relation howner hrelation ⟨j, hj, hpath⟩
    obtain ⟨segs', s', hstep⟩ := hp.exists_step hg hj
    have hsegs : ∀ x ∈ segs ++ [s], Path.IsSegment x := by
      simpa [or_imp, forall_and] using
        ⟨hg.isSegment_of_entityAlong howner, hg.isSegment hrelation⟩
    obtain ⟨rfl, hs⟩ := List.append_inj'
      (Path.ofSegments_inj hstep.segments hsegs (hstep.path.symm.trans hpath)) rfl
    obtain rfl := List.singleton_inj.1 hs
    obtain rfl := Option.some.inj (hstep.owner.symm.trans howner)
    constructor
    · rcases hstep.parent with ⟨rfl, -⟩ | ⟨-, k, hk, hkpath, -⟩
      · exact .inl rfl
      · exact .inr ⟨k, hk, hkpath⟩
    · have hjoins := h.joins j hj
      rw [hshared.parent hstep, ← hstep.path, hshared.joins j hj, ← hstep.name]
      exact hjoins
  obtain ⟨records, hunfolds, hempty, hgiven⟩ := exists_unfolds hg hroot hknown
  refine ⟨records, hunfolds, hempty.trans hshared.root, fun j hj => ?_⟩
  obtain ⟨segs, s, hstep⟩ := hp.exists_step hg hj
  rw [← hshared.joins j hj, hstep.path]
  exact hgiven _ hstep.segments ⟨j, hj, hstep.path⟩

end QueryPlan.WellFormed

end EntityQuery
