import Mathlib.Data.List.Induction
import EntityQuery.Store.Joined
import EntityQuery.Proofs.Query.WellFormed

/-! What the left joins of a plan put together. A combination has a record for the root and for each
join one that its relation leads to, or none where it leads to no record; the joined rows are the
combinations, row by row. The roots that a plan matches are those of the combinations on which its
filter is true. -/

namespace EntityQuery

variable {ι : Type}

section Evaluation

variable (ev : Evaluation) {sight sight' : Sight} (parameters : List (String × Value))

mutual

/-- A filter only depends on the columns that it names. -/
theorem Filter.eval_congr (f : Filter) (h : ∀ c ∈ f.columns, sight c = sight' c) :
    f.eval ev sight parameters = f.eval ev sight' parameters := by
  cases f with
  | test c t =>
    have hc : sight c = sight' c := h c (by simp [Filter.columns_test])
    rw [Filter.eval, Filter.eval, hc]
  | chain parts =>
    rw [Filter.columns_of_leaves (Filter.leaves_chain parts)] at h
    rw [Filter.eval, Filter.eval, Filter.evals_congr parts h]
  | group c parts =>
    rw [Filter.columns_of_leaves (Filter.leaves_group c parts)] at h
    cases c <;> rw [Filter.eval, Filter.eval, Filter.evals_congr parts h]
  | negation inner =>
    rw [Filter.columns, Filter.leaves_negation] at h
    rw [Filter.eval, Filter.eval, Filter.eval_congr inner h]

theorem Filter.evals_congr (fs : List Filter)
    (h : ∀ c ∈ fs.flatMap Filter.columns, sight c = sight' c) :
    Filter.evals ev sight parameters fs = Filter.evals ev sight' parameters fs := by
  cases fs with
  | nil => rfl
  | cons f rest =>
    simp only [List.flatMap_cons, List.mem_append, or_imp, forall_and] at h
    rw [Filter.evals, Filter.evals, Filter.eval_congr f h.1, Filter.evals_congr rest h.2]

end

end Evaluation

/-- A link leads from one record to another, directly or by way of a pair. -/
def Link.Joins (link : Link ι) (tables : Tables ι) (r t : Record) : Prop :=
  match link.through with
  | none => link.condition.holds r t = true
  | some (table, near) =>
    ∃ pair ∈ tables.pairs table, near.holds r pair = true ∧ link.condition.holds pair t = true

theorem Link.mem_reached {link : Link ι} {tables : Tables ι} {r t : Record} :
    t ∈ link.reached tables r ↔ t ∈ tables.records link.target ∧ link.Joins tables r t := by
  unfold reached Joins
  cases link.through with
  | none => exact List.mem_filter
  | some through =>
    simp only [List.mem_flatMap, List.mem_filter]
    constructor
    · rintro ⟨pair, ⟨hpair, hnear⟩, ht, hholds⟩
      exact ⟨ht, pair, hpair, hnear, hholds⟩
    · rintro ⟨ht, pair, hpair, hnear, hholds⟩
      exact ⟨pair, ⟨hpair, hnear⟩, ht, hholds⟩

namespace QueryPlan

/-! ### Combinations -/

section Combinations

variable (m : Mapping ι) (db : Database ι) (p : QueryPlan ι)

/-- A relation leads from one record to another. -/
def Links (owner : ι) (relation : String) (r t : Record) : Prop :=
  ∃ link, (m.model owner).link? relation = some link ∧ t ∈ db link.target ∧ link.Joins db.toTables r t

/-- What a left join may find for the record of its parent: a record that the relation leads to, or
none if it leads nowhere. -/
def LeftJoins (j : Join ι) (parent : Option Record) : Option Record → Prop
  | some t => ∃ r, parent = some r ∧ Links m db (p.entityOf j.parent) j.relation.name r t
  | none => ∀ r t, parent = some r → ¬ Links m db (p.entityOf j.parent) j.relation.name r t

/-- Records for the aliases of a plan as its left joins put them together. -/
structure Combination (records : String → Option Record) : Prop where
  root : ∃ r ∈ db p.entity, records p.rootAlias = some r
  joins : ∀ j ∈ p.joins, p.LeftJoins m db j (records j.parent) (records j.aliasName)

/-- What a filter sees on records for the aliases. -/
def sightOn (records : String → Option Record) : Sight := fun c =>
  ((m.model (p.entityOf c.aliasName)).typeNamed c.column,
    match records c.aliasName with
    | some r => Model.cellNamed r c.column
    | none => .null)

/-- The filter is true, or there is none. -/
def HoldsOn (records : String → Option Record) : Prop :=
  ∀ f ∈ p.filter, f.eval db.evaluation (p.sightOn m records) p.clause.parameters.values = .true

/-- The records of the root with a combination on which the filter is true. -/
def matching : Set Record :=
  {r | ∃ records, p.Combination m db records ∧ records p.rootAlias = some r ∧ p.HoldsOn m db records}

end Combinations

/-! ### Joined rows -/

variable {m : Mapping ι} {db : Database ι} {p : QueryPlan ι}

theorem mem_linked {owner : ι} {relation : String} {r t : Record} :
    t ∈ linked m db owner relation r ↔ Links m db owner relation r t := by
  unfold linked Links
  cases (m.model owner).link? relation with
  | none => simp
  | some link => simp [Link.mem_reached]

theorem exists_extendRow (m : Mapping ι) (db : Database ι) (p : QueryPlan ι) (j : Join ι)
    (row : JoinedRow) : ∃ found : List Record,
      extendRow m db p j row = (if found = [] then [row ++ [(j.aliasName, none)]]
        else found.map fun t => row ++ [(j.aliasName, some t)]) ∧
      ∀ t, t ∈ found ↔ p.LeftJoins m db j (row.record? j.parent) (some t) := by
  unfold extendRow
  cases row.record? j.parent with
  | none => exact ⟨[], rfl, by simp [LeftJoins]⟩
  | some r =>
    refine ⟨linked m db (p.entityOf j.parent) j.relation.name r, ?_, ?_⟩
    · dsimp only
      cases linked m db (p.entityOf j.parent) j.relation.name r <;> rfl
    · simp [LeftJoins, mem_linked]

theorem mem_extendRow {j : Join ι} {row row' : JoinedRow} :
    row' ∈ extendRow m db p j row ↔ ∃ found, p.LeftJoins m db j (row.record? j.parent) found ∧
      row' = row ++ [(j.aliasName, found)] := by
  obtain ⟨found, hextend, hfound⟩ := exists_extendRow m db p j row
  have hmissing : p.LeftJoins m db j (row.record? j.parent) none ↔ found = [] := by
    rw [List.eq_nil_iff_forall_not_mem]
    simp only [hfound, LeftJoins, not_exists, not_and]
    exact forall_comm
  rw [hextend]
  cases found with
  | nil =>
    have hnone := hmissing.2 rfl
    constructor
    · intro h
      exact ⟨none, hnone, List.mem_singleton.1 h⟩
    · rintro ⟨_ | t, hjoins, rfl⟩
      · simp
      · exact absurd ((hfound t).2 hjoins) (by simp)
  | cons s rest =>
    simp only [reduceCtorEq, if_false, List.mem_map]
    constructor
    · rintro ⟨t, ht, rfl⟩
      exact ⟨some t, (hfound t).1 ht, rfl⟩
    · rintro ⟨_ | t, hjoins, rfl⟩
      · exact absurd (hmissing.1 hjoins) (by simp)
      · exact ⟨t, (hfound t).2 hjoins, rfl⟩

/-- A row of records for aliases. -/
def rowOn (names : List String) (records : String → Option Record) : JoinedRow :=
  names.map fun a => (a, records a)

theorem record?_rowOn {names : List String} {a : String} (ha : a ∈ names)
    (records : String → Option Record) : (rowOn names records).record? a = records a := by
  induction names with
  | nil => simp at ha
  | cons b names ih =>
    have hcons : rowOn (b :: names) records = (b, records b) :: rowOn names records := rfl
    rw [JoinedRow.record?, hcons, Assoc.get?_cons]
    split
    · next hb =>
      subst hb
      rfl
    · next hb =>
      have hmem : a ∈ names := (List.mem_cons.1 ha).resolve_left fun h => hb h.symm
      exact ih hmem

theorem rowOn_congr {names : List String} {records records' : String → Option Record}
    (h : ∀ a ∈ names, records a = records' a) : rowOn names records = rowOn names records' :=
  List.map_congr_left fun a ha => by rw [h a ha]

/-- The aliases of a plan: that of the root, then those of the joins. -/
def names (p : QueryPlan ι) : List String := p.rootAlias :: p.joins.map (·.aliasName)

/-- A plan whose aliases differ, whose joins hang on the root or on earlier joins, and whose filter
only names aliases that there are. -/
structure Scoped (p : QueryPlan ι) : Prop where
  names : p.names.Nodup
  parents : ∀ before j after, p.joins = before ++ j :: after →
    j.parent ∈ p.rootAlias :: before.map (·.aliasName)
  filter : ∀ f ∈ p.filter, ∀ c ∈ f.columns, c.aliasName ∈ p.names

theorem parent_mem_names {root : String} {joins : Joins ι}
    (hparents : ∀ before j after, joins = before ++ j :: after →
      j.parent ∈ root :: before.map (·.aliasName)) {j : Join ι} (hj : j ∈ joins) :
    j.parent ∈ root :: joins.map (·.aliasName) := by
  obtain ⟨before, after, rfl⟩ := List.append_of_mem hj
  have hparent := hparents before j after rfl
  rw [List.map_append, ← List.cons_append]
  exact List.mem_append_left _ hparent

/-- A join does not see a record under an alias that is not its own and not that of its parent. -/
theorem leftJoins_update {j : Join ι} {records : String → Option Record} {a : String}
    {found : Option Record} (hparent : j.parent ≠ a) (hname : j.aliasName ≠ a) :
    p.LeftJoins m db j (Function.update records a found j.parent)
        (Function.update records a found j.aliasName) ↔
      p.LeftJoins m db j (records j.parent) (records j.aliasName) := by
  rw [Function.update_of_ne hparent, Function.update_of_ne hname]

/-- The rows of the joins so far. -/
theorem mem_foldl_extendRow {joins : Joins ι}
    (hnames : (p.rootAlias :: joins.map (·.aliasName)).Nodup)
    (hparents : ∀ before j after, joins = before ++ j :: after →
      j.parent ∈ p.rootAlias :: before.map (·.aliasName)) {row : JoinedRow} :
    row ∈ joins.foldl (fun rows j => rows.flatMap (extendRow m db p j))
        ((db p.entity).map fun r => [(p.rootAlias, some r)]) ↔
      ∃ records, (∃ r ∈ db p.entity, records p.rootAlias = some r) ∧
        (∀ j ∈ joins, p.LeftJoins m db j (records j.parent) (records j.aliasName)) ∧
        row = rowOn (p.rootAlias :: joins.map (·.aliasName)) records := by
  induction joins using List.reverseRecOn generalizing row with
  | nil =>
    simp only [List.foldl_nil, List.mem_map]
    constructor
    · rintro ⟨r, hr, rfl⟩
      exact ⟨fun _ => some r, ⟨r, hr, rfl⟩, by simp, rfl⟩
    · rintro ⟨records, ⟨r, hr, hroot⟩, -, rfl⟩
      exact ⟨r, hr, by simp [rowOn, hroot]⟩
  | append_singleton joins j ih =>
    rw [List.map_append, ← List.cons_append] at hnames
    obtain ⟨hnodup, -, hdisjoint⟩ := List.nodup_append.1 hnames
    have hfresh : ∀ a ∈ p.rootAlias :: joins.map (·.aliasName), a ≠ j.aliasName :=
      fun a ha => hdisjoint a ha j.aliasName (by simp)
    have hparent := hparents joins j [] rfl
    have hearlier : ∀ before k after, joins = before ++ k :: after →
        k.parent ∈ p.rootAlias :: before.map (·.aliasName) := by
      rintro before k after rfl
      exact hparents before k (after ++ [j]) (by simp)
    have hnew : ∀ records, rowOn (p.rootAlias :: (joins ++ [j]).map (·.aliasName)) records =
        rowOn (p.rootAlias :: joins.map (·.aliasName)) records ++
          [(j.aliasName, records j.aliasName)] := by
      intro records
      simp [rowOn]
    rw [List.foldl_append, List.foldl_cons, List.foldl_nil, List.mem_flatMap]
    simp only [mem_extendRow, ih hnodup hearlier]
    constructor
    · rintro ⟨_, ⟨records, ⟨r, hr, hroot⟩, hjoins, rfl⟩, found, hfound, rfl⟩
      rw [record?_rowOn hparent] at hfound
      -- The new record stands under an alias that no earlier join looks at.
      have hsame : ∀ a ∈ p.rootAlias :: joins.map (·.aliasName),
          Function.update records j.aliasName found a = records a :=
        fun a ha => Function.update_of_ne (hfresh a ha) _ _
      refine ⟨Function.update records j.aliasName found, ⟨r, hr, ?_⟩, fun k hk => ?_, ?_⟩
      · rw [hsame _ (by simp), hroot]
      · rcases List.mem_append.1 hk with hk | hk
        · have hkname : k.aliasName ∈ joins.map (·.aliasName) := List.mem_map_of_mem hk
          refine (leftJoins_update ?_ ?_).2 (hjoins k hk)
          · exact hfresh _ (parent_mem_names hearlier hk)
          · exact hfresh _ (List.mem_cons_of_mem _ hkname)
        · obtain rfl := List.mem_singleton.1 hk
          rw [hsame _ hparent, Function.update_self]
          exact hfound
      · rw [hnew, Function.update_self, rowOn_congr hsame]
    · rintro ⟨records, hroot, hjoins, rfl⟩
      refine ⟨_, ⟨records, hroot, fun k hk => hjoins k (by simp [hk]), rfl⟩, records j.aliasName, ?_,
        hnew records⟩
      rw [record?_rowOn hparent]
      exact hjoins j (by simp)

/-- The joined rows are the combinations. -/
theorem Scoped.mem_joinedRows (hp : p.Scoped) {row : JoinedRow} :
    row ∈ p.joinedRows m db ↔ ∃ records, p.Combination m db records ∧ row = rowOn p.names records := by
  refine (mem_foldl_extendRow hp.names hp.parents).trans ?_
  constructor
  · rintro ⟨records, hroot, hjoins, rfl⟩
    exact ⟨records, ⟨hroot, hjoins⟩, rfl⟩
  · rintro ⟨records, ⟨hroot, hjoins⟩, rfl⟩
    exact ⟨records, hroot, hjoins, rfl⟩

theorem Scoped.holds_rowOn (hp : p.Scoped) (records : String → Option Record) :
    p.holds m db (rowOn p.names records) = true ↔ p.HoldsOn m db records := by
  unfold holds HoldsOn
  cases hfilter : p.filter with
  | none => simp
  | some f =>
    have hsight : ∀ c ∈ f.columns, p.sight m (rowOn p.names records) c = p.sightOn m records c := by
      intro c hc
      have hrecord := record?_rowOn (hp.filter f hfilter c hc) records
      cases hc' : records c.aliasName <;> simp only [sight, sightOn, hrecord, hc']
    simp [Filter.eval_congr _ _ f hsight]

theorem Scoped.mem_matchedRows (hp : p.Scoped) {row : JoinedRow} :
    row ∈ p.matchedRows m db ↔ ∃ records, p.Combination m db records ∧ p.HoldsOn m db records ∧
      row = rowOn p.names records := by
  rw [matchedRows, List.mem_filter, hp.mem_joinedRows]
  constructor
  · rintro ⟨⟨records, hjoins, rfl⟩, hholds⟩
    exact ⟨records, hjoins, (hp.holds_rowOn records).1 hholds, rfl⟩
  · rintro ⟨records, hjoins, hholds, rfl⟩
    exact ⟨⟨records, hjoins, rfl⟩, (hp.holds_rowOn records).2 hholds⟩

theorem record?_root (records : String → Option Record) :
    (rowOn p.names records).record? p.rootAlias = records p.rootAlias :=
  record?_rowOn (List.mem_cons_self ..) records

/-- The roots that a plan matches are those of its matched rows. -/
theorem Scoped.mem_matching_iff (hp : p.Scoped) {r : Record} :
    r ∈ p.matching m db ↔ ∃ row ∈ p.matchedRows m db, row.record? p.rootAlias = some r := by
  constructor
  · rintro ⟨records, hjoins, hroot, hholds⟩
    exact ⟨_, hp.mem_matchedRows.2 ⟨records, hjoins, hholds, rfl⟩, (record?_root records).trans hroot⟩
  · rintro ⟨row, hrow, hroot⟩
    obtain ⟨records, hjoins, hholds, rfl⟩ := hp.mem_matchedRows.1 hrow
    exact ⟨records, hjoins, (record?_root records).symm.trans hroot, hholds⟩

/-- Each matched row is one of some root. -/
theorem Scoped.exists_matching (hp : p.Scoped) {row : JoinedRow} (h : row ∈ p.matchedRows m db) :
    ∃ r ∈ p.matching m db, row.record? p.rootAlias = some r := by
  obtain ⟨records, hjoins, hholds, rfl⟩ := hp.mem_matchedRows.1 h
  obtain ⟨r, -, hroot⟩ := hjoins.root
  exact ⟨r, ⟨records, hjoins, hroot, hholds⟩, (record?_root records).trans hroot⟩

theorem matching_subset {r : Record} (h : r ∈ p.matching m db) : r ∈ db p.entity := by
  obtain ⟨records, hjoins, hroot, -⟩ := h
  obtain ⟨r', hr', hroot'⟩ := hjoins.root
  exact Option.some.inj (hroot.symm.trans hroot') ▸ hr'

theorem exists_of_forall₂ {α β : Type} {R : α → β → Prop} {as : List α} {bs : List β}
    (h : List.Forall₂ R as bs) {b : β} (hb : b ∈ bs) : ∃ a ∈ as, R a b := by
  induction h with
  | nil => simp at hb
  | @cons a' b' as bs hR _ ih =>
    rcases List.mem_cons.1 hb with rfl | hb
    · exact ⟨a', by simp, hR⟩
    · obtain ⟨a, ha, hRa⟩ := ih hb
      exact ⟨a, List.mem_cons_of_mem _ ha, hRa⟩

variable {g : EntityGraph ι} {e : ι} {quote : String → String} {predicates : List Predicate}

/-- A path that has an alias is empty or joined. -/
theorem WellFormed.aliasFor_cases (hp : p.WellFormed g e quote predicates) {path a : String}
    (h : p.scope.aliasFor path = .ok a) :
    (path = "" ∧ a = p.rootAlias) ∨ ∃ j ∈ p.joins, j.path = path ∧ j.aliasName = a := by
  by_cases hpath : path = ""
  · subst hpath
    exact .inl ⟨rfl, (Except.ok.inj h).symm⟩
  · right
    have hne : path.isEmpty = false := by simpa using hpath
    rw [Aliases.aliasFor, hne, if_neg (by simp)] at h
    split at h
    · next existing hget =>
      obtain rfl := Except.ok.inj h
      have hentry := Assoc.mem_of_get? hget
      rw [scope, hp.aliases, List.mem_map] at hentry
      obtain ⟨j, hj, hentry⟩ := hentry
      exact ⟨j, hj, congrArg Prod.fst hentry, congrArg Prod.snd hentry⟩
    · cases h

/-- The plans of queries are scoped. -/
theorem WellFormed.scoped (h : p.WellFormed g e quote predicates) : p.Scoped := by
  constructor
  case names => exact h.names
  case parents =>
    intro before j after hjoins
    have hpos : 0 < (Path.segments j.path).length :=
      List.length_pos_iff.2 (Path.segments_ne_nil j.path)
    by_cases hone : (Path.segments j.path).length = 1
    · rw [h.parent_root j (by simp [hjoins]) hone]
      exact List.mem_cons_self ..
    · obtain ⟨k, hk, -, hname⟩ := h.parent_join before j after hjoins (by omega)
      exact List.mem_cons_of_mem _ (List.mem_map.2 ⟨k, hk, hname⟩)
  case filter =>
    intro f hf c hc
    obtain ⟨named, -, ha, -⟩ := exists_of_forall₂ h.filter (b := c)
      (List.mem_flatMap.2 ⟨f, Option.mem_toList.2 hf, hc⟩)
    rcases h.aliasFor_cases ha with ⟨-, hroot⟩ | ⟨j, hj, -, hname⟩
    · rw [hroot]
      exact List.mem_cons_self
    · exact List.mem_cons_of_mem _ (List.mem_map.2 ⟨j, hj, hname⟩)

end QueryPlan

end EntityQuery
