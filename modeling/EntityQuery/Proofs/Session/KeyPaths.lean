import EntityQuery.Proofs.Join.Flattening
import EntityQuery.Proofs.Join.Lookup
import EntityQuery.Proofs.Predicate.KeyPath
import EntityQuery.Proofs.Query.Connectives
import EntityQuery.Proofs.Session.Scope

/-! Lookups and deletions by key path. A path that names a column asks for a joined record with a value
in this column, and only roots that have one are shown or removed. The same paths can be sorted by. Paths
that stray into words of the predicate language are accepted as well, and may ask for the opposite. -/

namespace EntityQuery

variable {ι : Type}

/-- A path that is sorted by leads along relations to a column. -/
theorem Query.orderTerm_accepted_iff {g : EntityGraph ι} {e : ι}
    (hnamed : (g.entity e).relation? "" = none) {path : String}
    (hhead : (Path.segments path).head? ≠ some "") (root : String) (d : Direction) :
    (∃ term c, (Query.orderTerm g (path, d)).exec (Context.start e root) = (.ok term, c)) ↔
      ∃ relations owner field, Path.segments path = relations ++ [field] ∧
        g.entityAlong e relations = some owner ∧ (g.entity owner).hasColumn field = true := by
  obtain ⟨relations, field, hsegs⟩ := Path.exists_segments_eq_concat path
  have hlast : Path.last path = field := by simp [Path.last, hsegs]
  have hempty := Path.parent_eq_empty_iff hsegs hhead
  have hlookup : ∀ owner, relations ≠ [] →
      ((Context.start e root).tree.entityAt g (Path.parent path) = .ok owner ↔
        g.entityAlong e relations = some owner) := by
    intro owner hne
    have hwalk := (JoinTree.faithful_start g e root).entityAt_eq (mt hempty.1 hne)
    rw [Path.segments_parent hsegs hne] at hwalk
    exact hwalk ▸ EntityGraph.walk_eq_ok_iff
  constructor
  · rintro ⟨term, c, h⟩
    rcases Query.orderTerm_eq_ok.1 h with
      ⟨hroot, -, hcolumn, -⟩ | ⟨hroot, owner, -, -, howner, hcolumn, -⟩
    · obtain rfl := hempty.1 hroot
      exact ⟨[], e, field, hsegs, rfl, hlast ▸ hcolumn⟩
    · have halong := (hlookup owner (mt hempty.2 hroot)).1 howner
      exact ⟨relations, owner, field, hsegs, halong, hlast ▸ hcolumn⟩
  · rintro ⟨relations', owner, field', hsegs', halong, hcolumn⟩
    obtain ⟨rfl, hfield⟩ := List.append_inj' (hsegs.symm.trans hsegs') rfl
    obtain rfl := List.singleton_inj.1 hfield
    rw [← hlast] at hcolumn
    by_cases hnil : relations = []
    · subst hnil
      obtain rfl := Option.some.inj halong
      exact ⟨_, _, Query.orderTerm_eq_ok.2 (.inl ⟨hempty.2 rfl, rfl, hcolumn, rfl⟩)⟩
    · obtain ⟨bound, t, hreach⟩ : ∃ bound t,
          (JoinTree.reach g { path := Path.parent path }).exec (.start e root) = (.ok bound, t) :=
        JoinTree.exists_reach_start hnamed root rfl (by simp [Path.segments_parent hsegs hnil, halong])
      exact ⟨_, _, Query.orderTerm_eq_ok.2 (.inr ⟨mt hempty.1 hnil, owner, bound, t,
        (hlookup owner hnil).2 halong, hcolumn, hreach, rfl, rfl⟩)⟩

section Joined

variable {m : Mapping ι} {g : EntityGraph ι} {e owner : ι} {records : String → Option Record}
variable {relations : List String}

/-- The test of a column at the end of some relations is true on an unfolding where the operator is true
on the cell there. -/
theorem allTrue_test (hg : g.DotFree) (halong : g.entityAlong e relations = some owner)
    (field column : String) (op : Operator) (value : Value) :
    AllTrue m db g e [relations.foldr .relation (.field field column [.test op value])] records ↔
      op.truth db.evaluation value (sightAt m g e records (Path.ofSegments relations) column).1
        (sightAt m g e records (Path.ofSegments relations) column).2 = .true := by
  have htruth : truthOn m db g e records (relations.foldr .relation (.field field column [.test op value])) =
      some _ :=
    (KeyPath.truth_along db.evaluation (sightAt m g e records) _ [] (hg.isSegment_of_entityAlong halong)).trans
      (KeyPath.truth_test db.evaluation (sightAt m g e records) _ _ field column op value)
  rw [allTrue_singleton, htruth]
  simp only [Option.mem_def, Option.some.injEq, forall_eq', List.nil_append]

/-- An equality is true on an unfolding where the joined record has the value. -/
theorem exists_of_allTrue_equality (hg : g.DotFree) {field column : String} {value : Value}
    (howner : g.entityAlong e relations = some owner)
    (h : AllTrue m db g e [KeyPath.equality relations field column value] records) :
    ∃ t, records (Path.ofSegments relations) = some t ∧
      Relop.eq.eval ((m.model owner).typeNamed column) (Model.cellNamed t column) value = .true := by
  have heval := (allTrue_test hg howner field column .eq value).1 h
  rw [sightAt, EntityGraph.entityOn_ofSegments hg howner] at heval
  cases ht : records (Path.ofSegments relations) with
  | none =>
    rw [ht] at heval
    cases heval
  | some t =>
    rw [ht] at heval
    exact ⟨t, rfl, heval⟩

end Joined

/-! ### Lookups and deletions -/

variable [DecidableEq ι]

namespace BoundQuery

variable {b c : BoundQuery ι} {db : Database ι}

/-- The roots that have a record joined along some relations with a value in a column. -/
def holding (b : BoundQuery ι) (db : Database ι) (relations : List String) (owner : ι)
    (column : String) (value : Value) : Set Record :=
  {r | ∃ t, JoinsTo b.session.mapping db b.session.graph b.model r relations t ∧
    Relop.eq.eval ((b.session.mapping.model owner).typeNamed column) (Model.cellNamed t column) value =
      .true}

theorem selected_byPath_subset (hm : b.session.mapping.Proper) {path field : String} {value : Value}
    (hvalue : value.isScalar = true) {relations : List String} {owner : ι}
    (hnames : b.session.graph.Names b.model (Path.segments path) relations owner field)
    (h : b.byPath path value = .ok c) (db : Database ι) :
    c.selected db ⊆ b.selected db ∩
      b.holding db relations owner ((b.session.graph.entity owner).columnName field) value := by
  refine Set.subset_inter (selected_filtered_subset h db) ?_
  obtain ⟨p, hp, rfl⟩ := filtered_eq_ok h
  have hread := (KeyPath.readPredicate_iff hvalue).2 (KeyPath.reads_of_names hnames value)
  obtain rfl := Except.ok.inj (hread.symm.trans hp)
  rintro r ⟨records, hsatisfies, hroot⟩
  have hequality := (allTrue_append.1 hsatisfies.allTrue).2
  obtain ⟨t, ht, heval⟩ := exists_of_allTrue_equality (hm.dotFree _) hnames.along hequality
  exact ⟨t, hsatisfies.unfolds.joinsTo hroot hnames.along ht, heval⟩

/-- The calls that go by a key path keep to some roots. -/
structure KeepsTo (b : BoundQuery ι) (db : Database ι) (path : String) (value : Value)
    (roots : Set Record) : Prop where
  findBy : ∀ row, b.findBy db path value = .ok row → b.Reads db (b.byPath path value) roots row
  findBy? : ∀ row, b.findBy? db path value = .ok (some row) →
    b.Reads db (b.byPath path value) roots row
  deleteBy : ∀ n db', b.deleteBy db path value = .ok (n, db') →
    ∃ gone ⊆ roots, b.Erases db gone n db'

end BoundQuery

/-- A key path is accepted when it names a column or strays into a word of the predicate language. A path
that does not begin with a dot can be sorted by where relations lead to a column, also one that shares its
name with a relation. Where a path names a column, it compiles to one equality, and lookups and deletions
keep to the roots that have a joined record with the value. -/
theorem EntityGraph.keyPath_accepted_iff {g : EntityGraph ι} {v : Value} (hv : v.isScalar = true)
    (e : ι) (path : String) :
    ((∃ p, g.readPredicate e (KeyPath.predicate path v) = .ok p) ↔
      (∃ relations owner field, g.Names e (Path.segments path) relations owner field) ∨
        KeyPath.Strays g e (Path.segments path)) ∧
    (KeyPath.Strays g e (Path.segments path) → ∃ s ∈ Path.segments path, KeyPath.IsWord s) ∧
    ((g.entity e).relation? "" = none → (Path.segments path).head? ≠ some "" → ∀ root d,
      (∃ term c, (Query.orderTerm g (path, d)).exec (Context.start e root) = (.ok term, c)) ↔
        ∃ relations owner field, Path.segments path = relations ++ [field] ∧
          g.entityAlong e relations = some owner ∧ (g.entity owner).hasColumn field = true) ∧
    ∀ relations owner field, g.Names e (Path.segments path) relations owner field →
      (g.Navigable e → ∀ (table : OperatorTable) symbol aliasName quote,
        table.get? Operator.eq.token = some (.eq, symbol) → ∃ clause,
          g.compilePredicate e aliasName table quote (KeyPath.predicate path v) = .ok clause ∧
          KeyPath.Equates clause quote (rootAlias aliasName (g.entity e)) relations field
            ((g.entity owner).columnName field) v) ∧
      ∀ (b : BoundQuery ι) (db : Database ι), b.Built → b.session.mapping.Proper →
        db.Keyed b.session.mapping → b.session.graph = g → b.model = e →
        b.KeepsTo db path v (b.selected db ∩
          b.holding db relations owner ((g.entity owner).columnName field) v) := by
  refine ⟨?_, KeyPath.Strays.exists_word,
    fun hnamed hhead => Query.orderTerm_accepted_iff hnamed hhead,
    fun relations owner field hnames => ⟨?_, ?_⟩⟩
  · simp only [KeyPath.readPredicate_iff hv]
    exact KeyPath.exists_reads_iff v
  · exact fun hg table symbol aliasName quote htable =>
      KeyPath.compile_equates htable hv hg hnames aliasName quote
  · rintro b db hb hm hdb rfl rfl
    have hkeeps := hb.keeps hm hdb (fun c hc => ⟨_, hc⟩) fun c hc =>
      BoundQuery.selected_byPath_subset hm hv hnames hc db
    exact ⟨hkeeps.first, hkeeps.first?, hkeeps.deleteAll⟩

namespace Sample

/-- On users, the titles of posts can be asked for, and keep to the authors of such posts. But a name
that is negated is a key path, too, by which all users but one are deleted. -/
theorem keyPath_accepted_iff_titles : ∃ b : BoundQuery String,
    session.queryOn "User" = .ok b ∧
    (∃ clause, session.graph.compilePredicate "User" none session.operators id
        (KeyPath.predicate "posts.title" (.str "Hello")) = .ok clause ∧
      KeyPath.Equates clause id "user" ["posts"] "title" "title" (.str "Hello")) ∧
    b.KeepsTo records "posts.title" (.str "Hello") (b.selected records ∩
      b.holding records ["posts"] "Post" "title" (.str "Hello")) ∧
    ∃ db', b.deleteBy records "not.name" (.str "john") = .ok (14, db') := by
  have hdeleted : (do
      let b ← session.queryOn "User"
      return (← b.deleteBy records "not.name" (.str "john")).1).toOption = some 14 := by decide +kernel
  obtain ⟨b, hb, hdeleted⟩ := Except.bind_eq_ok.1 (Except.eq_ok_of_toOption hdeleted)
  obtain ⟨⟨n, db'⟩, hdelete, hn⟩ := Except.bind_eq_ok.1 hdeleted
  obtain rfl : n = 14 := Except.ok.inj hn
  have hentity : (session.catalogue.get (session.mapping.model "User").name).toOption = some "User" := by
    decide +kernel
  have hquery : b.session = session ∧ b.model = "User" := by
    obtain ⟨e, he, rfl⟩ := BoundQuery.queryOn_eq_ok hb
    obtain rfl := Except.ok.inj (he.symm.trans (Except.eq_ok_of_toOption hentity))
    exact ⟨rfl, rfl⟩
  have hnames : session.graph.Names "User" (Path.segments "posts.title") ["posts"] "Post" "title" :=
    ⟨by decide +kernel, by decide +kernel, by decide +kernel, by decide +kernel⟩
  have htable : session.operators.get? Operator.eq.token = some (.eq, "REGEXP") := by decide +kernel
  have hscalar : (Value.str "Hello").isScalar = true := rfl
  obtain ⟨-, -, -, hasks⟩ := EntityGraph.keyPath_accepted_iff hscalar "User" "posts.title"
  obtain ⟨hcompiles, hkeeps⟩ := hasks _ _ _ hnames
  have hnavigable := (proper.dotFree session.isRegistered).navigable "User"
  have hproper : b.session.mapping.Proper := hquery.1 ▸ proper
  have hkeyed : records.Keyed b.session.mapping := by rw [hquery.1]; exact records_keyed
  refine ⟨b, hb, hcompiles hnavigable _ _ none id htable, ?_, db', hdelete⟩
  exact hkeeps b records (.fresh hb) hproper hkeyed (congrArg Session.graph hquery.1) hquery.2

end Sample

end EntityQuery
