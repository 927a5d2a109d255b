import EntityQuery.Sample
import EntityQuery.Proofs.Filter.Lexing
import EntityQuery.Proofs.Query.Stages

/-! The text of a clause means what its predicates mean. It reads as one boolean expression, whose
truth on any rows of the aliases is that of the predicates on the rows of the joined paths; it is empty
exactly where no predicate compares anything. -/

namespace EntityQuery

variable {ι : Type}

namespace Filter

theorem Solid.columns_ne_nil {f : Filter} (h : f.Solid) : f.columns ≠ [] := by
  have hparts : ∀ {parts : List Filter}, parts ≠ [] → (∀ f ∈ parts, f.columns ≠ []) →
      parts.flatMap columns ≠ [] := by
    intro parts hne hparts
    cases parts with
    | nil => exact absurd rfl hne
    | cons f rest =>
      rw [List.flatMap_cons]
      exact List.append_ne_nil_of_left_ne_nil (hparts f (by simp)) _
  induction h with
  | test => simp [columns_test]
  | @chain parts hne _ ih => exact columns_of_leaves (leaves_chain parts) ▸ hparts hne ih
  | @group c parts hne _ ih => exact columns_of_leaves (leaves_group c parts) ▸ hparts hne ih
  | negation _ ih => rwa [columns, leaves_negation]

/-- Something stands in the text of a solid filter. -/
theorem Solid.text_ne_empty {f : Filter} (h : f.Solid) (quote : String → String) :
    f.text quote ≠ "" := by
  obtain ⟨c, hc⟩ := List.exists_mem_of_ne_nil _ h.columns_ne_nil
  simp only [columns, leaves, List.filterMap_filterMap, List.mem_filterMap] at hc
  obtain ⟨t, ht, hleaf⟩ := hc
  intro htext
  have hchars := congrArg String.toList htext
  rw [text, FilterToken.chars_write, FilterToken.chars, String.toList_empty,
    List.flatMap_eq_nil_iff] at hchars
  cases t with
  | column c => simpa [FilterToken.text, ColumnRef.spell] using hchars _ ht
  | _ => simp [FilterToken.leaf?] at hleaf

/-- The conjunction of filters holds where all of them do. -/
theorem conjunction_eq_some {fs : List Filter} (hfs : ∀ f ∈ fs, f.Solid) {f : Filter}
    (h : conjunction fs = some f) :
    f.Solid ∧ f.leaves = fs.flatMap leaves ∧ ∀ ev sight parameters,
      f.eval ev sight parameters = .all (fs.map (eval ev sight parameters)) := by
  unfold conjunction at h
  split at h
  · cases h
  · next f' =>
    obtain rfl := Option.some.inj h
    exact ⟨hfs f' (by simp), by simp, fun _ _ _ => by simp [Truth.all, Truth.and_true]⟩
  · next hne _ =>
    obtain rfl := Option.some.inj h
    refine ⟨.chain (by simpa using hne) ?_, ?_, fun ev sight parameters => ?_⟩
    · intro part hpart
      obtain ⟨f, hf, rfl⟩ := List.mem_map.1 hpart
      exact .group (by simp) (by simpa using hfs f hf)
    · simp [leaves_chain, List.flatMap_map, leaves_group]
    · simp [eval_chain, eval_group_and, Function.comp_def, Truth.all, Truth.and_true]

theorem conjunction_eq_none_iff {fs : List Filter} : conjunction fs = none ↔ fs = [] := by
  match fs with
  | [] => simp [conjunction]
  | [f] => simp [conjunction]
  | f :: f' :: fs => simp [conjunction]

theorem conjunction_toList (f : Option Filter) : conjunction f.toList = f := by
  cases f <;> rfl

end Filter

namespace FilterToken

/-- Parameters of a field whose name is a word are words. -/
theorem isWord_of_namedAfter {field name : String} {n : Nat} (hfield : IsWord field)
    (h : Parameters.NamedAfter (field ++ "_" ++ toString n) name) : IsWord name := by
  have hkey : ∀ c ∈ (field ++ "_" ++ toString n).toList, isWordChar c = true := by
    intro c hc
    simp only [String.toList_append, List.mem_append] at hc
    rcases hc with (hc | hc) | hc
    · exact hfield.2 c hc
    · obtain rfl : c = '_' := by simpa using hc
      decide
    · have := Parameters.isDigit_of_mem_toString hc
      simp [isWordChar, Char.isAlphanum, this]
  have hne : ∀ rest, field ++ "_" ++ toString n ++ rest ≠ "" := by
    intro rest hempty
    simp [String.append_eq_empty_iff, hfield.1] at hempty
  have hend : ∀ rest, (∀ c ∈ rest.toList, isWordChar c = true) →
      IsWord (field ++ "_" ++ toString n ++ rest) := by
    refine fun rest hrest => ⟨hne rest, fun c hc => ?_⟩
    rw [String.toList_append, List.mem_append] at hc
    exact hc.elim (hkey c) (hrest c)
  rcases h with rfl | rfl | rfl
  · simpa using hend "" (by simp)
  · exact hend "_start" (by simp [isWordChar])
  · exact hend "_end" (by simp [isWordChar])

end FilterToken

/-- A clause means that the predicates, which talk about an entity under the alias `root`, all hold;
those that compare nothing do not count. The text is a row of tokens that reads as one expression.
Whatever regular expressions mean, whatever a driver makes of lists and whichever rows the aliases
stand for, the expression has the truth of the predicates on the rows at the joined paths. Where the
columns are spelled legibly and the names of the fields are words, the expression can be read off the
characters of the text. -/
structure FilterClause.Means (clause : FilterClause ι) (quote : String → String) (root : String)
    (ps : List Predicate) : Prop where
  empty_iff : clause.text = "" ↔ Predicate.anyComparison ps = false
  reads : Predicate.anyComparison ps = true → ∃ ts φ,
    clause.text = FilterToken.write (ColumnRef.spell quote) ts ∧
    FilterToken.formula? ts = some φ ∧
    (∀ ev rows rowAt, (∀ j ∈ clause.joins, rowAt j.path = rows j.aliasName) →
      some (φ.truth ev (sightOf rows) clause.parameters.values) =
        Predicate.together .all (Predicate.truths ev rowAt (rows root) "" ps)) ∧
    (∀ aliasAt, (∀ j ∈ clause.joins, aliasAt j.path = j.aliasName) →
      (∀ c ∈ Predicate.columnsOfAll aliasAt root "" ps, FilterToken.Legible quote c) →
      (∀ field ∈ Predicate.fieldNamesOfAll ps, FilterToken.IsWord field) →
      Formula.ofText? clause.text = some φ)

/-- Under the quote of a dialect the columns of a clause are legible, as long as it keeps their names. -/
theorem FilterClause.Means.exists_ofText? {clause : FilterClause ι} {d : Dialect} {root : String}
    {ps : List Predicate} (h : clause.Means d.quote root ps)
    (hcompares : Predicate.anyComparison ps = true) (aliasAt : String → String)
    (haliases : ∀ j ∈ clause.joins, aliasAt j.path = j.aliasName)
    (hkeeps : ∀ c ∈ Predicate.columnsOfAll aliasAt root "" ps, d.Keeps c)
    (hfields : ∀ field ∈ Predicate.fieldNamesOfAll ps, FilterToken.IsWord field) :
    ∃ φ, Formula.ofText? clause.text = some φ ∧
      ∀ ev rows rowAt, (∀ j ∈ clause.joins, rowAt j.path = rows j.aliasName) →
        some (φ.truth ev (sightOf rows) clause.parameters.values) =
          Predicate.together .all (Predicate.truths ev rowAt (rows root) "" ps) := by
  obtain ⟨ts, φ, -, -, htruth, hcharacters⟩ := h.reads hcompares
  exact ⟨φ, hcharacters aliasAt haliases (fun c hc => (hkeeps c hc).legible) hfields, htruth⟩

theorem JoinTree.Aligned.assigns {ρ : Type} {t : JoinTree ι} (ht : t.Aligned)
    {rows rowAt : String → ρ} (h : ∀ j ∈ t.joins, rowAt j.path = rows j.aliasName) :
    t.Assigns rows rowAt := by
  intro path aliasName hp
  obtain ⟨j, hj, rfl, rfl⟩ := ht.exists_of_get? hp
  exact h j hj

/-- Filters that are built from predicates make a clause with the meaning of the predicates. -/
theorem Predicate.Builds.means {table : OperatorTable} {root : String} {ps : List Predicate}
    {c c' : Context ι} {fs : List Filter} (h : Predicate.Builds table root "" ps c fs c')
    (ht : table.Spelled) (quote : String → String) :
    (c'.clause (Filter.textOf quote (Filter.conjunction fs))).Means quote root ps := by
  have hany : Predicate.anyComparison ps = !fs.isEmpty := by
    let row : RowSight := fun _ => (.integer, .null)
    have hrows : c'.tree.Assigns (fun _ => row) (fun _ => row) := fun _ _ _ => rfl
    have htruth := h.truth ⟨fun _ _ _ => .unknown, id⟩ _ (.refl _) _ _ hrows
    rw [← Predicate.truths_isEmpty ⟨fun _ _ _ => .unknown, id⟩ _ _ "" ps, ← htruth, List.isEmpty_map]
  cases hconj : Filter.conjunction fs with
  | none =>
    have hnone : Predicate.anyComparison ps = false := by
      rw [hany, Filter.conjunction_eq_none_iff.1 hconj]
      rfl
    exact ⟨by simp [hnone, Context.clause, Filter.textOf], fun hsome => by simp [hnone] at hsome⟩
  | some f =>
    obtain ⟨hsolid, hleaves, htruth⟩ := Filter.conjunction_eq_some (h.solid ht) hconj
    have hsome : Predicate.anyComparison ps = true := by
      rw [hany, Bool.not_eq_true', List.isEmpty_eq_false_iff]
      rintro rfl
      simp [Filter.conjunction] at hconj
    have htext := hsolid.text_ne_empty quote
    refine ⟨by simp [hsome, Context.clause, Filter.textOf, htext], fun _ => ?_⟩
    obtain ⟨φ, hφ, -⟩ := hsolid.formula ⟨fun _ _ _ => .unknown, id⟩ (fun _ => (.integer, .null)) []
    refine ⟨f.tokens, φ, rfl, hφ, fun ev rows rowAt hrows => ?_,
      fun aliasAt haliases hnames hfields => ?_⟩
    · have hassigns := h.sound.tree.assigns hrows
      obtain ⟨φ', hφ', hsame⟩ := hsolid.formula ev (sightOf rows) c'.parameters.values
      obtain rfl := Option.some.inj (hφ.symm.trans hφ')
      rw [← h.truth ev _ (.refl _) rows rowAt hassigns, Context.clause, hsame, htruth]
      cases fs with
      | nil => simp [Filter.conjunction] at hconj
      | cons f fs => rfl
    · have hassigns : c'.tree.Assigns id aliasAt := h.sound.tree.assigns haliases
      have hf : f.Legible quote := by
        constructor
        · rw [Filter.columns_of_leaves hleaves, h.columns aliasAt hassigns]
          exact hnames
        · intro name hname
          rw [Filter.parameters_of_leaves hleaves] at hname
          obtain ⟨field, hfield, n, hnamed⟩ := h.named name hname
          exact FilterToken.isWord_of_namedAfter (hfields field hfield) hnamed
      rw [Formula.ofText?, Context.clause, Filter.textOf, Option.map_some, Option.getD_some,
        hsolid.spelled.lex_text hf, Option.bind_some, hφ]

/-- The clause of a predicate object means the predicate that is read from it, and the clause of a
query means that its predicates all hold. -/
theorem clause_means_predicates (g : EntityGraph ι) (e : ι) (aliasName dialect : Option String)
    (quote : String → String) :
    (∀ data clause, g.compilePredicate e aliasName (.ofDialect dialect) quote data = .ok clause →
      ∃ p, g.readPredicate e data = .ok p ∧
        clause.Means quote (rootAlias aliasName (g.entity e)) [p]) ∧
    (∀ stable (q : Query) plan, (∀ p ∈ q.predicates, ∃ data, g.readPredicate e data = .ok p) →
      q.plan g e aliasName (.ofDialect dialect) quote stable = .ok plan →
      plan.clause.Means quote plan.rootAlias q.predicates) := by
  constructor
  · intro data clause h
    simp only [EntityGraph.compilePredicate, Except.bind_eq_ok] at h
    obtain ⟨p, hp, h⟩ := h
    cases hrun : (p.toFilter g (.ofDialect dialect) "" "").exec
      (Context.start e (rootAlias aliasName (g.entity e))) with
    | mk result c =>
      rw [hrun] at h
      dsimp only at h
      obtain ⟨f, rfl, h⟩ := h
      have hbuilds := (Predicate.read_over data hp).compiles (.ofDialect dialect)
        (Context.sound_start _ _) hrun
      have hmeans := hbuilds.means (OperatorTable.spelled_ofDialect dialect) quote
      rw [Filter.conjunction_toList] at hmeans
      exact ⟨p, hp, Except.ok.inj h ▸ hmeans⟩
  · intro stable q plan hread h
    obtain ⟨c₁, c₂, c₃, c₄, filters, order, hstages, rfl⟩ := Query.plan_eq_ok.1 h
    have hsound := hstages.sound (Context.sound_start _ _)
    have hbuilds := Predicate.toFilters_builds (fun p hp =>
      have ⟨data, hdata⟩ := hread p hp
      (Predicate.read_over data hdata).compiles (.ofDialect dialect)) hsound.1 hstages.predicates
    have hroot : c₂.tree.aliases.root = rootAlias aliasName (g.entity e) := hsound.2.rootAlias
    rw [hroot] at hbuilds
    exact hbuilds.means (OperatorTable.spelled_ofDialect dialect) quote

namespace Sample

/-- Users of a certain age or with a post of a certain title. -/
def adultsOrAuthors : Value :=
  .obj [("or", .list [
    .obj [("age", .obj [("between", .list [.int 30, .int 40])])],
    .obj [("posts", .obj [("title", .obj [("like", .str "ell")])])]])]

/-- The clause of these users, with the quote of SQLite. -/
def quotedClause : Except QueryError (FilterClause String) :=
  (mapping.graph fun _ => true).compilePredicate "User" (some "u") (.ofDialect none)
    Dialect.sqlite.quote adultsOrAuthors

theorem exists_ofText?_quotedClause {clause : FilterClause String} {p : Predicate}
    (h : quotedClause = .ok clause)
    (hp : (mapping.graph fun _ => true).readPredicate "User" adultsOrAuthors = .ok p)
    (hmeans : clause.Means Dialect.sqlite.quote "u" [p]) :
    ∃ φ, Formula.ofText? clause.text = some φ := by
  have hjoins : quotedClause.toOption.map (fun clause => clause.joins.map (·.aliasName)) =
      some ["u_posts"] := by decide +kernel
  have hread : ((mapping.graph fun _ => true).readPredicate "User" adultsOrAuthors).toOption.map
      (fun p => (Predicate.anyComparison [p], Predicate.fieldNamesOfAll [p])) =
        some (true, ["age", "title"]) := by decide +kernel
  rw [h] at hjoins
  rw [hp] at hread
  obtain ⟨hcompares, hfields⟩ := Prod.mk.inj (Option.some.inj hread)
  replace hjoins : clause.joins.map (·.aliasName) = ["u_posts"] := Option.some.inj hjoins
  have haliases : ∀ j ∈ clause.joins, "u_posts" = j.aliasName := by
    intro j hj
    have hname : j.aliasName ∈ clause.joins.map (·.aliasName) := List.mem_map_of_mem hj
    rw [hjoins, List.mem_singleton] at hname
    exact hname.symm
  have hwords : ∀ field ∈ ["age", "title"], FilterToken.IsWord field := by
    simp [FilterToken.IsWord, FilterToken.isWordChar]
  obtain ⟨φ, hφ, -⟩ := hmeans.exists_ofText? hcompares (fun _ => "u_posts") haliases
    (fun _ _ => .inl rfl) (hfields ▸ hwords)
  exact ⟨φ, hφ⟩

theorem clause_means_adultsOrAuthors :
    (∃ (clause : FilterClause String) (p : Predicate),
      (mapping.graph fun _ => true).readPredicate "User" adultsOrAuthors = .ok p ∧
      clause.text =
        "(u.age BETWEEN :age_0_start AND :age_0_end OR u_posts.title LIKE :title_1)" ∧
      clause.Means id "u" [p]) ∧
    (∃ p plan, (mapping.graph fun _ => true).readPredicate "User" adultsOrAuthors = .ok p ∧
      ((Query.empty.addPredicate p).addPredicate p).plan (mapping.graph fun _ => true) "User"
        (some "u") (.ofDialect none) id true = .ok plan ∧
      plan.clause.Means id plan.rootAlias [p, p]) ∧
    ∃ clause φ, quotedClause = .ok clause ∧ Formula.ofText? clause.text = some φ := by
  have hmeans := clause_means_predicates (mapping.graph fun _ => true) "User" (some "u") none id
  refine ⟨?_, ?_, ?_⟩
  · obtain ⟨clause, hclause⟩ := Except.exists_of_isOk (show
      ((mapping.graph fun _ => true).compilePredicate "User" (some "u") (.ofDialect none) id
        adultsOrAuthors).isOk = true by decide +kernel)
    obtain ⟨p, hp, h⟩ := hmeans.1 _ _ hclause
    refine ⟨clause, p, hp, ?_, h⟩
    have htext : ((mapping.graph fun _ => true).compilePredicate "User" (some "u")
        (.ofDialect none) id adultsOrAuthors).toOption.map (·.text) = some
          "(u.age BETWEEN :age_0_start AND :age_0_end OR u_posts.title LIKE :title_1)" := by
      decide +kernel
    rw [hclause] at htext
    exact Option.some.inj htext
  · obtain ⟨plan, hplan⟩ := Except.exists_of_isOk (show (do
      let p ← (mapping.graph fun _ => true).readPredicate "User" adultsOrAuthors
      ((Query.empty.addPredicate p).addPredicate p).plan (mapping.graph fun _ => true) "User"
        (some "u") (.ofDialect none) id true).isOk = true by decide +kernel)
    obtain ⟨p, hp, hplan⟩ := Except.bind_eq_ok.1 hplan
    have hread : ∀ p' ∈ ((Query.empty.addPredicate p).addPredicate p).predicates,
        ∃ data, (mapping.graph fun _ => true).readPredicate "User" data = .ok p' := by
      simpa [Query.addPredicate, Query.empty] using ⟨_, hp⟩
    exact ⟨p, plan, hp, hplan, hmeans.2 _ _ _ hread hplan⟩
  · have hcompiles : quotedClause.isOk = true := by decide +kernel
    obtain ⟨clause, hclause⟩ := Except.exists_of_isOk hcompiles
    obtain ⟨p, hp, hquoted⟩ := (clause_means_predicates (mapping.graph fun _ => true) "User"
      (some "u") none Dialect.sqlite.quote).1 _ _ hclause
    obtain ⟨φ, hφ⟩ := exists_ofText?_quotedClause hclause hp hquoted
    exact ⟨clause, φ, hclause, hφ⟩

end Sample

end EntityQuery
