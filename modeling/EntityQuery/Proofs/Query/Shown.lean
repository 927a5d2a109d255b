import EntityQuery.Sample
import EntityQuery.Proofs.Layout.Shown
import EntityQuery.Proofs.Query.Stages

/-! What plans show of rows. A plan takes each column and each relation of a level once, but two of them
may ask for one key; then the level shows the later one. -/

namespace EntityQuery

variable {ι : Type} {g : EntityGraph ι}

theorem Selection.setColumn_distinct {c c' : Context ι} {path field key : String}
    (hc : c.layout.Distinct) (h : (setColumn path field key).exec c = (.ok (), c')) :
    c'.layout.Distinct := by
  rcases setColumn_eq_ok h with ⟨-, rfl⟩ | ⟨-, -, rfl⟩
  · exact ⟨Assoc.nodup_keys_set hc.columns field key, hc.branches⟩
  · exact hc.modifyBranch (.columns fun _ hcolumns => Assoc.nodup_keys_set hcolumns field key) path

namespace Query

/-- The layout of a plan has distinct levels, whatever the graph and the query. -/
theorem layout_distinct {e : ι} {aliasName : Option String} {table : OperatorTable}
    {quote : String → String} {stable : Bool} {q : Query} {p : QueryPlan ι}
    (h : q.plan g e aliasName table quote stable = .ok p) : p.layout.Distinct := by
  obtain ⟨c₁, c₂, c₃, c₄, filters, order, hstages, rfl⟩ := plan_eq_ok.1 h
  refine hstages.keeps (P := fun c => c.layout.Distinct) (fun _ _ _ _ hc _ => hc) ?_
    (fun _ _ _ _ _ => Selection.setColumn_distinct) (fun _ _ _ hc => hc) Layout.distinct_empty
  intro c holder b rename hcolumns hchildren hc
  exact hc.placeAt holder (Branch.distinct_of_leaf hcolumns hchildren) rename

/-- Every level of a plan takes each of its columns and relations once, and shows every row that a result
holds for it: one entry for each key, with the last datum of that key. -/
theorem levels_show_rows {e : ι} {aliasName : Option String} {table : OperatorTable}
    {quote : String → String} {stable : Bool} {q : Query} {p : QueryPlan ι}
    (h : q.plan g e aliasName table quote stable = .ok p) :
    (∀ row, p.layout.shape row = p.layout.level.shape row) ∧
    ∀ level ∈ p.layout.levels, level.Distinct ∧ ∀ row, Branch.Hydrated level.branches row →
      ∃ out, level.shape row = .ok out ∧ level.Shows row out :=
  ⟨p.layout.shape_eq, fun level hlevel =>
    ⟨(layout_distinct h).of_mem_levels hlevel, fun _ => level.exists_shape⟩⟩

end Query

namespace Sample

/-- A plan that shows columns of a user, with related posts. -/
def userPlan (included selected : Value) : Except QueryError (QueryPlan String) := do
  let g := mapping.graph fun _ => true
  let is ← g.readInclusion "User" included
  let ss ← g.readSelection "User" selected
  ((Query.empty.addInclusions is).addSelections ss).plan g "User" none (.ofDialect none) id true

/-- A selection of two columns under one key. -/
def sharedKey : Value := .obj [("id", .obj [("as", .str "x")]), ("name", .obj [("as", .str "x")])]

/-- A user with an id and a name, of which one entry is shown. -/
theorem shared_key_loses_column : ∃ p out, userPlan (.obj []) sharedKey = .ok p ∧
    Branch.Hydrated p.layout.branches [("id", .int 1), ("name", .str "john")] ∧
    p.layout.rootColumns = [("id", "x"), ("name", "x")] ∧
    p.layout.shape [("id", .int 1), ("name", .str "john")] = .ok out ∧
    out = [("x", .str "john")] := by
  obtain ⟨p, hp⟩ := Except.exists_of_isOk
    (show (userPlan (.obj []) sharedKey).isOk = true by decide +kernel)
  have hlayout : (userPlan (.obj []) sharedKey).toOption.map (fun p =>
      (p.layout.rootColumns, p.layout.branches.length)) = some ([("id", "x"), ("name", "x")], 0) := by
    decide +kernel
  rw [hp] at hlayout
  obtain ⟨hcolumns, hbranches⟩ := Prod.mk.inj (Option.some.inj hlayout)
  rw [List.length_eq_zero_iff] at hbranches
  refine ⟨p, _, hp, ?_, hcolumns, ?_, rfl⟩
  · rw [hbranches]
    exact .mk (by decide) (by simp)
  · rw [Layout.shape, hcolumns, hbranches]
    rfl

/-- Posts under the key of a column, and a column of theirs under one of its own. -/
def namesWithPosts : Except QueryError (QueryPlan String) :=
  userPlan (.obj [("posts", .obj [("as", .str "name")])])
    (.obj [("name", .bool true), ("posts", .obj [("title", .obj [("as", .str "t")])])])

/-- A user with two posts, as a result holds them. -/
def hydratedUser : Row :=
  [("name", .str "john"), ("age", .int 30),
    ("posts", .list [.obj [("title", .str "Hello")], .obj [("title", .str "Draft")]])]

/-- The posts that are shown take the place of the name, whose key they share. -/
theorem levels_show_rows_posts : ∃ p, namesWithPosts = .ok p ∧
    p.layout.levels.map (·.columns) = [[("name", "name")], [("title", "t")]] ∧
    (∀ level ∈ p.layout.levels, level.Distinct) ∧
    Branch.Hydrated p.layout.branches hydratedUser ∧
    ∃ out, p.layout.shape hydratedUser = .ok out ∧ p.layout.level.Shows hydratedUser out ∧
      out = [("name", .list [.obj [("t", .str "Hello")], .obj [("t", .str "Draft")]])] := by
  have hlevels : namesWithPosts.toOption.map (fun p =>
      (p.layout.rootColumns, p.layout.levels.map (·.columns))) =
        some ([("name", "name")], [[("name", "name")], [("title", "t")]]) := by decide +kernel
  have hbranches : namesWithPosts.toOption.map (fun p =>
      p.layout.branches.map fun b => (b.name, b.outputKey, b.columns)) =
        some [("posts", "name", [("title", "t")])] := by decide +kernel
  have hchildren : namesWithPosts.toOption.map (fun p =>
      p.layout.branches.all (·.children.isEmpty)) = some true := by decide +kernel
  obtain ⟨p, hp, hcolumns⟩ := Option.map_eq_some_iff.1 hlevels
  replace hp := Except.eq_ok_of_toOption hp
  obtain ⟨hroot, hcolumns⟩ := Prod.mk.inj hcolumns
  rw [hp] at hbranches hchildren
  obtain ⟨⟨name, path, parentPath, aliasName, key, columns, children⟩, hposts, hb⟩ :=
    List.map_eq_singleton_iff.1 (Option.some.inj hbranches)
  simp only [Prod.mk.injEq] at hb
  obtain ⟨rfl, rfl, rfl⟩ := hb
  obtain rfl : children = [] := by simpa [Except.toOption, hposts] using hchildren
  have hhydrated : Branch.Hydrated p.layout.branches hydratedUser := by
    rw [hposts]
    refine .mk (by decide) (List.forall_mem_singleton.2 ?_)
    have hposts : ∀ row ∈ ([[("title", .str "Hello")], [("title", .str "Draft")]] : List Row),
        Branch.Hydrated [] row := fun row hrow => .mk (by revert row; decide) (by simp)
    exact .several (b := ⟨"posts", path, parentPath, aliasName, "name", [("title", "t")], []⟩) hposts
  obtain ⟨is, -, h⟩ := Except.bind_eq_ok.1 hp
  obtain ⟨ss, -, hplan⟩ := Except.bind_eq_ok.1 h
  obtain ⟨hshape, hshown⟩ := Query.levels_show_rows hplan
  have hmem : p.layout.level ∈ p.layout.levels := List.mem_cons_self
  obtain ⟨out, hout, hshows⟩ := (hshown _ hmem).2 hydratedUser hhydrated
  refine ⟨p, hp, hcolumns, fun level hlevel => (hshown level hlevel).1, hhydrated, out,
    (hshape _).trans hout, hshows, ?_⟩
  rw [hshows.eq_ofPairs, Layout.level, hroot, hposts]
  rfl

end Sample

end EntityQuery
