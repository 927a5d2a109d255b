import EntityQuery.Filter.OfPredicate
import EntityQuery.KeyPath
import EntityQuery.Proofs.Join.Chained
import EntityQuery.Proofs.Predicate.Truth

/-! What key paths are read as. A path that names a column, by the relations that lead to it and the
column itself, is read as the equality that it asks for. The words of the predicate language are read
as words on the way, so that two more kinds of paths are read: those with a negation in the place of a
relation, and those on which an operator follows the column. -/

namespace EntityQuery

variable {ι : Type}

/-- Segments that name a column: relations that lead to its owner, and its field. -/
structure EntityGraph.Names (g : EntityGraph ι) (e : ι) (segs relations : List String) (owner : ι)
    (field : String) : Prop where
  segments : segs = relations ++ [field]
  along : g.entityAlong e relations = some owner
  column : (g.entity owner).hasColumn field = true
  noRelation : (g.entity owner).relation? field = none

namespace KeyPath

/-- The equality of a column with a value, at the end of some relations. -/
def equality (relations : List String) (field column : String) (value : Value) : Predicate :=
  relations.foldr .relation (.field field column [.test .eq value])

/-- The object that leads along some relations to another one. -/
def along (relations : List String) (data : Value) : Value :=
  relations.foldr (fun s inner => .obj [(s, inner)]) data

/-- What segments are read as on an entity. -/
inductive Reads (g : EntityGraph ι) (value : Value) : ι → List String → Predicate → Prop
  | column {e : ι} {field : String} (hrelation : (g.entity e).relation? field = none)
    (hcolumn : (g.entity e).hasColumn field = true) :
    Reads g value e [field] (.field field ((g.entity e).columnName field) [.test .eq value])
  | operator {e : ι} {field token : String} {op : Operator} {rest : List String}
    (hrelation : (g.entity e).relation? field = none)
    (hcolumn : (g.entity e).hasColumn field = true)
    (hop : Operator.ofToken? (Token.normalize token) = some op) :
    Reads g value e (field :: token :: rest)
      (.field field ((g.entity e).columnName field) [.test op (nest value rest)])
  | relation {e : ι} {name : String} {r : Relation ι} {rest : List String} {p : Predicate}
    (hrelation : (g.entity e).relation? name = some r) (h : Reads g value r.target rest p) :
    Reads g value e (name :: rest) (.relation name p)
  | negation {e : ι} {token : String} {rest : List String} {p : Predicate}
    (hrelation : (g.entity e).relation? token = none)
    (hcolumn : (g.entity e).hasColumn token = false)
    (htoken : Combinator.ofToken? (Token.normalize token) = some .not)
    (h : Reads g value e rest p) : Reads g value e (token :: rest) (.not p)

/-- Segments that are read although they name no column. -/
inductive Strays (g : EntityGraph ι) : ι → List String → Prop
  | operator {e : ι} {field token : String} {op : Operator} {rest : List String}
    (hrelation : (g.entity e).relation? field = none)
    (hcolumn : (g.entity e).hasColumn field = true)
    (hop : Operator.ofToken? (Token.normalize token) = some op) : Strays g e (field :: token :: rest)
  | relation {e : ι} {name : String} {r : Relation ι} {rest : List String}
    (hrelation : (g.entity e).relation? name = some r) (h : Strays g r.target rest) :
    Strays g e (name :: rest)
  | negated {e owner : ι} {token field : String} {rest relations : List String}
    (hrelation : (g.entity e).relation? token = none)
    (hcolumn : (g.entity e).hasColumn token = false)
    (htoken : Combinator.ofToken? (Token.normalize token) = some .not)
    (h : g.Names e rest relations owner field) : Strays g e (token :: rest)
  | negation {e : ι} {token : String} {rest : List String}
    (hrelation : (g.entity e).relation? token = none)
    (hcolumn : (g.entity e).hasColumn token = false)
    (htoken : Combinator.ofToken? (Token.normalize token) = some .not)
    (h : Strays g e rest) : Strays g e (token :: rest)

/-- A word of the predicate language that an object without lists can hold. -/
def IsWord (s : String) : Prop :=
  Combinator.ofToken? (Token.normalize s) = some .not ∨
    ∃ op, Operator.ofToken? (Token.normalize s) = some op

variable {g : EntityGraph ι} {value : Value}

/-! ### Reading -/

theorem exists_nest (value : Value) (segs : List String) : ∃ members, nest value segs = .obj members := by
  cases segs with
  | nil => exact ⟨_, rfl⟩
  | cons s rest => exact ⟨_, rfl⟩

theorem exists_along (relations : List String) (members : List (String × Value)) :
    ∃ members', along relations (.obj members) = .obj members' := by
  cases relations with
  | nil => exact ⟨_, rfl⟩
  | cons s rest => exact ⟨_, rfl⟩

/-- The object that is left when a path has no more segments is no predicate. -/
theorem not_read_value (hvalue : value.isScalar = true) (g : EntityGraph ι) (e : ι) (place : String)
    (p : Predicate) : Predicate.read g e place (nest value []) ≠ .ok p := by
  intro h
  obtain ⟨members, entries, hmembers, hentries, -⟩ := Predicate.read_eq_ok.1 h
  obtain rfl := Value.obj.inj hmembers
  obtain ⟨first, others, hfirst, -, -⟩ := Predicate.readMembers_cons_eq_ok.1 hentries
  generalize hkey : Operator.eq.token = key at hfirst
  cases hfirst with
  | relation _ h =>
    obtain ⟨members, entries, rfl, -⟩ := Predicate.read_eq_ok.1 h
    simp [Value.isScalar] at hvalue
  | field _ _ h =>
    obtain ⟨members, rfl, -⟩ := Comparison.readAll_eq_ok.1 h
    simp [Value.isScalar] at hvalue
  | not _ hchild h =>
    obtain ⟨members, entries, rfl, -⟩ := Predicate.read_eq_ok.1 h
    rcases hchild with rfl | rfl <;> simp [Value.isScalar] at hvalue
  | all => simp [Value.isScalar] at hvalue
  | any => simp [Value.isScalar] at hvalue

section Members

variable {e : ι} {place key : String}

theorem readMembers_nil : Predicate.readMembers g e place [] = .ok [] := by
  unfold Predicate.readMembers
  rfl

theorem read_relation {r : Relation ι} (hrelation : (g.entity e).relation? key = some r)
    (members : List (String × Value)) :
    Predicate.read g e place (.obj [(key, .obj members)]) =
      (do return .relation key (← Predicate.read g r.target (Path.child place key) (.obj members))) := by
  rw [Predicate.read]
  unfold Predicate.readMembers
  rw [Predicate.read]
  simp only [hrelation, readMembers_nil]
  cases Predicate.readMembers g r.target (Path.child place key) members <;> rfl

theorem read_column (hrelation : (g.entity e).relation? key = none)
    (hcolumn : (g.entity e).hasColumn key = true) (condition : Value) :
    Predicate.read g e place (.obj [(key, condition)]) =
      (do
        let cs ← Comparison.readAll (Path.child place key) condition
        return .field key ((g.entity e).columnName key) cs) := by
  rw [Predicate.read]
  unfold Predicate.readMembers
  simp only [hrelation, hcolumn, if_true, readMembers_nil]
  cases Comparison.readAll (Path.child place key) condition <;> rfl

theorem read_negation (hrelation : (g.entity e).relation? key = none)
    (hcolumn : (g.entity e).hasColumn key = false)
    (htoken : Combinator.ofToken? (Token.normalize key) = some .not)
    (members : List (String × Value)) :
    Predicate.read g e place (.obj [(key, .obj members)]) =
      (do return .not (← Predicate.read g e place (.obj members))) := by
  rw [Predicate.read]
  unfold Predicate.readMembers
  simp only [hrelation, hcolumn, htoken, readMembers_nil]
  cases Predicate.read g e place (.obj members) <;> rfl

/-- No other key can stand before an object. -/
theorem not_read_other (hrelation : (g.entity e).relation? key = none)
    (hcolumn : (g.entity e).hasColumn key = false)
    (htoken : Combinator.ofToken? (Token.normalize key) ≠ some .not)
    (members : List (String × Value)) (p : Predicate) :
    Predicate.read g e place (.obj [(key, .obj members)]) ≠ .ok p := by
  rw [Predicate.read]
  unfold Predicate.readMembers
  simp only [hrelation, hcolumn]
  match hword : Combinator.ofToken? (Token.normalize key) with
  | none => exact nofun
  | some .not => exact absurd hword htoken
  | some .all => exact nofun
  | some .any => exact nofun

end Members

/-- What stands at the end of some relations is read on the entity that they lead to. -/
theorem read_along {relations : List String} {e owner : ι} {members : List (String × Value)}
    {p : Predicate} (halong : g.entityAlong e relations = some owner)
    (h : ∀ place, Predicate.read g owner place (.obj members) = .ok p) (place : String) :
    Predicate.read g e place (along relations (.obj members)) = .ok (relations.foldr .relation p) := by
  induction relations generalizing e place with
  | nil =>
    obtain rfl := Option.some.inj halong
    exact h place
  | cons s rest ih =>
    rw [EntityGraph.entityAlong, Option.bind_eq_some_iff] at halong
    obtain ⟨r, hr, halong⟩ := halong
    obtain ⟨members', hmembers⟩ := exists_along rest members
    have hrest := ih halong (Path.child place s)
    rw [hmembers] at hrest
    rw [along, List.foldr_cons, ← along, hmembers, read_relation hr, hrest]
    rfl

theorem readAll_nest_nil (value : Value) (place : String) :
    Comparison.readAll place (nest value []) = .ok [.test .eq value] := rfl

/-- An object of one operator is read as its test. -/
theorem readAll_singleton {place token : String} {op : Operator}
    (h : Operator.ofToken? (Token.normalize token) = some op) (value : Value) :
    Comparison.readAll place (.obj [(token, value)]) = .ok [.test op value] := by
  have hne : Token.normalize token ≠ Token.alternatives := by
    intro hor
    rw [hor] at h
    cases h
  unfold Comparison.readAll Comparison.readMembers
  simp only [if_neg hne, h]
  rfl

/-- Segments after a column are read as an operator on the object that the rest makes. -/
theorem readAll_nest_cons {place token : String} {rest : List String} {cs : List Comparison} :
    Comparison.readAll place (nest value (token :: rest)) = .ok cs ↔
      ∃ op, Operator.ofToken? (Token.normalize token) = some op ∧ cs = [.test op (nest value rest)] := by
  constructor
  · intro h
    obtain ⟨members, hmembers⟩ := exists_nest value rest
    rw [nest, hmembers] at h
    unfold Comparison.readAll Comparison.readMembers at h
    by_cases hor : Token.normalize token = Token.alternatives
    · simp only [hor, if_true] at h
      cases h
    · simp only [hor, if_false] at h
      cases hop : Operator.ofToken? (Token.normalize token) with
      | none =>
        rw [hop] at h
        cases h
      | some op =>
        rw [hop] at h
        exact ⟨op, rfl, hmembers ▸ (Except.ok.inj h).symm⟩
  · rintro ⟨op, hop, rfl⟩
    exact readAll_singleton hop _

theorem reads_of_read (hvalue : value.isScalar = true) {segs : List String} {e : ι} {place : String}
    {p : Predicate} (h : Predicate.read g e place (nest value segs) = .ok p) :
    Reads g value e segs p := by
  induction segs generalizing e place p with
  | nil => exact absurd h (not_read_value hvalue g e place p)
  | cons s rest ih =>
    obtain ⟨members, hmembers⟩ := exists_nest value rest
    rw [nest] at h
    cases hrelation : (g.entity e).relation? s with
    | some r =>
      rw [hmembers, read_relation hrelation, ← hmembers] at h
      obtain ⟨q, hq, h⟩ := Except.bind_eq_ok.1 h
      obtain rfl := Except.ok.inj h
      exact .relation hrelation (ih hq)
    | none =>
      cases hcolumn : (g.entity e).hasColumn s with
      | true =>
        rw [read_column hrelation hcolumn] at h
        obtain ⟨cs, hcs, h⟩ := Except.bind_eq_ok.1 h
        obtain rfl := Except.ok.inj h
        cases rest with
        | nil =>
          rw [readAll_nest_nil] at hcs
          obtain rfl := Except.ok.inj hcs
          exact .column hrelation hcolumn
        | cons token rest =>
          obtain ⟨op, hop, rfl⟩ := readAll_nest_cons.1 hcs
          exact .operator hrelation hcolumn hop
      | false =>
        rw [hmembers] at h
        by_cases htoken : Combinator.ofToken? (Token.normalize s) = some .not
        · rw [read_negation hrelation hcolumn htoken, ← hmembers] at h
          obtain ⟨q, hq, h⟩ := Except.bind_eq_ok.1 h
          obtain rfl := Except.ok.inj h
          exact .negation hrelation hcolumn htoken (ih hq)
        · exact absurd h (not_read_other hrelation hcolumn htoken members p)

theorem read_of_reads {segs : List String} {e : ι} {p : Predicate} (h : Reads g value e segs p)
    (place : String) : Predicate.read g e place (nest value segs) = .ok p := by
  induction h generalizing place with
  | column hrelation hcolumn =>
    rw [nest, read_column hrelation hcolumn, readAll_nest_nil]
    rfl
  | operator hrelation hcolumn hop =>
    rw [nest, read_column hrelation hcolumn, readAll_nest_cons.2 ⟨_, hop, rfl⟩]
    rfl
  | @relation _ _ _ rest _ hrelation _ ih =>
    obtain ⟨members, hmembers⟩ := exists_nest value rest
    rw [nest, hmembers, read_relation hrelation, ← hmembers, ih]
    rfl
  | @negation _ _ rest _ hrelation hcolumn htoken _ ih =>
    obtain ⟨members, hmembers⟩ := exists_nest value rest
    rw [nest, hmembers, read_negation hrelation hcolumn htoken, ← hmembers, ih]
    rfl

/-- A key path to a scalar is read as just what its segments are read as. -/
theorem readPredicate_iff (hvalue : value.isScalar = true) {e : ι} {path : String} {p : Predicate} :
    g.readPredicate e (predicate path value) = .ok p ↔ Reads g value e (Path.segments path) p :=
  ⟨fun h => reads_of_read hvalue h, fun h => read_of_reads h ""⟩

/-! ### Names and words -/

theorem reads_of_names {e owner : ι} {segs relations : List String} {field : String}
    (h : g.Names e segs relations owner field) (value : Value) :
    Reads g value e segs (equality relations field ((g.entity owner).columnName field) value) := by
  obtain ⟨rfl, halong, hcolumn, hrelation⟩ := h
  induction relations generalizing e with
  | nil =>
    obtain rfl := Option.some.inj halong
    exact .column hrelation hcolumn
  | cons s rest ih =>
    rw [EntityGraph.entityAlong, Option.bind_eq_some_iff] at halong
    obtain ⟨r, hr, halong⟩ := halong
    exact .relation hr (ih halong)

/-- Segments are read when they name a column or stray from naming one. -/
theorem exists_reads_iff {e : ι} {segs : List String} (value : Value) :
    (∃ p, Reads g value e segs p) ↔
      (∃ relations owner field, g.Names e segs relations owner field) ∨ Strays g e segs := by
  constructor
  · rintro ⟨p, h⟩
    induction h with
    | column hrelation hcolumn => exact .inl ⟨[], _, _, rfl, rfl, hcolumn, hrelation⟩
    | operator hrelation hcolumn hop => exact .inr (.operator hrelation hcolumn hop)
    | @relation _ name _ _ _ hrelation _ ih =>
      rcases ih with ⟨relations, owner, field, hnames⟩ | hstrays
      · refine .inl ⟨name :: relations, owner, field, ?_, ?_, hnames.column, hnames.noRelation⟩
        · rw [hnames.segments]
          rfl
        · rw [EntityGraph.entityAlong, hrelation]
          exact hnames.along
      · exact .inr (.relation hrelation hstrays)
    | negation hrelation hcolumn htoken _ ih =>
      rcases ih with ⟨relations, owner, field, hnames⟩ | hstrays
      · exact .inr (.negated hrelation hcolumn htoken hnames)
      · exact .inr (.negation hrelation hcolumn htoken hstrays)
  · rintro (⟨relations, owner, field, hnames⟩ | hstrays)
    · exact ⟨_, reads_of_names hnames value⟩
    · induction hstrays with
      | operator hrelation hcolumn hop => exact ⟨_, .operator hrelation hcolumn hop⟩
      | relation hrelation _ ih =>
        obtain ⟨p, h⟩ := ih
        exact ⟨_, .relation hrelation h⟩
      | negated hrelation hcolumn htoken hnames =>
        exact ⟨_, .negation hrelation hcolumn htoken (reads_of_names hnames value)⟩
      | negation hrelation hcolumn htoken _ ih =>
        obtain ⟨p, h⟩ := ih
        exact ⟨_, .negation hrelation hcolumn htoken h⟩

/-- Segments stray by a word of the predicate language. -/
theorem Strays.exists_word {e : ι} {segs : List String} (h : Strays g e segs) :
    ∃ s ∈ segs, IsWord s := by
  induction h with
  | operator _ _ hop => exact ⟨_, List.mem_cons_of_mem _ List.mem_cons_self, .inr ⟨_, hop⟩⟩
  | relation _ _ ih =>
    obtain ⟨s, hs, hword⟩ := ih
    exact ⟨s, List.mem_cons_of_mem _ hs, hword⟩
  | negated _ _ htoken _ => exact ⟨_, List.mem_cons_self, .inl htoken⟩
  | negation _ _ htoken _ _ => exact ⟨_, List.mem_cons_self, .inl htoken⟩

/-! ### Truth -/

/-- A condition at the end of some relations has its truth on the row there. -/
theorem truth_along (ev : Evaluation) (rowAt : String → RowSight) (p : Predicate) (segs : List String)
    {relations : List String} (hsegs : ∀ s ∈ segs ++ relations, Path.IsSegment s) :
    (relations.foldr .relation p).truth ev rowAt (rowAt (Path.ofSegments segs))
        (Path.ofSegments segs) =
      p.truth ev rowAt (rowAt (Path.ofSegments (segs ++ relations)))
        (Path.ofSegments (segs ++ relations)) := by
  induction relations generalizing segs with
  | nil => rw [List.append_nil, List.foldr_nil]
  | cons s relations ih =>
    have hfront : ∀ x ∈ segs, Path.IsSegment x := fun x hx => hsegs x (List.mem_append_left _ hx)
    rw [List.append_cons] at hsegs ⊢
    rw [← ih _ hsegs, List.foldr_cons, Predicate.truth, Path.ofSegments_concat hfront]

/-- The test of a column is true where the operator is true on the cell. -/
theorem truth_test (ev : Evaluation) (rowAt : String → RowSight) (row : RowSight)
    (path field column : String) (op : Operator) (value : Value) :
    (Predicate.field field column [.test op value]).truth ev rowAt row path =
      some (op.truth ev value (row column).1 (row column).2) := by
  rw [Predicate.truth, Comparison.truths, Comparison.truths, Comparison.truth]
  exact congrArg some (Truth.and_true _)

/-! ### Clauses -/

section Clauses

variable {table : OperatorTable} {symbol field column : String}

/-- The filter of the equality of a column with a parameter. -/
def equalityFilter (aliasName column parameter : String) : Filter :=
  .chain [.test ⟨aliasName, column⟩ (.compare .eq parameter)]

theorem text_equalityFilter (quote : String → String) (aliasName column parameter : String) :
    (equalityFilter aliasName column parameter).text quote =
      quote aliasName ++ "." ++ quote column ++ " = :" ++ parameter := by
  have htokens : (equalityFilter aliasName column parameter).tokens =
      [.column ⟨aliasName, column⟩, .symbol Relop.eq.symbol, .parameter parameter] := rfl
  rw [Filter.text, htokens]
  apply String.toList_inj.1
  simp [FilterToken.write, FilterToken.text, ColumnRef.spell, Relop.symbol, String.join]

/-- Compiling the test of a column that binds one value joins nothing. -/
theorem exec_toFilter_test {op : Operator} {test : String → Test} {bound : Value}
    (htest : ∀ key p, (table.toTest op.token key value).exec p = (.ok (test key), p.bind key bound false))
    (aliasName path : String) (c : Context ι) :
    ((Predicate.field field column [.test op value]).toFilter g table aliasName path).exec c =
      (.ok (some (.chain [.test ⟨if aliasName.isEmpty then c.tree.aliases.root else aliasName, column⟩
          (test (field ++ "_" ++ toString c.counter))])),
        { c with
          counter := c.counter + 1
          parameters := c.parameters.bind (field ++ "_" ++ toString c.counter) bound false }) := by
  simp only [Predicate.toFilter, Comparison.toFilters, Comparison.toFilter, Context.inParameters,
    Step.exec_bind, Step.exec_get, Step.exec_modify, Step.exec_within, Step.exec_pure, htest]
  rfl

theorem exec_toFilter_column (htable : table.get? Operator.eq.token = some (.eq, symbol))
    (aliasName path : String) (c : Context ι) :
    ((Predicate.field field column [.test .eq value]).toFilter g table aliasName path).exec c =
      (.ok (some (equalityFilter (if aliasName.isEmpty then c.tree.aliases.root else aliasName) column
          (field ++ "_" ++ toString c.counter))),
        { c with
          counter := c.counter + 1
          parameters := c.parameters.bind (field ++ "_" ++ toString c.counter) value false }) := by
  refine exec_toFilter_test (fun key p => ?_) aliasName path c
  rw [OperatorTable.toTest, htable]
  rfl

/-- Compiling an equality joins the relations that it has not joined yet. -/
theorem exec_toFilter_equality (htable : table.get? Operator.eq.token = some (.eq, symbol))
    {relations segs : List String} {e owner : ι} {c : Context ι} (hc : c.tree.Chained g segs e)
    (hg : g.Navigable c.tree.root) (halong : g.entityAlong e relations = some owner) {aliasName : String}
    (halias : aliasName = if segs = [] then "" else c.tree.aliases.synthesize (Path.ofSegments segs)) :
    ∃ c', ((equality relations field column value).toFilter g table aliasName
          (Path.ofSegments segs)).exec c =
        (.ok (some (equalityFilter (JoinTree.chainAlias c.tree.aliases (segs ++ relations)) column
          (field ++ "_" ++ toString c.counter))), c') ∧
      c'.tree.Chained g (segs ++ relations) owner ∧ c.tree.Extends c'.tree ∧
      c'.parameters = c.parameters.bind (field ++ "_" ++ toString c.counter) value false := by
  induction relations generalizing segs e c aliasName with
  | nil =>
    obtain rfl := Option.some.inj halong
    rw [List.append_nil]
    have hcurrent : (if aliasName.isEmpty then c.tree.aliases.root else aliasName) =
        JoinTree.chainAlias c.tree.aliases segs := by
      rw [halias, JoinTree.chainAlias]
      by_cases hnil : segs = []
      · simp [hnil]
      · have hne := JoinTree.synthesize_ne_empty c.tree.aliases (Path.ofSegments segs)
        simp [hnil, hne]
    have hexec : ((equality [] field column value).toFilter g table aliasName
        (Path.ofSegments segs)).exec c = _ := exec_toFilter_column htable aliasName _ c
    rw [hcurrent] at hexec
    exact ⟨_, hexec, hc, .refl _, rfl⟩
  | cons s relations ih =>
    rw [EntityGraph.entityAlong, Option.bind_eq_some_iff] at halong
    obtain ⟨r, hr, halong⟩ := halong
    have hchild : Path.child (Path.ofSegments segs) s = Path.ofSegments (segs ++ [s]) :=
      (hg.ofSegments_concat hc.along s).symm
    let path := Path.ofSegments (segs ++ [s])
    obtain ⟨t, hreach, ht, hgrows⟩ : ∃ t,
        (JoinTree.reach g { path, start := some aliasName }).exec c.tree =
          (.ok (c.tree.aliases.synthesize path), t) ∧
        t.Chained g (segs ++ [s]) r.target ∧ c.tree.Extends t := hc.reach hg hr rfl rfl rfl
    have hsame : ∀ path, t.aliases.synthesize path = c.tree.aliases.synthesize path := fun path => by
      rw [Aliases.synthesize, Aliases.synthesize, hgrows.rootAlias]
    have halias' : c.tree.aliases.synthesize path =
        if segs ++ [s] = [] then "" else t.aliases.synthesize path := by
      rw [if_neg (by simp), hsame]
    have hg' : g.Navigable t.root := hgrows.root.symm ▸ hg
    obtain ⟨c', hexec, hchained, hextends, hparameters⟩ :=
      ih (c := { c with tree := t }) ht hg' halong halias'
    have hchain : JoinTree.chainAlias t.aliases (segs ++ [s] ++ relations) =
        JoinTree.chainAlias c.tree.aliases (segs ++ [s] ++ relations) := by
      rw [JoinTree.chainAlias, JoinTree.chainAlias, hgrows.rootAlias, hsame]
    rw [hchain] at hexec
    rw [List.append_cons]
    refine ⟨c', ?_, hchained, hgrows.trans hextends, hparameters⟩
    rw [equality, List.foldr_cons, ← equality, Predicate.toFilter, Step.exec_bind, Context.inTree,
      Step.exec_within, hchild, hreach]
    exact hexec

/-- The clause of one equality, whose column is at the end of a chain of joins. -/
structure Equates (clause : FilterClause ι) (quote : String → String) (root : String)
    (relations : List String) (field column : String) (value : Value) : Prop where
  text : clause.text = quote (JoinTree.chainAlias (.start root) relations) ++ "." ++ quote column ++
    " = :" ++ (field ++ "_0")
  parameters : clause.parameters = ⟨[(field ++ "_0", value)], []⟩
  joins : (clause.joins.map fun j => (j.path, j.aliasName)) =
    JoinTree.chainAliases (.start root) relations

/-- A path that names a column compiles to the equality of the column with the value. -/
theorem compile_equates (htable : table.get? Operator.eq.token = some (.eq, symbol))
    (hvalue : value.isScalar = true) {e owner : ι} (hg : g.Navigable e) {path : String} {relations : List String}
    (hnames : g.Names e (Path.segments path) relations owner field) (aliasName : Option String)
    (quote : String → String) :
    ∃ clause, g.compilePredicate e aliasName table quote (predicate path value) = .ok clause ∧
      Equates clause quote (rootAlias aliasName (g.entity e)) relations field
        ((g.entity owner).columnName field) value := by
  let root := rootAlias aliasName (g.entity e)
  let filter := equalityFilter (JoinTree.chainAlias (.start root) relations)
    ((g.entity owner).columnName field) (field ++ "_0")
  have hkey : field ++ "_" ++ toString (0 : Nat) = field ++ "_0" := by
    rw [String.append_assoc]
    rfl
  have hread := (readPredicate_iff hvalue).2 (reads_of_names hnames value)
  obtain ⟨c, hexec, hchained, hextends, hparameters⟩ : ∃ c,
      ((equality relations field ((g.entity owner).columnName field) value).toFilter g table ""
        "").exec (Context.start e root) = (.ok (some filter), c) ∧
      c.tree.Chained g relations owner ∧ (JoinTree.start e root).Extends c.tree ∧
      c.parameters = ⟨[(field ++ "_0", value)], []⟩ := by
    have hstart : (Context.start e root).tree.Chained g [] e := JoinTree.chained_start g e root
    simp only [filter, ← hkey]
    exact exec_toFilter_equality htable hstart hg hnames.along rfl
  refine ⟨c.clause (Filter.textOf quote (some filter)), ?_, ?_, hparameters, ?_⟩
  · refine Except.bind_eq_ok.2 ⟨_, hread, ?_⟩
    dsimp only [root] at hexec
    rw [hexec]
    rfl
  · exact text_equalityFilter quote _ _ _
  · have hentries := hchained.entries
    rw [hchained.aligned.entries] at hentries
    refine hentries.trans (List.map_congr_left fun path _ => ?_)
    rw [Aliases.synthesize, hextends.rootAlias]
    rfl

end Clauses

end KeyPath

end EntityQuery
