import EntityQuery.Proofs.Predicate.Truth
import EntityQuery.Sample

/-! The grammar of predicate objects. Reading decides it: a value that is in the grammar is read, and any
other is refused for one of four causes. -/

namespace EntityQuery

variable {ι : Type}

namespace Comparison

mutual

/-- Objects of operators: they have keys, and every key stands before what it takes. -/
inductive IsObject : Value → Prop
  | obj {members : List (String × Value)} (hne : members ≠ [])
    (h : ∀ m ∈ members, IsMember m.1 m.2) : IsObject (.obj members)

/-- The word for alternatives takes a list of objects of operators, which is not empty; an operator
takes any value. -/
inductive IsMember : String → Value → Prop
  | oneOf {key : String} {items : List Value} (hkey : Token.normalize key = Token.alternatives)
    (hne : items ≠ []) (h : ∀ item ∈ items, IsObject item) : IsMember key (.list items)
  | test {key : String} {value : Value} {op : Operator} (hkey : Token.normalize key = op.token) :
    IsMember key value

end

end Comparison

namespace Predicate

mutual

/-- Predicate objects on an entity: every key stands before what it takes. There may be no keys. -/
inductive IsObject (g : EntityGraph ι) : ι → Value → Prop
  | obj {e : ι} {members : List (String × Value)} (h : ∀ m ∈ members, IsMember g e m.1 m.2) :
    IsObject g e (.obj members)

/-- A relation takes a predicate object on its target, else a column an object of operators, else the
words of combinators predicate objects on the same entity: `and` and `or` a list of them, which is not
empty, and `not` one alone, in a list or without. -/
inductive IsMember (g : EntityGraph ι) : ι → String → Value → Prop
  | relation {e : ι} {key : String} {value : Value} {r : Relation ι}
    (hrelation : (g.entity e).relation? key = some r) (h : IsObject g r.target value) :
    IsMember g e key value
  | column {e : ι} {key : String} {value : Value} (hrelation : (g.entity e).relation? key = none)
    (hcolumn : (g.entity e).hasColumn key = true) (h : Comparison.IsObject value) :
    IsMember g e key value
  | several {e : ι} {key : String} {c : Combinator} {items : List Value}
    (hkey : ReadsWord g e key c) (hc : c ≠ .not) (hne : items ≠ [])
    (h : ∀ item ∈ items, IsObject g e item) : IsMember g e key (.list items)
  | not {e : ι} {key : String} {value : Value} (hkey : ReadsWord g e key .not)
    (h : IsObject g e value) : IsMember g e key value
  | notListed {e : ι} {key : String} {value : Value} (hkey : ReadsWord g e key .not)
    (h : IsObject g e value) : IsMember g e key (.list [value])

end

end Predicate

/-! ### Refusals -/

namespace EntityGraph

variable (g : EntityGraph ι)

/-- The causes for which a predicate object is refused: a fault in its shape, at a place; a key of an
object of operators that is no token; a key that was meant as a relation or as a column and is none. -/
inductive Refuses : QueryError → Prop
  | validation (fault : Fault) (place : String) : Refuses (.validation fault (some place))
  | operator {key : String} (halternatives : Token.normalize key ≠ Token.alternatives)
    (hop : ∀ op : Operator, Token.normalize key ≠ op.token) :
    Refuses (.unsupportedOperator key Comparison.knownTokens)
  | relation {e : ι} {key : String} (place : String) (hrelation : (g.entity e).relation? key = none) :
    Refuses ((g.entity e).noRelation key place)
  | field {e : ι} {key : String} (place : String) (hrelation : (g.entity e).relation? key = none)
    (hcolumn : (g.entity e).hasColumn key = false) :
    Refuses (.noField key (g.entity e).name (g.entity e).fieldNames (some place))

/-- An outcome that decides a property: a result where it holds, and a refusal where it does not. -/
inductive Decides {α : Type} (P : Prop) : Except QueryError α → Prop
  | accept {a : α} (h : P) : Decides P (.ok a)
  | refuse {err : QueryError} (herr : g.Refuses err) (h : ¬P) : Decides P (.error err)

variable {g}

namespace Decides

variable {α β : Type} {P Q : Prop}

theorem of_iff {x : Except QueryError α} (h : g.Decides P x) (hiff : P ↔ Q) : g.Decides Q x := by
  cases h with
  | accept h => exact .accept (hiff.1 h)
  | refuse herr h => exact .refuse herr (fun hq => h (hiff.2 hq))

theorem map {f : α → β} {x : Except QueryError α} (h : g.Decides P x) :
    g.Decides P (x >>= fun a => pure (f a)) := by
  cases h with
  | accept h => exact .accept h
  | refuse herr h => exact .refuse herr h

/-- A first part and the others decide whether all parts are right. -/
theorem cons {f : α → β} {x : Except QueryError α} {rest : Except QueryError (List β)}
    (hx : g.Decides P x) (hrest : g.Decides Q rest) :
    g.Decides (P ∧ Q) (x >>= fun a => rest >>= fun others => pure (f a :: others)) := by
  cases hx with
  | refuse herr h => exact .refuse herr (fun hboth => h hboth.1)
  | accept h =>
    cases hrest with
    | refuse herr h => exact .refuse herr (fun hboth => h hboth.2)
    | accept h' => exact .accept ⟨h, h'⟩

end Decides

end EntityGraph

namespace Comparison

variable {g : EntityGraph ι} {path key : String} {value : Value}

theorem isObject_obj {members : List (String × Value)} :
    IsObject (.obj members) ↔ members ≠ [] ∧ ∀ m ∈ members, IsMember m.1 m.2 :=
  ⟨fun h => by cases h with | obj hne h => exact ⟨hne, h⟩, fun h => .obj h.1 h.2⟩

theorem IsMember.exists_list (h : IsMember key value)
    (hkey : Token.normalize key = Token.alternatives) : ∃ items, value = .list items := by
  cases h with
  | @oneOf _ items _ _ _ => exact ⟨items, rfl⟩
  | @test _ _ op hop => exact absurd (hop.symm.trans hkey) op.token_ne_alternatives

theorem isMember_oneOf {items : List Value} (hkey : Token.normalize key = Token.alternatives) :
    IsMember key (.list items) ↔ items ≠ [] ∧ ∀ item ∈ items, IsObject item := by
  constructor
  · intro h
    cases h with
    | oneOf _ hne h => exact ⟨hne, h⟩
    | @test _ _ op hop => exact absurd (hop.symm.trans hkey) op.token_ne_alternatives
  · rintro ⟨hne, h⟩
    exact .oneOf hkey hne h

mutual

theorem readAll_decides (value : Value) : g.Decides (IsObject value) (readAll path value) := by
  unfold readAll
  split
  · exact .refuse (.validation _ _) (fun h => (isObject_obj.1 h).1 rfl)
  · next members hne =>
    refine (readMembers_decides members).of_iff ?_
    rw [isObject_obj]
    exact (and_iff_right hne).symm
  · next hobj => exact .refuse (.validation _ _) (fun h => by cases h; exact hobj _ rfl)

theorem readMembers_decides (members : List (String × Value)) :
    g.Decides (∀ m ∈ members, IsMember m.1 m.2) (readMembers path members) := by
  match members with
  | [] =>
    unfold readMembers
    exact .accept (by simp)
  | (key, value) :: rest =>
    have hrest := readMembers_decides rest
    rw [List.forall_mem_cons]
    unfold readMembers
    simp only []
    split
    · next hkey =>
      split
      · exact .refuse (.validation _ _) fun h => ((isMember_oneOf hkey).1 h.1).1 rfl
      · next items hne =>
        exact ((readAlternatives_decides items).of_iff
          ((isMember_oneOf hkey).trans (and_iff_right hne)).symm).cons hrest
      · next hlist =>
        refine .refuse (.validation _ _) fun h => ?_
        obtain ⟨items, hitems⟩ := h.1.exists_list hkey
        exact hlist items hitems
    · next hkey =>
      split
      · next op hop =>
        have hmember : IsMember key value := .test (Operator.ofToken?_eq_some_iff.1 hop)
        exact (EntityGraph.Decides.accept hmember).cons hrest
      · next hop =>
        have hno : ∀ op : Operator, Token.normalize key ≠ op.token := fun op hword => by
          rw [hword, op.ofToken?_token] at hop
          cases hop
        refine .refuse (.operator hkey hno) ?_
        rintro ⟨h, -⟩
        cases h with
        | oneOf hword => exact hkey hword
        | test hword => exact hno _ hword

theorem readAlternatives_decides (items : List Value) :
    g.Decides (∀ item ∈ items, IsObject item) (readAlternatives path items) := by
  cases items with
  | nil =>
    unfold readAlternatives
    exact .accept (by simp)
  | cons item rest =>
    rw [List.forall_mem_cons]
    unfold readAlternatives
    exact (readAll_decides item).cons (readAlternatives_decides rest)

end

end Comparison

namespace Predicate

variable {g : EntityGraph ι} {e : ι} {path key : String} {value : Value}

theorem isObject_obj {members : List (String × Value)} :
    IsObject g e (.obj members) ↔ ∀ m ∈ members, IsMember g e m.1 m.2 :=
  ⟨fun h => by cases h with | obj h => exact h, fun h => .obj h⟩

theorem isMember_relation {r : Relation ι} (hr : (g.entity e).relation? key = some r) :
    IsMember g e key value ↔ IsObject g r.target value := by
  constructor
  · intro h
    cases h with
    | relation hr' h =>
      obtain rfl := Option.some.inj (hr.symm.trans hr')
      exact h
    | column hnone _ _ => exact absurd (hr.symm.trans hnone) (by simp)
    | several hkey _ _ _ => exact absurd (hr.symm.trans hkey.relation) (by simp)
    | not hkey _ => exact absurd (hr.symm.trans hkey.relation) (by simp)
    | notListed hkey _ => exact absurd (hr.symm.trans hkey.relation) (by simp)
  · exact .relation hr

theorem isMember_column (hnone : (g.entity e).relation? key = none)
    (hcolumn : (g.entity e).hasColumn key = true) :
    IsMember g e key value ↔ Comparison.IsObject value := by
  constructor
  · intro h
    cases h with
    | relation hr _ => exact absurd (hr.symm.trans hnone) (by simp)
    | column _ _ h => exact h
    | several hkey _ _ _ => exact absurd (hcolumn.symm.trans hkey.column) (by simp)
    | not hkey _ => exact absurd (hcolumn.symm.trans hkey.column) (by simp)
    | notListed hkey _ => exact absurd (hcolumn.symm.trans hkey.column) (by simp)
  · exact .column hnone hcolumn

/-- A key that is neither a relation nor a column is the word of a combinator. -/
theorem IsMember.word (h : IsMember g e key value) (hnone : (g.entity e).relation? key = none)
    (hcolumn : (g.entity e).hasColumn key = false) : ∃ c, ReadsWord g e key c := by
  cases h with
  | relation hr _ => exact absurd (hr.symm.trans hnone) (by simp)
  | column _ hcolumn' _ => exact absurd (hcolumn'.symm.trans hcolumn) (by simp)
  | several hkey _ _ _ => exact ⟨_, hkey⟩
  | not hkey _ => exact ⟨_, hkey⟩
  | notListed hkey _ => exact ⟨_, hkey⟩

theorem ReadsWord.unique {c c' : Combinator} (h : ReadsWord g e key c) (h' : ReadsWord g e key c') :
    c = c' := by
  have htoken := Combinator.ofToken?_eq_some_iff.2 (h.word.symm.trans h'.word)
  rw [Combinator.ofToken?_token] at htoken
  exact Option.some.inj htoken

theorem IsMember.exists_list {c : Combinator} (h : IsMember g e key value) (hkey : ReadsWord g e key c)
    (hc : c ≠ .not) : ∃ items, value = .list items := by
  cases h with
  | relation hr _ => exact absurd (hr.symm.trans hkey.relation) (by simp)
  | column _ hcolumn _ => exact absurd (hcolumn.symm.trans hkey.column) (by simp)
  | @several _ _ _ items _ _ _ _ => exact ⟨items, rfl⟩
  | not hkey' _ => exact absurd (hkey.unique hkey') hc
  | @notListed _ _ child _ _ => exact ⟨[child], rfl⟩

theorem isMember_several {c : Combinator} {items : List Value} (hkey : ReadsWord g e key c)
    (hc : c ≠ .not) :
    IsMember g e key (.list items) ↔ items ≠ [] ∧ ∀ item ∈ items, IsObject g e item := by
  constructor
  · intro h
    cases h with
    | relation hr _ => exact absurd (hr.symm.trans hkey.relation) (by simp)
    | column _ hcolumn _ => exact absurd (hcolumn.symm.trans hkey.column) (by simp)
    | several _ _ hne h => exact ⟨hne, h⟩
    | not hkey' _ => exact absurd (hkey.unique hkey') hc
    | notListed hkey' _ => exact absurd (hkey.unique hkey') hc
  · rintro ⟨hne, h⟩
    exact .several hkey hc hne h

/-- A list that is not empty stands behind `and` or `or` where all its items do. -/
theorem isMember_items {c : Combinator} {items : List Value} (hkey : ReadsWord g e key c)
    (hc : c ≠ .not) (hne : items ≠ []) :
    IsMember g e key (.list items) ↔ ∀ item ∈ items, IsObject g e item :=
  (isMember_several hkey hc).trans (and_iff_right hne)

theorem not_isMember_empty {c : Combinator} (hkey : ReadsWord g e key c) (hc : c ≠ .not) :
    ¬ IsMember g e key (.list []) :=
  fun h => ((isMember_several hkey hc).1 h).1 rfl

theorem not_isMember_unlisted {c : Combinator} (hkey : ReadsWord g e key c) (hc : c ≠ .not)
    (hlist : ∀ items, value ≠ .list items) : ¬ IsMember g e key value := by
  intro h
  obtain ⟨items, hitems⟩ := h.exists_list hkey hc
  exact hlist items hitems

theorem isMember_not_listed {child : Value} (hkey : ReadsWord g e key .not) :
    IsMember g e key (.list [child]) ↔ IsObject g e child := by
  constructor
  · intro h
    cases h with
    | relation hr _ => exact absurd (hr.symm.trans hkey.relation) (by simp)
    | column _ hcolumn _ => exact absurd (hcolumn.symm.trans hkey.column) (by simp)
    | several hkey' hc _ _ => exact absurd (hkey'.unique hkey) hc
    | not _ h => cases h
    | notListed _ h => exact h
  · exact .notListed hkey

theorem isMember_not (hkey : ReadsWord g e key .not) (hlisted : ∀ child, value ≠ .list [child]) :
    IsMember g e key value ↔ IsObject g e value := by
  constructor
  · intro h
    cases h with
    | relation hr _ => exact absurd (hr.symm.trans hkey.relation) (by simp)
    | column _ hcolumn _ => exact absurd (hcolumn.symm.trans hkey.column) (by simp)
    | several hkey' hc _ _ => exact absurd (hkey'.unique hkey) hc
    | not _ h => exact h
    | @notListed _ _ child _ _ => exact absurd rfl (hlisted child)
  · exact .not hkey

theorem refuses_unknownKey (hnone : (g.entity e).relation? key = none)
    (hcolumn : (g.entity e).hasColumn key = false) :
    g.Refuses (unknownKey (g.entity e) key path value) := by
  unfold unknownKey
  split
  · exact .relation path hnone
  · exact .field path hnone hcolumn

mutual

theorem read_decides (e : ι) (path : String) (value : Value) :
    g.Decides (IsObject g e value) (read g e path value) := by
  unfold read
  split
  · next members =>
    rw [isObject_obj]
    exact (readMembers_decides e path members).map
  · next hobj => exact .refuse (.validation _ _) (fun h => by cases h; exact hobj _ rfl)

theorem readMembers_decides (e : ι) (path : String) (members : List (String × Value)) :
    g.Decides (∀ m ∈ members, IsMember g e m.1 m.2) (readMembers g e path members) := by
  match members with
  | [] =>
    unfold readMembers
    exact .accept (by simp)
  | (key, value) :: rest =>
    have hrest := readMembers_decides e path rest
    rw [List.forall_mem_cons]
    unfold readMembers
    simp only []
    split
    · next r hr =>
      rw [isMember_relation hr]
      split
      · next members =>
        exact ((readMembers_decides r.target (Path.child path key) members).of_iff
          isObject_obj.symm).cons hrest
      · next hobj =>
        exact .refuse (.validation _ _) (fun h => by cases h.1; exact hobj _ rfl)
    next hnone =>
    split
    · next hcolumn =>
      rw [isMember_column hnone hcolumn]
      exact (Comparison.readAll_decides value).cons hrest
    next hcolumn =>
    have hcolumn := Bool.eq_false_iff.2 hcolumn
    have hword : ∀ {c}, Combinator.ofToken? (Token.normalize key) = some c → ReadsWord g e key c :=
      fun hc => ⟨hnone, hcolumn, Combinator.ofToken?_eq_some_iff.1 hc⟩
    split
    · next hc =>
      split
      · next child =>
        exact ((read_decides e path child).of_iff (isMember_not_listed (hword hc)).symm).cons hrest
      · next items hone =>
        refine .refuse (.validation _ _) fun h => ?_
        cases (isMember_not (hword hc) fun child hchild => hone child (Value.list.inj hchild)).1 h.1
      · next hone _ =>
        exact ((read_decides e path value).of_iff (isMember_not (hword hc) hone).symm).cons hrest
    · next hc =>
      split
      · exact .refuse (.validation _ _) fun h => not_isMember_empty (hword hc) nofun h.1
      · next items hne =>
        exact ((readItems_decides e path items).of_iff
          (isMember_items (hword hc) nofun hne).symm).cons hrest
      · next hlist =>
        exact .refuse (.validation _ _) fun h => not_isMember_unlisted (hword hc) nofun hlist h.1
    · next hc =>
      split
      · exact .refuse (.validation _ _) fun h => not_isMember_empty (hword hc) nofun h.1
      · next items hne =>
        exact ((readItems_decides e path items).of_iff
          (isMember_items (hword hc) nofun hne).symm).cons hrest
      · next hlist =>
        exact .refuse (.validation _ _) fun h => not_isMember_unlisted (hword hc) nofun hlist h.1
    · next hc =>
      refine .refuse (refuses_unknownKey hnone hcolumn) fun h => ?_
      obtain ⟨c, hkey⟩ := h.1.word hnone hcolumn
      rw [hkey.word, c.ofToken?_token] at hc
      cases hc

theorem readItems_decides (e : ι) (path : String) (items : List Value) :
    g.Decides (∀ item ∈ items, IsObject g e item) (readItems g e path items) := by
  cases items with
  | nil =>
    unfold readItems
    exact .accept (by simp)
  | cons item rest =>
    rw [List.forall_mem_cons]
    unfold readItems
    exact (read_decides e path item).cons (readItems_decides e path rest)

end

end Predicate

namespace EntityGraph

/-- Reading accepts just the predicate objects on the entity, refuses all else for one of the four causes,
and what it yields is a predicate over the entity. No operator is the word for alternatives, so that no
test in it stands under that word. -/
theorem readPredicate_grammar (g : EntityGraph ι) (e : ι) (data : Value) :
    ((∃ p, g.readPredicate e data = .ok p) ↔ Predicate.IsObject g e data) ∧
    (∀ err, g.readPredicate e data = .error err → g.Refuses err) ∧
    (∀ p, g.readPredicate e data = .ok p → p.Over g e) ∧
    ∀ op : Operator, op.token ≠ Token.alternatives := by
  have hdecides : g.Decides (Predicate.IsObject g e data) (g.readPredicate e data) :=
    Predicate.read_decides e "" data
  refine ⟨?_, ?_, fun p h => Predicate.read_over data h, Operator.token_ne_alternatives⟩
  · generalize g.readPredicate e data = outcome at hdecides
    cases hdecides with
    | accept h => exact ⟨fun _ => h, fun _ => ⟨_, rfl⟩⟩
    | refuse _ h => exact ⟨fun ⟨_, hok⟩ => (nomatch hok), fun hobj => absurd hobj h⟩
  · intro err herr
    rw [herr] at hdecides
    cases hdecides with
    | refuse hrefuses _ => exact hrefuses

end EntityGraph

namespace Sample

/-- Authors of published posts who are young, old or not called after one pattern. -/
def youngOrOldAuthors : Value :=
  .obj [("posts", .obj [("published", .obj [("eq", .bool true)])]),
    ("$or", .list [
      .obj [("age", .obj [("or", .list [.obj [("lt", .int 18)], .obj [("$gte", .int 65)]])])],
      .obj [("$not", .list [.obj [("name", .obj [("like", .str "j")])]])]])]

/-- A misspelt column of a related entity. -/
def misspeltTitle : Value := .obj [("posts", .obj [("titel", .obj [("eq", .str "Hello")])])]

theorem readPredicate_grammar_authors :
    (∃ p, (mapping.graph fun _ => true).readPredicate "User" youngOrOldAuthors = .ok p ∧
      p.Over (mapping.graph fun _ => true) "User") ∧
    Predicate.IsObject (mapping.graph fun _ => true) "User" youngOrOldAuthors ∧
    (∃ err, (mapping.graph fun _ => true).readPredicate "User" misspeltTitle = .error err ∧
      (mapping.graph fun _ => true).Refuses err) ∧
    ¬Predicate.IsObject (mapping.graph fun _ => true) "User" misspeltTitle := by
  obtain ⟨p, hp⟩ := Except.exists_of_isOk
    (show ((mapping.graph fun _ => true).readPredicate "User" youngOrOldAuthors).isOk = true by
      decide +kernel)
  have herror :
      ((mapping.graph fun _ => true).readPredicate "User" misspeltTitle).isOk = false := by
    decide +kernel
  obtain ⟨haccepts, -, hover, -⟩ := EntityGraph.readPredicate_grammar
    (mapping.graph fun _ => true) "User" youngOrOldAuthors
  obtain ⟨haccepts', hrefuses, -, -⟩ := EntityGraph.readPredicate_grammar
    (mapping.graph fun _ => true) "User" misspeltTitle
  refine ⟨⟨p, hp, hover p hp⟩, haccepts.1 ⟨p, hp⟩, ?_, fun hobj => ?_⟩
  · cases hread : (mapping.graph fun _ => true).readPredicate "User" misspeltTitle with
    | error err => exact ⟨err, rfl, hrefuses err hread⟩
    | ok p =>
      rw [hread] at herror
      cases herror
  · obtain ⟨p, hp⟩ := haccepts'.2 hobj
    rw [hp] at herror
    cases herror

end Sample

end EntityQuery
