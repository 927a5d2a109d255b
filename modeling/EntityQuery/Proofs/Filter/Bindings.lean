import EntityQuery.Proofs.Filter.Operators

/-! What tests bind. A test binds nothing, one value or the two ends of a range, under names that are
made of its field and a number. Tests that are numbered in turn bind pairwise different names, whatever
their fields are called, so that no binding replaces another one. -/

namespace EntityQuery

/-- A value that is bound to a name. An expanding one is a list with a place for each element. -/
structure Binding where
  name : String
  value : Value
  expanding : Bool

namespace Parameters

/-- Binds one value after the other. -/
def bindAll (p : Parameters) (bs : List Binding) : Parameters :=
  bs.foldl (fun p b => p.bind b.name b.value b.expanding) p

theorem bindAll_append (p : Parameters) (bs bs' : List Binding) :
    p.bindAll (bs ++ bs') = (p.bindAll bs).bindAll bs' :=
  List.foldl_append

/-- The parameters where every binding has been kept. -/
def keepAll (p : Parameters) (bs : List Binding) : Parameters where
  values := p.values ++ bs.map fun b => (b.name, b.value)
  expanding := p.expanding ++ (bs.filter (·.expanding)).map (·.name)

/-- Bindings to new names, no two of which are equal, are all kept. -/
theorem bindAll_of_nodup {p : Parameters} {bs : List Binding} (hbs : (bs.map (·.name)).Nodup)
    (hvalues : ∀ b ∈ bs, b.name ∉ Assoc.keys p.values)
    (hexpanding : ∀ b ∈ bs, b.name ∉ p.expanding) : p.bindAll bs = p.keepAll bs := by
  induction bs generalizing p with
  | nil => simp [bindAll, keepAll]
  | cons b bs ih =>
    obtain ⟨hb, hbs⟩ := List.nodup_cons.1 hbs
    rw [List.forall_mem_cons] at hvalues hexpanding
    have hne : ∀ b' ∈ bs, b'.name ≠ b.name := fun b' hb' heq =>
      hb (List.mem_map.2 ⟨b', hb', heq⟩)
    have hfirst : p.bind b.name b.value b.expanding = p.keepAll [b] := by
      have hnew : p.expanding.contains b.name = false := by simpa using hexpanding.1
      rw [bind, Assoc.set_of_not_mem hvalues.1, hnew, keepAll]
      cases hexp : b.expanding <;> simp [hexp]
    have hvalues' : ∀ b' ∈ bs, b'.name ∉ Assoc.keys (p.keepAll [b]).values := by
      intro b' hb'
      rw [keepAll, Assoc.keys, List.map_append, List.mem_append]
      exact not_or.2 ⟨hvalues.2 b' hb', by simpa using hne b' hb'⟩
    have hexpanding' : ∀ b' ∈ bs, b'.name ∉ (p.keepAll [b]).expanding := by
      intro b' hb'
      have hold := hexpanding.2 b' hb'
      cases hexp : b.expanding <;> simp [keepAll, hexp, hold, hne b' hb']
    have hrest := ih hbs hvalues' hexpanding'
    change (p.bind b.name b.value b.expanding).bindAll bs = _
    rw [hfirst, hrest]
    cases hexp : b.expanding <;> simp [keepAll, hexp]

end Parameters

/-! ### Operators -/

namespace Operator

/-- What the test of an operator on a value binds, under names after `key`. -/
def bindings (op : Operator) (key : String) (value : Value) : List Binding :=
  let text (before after : String) : List Binding :=
    [⟨key, .str (before ++ value.display ++ after), false⟩]
  match op with
  | .eq | .ne | .lt | .lte | .gt | .gte | .matches => [⟨key, value, false⟩]
  | .isIn | .notIn => (value.elements?.map fun items => ⟨key, .list items, true⟩).toList
  | .between =>
    match value.elements? with
    | some [low, high] => [⟨key ++ "_start", low, false⟩, ⟨key ++ "_end", high, false⟩]
    | _ => []
  | .like | .iLike | .notLike | .notILike | .contains => text "%" "%"
  | .startsWith => text "" "%"
  | .endsWith => text "%" ""
  | .isNull | .isNotNull => []

/-- What is wrong with a value that an operator refuses. -/
def refusal? (op : Operator) (value : Value) : Option Fault :=
  match op, value.elements? with
  | .isIn, none | .notIn, none | .between, none => some (.notArray op.token value.kindName)
  | .between, some [_, _] => none
  | .between, some items => some (.boundCount items.length)
  | _, _ => none

/-- The operators that bind a list. -/
def takesList : Operator → Bool
  | .isIn | .notIn => true
  | _ => false

variable {op : Operator} {symbol key : String} {value : Value}

theorem exec_boundList (p : Parameters) (test : String → Test) :
    (boundList op key value test).exec p =
      match value.elements? with
      | some items => (.ok (test key), p.bind key (.list items) true)
      | none => (.error (.validation (.notArray op.token value.kindName) none), p) := by
  unfold boundList elementsOf
  cases value.elements? <;> rfl

theorem exec_between (p : Parameters) :
    (toTest .between symbol key value).exec p =
      match value.elements? with
      | some [low, high] =>
        (.ok (.between (key ++ "_start") (key ++ "_end")),
          (p.bind (key ++ "_start") low false).bind (key ++ "_end") high false)
      | some items => (.error (.validation (.boundCount items.length) none), p)
      | none => (.error (.validation (.notArray "between" value.kindName) none), p) := by
  unfold toTest elementsOf
  match value.elements? with
  | some [_, _] | some [] | some [_] | some (_ :: _ :: _ :: _) | none => rfl

theorem exec_boundList_of_elements {items : List Value} (h : value.elements? = some items)
    (p : Parameters) {test : String → Test} :
    (boundList op key value test).exec p = (.ok (test key), p.bind key (.list items) true) := by
  rw [exec_boundList, h]

theorem exists_elements (hop : op.takesList = true) (h : op.refusal? value = none) :
    ∃ items, value.elements? = some items := by
  cases hitems : value.elements? with
  | some items => exact ⟨items, rfl⟩
  | none => cases op <;> simp [takesList, refusal?, hitems] at hop h

theorem bindings_of_takesList (hop : op.takesList = true) {items : List Value}
    (h : value.elements? = some items) : op.bindings key value = [⟨key, .list items, true⟩] := by
  cases op <;> simp [takesList, bindings, h] at hop ⊢

/-- The test of a value that the operator does not refuse, with what it binds. -/
theorem exists_toTest (h : op.refusal? value = none) (symbol key : String) (p : Parameters) :
    ∃ t, (op.toTest symbol key value).exec p = (.ok t, p.bindAll (op.bindings key value)) ∧
      t.parameters = (op.bindings key value).map (·.name) ∧
      (symbol = "REGEXP" ∨ symbol = "~" → t.Spelled) := by
  cases op
  case isIn =>
    obtain ⟨items, hitems⟩ := exists_elements rfl h
    rw [bindings_of_takesList rfl hitems]
    exact ⟨_, exec_boundList_of_elements hitems p, rfl, fun _ => trivial⟩
  case notIn =>
    obtain ⟨items, hitems⟩ := exists_elements rfl h
    rw [bindings_of_takesList rfl hitems]
    exact ⟨_, exec_boundList_of_elements hitems p, rfl, fun _ => trivial⟩
  case between =>
    match hitems : value.elements? with
    | none | some [] | some [_] | some (_ :: _ :: _ :: _) => simp [refusal?, hitems] at h
    | some [low, high] =>
      refine ⟨.between (key ++ "_start") (key ++ "_end"), ?_, ?_, fun _ => trivial⟩
      · rw [exec_between, bindings, hitems]
        rfl
      · simp [bindings, hitems, Test.parameters]
  case «matches» => exact ⟨_, rfl, rfl, id⟩
  all_goals exact ⟨_, rfl, rfl, fun _ => trivial⟩

/-- A value that the operator refuses is reported, and nothing is bound. -/
theorem toTest_of_refusal {fault : Fault} (h : op.refusal? value = some fault) (symbol key : String)
    (p : Parameters) :
    (op.toTest symbol key value).exec p = (.error (.validation fault none), p) ∧
      op.bindings key value = [] := by
  cases op
  case isIn | notIn =>
    cases hitems : value.elements? with
    | some items => simp [refusal?, hitems] at h
    | none =>
      obtain rfl : _ = fault := by simpa [refusal?, hitems] using h
      exact ⟨(exec_boundList p _).trans (by rw [hitems]), by simp [bindings, hitems]⟩
  case between =>
    rw [exec_between, bindings]
    match hitems : value.elements? with
    | some [_, _] => simp [refusal?, hitems] at h
    | none | some [] | some [_] | some (_ :: _ :: _ :: _) =>
      obtain rfl : _ = fault := by simpa [refusal?, hitems] using h
      exact ⟨rfl, rfl⟩
  all_goals simp [refusal?] at h

theorem namedAfter_of_mem_bindings {b : Binding} (h : b ∈ op.bindings key value) :
    Parameters.NamedAfter key b.name := by
  cases op
  case between =>
    unfold bindings at h
    dsimp only at h
    split at h
    · rcases List.mem_pair.1 h with rfl | rfl
      · exact .inr (.inl rfl)
      · exact .inr (.inr rfl)
    · cases h
  case isIn | notIn =>
    obtain ⟨items, -, rfl⟩ := Option.map_eq_some_iff.1 (Option.mem_toList.1 h)
    exact .inl rfl
  case isNull | isNotNull => cases h
  all_goals
    obtain rfl := List.mem_singleton.1 h
    exact .inl rfl

theorem nodup_bindings (op : Operator) (key : String) (value : Value) :
    ((op.bindings key value).map (·.name)).Nodup := by
  cases op
  case between =>
    unfold bindings
    dsimp only
    split
    · have hne : key ++ "_start" ≠ key ++ "_end" := fun h =>
        absurd ((String.append_right_inj key).1 h) (by decide)
      simp [hne]
    · exact List.nodup_nil
  case isIn | notIn =>
    unfold bindings
    cases value.elements? <;> simp
  all_goals simp [bindings]

/-- What is expanding is the list of an operator on lists. -/
theorem expanding_bindings (h : op.refusal? value = none) (key : String) :
    ((op.bindings key value).filter (·.expanding)).map (·.name) =
      if op.takesList then [key] else [] := by
  cases op
  case isIn | notIn =>
    obtain ⟨items, hitems⟩ := exists_elements rfl h
    simp [bindings, hitems, takesList]
  case between =>
    unfold bindings
    dsimp only
    split <;> simp [takesList]
  all_goals simp [bindings, takesList]

theorem exists_list_of_expanding {b : Binding} (h : b ∈ op.bindings key value)
    (hexpanding : b.expanding = true) : ∃ items, b.value = .list items := by
  cases op
  case isIn | notIn =>
    obtain ⟨items, -, rfl⟩ := Option.map_eq_some_iff.1 (Option.mem_toList.1 h)
    exact ⟨items, rfl⟩
  case between =>
    unfold bindings at h
    dsimp only at h
    split at h
    · rcases List.mem_pair.1 h with rfl | rfl <;> cases hexpanding
    · cases h
  case isNull | isNotNull => cases h
  all_goals
    obtain rfl := List.mem_singleton.1 h
    cases hexpanding

end Operator

/-! ### Numbered tests -/

/-- A test of a field: how an operator compares it with a value. -/
structure FieldTest where
  field : String
  op : Operator
  value : Value

namespace FieldTest

/-- The name that the test under a number makes the names of its parameters of. -/
def key (t : FieldTest) (n : Nat) : String := t.field ++ "_" ++ toString n

def bindings (t : FieldTest) (n : Nat) : List Binding := t.op.bindings (t.key n) t.value

def refusal? (t : FieldTest) : Option Fault := t.op.refusal? t.value

/-- What tests bind that are numbered from `n` on. -/
def bindingsFrom (n : Nat) (tests : List FieldTest) : List Binding :=
  (tests.zipIdx n).flatMap fun (t, k) => t.bindings k

variable {n : Nat} {tests : List FieldTest}

theorem bindingsFrom_cons (n : Nat) (t : FieldTest) (tests : List FieldTest) :
    bindingsFrom n (t :: tests) = t.bindings n ++ bindingsFrom (n + 1) tests := by
  rw [bindingsFrom, List.zipIdx_cons, List.flatMap_cons]
  rfl

theorem bindingsFrom_singleton (n : Nat) (t : FieldTest) : bindingsFrom n [t] = t.bindings n := by
  rw [bindingsFrom_cons]
  exact List.append_nil _

theorem bindingsFrom_append (n : Nat) (tests tests' : List FieldTest) :
    bindingsFrom n (tests ++ tests') =
      bindingsFrom n tests ++ bindingsFrom (n + tests.length) tests' := by
  rw [bindingsFrom, List.zipIdx_append, List.flatMap_append]
  rfl

theorem numbered_of_mem_bindings {t : FieldTest} {b : Binding} (h : b ∈ t.bindings n) :
    Parameters.Numbered n b.name :=
  ⟨t.field, Operator.namedAfter_of_mem_bindings h⟩

theorem numbered_of_mem_bindingsFrom {b : Binding} (h : b ∈ bindingsFrom n tests) :
    ∃ k ≥ n, Parameters.Numbered k b.name := by
  obtain ⟨⟨t, k⟩, ht, hb⟩ := List.mem_flatMap.1 h
  exact ⟨k, List.le_snd_of_mem_zipIdx ht, numbered_of_mem_bindings hb⟩

/-- Tests that are numbered in turn bind pairwise different names. -/
theorem nodup_bindingsFrom (n : Nat) (tests : List FieldTest) :
    ((bindingsFrom n tests).map (·.name)).Nodup := by
  induction tests generalizing n with
  | nil => exact List.nodup_nil
  | cons t tests ih =>
    rw [bindingsFrom_cons, List.map_append]
    refine List.Nodup.append (Operator.nodup_bindings _ _ _) (ih (n + 1)) fun name hfirst hrest => ?_
    obtain ⟨b, hb, rfl⟩ := List.mem_map.1 hfirst
    obtain ⟨b', hb', hname⟩ := List.mem_map.1 hrest
    obtain ⟨k, hk, hnumbered⟩ := numbered_of_mem_bindingsFrom hb'
    -- The number can be read off the name.
    have heq : n = k := (numbered_of_mem_bindings hb).unique (hname ▸ hnumbered)
    omega

theorem exists_list_of_expanding {b : Binding} (h : b ∈ bindingsFrom n tests)
    (hexpanding : b.expanding = true) : ∃ items, b.value = .list items := by
  obtain ⟨⟨t, k⟩, -, hb⟩ := List.mem_flatMap.1 h
  exact Operator.exists_list_of_expanding hb hexpanding

example : ((bindingsFrom 0 [⟨"age", .between, .list [.int 1, .int 2]⟩, ⟨"age_0", .eq, .int 3⟩,
    ⟨"age_0_start", .ne, .int 4⟩]).map (·.name)) =
      ["age_0_start", "age_0_end", "age_0_1", "age_0_start_2"] := by decide

/-- The names of the tests on lists, of tests that are numbered from `n` on. -/
def listKeysFrom (n : Nat) (tests : List FieldTest) : List String :=
  ((tests.zipIdx n).filter fun (t, _) => t.op.takesList).map fun (t, k) => t.key k

theorem expanding_bindingsFrom (h : ∀ t ∈ tests, t.refusal? = none) (n : Nat) :
    ((bindingsFrom n tests).filter (·.expanding)).map (·.name) = listKeysFrom n tests := by
  induction tests generalizing n with
  | nil => rfl
  | cons t tests ih =>
    rw [List.forall_mem_cons] at h
    have hfirst : ((t.bindings n).filter (·.expanding)).map (·.name) =
        if t.op.takesList then [t.key n] else [] := Operator.expanding_bindings h.1 _
    rw [bindingsFrom_cons, List.filter_append, List.map_append, hfirst, ih h.2, listKeysFrom,
      listKeysFrom, List.zipIdx_cons, List.filter_cons]
    cases hlist : t.op.takesList <;> simp [hlist]

end FieldTest

end EntityQuery
