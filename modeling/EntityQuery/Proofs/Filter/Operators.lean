import EntityQuery.Filter.Operators
import EntityQuery.Proofs.Assoc
import EntityQuery.Proofs.Filter.Reading
import EntityQuery.Proofs.Step

/-! Operators as tests. The test that an operator makes of a value has, with the parameters that it
binds, the truth of the operator on the value itself. Parameters are named after a number, and names
after different numbers differ. -/

namespace EntityQuery

namespace Operator

/-- The truth of an operator between a cell and a value. -/
def truth (ev : Evaluation) (op : Operator) (value : Value) (type : ColumnType) (cell : Cell) :
    Truth :=
  let like := fun folded before after =>
    Test.evalLike folded cell (.str (before ++ value.display ++ after))
  let isOneOf := .any ((ev.listed (value.elements?.getD [])).map fun v => Relop.eq.eval type cell v)
  match op with
  | .eq => Relop.eq.eval type cell value
  | .ne => Relop.ne.eval type cell value
  | .lt => Relop.lt.eval type cell value
  | .lte => Relop.le.eval type cell value
  | .gt => Relop.gt.eval type cell value
  | .gte => Relop.ge.eval type cell value
  | .isIn => isOneOf
  | .notIn => isOneOf.not
  | .between =>
    match value.elements? with
    | some [low, high] => (Relop.ge.eval type cell low).and (Relop.le.eval type cell high)
    | _ => .unknown
  | .like => like false "%" "%"
  | .iLike => like true "%" "%"
  | .notLike => (like false "%" "%").not
  | .notILike => (like true "%" "%").not
  | .contains => like false "%" "%"
  | .startsWith => like false "" "%"
  | .endsWith => like false "%" ""
  | .matches => ev.matching type cell value
  | .isNull => .ofBool (cell == .null)
  | .isNotNull => .ofBool (cell != .null)

end Operator

namespace Parameters

/-- Parameters to which others were added: no name has lost its value. -/
def Extends (p p' : Parameters) : Prop :=
  ∀ name v, Assoc.get? p.values name = some v → Assoc.get? p'.values name = some v

theorem Extends.refl (p : Parameters) : p.Extends p := fun _ _ h => h

theorem Extends.trans {p p' p'' : Parameters} (h : p.Extends p') (h' : p'.Extends p'') :
    p.Extends p'' :=
  fun name v hv => h' name v (h name v hv)

theorem extends_bind {p : Parameters} {name : String} (h : name ∉ Assoc.keys p.values) (v : Value)
    (expanding : Bool) : p.Extends (p.bind name v expanding) := by
  intro other w hw
  have hne : name ≠ other := by
    rintro rfl
    rw [Assoc.get?_eq_none_iff.2 h] at hw
    exact Option.some_ne_none _ hw.symm
  exact (Assoc.get?_set_of_ne _ hne v).trans hw

theorem get?_bind (p : Parameters) (name : String) (v : Value) (expanding : Bool) :
    Assoc.get? (p.bind name v expanding).values name = some v :=
  Assoc.get?_set_self _ _ _

theorem keys_bind {p : Parameters} {name : String} (h : name ∉ Assoc.keys p.values) (v : Value)
    (expanding : Bool) :
    Assoc.keys (p.bind name v expanding).values = Assoc.keys p.values ++ [name] := by
  rw [bind, Assoc.set_of_not_mem h, Assoc.keys, List.map_append]
  rfl

/-! ### Names -/

/-- The names that a test whose key is given may bind. -/
def NamedAfter (key name : String) : Prop :=
  name = key ∨ name = key ++ "_start" ∨ name = key ++ "_end"

/-- The names that the test of a number may bind. -/
def Numbered (n : Nat) (name : String) : Prop :=
  ∃ field, NamedAfter (field ++ "_" ++ toString n) name

/-- What follows the last underscore. -/
def afterUnderscore (name : String) : List Char :=
  (name.toList.reverse.takeWhile fun c => !decide (c = '_')).reverse

theorem afterUnderscore_append (name rest : String) (h : '_' ∉ rest.toList) :
    afterUnderscore (name ++ "_" ++ rest) = rest.toList := by
  rw [afterUnderscore, String.toList_append, List.reverse_append, List.takeWhile_append_of_pos]
  · simp [String.toList_append]
  · intro c hc
    have : c ≠ '_' := fun hu => h (by simpa [hu] using hc)
    simpa using this

theorem underscore_not_mem_toString (n : Nat) : '_' ∉ (toString n).toList := by
  rw [Nat.toString_eq_repr, Nat.toList_repr]
  exact Nat.underscore_not_in_toDigits

theorem afterUnderscore_key (field : String) (n : Nat) :
    afterUnderscore (field ++ "_" ++ toString n) = (toString n).toList :=
  afterUnderscore_append _ _ (underscore_not_mem_toString n)

theorem afterUnderscore_start (key : String) :
    afterUnderscore (key ++ "_start") = "start".toList := by
  have := afterUnderscore_append key "start" (by decide)
  rwa [String.append_assoc] at this

theorem afterUnderscore_end (key : String) : afterUnderscore (key ++ "_end") = "end".toList := by
  have := afterUnderscore_append key "end" (by decide)
  rwa [String.append_assoc] at this

theorem isDigit_of_mem_toString {n : Nat} {c : Char} (h : c ∈ (toString n).toList) : c.isDigit := by
  rw [Nat.toString_eq_repr, Nat.toList_repr] at h
  exact Nat.isDigit_of_mem_toDigits (by decide) (by decide) h

/-- A name tells its number. -/
theorem Numbered.unique {n m : Nat} {name : String} (hn : Numbered n name) (hm : Numbered m name) :
    n = m := by
  have hdigits : ∀ {k : Nat} {field key : String}, field ++ "_" ++ toString k = key →
      (toString k).toList = afterUnderscore key := by
    rintro k field key rfl
    exact (afterUnderscore_key field k).symm
  have hkey : ∀ {f f' : String}, f ++ "_" ++ toString n = f' ++ "_" ++ toString m → n = m := by
    intro f f' h
    have hs := (hdigits h).trans (afterUnderscore_key f' m)
    simp only [Nat.toString_eq_repr, Nat.toList_repr] at hs
    have := congrArg (fun ds => Nat.ofDigitChars 10 ds 0) hs
    simpa using this
  have hstart : ∀ {k : Nat} {field key : String}, field ++ "_" ++ toString k ≠ key ++ "_start" := by
    intro k field key h
    have hs := (hdigits h).trans (afterUnderscore_start key)
    have := isDigit_of_mem_toString (n := k) (c := 's') (by rw [hs]; decide)
    exact absurd this (by decide)
  have hend : ∀ {k : Nat} {field key : String}, field ++ "_" ++ toString k ≠ key ++ "_end" := by
    intro k field key h
    have hs := (hdigits h).trans (afterUnderscore_end key)
    have := isDigit_of_mem_toString (n := k) (c := 'e') (by rw [hs]; decide)
    exact absurd this (by decide)
  have hends : ∀ {key key' : String}, key ++ "_start" ≠ key' ++ "_end" := by
    intro key key' h
    have hs := (afterUnderscore_start key).symm.trans ((congrArg _ h).trans (afterUnderscore_end key'))
    exact absurd hs (by decide)
  obtain ⟨f, hf⟩ := hn
  obtain ⟨f', hf'⟩ := hm
  rcases hf with hf | hf | hf <;> rcases hf' with hf' | hf' | hf' <;> rw [hf] at hf'
  · exact hkey hf'
  · exact absurd hf' hstart
  · exact absurd hf' hend
  · exact absurd hf'.symm hstart
  · exact hkey ((String.append_left_inj _).1 hf')
  · exact absurd hf' hends
  · exact absurd hf'.symm hend
  · exact absurd hf'.symm hends
  · exact hkey ((String.append_left_inj _).1 hf')

end Parameters

namespace Operator

variable {p p' : Parameters} {t : Test} {op : Operator} {symbol key : String} {value : Value}

/-- What building the test of an operator does: it binds the parameters of the test, all of them new
and named after the key, and the test means what the operator means as long as these keep their
values. -/
structure Builds (ev : Evaluation) (op : Operator) (symbol key : String) (value : Value)
    (p : Parameters) (t : Test) (p' : Parameters) : Prop where
  keys : Assoc.keys p'.values = Assoc.keys p.values ++ t.parameters
  named : ∀ name ∈ t.parameters, Parameters.NamedAfter key name
  grows : p.Extends p'
  spelled : symbol = "REGEXP" ∨ symbol = "~" → t.Spelled
  truth : ∀ q, p'.Extends q → ∀ type cell,
    t.eval ev q.values type cell = op.truth ev value type cell

theorem valueOf_of_extends {q : Parameters} {name : String} {v : Value} {expanding : Bool}
    (h : (p.bind name v expanding).Extends q) : Test.valueOf q.values name = v := by
  rw [Test.valueOf, Value.member, h name v (p.get?_bind name v expanding)]
  rfl

theorem bound_eq_ok {test : String → Test} (h : (bound key value test).exec p = (.ok t, p')) :
    t = test key ∧ p' = p.bind key value false := by
  simp only [bound, Step.exec_bind, Step.exec_modify, Step.exec_pure, Prod.mk.injEq,
    Except.ok.injEq] at h
  exact ⟨h.1.symm, h.2.symm⟩

theorem elementsOf_eq_ok {items : List Value} (h : op.elementsOf value = .ok items) :
    value.elements? = some items := by
  unfold elementsOf at h
  split at h
  · next found =>
    cases h
    exact found
  · cases h

theorem boundList_eq_ok {test : String → Test}
    (h : (boundList op key value test).exec p = (.ok t, p')) :
    ∃ items, value.elements? = some items ∧ t = test key ∧ p' = p.bind key (.list items) true := by
  simp only [boundList, Step.bind_eq_ok, Step.exec_ofExcept, Step.exec_modify, Step.exec_pure,
    Prod.mk.injEq, Except.ok.injEq] at h
  obtain ⟨items, _, ⟨hitems, rfl⟩, _, _, ⟨_, rfl⟩, rfl, rfl⟩ := h
  exact ⟨items, elementsOf_eq_ok hitems, rfl, rfl⟩

theorem between_eq_ok (h : (toTest .between symbol key value).exec p = (.ok t, p')) :
    ∃ low high, value.elements? = some [low, high] ∧
      t = .between (key ++ "_start") (key ++ "_end") ∧
      p' = (p.bind (key ++ "_start") low false).bind (key ++ "_end") high false := by
  simp only [toTest, Step.bind_eq_ok, Step.exec_ofExcept, Prod.mk.injEq] at h
  obtain ⟨items, _, ⟨hitems, rfl⟩, h⟩ := h
  split at h
  · next low high =>
    simp only [Step.exec_bind, Step.exec_modify, Step.exec_pure, Prod.mk.injEq,
      Except.ok.injEq] at h
    exact ⟨low, high, elementsOf_eq_ok hitems, h.1.symm, h.2.symm⟩
  · simp at h

/-- A test on one value that is bound to the key. -/
theorem builds_bind {ev : Evaluation} {v : Value} {expanding : Bool}
    (hfresh : ∀ name, Parameters.NamedAfter key name → name ∉ Assoc.keys p.values)
    (hparameters : t.parameters = [key]) (hspelled : symbol = "REGEXP" ∨ symbol = "~" → t.Spelled)
    (htruth : ∀ q : Parameters, Test.valueOf q.values key = v → ∀ type cell,
      t.eval ev q.values type cell = op.truth ev value type cell) :
    Builds ev op symbol key value p t (p.bind key v expanding) where
  keys := by rw [Parameters.keys_bind (hfresh key (.inl rfl)), hparameters]
  named name hname := .inl (by simpa [hparameters] using hname)
  grows := Parameters.extends_bind (hfresh key (.inl rfl)) v expanding
  spelled := hspelled
  truth q hq := htruth q (valueOf_of_extends hq)

theorem builds_null {ev : Evaluation} {negated : Bool}
    (h : ∀ type cell, op.truth ev value type cell = .ofBool ((cell == .null) != negated)) :
    Builds ev op symbol key value p (.null negated) p where
  keys := (List.append_nil _).symm
  named _ hname := by simp [Test.parameters] at hname
  grows := .refl p
  spelled _ := trivial
  truth _ _ type cell := (h type cell).symm

theorem builds_between {ev : Evaluation} {low high : Value}
    (hfresh : ∀ name, Parameters.NamedAfter key name → name ∉ Assoc.keys p.values)
    (hvalue : value.elements? = some [low, high]) :
    Builds ev .between symbol key value p (.between (key ++ "_start") (key ++ "_end"))
      ((p.bind (key ++ "_start") low false).bind (key ++ "_end") high false) := by
  have hne : key ++ "_end" ≠ key ++ "_start" := fun h =>
    absurd ((String.append_right_inj key).1 h) (by decide)
  have hkeys := Parameters.keys_bind (hfresh _ (.inr (.inl rfl))) low false
  have hend : key ++ "_end" ∉ Assoc.keys (p.bind (key ++ "_start") low false).values := by
    rw [hkeys, List.mem_append, List.mem_singleton]
    exact not_or.2 ⟨hfresh _ (.inr (.inr rfl)), hne⟩
  have hgrows := Parameters.extends_bind hend high false
  constructor
  case keys => rw [Parameters.keys_bind hend, hkeys, List.append_assoc]; rfl
  case named =>
    intro name hname
    simp only [Test.parameters, List.mem_cons, List.not_mem_nil, or_false] at hname
    rcases hname with rfl | rfl
    · exact .inr (.inl rfl)
    · exact .inr (.inr rfl)
  case grows =>
    exact (Parameters.extends_bind (hfresh _ (.inr (.inl rfl))) low false).trans hgrows
  case spelled => exact fun _ => trivial
  case truth =>
    intro q hq type cell
    have hlow := valueOf_of_extends (hgrows.trans hq)
    have hhigh := valueOf_of_extends hq
    simp [Test.eval, hlow, hhigh, truth, hvalue]

theorem toTest_builds (ev : Evaluation)
    (hfresh : ∀ name, Parameters.NamedAfter key name → name ∉ Assoc.keys p.values)
    (h : (op.toTest symbol key value).exec p = (.ok t, p')) :
    Builds ev op symbol key value p t p' := by
  cases op
  case between =>
    obtain ⟨low, high, hvalue, rfl, rfl⟩ := between_eq_ok h
    exact builds_between hfresh hvalue
  case isIn =>
    obtain ⟨items, hitems, rfl, rfl⟩ := boundList_eq_ok h
    refine builds_bind hfresh rfl (fun _ => trivial) fun q hq type cell => ?_
    simp [Test.eval, Test.itemsOf, hq, Truth.negateIf, truth, hitems]
  case notIn =>
    obtain ⟨items, hitems, rfl, rfl⟩ := boundList_eq_ok h
    refine builds_bind hfresh rfl (fun _ => trivial) fun q hq type cell => ?_
    simp [Test.eval, Test.itemsOf, hq, Truth.negateIf, truth, hitems]
  case isNull =>
    obtain ⟨h, rfl⟩ := Prod.mk.inj h
    cases h
    exact builds_null fun type cell => by simp [truth]
  case isNotNull =>
    obtain ⟨h, rfl⟩ := Prod.mk.inj h
    cases h
    exact builds_null fun type cell => by simp [truth, bne]
  case «matches» =>
    obtain ⟨rfl, rfl⟩ := bound_eq_ok h
    exact builds_bind hfresh rfl id fun q hq type cell => by simp [Test.eval, hq, truth]
  all_goals
    obtain ⟨rfl, rfl⟩ := bound_eq_ok h
    refine builds_bind hfresh rfl (fun _ => trivial) fun q hq type cell => ?_
    simp [Test.eval, hq, Truth.negateIf, truth]

end Operator

namespace OperatorTable

/-- A table in which the match of a regular expression is spelled in one of the known ways. -/
def Spelled (table : OperatorTable) : Prop :=
  ∀ entry ∈ table, entry.2 = "REGEXP" ∨ entry.2 = "~"

theorem matchSymbol_spelled (dialect : Option String) :
    matchSymbol dialect = "REGEXP" ∨ matchSymbol dialect = "~" := by
  cases dialect with
  | none => exact .inr rfl
  | some name =>
    rw [matchSymbol]
    split
    · exact .inl rfl
    · exact .inr rfl

theorem spelled_ofDialect (dialect : Option String) : (ofDialect dialect).Spelled := by
  intro entry hentry
  obtain ⟨op, -, rfl⟩ := List.mem_map.1 hentry
  exact matchSymbol_spelled dialect

theorem normalize_token (op : Operator) : Token.normalize op.token = op.token := by
  cases op <;> rfl

/-- The test of an operator, where there is one, is the operator's own. -/
theorem toTest_eq_ok {table : OperatorTable} {op : Operator} {key : String} {value : Value}
    {p p' : Parameters} {t : Test} (h : (table.toTest op.token key value).exec p = (.ok t, p')) :
    ∃ symbol, (op, symbol) ∈ table ∧ (op.toTest symbol key value).exec p = (.ok t, p') := by
  rw [toTest, get?, normalize_token, Operator.ofToken?_token] at h
  cases hsymbol : Assoc.get? table op with
  | none => simp [hsymbol] at h
  | some symbol => exact ⟨symbol, Assoc.mem_of_get? hsymbol, by simpa [hsymbol] using h⟩

end OperatorTable

end EntityQuery
