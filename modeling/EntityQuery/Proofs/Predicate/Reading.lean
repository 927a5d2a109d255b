import EntityQuery.Predicate.Reading
import EntityQuery.Proofs.Members

/-! What reading a predicate does, one equivalence for each of its functions. An object is read member by
member and a list item by item, each by one of a few rules, and an induction over what is read follows
these rules. -/

namespace EntityQuery

variable {ι : Type}

theorem Operator.ofToken?_eq_some_iff {s : String} {op : Operator} :
    Operator.ofToken? s = some op ↔ s = op.token := by
  constructor
  · intro h
    have htoken := List.find?_some h
    exact (of_decide_eq_true htoken).symm
  · rintro rfl
    exact ofToken?_token op

theorem Operator.token_ne_alternatives (op : Operator) : op.token ≠ Token.alternatives := by
  cases op <;> decide

theorem Combinator.ofToken?_eq_some_iff {s : String} {c : Combinator} :
    Combinator.ofToken? s = some c ↔ s = c.token := by
  constructor
  · intro h
    have htoken := List.find?_some h
    exact (of_decide_eq_true htoken).symm
  · rintro rfl
    exact ofToken?_token c

theorem Value.sizeOf_lt_list {items : List Value} {item : Value} (h : item ∈ items) :
    sizeOf item < sizeOf (Value.list items) := by
  have := List.sizeOf_lt_of_mem h
  rw [Value.list.sizeOf_spec]
  omega

theorem Value.sizeOf_lt_obj {members : List (String × Value)} {m : String × Value} (h : m ∈ members) :
    sizeOf m.2 < sizeOf (Value.obj members) := by
  have := List.sizeOf_lt_of_mem h
  obtain ⟨key, value⟩ := m
  rw [Prod.mk.sizeOf_spec] at this
  rw [Value.obj.sizeOf_spec]
  dsimp only
  omega

/-! ### Objects of operators -/

namespace Comparison

variable {path key : String} {value : Value} {cs : List Comparison}

/-- The rules for one member of an object of operators: alternatives are a list, which is not empty, of
objects read by `R`, and an operator stands before any value. -/
inductive Member (R : Value → List Comparison → Prop) (key : String) : Value → Comparison → Prop
  | oneOf {items : List Value} {alternatives : List (List Comparison)}
    (hkey : Token.normalize key = Token.alternatives) (hne : items ≠ [])
    (h : List.Forall₂ R items alternatives) : Member R key (.list items) (.oneOf alternatives)
  | test {op : Operator} {value : Value} (hkey : Token.normalize key = op.token) :
    Member R key value (.test op value)

/-- A value that is read as comparisons. -/
def Reads (path : String) (value : Value) (cs : List Comparison) : Prop := readAll path value = .ok cs

theorem readAll_eq_ok :
    readAll path value = .ok cs ↔
      ∃ members, value = .obj members ∧ members ≠ [] ∧ readMembers path members = .ok cs := by
  constructor
  · intro h
    unfold readAll at h
    split at h
    · cases h
    · next members hne => exact ⟨members, rfl, hne, h⟩
    · cases h
  · rintro ⟨members, rfl, hne, h⟩
    cases members with
    | nil => exact absurd rfl hne
    | cons m rest =>
      unfold readAll
      exact h

theorem readAlternatives_eq_ok {items : List Value} {alternatives : List (List Comparison)} :
    readAlternatives path items = .ok alternatives ↔
      List.Forall₂ (Reads path) items alternatives := by
  induction items generalizing alternatives with
  | nil =>
    unfold readAlternatives
    rw [List.forall₂_nil_left_iff]
    exact ⟨fun h => (Except.ok.inj h).symm, fun h => congrArg Except.ok h.symm⟩
  | cons item items ih =>
    unfold readAlternatives
    simp only [Except.bind_eq_ok, ih, List.forall₂_cons_left_iff]
    constructor
    · rintro ⟨first, hfirst, others, hothers, ⟨⟩⟩
      exact ⟨first, others, hfirst, hothers, rfl⟩
    · rintro ⟨first, others, hfirst, hothers, rfl⟩
      exact ⟨first, hfirst, others, hothers, rfl⟩

theorem readMembers_cons_eq_ok {rest : List (String × Value)} :
    readMembers path ((key, value) :: rest) = .ok cs ↔
      ∃ first others, Member (Reads path) key value first ∧ readMembers path rest = .ok others ∧
        cs = first :: others := by
  constructor
  · intro h
    unfold readMembers at h
    simp only [] at h
    split at h
    · next hkey =>
      split at h
      · cases h
      · next items hne =>
        simp only [pure_bind, Except.bind_eq_ok] at h
        obtain ⟨alternatives, halternatives, others, hrest, ⟨⟩⟩ := h
        exact ⟨_, _, .oneOf hkey hne (readAlternatives_eq_ok.1 halternatives), hrest, rfl⟩
      · cases h
    · split at h
      · next op hop =>
        simp only [pure_bind, Except.bind_eq_ok] at h
        obtain ⟨others, hrest, ⟨⟩⟩ := h
        exact ⟨_, _, .test (Operator.ofToken?_eq_some_iff.1 hop), hrest, rfl⟩
      · cases h
  · rintro ⟨first, others, hfirst, hrest, rfl⟩
    unfold readMembers
    cases hfirst with
    | @oneOf items alternatives hkey hne h =>
      cases items with
      | nil => exact absurd rfl hne
      | cons item items =>
        simp only [hkey, if_true, readAlternatives_eq_ok.2 h, hrest]
        rfl
    | @test op value hkey =>
      simp only [hkey, op.token_ne_alternatives, if_false, op.ofToken?_token, hrest]
      rfl

theorem readMembers_eq_ok {members : List (String × Value)} :
    readMembers path members = .ok cs ↔
      List.Forall₂ (fun m c => Member (Reads path) m.1 m.2 c) members cs := by
  induction members generalizing cs with
  | nil =>
    unfold readMembers
    rw [List.forall₂_nil_left_iff]
    exact ⟨fun h => (Except.ok.inj h).symm, fun h => congrArg Except.ok h.symm⟩
  | cons m rest ih =>
    obtain ⟨key, value⟩ := m
    simp only [readMembers_cons_eq_ok, ih, List.forall₂_cons_left_iff]

theorem Member.imp {R R' : Value → List Comparison → Prop} {c : Comparison} (h : Member R key value c)
    (hR : ∀ item cs, sizeOf item < sizeOf value → R item cs → R' item cs) : Member R' key value c := by
  cases h with
  | oneOf hkey hne h =>
    exact .oneOf hkey hne
      (forall₂_imp_of_mem h fun item hitem cs => hR item cs (Value.sizeOf_lt_list hitem))
  | test hkey => exact .test hkey

/-- What holds of an object when it holds of the alternatives in it holds of whatever is read. -/
theorem reads_induct {value : Value} {cs : List Comparison}
    {motive : Value → List Comparison → Prop}
    (step : ∀ {members cs}, members ≠ [] →
      List.Forall₂ (fun m c => Member motive m.1 m.2 c) members cs → motive (.obj members) cs)
    (h : Reads path value cs) : motive value cs := by
  obtain ⟨members, rfl, hne, hmembers⟩ := readAll_eq_ok.1 h
  refine step hne (forall₂_imp_of_mem (readMembers_eq_ok.1 hmembers) fun m hm c hread => ?_)
  have hsize := Value.sizeOf_lt_obj hm
  exact hread.imp fun item cs hlt h => reads_induct step h
termination_by sizeOf value

end Comparison

/-! ### Predicate objects -/

namespace Predicate

variable {g : EntityGraph ι} {e : ι} {path key : String} {value : Value} {p : Predicate}
  {ps : List Predicate}

/-- A key that is read as the word of a combinator. -/
structure ReadsWord (g : EntityGraph ι) (e : ι) (key : String) (c : Combinator) : Prop where
  relation : (g.entity e).relation? key = none
  column : (g.entity e).hasColumn key = false
  word : Token.normalize key = c.token

/-- The rules for one member of an object: a condition on a relation, comparisons of a column, or a
combination; predicates inside are read by `R`. -/
inductive Member (g : EntityGraph ι) (R : ι → String → Value → Predicate → Prop) (e : ι)
    (path key : String) : Value → Predicate → Prop
  | relation {r : Relation ι} {value : Value} {p : Predicate}
    (hrelation : (g.entity e).relation? key = some r)
    (h : R r.target (Path.child path key) value p) : Member g R e path key value (.relation key p)
  | field {value : Value} {comparisons : List Comparison}
    (hrelation : (g.entity e).relation? key = none)
    (hcolumn : (g.entity e).hasColumn key = true)
    (h : Comparison.Reads (Path.child path key) value comparisons) :
    Member g R e path key value (.field key ((g.entity e).columnName key) comparisons)
  | all {items : List Value} {ps : List Predicate} (hkey : ReadsWord g e key .all) (hne : items ≠ [])
    (h : List.Forall₂ (R e path) items ps) : Member g R e path key (.list items) (.all ps)
  | any {items : List Value} {ps : List Predicate} (hkey : ReadsWord g e key .any) (hne : items ≠ [])
    (h : List.Forall₂ (R e path) items ps) : Member g R e path key (.list items) (.any ps)
  | not {value child : Value} {p : Predicate} (hkey : ReadsWord g e key .not)
    (hchild : value = child ∨ value = .list [child]) (h : R e path child p) :
    Member g R e path key value (.not p)

/-- A value that is read as a predicate. -/
def Reads (g : EntityGraph ι) (e : ι) (path : String) (value : Value) (p : Predicate) : Prop :=
  read g e path value = .ok p

theorem read_eq_ok :
    read g e path value = .ok p ↔
      ∃ members entries, value = .obj members ∧ readMembers g e path members = .ok entries ∧
        p = ofEntries entries := by
  constructor
  · intro h
    unfold read at h
    split at h
    · next members =>
      obtain ⟨entries, hentries, ⟨⟩⟩ := Except.bind_eq_ok.1 h
      exact ⟨members, entries, rfl, hentries, rfl⟩
    · cases h
  · rintro ⟨members, entries, rfl, h, rfl⟩
    unfold read
    exact Except.bind_eq_ok.2 ⟨entries, h, rfl⟩

theorem readItems_eq_ok {items : List Value} :
    readItems g e path items = .ok ps ↔ List.Forall₂ (Reads g e path) items ps := by
  induction items generalizing ps with
  | nil =>
    unfold readItems
    rw [List.forall₂_nil_left_iff]
    exact ⟨fun h => (Except.ok.inj h).symm, fun h => congrArg Except.ok h.symm⟩
  | cons item items ih =>
    unfold readItems
    simp only [Except.bind_eq_ok, ih, List.forall₂_cons_left_iff]
    constructor
    · rintro ⟨first, hfirst, others, hothers, ⟨⟩⟩
      exact ⟨first, others, hfirst, hothers, rfl⟩
    · rintro ⟨first, others, hfirst, hothers, rfl⟩
      exact ⟨first, hfirst, others, hothers, rfl⟩

/-- A first member that is read falls under one of the rules. -/
theorem member_of_readMembers {rest : List (String × Value)}
    (h : readMembers g e path ((key, value) :: rest) = .ok ps) :
    ∃ first others, Member g (Reads g) e path key value first ∧
      readMembers g e path rest = .ok others ∧ ps = first :: others := by
  unfold readMembers at h
  simp only [] at h
  split at h
  · next r hr =>
    split at h
    · next members =>
      simp only [pure_bind, Except.bind_eq_ok] at h
      obtain ⟨entries, hentries, others, hrest, ⟨⟩⟩ := h
      exact ⟨_, _, .relation hr (read_eq_ok.2 ⟨_, _, rfl, hentries, rfl⟩), hrest, rfl⟩
    · cases h
  next hr =>
  split at h
  · next hcolumn =>
    simp only [pure_bind, Except.bind_eq_ok] at h
    obtain ⟨comparisons, hcomparisons, others, hrest, ⟨⟩⟩ := h
    exact ⟨_, _, .field hr hcolumn hcomparisons, hrest, rfl⟩
  next hcolumn =>
  have hword : ∀ {c}, Combinator.ofToken? (Token.normalize key) = some c → ReadsWord g e key c :=
    fun hc => ⟨hr, Bool.eq_false_iff.2 hcolumn, Combinator.ofToken?_eq_some_iff.1 hc⟩
  split at h
  · next hc =>
    split at h
    · next child =>
      simp only [pure_bind, Except.bind_eq_ok] at h
      obtain ⟨p, hp, others, hrest, ⟨⟩⟩ := h
      exact ⟨_, _, .not (hword hc) (.inr rfl) hp, hrest, rfl⟩
    · cases h
    · simp only [pure_bind, Except.bind_eq_ok] at h
      obtain ⟨p, hp, others, hrest, ⟨⟩⟩ := h
      exact ⟨_, _, .not (hword hc) (.inl rfl) hp, hrest, rfl⟩
  · next hc =>
    split at h
    · cases h
    · next items hne =>
      simp only [pure_bind, Except.bind_eq_ok] at h
      obtain ⟨children, hchildren, others, hrest, ⟨⟩⟩ := h
      exact ⟨_, _, .all (hword hc) hne (readItems_eq_ok.1 hchildren), hrest, rfl⟩
    · cases h
  · next hc =>
    split at h
    · cases h
    · next items hne =>
      simp only [pure_bind, Except.bind_eq_ok] at h
      obtain ⟨children, hchildren, others, hrest, ⟨⟩⟩ := h
      exact ⟨_, _, .any (hword hc) hne (readItems_eq_ok.1 hchildren), hrest, rfl⟩
    · cases h
  · cases h

/-- A first member that falls under one of the rules is read. -/
theorem Member.readMembers {rest : List (String × Value)} (h : Member g (Reads g) e path key value p)
    (hrest : Predicate.readMembers g e path rest = .ok ps) :
    Predicate.readMembers g e path ((key, value) :: rest) = .ok (p :: ps) := by
  unfold Predicate.readMembers
  cases h with
  | @relation r value p hr h =>
    obtain ⟨members, entries, rfl, hentries, rfl⟩ := read_eq_ok.1 h
    simp only [hr, hentries, hrest]
    rfl
  | @field value comparisons hr hcolumn h =>
    rw [Comparison.Reads] at h
    simp only [hr, hcolumn, if_true, h, hrest]
    rfl
  | @all items ps hkey hne h =>
    cases items with
    | nil => exact absurd rfl hne
    | cons item items =>
      simp only [hkey.relation, hkey.column, hkey.word, Combinator.ofToken?_token,
        readItems_eq_ok.2 h, hrest]
      rfl
  | @any items ps hkey hne h =>
    cases items with
    | nil => exact absurd rfl hne
    | cons item items =>
      simp only [hkey.relation, hkey.column, hkey.word, Combinator.ofToken?_token,
        readItems_eq_ok.2 h, hrest]
      rfl
  | @not value child p hkey hchild h =>
    simp only [hkey.relation, hkey.column, hkey.word, Combinator.ofToken?_token]
    rcases hchild with rfl | rfl
    · obtain ⟨members, entries, rfl, -, -⟩ := read_eq_ok.1 h
      rw [Reads] at h
      simp only [h, hrest]
      rfl
    · rw [Reads] at h
      simp only [h, hrest]
      rfl

theorem readMembers_cons_eq_ok {rest : List (String × Value)} :
    readMembers g e path ((key, value) :: rest) = .ok ps ↔
      ∃ first others, Member g (Reads g) e path key value first ∧
        readMembers g e path rest = .ok others ∧ ps = first :: others :=
  ⟨member_of_readMembers, fun ⟨_, _, hfirst, hrest, hps⟩ => hps ▸ hfirst.readMembers hrest⟩

theorem readMembers_eq_ok {members : List (String × Value)} :
    readMembers g e path members = .ok ps ↔
      List.Forall₂ (fun m p => Member g (Reads g) e path m.1 m.2 p) members ps := by
  induction members generalizing ps with
  | nil =>
    unfold readMembers
    rw [List.forall₂_nil_left_iff]
    exact ⟨fun h => (Except.ok.inj h).symm, fun h => congrArg Except.ok h.symm⟩
  | cons m rest ih =>
    obtain ⟨key, value⟩ := m
    simp only [readMembers_cons_eq_ok, ih, List.forall₂_cons_left_iff]

/-- A value is read as a predicate when it is an object whose members are read as the entries. -/
theorem reads_iff :
    Reads g e path value p ↔
      ∃ members entries, value = .obj members ∧ p = ofEntries entries ∧
        List.Forall₂ (fun m p => Member g (Reads g) e path m.1 m.2 p) members entries := by
  simp only [Reads, read_eq_ok, readMembers_eq_ok, and_comm]

theorem Member.imp {R R' : ι → String → Value → Predicate → Prop} (h : Member g R e path key value p)
    (hR : ∀ e path child p, sizeOf child ≤ sizeOf value → R e path child p → R' e path child p) :
    Member g R' e path key value p := by
  cases h with
  | relation hr h => exact .relation hr (hR _ _ _ _ (Nat.le_refl _) h)
  | field hr hcolumn h => exact .field hr hcolumn h
  | all hkey hne h =>
    refine .all hkey hne (forall₂_imp_of_mem h fun item hi p => ?_)
    exact hR e path item p (Nat.le_of_lt (Value.sizeOf_lt_list hi))
  | any hkey hne h =>
    refine .any hkey hne (forall₂_imp_of_mem h fun item hi p => ?_)
    exact hR e path item p (Nat.le_of_lt (Value.sizeOf_lt_list hi))
  | @not _ child _ hkey hchild h =>
    have hsize : sizeOf child ≤ sizeOf value := by
      rcases hchild with rfl | rfl
      · exact Nat.le_refl _
      · exact Nat.le_of_lt (Value.sizeOf_lt_list List.mem_cons_self)
    exact .not hkey hchild (hR _ _ _ _ hsize h)

/-- What holds of an object when it holds of the predicates in it holds of whatever is read. -/
theorem reads_induct {e : ι} {path : String} {value : Value} {p : Predicate}
    {motive : ι → String → Value → Predicate → Prop}
    (step : ∀ {e path members entries},
      List.Forall₂ (fun m p => Member g motive e path m.1 m.2 p) members entries →
        motive e path (.obj members) (ofEntries entries))
    (h : Reads g e path value p) : motive e path value p := by
  obtain ⟨members, entries, rfl, rfl, hentries⟩ := reads_iff.1 h
  refine step (forall₂_imp_of_mem hentries fun m hm p hread => ?_)
  have hsize := Value.sizeOf_lt_obj hm
  exact hread.imp fun e path child p hle h => reads_induct step h
termination_by sizeOf value

/-! ### Objects of one combination -/

/-- An object of one member is read as the member is. -/
theorem reads_singleton_iff :
    Reads g e path (.obj [(key, value)]) p ↔ Member g (Reads g) e path key value p := by
  rw [reads_iff]
  constructor
  · rintro ⟨_, entries, ⟨⟩, rfl, hentries⟩
    obtain ⟨first, _, hfirst, hnil, rfl⟩ := List.forall₂_cons_left_iff.1 hentries
    obtain rfl := List.forall₂_nil_left_iff.1 hnil
    exact hfirst
  · exact fun h => ⟨_, [p], rfl, rfl, .cons h .nil⟩

/-- The object that asks for one of two predicate objects. -/
def orObject (data data' : Value) : Value := .obj [("or", .list [data, data'])]

/-- The object that asks for the opposite of a predicate object. -/
def notObject (data : Value) : Value := .obj [("not", data)]

/-- A list is neither a condition on a relation nor an object of operators, so that the object of two
alternatives is read as such on any entity. -/
theorem exists_of_reads_orObject {data data' : Value} (h : Reads g e path (orObject data data') p) :
    ∃ q q', Reads g e path data q ∧ Reads g e path data' q' ∧ p = .any [q, q'] := by
  cases reads_singleton_iff.1 h with
  | relation _ hread =>
    obtain ⟨_, _, hlist, -⟩ := reads_iff.1 hread
    exact nomatch hlist
  | field _ _ hread =>
    obtain ⟨_, hlist, -⟩ := Comparison.readAll_eq_ok.1 hread
    exact nomatch hlist
  | all hkey => exact absurd hkey.word (by decide)
  | any _ _ hread =>
    obtain ⟨q, _, hq, hrest, rfl⟩ := List.forall₂_cons_left_iff.1 hread
    obtain ⟨q', _, hq', hnil, rfl⟩ := List.forall₂_cons_left_iff.1 hrest
    obtain rfl := List.forall₂_nil_left_iff.1 hnil
    exact ⟨q, q', hq, hq', rfl⟩
  | not hkey => exact absurd hkey.word (by decide)

/-- The object of an opposite is read as such, unless the word is the name of a relation or of a column. -/
theorem cases_of_reads_notObject {data : Value} {q : Predicate} (hdata : Reads g e path data q)
    (h : Reads g e path (notObject data) p) :
    p = .not q ∨ (∃ condition, p = .relation "not" condition) ∨
      ∃ column comparisons, p = .field "not" column comparisons := by
  cases reads_singleton_iff.1 h with
  | relation => exact .inr (.inl ⟨_, rfl⟩)
  | field => exact .inr (.inr ⟨_, _, rfl⟩)
  | all hkey => exact absurd hkey.word (by decide)
  | any hkey => exact absurd hkey.word (by decide)
  | not _ hchild hread =>
    obtain ⟨members, _, rfl, -⟩ := reads_iff.1 hdata
    rcases hchild with rfl | hlist
    · exact .inl (congrArg _ (Except.ok.inj (Eq.trans (Eq.symm hread) hdata)))
    · exact nomatch hlist

end Predicate

end EntityQuery
