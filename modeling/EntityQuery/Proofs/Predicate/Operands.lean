import EntityQuery.Proofs.Predicate.Reading

/-! Operands taken out. Null stands for whatever an operator is given, in a predicate and in the data
that it is read from, so that two predicates which differ in operands only become one. Reading goes along
with this: the blank data is read as the blank predicate. -/

namespace EntityQuery

variable {ι : Type}

/-! ### Comparisons -/

namespace Comparison

mutual

/-- A comparison in which every operator is given null. -/
def blank : Comparison → Comparison
  | .test op _ => .test op .null
  | .oneOf alternatives => .oneOf (blankAlternatives alternatives)

def blankAll : List Comparison → List Comparison
  | [] => []
  | c :: rest => blank c :: blankAll rest

def blankAlternatives : List (List Comparison) → List (List Comparison)
  | [] => []
  | alternative :: rest => blankAll alternative :: blankAlternatives rest

end

mutual

/-- An object of operators, or a list of such objects, with null for the value of every key that does not
list alternatives. -/
def blankValue : Value → Value
  | .obj members => .obj (blankMembers members)
  | .list items => .list (blankItems items)
  | value => value

def blankMembers : List (String × Value) → List (String × Value)
  | [] => []
  | (key, value) :: rest =>
    (key, if Token.normalize key = Token.alternatives then blankValue value else .null) ::
      blankMembers rest

def blankItems : List Value → List Value
  | [] => []
  | value :: rest => blankValue value :: blankItems rest

end

theorem blankAll_eq_map (cs : List Comparison) : blankAll cs = cs.map blank := by
  induction cs with
  | nil => rfl
  | cons c rest ih => rw [blankAll, ih, List.map_cons]

theorem blankAlternatives_eq_map (alternatives : List (List Comparison)) :
    blankAlternatives alternatives = alternatives.map blankAll := by
  induction alternatives with
  | nil => rfl
  | cons alternative rest ih => rw [blankAlternatives, ih, List.map_cons]

theorem blankMembers_eq_map (members : List (String × Value)) :
    blankMembers members = members.map fun m =>
      (m.1, if Token.normalize m.1 = Token.alternatives then blankValue m.2 else .null) := by
  induction members with
  | nil => rfl
  | cons m rest ih => rw [blankMembers, ih, List.map_cons]

theorem blankItems_eq_map (items : List Value) : blankItems items = items.map blankValue := by
  induction items with
  | nil => rfl
  | cons item rest ih => rw [blankItems, ih, List.map_cons]

variable {path key : String} {value : Value} {cs : List Comparison}

theorem Member.blank {R : Value → List Comparison → Prop} {c : Comparison}
    (h : Member (fun item cs => R (blankValue item) (blankAll cs)) key value c) :
    Member R key (if Token.normalize key = Token.alternatives then blankValue value else .null)
      c.blank := by
  cases h with
  | @oneOf items alternatives hkey hne h =>
    rw [if_pos hkey, blankValue, Comparison.blank, blankItems_eq_map, blankAlternatives_eq_map]
    refine .oneOf hkey (by simpa using hne) ?_
    rwa [List.forall₂_map_left_iff, List.forall₂_map_right_iff]
  | @test op value hkey =>
    rw [if_neg (hkey.trans_ne op.token_ne_alternatives), Comparison.blank]
    exact .test hkey

theorem Reads.blank (h : Reads path value cs) : Reads path (blankValue value) (blankAll cs) := by
  refine reads_induct (motive := fun value cs => Reads path (blankValue value) (blankAll cs)) ?_ h
  intro members cs hne hmembers
  rw [blankValue, blankMembers_eq_map, blankAll_eq_map]
  refine readAll_eq_ok.2 ⟨_, rfl, by simpa using hne, readMembers_eq_ok.2 ?_⟩
  rw [List.forall₂_map_left_iff, List.forall₂_map_right_iff]
  exact hmembers.imp fun m c h => h.blank

end Comparison

/-! ### Predicates -/

namespace Predicate

mutual

/-- A predicate in which every operator is given null. -/
def blank : Predicate → Predicate
  | .field name column comparisons => .field name column (Comparison.blankAll comparisons)
  | .relation name condition => .relation name (blank condition)
  | .all children => .all (blankAll children)
  | .any children => .any (blankAll children)
  | .not child => .not (blank child)
  | .fields entries => .fields (blankAll entries)

def blankAll : List Predicate → List Predicate
  | [] => []
  | p :: rest => blank p :: blankAll rest

end

/-- What stands under a key: a predicate on the target of the relation that the key names, comparisons
where it names a column, and else predicates on the entity itself. -/
def underKey {α : Type} (g : EntityGraph ι) (e : ι) (key : String) (predicate : ι → α)
    (comparisons : α) : α :=
  match (g.entity e).relation? key with
  | some r => predicate r.target
  | none => if (g.entity e).hasColumn key then comparisons else predicate e

mutual

/-- Data that is read as a predicate on an entity, or as several of them, with null for what the operators
in it are given. -/
def blankValue (g : EntityGraph ι) (e : ι) : Value → Value
  | .obj members => .obj (blankMembers g e members)
  | .list items => .list (blankItems g e items)
  | value => value

def blankMembers (g : EntityGraph ι) (e : ι) : List (String × Value) → List (String × Value)
  | [] => []
  | (key, value) :: rest =>
    (key, underKey g e key (fun e => blankValue g e value) (Comparison.blankValue value)) ::
      blankMembers g e rest

def blankItems (g : EntityGraph ι) (e : ι) : List Value → List Value
  | [] => []
  | value :: rest => blankValue g e value :: blankItems g e rest

end

variable {g : EntityGraph ι} {e : ι} {path key : String} {value : Value} {p : Predicate}

theorem blankAll_eq_map (ps : List Predicate) : blankAll ps = ps.map blank := by
  induction ps with
  | nil => rfl
  | cons p rest ih => rw [blankAll, ih, List.map_cons]

theorem blankItems_eq_map (items : List Value) : blankItems g e items = items.map (blankValue g e) := by
  induction items with
  | nil => rfl
  | cons item rest ih => rw [blankItems, ih, List.map_cons]

theorem blankMembers_eq_map (members : List (String × Value)) :
    blankMembers g e members = members.map fun m =>
      (m.1, underKey g e m.1 (fun e => blankValue g e m.2) (Comparison.blankValue m.2)) := by
  induction members with
  | nil => rfl
  | cons m rest ih => rw [blankMembers, ih, List.map_cons]

theorem underKey_relation {α : Type} {r : Relation ι} (h : (g.entity e).relation? key = some r)
    (predicate : ι → α) (comparisons : α) :
    underKey g e key predicate comparisons = predicate r.target := by
  rw [underKey, h]

theorem ReadsWord.underKey {α : Type} {c : Combinator} (h : ReadsWord g e key c) (predicate : ι → α)
    (comparisons : α) : underKey g e key predicate comparisons = predicate e := by
  simp [Predicate.underKey, h.relation, h.column]

theorem blank_ofEntries (entries : List Predicate) :
    (ofEntries entries).blank = ofEntries (blankAll entries) := by
  match entries with
  | [] => rfl
  | [p] => rfl
  | p :: p' :: rest => rfl

theorem Member.blank {R : ι → String → Value → Predicate → Prop}
    (h : Member g (fun e path value p => R e path (blankValue g e value) p.blank) e path key value p) :
    Member g R e path key
      (underKey g e key (fun e => blankValue g e value) (Comparison.blankValue value)) p.blank := by
  cases h with
  | relation hr h =>
    rw [underKey_relation hr, Predicate.blank]
    exact .relation hr h
  | field hr hcolumn h =>
    rw [underKey, hr, if_pos hcolumn, Predicate.blank]
    exact .field hr hcolumn h.blank
  | all hkey hne h =>
    rw [hkey.underKey, blankValue, Predicate.blank, blankItems_eq_map, blankAll_eq_map]
    refine .all hkey (by simpa using hne) ?_
    rwa [List.forall₂_map_left_iff, List.forall₂_map_right_iff]
  | any hkey hne h =>
    rw [hkey.underKey, blankValue, Predicate.blank, blankItems_eq_map, blankAll_eq_map]
    refine .any hkey (by simpa using hne) ?_
    rwa [List.forall₂_map_left_iff, List.forall₂_map_right_iff]
  | not hkey hchild h =>
    rw [hkey.underKey, Predicate.blank]
    refine .not hkey ?_ h
    rcases hchild with rfl | rfl
    · exact .inl rfl
    · exact .inr rfl

/-- What is read as a predicate is read as the blank one where its operands are taken out. -/
theorem Reads.blank (h : Reads g e path value p) : Reads g e path (blankValue g e value) p.blank := by
  refine reads_induct
    (motive := fun e path value p => Reads g e path (blankValue g e value) p.blank) ?_ h
  intro e path members entries hmembers
  refine reads_iff.2 ⟨_, _, by rw [blankValue], blank_ofEntries entries, ?_⟩
  rw [blankMembers_eq_map, blankAll_eq_map, List.forall₂_map_left_iff, List.forall₂_map_right_iff]
  exact hmembers.imp fun m p h => h.blank

/-- Predicates that are read from data with the same blank differ in operands only. -/
theorem blank_eq_of_reads {value' : Value} {p' : Predicate} (h : Reads g e path value p)
    (h' : Reads g e path value' p') (hblank : blankValue g e value = blankValue g e value') :
    p.blank = p'.blank :=
  Except.ok.inj (h.blank.symm.trans (hblank ▸ h'.blank))

end Predicate

end EntityQuery
