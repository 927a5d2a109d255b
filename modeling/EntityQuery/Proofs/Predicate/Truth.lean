import EntityQuery.Proofs.Filter.Operators
import EntityQuery.Proofs.Predicate.Reading

/-! The truth of predicate trees on rows. A condition on a relation looks at the row at the path of
the relation; parts without any comparison have no truth value and do not count. -/

namespace EntityQuery

/-- What a row shows: the type and the cell of every column. -/
abbrev RowSight := String → ColumnType × Cell

namespace Comparison

variable (ev : Evaluation) (type : ColumnType) (cell : Cell)

mutual

def truth : Comparison → Truth
  | .test op value => op.truth ev value type cell
  | .oneOf alternatives => .any (alternativeTruths alternatives)

def truths : List Comparison → List Truth
  | [] => []
  | c :: rest => truth c :: truths rest

/-- The truths of alternatives, each of which is a conjunction. -/
def alternativeTruths : List (List Comparison) → List Truth
  | [] => []
  | alternative :: rest => .all (truths alternative) :: alternativeTruths rest

end

end Comparison

namespace Predicate

/-- The truth of several parts taken together, if there are any. -/
def together (connect : List Truth → Truth) : List Truth → Option Truth
  | [] => none
  | ts => some (connect ts)

variable (ev : Evaluation) (rowAt : String → RowSight)

mutual

/-- The truth of a predicate on a row, where `rowAt` gives the rows at relation paths and `path` is
the path of the row itself. A predicate that holds no comparison has none. -/
def truth (row : RowSight) (path : String) : Predicate → Option Truth
  | .field _ column comparisons =>
    together .all (Comparison.truths ev (row column).1 (row column).2 comparisons)
  | .relation name condition =>
    truth (rowAt (Path.child path name)) (Path.child path name) condition
  | .all children => together .all (truths row path children)
  | .any children => together .any (truths row path children)
  | .not child => (truth row path child).map Truth.not
  | .fields entries => together .all (truths row path entries)

/-- The truths of those predicates that have one. -/
def truths (row : RowSight) (path : String) : List Predicate → List Truth
  | [] => []
  | p :: rest => (truth row path p).toList ++ truths row path rest

end

mutual

/-- Whether a predicate holds any comparison. -/
def hasComparison : Predicate → Bool
  | .field _ _ comparisons => !comparisons.isEmpty
  | .relation _ condition => hasComparison condition
  | .all children => anyComparison children
  | .any children => anyComparison children
  | .not child => hasComparison child
  | .fields entries => anyComparison entries

def anyComparison : List Predicate → Bool
  | [] => false
  | p :: rest => hasComparison p || anyComparison rest

end

theorem together_isSome (connect : List Truth → Truth) (ts : List Truth) :
    (together connect ts).isSome = !ts.isEmpty := by
  cases ts <;> rfl

mutual

theorem truth_isSome (row : RowSight) (path : String) (p : Predicate) :
    (truth ev rowAt row path p).isSome = p.hasComparison := by
  cases p with
  | field name column comparisons =>
    rw [truth, together_isSome, hasComparison]
    cases comparisons <;> rfl
  | relation name condition => rw [truth, truth_isSome, hasComparison]
  | all children => rw [truth, together_isSome, truths_isEmpty, hasComparison]
  | any children => rw [truth, together_isSome, truths_isEmpty, hasComparison]
  | not child => rw [truth, Option.isSome_map, truth_isSome, hasComparison]
  | fields entries => rw [truth, together_isSome, truths_isEmpty, hasComparison]

theorem truths_isEmpty (row : RowSight) (path : String) (ps : List Predicate) :
    (!(truths ev rowAt row path ps).isEmpty) = anyComparison ps := by
  cases ps with
  | nil => rfl
  | cons p rest =>
    have hp := truth_isSome row path p
    have hrest := truths_isEmpty row path rest
    rw [truths, anyComparison, ← hp, ← hrest]
    cases truth ev rowAt row path p <;> simp

end

end Predicate

/-! ### Trees as they are read -/

namespace Comparison

/-- A comparison without empty alternatives. -/
inductive Proper : Comparison → Prop
  | test {op : Operator} {value : Value} : Proper (.test op value)
  | oneOf {alternatives : List (List Comparison)} (hne : alternatives ≠ [])
    (hparts : ∀ alternative ∈ alternatives, alternative ≠ [])
    (h : ∀ alternative ∈ alternatives, ∀ c ∈ alternative, Proper c) : Proper (.oneOf alternatives)

theorem readAll_proper {path : String} {value : Value} {cs : List Comparison}
    (h : readAll path value = .ok cs) : cs ≠ [] ∧ ∀ c ∈ cs, c.Proper := by
  refine reads_induct (motive := fun _ cs => cs ≠ [] ∧ ∀ c ∈ cs, c.Proper) ?_ h
  intro members cs hne hmembers
  refine ⟨?_, forall_mem_of_forall₂ hmembers fun ⟨key, value⟩ _ c hmember => ?_⟩
  · rintro rfl
    exact hne (List.forall₂_nil_right_iff.1 hmembers)
  · cases hmember with
    | @oneOf items alternatives _ hitems h =>
      have hparts := forall_mem_of_forall₂ h fun _ _ _ hpart => hpart
      refine .oneOf ?_ (fun a ha => (hparts a ha).1) fun a ha => (hparts a ha).2
      rintro rfl
      exact hitems (List.forall₂_nil_right_iff.1 h)
    | test => exact .test

end Comparison

namespace Predicate

variable {ι : Type} {g : EntityGraph ι}

/-- A predicate over an entity: its fields are columns and its relations are relations of the
entities that it talks about, and nothing in it is empty but objects without keys. -/
inductive Over (g : EntityGraph ι) : ι → Predicate → Prop
  | field {e : ι} {name : String} {comparisons : List Comparison}
    (hcolumn : (g.entity e).hasColumn name = true) (hne : comparisons ≠ [])
    (h : ∀ c ∈ comparisons, c.Proper) :
    Over g e (.field name ((g.entity e).columnName name) comparisons)
  | relation {e : ι} {name : String} {r : Relation ι} {condition : Predicate}
    (hrelation : (g.entity e).relation? name = some r) (h : Over g r.target condition) :
    Over g e (.relation name condition)
  | all {e : ι} {children : List Predicate} (hne : children ≠ [])
    (h : ∀ p ∈ children, Over g e p) : Over g e (.all children)
  | any {e : ι} {children : List Predicate} (hne : children ≠ [])
    (h : ∀ p ∈ children, Over g e p) : Over g e (.any children)
  | not {e : ι} {child : Predicate} (h : Over g e child) : Over g e (.not child)
  | fields {e : ι} {entries : List Predicate} (h : ∀ p ∈ entries, Over g e p) :
    Over g e (.fields entries)

theorem over_ofEntries {e : ι} {entries : List Predicate} (h : ∀ p ∈ entries, Over g e p) :
    Over g e (ofEntries entries) := by
  unfold ofEntries
  split
  · next p => exact h p (by simp)
  · exact .fields h

/-- A predicate that is read on an entity is one over the entity. -/
theorem read_over {e : ι} {path : String} (value : Value) {p : Predicate}
    (h : read g e path value = .ok p) : Over g e p := by
  refine reads_induct (motive := fun e _ _ p => Over g e p) ?_ h
  intro e path members entries hentries
  refine over_ofEntries (forall_mem_of_forall₂ hentries fun ⟨key, value⟩ _ p hmember => ?_)
  cases hmember with
  | relation hr h => exact .relation hr h
  | field hr hcolumn h =>
    obtain ⟨hne, hproper⟩ := Comparison.readAll_proper h
    exact .field hcolumn hne hproper
  | @all items ps hkey hne h =>
    refine .all ?_ (forall_mem_of_forall₂ h fun _ _ _ hover => hover)
    rintro rfl
    exact hne (List.forall₂_nil_right_iff.1 h)
  | @any items ps hkey hne h =>
    refine .any ?_ (forall_mem_of_forall₂ h fun _ _ _ hover => hover)
    rintro rfl
    exact hne (List.forall₂_nil_right_iff.1 h)
  | not hkey hchild h => exact .not h

end Predicate

end EntityQuery
