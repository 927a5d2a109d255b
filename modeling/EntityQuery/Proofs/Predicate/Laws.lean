import EntityQuery.Proofs.Filter.Bindings
import EntityQuery.Proofs.Predicate.Truth

/-! Laws of the operators. Operators come in pairs of which one is true just where the other is false,
and both are unknown together. A range asks for two comparisons, and a list for one of its elements or
for none of them. -/

namespace EntityQuery

namespace Truth

theorem not_not (t : Truth) : t.not.not = t := by cases t <;> rfl

theorem not_ofBool (b : Bool) : (ofBool b).not = ofBool (!b) := by cases b <;> rfl

theorem not_or (s t : Truth) : (s.or t).not = s.not.and t.not := not_not _

/-- No alternative is as true as all their negations together, whichever of them are unknown. -/
theorem not_any (ts : List Truth) : (any ts).not = all (ts.map not) := by
  induction ts with
  | nil => rfl
  | cons t ts ih => exact (not_or t (any ts)).trans (congrArg t.not.and ih)

end Truth

/-- A truth value for every cell of a column of some type, where lists are bound as they are. -/
abbrev Verdict := Matching → ColumnType → Cell → Truth

namespace Verdict

def not (v : Verdict) : Verdict := fun matching type cell => (v matching type cell).not

def all (vs : List Verdict) : Verdict :=
  fun matching type cell => .all (vs.map fun v => v matching type cell)

end Verdict

/-- The verdict of an operator on a value. -/
def Operator.verdict (op : Operator) (value : Value) : Verdict :=
  fun matching => op.truth ⟨matching, id⟩ value

/-- The verdict of comparisons that must all hold. -/
def Comparison.verdict (cs : List Comparison) : Verdict :=
  fun matching type cell => .all (truths ⟨matching, id⟩ type cell cs)

/-! ### Opposites -/

namespace Relop

/-- The symbol that stands between a cell and a value where this one does not. -/
def opposite : Relop → Relop
  | .eq => .ne
  | .ne => .eq
  | .lt => .ge
  | .le => .gt
  | .gt => .le
  | .ge => .lt

theorem holds_opposite (r : Relop) (o : Ordering) : r.opposite.holds o = !r.holds o := by
  cases r <;> cases o <;> rfl

/-- A null on either side leaves both a comparison and its opposite unknown. -/
theorem eval_opposite (r : Relop) (type : ColumnType) (cell : Cell) (value : Value) :
    r.opposite.eval type cell value = (r.eval type cell value).not := by
  unfold eval
  split
  · rfl
  · rfl
  · rw [holds_opposite, Truth.not_ofBool]

end Relop

namespace Operator

/-- Operators with the words for their opposites. -/
inductive Opposed : Operator → Operator → Prop
  | eq : Opposed .eq .ne
  | lt : Opposed .lt .gte
  | lte : Opposed .lte .gt
  | isIn : Opposed .isIn .notIn
  | like : Opposed .like .notLike
  | iLike : Opposed .iLike .notILike
  | isNull : Opposed .isNull .isNotNull

variable {op op' : Operator}

theorem Opposed.verdict_eq (h : Opposed op op') (value : Value) :
    op'.verdict value = (op.verdict value).not := by
  funext matching type cell
  cases h with
  | eq => exact Relop.eval_opposite .eq type cell value
  | lt => exact Relop.eval_opposite .lt type cell value
  | lte => exact Relop.eval_opposite .le type cell value
  | isNull => exact (Truth.not_ofBool _).symm
  | isIn | like | iLike => rfl

/-- Of these operators only those on lists refuse any value. -/
theorem Opposed.accepted (h : Opposed op op') {value : Value}
    (hvalue : op = .isIn → value.elements?.isSome = true) :
    op.refusal? value = none ∧ op'.refusal? value = none := by
  cases h with
  | isIn =>
    obtain ⟨items, hitems⟩ := Option.isSome_iff_exists.1 (hvalue rfl)
    simp [refusal?, hitems]
  | eq | lt | lte | like | iLike | isNull => exact ⟨rfl, rfl⟩

/-- No element of a list is equal where each of them differs. -/
theorem verdict_notIn (values : List Value) :
    notIn.verdict (.list values) = .all (values.map ne.verdict) := by
  funext matching type cell
  have hdiffers : ∀ v, (Relop.eq.eval type cell v).not = ne.verdict v matching type cell := fun v =>
    (Relop.eval_opposite .eq type cell v).symm
  have hnone := Truth.not_any (values.map fun v => Relop.eq.eval type cell v)
  simp only [List.map_map, Function.comp_def, hdiffers] at hnone
  rw [Verdict.all, List.map_map]
  exact hnone

end Operator

/-! ### Ranges and lists -/

namespace Comparison

theorem verdict_test (op : Operator) (value : Value) : verdict [.test op value] = op.verdict value := by
  funext matching type cell
  exact Truth.and_true _

/-- A range asks for a value that is neither below its lower nor above its upper end. -/
theorem verdict_between (low high : Value) :
    Operator.between.verdict (.list [low, high]) = verdict [.test .gte low, .test .lte high] := by
  funext matching type cell
  exact congrArg (Relop.ge.eval type cell low).and (Truth.and_true _).symm

theorem alternativeTruths_eq_map (matching : Matching) (type : ColumnType) (cell : Cell)
    (alternatives : List (List Comparison)) :
    alternativeTruths ⟨matching, id⟩ type cell alternatives =
      alternatives.map fun cs => verdict cs matching type cell := by
  induction alternatives with
  | nil => rfl
  | cons cs rest ih =>
    rw [alternativeTruths, ih]
    rfl

/-- A list asks for an equality with one of its elements. -/
theorem verdict_isIn (values : List Value) :
    Operator.isIn.verdict (.list values) = verdict [.oneOf (values.map fun v => [.test .eq v])] := by
  funext matching type cell
  have halternatives := alternativeTruths_eq_map matching type cell
    (values.map fun v => [.test .eq v])
  simp only [List.map_map, Function.comp_def, verdict_test] at halternatives
  have hone : verdict [.oneOf (values.map fun v => [.test .eq v])] matching type cell =
      .any (alternativeTruths ⟨matching, id⟩ type cell (values.map fun v => [.test .eq v])) :=
    Truth.and_true _
  rw [hone, halternatives]
  rfl

end Comparison

end EntityQuery
