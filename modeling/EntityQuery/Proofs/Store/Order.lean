import Mathlib.Data.Set.Insert
import Mathlib.Order.Compare
import EntityQuery.Store.Result

/-! The order of cells and of sort keys. Cells are compared by kind, then by value, then by text, which
is a total preorder; integers and reals of one value tie. Rows are compared by their cells under the
sort keys, the first key that tells them apart deciding. -/

namespace EntityQuery

/-! ### Cells -/

theorem Double.compare_unitsOfInt (n k : Int) :
    Ord.compare (unitsOfInt n) (unitsOfInt k) = Ord.compare n k := by
  unfold unitsOfInt
  generalize (-minExponent).toNat = places
  have hpos : (0 : Int) < (Nat.pow 2 places : Nat) := by exact_mod_cast Nat.two_pow_pos places
  rcases lt_trichotomy n k with h | rfl | h
  · rw [compare_lt_iff_lt.2 h, compare_lt_iff_lt.2 (Int.mul_lt_mul_of_pos_right h hpos)]
  · rw [compare_eq_iff_eq.2 rfl, compare_eq_iff_eq.2 rfl]
  · rw [compare_gt_iff_gt.2 h, compare_gt_iff_gt.2 (Int.mul_lt_mul_of_pos_right h hpos)]

namespace Cell

/-- The kinds of cells in order: null, the least number, finite numbers, the greatest number, texts. -/
def level : Cell → Nat
  | .null => 0
  | .int _ => 2
  | .real (.infinite negative) => if negative then 1 else 3
  | .real (.finite ..) => 2
  | .text _ => 4

/-- The value of a finite number in least units. -/
def units : Cell → Int
  | .int n => Double.unitsOfInt n
  | .real (.finite s m e) => Double.units s m e
  | _ => 0

def characters : Cell → String
  | .text s => s
  | _ => ""

theorem compare_eq_compareLex : Cell.compare =
    compareLex (compareOn level) (compareLex (compareOn units) (compareOn characters)) := by
  funext a b
  cases a with
  | null =>
    cases b with
    | real y => rcases y with _ | (_ | _) <;> rfl
    | _ => rfl
  | int n =>
    cases b with
    | int k => exact (Double.compare_unitsOfInt n k).symm.trans Ordering.then_eq.symm
    | real y =>
      rcases y with ⟨t, k, f⟩ | (_ | _)
      · change (Ord.compare (Double.units t k f) (Double.unitsOfInt n)).swap = _
        rw [← Std.OrientedCmp.eq_swap]
        exact Ordering.then_eq.symm
      · rfl
      · rfl
    | _ => rfl
  | real x =>
    cases b with
    | int k =>
      rcases x with ⟨s, n, e⟩ | (_ | _)
      · exact Ordering.then_eq.symm
      · rfl
      · rfl
    | real y =>
      rcases x with ⟨s, n, e⟩ | (_ | _) <;> rcases y with ⟨t, k, f⟩ | (_ | _) <;>
        first | rfl | exact Ordering.then_eq.symm
    | _ => rcases x with _ | (_ | _) <;> rfl
  | text s =>
    cases b with
    | real y => rcases y with _ | (_ | _) <;> rfl
    | _ => rfl

instance : Std.TransCmp Cell.compare := by
  rw [compare_eq_compareLex]
  infer_instance

/-- Null comes before everything else. -/
theorem isLE_null (c : Cell) : (Cell.null.compare c).isLE = true := by
  cases c <;> rfl

end Cell

namespace OrderTerm

variable (t : OrderTerm)

instance : Std.TransCmp t.compare := by
  unfold compare
  cases t.descending with
  | false => exact inferInstanceAs (Std.TransCmp Cell.compare)
  | true => exact inferInstanceAs (Std.TransCmp fun a b : Cell => b.compare a)

theorem isLE_compare_self (c : Cell) : (t.compare c c).isLE = true := by
  have hsame : t.compare c c = .eq := Std.ReflCmp.compare_self
  rw [hsame]
  rfl

variable {t} in
theorem compare_eq_iff {a b : Cell} : t.compare a b = .eq ↔ a.compare b = .eq := by
  unfold compare
  split
  · exact Std.OrientedCmp.eq_comm
  · exact Iff.rfl

/-! ### Extremes -/

/-- The cell that comes first under a sort key among those of a set that are not null; null where all
of them are. -/
structure Extreme (cells : Set Cell) (c : Cell) : Prop where
  mem : c = .null ∨ c ∈ cells
  first : ∀ d ∈ cells, d ≠ .null → c ≠ .null ∧ (t.compare c d).isLE = true

variable {t}

theorem Extreme.insert {cells : Set Cell} {best : Cell} (h : t.Extreme cells best) (c : Cell) :
    t.Extreme (insert c cells)
      (if best = .null then c else if c = .null then best
        else if t.compare c best == .lt then c else best) := by
  by_cases hbest : best = .null
  · rw [if_pos hbest]
    refine ⟨.inr (Set.mem_insert c cells), ?_⟩
    rintro d (rfl | hd) hne
    · exact ⟨hne, t.isLE_compare_self d⟩
    · exact absurd hbest (h.first d hd hne).1
  have hmem : best ∈ cells := h.mem.resolve_left hbest
  rw [if_neg hbest]
  by_cases hc : c = .null
  · rw [if_pos hc]
    refine ⟨.inr (Set.mem_insert_of_mem c hmem), ?_⟩
    rintro d (rfl | hd) hne
    · exact absurd hc hne
    · exact h.first d hd hne
  rw [if_neg hc]
  by_cases hlt : t.compare c best = .lt
  · rw [if_pos (by simp [hlt])]
    refine ⟨.inr (Set.mem_insert c cells), ?_⟩
    rintro d (rfl | hd) hne
    · exact ⟨hne, t.isLE_compare_self d⟩
    · have hlt' := Std.TransCmp.lt_of_lt_of_isLE hlt (h.first d hd hne).2
      exact ⟨hc, by rw [hlt']; rfl⟩
  · rw [if_neg (by simpa using hlt)]
    refine ⟨.inr (Set.mem_insert_of_mem c hmem), ?_⟩
    rintro d (rfl | hd) hne
    · have hle : ¬ (t.compare d best).isLE = true → (t.compare best d).isLE = true := fun hnot => by
        rw [Std.OrientedCmp.lt_of_not_isLE hnot]
        rfl
      refine ⟨hbest, ?_⟩
      by_cases hle' : (t.compare d best).isLE = true
      · have heq := (Ordering.isLE_iff_eq_lt_or_eq_eq.1 hle').resolve_left hlt
        rw [Std.OrientedCmp.eq_symm heq]
        rfl
      · exact hle hle'
    · exact h.first d hd hne

theorem extreme_foldl {cells : Set Cell} {best : Cell} (h : t.Extreme cells best) (cs : List Cell) :
    t.Extreme (cells ∪ {c | c ∈ cs}) (cs.foldl
      (fun best c => if best = .null then c else if c = .null then best
        else if t.compare c best == .lt then c else best) best) := by
  induction cs generalizing cells best with
  | nil => simpa using h
  | cons c cs ih =>
    have hunion : cells ∪ {d | d ∈ c :: cs} = insert c cells ∪ {d | d ∈ cs} := by
      ext d
      simp only [Set.mem_union, Set.mem_ofPred_eq, List.mem_cons, Set.mem_insert_iff]
      rw [or_left_comm, or_assoc]
    rw [List.foldl_cons, hunion]
    exact ih (h.insert c)

theorem extreme_spec (t : OrderTerm) (cs : List Cell) : t.Extreme {c | c ∈ cs} (t.extreme cs) := by
  have hnone : t.Extreme ∅ .null := ⟨.inl rfl, by simp⟩
  have h := extreme_foldl hnone cs
  rwa [Set.empty_union] at h

/-- Extremes of one set tie. -/
theorem Extreme.tie {cells : Set Cell} {c d : Cell} (hc : t.Extreme cells c) (hd : t.Extreme cells d) :
    t.compare c d = .eq := by
  by_cases hnull : c = .null ∧ d = .null
  · rw [hnull.1, hnull.2]
    exact Std.ReflCmp.compare_self
  · have hc' : c ≠ .null := by
      rintro rfl
      have hd' : d ≠ .null := fun h => hnull ⟨rfl, h⟩
      exact (hc.first d (hd.mem.resolve_left hd') hd').1 rfl
    have hd' : d ≠ .null := (hd.first c (hc.mem.resolve_left hc') hc').1
    exact Std.OrientedCmp.isLE_antisymm (hc.first d (hd.mem.resolve_left hd') hd').2
      (hd.first c (hc.mem.resolve_left hc') hc').2

/-! ### Several sort keys -/

/-- Cells for the sort keys against each other, the first key that tells them apart deciding. -/
def compareBy (terms : List OrderTerm) (f g : OrderTerm → Cell) : Ordering :=
  compareAll terms (terms.map f) (terms.map g)

theorem compareBy_cons (t : OrderTerm) (terms : List OrderTerm) (f g : OrderTerm → Cell) :
    compareBy (t :: terms) f g = (t.compare (f t) (g t)).then (compareBy terms f g) := rfl

theorem compareBy_eq_iff {terms : List OrderTerm} {f g : OrderTerm → Cell} :
    compareBy terms f g = .eq ↔ ∀ t ∈ terms, t.compare (f t) (g t) = .eq := by
  induction terms with
  | nil => simp [compareBy, compareAll]
  | cons t terms ih => rw [compareBy_cons, Ordering.then_eq_eq, ih, List.forall_mem_cons]

/-- What comes first under every sort key comes first under all of them. -/
theorem compareBy_isLE {terms : List OrderTerm} {f g : OrderTerm → Cell}
    (h : ∀ t ∈ terms, (t.compare (f t) (g t)).isLE = true) : (compareBy terms f g).isLE = true := by
  induction terms with
  | nil => rfl
  | cons t terms ih =>
    obtain ⟨hfirst, hrest⟩ := List.forall_mem_cons.1 h
    rw [compareBy_cons, Ordering.isLE_then_iff_and]
    exact ⟨hfirst, .inr (ih hrest)⟩

instance (terms : List OrderTerm) : Std.OrientedCmp (compareBy terms) where
  eq_swap {f g} := by
    induction terms with
    | nil => rfl
    | cons t terms ih =>
      rw [compareBy_cons, compareBy_cons, Ordering.swap_then, ← ih, ← Std.OrientedCmp.eq_swap]

instance (terms : List OrderTerm) : Std.TransCmp (compareBy terms) where
  isLE_trans {f g k} hfg hgk := by
    induction terms with
    | nil => rfl
    | cons t terms ih =>
      rw [compareBy_cons, Ordering.isLE_then_iff_or] at hfg hgk ⊢
      rcases hfg with hfg | ⟨hfg, hfg'⟩
      · left
        refine Std.TransCmp.lt_of_lt_of_isLE hfg ?_
        rcases hgk with hgk | ⟨hgk, -⟩ <;> rw [hgk] <;> rfl
      · rw [Std.TransCmp.congr_left hfg]
        exact hgk.imp_right fun ⟨hgk, hgk'⟩ => ⟨hgk, ih hfg' hgk'⟩

/-- Where a sort key stands does not matter to the order that it gives. -/
theorem compareAll_map {place : OrderTerm → OrderTerm}
    (hplace : ∀ t, (place t).descending = t.descending) (terms : List OrderTerm)
    (f g : OrderTerm → Cell) :
    compareAll (terms.map place) ((terms.map place).map f) ((terms.map place).map g) =
      compareBy terms (f ∘ place) (g ∘ place) := by
  induction terms with
  | nil => rfl
  | cons t terms ih =>
    have hfirst : (place t).compare = t.compare := by
      unfold compare
      rw [hplace]
    rw [compareBy_cons, ← ih, ← hfirst]
    rfl

end OrderTerm

/-- Sorted rows come in the order of their cells. -/
theorem pairwise_sortByTerms {α : Type} (terms : List OrderTerm) (cells : α → OrderTerm → Cell)
    (xs : List α) :
    (sortByTerms terms (fun x => terms.map (cells x)) xs).Pairwise fun x y =>
      (OrderTerm.compareBy terms (cells x) (cells y)).isLE = true := by
  have hle : ∀ x y, (OrderTerm.compareAll terms (terms.map (cells x)) (terms.map (cells y)) != .gt) =
      (OrderTerm.compareBy terms (cells x) (cells y)).isLE := by
    intro x y
    rw [OrderTerm.compareBy]
    cases OrderTerm.compareAll terms (terms.map (cells x)) (terms.map (cells y)) <;> rfl
  unfold sortByTerms
  simp only [hle]
  apply List.pairwise_mergeSort
  · intro x y z hxy hyz
    exact Std.TransCmp.isLE_trans hxy hyz
  intro x y
  rw [Bool.or_eq_true]
  by_cases h : (OrderTerm.compareBy terms (cells x) (cells y)).isLE = true
  · exact .inl h
  · right
    rw [Std.OrientedCmp.lt_of_not_isLE h]
    rfl

end EntityQuery
