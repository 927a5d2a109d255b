import EntityQuery.Layout

/-! The walk through a layout by a stack, which ends because each turn takes one branch off what is left. -/

namespace EntityQuery

namespace Branch

theorem walkAll_eq_flatMap (bs : List Branch) : walkAll bs = bs.flatMap walk := by
  induction bs with
  | nil => rfl
  | cons b rest ih => rw [walkAll, ih, List.flatMap_cons]

theorem walkAll_append (bs cs : List Branch) : walkAll (bs ++ cs) = walkAll bs ++ walkAll cs := by
  simp only [walkAll_eq_flatMap, List.flatMap_append]

theorem length_walkAll_reverse (bs : List Branch) :
    (walkAll bs.reverse).length = (walkAll bs).length := by
  rw [walkAll_eq_flatMap, walkAll_eq_flatMap]
  exact (bs.reverse_perm.flatMap_right walk).length_eq

/-- One turn of a walk: the branch at the end of the stack is taken off, and its children are put there, the
first of them last. -/
def turn? (stack : List Branch) : Option (Branch × List Branch) :=
  stack.getLast?.map fun b => (b, stack.dropLast ++ b.children.reverse)

theorem turn?_concat (stack : List Branch) (b : Branch) :
    turn? (stack ++ [b]) = some (b, stack ++ b.children.reverse) := by
  rw [turn?, List.getLast?_concat, List.dropLast_concat]
  rfl

theorem length_of_turn? {stack rest : List Branch} {b : Branch} (h : turn? stack = some (b, rest)) :
    (walkAll stack).length = (walkAll rest).length + 1 := by
  rcases List.eq_nil_or_concat stack with rfl | ⟨stack, top, rfl⟩
  · cases h
  · rw [List.concat_eq_append] at h ⊢
    rw [turn?_concat] at h
    obtain ⟨rfl, rfl⟩ := Prod.mk.inj (Option.some.inj h)
    have htop : walkAll [top] = top :: walkAll top.children := by
      cases top
      exact List.append_nil _
    rw [walkAll_append, walkAll_append, List.length_append, List.length_append, length_walkAll_reverse,
      htop, List.length_cons]
    omega

/-- The branches that a walk meets until its stack is empty. -/
def drain (stack : List Branch) : List Branch :=
  match _h : turn? stack with
  | none => []
  | some (b, rest) => b :: drain rest
termination_by (walkAll stack).length
decreasing_by
  rw [length_of_turn? _h]
  exact Nat.lt_succ_self _

end Branch

/-- The branches of a layout as a walk meets them that starts with those of the root, the first one on
top. -/
def Layout.traverse (l : Layout) : List Branch := Branch.drain l.branches.reverse

end EntityQuery
