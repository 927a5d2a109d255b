import EntityQuery.Layout.Planning
import EntityQuery.Proofs.Layout.Views

/-! The relations that inclusions visit, in the order in which they are planned, and the levels of the
layout that visits make: one branch for each name, in the order of the first visits, under the last name
that was asked for. -/

namespace EntityQuery

/-- A visit of a relation behind others, with the output name that is asked for. -/
structure Visit where
  before : List String
  name : String
  wish : Option String

/-- The names of the relations from the root to the one that is visited. -/
def Visit.chain (v : Visit) : List String := v.before ++ [v.name]

namespace Inclusion

mutual

/-- The visits of an inclusion behind a chain of relations, each before those below it. -/
def visits (before : List String) : Inclusion → List Visit
  | mk relation wish children =>
    ⟨before, relation, nonEmpty? wish⟩ :: visitsOfAll (before ++ [relation]) children

def visitsOfAll (before : List String) : List Inclusion → List Visit
  | [] => []
  | i :: rest => visits before i ++ visitsOfAll before rest

end

theorem visitsOfAll_eq (before : List String) (is : List Inclusion) :
    visitsOfAll before is = is.flatMap (visits before) := by
  induction is with
  | nil => rfl
  | cons i rest ih => rw [visitsOfAll, ih, List.flatMap_cons]

end Inclusion

/-! ### First occurrences -/

theorem List.eraseDups_concat {α : Type} [BEq α] [LawfulBEq α] (xs : List α) (x : α) :
    (xs ++ [x]).eraseDups = if xs.elem x then xs.eraseDups else xs.eraseDups ++ [x] := by
  rw [List.eraseDups_append, List.removeAll, List.filter_singleton]
  cases xs.elem x <;> simp [List.eraseDups_cons]

theorem List.nodup_eraseDups {α : Type} [BEq α] [LawfulBEq α] (xs : List α) : xs.eraseDups.Nodup := by
  induction xs using List.reverseRecOn with
  | nil => exact .nil
  | append_singleton xs x ih =>
    rw [List.eraseDups_concat]
    split
    · exact ih
    · next hx =>
      have hx' : x ∉ xs.eraseDups := by simpa [List.mem_eraseDups] using hx
      exact List.nodup_append.2 ⟨ih, List.nodup_singleton x, fun y hy z hz =>
        List.mem_singleton.1 hz ▸ ne_of_mem_of_not_mem hy hx'⟩

theorem List.eraseDups_append_self {α : Type} [BEq α] [LawfulBEq α] (xs : List α) :
    (xs ++ xs).eraseDups = xs.eraseDups := by
  have hnone : xs.removeAll xs = [] := List.filter_eq_nil_iff.2 fun x hx => by simpa using hx
  rw [List.eraseDups_append, hnone, List.eraseDups_nil, List.append_nil]

namespace Visit

variable {vs : List Visit} {v : Visit} {segs chain : List String} {name : String}

/-- The names of what is visited behind a chain, in the order of the first visits. -/
def namesBelow (vs : List Visit) (segs : List String) : List String :=
  ((vs.filter (·.before = segs)).map (·.name)).eraseDups

/-- The name that was asked for last at the end of a chain. -/
def lastWish (vs : List Visit) (chain : List String) : Option String :=
  ((vs.filter (·.chain = chain)).filterMap (·.wish)).getLast?

theorem chain_eq_iff : v.chain = segs ++ [name] ↔ v.before = segs ∧ v.name = name := by
  simp [chain]

theorem mem_namesBelow : name ∈ namesBelow vs segs ↔ ∃ v ∈ vs, v.chain = segs ++ [name] := by
  simp [namesBelow, List.mem_eraseDups, chain_eq_iff, and_assoc]

theorem nodup_namesBelow (vs : List Visit) (segs : List String) : (namesBelow vs segs).Nodup :=
  List.nodup_eraseDups _

theorem namesBelow_concat (vs : List Visit) (v : Visit) : namesBelow (vs ++ [v]) v.before =
    if v.name ∈ namesBelow vs v.before then namesBelow vs v.before
    else namesBelow vs v.before ++ [v.name] := by
  rw [namesBelow, List.filter_append, List.map_append]
  simp only [decide_true, List.filter_cons_of_pos, List.filter_nil, List.map_cons, List.map_nil]
  rw [List.eraseDups_concat, ← namesBelow]
  simp only [namesBelow, List.mem_eraseDups, List.elem_eq_mem, decide_eq_true_eq]

theorem namesBelow_concat_of_ne (h : v.before ≠ segs) :
    namesBelow (vs ++ [v]) segs = namesBelow vs segs := by
  simp [namesBelow, h]

theorem lastWish_concat (vs : List Visit) (v : Visit) :
    lastWish (vs ++ [v]) v.chain = v.wish.or (lastWish vs v.chain) := by
  rw [lastWish, List.filter_append, List.filterMap_append, List.getLast?_append]
  simp only [decide_true, List.filter_cons_of_pos, List.filter_nil]
  cases hwish : v.wish <;> simp [hwish, lastWish]

theorem lastWish_concat_of_ne (h : v.chain ≠ chain) : lastWish (vs ++ [v]) chain = lastWish vs chain := by
  simp [lastWish, h]

theorem lastWish_eq_none (h : ¬ ∃ v ∈ vs, v.chain = chain) : lastWish vs chain = none := by
  rw [lastWish, List.filter_eq_nil_iff.2 fun v hv => by simpa using fun heq => h ⟨v, hv, heq⟩]
  rfl

theorem namesBelow_append_self (vs : List Visit) (segs : List String) :
    namesBelow (vs ++ vs) segs = namesBelow vs segs := by
  rw [namesBelow, List.filter_append, List.map_append, List.eraseDups_append_self, namesBelow]

theorem lastWish_append_self (vs : List Visit) (chain : List String) :
    lastWish (vs ++ vs) chain = lastWish vs chain := by
  rw [lastWish, List.filter_append, List.filterMap_append, List.getLast?_append, Option.or_self, lastWish]

/-! ### Levels -/

variable {names names' : String → String}

/-- The branch of a name behind a chain. -/
def branch (names : String → String) (vs : List Visit) (segs : List String) (name : String) : Branch where
  name
  path := Path.ofSegments (segs ++ [name])
  parentPath := Path.ofSegments segs
  aliasName := names (Path.ofSegments (segs ++ [name]))
  outputKey := (lastWish vs (segs ++ [name])).getD name
  columns := []
  children := []

/-- The branches behind a chain, with the aliases of their paths. -/
def level (names : String → String) (vs : List Visit) (segs : List String) : List Branch :=
  (namesBelow vs segs).map (branch names vs segs)

/-- A chain that visits have a level behind: the empty one or one that is visited. -/
def Opens (vs : List Visit) (segs : List String) : Prop := segs = [] ∨ ∃ v ∈ vs, v.chain = segs

instance : Decidable (Opens vs segs) := inferInstanceAs (Decidable (_ ∨ _))

/-- The level behind a chain that visits have one behind. -/
def view (names : String → String) (vs : List Visit) (segs : List String) : Option (List Branch) :=
  if Opens vs segs then some (level names vs segs) else none

/-- Visits that come to every relation through those above it. -/
def Closed (vs : List Visit) : Prop := ∀ v ∈ vs, Opens vs v.before

theorem Opens.mono (h : Opens vs segs) (more : List Visit) : Opens (vs ++ more) segs :=
  h.imp_right fun ⟨v, hv, hchain⟩ => ⟨v, List.mem_append_left _ hv, hchain⟩

theorem opens_concat : Opens (vs ++ [v]) segs ↔ Opens vs segs ∨ v.chain = segs := by
  simp [Opens, or_and_right, exists_or, or_assoc]

theorem level_congr (h : ∀ v ∈ vs, names (Path.ofSegments v.chain) = names' (Path.ofSegments v.chain))
    (segs : List String) : level names vs segs = level names' vs segs := by
  refine List.map_congr_left fun name hname => ?_
  obtain ⟨v, hv, hchain⟩ := mem_namesBelow.1 hname
  rw [branch, branch, ← hchain, h v hv]

theorem map_name_level (names : String → String) (vs : List Visit) (segs : List String) :
    (level names vs segs).map (·.name) = namesBelow vs segs := by
  rw [level, List.map_map]
  exact List.map_id _

theorem nodup_level (names : String → String) (vs : List Visit) (segs : List String) :
    ((level names vs segs).map (·.name)).Nodup := by
  rw [map_name_level]
  exact nodup_namesBelow vs segs

theorem find?_level (names : String → String) (vs : List Visit) (segs : List String) (name : String) :
    Branch.find? (level names vs segs) name =
      if name ∈ namesBelow vs segs then some (branch names vs segs name) else none := by
  split
  · next hname => exact Branch.find?_of_mem (nodup_level names vs segs) (List.mem_map_of_mem hname)
  · next hname => rwa [Branch.find?_eq_none_iff, map_name_level]

theorem branch_concat_of_ne (h : v.chain ≠ segs ++ [name]) :
    branch names (vs ++ [v]) segs name = branch names vs segs name := by
  rw [branch, lastWish_concat_of_ne h, branch]

/-- Placing the branch of a visit makes the level of the visits with it. -/
theorem place_level (names : String → String) (vs : List Visit) (v : Visit) :
    Branch.place (level names vs v.before)
      ⟨v.name, Path.ofSegments v.chain, Path.ofSegments v.before, names (Path.ofSegments v.chain),
        v.wish.getD v.name, [], []⟩ v.wish = level names (vs ++ [v]) v.before := by
  have hothers : ∀ name, name ≠ v.name →
      branch names (vs ++ [v]) v.before name = branch names vs v.before name := fun name hne =>
    branch_concat_of_ne fun heq => hne (chain_eq_iff.1 heq).2.symm
  have hthis : branch names (vs ++ [v]) v.before v.name =
      { branch names vs v.before v.name with
        outputKey := v.wish.getD ((lastWish vs v.chain).getD v.name) } := by
    rw [branch, ← chain, lastWish_concat, Option.getD_or]
    rfl
  have hfind := find?_level names vs v.before v.name
  by_cases hname : v.name ∈ namesBelow vs v.before
  · rw [if_pos hname] at hfind
    rw [Branch.place_of_some hfind, Branch.modify_eq_map (nodup_level names vs v.before), level, level,
      namesBelow_concat, if_pos hname, List.map_map]
    refine List.map_congr_left fun name _ => ?_
    rw [Function.comp_apply]
    by_cases heq : name = v.name
    · subst heq
      exact (if_pos rfl).trans hthis.symm
    · rw [hothers name heq]
      exact if_neg heq
  · rw [if_neg hname] at hfind
    have hnone : lastWish vs v.chain = none := lastWish_eq_none (mt mem_namesBelow.2 hname)
    rw [Branch.place_of_none hfind, level, level, namesBelow_concat, if_neg hname, List.map_append,
      List.map_singleton, hthis, hnone]
    refine congrArg (· ++ _) (List.map_congr_left fun name hmem => (hothers name ?_).symm)
    rintro rfl
    exact hname hmem

theorem level_concat_of_ne (h : v.before ≠ segs) :
    level names (vs ++ [v]) segs = level names vs segs := by
  rw [level, namesBelow_concat_of_ne h, level]
  exact List.map_congr_left fun name _ => branch_concat_of_ne fun heq => h (chain_eq_iff.1 heq).1

theorem Closed.concat (hvs : Closed vs) (hv : Opens vs v.before) : Closed (vs ++ [v]) := by
  intro u hu
  rcases List.mem_append.1 hu with hu | hu
  · exact (hvs u hu).mono [v]
  · exact (List.mem_singleton.1 hu ▸ hv).mono [v]

theorem Closed.level_eq_nil (hvs : Closed vs) (h : ¬ Opens vs segs) : level names vs segs = [] := by
  rw [level, List.map_eq_nil_iff, List.eq_nil_iff_forall_not_mem]
  intro name hname
  obtain ⟨v, hv, hchain⟩ := mem_namesBelow.1 hname
  exact h ((chain_eq_iff.1 hchain).1 ▸ hvs v hv)

theorem view_congr (h : ∀ v ∈ vs, names (Path.ofSegments v.chain) = names' (Path.ofSegments v.chain))
    (segs : List String) : view names vs segs = view names' vs segs := by
  rw [view, view, level_congr h]

/-- One visit more changes the level that it is made on and opens one below it. -/
theorem view_concat (names : String → String) (hvs : Closed vs) (hv : Opens vs v.before)
    (segs : List String) : view names (vs ++ [v]) segs =
      if segs = v.before then (view names vs segs).map fun bs => Branch.place bs
        ⟨v.name, Path.ofSegments v.chain, Path.ofSegments v.before, names (Path.ofSegments v.chain),
          v.wish.getD v.name, [], []⟩ v.wish
      else if segs = v.chain then some ((view names vs segs).getD [])
      else view names vs segs := by
  simp only [view, opens_concat]
  by_cases hthere : segs = v.before
  · subst hthere
    rw [if_pos rfl, if_pos hv, if_pos (.inl hv), Option.map_some, place_level]
  · rw [if_neg hthere, level_concat_of_ne (Ne.symm hthere)]
    by_cases hnew : segs = v.chain
    · subst hnew
      rw [if_pos rfl, if_pos (.inr rfl)]
      by_cases hopens : Opens vs v.chain
      · rw [if_pos hopens]
        rfl
      · rw [if_neg hopens, hvs.level_eq_nil hopens]
        rfl
    · rw [if_neg hnew]
      simp only [Ne.symm hnew, or_false]

/-- Visits made twice show what they show once. -/
theorem view_append_self (names : String → String) (vs : List Visit) (segs : List String) :
    view names (vs ++ vs) segs = view names vs segs := by
  have hlevel : level names (vs ++ vs) segs = level names vs segs := by
    rw [level, namesBelow_append_self, level]
    exact List.map_congr_left fun name _ => by rw [branch, lastWish_append_self, branch]
  have hopens : Opens (vs ++ vs) segs ↔ Opens vs segs := by simp [Opens]
  simp only [view, hlevel, hopens]

end Visit

end EntityQuery
