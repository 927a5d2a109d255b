import EntityQuery.Join.Tree
import EntityQuery.Proofs.Assoc
import EntityQuery.Proofs.Step

/-! What reaching a relation path does to a tree of joins: it attaches one join for each segment that
is missing, and may mark joins as selected. A tree stays aligned, which is to say that its aliases and
its joins name the same paths, each once, in the same order. -/

namespace EntityQuery

variable {ι : Type}

/-- A join after another one with the same alias has been made. -/
def Join.marked (aliasName : String) (selected : Bool) (j : Join ι) : Join ι :=
  if j.aliasName = aliasName then { j with selected := j.selected || selected } else j

namespace Join

variable (aliasName : String) (selected : Bool) (j : Join ι)

@[simp] theorem marked_path : (j.marked aliasName selected).path = j.path := by
  unfold marked; split <;> rfl

@[simp] theorem marked_aliasName : (j.marked aliasName selected).aliasName = j.aliasName := by
  unfold marked; split <;> rfl

@[simp] theorem marked_parent : (j.marked aliasName selected).parent = j.parent := by
  unfold marked; split <;> rfl

@[simp] theorem marked_relation : (j.marked aliasName selected).relation = j.relation := by
  unfold marked; split <;> rfl

theorem marked_selected : (j.marked aliasName selected).selected =
    (j.selected || (selected && decide (j.aliasName = aliasName))) := by
  unfold marked; split <;> simp_all

theorem marked_of_ne {aliasName : String} {j : Join ι} (h : j.aliasName ≠ aliasName) :
    j.marked aliasName selected = j :=
  if_neg h

/-- A join that is marked where its path is one of some paths. -/
def selectedAt (paths : List String) (j : Join ι) : Join ι :=
  { j with selected := j.selected || decide (j.path ∈ paths) }

@[simp] theorem selectedAt_nil : (selectedAt [] : Join ι → Join ι) = id := by
  funext k
  simp [selectedAt]

@[simp] theorem marked_false : j.marked aliasName false = j := by
  unfold marked; split <;> simp

end Join

namespace Joins

/-- The alias under which a path is joined. -/
def aliasAt (joins : Joins ι) (path : String) : Option String :=
  (joins.find? (·.path = path)).map (·.aliasName)

theorem add_cons (k : Join ι) (joins : Joins ι) (j : Join ι) :
    (add (k :: joins) j).2 =
      if k.aliasName = j.aliasName then { k with selected := k.selected || j.selected } :: joins
      else k :: (joins.add j).2 := by
  rw [add]
  split <;> rfl

theorem add_of_not_mem {joins : Joins ι} {j : Join ι} (h : j.aliasName ∉ joins.map (·.aliasName)) :
    (joins.add j).2 = joins ++ [j] := by
  induction joins with
  | nil => rfl
  | cons k rest ih =>
    simp only [List.map_cons, List.mem_cons, not_or] at h
    rw [add_cons, if_neg (Ne.symm h.1), ih h.2, List.cons_append]

/-- A join whose alias is there already only marks the join in force. -/
theorem add_of_mem {joins : Joins ι} {j : Join ι} (hn : (joins.map (·.aliasName)).Nodup)
    (h : j.aliasName ∈ joins.map (·.aliasName)) :
    (joins.add j).2 = joins.map (Join.marked j.aliasName j.selected) := by
  induction joins with
  | nil => simp at h
  | cons k rest ih =>
    obtain ⟨hk, hn⟩ := List.nodup_cons.1 hn
    rw [add_cons, List.map_cons]
    by_cases hj : k.aliasName = j.aliasName
    · rw [if_pos hj, Join.marked, if_pos hj]
      have hrest : ∀ i ∈ rest, i.aliasName ≠ j.aliasName :=
        fun i hi hij => hk (List.mem_map.2 ⟨i, hi, hij.trans hj.symm⟩)
      rw [List.map_congr_left (fun i hi => Join.marked_of_ne j.selected (hrest i hi)), List.map_id']
    · rw [if_neg hj, Join.marked_of_ne _ hj]
      have hmem : j.aliasName ∈ rest.map (·.aliasName) := by
        rcases List.mem_cons.1 h with h | h
        · exact absurd h.symm hj
        · exact h
      rw [ih hn hmem]

end Joins

namespace Aliases

/-- A path that has an alias keeps it; a path that has none gets the wished one, unless that names
another path. -/
theorem register_eq_ok {a a' : Aliases} {wish path bound : String} :
    a.register wish path = .ok (bound, a') ↔
      (a.get? path = some bound ∧ a' = a) ∨
      (a.get? path = none ∧ bound = wish ∧ a' = { a with entries := a.entries ++ [(path, wish)] } ∧
        ∀ other, a.boundPath? wish = some other → other = path) := by
  unfold register
  cases hp : a.get? path with
  | some existing =>
    simp only [pure, Except.pure, Except.ok.injEq, Prod.mk.injEq, Option.some.injEq, reduceCtorEq,
      false_and, or_false]
    exact and_congr_right fun _ => eq_comm
  | none =>
    simp only [reduceCtorEq, false_and, true_and, false_or]
    cases hb : a.boundPath? wish with
    | none =>
      simp only [pure, Except.pure, Except.ok.injEq, Prod.mk.injEq, reduceCtorEq, false_implies,
        implies_true, and_true]
      exact and_congr eq_comm eq_comm
    | some other =>
      simp only [Option.some.injEq, forall_eq']
      split
      · next h =>
        simp only [pure, Except.pure, Except.ok.injEq, Prod.mk.injEq, h, and_true]
        exact and_congr eq_comm eq_comm
      · next h => simp [throw, throwThe, MonadExceptOf.throw, h]

/-- An alias is refused only where it names another path. -/
theorem register_eq_error {a : Aliases} {wish path : String} {cause : QueryError}
    (h : a.register wish path = .error cause) :
    ∃ other, a.boundPath? wish = some other ∧ other ≠ path ∧
      cause = .aliasConflict wish (if other.isEmpty then "<root>" else other) path := by
  unfold register at h
  split at h
  · cases h
  · split at h
    · next other hother =>
      split at h
      · cases h
      · next hne => exact ⟨other, hother, hne, (Except.error.inj h).symm⟩
    · cases h

theorem get?_of_aliasFor {a : Aliases} {path aliasName : String} (hempty : path.isEmpty = false)
    (h : a.aliasFor path = .ok aliasName) : a.get? path = some aliasName := by
  rw [aliasFor, hempty, if_neg (by simp)] at h
  split at h
  · next hget => rw [hget, Except.ok.inj h]
  · cases h

theorem eq_root_or_of_aliasFor {a : Aliases} {path aliasName : String}
    (h : a.aliasFor path = .ok aliasName) : aliasName = a.root ∨ a.get? path = some aliasName := by
  cases hempty : path.isEmpty with
  | true =>
    rw [aliasFor, hempty, if_pos rfl] at h
    exact .inl (Except.ok.inj h).symm
  | false => exact .inr (get?_of_aliasFor hempty h)

theorem aliasFor_of_get? {a : Aliases} {path aliasName : String} (hne : path ≠ "")
    (h : a.get? path = some aliasName) : a.aliasFor path = .ok aliasName := by
  rw [aliasFor, if_neg (by simpa using hne), h]
  rfl

/-- A new alias is no alias of another path, provided that the root's own alias names at most the
empty path. -/
theorem not_mem_of_boundPath? {a : Aliases} {wish path : String}
    (hroot : ∀ p ∈ a.entries, p.2 = a.root → p.1 = "") (hpath : a.get? path = none)
    (hb : ∀ other, a.boundPath? wish = some other → other = path) :
    wish ∉ a.entries.map (·.2) := by
  have hne : ∀ p ∈ a.entries, p.1 ≠ path := fun p hp h =>
    Assoc.get?_eq_none_iff.1 hpath (List.mem_map.2 ⟨p, hp, h⟩)
  rw [List.mem_map]
  rintro ⟨p, hp, rfl⟩
  unfold boundPath? at hb
  split at hb
  · next h => exact hne p hp ((hroot p hp h).trans (hb "" rfl))
  · obtain ⟨q, hq⟩ := Option.isSome_iff_exists.1
      (List.find?_isSome (p := fun r => decide (r.2 = p.2)).2 ⟨p, hp, by simp⟩)
    exact hne q (List.mem_of_find?_eq_some hq) (hb q.1 (by rw [hq]; rfl))

end Aliases

namespace JoinTree

/-- A tree with one join more, or with the join in force marked. -/
def attached (t : JoinTree ι) (aliases : Aliases) (j : Join ι) : JoinTree ι :=
  { t with
    aliases
    joins := (t.joins.add j).2
    reached := Assoc.set t.reached j.path j.relation.target }

/-- The alias that a request wishes for the segment before `rest`. -/
def wishFor (t : JoinTree ι) (request : JoinRequest) (path : String) (rest : List String) : String :=
  (if rest.isEmpty then nonEmpty? request.aliasName else none).getD (t.aliases.synthesize path)

/-- One segment of a path: its relation is looked up, its alias bound, its join attached. -/
theorem exec_extend_cons (g : EntityGraph ι) (request : JoinRequest) (before : List String) (e : ι)
    (parent s : String) (rest : List String) (t : JoinTree ι) :
    (extend g request before e parent (s :: rest)).exec t =
      match (g.entity e).relation? s with
      | none => (.error ((g.entity e).noRelation s request.path), t)
      | some relation =>
        match t.aliases.register (t.wishFor request (Path.ofSegments (before ++ [s])) rest)
            (Path.ofSegments (before ++ [s])) with
        | .error cause => (.error cause, t)
        | .ok (aliasName, aliases) =>
          (extend g request (before ++ [s]) relation.target aliasName rest).exec
            (t.attached aliases ⟨parent, relation, aliasName, Path.ofSegments (before ++ [s]),
              request.select⟩) := by
  rw [extend]
  cases (g.entity e).relation? s with
  | none => rfl
  | some relation =>
    simp only [Step.exec_bind, Step.exec_get, register, Step.exec_ofRun]
    rw [show (if rest.isEmpty = true then nonEmpty? request.aliasName else none).getD
      (t.aliases.synthesize (Path.ofSegments (before ++ [s]))) =
        t.wishFor request (Path.ofSegments (before ++ [s])) rest from rfl]
    rcases t.aliases.register _ _ with _ | ⟨aliasName, aliases⟩ <;> rfl

/-- A walk that succeeds has joined its first segment. -/
theorem extend_cons_eq_ok {g : EntityGraph ι} {request : JoinRequest} {before : List String} {e : ι}
    {parent s : String} {rest : List String} {t t' : JoinTree ι}
    (h : (extend g request before e parent (s :: rest)).exec t = (.ok (), t')) :
    ∃ relation aliasName aliases, (g.entity e).relation? s = some relation ∧
      t.aliases.register (t.wishFor request (Path.ofSegments (before ++ [s])) rest)
        (Path.ofSegments (before ++ [s])) = .ok (aliasName, aliases) ∧
      (extend g request (before ++ [s]) relation.target aliasName rest).exec
        (t.attached aliases ⟨parent, relation, aliasName, Path.ofSegments (before ++ [s]),
          request.select⟩) = (.ok (), t') := by
  rw [exec_extend_cons] at h
  split at h
  · cases h
  · next relation hrelation =>
    split at h
    · cases h
    · next aliasName aliases hregister => exact ⟨relation, aliasName, aliases, hrelation, hregister, h⟩

/-- The longest part of a path that has an alias. -/
def lead (t : JoinTree ι) (path : String) : List String :=
  (Path.segments path).take (t.joinedLength (Path.segments path) (Path.segments path).length)

/-- What follows the longest part that has an alias. -/
def missing (t : JoinTree ι) (path : String) : List String :=
  (Path.segments path).drop (t.joinedLength (Path.segments path) (Path.segments path).length)

/-- The entity and the alias that a reach walks from: those of the longest part of the path that has
an alias, or of the root. -/
structure Starts (t : JoinTree ι) (request : JoinRequest) (e : ι) (parent : String) : Prop where
  reached : Assoc.get? t.reached (Path.ofSegments (t.lead request.path)) = some e
  root : (Path.ofSegments (t.lead request.path)).isEmpty = true →
    parent = (nonEmpty? request.start).getD t.aliases.root
  joined : (Path.ofSegments (t.lead request.path)).isEmpty = false →
    t.aliases.aliasFor (Path.ofSegments (t.lead request.path)) = .ok parent

/-- The tree after a path is marked as selected where its request asks for that. -/
def selectFor (t : JoinTree ι) (request : JoinRequest) : JoinTree ι :=
  if request.select then t.selectAlong (Path.segments request.path) else t

/-- What a reach does after its walk: it marks the whole path where that is asked for, and gives the
alias that the path then has. -/
def finish (request : JoinRequest) :
    Except QueryError Unit × JoinTree ι → Except QueryError String × JoinTree ι
  | (.error cause, t) => (.error cause, t)
  | (.ok (), t) =>
    (((t.selectFor request).aliases.get? request.path).elim (.error (.unboundPath request.path)) .ok,
      t.selectFor request)

theorem exec_finish (request : JoinRequest) (t : JoinTree ι) :
    Step.exec (do
      if request.select then modify (·.selectAlong (Path.segments request.path))
      match (← get).aliases.get? request.path with
      | some aliasName => return aliasName
      | none => throw (.unboundPath request.path)) t = finish request (.ok (), t) := by
  cases hselect : request.select with
  | true =>
    simp only [if_true, Step.exec_bind, Step.exec_modify, Step.exec_get, finish, selectFor, hselect]
    cases (t.selectAlong (Path.segments request.path)).aliases.get? request.path <;> rfl
  | false =>
    simp only [Bool.false_eq_true, if_false, Step.exec_bind, Step.exec_get, finish, selectFor, hselect]
    cases t.aliases.get? request.path <;> rfl

/-- A reach attaches the segments that follow the longest part of the path that has an alias. -/
theorem Starts.exec_reach {g : EntityGraph ι} {request : JoinRequest} {t : JoinTree ι} {e : ι}
    {parent : String} (h : t.Starts request e parent) :
    (reach g request).exec t = finish request
      ((extend g request (t.lead request.path) e parent (t.missing request.path)).exec t) := by
  simp only [reach, Step.exec_bind, Step.exec_get]
  rw [← lead, ← missing, h.reached]
  cases hempty : (Path.ofSegments (t.lead request.path)).isEmpty with
  | true =>
    obtain rfl := h.root hempty
    simp only [if_true, pure_bind, Step.exec_bind]
    rcases (extend g request _ e _ _).exec t with ⟨_ | _, u⟩
    · rfl
    · exact exec_finish request u
  | false =>
    simp only [Bool.false_eq_true, if_false, h.joined hempty, Step.exec_bind, Step.exec_ofExcept]
    rcases (extend g request _ e _ _).exec t with ⟨_ | _, u⟩
    · rfl
    · exact exec_finish request u

/-- A reach that has nowhere to walk from leaves the tree as it is. -/
theorem exists_starts_or_unbound (g : EntityGraph ι) (request : JoinRequest) (t : JoinTree ι) :
    (∃ e parent, t.Starts request e parent) ∨
      ∃ path, (reach g request).exec t = (.error (.unboundPath path), t) := by
  cases he : Assoc.get? t.reached (Path.ofSegments (t.lead request.path)) with
  | none =>
    refine .inr ⟨Path.ofSegments (t.lead request.path), ?_⟩
    simp only [reach, Step.exec_bind, Step.exec_get]
    rw [← lead, ← missing, he]
    rfl
  | some e =>
    cases hempty : (Path.ofSegments (t.lead request.path)).isEmpty with
    | true => exact .inl ⟨e, _, he, fun _ => rfl, by simp [hempty]⟩
    | false =>
      cases hparent : t.aliases.get? (Path.ofSegments (t.lead request.path)) with
      | some parent =>
        refine .inl ⟨e, parent, he, by simp [hempty], fun _ => ?_⟩
        rw [Aliases.aliasFor, hempty, if_neg (by simp), hparent]
        rfl
      | none =>
        refine .inr ⟨Path.ofSegments (t.lead request.path), ?_⟩
        simp only [reach, Step.exec_bind, Step.exec_get]
        rw [← lead, ← missing, he]
        simp [Step.exec_bind, Step.exec_ofExcept, hempty, Aliases.aliasFor, hparent, throw,
          throwThe, MonadExceptOf.throw]

theorem finish_eq_ok {request : JoinRequest} {walked : Except QueryError Unit} {t t' : JoinTree ι}
    {bound : String} (h : finish request (walked, t) = (.ok bound, t')) :
    walked = .ok () ∧ t' = t.selectFor request ∧ t'.aliases.get? request.path = some bound := by
  cases walked with
  | error cause => cases h
  | ok _ =>
    obtain ⟨hbound, rfl⟩ := Prod.mk.inj h
    refine ⟨rfl, rfl, ?_⟩
    generalize (t.selectFor request).aliases.get? request.path = found at hbound ⊢
    cases found with
    | none => cases hbound
    | some aliasName => exact congrArg some (Except.ok.inj hbound)

/-- A successful reach attaches the segments that follow the longest joined part of the path, then
marks the whole path where that is asked for. -/
theorem reach_eq_ok {g : EntityGraph ι} {request : JoinRequest} {t t' : JoinTree ι} {bound : String}
    (h : (reach g request).exec t = (.ok bound, t')) :
    ∃ e parent t₁, t.Starts request e parent ∧
      (extend g request (t.lead request.path) e parent (t.missing request.path)).exec t =
        (.ok (), t₁) ∧
      t' = t₁.selectFor request ∧ t'.aliases.get? request.path = some bound := by
  rcases exists_starts_or_unbound g request t with ⟨e, parent, hstarts⟩ | ⟨path, hunbound⟩
  · rw [hstarts.exec_reach] at h
    obtain ⟨hwalked, hmarked, hbound⟩ := finish_eq_ok h
    exact ⟨e, parent, _, hstarts, Prod.ext hwalked rfl, hmarked, hbound⟩
  · cases hunbound.symm.trans h

theorem nonEmpty?_ne_empty {wish : Option String} {s : String} (h : nonEmpty? wish = some s) :
    s ≠ "" := by
  unfold nonEmpty? at h
  split at h
  · split at h
    · cases h
    · next hs =>
      cases h
      simpa using hs
  · cases h

theorem synthesize_ne_empty (a : Aliases) (path : String) : a.synthesize path ≠ "" := by
  intro h
  have := congrArg String.length h
  simp [Aliases.synthesize, String.length_append] at this

theorem wishFor_ne_empty (t : JoinTree ι) (request : JoinRequest) (path : String)
    (rest : List String) : t.wishFor request path rest ≠ "" := by
  unfold wishFor
  split
  · cases hwish : nonEmpty? request.aliasName with
    | none => exact synthesize_ne_empty _ _
    | some s => exact nonEmpty?_ne_empty hwish
  · exact synthesize_ne_empty _ _

/-- The aliases and the joins of a tree name the same paths in the same order, each path and each
alias once; no alias is empty, and the root's own alias names at most the empty path. -/
structure Aligned (t : JoinTree ι) : Prop where
  entries : t.aliases.entries = t.joins.map fun j => (j.path, j.aliasName)
  paths : (t.joins.map (·.path)).Nodup
  names : (t.joins.map (·.aliasName)).Nodup
  nonempty : ∀ j ∈ t.joins, j.aliasName ≠ ""
  rootAlias : ∀ j ∈ t.joins, j.aliasName = t.aliases.root → j.path = ""

theorem aligned_start (root : ι) (aliasName : String) : (start root aliasName).Aligned where
  entries := rfl
  paths := .nil
  names := .nil
  nonempty := by simp [start]
  rootAlias := by simp [start]

namespace Aligned

variable {t : JoinTree ι}

theorem keys_entries (ht : t.Aligned) : Assoc.keys t.aliases.entries = t.joins.map (·.path) := by
  simp [Assoc.keys, ht.entries]

theorem get?_of_mem (ht : t.Aligned) {j : Join ι} (hj : j ∈ t.joins) :
    t.aliases.get? j.path = some j.aliasName := by
  apply Assoc.get?_of_mem
  · rw [ht.keys_entries]; exact ht.paths
  · rw [ht.entries]; exact List.mem_map.2 ⟨j, hj, rfl⟩

theorem exists_of_get? (ht : t.Aligned) {path aliasName : String}
    (h : t.aliases.get? path = some aliasName) :
    ∃ j ∈ t.joins, j.path = path ∧ j.aliasName = aliasName := by
  have hm := Assoc.mem_of_get? h
  rw [ht.entries] at hm
  obtain ⟨j, hj, hp⟩ := List.mem_map.1 hm
  exact ⟨j, hj, congrArg Prod.fst hp, congrArg Prod.snd hp⟩

theorem isSome_get?_iff (ht : t.Aligned) (path : String) :
    (t.aliases.get? path).isSome = true ↔ path ∈ t.joins.map (·.path) := by
  rw [Aliases.get?, ← Assoc.contains_eq_isSome, Assoc.contains_iff, ht.keys_entries]

/-- Attaching a join either adds it at the end, under an alias and a path that are new, or marks the
join in force at its path. -/
theorem attached_cases (ht : t.Aligned) {wish : String} {aliases : Aliases} {j : Join ι}
    (h : t.aliases.register wish j.path = .ok (j.aliasName, aliases)) :
    (j.path ∉ t.joins.map (·.path) ∧ j.aliasName ∉ t.joins.map (·.aliasName) ∧
      (j.aliasName = t.aliases.root → j.path = "") ∧ j.aliasName = wish ∧
      aliases = { t.aliases with entries := t.aliases.entries ++ [(j.path, j.aliasName)] } ∧
      (t.joins.add j).2 = t.joins ++ [j]) ∨
    (t.aliases.get? j.path = some j.aliasName ∧ aliases = t.aliases ∧
      (t.joins.add j).2 = t.joins.map (Join.marked j.aliasName j.selected)) := by
  rcases Aliases.register_eq_ok.1 h with ⟨hold, rfl⟩ | ⟨hnew, hwish, rfl, hb⟩
  · obtain ⟨k, hk, _, hname⟩ := ht.exists_of_get? hold
    refine .inr ⟨hold, rfl, Joins.add_of_mem ht.names ?_⟩
    exact List.mem_map.2 ⟨k, hk, hname⟩
  · have hroot : ∀ p ∈ t.aliases.entries, p.2 = t.aliases.root → p.1 = "" := by
      rw [ht.entries]
      simpa using ht.rootAlias
    have hname : j.aliasName ∉ t.joins.map (·.aliasName) := by
      have := Aliases.not_mem_of_boundPath? hroot hnew hb
      rw [ht.entries, List.map_map] at this
      exact hwish ▸ this
    refine .inl ⟨?_, hname, ?_, hwish, by rw [hwish], Joins.add_of_not_mem hname⟩
    · rw [← ht.keys_entries]
      exact Assoc.get?_eq_none_iff.1 hnew
    · intro hr
      exact (hb "" (by rw [Aliases.boundPath?, if_pos (hwish ▸ hr)])).symm

theorem attached (ht : t.Aligned) {wish : String} {aliases : Aliases} {j : Join ι}
    (hwish : wish ≠ "") (h : t.aliases.register wish j.path = .ok (j.aliasName, aliases)) :
    (t.attached aliases j).Aligned := by
  rcases ht.attached_cases h with ⟨hpath, hname, hroot, heq, rfl, hjoins⟩ | ⟨_, rfl, hjoins⟩
  · constructor <;> simp only [JoinTree.attached, hjoins]
    · simp [ht.entries]
    · simpa [List.nodup_append, ht.paths] using hpath
    · simpa [List.nodup_append, ht.names] using hname
    · intro k hk
      rcases List.mem_append.1 hk with hk | hk
      · exact ht.nonempty k hk
      · exact List.mem_singleton.1 hk ▸ heq ▸ hwish
    · intro k hk
      rcases List.mem_append.1 hk with hk | hk
      · exact ht.rootAlias k hk
      · exact List.mem_singleton.1 hk ▸ hroot
  · constructor <;> simp only [JoinTree.attached, hjoins, List.map_map, Function.comp_def,
      Join.marked_path, Join.marked_aliasName]
    · exact ht.entries
    · exact ht.paths
    · exact ht.names
    · simpa using ht.nonempty
    · simpa using ht.rootAlias

end Aligned

/-- How a walk with segments left to walk comes to its end: none is left, or the next one names no
relation, or no alias could be bound for it. -/
inductive Stops (g : EntityGraph ι) (request : JoinRequest) (t : JoinTree ι) (before : List String)
    (e : ι) : List String → Except QueryError Unit → Prop
  | arrived : Stops g request t before e [] (.ok ())
  | noRelation {s : String} {rest : List String} (hrelation : (g.entity e).relation? s = none) :
      Stops g request t before e (s :: rest)
        (.error ((g.entity e).noRelation s request.path))
  | refused {s : String} {rest : List String} {relation : Relation ι} {cause : QueryError}
      (hrelation : (g.entity e).relation? s = some relation)
      (hregister : t.aliases.register (t.wishFor request (Path.ofSegments (before ++ [s])) rest)
        (Path.ofSegments (before ++ [s])) = .error cause) :
      Stops g request t before e (s :: rest) (.error cause)

/-- What each attached segment keeps, a walk along several keeps, also one that fails on the way: then
it holds of the segments done so far. -/
theorem extend_induct {g : EntityGraph ι} {request : JoinRequest}
    {P : JoinTree ι → List String → ι → String → List String → Prop}
    (hstep : ∀ t before e parent s rest relation aliasName aliases, P t before e parent (s :: rest) →
      (g.entity e).relation? s = some relation →
      t.aliases.register (t.wishFor request (Path.ofSegments (before ++ [s])) rest)
        (Path.ofSegments (before ++ [s])) = .ok (aliasName, aliases) →
      P (t.attached aliases ⟨parent, relation, aliasName, Path.ofSegments (before ++ [s]),
        request.select⟩) (before ++ [s]) relation.target aliasName rest)
    {rest before : List String} {e : ι} {parent : String} {t t' : JoinTree ι}
    {r : Except QueryError Unit} (h₀ : P t before e parent rest)
    (h : (extend g request before e parent rest).exec t = (r, t')) :
    ∃ done todo e' parent', rest = done ++ todo ∧ P t' (before ++ done) e' parent' todo ∧
      Stops g request t' (before ++ done) e' todo r := by
  induction rest generalizing before e parent t with
  | nil =>
    obtain ⟨rfl, rfl⟩ := Prod.mk.inj h
    refine ⟨[], [], e, parent, rfl, ?_, .arrived⟩
    rw [List.append_nil]
    exact h₀
  | cons s rest ih =>
    rw [exec_extend_cons] at h
    split at h
    · next hrel =>
      obtain ⟨rfl, rfl⟩ := Prod.mk.inj h
      refine ⟨[], s :: rest, e, parent, rfl, ?_, .noRelation hrel⟩
      rw [List.append_nil]
      exact h₀
    · next relation hrel =>
      split at h
      · next cause hreg =>
        obtain ⟨rfl, rfl⟩ := Prod.mk.inj h
        rw [← List.append_nil before] at h₀ hreg
        exact ⟨[], s :: rest, e, parent, rfl, h₀, .refused hrel hreg⟩
      · next aliasName aliases hreg =>
        obtain ⟨done, todo, e', parent', rfl, hP, hstop⟩ :=
          ih (hstep _ _ _ _ _ rest _ _ _ h₀ hrel hreg) h
        rw [List.append_assoc, List.singleton_append] at hP hstop
        exact ⟨s :: done, todo, e', parent', rfl, hP, hstop⟩

/-- A walk that succeeds leaves nothing to walk. -/
theorem Stops.eq_nil {g : EntityGraph ι} {request : JoinRequest} {t : JoinTree ι}
    {before todo : List String} {e : ι} (h : Stops g request t before e todo (.ok ())) :
    todo = [] := by
  cases h
  rfl

/-- A tree that has grown: no path has lost its alias. -/
structure Extends (t t' : JoinTree ι) : Prop where
  root : t'.root = t.root
  rootAlias : t'.aliases.root = t.aliases.root
  entries : t.aliases.entries <+: t'.aliases.entries

namespace Extends

variable {t t' t'' : JoinTree ι}

theorem refl (t : JoinTree ι) : t.Extends t := ⟨rfl, rfl, List.prefix_refl _⟩

theorem trans (h : t.Extends t') (h' : t'.Extends t'') : t.Extends t'' :=
  ⟨h'.root.trans h.root, h'.rootAlias.trans h.rootAlias, h.entries.trans h'.entries⟩

theorem get? (h : t.Extends t') {path aliasName : String}
    (hp : t.aliases.get? path = some aliasName) : t'.aliases.get? path = some aliasName := by
  obtain ⟨new, hnew⟩ := h.entries
  rw [Aliases.get?, ← hnew]
  exact Assoc.get?_append_of_some hp new

theorem aliasFor (h : t.Extends t') {path aliasName : String}
    (hp : t.aliases.aliasFor path = .ok aliasName) : t'.aliases.aliasFor path = .ok aliasName := by
  by_cases hempty : path = ""
  · subst hempty
    exact (congrArg Except.ok h.rootAlias).trans hp
  · have hget := Aliases.get?_of_aliasFor (by simpa using hempty) hp
    exact Aliases.aliasFor_of_get? hempty (h.get? hget)

end Extends

theorem Aligned.extends_attached {t : JoinTree ι} (ht : t.Aligned) {wish : String}
    {aliases : Aliases} {j : Join ι}
    (h : t.aliases.register wish j.path = .ok (j.aliasName, aliases)) :
    t.Extends (t.attached aliases j) := by
  rcases ht.attached_cases h with ⟨_, _, _, _, rfl, _⟩ | ⟨_, rfl, _⟩
  · exact ⟨rfl, rfl, List.prefix_append _ _⟩
  · exact ⟨rfl, rfl, List.prefix_refl _⟩

/-! ### Marking a path -/

/-- The tree after the join at one path is marked as selected. -/
def selectAt (t : JoinTree ι) (path : String) : JoinTree ι :=
  match t.aliases.get? path with
  | none => t
  | some aliasName =>
    match t.joins.get? aliasName with
    | none => t
    | some join => { t with joins := (t.joins.add { join with selected := true }).2 }

theorem selectAlong_eq (t : JoinTree ι) (segments : List String) :
    t.selectAlong segments =
      ((List.range segments.length).map fun n => Path.ofSegments (segments.take (n + 1))).foldl
        selectAt t := by
  rw [List.foldl_map]
  rfl

namespace Aligned

variable {t : JoinTree ι}

/-- Changes of joins that leave paths and aliases alone keep a tree aligned. -/
theorem map_joins (ht : t.Aligned) {f : Join ι → Join ι} (hpath : ∀ j, (f j).path = j.path)
    (hname : ∀ j, (f j).aliasName = j.aliasName) :
    ({ t with joins := t.joins.map f } : JoinTree ι).Aligned where
  entries := by simpa [hpath, hname, Function.comp_def] using ht.entries
  paths := by simpa [hpath, Function.comp_def] using ht.paths
  names := by simpa [hname, Function.comp_def] using ht.names
  nonempty := by simpa [hname] using ht.nonempty
  rootAlias := by simpa [hpath, hname] using ht.rootAlias

theorem get?_aliasName (ht : t.Aligned) {j : Join ι} (hj : j ∈ t.joins) :
    t.joins.get? j.aliasName = some j :=
  find?_of_nodup ht.names hj

theorem path_eq_iff (ht : t.Aligned) {j k : Join ι} (hj : j ∈ t.joins) (hk : k ∈ t.joins) :
    j.aliasName = k.aliasName ↔ j.path = k.path := by
  constructor
  · intro h
    have hj' := ht.get?_aliasName hj
    rw [h, ht.get?_aliasName hk] at hj'
    rw [Option.some.inj hj']
  · intro h
    have hj' := ht.get?_of_mem hj
    rw [h, ht.get?_of_mem hk] at hj'
    exact (Option.some.inj hj').symm

theorem selectAt_eq (ht : t.Aligned) (path : String) :
    t.selectAt path = { t with joins := t.joins.map (Join.selectedAt [path]) } := by
  unfold selectAt
  cases hp : t.aliases.get? path with
  | none =>
    have hmap : t.joins.map (Join.selectedAt [path]) = t.joins := by
      refine (List.map_congr_left fun j hj => ?_).trans (List.map_id _)
      have hne : j.path ≠ path := by
        rintro rfl
        rw [ht.get?_of_mem hj] at hp
        exact Option.some_ne_none _ hp
      simp [Join.selectedAt, hne]
    rw [hmap]
  | some aliasName =>
    obtain ⟨j, hj, rfl, rfl⟩ := ht.exists_of_get? hp
    simp only [ht.get?_aliasName hj]
    have hmem : ({ j with selected := true } : Join ι).aliasName ∈ t.joins.map (·.aliasName) :=
      List.mem_map.2 ⟨j, hj, rfl⟩
    rw [Joins.add_of_mem ht.names hmem]
    congr 1
    refine List.map_congr_left fun k hk => ?_
    simp only [Join.marked, Join.selectedAt, List.mem_singleton, ht.path_eq_iff hk hj]
    split <;> simp_all

end Aligned

/-- The paths of the parts of a chain of segments that start at its front. -/
def leads (segments : List String) : List String :=
  (List.range segments.length).map fun n => Path.ofSegments (segments.take (n + 1))

theorem Aligned.selectAlong_eq {t : JoinTree ι} (ht : t.Aligned) (segments : List String) :
    t.selectAlong segments = { t with joins := t.joins.map (Join.selectedAt (leads segments)) } := by
  rw [JoinTree.selectAlong_eq, ← leads]
  generalize leads segments = paths
  induction paths generalizing t with
  | nil => simp
  | cons path rest ih =>
    have ht' := ht.map_joins (f := Join.selectedAt [path]) (fun _ => rfl) fun _ => rfl
    rw [List.foldl_cons, ht.selectAt_eq, ih ht']
    simp only [List.map_map]
    congr 1
    refine List.map_congr_left fun j _ => ?_
    simp [Join.selectedAt, Bool.or_assoc]

/-- The paths that a request marks as selected. -/
def selecting (request : JoinRequest) : List String :=
  if request.select then leads (Path.segments request.path) else []

theorem mem_selecting {request : JoinRequest} {path : String} :
    path ∈ selecting request ↔
      request.select = true ∧ path ∈ leads (Path.segments request.path) := by
  unfold selecting
  split <;> simp [*]

theorem Aligned.selectFor_eq {t : JoinTree ι} (ht : t.Aligned) (request : JoinRequest) :
    t.selectFor request =
      { t with joins := t.joins.map (Join.selectedAt (selecting request)) } := by
  unfold selectFor selecting
  split
  · exact ht.selectAlong_eq _
  · simp

theorem Aligned.aliases_selectFor {t : JoinTree ι} (ht : t.Aligned) (request : JoinRequest) :
    (t.selectFor request).aliases = t.aliases := by
  rw [ht.selectFor_eq]

theorem Aligned.selectFor {t : JoinTree ι} (ht : t.Aligned) (request : JoinRequest) :
    (t.selectFor request).Aligned := by
  rw [ht.selectFor_eq]
  exact ht.map_joins (fun _ => rfl) fun _ => rfl

theorem Aligned.extends_selectFor {t : JoinTree ι} (ht : t.Aligned) (request : JoinRequest) :
    t.Extends (t.selectFor request) := by
  rw [ht.selectFor_eq]
  exact ⟨rfl, rfl, List.prefix_refl _⟩

/-- A walk keeps a tree aligned and lets it grow. -/
theorem Aligned.extend {g : EntityGraph ι} {request : JoinRequest} {before rest : List String}
    {e : ι} {parent : String} {t t' : JoinTree ι} {r : Except QueryError Unit} (ht : t.Aligned)
    (h : (extend g request before e parent rest).exec t = (r, t')) : t'.Aligned ∧ t.Extends t' := by
  obtain ⟨_, _, _, _, _, hP, _⟩ := extend_induct (P := fun u _ _ _ _ => u.Aligned ∧ t.Extends u)
    (fun u before e parent s rest relation aliasName aliases hu _ hreg =>
      ⟨hu.1.attached (j := ⟨_, _, _, _, _⟩) (wishFor_ne_empty u request _ rest) hreg,
        hu.2.trans (hu.1.extends_attached (j := ⟨_, _, _, _, _⟩) hreg)⟩)
    ⟨ht, .refl t⟩ h
  exact hP

/-- A reach keeps a tree aligned and lets it grow, also one that fails. -/
theorem Aligned.exec_reach {t : JoinTree ι} (ht : t.Aligned) (g : EntityGraph ι)
    (request : JoinRequest) :
    ((JoinTree.reach g request).exec t).2.Aligned ∧
      t.Extends ((JoinTree.reach g request).exec t).2 := by
  rcases exists_starts_or_unbound g request t with ⟨e, parent, hstarts⟩ | ⟨path, hunbound⟩
  · rw [hstarts.exec_reach]
    rcases hextend : (JoinTree.extend g request (t.lead request.path) e parent
      (t.missing request.path)).exec t with ⟨walked, t₁⟩
    obtain ⟨ht₁, hgrow⟩ := ht.extend hextend
    cases walked with
    | error cause => exact ⟨ht₁, hgrow⟩
    | ok _ => exact ⟨ht₁.selectFor request, hgrow.trans (ht₁.extends_selectFor request)⟩
  · rw [hunbound]
    exact ⟨ht, .refl t⟩

/-- Reaching a path keeps a tree aligned, lets it grow, and gives the alias that the path then has. -/
theorem Aligned.reach {g : EntityGraph ι} {request : JoinRequest} {t t' : JoinTree ι}
    {bound : String} (ht : t.Aligned) (h : (reach g request).exec t = (.ok bound, t')) :
    t'.Aligned ∧ t.Extends t' ∧ t'.aliases.get? request.path = some bound := by
  obtain ⟨_, _, _, _, _, _, hbound⟩ := reach_eq_ok h
  have hreach := ht.exec_reach g request
  rw [h] at hreach
  exact ⟨hreach.1, hreach.2, hbound⟩

end JoinTree

end EntityQuery
