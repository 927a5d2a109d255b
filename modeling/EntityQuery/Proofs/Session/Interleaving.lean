import EntityQuery.Proofs.Session.Including

/-! The order of calls. Every call reads its argument, which does not depend on the query so far, and then
changes some parts of the query. A part of the result depends only on the calls that touch it, so that
calls which touch different parts can be interleaved at will. What a sequence with refused calls fails
with is the cause of the first of them. -/

namespace EntityQuery

variable {ι : Type}

/-! ### Changes of queries -/

namespace Query

/-- The parts of a query that are changed apart from each other. -/
inductive Part where
  | predicates | inclusions | selections | order | offset | limit | distinct
  deriving DecidableEq

/-- The queries have the same part. -/
def Part.Same (q q' : Query) : Part → Prop
  | .predicates => q.predicates = q'.predicates
  | .inclusions => q.inclusions = q'.inclusions
  | .selections => q.selections = q'.selections
  | .order => q.order = q'.order
  | .offset => q.offset = q'.offset
  | .limit => q.limit = q'.limit
  | .distinct => q.distinct = q'.distinct

theorem eq_of_same {q q' : Query} (h : ∀ part : Part, part.Same q q') : q = q' := by
  obtain ⟨predicates, inclusions, selections, order, offset, limit, distinct⟩ := q
  obtain rfl : predicates = _ := h .predicates
  obtain rfl : inclusions = _ := h .inclusions
  obtain rfl : selections = _ := h .selections
  obtain rfl : order = _ := h .order
  obtain rfl : offset = _ := h .offset
  obtain rfl : limit = _ := h .limit
  obtain rfl : distinct = _ := h .distinct
  rfl

theorem Part.Same.trans {part : Part} {q q' q'' : Query} (h : part.Same q q')
    (h' : part.Same q' q'') : part.Same q q'' := by
  cases part <;> exact Eq.trans h h'

theorem Part.Same.symm {part : Part} {q q' : Query} (h : part.Same q q') : part.Same q' q := by
  cases part <;> exact Eq.symm h

/-- A change of a query. -/
inductive Change where
  | addPredicate (p : Predicate)
  | addInclusions (is : List Inclusion)
  | addSelections (ss : List Selection)
  | orderBy (key : String) (d : Direction)
  | thenBy (key : String) (d : Direction)
  | paginate (limit offset : Option Int)
  | setDistinct (distinct : Bool)

namespace Change

def apply : Change → Query → Query
  | .addPredicate p, q => q.addPredicate p
  | .addInclusions is, q => q.addInclusions is
  | .addSelections ss, q => q.addSelections ss
  | .orderBy key d, q => q.orderBy key d
  | .thenBy key d, q => q.thenBy key d
  | .paginate limit offset, q => q.paginate limit offset
  | .setDistinct distinct, q => q.setDistinct distinct

/-- Whether a change touches a part. A page may set its limit, its offset or both. -/
def touches (part : Part) : Change → Bool
  | .addPredicate _ => part == .predicates
  | .addInclusions _ => part == .inclusions
  | .addSelections _ => part == .selections
  | .orderBy _ _ => part == .order
  | .thenBy _ _ => part == .order
  | .paginate limit offset =>
    (part == .limit && limit.isSome) || (part == .offset && offset.isSome)
  | .setDistinct _ => part == .distinct

def applyAll (cs : List Change) (q : Query) : Query := cs.foldl (fun q c => c.apply q) q

variable {part : Part}

/-- What a change makes of a part depends on this part alone. -/
theorem apply_same (c : Change) {q q' : Query} (h : part.Same q q') :
    part.Same (c.apply q) (c.apply q') := by
  cases c with
  | addPredicate p =>
    cases part with
    | predicates => exact congrArg (· ++ [p]) h
    | _ => exact h
  | addInclusions is =>
    cases part with
    | inclusions => exact congrArg (· ++ is) h
    | _ => exact h
  | addSelections ss =>
    cases part with
    | selections => exact congrArg (· ++ ss) h
    | _ => exact h
  | orderBy key d =>
    cases part with
    | order => rfl
    | _ => exact h
  | thenBy key d =>
    cases part with
    | order => exact congrArg (· ++ [(key, d)]) h
    | _ => exact h
  | paginate limit offset =>
    cases part with
    | offset => exact congrArg (offset <|> ·) h
    | limit => exact congrArg (limit <|> ·) h
    | _ => exact h
  | setDistinct distinct =>
    cases part with
    | distinct => rfl
    | _ => exact h

/-- A change keeps the parts that it does not touch. -/
theorem same_apply {c : Change} (h : c.touches part = false) (q : Query) :
    part.Same (c.apply q) q := by
  cases c with
  | paginate limit offset =>
    cases part with
    | offset =>
      cases offset with
      | none => rfl
      | some n => cases h
    | limit =>
      cases limit with
      | none => rfl
      | some n => cases h
    | _ => rfl
  | _ =>
    cases part <;> first | rfl | cases h

/-- A part of the result depends only on the changes that touch it. -/
theorem applyAll_same_filter (cs : List Change) {q q' : Query} (h : part.Same q q') :
    part.Same (applyAll cs q) (applyAll (cs.filter (touches part)) q') := by
  induction cs generalizing q q' with
  | nil => exact h
  | cons c cs ih =>
    by_cases htouches : c.touches part = true
    · rw [List.filter_cons_of_pos htouches]
      exact ih (c.apply_same h)
    · rw [List.filter_cons_of_neg htouches]
      exact ih ((same_apply (Bool.eq_false_iff.2 htouches) q).trans h)

/-- Changes that are the same for each part have the same result. -/
theorem applyAll_eq {cs cs' : List Change}
    (h : ∀ part, cs.filter (touches part) = cs'.filter (touches part)) (q : Query) :
    applyAll cs q = applyAll cs' q := by
  refine eq_of_same fun part => ?_
  have hself : part.Same q q := by cases part <;> rfl
  have hsame := applyAll_same_filter cs hself
  rw [h part] at hsame
  exact hsame.trans (applyAll_same_filter cs' hself).symm

end Change

end Query

/-! ### Calls -/

namespace BoundQuery

open Query (Part Change)

variable [DecidableEq ι] {b : BoundQuery ι}

/-- The calls that build a query, with their arguments as they are given, and changes whose arguments
have been read before. -/
inductive Call where
  | filtered (data : Value)
  | including (data : Value)
  | selecting (data : Value)
  | orderBy (key direction : String)
  | thenBy (key direction : String)
  | skip (count : Value)
  | take (count : Value)
  | change (c : Change)

namespace Call

/-- Makes a call on a query. -/
def on (b : BoundQuery ι) : Call → Except QueryError (BoundQuery ι)
  | .filtered data => b.filtered data
  | .including data => b.including data
  | .selecting data => b.selecting data
  | .orderBy key direction => do return b.orderBy key (← Direction.read direction)
  | .thenBy key direction => do return b.thenBy key (← Direction.read direction)
  | .skip count => b.skip count
  | .take count => b.take count
  | .change c => pure (b.modify c.apply)

def touches (part : Part) : Call → Bool
  | .filtered _ => part == .predicates
  | .including _ => part == .inclusions
  | .selecting _ => part == .selections
  | .orderBy _ _ => part == .order
  | .thenBy _ _ => part == .order
  | .skip _ => part == .offset
  | .take _ => part == .limit
  | .change c => c.touches part

/-- What a call is read as on a model of a session. -/
def read (s : Session ι) (e : ι) : Call → Except QueryError Change
  | .filtered data => .addPredicate <$> s.graph.readPredicate e data
  | .including data => .addInclusions <$> s.graph.readInclusion e data
  | .selecting data => .addSelections <$> s.graph.readSelection e data
  | .orderBy key direction => .orderBy key <$> Direction.read direction
  | .thenBy key direction => .thenBy key <$> Direction.read direction
  | .skip count => (fun n => .paginate none (some n)) <$> readCount "skip" count
  | .take count => (fun n => .paginate (some n) none) <$> readCount "take" count
  | .change c => pure c

/-- Why a call is refused, if it is. -/
def refusal (s : Session ι) (e : ι) (c : Call) : Option QueryError :=
  match c.read s e with
  | .ok _ => none
  | .error cause => some cause

/-- A call reads its argument and makes the change. -/
theorem on_eq (c : Call) (b : BoundQuery ι) :
    c.on b = (c.read b.session b.model).map fun change => b.modify change.apply := by
  cases c with
  | filtered data =>
    rw [on, BoundQuery.filtered, read]
    cases b.session.graph.readPredicate b.model data <;> rfl
  | including data =>
    rw [on, BoundQuery.including, read]
    cases b.session.graph.readInclusion b.model data <;> rfl
  | selecting data =>
    rw [on, BoundQuery.selecting, read]
    cases b.session.graph.readSelection b.model data <;> rfl
  | orderBy key direction =>
    rw [on, read]
    cases Direction.read direction <;> rfl
  | thenBy key direction =>
    rw [on, read]
    cases Direction.read direction <;> rfl
  | skip count =>
    rw [on, BoundQuery.skip, read]
    cases readCount "skip" count <;> rfl
  | take count =>
    rw [on, BoundQuery.take, read]
    cases readCount "take" count <;> rfl
  | change c => rfl

variable {s : Session ι} {e : ι} {c : Call}

/-- A call touches what it is read as touching. -/
theorem touches_read {change : Change} (h : c.read s e = .ok change) (part : Part) :
    change.touches part = c.touches part := by
  have hmap : ∀ {α : Type} {x : Except QueryError α} {f : α → Change},
      f <$> x = .ok change → ∃ a, change = f a := by
    intro α x f hx
    cases x with
    | error cause => cases hx
    | ok a => exact ⟨a, (Except.ok.inj hx).symm⟩
  cases c with
  | change c =>
    obtain rfl := Except.ok.inj h
    rfl
  | skip count =>
    obtain ⟨n, rfl⟩ := hmap h
    simp [Change.touches, touches]
  | take count =>
    obtain ⟨n, rfl⟩ := hmap h
    simp [Change.touches, touches]
  | _ =>
    obtain ⟨_, rfl⟩ := hmap h
    rfl

/-- Every call that can be refused touches a part. -/
theorem exists_touches (h : (c.refusal s e).isSome) : ∃ part, c.touches part = true := by
  cases c with
  | filtered => exact ⟨.predicates, rfl⟩
  | including => exact ⟨.inclusions, rfl⟩
  | selecting => exact ⟨.selections, rfl⟩
  | orderBy => exact ⟨.order, rfl⟩
  | thenBy => exact ⟨.order, rfl⟩
  | skip => exact ⟨.offset, rfl⟩
  | take => exact ⟨.limit, rfl⟩
  | change => cases h

end Call

/-- Makes some calls one after the other. -/
def run (b : BoundQuery ι) (cs : List Call) : Except QueryError (BoundQuery ι) :=
  cs.foldlM (fun b c => c.on b) b

/-- The plan of the query that some calls build. -/
def planAfter (b : BoundQuery ι) (cs : List Call) : Except QueryError (QueryPlan ι) := do
  (← b.run cs).plan

/-- The changes that some calls make, as far as they are not refused. -/
def changes (s : Session ι) (e : ι) (cs : List Call) : List Change :=
  cs.filterMap fun c => (c.read s e).toOption

/-- Calls fail with the cause of the first one that is refused, and else make their changes. -/
theorem run_eq (b : BoundQuery ι) (cs : List Call) :
    b.run cs = match cs.findSome? (Call.refusal b.session b.model) with
      | some cause => .error cause
      | none => .ok (b.modify (Change.applyAll (changes b.session b.model cs))) := by
  induction cs generalizing b with
  | nil => rfl
  | cons c cs ih =>
    rw [run, List.foldlM_cons, Call.on_eq, List.findSome?_cons, changes, List.filterMap_cons,
      Call.refusal]
    cases c.read b.session b.model with
    | error cause => rfl
    | ok change => exact ih (b.modify change.apply)

theorem filter_changes (s : Session ι) (e : ι) (cs : List Call) (part : Part) :
    (changes s e cs).filter (Change.touches part) = changes s e (cs.filter (Call.touches part)) := by
  induction cs with
  | nil => rfl
  | cons c cs ih =>
    unfold changes at ih ⊢
    cases hread : c.read s e with
    | error cause =>
      rw [List.filterMap_cons_none (by rw [hread]; rfl), ih]
      by_cases htouches : c.touches part = true
      · rw [List.filter_cons_of_pos htouches, List.filterMap_cons_none (by rw [hread]; rfl)]
      · rw [List.filter_cons_of_neg htouches]
    | ok change =>
      rw [List.filterMap_cons_some (b := change) (by rw [hread]; rfl)]
      have hsame := Call.touches_read hread part
      by_cases htouches : c.touches part = true
      · rw [List.filter_cons_of_pos htouches, List.filter_cons_of_pos (hsame.trans htouches), ih,
          List.filterMap_cons_some (b := change) (by rw [hread]; rfl)]
      · rw [List.filter_cons_of_neg htouches, List.filter_cons_of_neg (hsame ▸ htouches), ih]

/-- Sequences that are the same for each part have the same refused calls. -/
theorem mem_of_refused {s : Session ι} {e : ι} {cs cs' : List Call}
    (h : ∀ part, cs.filter (Call.touches part) = cs'.filter (Call.touches part)) {c : Call}
    (hc : c ∈ cs) (hrefused : (c.refusal s e).isSome) : c ∈ cs' := by
  obtain ⟨part, htouches⟩ := Call.exists_touches hrefused
  have hmem : c ∈ cs.filter (Call.touches part) := List.mem_filter.2 ⟨hc, htouches⟩
  rw [h part] at hmem
  exact (List.mem_filter.1 hmem).1

/-- Refusals that all touch one part are found among the calls that touch it. -/
theorem findSome?_filter {s : Session ι} {e : ι} {cs : List Call} {part : Part}
    (h : ∀ c ∈ cs, (c.refusal s e).isSome → c.touches part = true) :
    (cs.filter (Call.touches part)).findSome? (Call.refusal s e) =
      cs.findSome? (Call.refusal s e) := by
  induction cs with
  | nil => rfl
  | cons c cs ih =>
    obtain ⟨hc, hcs⟩ := List.forall_mem_cons.1 h
    by_cases htouches : c.touches part = true
    · rw [List.filter_cons_of_pos htouches, List.findSome?_cons, List.findSome?_cons, ih hcs]
    · have hnone : c.refusal s e = none := by
        rw [← Option.not_isSome_iff_eq_none]
        exact fun hsome => htouches (hc hsome)
      rw [List.filter_cons_of_neg htouches, List.findSome?_cons, hnone, ih hcs]

section Interleaved

variable {cs cs' : List Call} (h : ∀ part, cs.filter (Call.touches part) = cs'.filter (Call.touches part))

include h

theorem changes_eq (s : Session ι) (e : ι) :
    Change.applyAll (changes s e cs) = Change.applyAll (changes s e cs') := by
  refine funext (Change.applyAll_eq fun part => ?_)
  rw [filter_changes, filter_changes, h part]

/-- A sequence without refused calls has no interleaving with one. -/
theorem findSome?_eq_none {s : Session ι} {e : ι} (hnone : cs.findSome? (Call.refusal s e) = none) :
    cs'.findSome? (Call.refusal s e) = none := by
  rw [List.findSome?_eq_none_iff] at hnone ⊢
  intro c hc
  by_contra hrefused
  have hmem := mem_of_refused (fun part => (h part).symm) hc (Option.isSome_iff_ne_none.2 hrefused)
  exact hrefused (hnone c hmem)

/-- Refusals that all touch one part have the same first one. -/
theorem findSome?_eq {s : Session ι} {e : ι} {part : Part}
    (hpart : ∀ c ∈ cs, (c.refusal s e).isSome → c.touches part = true) :
    cs.findSome? (Call.refusal s e) = cs'.findSome? (Call.refusal s e) := by
  have hpart' : ∀ c ∈ cs', (c.refusal s e).isSome → c.touches part = true :=
    fun c hc hrefused => hpart c (mem_of_refused (fun part => (h part).symm) hc hrefused) hrefused
  rw [← findSome?_filter hpart, h part, findSome?_filter hpart']

theorem run_eq_ok {built : BoundQuery ι} (hbuilt : b.run cs = .ok built) : b.run cs' = .ok built := by
  rw [run_eq] at hbuilt ⊢
  cases hrefusals : cs.findSome? (Call.refusal b.session b.model) with
  | some cause =>
    rw [hrefusals] at hbuilt
    cases hbuilt
  | none =>
    rw [hrefusals] at hbuilt
    rw [findSome?_eq_none h hrefusals, ← changes_eq h]
    exact hbuilt

/-- Sequences of calls that are the same for each part succeed alike and then build the same query, with
the same plan. A sequence fails with the cause of the first call in it that is refused, so that they also
fail alike where all refused calls touch one part. -/
theorem interleavings_agree (b : BoundQuery ι) :
    (∀ built, b.run cs = .ok built ↔ b.run cs' = .ok built) ∧
    (∀ built, b.run cs = .ok built → b.planAfter cs = b.planAfter cs') ∧
    (∀ cause, b.run cs = .error cause ↔
      cs.findSome? (Call.refusal b.session b.model) = some cause) ∧
    ((∃ part, ∀ c ∈ cs, (c.refusal b.session b.model).isSome → c.touches part = true) →
      b.run cs = b.run cs' ∧ b.planAfter cs = b.planAfter cs') := by
  have hplan : b.run cs = b.run cs' → b.planAfter cs = b.planAfter cs' := by
    intro hrun
    rw [planAfter, hrun, planAfter]
  refine ⟨fun built => ⟨run_eq_ok h, run_eq_ok fun part => (h part).symm⟩, fun built hbuilt => ?_,
    fun cause => ?_, ?_⟩
  · exact hplan (hbuilt.trans (run_eq_ok h hbuilt).symm)
  · rw [run_eq]
    cases cs.findSome? (Call.refusal b.session b.model) with
    | none => exact iff_of_false nofun nofun
    | some cause' => simp
  · rintro ⟨part, hpart⟩
    have hrun : b.run cs = b.run cs' := by rw [run_eq, run_eq, findSome?_eq h hpart, changes_eq h]
    exact ⟨hrun, hplan hrun⟩

end Interleaved

end BoundQuery

namespace Sample

open BoundQuery (Call)

/-- Users with their posts, once they have written one that is published. -/
def publishedFirst : List Call :=
  [.filtered (.obj [("posts", .obj [("published", .obj [("eq", .bool true)])])]),
    .orderBy "name" "asc", .including postsAndProfiles, .thenBy "id" "DESC", .take (.int 3),
    .change (.setDistinct true), .skip (.int 1)]

def includedFirst : List Call :=
  [.skip (.int 1), .including postsAndProfiles, .change (.setDistinct true), .orderBy "name" "asc",
    .thenBy "id" "DESC",
    .filtered (.obj [("posts", .obj [("published", .obj [("eq", .bool true)])])]), .take (.int 3)]

def publishedPlan : Except QueryError (QueryPlan String) := do
  (← session.queryOn "User").planAfter publishedFirst

/-- The filter on posts uses the alias of the inclusion, whichever of the two is called first. -/
theorem interleavings_agree_published : ∃ (b : BoundQuery String) (p : QueryPlan String),
    session.queryOn "User" = .ok b ∧ b.planAfter publishedFirst = .ok p ∧
    b.planAfter includedFirst = .ok p ∧
    p.filter.toList.flatMap Filter.columns = [⟨"p", "published"⟩] := by
  have hcolumns : publishedPlan.toOption.map (fun p => p.filter.toList.flatMap Filter.columns) =
      some [⟨"p", "published"⟩] := by
    decide +kernel
  obtain ⟨p, hp, hcolumns⟩ := Option.map_eq_some_iff.1 hcolumns
  replace hp := Except.eq_ok_of_toOption hp
  obtain ⟨b, hb, hp⟩ := Except.bind_eq_ok.1 hp
  have hparts : ∀ part, publishedFirst.filter (Call.touches part) =
      includedFirst.filter (Call.touches part) := by
    intro part
    cases part <;> rfl
  obtain ⟨built, hbuilt, -⟩ := Except.bind_eq_ok.1 hp
  obtain ⟨-, hplans, -, -⟩ := BoundQuery.interleavings_agree hparts b
  exact ⟨b, p, hb, hp, (hplans built hbuilt).symm.trans hp, hcolumns⟩

/-- Of two refused calls that touch different parts, the first one gives the cause. -/
theorem refusals_depend_on_order : ∃ (b : BoundQuery String) (cs cs' : List Call),
    session.queryOn "User" = .ok b ∧
    (∀ part, cs.filter (Call.touches part) = cs'.filter (Call.touches part)) ∧
    b.run cs = .error (.validation (.negativeCount "take" (.int (-1))) none) ∧
    b.run cs' = .error (.validation (.negativeCount "skip" (.int (-1))) none) := by
  have hquery : (session.queryOn "User").isOk = true := by decide +kernel
  obtain ⟨b, hb⟩ := Except.exists_of_isOk hquery
  refine ⟨b, [.take (.int (-1)), .skip (.int (-1))], [.skip (.int (-1)), .take (.int (-1))], hb,
    fun part => ?_, rfl, rfl⟩
  cases part <;> rfl

end Sample

end EntityQuery
