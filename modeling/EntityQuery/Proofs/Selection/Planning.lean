import EntityQuery.Proofs.Join.Requests
import EntityQuery.Proofs.Layout.Columns
import EntityQuery.Proofs.Inclusion.Visits
import EntityQuery.Proofs.Query.Stages
import EntityQuery.Sample

/-! Selections as they are planned. A selection of a relation asks for its branch and joins nothing; all that
is written are columns, and those of one path come to the map of the fields that were selected there. -/

namespace EntityQuery

variable {ι : Type} {g : EntityGraph ι}

namespace Context

/-- A context without the columns of its layout. -/
def blank (c : Context ι) : Context ι := { c with layout := c.layout.blank }

/-- What joining and placing leaves of the layout do not change. -/
structure ApartFromPlacing {γ : Type} (f : Context ι → γ) : Prop where
  joining : ∀ c tree, f { c with tree } = f c
  placing : ∀ c holder b rename, b.columns = [] → b.children = [] →
    f { c with layout := c.layout.placeAt holder b rename } = f c

theorem columnsAt_apartFromPlacing (segs : List String) :
    ApartFromPlacing fun c : Context ι => c.layout.columnsAt segs where
  joining _ _ := rfl
  placing c holder _ rename hcolumns hchildren :=
    c.layout.columnsAt_placeAt hcolumns hchildren holder rename segs

end Context

namespace Inclusion

mutual

/-- What joining and placing do not change, an inclusion leaves alone, whatever its outcome. -/
theorem keeps_plan {γ : Type} {f : Context ι → γ} (hf : Context.ApartFromPlacing f)
    {aliasName : Option String} {path : String} {holder : Option String} (i : Inclusion) :
    (plan g aliasName path holder i).Keeps f := by
  cases i with
  | mk relation wish children =>
    rw [plan]
    refine .bind (.within hf.joining) fun bound => .bind (.modify fun c => ?_) fun _ => ?_
    · exact hf.placing c holder _ _ rfl rfl
    · split
      · exact .bind .get fun _ => keeps_planAll hf children
      · exact .pure ()

theorem keeps_planAll {γ : Type} {f : Context ι → γ} (hf : Context.ApartFromPlacing f)
    {aliasName : Option String} {path : String} {holder : Option String} (is : List Inclusion) :
    (planAll g aliasName path holder is).Keeps f := by
  cases is with
  | nil => exact .pure ()
  | cons i rest =>
    rw [planAll]
    exact .bind (keeps_plan hf i) fun _ => keeps_planAll hf rest

end

/-- Inclusions set no columns. -/
theorem columnsAt_planRoot (is : List Inclusion) (segs : List String) :
    (planRoot g is).Keeps fun c => c.layout.columnsAt segs :=
  keeps_planAll (Context.columnsAt_apartFromPlacing segs) is

end Inclusion

namespace Selection

/-- A column that is selected, with the path of its entity and the key under which it is shown. -/
structure Choice where
  path : String
  field : String
  key : String

mutual

/-- The columns that a selection chooses, in the order in which it names them. -/
def choices (path : String) : Selection → List Choice
  | column field name => [⟨path, field, outputKey field name⟩]
  | relation name children => choicesOfAll (Path.child path name) children

def choicesOfAll (path : String) : List Selection → List Choice
  | [] => []
  | s :: rest => choices path s ++ choicesOfAll path rest

end

mutual

/-- The paths of the relations that a selection names, each before those below it. -/
def relationPaths (path : String) : Selection → List String
  | column _ _ => []
  | relation name children =>
    Path.child path name :: relationPathsOfAll (Path.child path name) children

def relationPathsOfAll (path : String) : List Selection → List String
  | [] => []
  | s :: rest => relationPaths path s ++ relationPathsOfAll path rest

end

/-! ### Outcomes -/

/-- Asks for branches at paths: the first one that is missing is reported. -/
def askFor (l : Layout) (paths : List String) : Except QueryError Unit :=
  match paths.find? fun path => (l.branch? path).isNone with
  | none => .ok ()
  | some path => .error (.relationNotIncluded path)

theorem askFor_cons (l : Layout) (path : String) (rest : List String) : askFor l (path :: rest) =
    if (l.branch? path).isSome then askFor l rest else .error (.relationNotIncluded path) := by
  rw [askFor, List.find?_cons]
  cases l.branch? path <;> rfl

theorem askFor_append (l : Layout) (paths rest : List String) :
    askFor l (paths ++ rest) = askFor l paths >>= fun _ => askFor l rest := by
  induction paths with
  | nil => rfl
  | cons path paths ih =>
    rw [List.cons_append, askFor_cons, askFor_cons, ih]
    split <;> rfl

theorem askFor_congr {l l' : Layout} (h : l.blank = l'.blank) (paths : List String) :
    askFor l paths = askFor l' paths := by
  induction paths with
  | nil => rfl
  | cons path paths ih => rw [askFor_cons, askFor_cons, ih, Layout.isSome_branch?_of_blank h]

/-- A column of a path is set where the path is empty or has a branch. -/
theorem exec_setColumn {c : Context ι} {path : String}
    (hpath : path = "" ∨ (c.layout.branch? path).isSome = true) (field key : String) :
    (setColumn path field key).exec c =
      (.ok (), { c with layout := c.layout.withColumns path (Assoc.set · field key) }) := by
  rw [setColumn, Step.exec_bind, Step.exec_get]
  show Step.exec (if _ then _ else _) c = _
  by_cases hempty : path = ""
  · rw [if_pos (by simpa using hempty), Step.exec_modify, Layout.withColumns, if_pos hempty]
  · have hsome := hpath.resolve_left hempty
    rw [if_neg (by simpa using hempty), if_neg (by simpa [Option.isSome_iff_ne_none] using hsome),
      Step.exec_modify, Layout.withColumns, if_neg hempty]
    rfl

theorem exec_plan_relation (c : Context ι) (path name : String) (children : List Selection) :
    (plan path (relation name children)).exec c =
      if (c.layout.branch? (Path.child path name)).isSome then
        (planAll (Path.child path name) children).exec c
      else (.error (.relationNotIncluded (Path.child path name)), c) := by
  rw [plan, Step.exec_bind, Step.exec_get]
  dsimp only
  cases c.layout.branch? (Path.child path name) <;> rfl

/-- What a run of selections is to come to: it asks for the branches of its relations and writes nothing
but columns. -/
structure OnlyAnnotates (c : Context ι) (paths : List String) (r : Except QueryError Unit × Context ι) :
    Prop where
  outcome : r.1 = askFor c.layout paths
  blank : r.2.blank = c.blank

mutual

theorem plan_onlyAnnotates {c : Context ι} {path : String}
    (hpath : path = "" ∨ (c.layout.branch? path).isSome = true) (s : Selection) :
    OnlyAnnotates c (relationPaths path s) ((plan path s).exec c) := by
  cases s with
  | column field name =>
    rw [plan, exec_setColumn hpath]
    exact ⟨rfl, congrArg (fun l => { c with layout := l }) (c.layout.blank_withColumns path _)⟩
  | relation name children =>
    rw [exec_plan_relation, relationPaths]
    split
    · next h =>
      have hchildren := planAll_onlyAnnotates (.inr h) children
      exact ⟨hchildren.outcome.trans (by rw [askFor_cons, if_pos h]), hchildren.blank⟩
    · next h => exact ⟨by rw [askFor_cons, if_neg h], rfl⟩

theorem planAll_onlyAnnotates {c : Context ι} {path : String}
    (hpath : path = "" ∨ (c.layout.branch? path).isSome = true) (ss : List Selection) :
    OnlyAnnotates c (relationPathsOfAll path ss) ((planAll path ss).exec c) := by
  cases ss with
  | nil => exact ⟨rfl, rfl⟩
  | cons s rest =>
    have hfirst := plan_onlyAnnotates hpath s
    rw [planAll, Step.exec_bind, relationPathsOfAll]
    rcases hrun : (plan path s).exec c with ⟨e | _, c'⟩ <;> rw [hrun] at hfirst
    · exact ⟨by rw [askFor_append, ← hfirst.outcome]; rfl, hfirst.blank⟩
    · have hblank : c'.layout.blank = c.layout.blank := congrArg Context.layout hfirst.blank
      have hrest := planAll_onlyAnnotates (c := c') (by rwa [Layout.isSome_branch?_of_blank hblank]) rest
      refine ⟨?_, hrest.blank.trans hfirst.blank⟩
      rw [askFor_append, ← hfirst.outcome]
      exact hrest.outcome.trans (askFor_congr hblank _)

end

/-! ### Columns -/

/-- The fields that are chosen at a chain of names, with their keys. -/
def fieldsBehind (chosen : List Choice) (segs : List String) : List (String × String) :=
  (chosen.filter fun choice => segs = Layout.chainOf choice.path).map fun choice =>
    (choice.field, choice.key)

theorem fieldsBehind_append (chosen more : List Choice) (segs : List String) :
    fieldsBehind (chosen ++ more) segs = fieldsBehind chosen segs ++ fieldsBehind more segs := by
  rw [fieldsBehind, List.filter_append, List.map_append]
  rfl

mutual

/-- A selection that succeeds sets the columns that it chooses, one after the other. -/
theorem columnsAt_plan {path : String} (s : Selection) {c c' : Context ι}
    (h : (plan path s).exec c = (.ok (), c')) (segs : List String) :
    c'.layout.columnsAt segs =
      Assoc.merge (c.layout.columnsAt segs) (fieldsBehind (choices path s) segs) := by
  cases s with
  | column field name =>
    have hpath : path = "" ∨ (c.layout.branch? path).isSome = true :=
      (setColumn_eq_ok h).imp And.left fun h => h.2.1
    rw [plan, exec_setColumn hpath] at h
    obtain ⟨-, rfl⟩ := Prod.mk.inj h
    show Layout.columnsAt (c.layout.withColumns path _) segs = _
    rw [Layout.columnsAt_withColumns hpath, choices, fieldsBehind]
    by_cases hsegs : segs = Layout.chainOf path <;> simp [hsegs, Assoc.merge]
  | relation name children => exact columnsAt_planAll children (plan_relation_eq_ok h).2 segs

theorem columnsAt_planAll {path : String} (ss : List Selection) {c c' : Context ι}
    (h : (planAll path ss).exec c = (.ok (), c')) (segs : List String) :
    c'.layout.columnsAt segs =
      Assoc.merge (c.layout.columnsAt segs) (fieldsBehind (choicesOfAll path ss) segs) := by
  cases ss with
  | nil =>
    obtain ⟨-, rfl⟩ := Prod.mk.inj h
    rfl
  | cons s rest =>
    obtain ⟨c₁, hfirst, hrest⟩ := planAll_cons_eq_ok.1 h
    rw [columnsAt_planAll rest hrest segs, columnsAt_plan s hfirst segs, choicesOfAll,
      fieldsBehind_append, Assoc.merge_append]

end

/-- Contexts to which inclusions, whatever their outcome, and selections that succeed lead from an empty
layout, with all columns that were chosen. -/
inductive Reaches (g : EntityGraph ι) : List Choice → Context ι → Prop
  | start {c : Context ι} (h : c.layout = .empty) : Reaches g [] c
  | inclusion {chosen : List Choice} {c : Context ι} (h : Reaches g chosen c) (is : List Inclusion) :
    Reaches g chosen ((Inclusion.planRoot g is).exec c).2
  | selection {chosen : List Choice} {c c' : Context ι} (h : Reaches g chosen c) {ss : List Selection}
    (hrun : (planAll "" ss).exec c = (.ok (), c')) : Reaches g (chosen ++ choicesOfAll "" ss) c'

theorem Reaches.columnsAt_eq {chosen : List Choice} {c : Context ι} (h : Reaches g chosen c)
    (segs : List String) : c.layout.columnsAt segs = Assoc.ofPairs (fieldsBehind chosen segs) := by
  induction h with
  | start h =>
    rw [h]
    exact Level.columnsAt_empty segs
  | inclusion _ is ih => exact (Inclusion.columnsAt_planRoot is segs _).trans ih
  | selection _ hrun ih =>
    rw [columnsAt_planAll _ hrun segs, ih, fieldsBehind_append, Assoc.ofPairs, ← Assoc.merge_append,
      Assoc.ofPairs]

/-- The fields that are chosen at a path, with their keys. -/
def fieldsAt (chosen : List Choice) (path : String) : List (String × String) :=
  (chosen.filter (·.path = path)).map fun choice => (choice.field, choice.key)

theorem fieldsBehind_chainOf (chosen : List Choice) (path : String) :
    fieldsBehind chosen (Layout.chainOf path) = fieldsAt chosen path := by
  rw [fieldsBehind, fieldsAt]
  congr 2
  funext choice
  exact decide_eq_decide.2 ⟨fun h => Layout.chainOf_inj h.symm, fun h => congrArg Layout.chainOf h.symm⟩

/-- Columns that record fields with keys: each field once, in the order in which the fields were first given,
under the key that was last given for it. -/
structure Recorded (columns pairs : List (String × String)) : Prop where
  fields : Assoc.keys columns = (Assoc.keys pairs).eraseDups
  last : ∀ field, Assoc.get? columns field = Assoc.get? pairs.reverse field

theorem recorded_ofPairs (pairs : List (String × String)) : Recorded (Assoc.ofPairs pairs) pairs where
  fields := by
    induction pairs using List.reverseRecOn with
    | nil => rfl
    | append_singleton pairs p ih =>
      rw [Assoc.ofPairs_concat, Assoc.keys_set, ih, Assoc.keys, Assoc.keys, List.map_append,
        List.map_singleton, List.eraseDups_concat]
      simp only [List.mem_eraseDups, List.elem_eq_mem, decide_eq_true_eq]
  last := Assoc.get?_ofPairs pairs

/-- A layout whose columns are those that were chosen, at the root those of the empty path and at the branch
of another path those of this path; a branch that no such path leads to has none. -/
structure Annotated (l : Layout) (chosen : List Choice) : Prop where
  root : Recorded l.rootColumns (fieldsAt chosen "")
  branch : ∀ path b, path ≠ "" → l.branch? path = some b → Recorded b.columns (fieldsAt chosen path)
  apart : ∀ segs b, Branch.at? l.branches segs = some b →
    (∀ path, path ≠ "" → Path.segments path ≠ segs) → b.columns = []

theorem annotated_of_columnsAt {l : Layout} {chosen : List Choice}
    (h : ∀ segs, l.columnsAt segs = Assoc.ofPairs (fieldsBehind chosen segs)) : Annotated l chosen where
  root := by
    show Recorded (l.columnsAt (Layout.chainOf "")) _
    rw [h, fieldsBehind_chainOf]
    exact recorded_ofPairs _
  branch path b hpath hb := by
    rw [← Level.columnsAt_of_at? l.rootColumns hb, ← Layout.chainOf_of_ne hpath]
    show Recorded (l.columnsAt (Layout.chainOf path)) _
    rw [h, fieldsBehind_chainOf]
    exact recorded_ofPairs _
  apart segs b hb hsegs := by
    have hnone : fieldsBehind chosen segs = [] := by
      rw [fieldsBehind, List.map_eq_nil_iff, List.filter_eq_nil_iff]
      intro choice _ hchoice
      have hchain : segs = Layout.chainOf choice.path := of_decide_eq_true hchoice
      by_cases hpath : choice.path = ""
      · rw [hchain, hpath] at hb
        cases hb
      · exact hsegs choice.path hpath (hchain.trans (Layout.chainOf_of_ne hpath)).symm
    rw [← Level.columnsAt_of_at? l.rootColumns hb]
    show l.columnsAt segs = []
    rw [h, hnone]
    rfl

/-- Selections annotate what is included. A selection fails exactly at the first of its relations that has
no branch, and changes nothing but columns, also where it fails; after inclusions and selections that
succeed, the layout holds the columns that were chosen. -/
theorem annotate_included (g : EntityGraph ι) :
    (∀ (c : Context ι) (ss : List Selection),
      OnlyAnnotates c (relationPathsOfAll "" ss) ((planAll "" ss).exec c)) ∧
    ∀ (chosen : List Choice) (c : Context ι), Reaches g chosen c → Annotated c.layout chosen :=
  ⟨fun _ ss => planAll_onlyAnnotates (.inl rfl) ss, fun _ _ h => annotated_of_columnsAt h.columnsAt_eq⟩

end Selection

namespace Sample

/-- A user whose posts and their comments are included. -/
def userWithComments : Context String :=
  ((Inclusion.planRoot (mapping.graph fun _ => true)
    [.mk "posts" none [.mk "comments" none []]]).exec (.start "User" "user")).2

/-- Columns of the user, of posts and of comments, these under another name. -/
def labelled : List Selection :=
  [.column "name" none, .relation "posts" [.column "title" none,
    .relation "comments" [.column "body" (some "text")]], .column "email" none]

/-- The name once more, under another key. -/
def relabelled : List Selection := [.column "name" (some "fullName")]

def userLabelled : Context String := ((Selection.planAll "" labelled).exec userWithComments).2

def userRelabelled : Context String := ((Selection.planAll "" relabelled).exec userLabelled).2

/-- A relation of posts that is not included, behind a column of theirs. -/
def unreached : List Selection :=
  [.relation "posts" [.column "id" none, .relation "author" []], .column "id" none]

theorem annotate_included_relabelled :
    Selection.Reaches (mapping.graph fun _ => true)
      ([] ++ Selection.choicesOfAll "" labelled ++ Selection.choicesOfAll "" relabelled)
      userRelabelled ∧
    userRelabelled.layout.rootColumns = [("name", "fullName"), ("email", "email")] ∧
    Selection.Annotated userRelabelled.layout
      ([] ++ Selection.choicesOfAll "" labelled ++ Selection.choicesOfAll "" relabelled) ∧
    Selection.OnlyAnnotates userRelabelled (Selection.relationPathsOfAll "" unreached)
      ((Selection.planAll "" unreached).exec userRelabelled) := by
  obtain ⟨honly, hannotated⟩ := Selection.annotate_included (mapping.graph fun _ => true)
  have hfirst : Selection.Reaches (mapping.graph fun _ => true)
      ([] ++ Selection.choicesOfAll "" labelled) userLabelled :=
    .selection (.inclusion (.start rfl) [.mk "posts" none [.mk "comments" none []]])
      (Prod.ext (Except.eq_ok_of_toOption (by decide +kernel)) rfl)
  have hsecond : Selection.Reaches (mapping.graph fun _ => true)
      ([] ++ Selection.choicesOfAll "" labelled ++ Selection.choicesOfAll "" relabelled)
      userRelabelled :=
    hfirst.selection (Prod.ext (Except.eq_ok_of_toOption (by decide +kernel)) rfl)
  exact ⟨hsecond, by decide +kernel, hannotated _ _ hsecond, honly userRelabelled unreached⟩

/-- An entity with relations to itself, one of them without a name and one whose name is a path of two
others. -/
def oddGraph : EntityGraph Unit where
  entity _ := ⟨"Root", [("id", "id")], ["id"],
    [⟨"", (), false⟩, ⟨"a", (), false⟩, ⟨"b", (), false⟩, ⟨"a.b", (), false⟩]⟩

/-- The odd entity with the nameless relation and the one that is named like a path. -/
def oddIncluded : Context Unit :=
  ((Inclusion.planRoot oddGraph [.mk "" none [], .mk "a.b" none []]).exec (.start () "root")).2

/-- Two selections of what is included go amiss: a column of the nameless relation is shown at the root, and
the branch whose name has a dot is not found. -/
theorem selections_misplaced :
    oddGraph.readSelection () (.obj [("", .obj [("id", .bool true)])]) =
      .ok [.relation "" [.column "id" none]] ∧
    oddIncluded.layout.branches.map (fun b => (b.name, b.path)) = [("", ""), ("a.b", "a.b")] ∧
    (∃ c, (Selection.planAll "" [.relation "" [.column "id" none]]).exec oddIncluded = (.ok (), c) ∧
      c.layout.rootColumns = [("id", "id")] ∧ c.layout.branches.map (·.columns) = [[], []]) ∧
    ((Selection.planAll "" [.relation "a.b" []]).exec oddIncluded).1 =
      .error (.relationNotIncluded "a.b") := by
  refine ⟨?_, by decide +kernel, ?_, ?_⟩
  · show _ = pure [Selection.relation "" [.column "id" none]]
    simp [EntityGraph.readSelection, Selection.readMembers, Selection.readColumn, oddGraph,
      Value.isOff, Entity.relation?, Entity.hasColumn, Assoc.contains]
  · refine ⟨_, Prod.ext (Except.eq_ok_of_toOption (by decide +kernel)) rfl, ?_, ?_⟩ <;> decide +kernel
  · rw [(Selection.planAll_onlyAnnotates (.inl rfl) _).outcome]
    show Selection.askFor oddIncluded.layout ["a.b"] = _
    rw [Selection.askFor_cons, if_neg (by decide +kernel)]

end Sample

end EntityQuery
