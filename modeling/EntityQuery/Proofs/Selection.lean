import EntityQuery.Proofs.Members
import EntityQuery.Proofs.Value
import EntityQuery.Selection

/-! Selections as they are read, written and read again. What is read from an object without repeated
keys has distinct names at every level, so that nothing is lost where it is written. -/

namespace EntityQuery.Selection

variable {ι : Type} {g : EntityGraph ι} {e : ι} {path key : String} {value : Value} {ss : List Selection}

/-- The field or the relation that is selected. -/
def name : Selection → String
  | .column field _ => field
  | .relation other _ => other

/-- A selection on an entity: of a column, under no name or one that is not empty, or of a relation, with
selections on its target whose names are distinct. -/
inductive Legible (g : EntityGraph ι) : ι → Selection → Prop
  | column {e : ι} {field : String} {outputName : Option String}
    (hrelation : (g.entity e).relation? field = none) (hcolumn : (g.entity e).hasColumn field = true)
    (hname : ∀ name, outputName = some name → name.isEmpty = false) :
    Legible g e (.column field outputName)
  | relation {e : ι} {relation : String} {r : Relation ι} {children : List Selection}
    (hrelation : (g.entity e).relation? relation = some r) (hnames : (children.map name).Nodup)
    (h : ∀ s ∈ children, Legible g r.target s) : Legible g e (.relation relation children)

/-! ### Reading -/

theorem readColumn_eq_ok {s : Selection} (h : readColumn key path value = .ok s) :
    ∃ outputName, s = .column key outputName ∧ ∀ name, outputName = some name → name.isEmpty = false := by
  unfold readColumn at h
  split at h
  · cases h
    exact ⟨none, rfl, by simp⟩
  · next name =>
    split at h
    · cases h
    · next hname =>
      cases h
      refine ⟨some name, rfl, ?_⟩
      rintro _ ⟨⟩
      exact Bool.eq_false_iff.2 hname
  · cases h
  · cases h

/-- A member is passed over, or it selects a column or a relation. -/
theorem readMembers_cons {rest : List (String × Value)}
    (h : readMembers g e path ((key, value) :: rest) = .ok ss) :
    readMembers g e path rest = .ok ss ∨ ∃ first others,
      ss = first :: others ∧ readMembers g e path rest = .ok others ∧
      ((g.entity e).relation? key = none ∧ (g.entity e).hasColumn key = true ∧
          readColumn key (Path.child path key) value = .ok first ∨
        ∃ r children, (g.entity e).relation? key = some r ∧ first = .relation key children ∧
          (children = [] ∨ ∃ members, value = .obj members ∧
            readMembers g r.target (Path.child path key) members = .ok children)) := by
  rw [readMembers] at h
  dsimp only at h
  split at h
  · exact .inl h
  · right
    split at h
    · next r hr =>
      split at h
      · simp only [pure_bind, Except.bind_eq_ok] at h
        obtain ⟨others, hrest, ⟨⟩⟩ := h
        exact ⟨_, others, rfl, hrest, .inr ⟨r, [], hr, rfl, .inl rfl⟩⟩
      · next members _ =>
        simp only [pure_bind, Except.bind_eq_ok] at h
        obtain ⟨children, hchildren, others, hrest, ⟨⟩⟩ := h
        exact ⟨_, others, rfl, hrest, .inr ⟨r, children, hr, rfl, .inr ⟨members, rfl, hchildren⟩⟩⟩
      · cases h
    · next hr =>
      split at h
      · next hcolumn =>
        simp only [Except.bind_eq_ok] at h
        obtain ⟨first, hfirst, others, hrest, ⟨⟩⟩ := h
        exact ⟨first, others, rfl, hrest, .inl ⟨hr, hcolumn, hfirst⟩⟩
      · cases h

/-- Selections that are read on an entity are selections on it, with the names of some of the keys. -/
theorem readMembers_legible {e : ι} {path : String} (members : List (String × Value))
    {ss : List Selection} (h : readMembers g e path members = .ok ss)
    (hkeyed : (Value.obj members).Keyed) :
    (ss.map name).Sublist (Assoc.keys members) ∧ ∀ s ∈ ss, s.Legible g e := by
  match members, h with
  | [], h =>
    rw [readMembers] at h
    cases h
    simp
  | (key, value) :: rest, h =>
    obtain ⟨hnodup, hvalues⟩ := Value.eachObject_obj.1 hkeyed
    rw [List.forall_mem_cons] at hvalues
    have hrestKeyed : (Value.obj rest).Keyed :=
      Value.eachObject_obj.2 ⟨hnodup.of_cons, hvalues.2⟩
    rcases readMembers_cons h with hrest | ⟨first, others, rfl, hrest, hfirst⟩
    · obtain ⟨hnames, hlegible⟩ := readMembers_legible rest hrest hrestKeyed
      exact ⟨hnames.cons key, hlegible⟩
    · obtain ⟨hnames, hlegible⟩ := readMembers_legible rest hrest hrestKeyed
      rcases hfirst with ⟨hr, hcolumn, hread⟩ | ⟨r, children, hr, rfl, hchildren⟩
      · obtain ⟨outputName, rfl, hname⟩ := readColumn_eq_ok hread
        exact ⟨hnames.cons_cons key, List.forall_mem_cons.2 ⟨.column hr hcolumn hname, hlegible⟩⟩
      · refine ⟨hnames.cons_cons key, List.forall_mem_cons.2 ⟨?_, hlegible⟩⟩
        rcases hchildren with rfl | ⟨members, rfl, hchildren⟩
        · exact .relation hr .nil (by simp)
        · have hmembers : (Value.obj members).Keyed := hvalues.1
          obtain ⟨hbelow, hlegible⟩ := readMembers_legible members hchildren hmembers
          exact .relation hr ((Value.eachObject_obj.1 hmembers).1.sublist hbelow) hlegible
termination_by sizeOf members

/-! ### Reading again -/

theorem mergedMembers_eq (merged : List (String × Value)) (ss : List Selection) :
    mergedMembers merged ss = Assoc.merge merged (ss.flatMap members) := by
  induction ss generalizing merged with
  | nil => rw [mergedMembers]; rfl
  | cons s rest ih => rw [mergedMembers, ih, List.flatMap_cons, Assoc.merge_append]

theorem keys_members (s : Selection) : Assoc.keys s.members = [s.name] := by
  unfold members
  split <;> rfl

/-- The members of a selection are read as the selection, whatever follows them. -/
def Rereads (g : EntityGraph ι) (e : ι) (s : Selection) : Prop :=
  ∀ path rest others, readMembers g e path rest = .ok others →
    readMembers g e path (s.members ++ rest) = .ok (s :: others)

theorem readMembers_mergedMembers (hnames : (ss.map name).Nodup) (h : ∀ s ∈ ss, Rereads g e s)
    (path : String) : readMembers g e path (mergedMembers [] ss) = .ok ss := by
  rw [mergedMembers_eq]
  exact read_ofPairs keys_members hnames (by rw [readMembers]; rfl) fun x hx => h x hx path

theorem Legible.rereads {s : Selection} (h : s.Legible g e) : Rereads g e s := by
  induction h with
  | @column e field outputName hr hcolumn hname =>
    intro path rest others hrest
    cases outputName with
    | none =>
      rw [members, List.singleton_append, readMembers]
      simp [Value.isOff, hr, hcolumn, readColumn, hrest]
    | some name =>
      rw [members, List.singleton_append, readMembers]
      simp [Value.isOff, hr, hcolumn, readColumn, hname name rfl, hrest]
  | @relation e relation r children hr hnames _ ih =>
    intro path rest others hrest
    cases children with
    | nil =>
      rw [members, List.singleton_append, readMembers]
      simp [Value.isOff, hr, hrest]
    | cons first more =>
      have hchildren := readMembers_mergedMembers hnames ih (Path.child path relation)
      rw [members, List.singleton_append, readMembers]
      · simp only [Value.isOff, Bool.false_eq_true, if_false, hr, hchildren, hrest]
        rfl
      · simp

/-- Selections that were read from an object without repeated keys are read again from the object that
they make together. -/
theorem rereads {data : Value} (h : g.readSelection e data = .ok ss) (hdata : data.Keyed) :
    g.readSelection e (.obj (mergedMembers [] ss)) = .ok ss := by
  unfold EntityGraph.readSelection at h
  split at h
  · next members =>
    obtain ⟨hnames, hlegible⟩ := readMembers_legible members h hdata
    have hnodup := (Value.eachObject_obj.1 hdata).1.sublist hnames
    exact readMembers_mergedMembers hnodup (fun s hs => (hlegible s hs).rereads) ""
  · cases h

end EntityQuery.Selection
