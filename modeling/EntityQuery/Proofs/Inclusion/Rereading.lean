import EntityQuery.Proofs.Inclusion
import EntityQuery.Proofs.Selection
import EntityQuery.Sample

/-! Inclusions written and read again. As with selections, what is read from an object without repeated
keys has distinct names at every level, and each of the forms in which an inclusion is written is read
as the inclusion. -/

namespace EntityQuery

namespace Inclusion

variable {ι : Type} {g : EntityGraph ι} {e : ι} {path key : String} {is : List Inclusion}

/-- An inclusion on an entity: of a relation, under no alias or one that is not empty, with inclusions
on its target of distinct relations. -/
inductive Legible (g : EntityGraph ι) : ι → Inclusion → Prop
  | mk {e : ι} {name : String} {aliasName : Option String} {children : List Inclusion} {r : Relation ι}
    (hrelation : (g.entity e).relation? name = some r)
    (halias : ∀ wish, aliasName = some wish → wish.isEmpty = false)
    (hnames : (children.map relation).Nodup) (h : ∀ i ∈ children, Legible g r.target i) :
    Legible g e (.mk name aliasName children)

mutual

/-- Inclusions that are read on an entity are inclusions on it, with the names of some of the keys. -/
theorem readMembers_legible {e : ι} {path : String} (members : List (String × Value))
    {is : List Inclusion} (h : readMembers g e path members = .ok is)
    (hkeyed : (Value.obj members).Keyed) :
    (is.map relation).Sublist (Assoc.keys members) ∧ ∀ i ∈ is, i.Legible g e := by
  match members, h with
  | [], h =>
    rw [readMembers] at h
    cases h
    simp
  | (key, value) :: rest, h =>
    obtain ⟨hnodup, hvalues⟩ := Value.eachObject_obj.1 hkeyed
    rw [List.forall_mem_cons] at hvalues
    have hrestKeyed : (Value.obj rest).Keyed :=
      Value.eachObject_obj.2 ⟨hnodup.of_cons, hvalues.2⟩
    rcases readMembers_cons h with
      hrest | ⟨r, aliasName, children, others, hr, rfl, hrest, halias, hchildren⟩
    · obtain ⟨hnames, hlegible⟩ := readMembers_legible rest hrest hrestKeyed
      exact ⟨hnames.cons key, hlegible⟩
    · obtain ⟨hnames, hlegible⟩ := readMembers_legible rest hrest hrestKeyed
      have hbelow : (children.map relation).Nodup ∧ ∀ i ∈ children, i.Legible g r.target := by
        rcases hchildren with rfl | ⟨members, rfl, hnested⟩
        · exact ⟨.nil, by simp⟩
        · exact readNested_legible members hnested (Value.eachObject_obj.1 hvalues.1).2
      exact ⟨hnames.cons_cons key,
        List.forall_mem_cons.2 ⟨.mk hr halias hbelow.1 hbelow.2, hlegible⟩⟩
termination_by sizeOf members

theorem readNested_legible {e : ι} {path : String} (members : List (String × Value))
    {is : List Inclusion} (h : readNested g e path members = .ok is)
    (hkeyed : ∀ m ∈ members, m.2.Keyed) :
    (is.map relation).Nodup ∧ ∀ i ∈ is, i.Legible g e := by
  match members, h with
  | [], h =>
    rw [readNested] at h
    cases h
    exact ⟨.nil, by simp⟩
  | (key, value) :: rest, h =>
    rw [List.forall_mem_cons] at hkeyed
    rcases readNested_cons h with rfl | hrest | ⟨members, hvalue, hmembers⟩
    · exact ⟨.nil, by simp⟩
    · exact readNested_legible rest hrest hkeyed.2
    · have hsize : sizeOf members < sizeOf value := by rw [hvalue]; simp
      have hmembersKeyed : (Value.obj members).Keyed := hvalue ▸ hkeyed.1
      obtain ⟨hnames, hlegible⟩ := readMembers_legible members hmembers hmembersKeyed
      exact ⟨(Value.eachObject_obj.1 hmembersKeyed).1.sublist hnames, hlegible⟩
termination_by sizeOf members

end

/-! ### Reading again -/

theorem mergedMembers_eq (merged : List (String × Value)) (is : List Inclusion) :
    mergedMembers merged is = Assoc.merge merged (is.flatMap members) := by
  induction is generalizing merged with
  | nil => rw [mergedMembers]; rfl
  | cons i rest ih => rw [mergedMembers, ih, List.flatMap_cons, Assoc.merge_append]

theorem keys_members (i : Inclusion) : Assoc.keys i.members = [i.relation] := by
  unfold members
  split <;> rfl

/-- The members of an inclusion are read as the inclusion, whatever follows them. -/
def Rereads (g : EntityGraph ι) (e : ι) (i : Inclusion) : Prop :=
  ∀ path rest others, readMembers g e path rest = .ok others →
    readMembers g e path (i.members ++ rest) = .ok (i :: others)

theorem readMembers_mergedMembers (hnames : (is.map relation).Nodup) (h : ∀ i ∈ is, Rereads g e i)
    (path : String) : readMembers g e path (mergedMembers [] is) = .ok is := by
  rw [mergedMembers_eq]
  exact read_ofPairs keys_members hnames (by rw [readMembers]; rfl) fun x hx => h x hx path

/-- An object with an alias and with inclusions below. -/
theorem readMembers_obj {r : Relation ι} {members rest : List (String × Value)}
    {aliasName : Option String} {children others : List Inclusion}
    (hr : (g.entity e).relation? key = some r) (hknown : ∀ k ∈ Assoc.keys members, k ∈ knownKeys)
    (halias : readAlias (Path.child path key) (Value.member members "as") = .ok aliasName)
    (hchildren : readNested g r.target (Path.child path key) members = .ok children)
    (hrest : readMembers g e path rest = .ok others) :
    readMembers g e path ((key, .obj members) :: rest) = .ok (.mk key aliasName children :: others) := by
  have hunknown : (Assoc.keys members).filter (fun k => !knownKeys.contains k) = [] := by
    rw [List.filter_eq_nil_iff]
    intro k hk
    simpa using hknown k hk
  rw [readMembers]
  simp only [Value.isOff, Bool.false_eq_true, if_false, hr, hunknown, halias, hchildren, hrest]
  rfl

theorem readNested_include (hnames : (is.map relation).Nodup) (h : ∀ i ∈ is, Rereads g e i)
    (path : String) (rest : List (String × Value)) :
    readNested g e path (("include", .obj (mergedMembers [] is)) :: rest) = .ok is := by
  rw [readNested, if_pos rfl]
  exact readMembers_mergedMembers hnames h path

theorem readNested_as (wish : String) (path : String) (rest : List (String × Value)) :
    readNested g e path (("as", .str wish) :: rest) = readNested g e path rest := by
  rw [readNested, if_neg (by decide)]
  simp

theorem Legible.rereads {i : Inclusion} (h : i.Legible g e) : Rereads g e i := by
  induction h with
  | @mk e name aliasName children r hr halias hnames _ ih =>
    intro path rest others hrest
    have hread : ∀ wish, aliasName = some wish →
        readAlias (Path.child path name) (.str wish) = .ok (some wish) := by
      intro wish hwish
      rw [readAlias, halias wish hwish]
      rfl
    cases aliasName with
    | none =>
      cases children with
      | nil =>
        rw [members, List.singleton_append, readMembers]
        simp [Value.isOff, hr, hrest]
      | cons first more =>
        rw [members, List.singleton_append]
        · exact readMembers_obj hr (by simp [Assoc.keys, knownKeys]) rfl
            (readNested_include hnames ih _ _) hrest
        · simp
    | some wish =>
      cases children with
      | nil =>
        rw [members, List.singleton_append]
        refine readMembers_obj hr (by simp [Assoc.keys, knownKeys]) (hread wish rfl) ?_ hrest
        rw [readNested_as, readNested]
        rfl
      | cons first more =>
        rw [members, List.singleton_append]
        · refine readMembers_obj hr (by simp [Assoc.keys, knownKeys]) (hread wish rfl) ?_ hrest
          rw [readNested_as]
          exact readNested_include hnames ih _ _
        · simp

/-- Inclusions that were read from an object without repeated keys are read again from the object that
they make together. -/
theorem rereads {data : Value} (h : g.readInclusion e data = .ok is) (hdata : data.Keyed) :
    g.readInclusion e (.obj (mergedMembers [] is)) = .ok is := by
  unfold EntityGraph.readInclusion at h
  split at h
  · next members =>
    obtain ⟨hnames, hlegible⟩ := readMembers_legible members h hdata
    have hnodup := (Value.eachObject_obj.1 hdata).1.sublist hnames
    exact readMembers_mergedMembers hnodup (fun i hi => (hlegible i hi).rereads) ""
  · cases h

end Inclusion

namespace EntityGraph

variable {ι : Type} {g : EntityGraph ι} {e : ι}

/-- What is read as selections, or as inclusions, from data in which no object holds a key twice is read
again from the object that it is written as: the same tree of selections or inclusions, on the same
entity. -/
theorem selections_and_inclusions_reread {data : Value} (hdata : data.Keyed) :
    (∀ ss, g.readSelection e data = .ok ss →
      g.readSelection e (.obj (Selection.mergedMembers [] ss)) = .ok ss) ∧
    (∀ is, g.readInclusion e data = .ok is →
      g.readInclusion e (.obj (Inclusion.mergedMembers [] is)) = .ok is) :=
  ⟨fun _ h => Selection.rereads h hdata, fun _ h => Inclusion.rereads h hdata⟩

end EntityGraph

namespace Sample

/-- Names of users and the titles of their posts, under another name, without what is switched off. -/
def namesAndHeadings : Value :=
  .obj [("name", .bool true), ("age", .bool false), ("profile", .null),
    ("posts", .obj [("title", .obj [("as", .str "heading")]), ("comments", .obj [])])]

/-- Posts under an alias, with their comments. -/
def articlesWithComments : Value :=
  .obj [("posts", .obj [("as", .str "articles"),
    ("include", .obj [("comments", .bool true), ("author", .bool false)])]),
    ("profile", .obj [("include", .null)])]

theorem selections_and_inclusions_reread_articles : ∃ ss is,
    namesAndHeadings.Keyed ∧ articlesWithComments.Keyed ∧
    (mapping.graph fun _ => true).readSelection "User" namesAndHeadings = .ok ss ∧
    (mapping.graph fun _ => true).readSelection "User" (.obj (Selection.mergedMembers [] ss)) =
      .ok ss ∧
    (mapping.graph fun _ => true).readInclusion "User" articlesWithComments = .ok is ∧
    (mapping.graph fun _ => true).readInclusion "User" (.obj (Inclusion.mergedMembers [] is)) =
      .ok is := by
  have hselected : namesAndHeadings.Keyed := by
    simp [namesAndHeadings, Value.Keyed, Value.EachObject, Value.EachOfMembers, Assoc.keys]
  have hincluded : articlesWithComments.Keyed := by
    simp [articlesWithComments, Value.Keyed, Value.EachObject, Value.EachOfMembers, Assoc.keys]
  obtain ⟨ss, hss⟩ := Except.exists_of_isOk
    (show ((mapping.graph fun _ => true).readSelection "User" namesAndHeadings).isOk = true by
      decide +kernel)
  obtain ⟨is, his⟩ := Except.exists_of_isOk
    (show ((mapping.graph fun _ => true).readInclusion "User" articlesWithComments).isOk = true by
      decide +kernel)
  exact ⟨ss, is, hselected, hincluded, hss,
    (EntityGraph.selections_and_inclusions_reread hselected).1 ss hss, his,
    (EntityGraph.selections_and_inclusions_reread hincluded).2 is his⟩

end Sample

end EntityQuery
