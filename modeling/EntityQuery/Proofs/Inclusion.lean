import EntityQuery.Inclusion
import EntityQuery.Proofs.Step

/-! Inclusions as they are read: each names a relation of the entity that it is read on, and so do the
inclusions below it. -/

namespace EntityQuery.Inclusion

variable {ι : Type} {g : EntityGraph ι}

/-- An inclusion of a relation of an entity, with inclusions of relations of its target below. -/
inductive Over (g : EntityGraph ι) : ι → Inclusion → Prop
  | mk {e : ι} {relation : String} {aliasName : Option String} {children : List Inclusion}
    {r : Relation ι} (hrelation : (g.entity e).relation? relation = some r)
    (hchildren : ∀ i ∈ children, Over g r.target i) : Over g e (.mk relation aliasName children)

theorem readAlias_eq_ok {path : String} {value : Value} {aliasName : Option String}
    (h : readAlias path value = .ok aliasName) :
    ∀ name, aliasName = some name → name.isEmpty = false := by
  unfold readAlias at h
  split at h
  · cases h
    simp
  · next name =>
    split at h
    · cases h
    · next hname =>
      cases h
      rintro _ ⟨⟩
      exact Bool.eq_false_iff.2 hname
  · cases h

theorem readMembers_cons {e : ι} {path key : String} {value : Value} {rest : List (String × Value)}
    {is : List Inclusion} (h : readMembers g e path ((key, value) :: rest) = .ok is) :
    (readMembers g e path rest = .ok is) ∨ ∃ r aliasName children others,
      (g.entity e).relation? key = some r ∧ is = .mk key aliasName children :: others ∧
      readMembers g e path rest = .ok others ∧
      (∀ name, aliasName = some name → name.isEmpty = false) ∧
      (children = [] ∨ ∃ members, value = .obj members ∧
        readNested g r.target (Path.child path key) members = .ok children) := by
  unfold readMembers at h
  dsimp only at h
  split at h
  · exact .inl h
  · right
    split at h
    · cases h
    · next r hr =>
      split at h
      · simp only [pure_bind, Except.bind_eq_ok] at h
        obtain ⟨others, hrest, h⟩ := h
        cases h
        exact ⟨r, none, [], others, hr, rfl, hrest, by simp, .inl rfl⟩
      · next members _ =>
        split at h
        · cases h
        · simp only [pure_bind, Except.bind_eq_ok] at h
          obtain ⟨aliasName, halias, children, hchildren, others, hrest, h⟩ := h
          cases h
          exact ⟨r, aliasName, children, others, hr, rfl, hrest, readAlias_eq_ok halias,
            .inr ⟨members, rfl, hchildren⟩⟩
      · cases h

theorem readNested_cons {e : ι} {path key : String} {value : Value} {rest : List (String × Value)}
    {is : List Inclusion} (h : readNested g e path ((key, value) :: rest) = .ok is) :
    is = [] ∨ readNested g e path rest = .ok is ∨
      ∃ members, value = .obj members ∧ readMembers g e path members = .ok is := by
  unfold readNested at h
  split at h
  · split at h
    · next members => exact .inr (.inr ⟨members, rfl, h⟩)
    · split at h
      · cases h
      · cases h
        exact .inl rfl
  · exact .inr (.inl h)

mutual

/-- The inclusions that are read on an entity are of its relations. -/
theorem readMembers_over {e : ι} {path : String} (members : List (String × Value))
    {is : List Inclusion} (h : readMembers g e path members = .ok is) : ∀ i ∈ is, Over g e i := by
  match members, h with
  | [], h =>
    rw [readMembers] at h
    cases h
    simp
  | (key, value) :: rest, h =>
    rcases readMembers_cons h with
      hrest | ⟨r, aliasName, children, others, hr, rfl, hrest, -, hchildren⟩
    · exact readMembers_over rest hrest
    · have hover : ∀ i ∈ children, Over g r.target i := by
        rcases hchildren with rfl | ⟨members, hvalue, hnested⟩
        · simp
        · have hsize : sizeOf members < sizeOf value := by rw [hvalue]; simp
          exact readNested_over members hnested
      simpa using ⟨.mk hr hover, readMembers_over rest hrest⟩
termination_by sizeOf members

theorem readNested_over {e : ι} {path : String} (members : List (String × Value))
    {is : List Inclusion} (h : readNested g e path members = .ok is) : ∀ i ∈ is, Over g e i := by
  match members, h with
  | [], h =>
    rw [readNested] at h
    cases h
    simp
  | (key, value) :: rest, h =>
    rcases readNested_cons h with rfl | hrest | ⟨members, hvalue, hmembers⟩
    · simp
    · exact readNested_over rest hrest
    · have hsize : sizeOf members < sizeOf value := by rw [hvalue]; simp
      exact readMembers_over members hmembers
termination_by sizeOf members

end

theorem over_of_readInclusion {e : ι} {data : Value} {is : List Inclusion}
    (h : g.readInclusion e data = .ok is) : ∀ i ∈ is, Over g e i := by
  unfold EntityGraph.readInclusion at h
  split at h
  · exact readMembers_over _ h
  · cases h

end EntityQuery.Inclusion
