import EntityQuery.Proofs.Predicate.Truth
import EntityQuery.Proofs.Value
import EntityQuery.Query
import EntityQuery.Sample

/-! Predicates written as objects and read again. Each entry of an object is written under one key, so
that the tree is read again exactly where no two entries share a key and no word of a combinator names a
relation or a column. A word that is spelled in two ways in one object is written in one. -/

namespace EntityQuery

variable {ι : Type}

theorem Combinator.normalize_token (c : Combinator) : Token.normalize c.token = c.token := by
  cases c <;> rfl

/-! ### Comparisons -/

namespace Comparison

variable {path : String} {cs : List Comparison}

theorem length_members (c : Comparison) : c.members.length = 1 := by
  cases c <;> rw [members] <;> rfl

theorem mergedMembers_eq (merged : List (String × Value)) (cs : List Comparison) :
    mergedMembers merged cs = Assoc.merge merged (cs.flatMap members) := by
  induction cs generalizing merged with
  | nil => rw [mergedMembers]; rfl
  | cons c rest ih => rw [mergedMembers, ih, List.flatMap_cons, Assoc.merge_append]

theorem alternativeObjects_eq (alternatives : List (List Comparison)) :
    alternativeObjects alternatives = alternatives.map fun cs => .obj (mergedMembers [] cs) := by
  induction alternatives with
  | nil => rw [alternativeObjects]; rfl
  | cons alternative rest ih => rw [alternativeObjects, ih, List.map_cons]

/-- The tokens under which comparisons are written. -/
def tokens (cs : List Comparison) : List String := Assoc.keys (cs.flatMap members)

/-- A comparison in which no two comparisons of one alternative have the same token, at any depth. -/
inductive Separate : Comparison → Prop
  | test {op : Operator} {value : Value} : Separate (.test op value)
  | oneOf {alternatives : List (List Comparison)}
    (htokens : ∀ alternative ∈ alternatives, (tokens alternative).Nodup)
    (h : ∀ alternative ∈ alternatives, ∀ c ∈ alternative, Separate c) : Separate (.oneOf alternatives)

/-- Comparisons are read again where none replaces another and each is read again. -/
theorem reads_mergedMembers_iff (hne : cs ≠ []) :
    Reads path (.obj (mergedMembers [] cs)) cs ↔
      (tokens cs).Nodup ∧
        ∀ c ∈ cs, List.Forall₂ (fun m c => Member (Reads path) m.1 m.2 c) c.members [c] := by
  have hlength := length_flatMap_of_one fun c (_ : c ∈ cs) => c.length_members
  have hmembers : mergedMembers [] cs = Assoc.ofPairs (cs.flatMap members) := mergedMembers_eq [] cs
  rw [← forall₂_flatMap_iff fun c _ => c.length_members, tokens, ← Assoc.forall₂_ofPairs_iff hlength,
    ← hmembers, ← readMembers_eq_ok, Reads, readAll_eq_ok]
  constructor
  · rintro ⟨_, ⟨⟩, -, h⟩
    exact h
  · intro h
    refine ⟨_, rfl, ?_, h⟩
    intro hnil
    have hcount := (readMembers_eq_ok.1 h).length_eq
    rw [hnil] at hcount
    exact hne (List.length_eq_zero_iff.1 hcount.symm)

/-- A comparison is read again where its alternatives are separate. -/
theorem member_members_iff {c : Comparison} (hc : c.Proper) :
    List.Forall₂ (fun m c => Member (Reads path) m.1 m.2 c) c.members [c] ↔ c.Separate := by
  induction hc with
  | @test op value =>
    rw [members, List.forall₂_cons]
    exact ⟨fun _ => .test, fun _ => ⟨.test (OperatorTable.normalize_token op), .nil⟩⟩
  | @oneOf alternatives hne hparts _ ih =>
    rw [members, alternativeObjects_eq, List.forall₂_cons]
    have halternatives : (∀ alternative ∈ alternatives,
        Reads path (.obj (mergedMembers [] alternative)) alternative) ↔
          Separate (.oneOf alternatives) := by
      constructor
      · intro h
        refine .oneOf (fun a ha => ((reads_mergedMembers_iff (hparts a ha)).1 (h a ha)).1) ?_
        intro a ha c hc
        exact (ih a ha c hc).1 (((reads_mergedMembers_iff (hparts a ha)).1 (h a ha)).2 c hc)
      · intro h a ha
        cases h with
        | oneOf htokens h =>
          refine (reads_mergedMembers_iff (hparts a ha)).2 ⟨htokens a ha, fun c hc => ?_⟩
          exact (ih a ha c hc).2 (h a ha c hc)
    rw [← halternatives]
    constructor
    · rintro ⟨hmember, -⟩
      cases hmember with
      | oneOf _ _ h => rwa [List.forall₂_map_left_iff, List.forall₂_same] at h
    · intro h
      refine ⟨.oneOf (Combinator.normalize_token .any) (by simpa using hne) ?_, .nil⟩
      rwa [List.forall₂_map_left_iff, List.forall₂_same]

/-- Comparisons are read again exactly where no two have the same token, at any depth. -/
theorem rereads_iff (hne : cs ≠ []) (hproper : ∀ c ∈ cs, c.Proper) :
    Reads path (.obj (mergedMembers [] cs)) cs ↔ (tokens cs).Nodup ∧ ∀ c ∈ cs, c.Separate := by
  rw [reads_mergedMembers_iff hne]
  refine and_congr_right fun _ => forall₂_congr fun c hc => ?_
  exact member_members_iff (hproper c hc)

end Comparison

/-! ### Predicates -/

namespace Predicate

variable {g : EntityGraph ι} {e : ι} {path : String} {p : Predicate} {ps : List Predicate}

theorem mergedMembers_eq (merged : List (String × Value)) (ps : List Predicate) :
    mergedMembers merged ps = Assoc.merge merged (ps.flatMap members) := by
  induction ps generalizing merged with
  | nil => rw [mergedMembers]; rfl
  | cons p rest ih => rw [mergedMembers, ih, List.flatMap_cons, Assoc.merge_append]

theorem objects_eq (ps : List Predicate) : objects ps = ps.map toValue := by
  induction ps with
  | nil => rw [objects]; rfl
  | cons p rest ih => rw [objects, ih, List.map_cons, toValue]

/-- The keys under which predicates are written as entries of one object. -/
def keys (ps : List Predicate) : List String := Assoc.keys (ps.flatMap members)

/-- A predicate whose parts are separate where it is written: no two comparisons of a column have the
same token, no two entries of an object have the same key, and the word of a combinator is no relation
or column of the entity. -/
inductive Separate (g : EntityGraph ι) : ι → Predicate → Prop
  | field {e : ι} {name column : String} {comparisons : List Comparison}
    (htokens : (Comparison.tokens comparisons).Nodup) (h : ∀ c ∈ comparisons, c.Separate) :
    Separate g e (.field name column comparisons)
  | relation {e : ι} {name : String} {r : Relation ι} {condition : Predicate}
    (hrelation : (g.entity e).relation? name = some r) (h : Separate g r.target condition) :
    Separate g e (.relation name condition)
  | all {e : ι} {children : List Predicate} (hword : ReadsWord g e Combinator.all.token .all)
    (h : ∀ p ∈ children, Separate g e p) : Separate g e (.all children)
  | any {e : ι} {children : List Predicate} (hword : ReadsWord g e Combinator.any.token .any)
    (h : ∀ p ∈ children, Separate g e p) : Separate g e (.any children)
  | not {e : ι} {child : Predicate} (hword : ReadsWord g e Combinator.not.token .not)
    (h : Separate g e child) : Separate g e (.not child)
  | fields {e : ι} {entries : List Predicate} (hkeys : (keys entries).Nodup)
    (h : ∀ p ∈ entries, Separate g e p) : Separate g e (.fields entries)

/-- One entry of an object, which is not itself an object of several entries. -/
def IsEntry : Predicate → Prop
  | .fields _ => False
  | _ => True

theorem Member.isEntry {R : ι → String → Value → Predicate → Prop} {key : String} {value : Value}
    (h : Member g R e path key value p) : p.IsEntry := by
  cases h <;> trivial

theorem IsEntry.length_members (h : p.IsEntry) : p.members.length = 1 := by
  cases p with
  | fields => cases h
  | _ => rw [members]; rfl

theorem ofEntries_eq_of_isEntry (h : p.IsEntry) {entries : List Predicate}
    (hentries : p = ofEntries entries) : entries = [p] := by
  unfold ofEntries at hentries
  split at hentries
  · rw [hentries]
  · rw [hentries] at h
    cases h

theorem ofEntries_eq_fields {entries : List Predicate} (hentries : ∀ p ∈ entries, p.IsEntry)
    (h : .fields ps = ofEntries entries) : entries = ps := by
  unfold ofEntries at h
  split at h
  · next p =>
    obtain rfl := h
    exact absurd (hentries _ List.mem_cons_self) id
  · exact (Predicate.fields.inj h).symm

theorem ofEntries_of_length_ne_one (h : ps.length ≠ 1) : ofEntries ps = .fields ps := by
  unfold ofEntries
  split
  · exact absurd rfl h
  · rfl

/-- An entry is read again where its one member is. -/
theorem IsEntry.rereads_iff (h : p.IsEntry) :
    Reads g e path p.toValue p ↔
      List.Forall₂ (fun m p => Member g (Reads g) e path m.1 m.2 p) p.members [p] := by
  rw [reads_iff, toValue]
  constructor
  · rintro ⟨_, entries, ⟨⟩, hp, hmembers⟩
    rwa [ofEntries_eq_of_isEntry h hp] at hmembers
  · exact fun hmembers => ⟨_, _, rfl, rfl, hmembers⟩

/-- Several entries are read again where none replaces another and each is read again. -/
theorem fields_rereads_iff (hentries : ∀ p ∈ ps, p.IsEntry) (hlength : ps.length ≠ 1) :
    Reads g e path (toValue (.fields ps)) (.fields ps) ↔
      (keys ps).Nodup ∧ ∀ p ∈ ps, Reads g e path p.toValue p := by
  have hone : ∀ p ∈ ps, p.members.length = 1 := fun p hp => (hentries p hp).length_members
  have hmembers : (Predicate.fields ps).members = Assoc.ofPairs (ps.flatMap members) := by
    rw [members, mergedMembers_eq]
    rfl
  have hfields : .fields ps = ofEntries ps := (ofEntries_of_length_ne_one hlength).symm
  have heach : (∀ p ∈ ps, Reads g e path p.toValue p) ↔ ∀ p ∈ ps,
      List.Forall₂ (fun m p => Member g (Reads g) e path m.1 m.2 p) p.members [p] :=
    forall₂_congr fun p hp => (hentries p hp).rereads_iff
  rw [heach, ← forall₂_flatMap_iff hone, keys,
    ← Assoc.forall₂_ofPairs_iff (length_flatMap_of_one hone), ← hmembers, reads_iff, toValue]
  constructor
  · rintro ⟨_, entries, ⟨⟩, hp, h⟩
    have hread : ∀ p ∈ entries, p.IsEntry := forall_mem_of_forall₂ h fun m _ p hm => hm.isEntry
    rwa [ofEntries_eq_fields hread hp] at h
  · exact fun h => ⟨_, _, rfl, hfields, h⟩

theorem IsEntry.rereads_iff_member (h : p.IsEntry) {key : String} {value : Value}
    (hmembers : p.members = [(key, value)]) :
    Reads g e path p.toValue p ↔ Member g (Reads g) e path key value p := by
  rw [h.rereads_iff, hmembers, List.forall₂_cons]
  exact and_iff_left .nil

theorem objects_ne_nil {items : List Value} {R : Value → Predicate → Prop} (hne : items ≠ [])
    (h : List.Forall₂ R items ps) : objects ps ≠ [] := by
  rw [objects_eq, Ne, List.map_eq_nil_iff]
  rintro rfl
  exact hne (List.forall₂_nil_right_iff.1 h)

/-- The parts of a combination are read again from their objects where each is separate. -/
theorem objects_reread_iff {items : List Value}
    (h : List.Forall₂ (fun _ p => ∀ path, Reads g e path p.toValue p ↔ p.Separate g e) items ps) :
    List.Forall₂ (Reads g e path) (objects ps) ps ↔ ∀ p ∈ ps, p.Separate g e := by
  rw [objects_eq, List.forall₂_map_left_iff, List.forall₂_same]
  exact forall₂_congr fun p hp => forall_mem_of_forall₂ h (fun _ _ _ hpart => hpart path) p hp

/-- An entry of an object is read again exactly where it is separate. -/
theorem Member.rereads_iff {key : String} {value : Value}
    (h : Member g (fun e _ _ p => ∀ path, Reads g e path p.toValue p ↔ p.Separate g e) e path key value p)
    (path : String) : Reads g e path p.toValue p ↔ p.Separate g e := by
  cases h with
  | @relation r value p hr h =>
    have hentry : (Predicate.relation key p).IsEntry := trivial
    rw [hentry.rereads_iff_member (by rw [members])]
    constructor
    · intro hmember
      cases hmember with
      | relation hr' hread =>
        obtain rfl := Option.some.inj (hr.symm.trans hr')
        exact .relation hr ((h _).1 hread)
    · intro hseparate
      cases hseparate with
      | relation hr' hp =>
        obtain rfl := Option.some.inj (hr.symm.trans hr')
        exact .relation hr ((h _).2 hp)
  | @field value comparisons hr hcolumn hread =>
    obtain ⟨hne, hproper⟩ := Comparison.readAll_proper hread
    have hentry : (Predicate.field key ((g.entity e).columnName key) comparisons).IsEntry := trivial
    rw [hentry.rereads_iff_member (by rw [members])]
    constructor
    · intro hmember
      cases hmember with
      | field _ _ hread =>
        obtain ⟨htokens, hparts⟩ := (Comparison.rereads_iff hne hproper).1 hread
        exact .field htokens hparts
    · intro hseparate
      cases hseparate with
      | field htokens hparts =>
        exact .field hr hcolumn ((Comparison.rereads_iff hne hproper).2 ⟨htokens, hparts⟩)
  | @all items ps _ hne h =>
    have hentry : (Predicate.all ps).IsEntry := trivial
    rw [hentry.rereads_iff_member (by rw [members])]
    constructor
    · intro hmember
      cases hmember with
      | all hword _ hread => exact .all hword ((objects_reread_iff h).1 hread)
    · intro hseparate
      cases hseparate with
      | all hword hall => exact .all hword (objects_ne_nil hne h) ((objects_reread_iff h).2 hall)
  | @any items ps _ hne h =>
    have hentry : (Predicate.any ps).IsEntry := trivial
    rw [hentry.rereads_iff_member (by rw [members])]
    constructor
    · intro hmember
      cases hmember with
      | any hword _ hread => exact .any hword ((objects_reread_iff h).1 hread)
    · intro hseparate
      cases hseparate with
      | any hword hany => exact .any hword (objects_ne_nil hne h) ((objects_reread_iff h).2 hany)
  | @not value child p hkey hchild h =>
    have hentry : (Predicate.not p).IsEntry := trivial
    rw [hentry.rereads_iff_member (by rw [members])]
    constructor
    · intro hmember
      cases hmember with
      | @not _ child _ hword hchild hread =>
        obtain rfl : p.toValue = child := hchild.resolve_right nofun
        exact .not hword ((h path).1 hread)
    · intro hseparate
      cases hseparate with
      | not hword hp => exact .not hword (.inl rfl) ((h path).2 hp)

/-- A predicate that was read is read again, from the object that describes it, exactly where its parts
are separate. -/
theorem rereads_iff {value : Value} (h : Reads g e path value p) (path : String) :
    Reads g e path p.toValue p ↔ p.Separate g e := by
  refine reads_induct
    (motive := fun e _ _ p => ∀ path, Reads g e path p.toValue p ↔ p.Separate g e) ?_ h path
  intro e path members entries hmembers path'
  have hentries : ∀ p ∈ entries, p.IsEntry := forall_mem_of_forall₂ hmembers fun m _ p hm => hm.isEntry
  have heach : ∀ p ∈ entries, Reads g e path' p.toValue p ↔ p.Separate g e :=
    forall_mem_of_forall₂ hmembers fun m _ p hm => hm.rereads_iff path'
  by_cases hlength : entries.length = 1
  · obtain ⟨p, rfl⟩ := List.length_eq_one_iff.1 hlength
    exact heach p List.mem_cons_self
  · rw [ofEntries_of_length_ne_one hlength, fields_rereads_iff hentries hlength]
    constructor
    · rintro ⟨hkeys, h⟩
      exact .fields hkeys fun p hp => (heach p hp).1 (h p hp)
    · intro hseparate
      cases hseparate with
      | fields hkeys h => exact ⟨hkeys, fun p hp => (heach p hp).2 (h p hp)⟩

end Predicate

/-! ### Objects in plain spelling -/

theorem Comparison.Member.keys_members {R : Value → List Comparison → Prop} {key : String}
    {value : Value} {c : Comparison} (h : Member R key value c) (hplain : Token.normalize key = key) :
    Assoc.keys c.members = [key] := by
  cases h with
  | oneOf hkey =>
    rw [Comparison.members, ← hplain, hkey]
    rfl
  | test hkey =>
    rw [Comparison.members, ← hplain, hkey]
    rfl

theorem Comparison.separate_of_plain {path : String} {value : Value} {cs : List Comparison}
    (h : Reads path value cs) (hkeyed : value.Keyed) (hplain : value.Plain) :
    (tokens cs).Nodup ∧ ∀ c ∈ cs, c.Separate := by
  refine reads_induct (motive := fun value cs =>
    value.Keyed → value.Plain → (tokens cs).Nodup ∧ ∀ c ∈ cs, c.Separate) ?_ h hkeyed hplain
  intro members cs _ hmembers hkeyed hplain
  obtain ⟨hnodup, hkeyed⟩ := Value.eachObject_obj.1 hkeyed
  obtain ⟨hspelled, hplain⟩ := Value.eachObject_obj.1 hplain
  have hkeys : tokens cs = Assoc.keys members :=
    Assoc.keys_flatMap_of_forall₂ (forall₂_imp_of_mem hmembers fun m hm c hmember =>
      hmember.keys_members (hspelled m.1 (List.mem_map_of_mem hm)))
  refine ⟨hkeys ▸ hnodup, forall_mem_of_forall₂ hmembers fun ⟨key, value⟩ hm c hmember => ?_⟩
  have hkeyed : value.Keyed := hkeyed _ hm
  have hplain : value.Plain := hplain _ hm
  cases hmember with
  | oneOf _ _ h =>
    rw [Value.Keyed, Value.eachObject_list] at hkeyed
    rw [Value.Plain, Value.eachObject_list] at hplain
    have hparts := forall_mem_of_forall₂ h fun item hitem cs hread =>
      hread (hkeyed item hitem) (hplain item hitem)
    exact .oneOf (fun a ha => (hparts a ha).1) fun a ha => (hparts a ha).2
  | test => exact .test

namespace Predicate

variable {g : EntityGraph ι} {e : ι} {path : String} {p : Predicate}

theorem ReadsWord.plain {key : String} {c : Combinator} (h : ReadsWord g e key c)
    (hplain : Token.normalize key = key) : c.token = key := by
  rw [← hplain, h.word]

theorem Member.keys_members {R : ι → String → Value → Predicate → Prop} {key : String} {value : Value}
    (h : Member g R e path key value p) (hplain : Token.normalize key = key) :
    Assoc.keys p.members = [key] := by
  cases h with
  | relation | field => rw [members]; rfl
  | all hkey | any hkey | not hkey => rw [members, ← hkey.plain hplain]; rfl

/-- What is read from an object without repeated keys and without a `$` before any of them is
separate. -/
theorem separate_of_plain {value : Value} (h : Reads g e path value p) (hkeyed : value.Keyed)
    (hplain : value.Plain) : p.Separate g e := by
  refine reads_induct (motive := fun e _ value p => value.Keyed → value.Plain → p.Separate g e)
    ?_ h hkeyed hplain
  intro e path members entries hmembers hkeyed hplain
  obtain ⟨hnodup, hkeyed⟩ := Value.eachObject_obj.1 hkeyed
  obtain ⟨hspelled, hplain⟩ := Value.eachObject_obj.1 hplain
  have hspell : ∀ m ∈ members, Token.normalize m.1 = m.1 := fun m hm =>
    hspelled m.1 (List.mem_map_of_mem hm)
  have hkeys : keys entries = Assoc.keys members :=
    Assoc.keys_flatMap_of_forall₂ (forall₂_imp_of_mem hmembers fun m hm p hmember =>
      hmember.keys_members (hspell m hm))
  have hseparate : ∀ p ∈ entries, p.Separate g e := by
    refine forall_mem_of_forall₂ hmembers fun ⟨key, value⟩ hm p hmember => ?_
    have hkeyed : value.Keyed := hkeyed _ hm
    have hplain : value.Plain := hplain _ hm
    have hword : ∀ {c}, ReadsWord g e key c → ReadsWord g e c.token c := fun hkey =>
      hkey.plain (hspell _ hm) ▸ hkey
    have hitems : ∀ {items : List Value} {ps : List Predicate}, value = .list items →
        List.Forall₂ (fun item p => item.Keyed → item.Plain → p.Separate g e) items ps →
        ∀ p ∈ ps, p.Separate g e := by
      rintro items ps rfl h
      rw [Value.Keyed, Value.eachObject_list] at hkeyed
      rw [Value.Plain, Value.eachObject_list] at hplain
      exact forall_mem_of_forall₂ h fun item hitem p hread =>
        hread (hkeyed item hitem) (hplain item hitem)
    cases hmember with
    | relation hr h => exact .relation hr (h hkeyed hplain)
    | field hr hcolumn h =>
      obtain ⟨htokens, hparts⟩ := Comparison.separate_of_plain h hkeyed hplain
      exact .field htokens hparts
    | all hkey _ h => exact .all (hword hkey) (hitems rfl h)
    | any hkey _ h => exact .any (hword hkey) (hitems rfl h)
    | @not _ child p hkey hchild h =>
      rcases hchild with rfl | hchild
      · exact .not (hword hkey) (h hkeyed hplain)
      · have hone : ∀ q ∈ [p], q.Separate g e := hitems hchild (.cons h .nil)
        exact .not (hword hkey) (hone p List.mem_cons_self)
  by_cases hlength : entries.length = 1
  · obtain ⟨p, rfl⟩ := List.length_eq_one_iff.1 hlength
    exact hseparate p List.mem_cons_self
  · rw [ofEntries_of_length_ne_one hlength]
    exact .fields (hkeys ▸ hnodup) hseparate

end Predicate

/-! ### Queries -/

/-- The objects of the predicates of a query are its part `where`. -/
theorem Query.get?_where {q : Query} (h : q.predicates ≠ []) :
    ∃ members, q.toValue = .obj members ∧
      Assoc.get? members "where" = some (.list (q.predicates.map Predicate.toValue)) := by
  refine ⟨_, rfl, ?_⟩
  have hitems : (q.predicates.map Predicate.toValue).isEmpty = false := by
    simpa using h
  simp [hitems, Assoc.get?_cons]

namespace EntityGraph

/-- A predicate that was read is read again, from the object that describes it, exactly where its parts
are separate, as they always are where no word was spelled with a `$`. So are the predicates of a query
from its part `where`. -/
theorem predicates_reread (g : EntityGraph ι) (e : ι) :
    (∀ data p, g.readPredicate e data = .ok p →
      (g.readPredicate e p.toValue = .ok p ↔ p.Separate g e) ∧
      (data.Keyed → data.Plain → p.Separate g e)) ∧
    ∀ q : Query, q.predicates ≠ [] →
      (∀ p ∈ q.predicates, ∃ data, g.readPredicate e data = .ok p) →
      ∃ members items, q.toValue = .obj members ∧ Assoc.get? members "where" = some (.list items) ∧
        (Predicate.readItems g e "" items = .ok q.predicates ↔
          ∀ p ∈ q.predicates, p.Separate g e) := by
  constructor
  · intro data p hread
    exact ⟨Predicate.rereads_iff hread "", Predicate.separate_of_plain hread⟩
  · intro q hne hread
    obtain ⟨members, hmembers, hwhere⟩ := q.get?_where hne
    refine ⟨members, _, hmembers, hwhere, ?_⟩
    rw [Predicate.readItems_eq_ok, List.forall₂_map_left_iff, List.forall₂_same]
    refine forall₂_congr fun p hp => ?_
    obtain ⟨data, hdata⟩ := hread p hp
    exact Predicate.rereads_iff hdata ""

end EntityGraph

namespace Sample

/-- Users of an age from two bounds, in two spellings of one word. -/
def twiceBoundedAge : Value := .obj [("age", .obj [("gte", .int 21), ("$gte", .int 18)])]

/-- Users without unpublished posts, or of some age. -/
def publishedOrAged : Value :=
  .obj [("or", .list [
    .obj [("not", .obj [("posts", .obj [("published", .obj [("eq", .bool false)])])])],
    .obj [("age", .obj [("or", .list [.obj [("lt", .int 18)], .obj [("gte", .int 65)]])])]])]

theorem predicates_reread_ages : ∃ p p',
    (mapping.graph fun _ => true).readPredicate "User" twiceBoundedAge = .ok p ∧
    (mapping.graph fun _ => true).readPredicate "User" p.toValue ≠ .ok p ∧
    publishedOrAged.Keyed ∧ publishedOrAged.Plain ∧
    (mapping.graph fun _ => true).readPredicate "User" publishedOrAged = .ok p' ∧
    (mapping.graph fun _ => true).readPredicate "User" p'.toValue = .ok p' ∧
    ∃ members items, (Query.empty.addPredicate p').toValue = .obj members ∧
      Assoc.get? members "where" = some (.list items) ∧
      Predicate.readItems (mapping.graph fun _ => true) "User" "" items = .ok [p'] := by
  obtain ⟨hsingle, hquery⟩ := EntityGraph.predicates_reread (mapping.graph fun _ => true) "User"
  have hp : (mapping.graph fun _ => true).readPredicate "User" twiceBoundedAge =
      .ok (.field "age" "age" [.test .gte (.int 21), .test .gte (.int 18)]) := rfl
  obtain ⟨p', hp'⟩ := Except.exists_of_isOk
    (show ((mapping.graph fun _ => true).readPredicate "User" publishedOrAged).isOk = true by
      decide +kernel)
  have hkeyed : publishedOrAged.Keyed := by
    simp [publishedOrAged, Value.Keyed, Value.EachObject, Value.EachOfItems, Value.EachOfMembers,
      Assoc.keys]
  have hplain : publishedOrAged.Plain := by
    simp [publishedOrAged, Value.Plain, Value.EachObject, Value.EachOfItems, Value.EachOfMembers,
      Assoc.keys, Token.normalize]
  have hseparate := (hsingle _ p' hp').2 hkeyed hplain
  refine ⟨_, p', hp, fun hread => ?_, hkeyed, hplain, hp', (hsingle _ p' hp').1.2 hseparate, ?_⟩
  · have hdoubled := (hsingle _ _ hp).1.1 hread
    cases hdoubled with
    | field htokens _ => exact absurd htokens (by decide +kernel)
  · obtain ⟨members, items, hmembers, hitems, hreread⟩ := hquery (Query.empty.addPredicate p')
      (by simp [Query.addPredicate])
      (by simpa [Query.addPredicate, Query.empty] using ⟨publishedOrAged, hp'⟩)
    refine ⟨members, items, hmembers, hitems, hreread.2 ?_⟩
    simpa [Query.addPredicate, Query.empty] using hseparate

end Sample

end EntityQuery
