import EntityQuery.Proofs.Session.Including

/-! Listings under a stable order do not depend on the order of storage. What a query means on a database
speaks of which records its tables hold, never of their order, and the primary key at the end of the sort
keys leaves no two roots tied, so that one list of roots is sorted by this meaning. -/

namespace EntityQuery

variable {ι : Type}

/-- The tables of the one database are permutations of those of the other, under one engine. -/
structure Database.Reordered (db db' : Database ι) : Prop where
  records : ∀ e, (db e).Perm (db' e)
  pairs : ∀ table, (db.pairs table).Perm (db'.pairs table)
  engine : db'.engine = db.engine

namespace Database.Reordered

variable {m : Mapping ι} {db db' : Database ι} {g : EntityGraph ι} {e : ι}

theorem symm (h : db.Reordered db') : db'.Reordered db where
  records e := (h.records e).symm
  pairs table := (h.pairs table).symm
  engine := h.engine.symm

theorem apart (h : db.Reordered db') (hdb : db.Apart m) : db'.Apart m := by
  intro e
  refine (h.records e).pairwise (hdb e) ?_
  rintro r s ⟨field, hfield, hdiffer⟩
  exact ⟨field, hfield, fun htie => hdiffer (Std.OrientedCmp.eq_symm htie)⟩

/-! ### What a query means -/

theorem joins_iff (h : db.Reordered db') {link : Link ι} {r t : Record} :
    link.Joins db.toTables r t ↔ link.Joins db'.toTables r t := by
  unfold Link.Joins
  cases link.through with
  | none => exact Iff.rfl
  | some through => simp only [(h.pairs through.1).mem_iff]

theorem links_iff (h : db.Reordered db') {owner : ι} {relation : String} {r t : Record} :
    QueryPlan.Links m db owner relation r t ↔ QueryPlan.Links m db' owner relation r t := by
  unfold QueryPlan.Links
  simp only [(h.records _).mem_iff, h.joins_iff]

theorem finds_iff (h : db.Reordered db') {owner : ι} {relation : String}
    {parent found : Option Record} :
    Finds m db owner relation parent found ↔ Finds m db' owner relation parent found := by
  unfold Finds
  simp only [h.links_iff]

theorem unfolds (h : db.Reordered db') {records : String → Option Record}
    (hunfolds : Unfolds m db g e records) : Unfolds m db' g e records := by
  obtain ⟨r, hr, hroot⟩ := hunfolds.root
  refine ⟨⟨r, (h.records e).mem_iff.1 hr, hroot⟩, fun segs s owner relation howner hrelation => ?_⟩
  exact h.finds_iff.1 (hunfolds.steps segs s owner relation howner hrelation)

theorem satisfies (h : db.Reordered db') {predicates : List Predicate}
    {records : String → Option Record} (hs : Satisfies m db g e predicates records) :
    Satisfies m db' g e predicates records := by
  refine ⟨h.unfolds hs.unfolds, ?_⟩
  unfold AllTrue Database.evaluation
  rw [h.engine]
  exact hs.allTrue

theorem satisfies_iff (h : db.Reordered db') {predicates : List Predicate}
    {records : String → Option Record} :
    Satisfies m db g e predicates records ↔ Satisfies m db' g e predicates records :=
  ⟨h.satisfies, h.symm.satisfies⟩

/-- The sort cells of the roots are the same on both databases. -/
theorem aspects_eq (h : db.Reordered db') (q : Query) : q.aspects m db g e = q.aspects m db' g e := by
  unfold Query.aspects
  simp only [h.satisfies_iff]

end Database.Reordered

namespace BoundQuery

variable [DecidableEq ι] {b : BoundQuery ι}

/-- Under a stable order a query that is not distinct lists the same roots in the same order whatever the
order of storage, on its page and under the limits of its session, wherever its statement is not
refused; or it has no statement to run, and fails with one and the same error. -/
theorem listing_of_reordered (hb : b.Built) (hm : b.session.mapping.Proper)
    (hstable : b.session.settings.stableOrdering = true) (hdistinct : b.query.distinct = false)
    {db db' : Database ι} (hdb : db.Apart b.session.mapping) (hreordered : db.Reordered db') :
    (∃ roots, b.Lists db roots ∧ b.Lists db' roots) ∨
    ∃ cause, b.toList db = .error cause ∧ b.toList db' = .error cause := by
  cases h : b.plan with
  | error cause =>
    refine .inr ⟨cause, ?_, ?_⟩ <;> rw [toList, ready, h] <;> rfl
  | ok p =>
    by_cases hconnected : b.session.connected = true
    · have hplanned := hb.planned hm h
      have haspects : b.aspects db = b.aspects db' := hreordered.aspects_eq b.query
      have hrenders' := hb.renders hm hdistinct h db'
      rw [← haspects] at hrenders'
      have hroots : p.roots b.session.mapping db = p.roots b.session.mapping db' :=
        (hb.renders hm hdistinct h db).roots_eq_roots hrenders' hdb (hreordered.apart hdb)
          (coversKey_sortTerms hstable) rfl rfl
      refine .inl ⟨_, lists_roots h hconnected hplanned.layout db, ?_⟩
      rw [hroots]
      exact lists_roots h hconnected hplanned.layout db'
    · refine .inr ⟨.missingMember Value.null.kindName "execute", ?_, ?_⟩ <;>
        rw [toList, ready, h] <;> simp only [Session.requireEngine, hconnected] <;> rfl

end BoundQuery

namespace Sample

/-- The records of the sample with the last of each table first. -/
def recordsBackwards : Database String := { records with records := fun e => (table e).reverse }

theorem records_reordered : records.Reordered recordsBackwards where
  records e := (List.reverse_perm (table e)).symm
  pairs _ := .refl _
  engine := rfl

theorem listing_of_reordered_writers : ∃ (b : BoundQuery String) (rows rows' : List Row),
    writersPage = .ok b ∧ b.toList records = .ok rows ∧ b.toList recordsBackwards = .ok rows' ∧
    ∃ roots, b.Lists records roots ∧ b.Lists recordsBackwards roots := by
  have hready : (do (← writersPage).ready records .list).isOk = true := by decide +kernel
  have hready' : (do (← writersPage).ready recordsBackwards .list).isOk = true := by decide +kernel
  obtain ⟨p, hp⟩ := Except.exists_of_isOk hready
  obtain ⟨b, hb, hp⟩ := Except.bind_eq_ok.1 hp
  rw [hb] at hready'
  obtain ⟨p', hp'⟩ := Except.exists_of_isOk hready'
  obtain ⟨hbuilt, hsession, hdistinct⟩ := writersPage_built hb
  have hproper : b.session.mapping.Proper := hsession ▸ proper
  have hapart : records.Apart b.session.mapping := by rw [hsession]; exact records_apart
  obtain ⟨roots, hlists, hlists'⟩ | ⟨cause, hcause, -⟩ := BoundQuery.listing_of_reordered hbuilt
    hproper (congrArg (·.settings.stableOrdering) hsession) hdistinct hapart records_reordered
  · obtain ⟨rows, hrows, -⟩ := hlists.exists_rows hp
    obtain ⟨rows', hrows', -⟩ := hlists'.exists_rows hp'
    exact ⟨b, rows, rows', hb, hrows, hrows', roots, hlists, hlists'⟩
  · obtain ⟨hplan, hconnected, -⟩ := BoundQuery.ready_eq_ok hp
    obtain ⟨rows, hrows, -⟩ := (BoundQuery.lists_roots hplan hconnected
      (hbuilt.planned hproper hplan).layout records).exists_rows hp
    cases hcause.symm.trans hrows

/-- As many users as there are integers of 64 bits below the sign, and one more. -/
def widePage : Except QueryError (BoundQuery String) := do
  (← session.queryOn "User").take (.int 0x8000000000000000)

/-- A limit that is no integer of 64 bits is refused in either order, although the fifteen users stand
within it. -/
theorem wide_limit_refused : ∃ b : BoundQuery String,
    widePage = .ok b ∧ b.plan.isOk = true ∧ b.count records = .ok 15 ∧
      b.toList records = .error .integerTooLarge ∧
      b.toList recordsBackwards = .error .integerTooLarge := by
  have hcount : (do (← widePage).count records).toOption = some 15 := by decide +kernel
  have hrefused : (do (← widePage).toList records) = .error .integerTooLarge :=
    eq_integerTooLarge (by decide +kernel)
  have hbackwards : (do (← widePage).toList recordsBackwards) = .error .integerTooLarge :=
    eq_integerTooLarge (by decide +kernel)
  obtain ⟨b, p, hb, hp, hcount⟩ := exists_counted hcount
  rw [hb] at hrefused hbackwards
  exact ⟨b, hb, by rw [hp]; rfl, hcount, hrefused, hbackwards⟩

end Sample

end EntityQuery
