import EntityQuery.Proofs.Session.Connectives
import EntityQuery.Proofs.Session.Scope

/-! Filters in a row. A further filter leaves some of the roots that a query matched and adds none, and
the order of filters does not matter. The predicates share their joins, so that both have to hold for one
and the same related record. Counts and tests for any agree wherever their statements are not refused. -/

namespace EntityQuery

variable {ι : Type} [DecidableEq ι]

namespace BoundQuery

variable {b c₁ c₁₂ c₂ c₂₁ : BoundQuery ι} {p₁ p₁₂ p₂₁ : QueryPlan ι} {db : Database ι}
variable {data data' : Value}

/-- A query `c'` with the plan `p'` that narrows the query `c` with the plan `p`. -/
structure Narrows (c c' : BoundQuery ι) (db : Database ι) (p p' : QueryPlan ι) : Prop where
  matching : p'.matching c.session.mapping db ⊆ p.matching c.session.mapping db
  tells : c.session.connected = true → db.Keyed c.session.mapping →
    c.Tells db p ∧ c'.Tells db p'
  count : c.session.connected = true → db.Keyed c.session.mapping → ∃ n n',
    c.count db = db.run c.session.mapping (.count p.whole) n ∧
    c'.count db = db.run c.session.mapping (.count p'.whole) n' ∧ n' ≤ n
  any : c.session.connected = true → ∃ found found',
    c.any db = db.run c.session.mapping (.any p.whole) found ∧
    c'.any db = db.run c.session.mapping (.any p'.whole) found' ∧ (found' = true → found = true)

/-- Queries `c` and `c'` with the plans `p` and `p'` that are as good as one another. -/
structure Concurs (c c' : BoundQuery ι) (db : Database ι) (p p' : QueryPlan ι) : Prop where
  matching : p.matching c.session.mapping db = p'.matching c.session.mapping db
  tells : c.session.connected = true → db.Keyed c.session.mapping →
    c.Tells db p ∧ c'.Tells db p'
  count : c.session.connected = true → db.Keyed c.session.mapping → ∃ n,
    c.count db = db.run c.session.mapping (.count p.whole) n ∧
    c'.count db = db.run c.session.mapping (.count p'.whole) n
  any : c.session.connected = true → ∃ found,
    c.any db = db.run c.session.mapping (.any p.whole) found ∧
    c'.any db = db.run c.session.mapping (.any p'.whole) found
  /-- A stable order does not even leave the order of the roots open. -/
  lists : c.session.connected = true → c.session.settings.stableOrdering = true →
    c.query.distinct = false → db.Apart c.session.mapping →
    ∃ roots, c.Lists db roots ∧ c'.Lists db roots

/-- A filtered query narrows the query that it was made of. -/
theorem Built.narrows (hb : b.Built) (hm : b.session.mapping.Proper) (h : b.filtered data = .ok c₁)
    {p p₁ : QueryPlan ι} (hp : b.plan = .ok p) (hp₁ : c₁.plan = .ok p₁) (db : Database ι) :
    b.Narrows c₁ db p p₁ := by
  obtain ⟨hsession, -⟩ := filtered_session h
  have hb₁ := hb.filtered h
  have hplanned := hb.planned hm hp
  have hplanned₁ := hb₁.planned (hsession ▸ hm) hp₁
  have hmatching : p₁.matching b.session.mapping db ⊆ p.matching b.session.mapping db := by
    rw [hb.matching_eq hm hp db, ← hsession, hb₁.matching_eq (hsession ▸ hm) hp₁ db]
    exact selected_filtered_subset h db
  constructor
  case matching => exact hmatching
  case tells =>
    exact fun hconnected hdb =>
      ⟨hb.tells hm hconnected hdb hp, hb.tells_filtered hm h hp₁ hconnected hdb⟩
  case count =>
    intro hconnected hdb
    have hfinite : (p.matching b.session.mapping db).Finite :=
      (List.finite_toSet (db p.entity)).subset fun r hr => QueryPlan.matching_subset hr
    have hcount := count_eq hp₁ (hsession ▸ hconnected) db
    rw [hsession] at hcount
    refine ⟨_, _, count_eq hp hconnected db, hcount, ?_⟩
    rw [← hsession, hplanned₁.scope.count_eq (hsession ▸ hdb), hsession,
      hplanned.scope.count_eq hdb]
    exact Set.ncard_le_ncard hmatching hfinite
  case any =>
    intro hconnected
    have hany := any_eq hp₁ (hsession ▸ hconnected) db
    rw [hsession] at hany
    refine ⟨_, _, any_eq hp hconnected db, hany, fun hfound => ?_⟩
    exact hplanned.scope.any_iff.2 ((hplanned₁.scope.any_iff.1 hfound).mono hmatching)

/-- Two queries that differ in the order of their predicates concur. -/
theorem Built.concurs {q q' : Query} (hb : Built { b with query := q })
    (hb' : Built { b with query := q' }) (hm : b.session.mapping.Proper)
    (hpredicates : ∀ p, p ∈ q.predicates ↔ p ∈ q'.predicates)
    (hothers : { q with predicates := [] } = { q' with predicates := [] }) {p p' : QueryPlan ι}
    (hp : plan { b with query := q } = .ok p) (hp' : plan { b with query := q' } = .ok p')
    (db : Database ι) : Concurs { b with query := q } { b with query := q' } db p p' := by
  have hplanned := hb.planned hm hp
  have hplanned' := hb'.planned hm hp'
  have hmatching : p.matching b.session.mapping db = p'.matching b.session.mapping db :=
    (hb.matching_eq hm hp db).trans
      ((Query.selected_congr hpredicates).trans (hb'.matching_eq hm hp' db).symm)
  obtain ⟨predicates, inclusions, selections, order, offset, limit, distinct⟩ := q
  obtain ⟨predicates', inclusions', selections', order', offset', limit', distinct'⟩ := q'
  obtain ⟨-, rfl, rfl, rfl, rfl, rfl, rfl⟩ := Query.mk.inj hothers
  constructor
  case matching => exact hmatching
  case tells =>
    exact fun hconnected hdb => ⟨hb.tells hm hconnected hdb hp, hb'.tells hm hconnected hdb hp'⟩
  case count =>
    intro hconnected hdb
    have hcount : p.count b.session.mapping db = p'.count b.session.mapping db := by
      rw [hplanned.scope.count_eq hdb, hplanned'.scope.count_eq hdb, hmatching]
    refine ⟨_, count_eq hp hconnected db, ?_⟩
    rw [hcount]
    exact count_eq hp' hconnected db
  case any =>
    intro hconnected
    have hfound : p.any b.session.mapping db = p'.any b.session.mapping db := by
      rw [Bool.eq_iff_iff, hplanned.scope.any_iff, hplanned'.scope.any_iff, hmatching]
    refine ⟨_, any_eq hp hconnected db, ?_⟩
    rw [hfound]
    exact any_eq hp' hconnected db
  case lists =>
    intro hconnected hstable hdistinct hdb
    have hrenders' := hb'.renders hm hdistinct hp' db
    have haspects : BoundQuery.aspects { b with query := ⟨predicates', _, _, _, _, _, _⟩ } db =
        BoundQuery.aspects { b with query := ⟨predicates, _, _, _, _, _, _⟩ } db :=
      (Query.aspects_congr hpredicates).symm
    rw [haspects] at hrenders'
    have hroots : p.roots b.session.mapping db = p'.roots b.session.mapping db :=
      (hb.renders hm hdistinct hp db).roots_eq_roots hrenders' hdb hdb (coversKey_sortTerms hstable)
        (hplanned.offset.trans hplanned'.offset.symm) (hplanned.limit.trans hplanned'.limit.symm)
    refine ⟨_, lists_roots hp hconnected hplanned.layout db, ?_⟩
    change Lists _ db (p.roots b.session.mapping db)
    rw [hroots]
    exact lists_roots hp' hconnected hplanned'.layout db

/-- A second filter narrows what the first one has left, and two filters in either order concur. -/
theorem filters_narrow_and_commute (hb : b.Built) (hm : b.session.mapping.Proper)
    (h₁ : b.filtered data = .ok c₁) (h₁₂ : c₁.filtered data' = .ok c₁₂)
    (h₂ : b.filtered data' = .ok c₂) (h₂₁ : c₂.filtered data = .ok c₂₁)
    (hp₁ : c₁.plan = .ok p₁) (hp₁₂ : c₁₂.plan = .ok p₁₂) (hp₂₁ : c₂₁.plan = .ok p₂₁)
    (db : Database ι) : c₁.Narrows c₁₂ db p₁ p₁₂ ∧ c₁₂.Concurs c₂₁ db p₁₂ p₂₁ := by
  have hb₁ := hb.filtered h₁
  have hb₁₂ := hb₁.filtered h₁₂
  have hb₂₁ := (hb.filtered h₂).filtered h₂₁
  refine ⟨hb₁.narrows ((filtered_session h₁).1 ▸ hm) h₁₂ hp₁ hp₁₂ db, ?_⟩
  obtain ⟨q, hq, rfl⟩ := filtered_eq_ok h₁
  obtain ⟨q', hq', rfl⟩ := filtered_eq_ok h₂
  obtain ⟨r', hr', rfl⟩ := filtered_eq_ok h₁₂
  obtain ⟨r, hr, rfl⟩ := filtered_eq_ok h₂₁
  -- Both orders have read the same two predicates.
  obtain rfl : q = r := Except.ok.inj (hq.symm.trans hr)
  obtain rfl : q' = r' := Except.ok.inj (hq'.symm.trans hr')
  exact hb₁₂.concurs hb₂₁ hm Query.mem_predicates_addPredicate_comm rfl hp₁₂ hp₂₁ db

end BoundQuery

namespace Sample

/-- The authors of published posts under a title, asked for in either order: of the three authors of
published posts one is left. -/
theorem filters_narrow_and_commute_posting :
    ∃ (b c₁ c₁₂ c₂ c₂₁ : BoundQuery String) (p₁ p₁₂ p₂₁ : QueryPlan String),
      session.queryOn "User" = .ok b ∧ b.filtered (posting "published" (.bool true)) = .ok c₁ ∧
      c₁.filtered (posting "title" (.str "Hello")) = .ok c₁₂ ∧
      b.filtered (posting "title" (.str "Hello")) = .ok c₂ ∧
      c₂.filtered (posting "published" (.bool true)) = .ok c₂₁ ∧
      c₁.plan = .ok p₁ ∧ c₁₂.plan = .ok p₁₂ ∧ c₂₁.plan = .ok p₂₁ ∧
      c₁.count records = .ok 3 ∧ c₁₂.count records = .ok 1 ∧ c₂₁.count records = .ok 1 ∧
      c₁.Narrows c₁₂ records p₁ p₁₂ ∧ c₁₂.Concurs c₂₁ records p₁₂ p₂₁ := by
  obtain ⟨b, hb, hbuilt, hsession, -⟩ := exists_users
  have hpublished : (do
      (← (← session.queryOn "User").filtered (posting "published" (.bool true))).count
        records).toOption = some 3 := by decide +kernel
  have hone : (do
      let c₁ ← (← session.queryOn "User").filtered (posting "published" (.bool true))
      (← c₁.filtered (posting "title" (.str "Hello"))).count records).toOption = some 1 := by
    decide +kernel
  have hother : (do
      let c₂ ← (← session.queryOn "User").filtered (posting "title" (.str "Hello"))
      (← c₂.filtered (posting "published" (.bool true))).count records).toOption = some 1 := by
    decide +kernel
  rw [hb] at hpublished
  obtain ⟨c₁, p₁, h₁, hp₁, hcount₁⟩ := exists_counted hpublished
  obtain ⟨_, hb', hone⟩ := Except.bind_eq_ok.1 (Except.eq_ok_of_toOption hone)
  obtain rfl := Except.ok.inj (hb.symm.trans hb')
  obtain ⟨_, h₁', hone⟩ := Except.bind_eq_ok.1 hone
  obtain rfl := Except.ok.inj (h₁.symm.trans h₁')
  obtain ⟨c₁₂, p₁₂, h₁₂, hp₁₂, hcount₁₂⟩ := exists_counted (congrArg Except.toOption hone)
  obtain ⟨_, hb', hother⟩ := Except.bind_eq_ok.1 (Except.eq_ok_of_toOption hother)
  obtain rfl := Except.ok.inj (hb.symm.trans hb')
  obtain ⟨c₂, h₂, hother⟩ := Except.bind_eq_ok.1 hother
  obtain ⟨c₂₁, p₂₁, h₂₁, hp₂₁, hcount₂₁⟩ := exists_counted (congrArg Except.toOption hother)
  exact ⟨b, c₁, c₁₂, c₂, c₂₁, p₁, p₁₂, p₂₁, hb, h₁, h₁₂, h₂, h₂₁, hp₁, hp₁₂, hp₂₁, hcount₁, hcount₁₂,
    hcount₂₁, BoundQuery.filters_narrow_and_commute hbuilt (hsession ▸ proper) h₁ h₁₂ h₂ h₂₁ hp₁ hp₁₂
      hp₂₁ records⟩

end Sample

end EntityQuery
