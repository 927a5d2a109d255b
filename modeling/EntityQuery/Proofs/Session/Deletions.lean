import EntityQuery.Proofs.Session.Scope
import EntityQuery.Proofs.Session.Windows

/-! Deletions against listings. What is deleted by a key path is what the narrowed query would list
without its page: deletions go by the keys that match, so that skipping and taking do not limit them. -/

namespace EntityQuery

variable {ι : Type} [DecidableEq ι]

namespace BoundQuery

variable {b c : BoundQuery ι} {p : QueryPlan ι} {db : Database ι}

theorem deleteBy_eq {path : String} {value : Value} (h : b.byPath path value = .ok c)
    (db : Database ι) : b.deleteBy db path value = c.deleteAll db := by
  rw [deleteBy, h]
  rfl

theorem byPath_paged {path : String} {value : Value} (h : b.byPath path value = .ok c)
    (offset limit : Option Int) : (b.paged offset limit).byPath path value = .ok (c.paged offset limit) := by
  obtain ⟨q, hq, rfl⟩ := filtered_eq_ok h
  exact Except.bind_eq_ok.2 ⟨q, hq, rfl⟩

/-- What deleting by a key path comes to where its statement is not refused: it removes just the `roots`
that the narrowed query `c` lists without a page. -/
structure Clears (b : BoundQuery ι) (db : Database ι) (path : String) (value : Value)
    (c : BoundQuery ι) (roots : List Record) : Prop where
  lists : (c.paged none none).Lists db roots
  erases : ∃ p n db', c.plan = .ok p ∧
    b.deleteBy db path value = db.run b.session.mapping (.delete p.whole) (n, db') ∧
    b.Erases db {r | r ∈ roots} n db'
  /-- Where the query has no page, these are the roots that it lists. -/
  unpaged : c.query.offset = none → c.query.limit = none → c.Lists db roots
  listed : ∃ shown ⊆ roots, c.Lists db shown
  pages : ∀ offset limit, (b.paged offset limit).deleteBy db path value = b.deleteBy db path value

theorem Built.exists_clears (hb : b.Built) (hm : b.session.mapping.Proper)
    (hconnected : b.session.connected = true) (hmax : b.session.settings.maxResults = none)
    (hdb : db.Keyed b.session.mapping) {path : String} {value : Value}
    (hc : b.byPath path value = .ok c) (h : c.plan = .ok p) :
    ∃ roots, b.Clears db path value c roots := by
  obtain ⟨hsession, -⟩ := filtered_session hc
  have hbuilt := hb.filtered hc
  rw [← hsession] at hm hconnected hmax hdb
  have hplanned := hbuilt.planned hm h
  have hunpaged := plan_paged hmax h none none
  have hmem : ∀ r, r ∈ (p.page none none).roots c.session.mapping db ↔
      r ∈ p.matching c.session.mapping db := fun r => by
    rw [(hplanned.scope.page none none).mem_roots_of_unpaged hdb rfl rfl, QueryPlan.matching_page]
  refine ⟨(p.page none none).roots c.session.mapping db, ?_⟩
  constructor
  case lists => exact lists_roots hunpaged hconnected hplanned.layout db
  case erases =>
    have hdelete := (deleteBy_eq hc db).trans (deleteAll_eq h hconnected db)
    rw [hsession] at hdelete
    refine ⟨p, _, _, h, hdelete, ?_⟩
    have hgone : {r | r ∈ (p.page none none).roots c.session.mapping db} = c.selected db := by
      rw [← hbuilt.matching_eq hm h db]
      exact Set.ext hmem
    rw [hgone, ← hsession]
    exact hb.erases_delete (hsession ▸ hm) (hsession ▸ hdb) hc h
  case unpaged =>
    intro hoffset hlimit
    have hself := hplanned.page_eq hoffset
    rw [hlimit, clamp_of_unbounded hmax] at hself
    rw [hself]
    exact lists_roots h hconnected hplanned.layout db
  case listed =>
    refine ⟨_, fun r hr => (hmem r).2 (hplanned.scope.roots_subset hr), ?_⟩
    exact lists_roots h hconnected hplanned.layout db
  case pages =>
    intro offset limit
    rw [deleteBy_eq (byPath_paged hc offset limit), deleteBy_eq hc, deleteAll_eq h hconnected,
      deleteAll_eq (plan_paged hmax h offset limit) hconnected]
    rfl

/-- Deleting by a key path removes what the narrowed query lists without its page, unless the statement is
refused, and nothing where the narrowed query has no plan. -/
theorem deleteBy_clears_unpaged (hb : b.Built) (hm : b.session.mapping.Proper)
    (hconnected : b.session.connected = true) (hmax : b.session.settings.maxResults = none)
    (hdb : db.Keyed b.session.mapping) {path : String} {value : Value}
    (hc : b.byPath path value = .ok c) :
    (∀ p, c.plan = .ok p → ∃ roots, b.Clears db path value c roots) ∧
      ∀ cause, c.plan = .error cause → b.deleteBy db path value = .error cause := by
  refine ⟨fun p h => hb.exists_clears hm hconnected hmax hdb hc h, fun cause h => ?_⟩
  rw [deleteBy_eq hc, deleteAll, ready, h]
  rfl

end BoundQuery

namespace Sample

/-- The first of all users. -/
def firstUser : Except QueryError (BoundQuery String) := do
  (← session.queryOn "User").take (.int 1)

theorem exists_firstUser : ∃ (b c : BoundQuery String) (p : QueryPlan String) (db' : Database String),
    firstUser = .ok b ∧ b.Built ∧ b.session = session ∧ b.byPath "age" (.int 40) = .ok c ∧
      c.query.offset = none ∧ c.query.limit = some 1 ∧ c.plan = .ok p ∧
      b.deleteBy records "age" (.int 40) = .ok (12, db') := by
  have hdeleted : (do
      let b ← firstUser
      return (← b.deleteBy records "age" (.int 40)).1).toOption = some 12 := by decide +kernel
  obtain ⟨b, hb, hdeleted⟩ := Except.bind_eq_ok.1 (Except.eq_ok_of_toOption hdeleted)
  obtain ⟨⟨n, db'⟩, hdelete, hn⟩ := Except.bind_eq_ok.1 hdeleted
  obtain rfl : n = 12 := Except.ok.inj hn
  obtain ⟨c, hc, hremoved⟩ := Except.bind_eq_ok.1 hdelete
  obtain ⟨p, hready, -⟩ := Except.bind_eq_ok.1 hremoved
  obtain ⟨hp, -⟩ := BoundQuery.ready_eq_ok hready
  obtain ⟨b₁, h₁, h₂⟩ := Except.bind_eq_ok.1 hb
  have hbuilt := (BoundQuery.Built.fresh h₁).take h₂
  obtain ⟨k, hk, h₂⟩ := Except.bind_eq_ok.1 h₂
  obtain rfl : 1 = k := Except.ok.inj hk
  obtain rfl := Except.ok.inj h₂
  obtain ⟨e, -, rfl⟩ := BoundQuery.queryOn_eq_ok h₁
  obtain ⟨q, -, rfl⟩ := BoundQuery.filtered_eq_ok hc
  exact ⟨_, _, p, db', hb, hbuilt, rfl, hc, rfl, rfl, hp, hdelete⟩

theorem deleteBy_clears_unpaged_users : ∃ (b c : BoundQuery String) (roots : List Record)
    (db' : Database String), firstUser = .ok b ∧ b.byPath "age" (.int 40) = .ok c ∧
      b.deleteBy records "age" (.int 40) = .ok (12, db') ∧ b.Clears records "age" (.int 40) c roots := by
  obtain ⟨b, c, p, db', hb, hbuilt, hsession, hc, -, -, hp, hdelete⟩ := exists_firstUser
  have hkeyed : records.Keyed b.session.mapping := hsession ▸ records_keyed
  obtain ⟨hplans, -⟩ := BoundQuery.deleteBy_clears_unpaged hbuilt (hsession ▸ proper)
    (congrArg Session.connected hsession) (congrArg (·.settings.maxResults) hsession) hkeyed hc
  obtain ⟨roots, hclears⟩ := hplans p hp
  exact ⟨b, c, roots, db', hb, hc, hdelete, hclears⟩

/-- One user is taken, and one of the twelve of an age is listed. The others are deleted as well. -/
theorem deleteBy_beyond_page : ∃ (b c : BoundQuery String) (roots : List Record)
    (db' : Database String) (r : Record), firstUser = .ok b ∧ b.byPath "age" (.int 40) = .ok c ∧
      c.Lists records roots ∧ b.deleteBy records "age" (.int 40) = .ok (12, db') ∧
      r ∈ records b.model ∧ r ∉ db' b.model ∧ r ∉ roots := by
  obtain ⟨b, c, p, db', hb, hbuilt, hsession, hc, hoffset, hlimit, hp, hdelete⟩ := exists_firstUser
  obtain ⟨hsession', hmodel⟩ := BoundQuery.filtered_session hc
  have hproper : b.session.mapping.Proper := hsession ▸ proper
  have hkeyed : records.Keyed b.session.mapping := hsession ▸ records_keyed
  have hconnected : c.session.connected = true := by rw [hsession', hsession]; rfl
  have hplanned := (hbuilt.filtered hc).planned (hsession' ▸ hproper) hp
  have herases := hbuilt.erases_delete hproper hkeyed hc hp
  obtain ⟨p', hp', hdeleted⟩ := BoundQuery.deleteAll_eq_ok
    ((BoundQuery.deleteBy_eq hc records).symm.trans hdelete)
  obtain rfl := Except.ok.inj (hp.symm.trans hp')
  rw [hdeleted] at herases
  have hmatching := (hbuilt.filtered hc).matching_eq (hsession' ▸ hproper) hp records
  have hone : (p.roots c.session.mapping records).length ≤ 1 := by
    have hmax : c.session.settings.maxResults = none := by rw [hsession', hsession]; rfl
    rw [← hplanned.page_eq hoffset, BoundQuery.clamp_of_unbounded hmax, hlimit]
    exact hplanned.scope.length_roots_page_le (hsession' ▸ hkeyed) none 1
  -- The one root that is listed cannot be all of the twelve.
  obtain ⟨r, hr, hunlisted⟩ : ∃ r ∈ c.selected records, r ∉ p.roots c.session.mapping records := by
    by_contra! hall
    have hsubset : c.selected records ⊆ (p.roots c.session.mapping records).toFinset := by
      rw [List.coe_toFinset]
      exact hall
    have hcard := Set.ncard_le_ncard hsubset (Finset.finite_toSet _)
    have hle := (p.roots c.session.mapping records).toFinset_card_le
    rw [← herases.number, Set.ncard_coe_finset] at hcard
    omega
  refine ⟨b, c, _, db', r, hb, hc, BoundQuery.lists_roots hp hconnected hplanned.layout records,
    hdelete, ?_, fun hkept => ((herases.gone r).1 hkept).2 hr, hunlisted⟩
  rw [← hmodel, ← hplanned.entity]
  exact QueryPlan.matching_subset (hmatching ▸ hr)

end Sample

end EntityQuery
