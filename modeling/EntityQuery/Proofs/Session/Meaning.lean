import EntityQuery.Proofs.Query.Meaning
import EntityQuery.Proofs.Session.Terminals

/-! The meaning of a query that is bound to a session: the roots that it selects and the cells that it
sorts them by. They do not depend on the page, nor on what the query includes or shows. -/

namespace EntityQuery

variable {ι : Type} [DecidableEq ι]

namespace BoundQuery

variable {b : BoundQuery ι} {p : QueryPlan ι}

/-- The sort keys of a query, completed by the primary key where the settings ask for it. -/
def sortTerms (b : BoundQuery ι) : List OrderTerm :=
  b.query.sortTerms b.session.graph b.model b.session.settings.stableOrdering

/-- The roots that a query selects. -/
def selected (b : BoundQuery ι) (db : Database ι) : Set Record :=
  b.query.selected b.session.mapping db b.session.graph b.model

/-- The sort cells of a root, one row of them for each of its unfoldings that the query matches. -/
def aspects (b : BoundQuery ι) (db : Database ι) : Record → Set (OrderTerm → Cell) :=
  b.query.aspects b.session.mapping db b.session.graph b.model

theorem Built.readOn_clamped (hb : b.Built) : b.clamped.ReadOn b.session.graph b.model :=
  ⟨hb.readOn.predicates, hb.readOn.inclusions⟩

theorem Built.wellFormed (hb : b.Built) (hm : b.session.mapping.Proper) {quote : String → String}
    (h : b.clamped.plan b.session.graph b.model (some b.rootAlias) b.session.operators quote
      b.session.settings.stableOrdering = .ok p) :
    p.WellFormed b.session.graph b.model quote b.clamped.predicates := by
  obtain ⟨c₁, c₂, c₃, c₄, filters, order, hstages, rfl⟩ := Query.plan_eq_ok.1 h
  exact hstages.wellFormed (hm.dotFree _) hb.readOn_clamped

theorem Built.matching_eq (hb : b.Built) (hm : b.session.mapping.Proper) (h : b.plan = .ok p)
    (db : Database ι) : p.matching b.session.mapping db = b.selected db := by
  obtain ⟨quote, h⟩ := plan_eq_ok h
  exact Query.matching_eq (q := b.clamped) (hb.wellFormed hm h) (hm.dotFree _) hb.readOn_clamped h

theorem Built.renders (hb : b.Built) (hm : b.session.mapping.Proper)
    (hdistinct : b.query.distinct = false) (h : b.plan = .ok p) (db : Database ι) :
    p.Renders b.session.mapping db b.model b.sortTerms (b.aspects db) := by
  obtain ⟨quote, h⟩ := plan_eq_ok h
  exact Query.renders_of_plan (q := b.clamped) (hb.wellFormed hm h) (hm.dotFree _)
    hb.readOn_clamped hdistinct h

theorem coversKey_sortTerms (hstable : b.session.settings.stableOrdering = true) :
    QueryPlan.CoversKey b.session.mapping b.model b.sortTerms := by
  rw [sortTerms, hstable]
  exact Query.coversKey_sortTerms b.model b.query

end BoundQuery

theorem Sample.records_apart : Sample.records.Apart Sample.mapping := by
  intro e
  change (table e).Pairwise _
  unfold table
  split <;> first | exact List.Pairwise.nil | decide +kernel

end EntityQuery
