import EntityQuery.Proofs.Session.Meaning
import EntityQuery.Proofs.Session.Windows

/-! Pages as slices of the listing. Roots are listed by their first rows, pages are cut by the extreme
cell of each sort key. Where every root has one row that is first under all sort keys at once, a page is
a slice of the listing; a key that mixes null with other cells, or several keys that pull apart, can make
the two orders differ. -/

namespace EntityQuery

variable {ι : Type} [DecidableEq ι]

namespace BoundQuery

variable {b : BoundQuery ι} {p : QueryPlan ι}

/-- Each root of a query has one aspect that is first under all sort keys. -/
def SettledRoots (b : BoundQuery ι) (db : Database ι) : Prop :=
  ∀ r ∈ b.selected db, Settled b.sortTerms (b.aspects db) r

/-- Roots are settled where at most one sort key is on a relation and that one is descending. -/
theorem Built.settledRoots (hb : b.Built) (hm : b.session.mapping.Proper)
    (hdistinct : b.query.distinct = false) {db : Database ι} (hdb : db.Keyed b.session.mapping)
    (h : b.plan = .ok p) {t₀ : OrderTerm} (hdescending : t₀.descending = true)
    (hone : ∀ t ∈ b.sortTerms, t.path ≠ "" → t = t₀) : b.SettledRoots db := by
  have hrenders := hb.renders hm hdistinct h db
  intro r hr
  have hr' : (b.aspects db r).Nonempty := Query.aspects_nonempty_iff.2 hr
  refine hrenders.settled_of_oneKey hdb hr' (fun f hf k hk t ht hne => ?_)
    (fun hascending => by rw [hdescending] at hascending; cases hascending)
  by_cases hpath : t.path = ""
  · exact hrenders.aspects_agree r f hf k hk t ht hpath
  · exact absurd (hone t ht hpath) hne

/-- The pages of a query are slices of some roots, and its first row shows the first of them, unless their
statements are refused. -/
structure Slices (b : BoundQuery ι) (db : Database ι) (roots : List Record) : Prop where
  slice : ∀ skipped taken, ∃ w, b.slice skipped taken = .ok w ∧
    w.Lists db ((roots.drop skipped).take taken)
  empty : roots = [] → ∃ p, (b.limited 1).plan = .ok p ∧
    b.first? db = db.run b.session.mapping (.list p) none
  first : ∀ r rest, roots = r :: rest → ∃ p row, (b.limited 1).plan = .ok p ∧
    b.first db = db.run b.session.mapping (.list p) row ∧ p.Shows b.session.mapping db r row

theorem first?_eq_of_lists_nil {db : Database ι} (h : (b.limited 1).Lists db []) :
    ∃ p, (b.limited 1).plan = .ok p ∧ b.first? db = db.run b.session.mapping (.list p) none := by
  obtain ⟨p, rows, hplan, hrows, -, hshown⟩ := h
  obtain rfl := List.forall₂_nil_left_iff.1 hshown
  refine ⟨p, hplan, ?_⟩
  rw [first?, hrows, Database.run_bind_pure]
  rfl

omit [DecidableEq ι] in
theorem limited_eq_paged (hoffset : b.query.offset = none) (hlimit : b.query.limit = none) (n : Int) :
    b.limited n = b.paged none (some n) := by
  rw [limited, hlimit]
  simp [modify, paged, Query.paginate, hoffset]

/-- The pages of a query are slices of the roots that it lists where these are settled, and exactly where
the roots are listed in the order in which they count for pages. -/
theorem pages_slice_listing (hb : b.Built) (hm : b.session.mapping.Proper)
    (hconnected : b.session.connected = true) (hstable : b.session.settings.stableOrdering = true)
    (hmax : b.session.settings.maxResults = none) (hdistinct : b.query.distinct = false)
    (hoffset : b.query.offset = none) (hlimit : b.query.limit = none) {db : Database ι}
    (hdb : db.Apart b.session.mapping) (h : b.plan = .ok p) :
    ∃ roots, b.Lists db roots ∧ (b.SettledRoots db → b.Slices db roots) ∧
      (b.Slices db roots ↔ roots.Pairwise (Precedes b.sortTerms (b.aspects db))) := by
  have hplanned := hb.planned hm h
  have hrenders := hb.renders hm hdistinct h db
  have hkey := coversKey_sortTerms (b := b) hstable
  have hoffset' := hplanned.offset.trans hoffset
  have hlimit' := hplanned.limit.trans ((clamp_of_unbounded hmax _).trans hlimit)
  have hslices : (p.roots b.session.mapping db).Pairwise (Precedes b.sortTerms (b.aspects db)) →
      b.Slices db (p.roots b.session.mapping db) := by
    intro hsorted
    have hpages : ∀ offset limit, (b.paged offset limit).Lists db
        (pageOf offset limit (p.roots b.session.mapping db)) := fun offset limit => by
      rw [← hrenders.roots_page hdb hkey hoffset' hlimit' hsorted offset limit]
      exact lists_roots (plan_paged hmax h offset limit) hconnected hplanned.layout db
    have hone : (b.limited 1).Lists db ((p.roots b.session.mapping db).take 1) := by
      rw [limited_eq_paged hoffset hlimit]
      exact hpages none (some 1)
    constructor
    case slice => exact fun skipped taken => ⟨_, slice_eq b skipped taken, hpages _ _⟩
    case empty =>
      intro hempty
      rw [hempty] at hone
      exact first?_eq_of_lists_nil hone
    case first =>
      intro r rest hroots
      rw [hroots] at hone
      exact first_eq_of_lists hone
  refine ⟨_, lists_roots h hconnected hplanned.layout db, fun hsettled => hslices ?_, ?_, hslices⟩
  · exact hrenders.precedes_of_settled hdb hoffset' hlimit' fun r hr =>
      hsettled r (Query.aspects_nonempty_iff.1 hr)
  · intro hcuts
    refine hrenders.precedes_of_roots_page hdb hoffset' hlimit' fun n => ?_
    obtain ⟨w, hw, p', -, hplan, -, hroots, -⟩ := hcuts.slice n 1
    obtain rfl := Except.ok.inj ((slice_eq b n 1).symm.trans hw)
    obtain rfl := Except.ok.inj ((plan_paged hmax h _ _).symm.trans hplan)
    exact hroots.symm

end BoundQuery

namespace Sample

theorem pages_slice_listing_users : ∃ (b : BoundQuery String) (roots : List Record) (rows : List Row),
    usersQuery = .ok b ∧ b.toList records = .ok rows ∧ b.Lists records roots ∧
      b.Slices records roots := by
  have hready : (do (← usersQuery).ready records .list).isOk = true := by decide +kernel
  have hkeys : (do
      let b ← usersQuery
      return (b.sortTerms, b.query.distinct)).toOption =
        some ([⟨"", "title", "posts", true⟩, ⟨"", "id", "", false⟩], false) := by decide +kernel
  obtain ⟨p, hready⟩ := Except.exists_of_isOk hready
  obtain ⟨b, hb, hready⟩ := Except.bind_eq_ok.1 hready
  obtain ⟨hp, -⟩ := BoundQuery.ready_eq_ok hready
  rw [hb] at hkeys
  obtain ⟨hterms, hdistinct⟩ := Prod.mk.inj (Option.some.inj hkeys)
  obtain ⟨hbuilt, hsession, hoffset, hlimit⟩ := usersQuery_built hb
  have hproper : b.session.mapping.Proper := hsession ▸ proper
  have hapart : records.Apart b.session.mapping := by rw [hsession]; exact records_apart
  have hone : ∀ t ∈ b.sortTerms, t.path ≠ "" → t = ⟨"", "title", "posts", true⟩ := by
    rw [hterms]
    decide
  have hsettled := hbuilt.settledRoots hproper hdistinct hapart.keyed hp rfl hone
  obtain ⟨roots, hlists, hslices, -⟩ := BoundQuery.pages_slice_listing hbuilt hproper
    (congrArg Session.connected hsession) (congrArg (·.settings.stableOrdering) hsession)
    (congrArg (·.settings.maxResults) hsession) hdistinct hoffset hlimit hapart hp
  obtain ⟨rows, hrows, -⟩ := hlists.exists_rows hready
  exact ⟨b, roots, rows, hb, hrows, hlists, hslices hsettled⟩

end Sample

end EntityQuery
