import EntityQuery.Proofs.Session.Pages
import EntityQuery.Proofs.Session.Slices

/-! Asking for the only root of a query. The answer is read off the rows of at most two roots, whatever
number of rows the joins make of each. Where the settings bound results by one row, a second root is
never seen, and one of several is shown as if it were the only one. Where the statement that lists the two
is refused, there is no answer. -/

namespace EntityQuery

variable {ι : Type}

namespace Settings

/-- Two rows that are asked for are let through unless results are bounded by one. -/
theorem Valid.capped_two {s : Settings} (h : s.Valid) :
    s.capped 2 = if s.maxResults = some 1 then 1 else 2 := by
  unfold capped clamp
  split
  · next hmax => simp [hmax]
  · next hlimit => cases hlimit
  · next bound n hmax hlimit =>
    obtain rfl := Option.some.inj hlimit
    have hbound := h bound hmax
    simp only [hmax, Option.some.injEq, Option.getD_some]
    split <;> omega

theorem clamp_none {s : Settings} {bound : Int} (h : s.maxResults = some bound) :
    s.clamp none = some bound := by
  unfold clamp
  rw [h]

end Settings

variable [DecidableEq ι]

namespace QueryPlan

variable {m : Mapping ι} {db : Database ι} {p : QueryPlan ι}

/-- What a page shows depends on the page by the rows of the result alone. -/
theorem shapedRows_page_congr {offset limit : Option Int}
    (h : (p.page offset limit).resultRows m db = p.resultRows m db) :
    (p.page offset limit).shapedRows m db = p.shapedRows m db := by
  have hroots : (p.page offset limit).roots m db = p.roots m db := by
    unfold roots rootRows
    rw [h]
    rfl
  have hrelated : (p.page offset limit).related? m = p.related? m := rfl
  have hassemble : ∀ r, (p.page offset limit).assemble m (p.resultRows m db) p.entity r
      p.layout.branches = p.assemble m (p.resultRows m db) p.entity r p.layout.branches := fun r =>
    congrArg (columnValues m p.entity r ++ ·) (assembleAll_congr hrelated _ _ r _)
  unfold shapedRows
  dsimp only
  rw [hroots, h]
  exact congrArg (List.mapM · _) (funext fun r => congrArg p.layout.shape (hassemble r))

end QueryPlan

namespace BoundQuery

variable {b : BoundQuery ι} {p : QueryPlan ι} {db : Database ι}

/-- The plan of a query that is limited to two roots. -/
theorem plan_limited_two (hoffset : b.query.offset = none) (hlimit : b.query.limit = none)
    (h : b.plan = .ok p) :
    (b.limited 2).plan = .ok (p.page none (some (b.session.settings.capped 2))) := by
  rw [limited_eq_paged hoffset hlimit, plan_paged_clamped h, Settings.clamp_some]

/-- Limiting a query to two roots changes no rows where no more than one matches, nor where the settings
bound results by one anyway. -/
theorem Built.shapedRows_limited_two (hb : b.Built) (hm : b.session.mapping.Proper)
    (hsettings : b.session.settings.Valid) (hdb : db.Keyed b.session.mapping)
    (hoffset : b.query.offset = none) (hlimit : b.query.limit = none) (h : b.plan = .ok p)
    (hfew : p.count b.session.mapping db ≤ 1 ∨ b.session.settings.maxResults = some 1) :
    (p.page none (some (b.session.settings.capped 2))).shapedRows b.session.mapping db =
      p.shapedRows b.session.mapping db := by
  have hself := (hb.planned hm h).page_eq hoffset
  rw [hlimit] at hself
  refine QueryPlan.shapedRows_page_congr (m := b.session.mapping) ?_
  rcases hfew with hcount | hone
  · have hbounded : ∀ n : Int, 1 ≤ n → (p.page none (some n)).resultRows b.session.mapping db =
        (p.page none none).resultRows b.session.mapping db := fun n hn =>
      QueryPlan.resultRows_page_of_count_le hdb (by omega)
    rw [hbounded _ (hsettings.capped_pos (by decide))]
    conv_rhs => rw [← hself]
    cases hmax : b.session.settings.maxResults with
    | none => rw [clamp_of_unbounded hmax]
    | some bound => rw [Settings.clamp_none hmax, hbounded bound (hsettings bound hmax)]
  · have hcapped : b.session.settings.capped 2 = 1 := by rw [hsettings.capped_two, if_pos hone]
    rw [hcapped, ← Settings.clamp_none hone, hself]

/-- The rows that are read to find out whether a root is the only one: one for each root that matches,
and no more than two. -/
theorem Built.exists_rows_limited_two (hb : b.Built) (hm : b.session.mapping.Proper)
    (hsettings : b.session.settings.Valid) (hdb : db.Keyed b.session.mapping) (h : b.plan = .ok p) :
    ∃ rows, (p.page none (some (b.session.settings.capped 2))).shapedRows b.session.mapping db =
        .ok rows ∧
      rows.length = min (if b.session.settings.maxResults = some 1 then 1 else 2)
        (p.matching b.session.mapping db).ncard := by
  have hplanned := hb.planned hm h
  have hpaged : (none : Option Int).isSome || (some (b.session.settings.capped 2)).isSome := rfl
  obtain ⟨rows, hrows, hshown⟩ := QueryPlan.exists_shapedRows
    (p := p.page none (some (b.session.settings.capped 2))) db hplanned.layout
  refine ⟨rows, hrows, ?_⟩
  rw [← hshown.length_eq, ← List.length_map,
    (hplanned.scope.keys_page_perm hdb hpaged).length_eq, pageOf, List.length_take,
    (p.pageOrder_perm hdb).length_eq, hsettings.capped_two, ← hplanned.scope.count_eq hdb,
    QueryPlan.count]
  split <;> rfl

/-- A query shows one of its roots as the only one, and lists it alone unless that is refused. -/
def ShowsOnly (b : BoundQuery ι) (db : Database ι) (p : QueryPlan ι) (r : Record) : Prop :=
  ∃ row, p.Shows b.session.mapping db r row ∧
    b.toList db = db.run b.session.mapping (.list p) [row] ∧
    b.single? db = .ok (some row) ∧ b.single db = .ok row

/-- How asking for the only root of a query with the plan `p` is decided. -/
structure Decides (b : BoundQuery ι) (db : Database ι) (p : QueryPlan ι) : Prop where
  noEntity : b.single db = .error (.noEntity b.entity.name) ↔ p.matching b.session.mapping db = ∅
  severalEntities : b.single db = .error (.severalEntities b.entity.name) ↔
    2 ≤ (p.matching b.session.mapping db).ncard ∧ b.session.settings.maxResults ≠ some 1
  unique : ∀ r, p.matching b.session.mapping db = {r} → b.ShowsOnly db p r
  unseen : 2 ≤ (p.matching b.session.mapping db).ncard → b.session.settings.maxResults = some 1 →
    ∃ r ∈ p.matching b.session.mapping db, b.ShowsOnly db p r
  none : p.matching b.session.mapping db = ∅ → b.single? db = .ok none
  some : (p.matching b.session.mapping db).Nonempty → b.single? db = some <$> b.single db

/-- What asking for the only root can come to. -/
inductive Verdict (b : BoundQuery ι) (db : Database ι) (p : QueryPlan ι) : Prop
  | empty (hempty : p.matching b.session.mapping db = ∅) (h : b.single? db = .ok none)
  | one {r : Record} (hr : r ∈ p.matching b.session.mapping db)
    (hfew : (p.matching b.session.mapping db).ncard ≤ 1 ∨ b.session.settings.maxResults = some 1)
    (h : b.ShowsOnly db p r)
  | several (hcount : 2 ≤ (p.matching b.session.mapping db).ncard)
    (hmax : b.session.settings.maxResults ≠ some 1)
    (h : b.single? db = .error (.severalEntities b.entity.name))

/-- The only one of some rows. -/
def onlyOf (b : BoundQuery ι) : List Row → Except QueryError (Option Row)
  | [] => .ok none
  | [row] => .ok (some row)
  | _ :: _ :: _ => .error (.severalEntities b.entity.name)

/-- The row that was found, which there has to be. -/
def required (b : BoundQuery ι) : Option Row → Except QueryError Row
  | some row => .ok row
  | none => .error (.noEntity b.entity.name)

theorem single?_of_rows {rows : List Row} (h : (b.limited 2).toList db = .ok rows) :
    b.single? db = b.onlyOf rows := by
  rw [single?, h]
  match rows with
  | [] | [_] | _ :: _ :: _ => rfl

theorem single_eq (b : BoundQuery ι) (db : Database ι) :
    b.single db = b.single? db >>= b.required :=
  congrArg (b.single? db >>= ·) (funext fun found => by cases found <;> rfl)

/-- The verdict follows from the rows that are read. -/
theorem Built.verdict (hb : b.Built) (hm : b.session.mapping.Proper)
    (hconnected : b.session.connected = true) (hsettings : b.session.settings.Valid)
    (hdb : db.Keyed b.session.mapping) (hoffset : b.query.offset = none)
    (hlimit : b.query.limit = none) (h : b.plan = .ok p)
    (hruns : db.Runs b.session.mapping
      (.list (p.page none (some (b.session.settings.capped 2))))) : b.Verdict db p := by
  have hplanned := hb.planned hm h
  have hcount := hplanned.scope.count_eq hdb
  obtain ⟨rows, hrows, hlength⟩ := hb.exists_rows_limited_two hm hsettings hdb h
  have hread := single?_of_rows
    ((toList_eq (plan_limited_two hoffset hlimit h) hconnected hrows).trans (hruns.run_eq rows))
  match rows with
  | [] =>
    have hfinite : (p.matching b.session.mapping db).Finite :=
      (List.finite_toSet (db p.entity)).subset fun r hr => QueryPlan.matching_subset hr
    refine .empty ((Set.ncard_eq_zero hfinite).1 ?_) hread
    rw [List.length_nil] at hlength
    split at hlength <;> omega
  | [row] =>
    have hfew : (p.matching b.session.mapping db).ncard ≤ 1 ∨
        b.session.settings.maxResults = some 1 := by
      rw [List.length_singleton] at hlength
      split at hlength
      · next hone => exact .inr hone
      · exact .inl (by omega)
    have hlisted :=
      hb.shapedRows_limited_two hm hsettings hdb hoffset hlimit h (hcount ▸ hfew)
    rw [hlisted] at hrows
    obtain ⟨rows, hrows', hshown⟩ := QueryPlan.exists_shapedRows db hplanned.layout
    obtain rfl := Except.ok.inj (hrows'.symm.trans hrows)
    obtain ⟨r, rest, hshows, -, hr⟩ := List.forall₂_cons_right_iff.1 hshown
    have hmem : r ∈ p.roots b.session.mapping db := hr ▸ List.mem_cons_self
    exact .one (hplanned.scope.roots_subset hmem) hfew
      ⟨row, hshows, toList_eq h hconnected hrows, hread, by rw [single_eq, hread]; rfl⟩
  | _ :: _ :: _ =>
    rw [List.length_cons, List.length_cons] at hlength
    split at hlength
    · omega
    · next hmax => exact .several (by omega) hmax hread

theorem Verdict.decides (hverdict : b.Verdict db p) : b.Decides db p := by
  cases hverdict with
  | empty hempty hread =>
    have hsingle : b.single db = .error (.noEntity b.entity.name) := by
      rw [single_eq, hread]
      rfl
    have hcount : (p.matching b.session.mapping db).ncard = 0 := by rw [hempty, Set.ncard_empty]
    constructor
    case noEntity => exact iff_of_true hsingle hempty
    case severalEntities => exact iff_of_false (by simp [hsingle]) (by omega)
    case unique => exact fun r hr => absurd (hempty.symm.trans hr) (Set.singleton_ne_empty r).symm
    case unseen => intro hmany; omega
    case none => exact fun _ => hread
    case some => exact fun hne => absurd hempty hne.ne_empty
  | @one r hr hfew hshows =>
    obtain ⟨row, -, -, hread, hsingle⟩ := id hshows
    have hne : p.matching b.session.mapping db ≠ ∅ := Set.Nonempty.ne_empty ⟨r, hr⟩
    constructor
    case noEntity => exact iff_of_false (by simp [hsingle]) hne
    case severalEntities =>
      refine iff_of_false (by simp [hsingle]) fun ⟨hmany, hmax⟩ => ?_
      exact hfew.elim (fun hone => absurd hmany (by omega)) hmax
    case unique =>
      intro r' hr'
      rw [hr', Set.mem_singleton_iff] at hr
      exact hr ▸ hshows
    case unseen => exact fun _ _ => ⟨r, hr, hshows⟩
    case none => exact fun hempty => absurd hempty hne
    case some => exact fun _ => by rw [hread, hsingle]; rfl
  | several hmany hmax hread =>
    have hsingle : b.single db = .error (.severalEntities b.entity.name) := by
      rw [single_eq, hread]
      rfl
    have hne : p.matching b.session.mapping db ≠ ∅ := fun hempty => by
      rw [hempty, Set.ncard_empty] at hmany
      omega
    constructor
    case noEntity => exact iff_of_false (by simp [hsingle]) hne
    case severalEntities => exact iff_of_true hsingle ⟨hmany, hmax⟩
    case unique =>
      intro r hr
      rw [hr, Set.ncard_singleton] at hmany
      omega
    case unseen => exact fun _ hone => absurd hone hmax
    case none => exact fun hempty => absurd hempty hne
    case some => exact fun _ => by rw [hread, hsingle]; rfl

/-- Asking for the only root is decided by the roots that match: none is refused and so are several, but
for settings that bound results by one. It rests on one statement, which lists two roots; where this is
refused, so is the answer. -/
theorem single_decides (hb : b.Built) (hm : b.session.mapping.Proper)
    (hconnected : b.session.connected = true) (hsettings : b.session.settings.Valid)
    (hdb : db.Keyed b.session.mapping) (hoffset : b.query.offset = none)
    (hlimit : b.query.limit = none) (h : b.plan = .ok p) :
    ∃ p₂, (b.limited 2).plan = .ok p₂ ∧
      (db.Runs b.session.mapping (.list p₂) → b.Decides db p) ∧
      ∀ refusal, db.accept b.session.mapping (.list p₂) = .error refusal →
        b.single? db = .error refusal ∧ b.single db = .error refusal := by
  have hplan := plan_limited_two hoffset hlimit h
  refine ⟨_, hplan, fun hruns => ?_, fun refusal hrefused => ?_⟩
  · exact (hb.verdict hm hconnected hsettings hdb hoffset hlimit h hruns).decides
  · obtain ⟨rows, hrows, -⟩ := hb.exists_rows_limited_two hm hsettings hdb h
    have hlisted : (b.limited 2).toList db = .error refusal :=
      (toList_eq hplan hconnected hrows).trans (Database.run_eq_error hrefused rows)
    have hread : b.single? db = .error refusal := by
      rw [single?, hlisted]
      rfl
    exact ⟨hread, by rw [single_eq, hread]; rfl⟩

end BoundQuery

namespace Sample

/-- The session of the sample, with other settings. -/
def sessionUnder (settings : Settings) : Session String := { session with settings }

/-- All users, in a session with some settings. -/
def usersUnder (settings : Settings) : Except QueryError (BoundQuery String) :=
  (sessionUnder settings).queryOn "User"

theorem exists_usersUnder (settings : Settings)
    (hcount : (do (← usersUnder settings).count records).toOption = some 15)
    (hready : (do ((← usersUnder settings).limited 2).ready records .list).isOk = true) :
    ∃ (b : BoundQuery String) (p p₂ : QueryPlan String), usersUnder settings = .ok b ∧ b.Built ∧
      b.session = sessionUnder settings ∧ b.query = .empty ∧ b.plan = .ok p ∧
      (p.matching b.session.mapping records).ncard = 15 ∧ (b.limited 2).plan = .ok p₂ ∧
      records.Runs b.session.mapping (.list p₂) := by
  obtain ⟨b, p, hb, hp, hcount⟩ := exists_counted hcount
  have hbuilt : b.Built := .fresh hb
  have hquery : b.session = sessionUnder settings ∧ b.query = .empty := by
    obtain ⟨e, -, rfl⟩ := BoundQuery.queryOn_eq_ok hb
    exact ⟨rfl, rfl⟩
  have hkeyed : records.Keyed b.session.mapping := hquery.1 ▸ records_keyed
  have hconnected : b.session.connected = true := by rw [hquery.1]; rfl
  rw [hb] at hready
  obtain ⟨p₂, hready⟩ := Except.exists_of_isOk hready
  obtain ⟨hplan, -, hruns⟩ := BoundQuery.ready_eq_ok hready
  refine ⟨b, p, p₂, hb, hbuilt, hquery.1, hquery.2, hp, ?_, hplan, hruns⟩
  rw [← (hbuilt.planned (hquery.1 ▸ proper) hp).scope.count_eq hkeyed]
  exact (Database.run_eq_ok_iff.1
    ((BoundQuery.count_eq hp hconnected records).symm.trans hcount)).2.symm

/-- There are fifteen users, so that none is the only one. But where results are bounded by one row, the
first of them is taken for it. -/
theorem single_decides_users :
    (∃ b : BoundQuery String, usersUnder .usual = .ok b ∧
      b.single records = .error (.severalEntities b.entity.name)) ∧
    ∃ (b : BoundQuery String) (p : QueryPlan String) (r : Record),
      usersUnder { Settings.usual with maxResults := some 1 } = .ok b ∧
      (p.matching b.session.mapping records).ncard = 15 ∧ b.ShowsOnly records p r := by
  constructor
  · obtain ⟨b, p, p₂, hb, hbuilt, hsession, hquery, hp, hcount, hplan, hruns⟩ :=
      exists_usersUnder .usual (by decide +kernel) (by decide +kernel)
    have hvalid : b.session.settings.Valid := by
      rw [hsession]
      exact fun bound hbound => by cases hbound
    have hkeyed : records.Keyed b.session.mapping := hsession ▸ records_keyed
    obtain ⟨_, hplan', hdecides, -⟩ := BoundQuery.single_decides hbuilt (hsession ▸ proper)
      (congrArg Session.connected hsession) hvalid hkeyed
      (congrArg Query.offset hquery) (congrArg Query.limit hquery) hp
    obtain rfl := Except.ok.inj (hplan.symm.trans hplan')
    refine ⟨b, hb, (hdecides hruns).severalEntities.2 ⟨by omega, ?_⟩⟩
    rw [hsession]
    exact fun hone => by cases hone
  · obtain ⟨b, p, p₂, hb, hbuilt, hsession, hquery, hp, hcount, hplan, hruns⟩ :=
      exists_usersUnder { Settings.usual with maxResults := some 1 } (by decide +kernel)
        (by decide +kernel)
    have hone : b.session.settings.maxResults = some 1 :=
      congrArg (·.settings.maxResults) hsession
    have hvalid : b.session.settings.Valid := fun bound hbound =>
      (Option.some.inj (hone.symm.trans hbound)).le
    have hkeyed : records.Keyed b.session.mapping := hsession ▸ records_keyed
    obtain ⟨_, hplan', hdecides, -⟩ := BoundQuery.single_decides hbuilt (hsession ▸ proper)
      (congrArg Session.connected hsession) hvalid hkeyed
      (congrArg Query.offset hquery) (congrArg Query.limit hquery) hp
    obtain rfl := Except.ok.inj (hplan.symm.trans hplan')
    obtain ⟨r, -, hshows⟩ := (hdecides hruns).unseen (by omega) hone
    exact ⟨b, p, r, hb, hcount, hshows⟩

end Sample

end EntityQuery
