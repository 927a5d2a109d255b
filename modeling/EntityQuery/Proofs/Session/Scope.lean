import EntityQuery.Proofs.Session.Meaning

/-! What a query confines. Lookups and deletions narrow the query that they are called on, so that they
show and remove only roots which it selects. An update goes by the key of its record alone: what the
query has been narrowed to does not matter to it. -/

namespace EntityQuery

variable {ι : Type}

theorem Model.arrange_perm (m : Model ι) (table : List Record) : (m.arrange table).Perm table := by
  unfold arrange
  split
  · exact .refl _
  · exact List.mergeSort_perm _ _

variable [DecidableEq ι]

namespace BoundQuery

variable {b c : BoundQuery ι} {db db' : Database ι} {n : Nat} {row : Row}

/-! ### Narrowing -/

theorem selected_filtered_subset {data : Value} (h : b.filtered data = .ok c) (db : Database ι) :
    c.selected db ⊆ b.selected db := by
  obtain ⟨p, -, rfl⟩ := filtered_eq_ok h
  rintro r ⟨records, hsatisfies, hroot⟩
  exact ⟨records, ⟨hsatisfies.unfolds, (allTrue_append.1 hsatisfies.allTrue).1⟩, hroot⟩

theorem byKey_eq_ok {id : Value} (h : b.byKey id = .ok c) : ∃ data, b.filtered data = .ok c := by
  obtain ⟨key, -, h⟩ := Except.bind_eq_ok.1 h
  exact ⟨_, h⟩

/-! ### Limits -/

omit [DecidableEq ι] in
theorem take_eq_ok_nonneg {count : Value} (h : b.take count = .ok c) :
    ∃ n, 0 ≤ n ∧ c = b.modify (·.paginate (some n) none) := by
  obtain ⟨n, hn, h⟩ := Except.bind_eq_ok.1 h
  refine ⟨n, ?_, (Except.ok.inj h).symm⟩
  unfold readCount at hn
  split at hn
  · split at hn
    · cases hn
    · next hnonneg =>
      obtain rfl := Except.ok.inj hn
      omega
  · cases hn

theorem Built.limit_nonneg (hb : b.Built) : ∀ n, b.query.limit = some n → 0 ≤ n := by
  induction hb with
  | fresh h =>
    obtain ⟨e, -, rfl⟩ := queryOn_eq_ok h
    simp [Query.empty]
  | filtered _ h ih =>
    obtain ⟨p, -, rfl⟩ := filtered_eq_ok h
    exact ih
  | including _ h ih =>
    obtain ⟨is, -, rfl⟩ := including_eq_ok h
    exact ih
  | selecting _ h ih =>
    obtain ⟨ss, rfl⟩ := selecting_eq_ok h
    exact ih
  | orderBy _ _ _ ih => exact ih
  | thenBy _ _ _ ih => exact ih
  | distinct _ ih => exact ih
  | skip _ h ih =>
    obtain ⟨n, rfl⟩ := skip_eq_ok h
    exact ih
  | take _ h ih =>
    obtain ⟨n, hn, rfl⟩ := take_eq_ok_nonneg h
    rintro _ ⟨⟩
    exact hn

/-- A built query is built when it is limited further. -/
theorem Built.limited (hb : b.Built) {n : Int} (hn : 0 ≤ n) : (b.limited n).Built := by
  have htake : ∀ k : Int, 0 ≤ k → (b.modify (·.paginate (some k) none)).Built := by
    intro k hk
    have hread : readCount "take" (.int k) = .ok k := by
      rw [readCount, if_neg (by omega)]
      rfl
    exact hb.take (Except.bind_eq_ok.2 ⟨k, hread, rfl⟩)
  refine htake _ ?_
  cases hlimit : b.query.limit with
  | none => exact hn
  | some limit => exact le_min hn (hb.limit_nonneg limit hlimit)

/-! ### Lookups -/

/-- A row of a narrowed query that shows one of some roots. -/
def Reads (b : BoundQuery ι) (db : Database ι) (narrowed : Except QueryError (BoundQuery ι))
    (roots : Set Record) (row : Row) : Prop :=
  ∃ c p, narrowed = .ok c ∧ (c.limited 1).plan = .ok p ∧
    ∃ r ∈ roots, p.Shows b.session.mapping db r row

theorem Reads.mono {narrowed : Except QueryError (BoundQuery ι)} {roots roots' : Set Record}
    (h : b.Reads db narrowed roots row) (hsubset : roots ⊆ roots') : b.Reads db narrowed roots' row := by
  obtain ⟨c, p, hc, hplan, r, hr, hshows⟩ := h
  exact ⟨c, p, hc, hplan, r, hsubset hr, hshows⟩

/-- The first row of a query shows a root that the query selects. -/
theorem Built.exists_shown_of_first? (hb : b.Built) (hm : b.session.mapping.Proper)
    (h : b.first? db = .ok (some row)) :
    ∃ p, (b.limited 1).plan = .ok p ∧ ∃ r ∈ b.selected db, p.Shows b.session.mapping db r row := by
  obtain ⟨rows, hrows, h⟩ := Except.bind_eq_ok.1 h
  obtain ⟨p, hready, hshaped⟩ := Except.bind_eq_ok.1 hrows
  obtain ⟨hplan, -⟩ := ready_eq_ok hready
  have hbuilt := hb.limited (n := 1) (by omega)
  have hplanned := hbuilt.planned hm hplan
  obtain ⟨rows', hrows', hshown⟩ := QueryPlan.exists_shapedRows db hplanned.layout
  obtain rfl := Except.ok.inj (hrows'.symm.trans hshaped)
  obtain ⟨rest, rfl⟩ : ∃ rest, rows' = row :: rest := by
    have hhead : rows'.head? = some row := Except.ok.inj h
    cases rows' with
    | nil => cases hhead
    | cons first rest => exact ⟨rest, by rw [Option.some.inj hhead]⟩
  obtain ⟨r, roots, hr, -, hroots⟩ := List.forall₂_cons_right_iff.1 hshown
  have hroot : r ∈ p.roots (b.limited 1).session.mapping db := by
    rw [hroots]
    exact List.mem_cons_self
  exact ⟨p, hplan, r, (hbuilt.matching_eq hm hplan db).subset (hplanned.scope.roots_subset hroot), hr⟩

theorem first?_of_first (h : b.first db = .ok row) : b.first? db = .ok (some row) := by
  obtain ⟨found, hfound, h⟩ := Except.bind_eq_ok.1 h
  cases found with
  | none => cases h
  | some first =>
    obtain rfl := Except.ok.inj h
    exact hfound

theorem Built.reads (hb : b.Built) (hm : b.session.mapping.Proper) {data : Value}
    (hc : b.filtered data = .ok c) (h : c.first? db = .ok (some row)) :
    b.Reads db (.ok c) (c.selected db) row := by
  have hsession := (filtered_session hc).1
  obtain ⟨p, hplan, r, hr, hshows⟩ := (hb.filtered hc).exists_shown_of_first? (hsession ▸ hm) h
  exact ⟨c, p, rfl, hplan, r, hr, hsession ▸ hshows⟩

/-! ### Changes -/

/-- A database that lacks some roots, of which there are `n`, and is otherwise as it was. -/
structure Erases (b : BoundQuery ι) (db : Database ι) (gone : Set Record) (n : Nat)
    (db' : Database ι) : Prop where
  number : n = gone.ncard
  gone : ∀ r, r ∈ db' b.model ↔ r ∈ db b.model ∧ r ∉ gone
  order : (db' b.model).Sublist (db b.model)
  other : db.AlikeBeside b.model db'

/-- The deletion of a narrowed query erases what this selects. -/
theorem Built.erases_delete (hb : b.Built) (hm : b.session.mapping.Proper)
    (hdb : db.Keyed b.session.mapping) {data : Value} (hc : b.filtered data = .ok c)
    {p : QueryPlan ι} (hplan : c.plan = .ok p) :
    b.Erases db (c.selected db) (p.delete c.session.mapping db).1
      (p.delete c.session.mapping db).2 := by
  obtain ⟨hsession, hmodel⟩ := filtered_session hc
  have hbuilt := hb.filtered hc
  have hplanned := hbuilt.planned (hsession ▸ hm) hplan
  have hkeyed : db.Keyed c.session.mapping := hsession ▸ hdb
  have hremoves := hplanned.scope.delete_removes hkeyed
  have hentity : p.entity = b.model := hplanned.entity.trans hmodel
  have hmatching := hbuilt.matching_eq (hsession ▸ hm) hplan db
  rw [← hmatching]
  refine ⟨hremoves.number, ?_, ?_, ?_⟩ <;> rw [← hentity]
  · exact hremoves.gone
  · exact hremoves.order
  · exact hremoves.other

theorem deleteAll_eq_ok (h : c.deleteAll db = .ok (n, db')) :
    ∃ p, c.plan = .ok p ∧ p.delete c.session.mapping db = (n, db') := by
  obtain ⟨p, hready, h⟩ := Except.bind_eq_ok.1 h
  exact ⟨p, (ready_eq_ok hready).1, Except.ok.inj h⟩

/-- A database in which the records under a key, of which there are `n`, have new values. -/
structure Rewrites (b : BoundQuery ι) (db : Database ι) (key values : Row) (n : Nat)
    (db' : Database ι) : Prop where
  number : n = (db b.model).countP ((b.session.mapping.model b.model).hasKey key)
  records : (db' b.model).Perm ((db b.model).map fun r =>
    if (b.session.mapping.model b.model).hasKey key r then
      (b.session.mapping.model b.model).withValues values r
    else r)
  other : db.AlikeBeside b.model db'

theorem update_rewrites {id : Value} {values : Row} (h : b.update db id values = .ok (n, db')) :
    ∃ key, b.keyValues id = .ok key ∧ b.Rewrites db key values n db' := by
  unfold update at h
  dsimp only at h
  split at h
  · split at h <;> cases h
  · split at h
    · cases h
    · obtain ⟨key, hkey, h⟩ := Except.bind_eq_ok.1 h
      obtain ⟨_, -, h⟩ := Except.bind_eq_ok.1 h
      obtain ⟨rfl, rfl⟩ := Prod.mk.inj (Database.run_eq_ok_iff.1 h).2
      refine ⟨key, hkey, rfl, ?_, Database.alikeBeside_put db b.model _⟩
      rw [Database.put_self]
      exact Model.arrange_perm _ _

/-- The calls that run a narrowed query keep to some roots. -/
structure Keeps (b : BoundQuery ι) (db : Database ι) (narrowed : Except QueryError (BoundQuery ι))
    (roots : Set Record) : Prop where
  first : ∀ row, (do (← narrowed).first db) = .ok row → b.Reads db narrowed roots row
  first? : ∀ row, (do (← narrowed).first? db) = .ok (some row) → b.Reads db narrowed roots row
  deleteAll : ∀ n db', (do (← narrowed).deleteAll db) = .ok (n, db') →
    ∃ gone ⊆ roots, b.Erases db gone n db'

/-- Calls that run a narrowed query keep to what it selects. -/
theorem Built.keeps (hb : b.Built) (hm : b.session.mapping.Proper) (hdb : db.Keyed b.session.mapping)
    {narrowed : Except QueryError (BoundQuery ι)} {roots : Set Record}
    (hnarrowed : ∀ c, narrowed = .ok c → ∃ data, b.filtered data = .ok c)
    (hroots : ∀ c, narrowed = .ok c → c.selected db ⊆ roots) : b.Keeps db narrowed roots := by
  constructor
  case first =>
    intro row h
    obtain ⟨c, rfl, h⟩ := Except.bind_eq_ok.1 h
    obtain ⟨data, hdata⟩ := hnarrowed c rfl
    exact (hb.reads hm hdata (first?_of_first h)).mono (hroots c rfl)
  case first? =>
    intro row h
    obtain ⟨c, rfl, h⟩ := Except.bind_eq_ok.1 h
    obtain ⟨data, hdata⟩ := hnarrowed c rfl
    exact (hb.reads hm hdata h).mono (hroots c rfl)
  case deleteAll =>
    intro n db' h
    obtain ⟨c, rfl, h⟩ := Except.bind_eq_ok.1 h
    obtain ⟨data, hdata⟩ := hnarrowed c rfl
    obtain ⟨p, hplan, hdelete⟩ := deleteAll_eq_ok h
    have herases := hb.erases_delete hm hdb hdata hplan
    rw [hdelete] at herases
    exact ⟨_, hroots c rfl, herases⟩

/-- The calls that go by a key or by a key path keep to the roots that a query selects, but for an
update. -/
structure Confines (b : BoundQuery ι) (db : Database ι) : Prop where
  find : ∀ id row, b.find db id = .ok row → b.Reads db (b.byKey id) (b.selected db) row
  find? : ∀ id row, b.find? db id = .ok (some row) → b.Reads db (b.byKey id) (b.selected db) row
  findBy : ∀ path value row, b.findBy db path value = .ok row →
    b.Reads db (b.byPath path value) (b.selected db) row
  findBy? : ∀ path value row, b.findBy? db path value = .ok (some row) →
    b.Reads db (b.byPath path value) (b.selected db) row
  delete : ∀ id n db', b.delete db id = .ok (n, db') →
    ∃ gone ⊆ b.selected db, b.Erases db gone n db'
  deleteBy : ∀ path value n db', b.deleteBy db path value = .ok (n, db') →
    ∃ gone ⊆ b.selected db, b.Erases db gone n db'
  update : ∀ id values n db', b.update db id values = .ok (n, db') →
    ∃ key, b.keyValues id = .ok key ∧ b.Rewrites db key values n db'
  updateFiltered : ∀ data c id values, b.filtered data = .ok c →
    c.update db id values = b.update db id values

/-- Lookups and deletions are confined to the roots that a query selects. An update changes the records
under its key, and changes the same ones after the query has been narrowed. -/
theorem lookups_and_deletions_confined (hb : b.Built) (hm : b.session.mapping.Proper)
    (hdb : db.Keyed b.session.mapping) : b.Confines db := by
  have hkeeps : ∀ narrowed : Except QueryError (BoundQuery ι),
      (∀ c, narrowed = .ok c → ∃ data, b.filtered data = .ok c) →
        b.Keeps db narrowed (b.selected db) := fun narrowed hnarrowed => by
    refine hb.keeps hm hdb hnarrowed fun c hc => ?_
    obtain ⟨data, hdata⟩ := hnarrowed c hc
    exact selected_filtered_subset hdata db
  have hkey : ∀ id, b.Keeps db (b.byKey id) (b.selected db) := fun id =>
    hkeeps _ fun c hc => byKey_eq_ok hc
  have hpath : ∀ path value, b.Keeps db (b.byPath path value) (b.selected db) := fun path value =>
    hkeeps _ fun c hc => ⟨_, hc⟩
  constructor
  case find => exact fun id => (hkey id).first
  case find? => exact fun id => (hkey id).first?
  case delete => exact fun id => (hkey id).deleteAll
  case findBy => exact fun path value => (hpath path value).first
  case findBy? => exact fun path value => (hpath path value).first?
  case deleteBy => exact fun path value => (hpath path value).deleteAll
  case update => exact fun id values n db' h => update_rewrites h
  case updateFiltered =>
    intro data c id values hc
    obtain ⟨p, -, rfl⟩ := filtered_eq_ok hc
    rfl

end BoundQuery

namespace Sample

/-- The users with a given name. -/
def usersNamed (name : String) : Except QueryError (BoundQuery String) := do
  (← session.queryOn "User").filtered (.obj [("name", .obj [("eq", .str name)])])

theorem usersNamed_built {name : String} {b : BoundQuery String} (h : usersNamed name = .ok b) :
    b.Built ∧ b.session = session := by
  obtain ⟨b₁, h₁, h⟩ := Except.bind_eq_ok.1 h
  refine ⟨(BoundQuery.Built.fresh h₁).filtered h, ?_⟩
  obtain ⟨e, -, rfl⟩ := BoundQuery.queryOn_eq_ok h₁
  exact (BoundQuery.filtered_session h).1

/-- A query for John does not delete the second user, who is Jane, but updates her. -/
theorem lookups_and_deletions_confined_john : ∃ b : BoundQuery String,
    usersNamed "john" = .ok b ∧ b.Confines records ∧
    (∃ db', b.delete records (.int 2) = .ok (0, db')) ∧
    ∃ db', b.update records (.int 2) [("age", .int 26)] = .ok (1, db') := by
  have hdeleted : (do
      let b ← usersNamed "john"
      return (← b.delete records (.int 2)).1).toOption = some 0 := by decide +kernel
  have hupdated : (do
      let b ← usersNamed "john"
      return (← b.update records (.int 2) [("age", .int 26)]).1).toOption = some 1 := by decide +kernel
  obtain ⟨b, hb, hdeleted⟩ := Except.bind_eq_ok.1 (Except.eq_ok_of_toOption hdeleted)
  obtain ⟨b', hb', hupdated⟩ := Except.bind_eq_ok.1 (Except.eq_ok_of_toOption hupdated)
  obtain rfl := Except.ok.inj (hb.symm.trans hb')
  obtain ⟨⟨n, deleted⟩, hdelete, hn⟩ := Except.bind_eq_ok.1 hdeleted
  obtain ⟨⟨k, updated⟩, hupdate, hk⟩ := Except.bind_eq_ok.1 hupdated
  obtain rfl : n = 0 := Except.ok.inj hn
  obtain rfl : k = 1 := Except.ok.inj hk
  obtain ⟨hbuilt, hsession⟩ := usersNamed_built hb
  have hkeyed : records.Keyed b.session.mapping := by rw [hsession]; exact records_keyed
  exact ⟨b, hb, BoundQuery.lookups_and_deletions_confined hbuilt (hsession ▸ proper) hkeyed,
    ⟨deleted, hdelete⟩, ⟨updated, hupdate⟩⟩

end Sample

end EntityQuery
