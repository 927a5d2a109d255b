import EntityQuery.Proofs.Page
import EntityQuery.Proofs.Session.Windows

/-! Pages with their totals. A page has as many roots as the total leaves for it, up to its size or the
lesser bound of the settings. Where the settings do not cut pages short, going on from page to page while
a next one is announced comes past as many roots as there are. A page takes two statements, one that
counts and one that lists, and either may be refused. -/

namespace EntityQuery

namespace Settings

/-- A bound on the rows of a result is at least one. -/
def Valid (s : Settings) : Prop := ∀ bound, s.maxResults = some bound → 1 ≤ bound

theorem one_le_of_asPositive {v : Value} {n : Int} (h : v.asPositive = .ok n) : 1 ≤ n := by
  obtain ⟨k, -, h⟩ := Except.bind_eq_ok.1 h
  split at h
  · cases h
  · obtain rfl := Except.ok.inj h
    omega

/-- Settings that are read from an object are valid. -/
theorem valid_of_read {members : List (String × Value)} {s : Settings}
    (h : read members = .ok s) : s.Valid := by
  intro bound hbound
  unfold read at h
  dsimp only at h
  split at h
  · next maxResults stable log dialect hmax _ _ _ =>
    obtain rfl := Except.ok.inj h
    obtain rfl : maxResults = some bound := hbound
    split at hmax
    · next v _ =>
      unfold Value.asOptional at hmax
      split at hmax
      · cases hmax
      · cases hn : v.asPositive with
        | error issue =>
          rw [hn] at hmax
          cases hmax
        | ok n =>
          rw [hn] at hmax
          obtain rfl := Option.some.inj (Except.ok.inj hmax)
          exact one_le_of_asPositive hn
    · cases hmax
  · cases h

/-- The rows that a result may have of those asked for. -/
def capped (s : Settings) (size : Int) : Int := (s.clamp (some size)).getD size

theorem clamp_some (s : Settings) (size : Int) : s.clamp (some size) = some (s.capped size) := by
  unfold capped clamp
  split <;> rfl

theorem Valid.capped_pos {s : Settings} (h : s.Valid) {size : Int} (hsize : 1 ≤ size) :
    1 ≤ s.capped size := by
  unfold capped clamp
  split
  · exact hsize
  · next hlimit => cases hlimit
  · next bound n hmax hlimit =>
    obtain rfl := Option.some.inj hlimit
    exact le_min hsize (h bound hmax)

end Settings

variable {ι : Type} [DecidableEq ι]

namespace BoundQuery

variable {b : BoundQuery ι} {p : QueryPlan ι} {db : Database ι} {total : Nat} {size : Int}

/-- A page of the given number and size tells of the total, and has the roots that are left for it. -/
structure Fits (b : BoundQuery ι) (total : Nat) (number size : Int) (page : Page) : Prop where
  totalCount : page.totalCount = total
  pageNumber : page.pageNumber = number
  pageSize : page.pageSize = size
  length : (page.items.length : Int) =
    min (b.session.settings.capped size) (max 0 (total - (number - 1) * size))

/-- Asking for a page comes to some page, unless one of its statements is refused. -/
def ComesTo (b : BoundQuery ι) (db : Database ι) (p : QueryPlan ι) (number size : Int) (page : Page) :
    Prop :=
  b.toPage db number size = (do
    db.accept b.session.mapping (.count p.whole)
    db.run b.session.mapping
      (.list (p.page (some ((number - 1) * size)) (some (b.session.settings.capped size)))) page)

/-- The pages from a number on, each asked for because the one before announces it. -/
inductive Walks (b : BoundQuery ι) (db : Database ι) (size : Int) : Int → List Page → Prop
  | last {number : Int} {page : Page} (h : b.toPage db number size = .ok page)
      (hnext : page.hasNext = .ok false) : Walks b db size number [page]
  | next {number : Int} {page : Page} {pages : List Page} (h : b.toPage db number size = .ok page)
      (hnext : page.hasNext = .ok true) (hrest : Walks b db size (number + 1) pages) :
      Walks b db size number (page :: pages)

theorem toPage_eq (hsize : 1 ≤ size) (b : BoundQuery ι) (db : Database ι) (k : Nat) :
    b.toPage db (k + 1) size = (do
      let total ← b.count db
      let items ← (b.paged (some (k * size)) (some size)).toList db
      return ⟨items.map .obj, total, k + 1, size⟩) := by
  obtain ⟨n, rfl⟩ := Int.eq_ofNat_of_zero_le (by omega : 0 ≤ size)
  have hslice := slice_eq b (k * n) n
  rw [Int.natCast_mul] at hslice
  have hoffset : ((k : Int) + 1 - 1) * n = k * n := by ring
  rw [toPage, if_neg (by omega), hoffset]
  refine congrArg (b.count db >>= ·) (funext fun total => ?_)
  rw [← bind_assoc]
  exact congrArg (· >>= _) hslice

/-- Where both of its statements can be run, a page comes out. -/
theorem ComesTo.toPage_eq_ok {number : Int} {page : Page} (h : b.ComesTo db p number size page)
    (hcount : db.Runs b.session.mapping (.count p.whole))
    (hlist : db.Runs b.session.mapping
      (.list (p.page (some ((number - 1) * size)) (some (b.session.settings.capped size))))) :
    b.toPage db number size = .ok page := by
  rw [h, Database.accept_eq_ok_iff.2 hcount, hlist.run_eq]
  rfl

/-- A page lists a root that matches for each key that is cut for it. -/
theorem Built.exists_lists_page (hb : b.Built) (hm : b.session.mapping.Proper)
    (hconnected : b.session.connected = true) (hdb : db.Keyed b.session.mapping) (h : b.plan = .ok p)
    (offset : Option Int) (size : Int) :
    ∃ roots, (b.paged offset (some size)).Lists db roots ∧
      (∀ r ∈ roots, r ∈ p.matching b.session.mapping db) ∧
      roots.length = (pageOf offset (some (b.session.settings.capped size))
        (p.pageOrder b.session.mapping db)).length := by
  have hplanned := hb.planned hm h
  have hplan := plan_paged_clamped h offset (some size)
  rw [Settings.clamp_some] at hplan
  have hpaged : offset.isSome || (some (b.session.settings.capped size)).isSome := Bool.or_true _
  refine ⟨_, lists_roots hplan hconnected hplanned.layout db, fun r hr => ?_, ?_⟩
  · exact ((hplanned.scope.mem_roots_page hdb hpaged).1 hr).1
  · rw [← (hplanned.scope.keys_page_perm hdb hpaged).length_eq, List.length_map]
    rfl

/-- A page fits the number of roots that match, whatever page the query itself has. -/
theorem Built.exists_page (hb : b.Built) (hm : b.session.mapping.Proper)
    (hconnected : b.session.connected = true) (hsettings : b.session.settings.Valid)
    (hdb : db.Keyed b.session.mapping) (h : b.plan = .ok p) (hsize : 1 ≤ size) (k : Nat) :
    ∃ page, b.ComesTo db p (k + 1) size page ∧
      b.Fits (p.count b.session.mapping db) (k + 1) size page := by
  obtain ⟨roots, ⟨p', rows, hplan, hrows, -, hshown⟩, -, hroots⟩ :=
    hb.exists_lists_page hm hconnected hdb h (some (k * size)) size
  have hplan' := plan_paged_clamped h (some (k * size)) (some size)
  rw [Settings.clamp_some] at hplan'
  obtain rfl := Except.ok.inj (hplan'.symm.trans hplan)
  have hoffset : ((k : Int) + 1 - 1) * size = k * size := by ring
  refine ⟨⟨rows.map .obj, p.count b.session.mapping db, k + 1, size⟩, ?_, rfl, rfl, rfl, ?_⟩
  · unfold ComesTo
    rw [toPage_eq hsize, count_eq h hconnected, Database.run_bind, hrows, hoffset,
      Database.run_bind_pure]
    rfl
  have hlength : rows.length = min (b.session.settings.capped size).toNat
      (p.count b.session.mapping db - (k * size).toNat) := by
    rw [← hshown.length_eq, hroots, pageOf, List.length_take, List.length_drop,
      (p.pageOrder_perm hdb).length_eq]
    rfl
  have hcapped := hsettings.capped_pos hsize
  have hnonneg : 0 ≤ (k : Int) * size := by positivity
  rw [List.length_map, hlength, hoffset]
  omega

/-- Where pages are whole, a walk from any page on comes past what is left there. -/
theorem exists_walk {n : Nat} (hn : 0 < n) (htotal : total ≤ 2 ^ 53)
    (hcapped : b.session.settings.capped n = n)
    (hpages : ∀ k : Nat, k = 0 ∨ k * n < total →
      ∃ page, b.toPage db (k + 1) n = .ok page ∧ b.Fits total (k + 1) n page)
    (k : Nat) (hk : k = 0 ∨ k * n < total) :
    ∃ pages, b.Walks db n (k + 1) pages ∧ (pages.map (·.items.length)).sum = total - k * n := by
  induction hleft : total - k * n using Nat.strong_induction_on generalizing k with
  | h left ih =>
    obtain ⟨page, hpage, hfits⟩ := hpages k hk
    have hnumber : page.pageNumber = (k + 1 : Nat) := by simpa using hfits.pageNumber
    have hnext := Page.hasNext_eq hfits.totalCount hnumber hfits.pageSize htotal (Nat.succ_pos k) hn
    have hlength := hfits.length
    have hoffset : ((k : Int) + 1 - 1) * n = ((k * n : Nat) : Int) := by push_cast; ring
    rw [hcapped, hoffset] at hlength
    have hsucc : (k + 1) * n = k * n + n := by ring
    rw [hsucc] at hnext
    by_cases hmore : k * n + n < total
    · obtain ⟨pages, hwalk, hsum⟩ :=
        ih (total - (k + 1) * n) (by rw [hsucc]; omega) (k + 1) (.inr (hsucc ▸ hmore)) rfl
      refine ⟨page :: pages, .next hpage (by rw [hnext, decide_eq_true hmore]) (by simpa using hwalk), ?_⟩
      rw [List.map_cons, List.sum_cons, hsum, hsucc]
      omega
    · refine ⟨[page], .last hpage (by rw [hnext, decide_eq_false hmore]), ?_⟩
      rw [List.map_singleton, List.sum_singleton]
      omega

/-- Pages fit the total, unless a statement is refused. Where the settings do not cut them short and the
statements of all pages up to the total can be run, a walk from the first page on comes past the total. -/
theorem pages_fit_total (hb : b.Built) (hm : b.session.mapping.Proper)
    (hconnected : b.session.connected = true) (hsettings : b.session.settings.Valid)
    (hdb : db.Keyed b.session.mapping) (h : b.plan = .ok p) :
    ∃ total : Nat, b.count db = db.run b.session.mapping (.count p.whole) total ∧
      (∀ number size, 1 ≤ number → 1 ≤ size →
        ∃ page, b.ComesTo db p number size page ∧ b.Fits total number size page) ∧
      ∀ size, 1 ≤ size → b.session.settings.capped size = size → total ≤ 2 ^ 53 →
        db.Runs b.session.mapping (.count p.whole) →
        (∀ k : Nat, k = 0 ∨ k * size < total →
          db.Runs b.session.mapping (.list (p.page (some (k * size)) (some size)))) →
        ∃ pages, b.Walks db size 1 pages ∧ (pages.map (·.items.length)).sum = total := by
  refine ⟨_, count_eq h hconnected db, ?_, ?_⟩
  · intro number size hnumber hsize
    obtain ⟨k, hk⟩ := Int.eq_ofNat_of_zero_le (by omega : 0 ≤ number - 1)
    obtain rfl : number = k + 1 := by omega
    exact hb.exists_page hm hconnected hsettings hdb h hsize k
  · intro size hsize hcapped htotal hcount hlists
    obtain ⟨n, rfl⟩ := Int.eq_ofNat_of_zero_le (by omega : 0 ≤ size)
    have hpages : ∀ k : Nat, k = 0 ∨ k * n < p.count b.session.mapping db →
        ∃ page, b.toPage db (k + 1) n = .ok page ∧
          b.Fits (p.count b.session.mapping db) (k + 1) n page := by
      intro k hk
      obtain ⟨page, hcomes, hfits⟩ := hb.exists_page hm hconnected hsettings hdb h hsize k
      have hoffset : ((k : Int) + 1 - 1) * n = k * n := by ring
      refine ⟨page, hcomes.toPage_eq_ok hcount ?_, hfits⟩
      rw [hoffset, hcapped]
      exact hlists k (hk.imp_right fun hk => by exact_mod_cast hk)
    obtain ⟨pages, hwalk, hsum⟩ := exists_walk (by omega) htotal hcapped hpages 0 (.inl rfl)
    refine ⟨pages, by simpa using hwalk, ?_⟩
    rw [hsum, Nat.zero_mul, Nat.sub_zero]

end BoundQuery

namespace Sample

/-- A session whose results have at most four rows. -/
def cappedSession : Session String :=
  { session with settings := { Settings.usual with maxResults := some 4 } }

theorem cappedSession_valid : cappedSession.settings.Valid := by
  intro bound hbound
  obtain rfl := Option.some.inj hbound
  decide

/-- All users with their posts. -/
def cappedUsers : Except QueryError (BoundQuery String) := do
  let b ← cappedSession.queryOn "User"
  b.including (.obj [("posts", .bool true)])

/-- The users have a plan, and pages of it can be run whose place and size fit into 64 bits. -/
theorem exists_cappedUsers : ∃ (b : BoundQuery String) (p : QueryPlan String),
    cappedUsers = .ok b ∧ b.Built ∧ b.session = cappedSession ∧ b.plan = .ok p ∧
    b.count records = .ok 15 ∧ ∀ offset limit : Int, Cell.fitsWord offset = true →
      Cell.fitsWord limit = true → records.Runs mapping (.list (p.page (some offset) (some limit))) := by
  have hcount : (do (← cappedUsers).count records).toOption = some 15 := by decide +kernel
  have hready : (do (← cappedUsers).ready records .list).isOk = true := by decide +kernel
  obtain ⟨b, p, hb, hp, hcount⟩ := exists_counted hcount
  obtain ⟨b₁, h₁, h₂⟩ := Except.bind_eq_ok.1 hb
  have hsession : b.session = cappedSession := by
    obtain ⟨is, -, rfl⟩ := BoundQuery.including_eq_ok h₂
    obtain ⟨e, -, rfl⟩ := BoundQuery.queryOn_eq_ok h₁
    rfl
  rw [hb] at hready
  obtain ⟨p', hready⟩ := Except.exists_of_isOk hready
  obtain ⟨hp', -, hruns⟩ := BoundQuery.ready_eq_ok hready
  obtain rfl := Except.ok.inj (hp.symm.trans hp')
  rw [hsession] at hruns
  refine ⟨b, p, hb, (BoundQuery.Built.fresh h₁).including h₂, hsession, hp, hcount, ?_⟩
  intro offset limit hoffset hlimit
  exact Database.Runs.page hruns rfl (by simpa using hoffset) (by simpa using hlimit)

theorem pages_fit_total_users : ∃ b : BoundQuery String, cappedUsers = .ok b ∧
    (∀ number size, 1 ≤ number → 1 ≤ size → Cell.fitsWord ((number - 1) * size) = true →
      ∃ page, b.toPage records number size = .ok page ∧ b.Fits 15 number size page) ∧
    ∃ pages, b.Walks records 3 1 pages ∧ (pages.map (·.items.length)).sum = 15 := by
  obtain ⟨b, p, hb, hbuilt, hsession, hp, hcount, hlists⟩ := exists_cappedUsers
  have hproper : b.session.mapping.Proper := hsession ▸ proper
  have hkeyed : records.Keyed b.session.mapping := by rw [hsession]; exact records_keyed
  have hvalid : b.session.settings.Valid := hsession ▸ cappedSession_valid
  have hthree : b.session.settings.capped 3 = 3 := by rw [hsession]; rfl
  obtain ⟨total, htotal, hpages, hwalks⟩ := BoundQuery.pages_fit_total hbuilt hproper
    (congrArg Session.connected hsession) hvalid hkeyed hp
  obtain ⟨hruns, rfl⟩ := Database.run_eq_ok_iff.1 (htotal.symm.trans hcount)
  refine ⟨b, hb, fun number size hnumber hsize hfits => ?_,
    hwalks 3 (by decide) hthree (by decide) hruns fun k hk => ?_⟩
  · obtain ⟨page, hcomes, hpage⟩ := hpages number size hnumber hsize
    refine ⟨page, hcomes.toPage_eq_ok hruns ?_, hpage⟩
    have hcapped : b.session.settings.capped size = min size 4 := by rw [hsession]; rfl
    rw [hcapped, hsession]
    exact hlists _ _ hfits (Cell.fitsWord_iff.2 (by omega))
  · rw [hsession]
    exact hlists _ 3 (Cell.fitsWord_iff.2 (by omega)) rfl

/-- Pages of five are cut to four. Each but the last leaves out a root that no page has, so that the walk
over them comes past twelve of the fifteen. -/
theorem pages_cut_short : ∃ b : BoundQuery String, cappedUsers = .ok b ∧
    (∃ page, b.toPage records 1 5 = .ok page ∧ page.totalCount = 15 ∧
      (page.items.length : Int) ≠ min 5 (max 0 (page.totalCount - (1 - 1) * 5))) ∧
    ∃ pages, b.Walks records 5 1 pages ∧ (pages.map (·.items.length)).sum = 12 := by
  obtain ⟨b, p, hb, hbuilt, hsession, hp, hcount, hlists⟩ := exists_cappedUsers
  have hproper : b.session.mapping.Proper := hsession ▸ proper
  have hkeyed : records.Keyed b.session.mapping := by rw [hsession]; exact records_keyed
  have hvalid : b.session.settings.Valid := hsession ▸ cappedSession_valid
  have hconnected := congrArg Session.connected hsession
  obtain ⟨hruns, htotal⟩ :=
    Database.run_eq_ok_iff.1 ((BoundQuery.count_eq hp hconnected records).symm.trans hcount)
  have hfive : b.session.settings.capped 5 = 4 := by rw [hsession]; rfl
  have hpages : ∀ k : Nat, k < 3 → ∃ page, b.toPage records (k + 1) 5 = .ok page ∧
      b.Fits 15 (k + 1) 5 page := by
    intro k hk
    obtain ⟨page, hcomes, hfits⟩ := hbuilt.exists_page hproper hconnected hvalid hkeyed hp
      (by decide : 1 ≤ (5 : Int)) k
    refine ⟨page, hcomes.toPage_eq_ok hruns ?_, htotal ▸ hfits⟩
    rw [hfive, hsession]
    exact hlists _ 4 (Cell.fitsWord_iff.2 (by omega)) rfl
  -- What is announced behind a page depends on its number alone.
  have hnext : ∀ (k : Nat) (page : Page), b.Fits 15 (k + 1) 5 page →
      page.hasNext = .ok (decide ((k + 1) * 5 < 15)) := fun k page hfits =>
    Page.hasNext_eq hfits.totalCount (by simpa using hfits.pageNumber) hfits.pageSize (by decide)
      (Nat.succ_pos k) (by decide)
  have hlength : ∀ (k : Nat) (page : Page), b.Fits 15 (k + 1) 5 page → k < 3 →
      page.items.length = 4 := by
    intro k page hfits hk
    have h := hfits.length
    rw [hfive] at h
    omega
  obtain ⟨first, hfirst, hfits₁⟩ := hpages 0 (by decide)
  obtain ⟨second, hsecond, hfits₂⟩ := hpages 1 (by decide)
  obtain ⟨third, hthird, hfits₃⟩ := hpages 2 (by decide)
  refine ⟨b, hb, ⟨first, hfirst, hfits₁.totalCount, ?_⟩, [first, second, third], ?_, ?_⟩
  · rw [hlength 0 first hfits₁ (by decide), hfits₁.totalCount]
    decide
  · exact .next hfirst (hnext 0 first hfits₁)
      (.next hsecond (hnext 1 second hfits₂) (.last hthird (hnext 2 third hfits₃)))
  · rw [List.map_cons, List.map_cons, List.map_singleton, hlength 0 first hfits₁ (by decide),
      hlength 1 second hfits₂ (by decide), hlength 2 third hfits₃ (by decide)]
    rfl

end Sample

end EntityQuery
