import EntityQuery.Sample
import EntityQuery.Proofs.Layout.Shown

/-! Ways through rows. A way goes from a row to a related one by a name and, in a list, an index. Where no two
data of a row ask for one key, a shaped row has the same ways by the output keys of the branches, and what
is found at their ends are the shaped rows of those that the names lead to. -/

namespace EntityQuery

namespace Value

def row? : Value → Option Row
  | .obj row => some row
  | _ => none

/-- The row that a value is, or the one at an index of a list. -/
def rowAt? : Value → Option Nat → Option Row
  | value, none => value.row?
  | .list items, some i => items[i]?.bind row?
  | _, some _ => none

theorem rowAt?_rows (rows : List Row) (index : Option Nat) :
    (Value.list (rows.map .obj)).rowAt? index = index.bind (rows[·]?) := by
  cases index with
  | none => rfl
  | some i =>
    rw [rowAt?, List.getElem?_map, Option.bind_map, Option.bind_some]
    cases rows[i]? <;> rfl

end Value

/-- Follows keys from a row to related ones, each with the index of one in a list. -/
def Row.follow? : Row → List (String × Option Nat) → Option Row
  | row, [] => some row
  | row, (key, index) :: rest => ((Value.member row key).rowAt? index).bind (follow? · rest)

/-- A step from a row to a related one. -/
structure Hop where
  branch : Branch
  index : Option Nat

namespace Hop

/-- The step by the name of the relation. -/
def byName (h : Hop) : String × Option Nat := (h.branch.name, h.index)

/-- The step by the key under which the relation is shown. -/
def byKey (h : Hop) : String × Option Nat := (h.branch.outputKey, h.index)

end Hop

namespace Level

/-- A way along branches that are below one another, with the level at its end. -/
inductive Leads : Level → List Hop → Level → Prop
  | here (l : Level) : Leads l [] l
  | via {l last : Level} {h : Hop} {hops : List Hop} (hmem : h.branch ∈ l.branches)
    (hrest : Leads h.branch.level hops last) : Leads l (h :: hops) last

/-- The members of a row that no branch of a level takes. -/
def unplanned (l : Level) (row : Row) : Row := row.filter fun m => (Branch.find? l.branches m.1).isNone

/-- All keys that a level may show of a row, those of its columns, or of unplanned members if it has none,
and those of its branches. -/
def plannedKeys (l : Level) (row : Row) : List String :=
  (if l.columns.isEmpty then Assoc.keys (l.unplanned row) else l.columns.map (·.2)) ++
    l.branches.map (·.outputKey)

/-- How a level renames a row: each column has its key, with null for a field that is missing, a level
without columns passes on what is unplanned, relations that are null are left out and lists keep their
lengths; there are no other keys. -/
structure Renames (l : Level) (row out : Row) : Prop where
  keys : Assoc.keys out = l.outputKeys row
  column : ∀ field key, (field, key) ∈ l.columns →
    Assoc.get? out key = some (Value.member row field)
  unplanned : l.columns = [] → ∀ name value, Branch.find? l.branches name = none →
    Assoc.get? row name = some value → Assoc.get? out name = some value
  absent : ∀ b ∈ l.branches, Value.member row b.name = .null → Assoc.get? out b.outputKey = none
  one : ∀ b ∈ l.branches, ∀ below, Value.member row b.name = .obj below →
    ∃ shown, Assoc.get? out b.outputKey = some (.obj shown)
  several : ∀ b ∈ l.branches, ∀ items, Value.member row b.name = .list items →
    ∃ shown, Assoc.get? out b.outputKey = some (.list shown) ∧ shown.length = items.length

end Level

namespace Branch

theorem mem_keys_relatedData {bs : List Branch} {row : Row} {key : String}
    (h : key ∈ Assoc.keys (relatedData bs row)) : key ∈ bs.map (·.outputKey) := by
  induction bs with
  | nil => exact h
  | cons b rest ih =>
    rw [relatedData, Assoc.keys, List.map_append, ← Assoc.keys, ← Assoc.keys, List.mem_append] at h
    rw [List.map_cons, List.mem_cons]
    rcases h with h | h
    · left
      cases hshown : b.shown? (Value.member row b.name) with
      | none => rw [hshown] at h; simp [Assoc.keys] at h
      | some value => rw [hshown] at h; simpa [Assoc.keys] using h
    · exact .inr (ih h)

/-- Where branches have keys of their own, the datum under the key of one is what it shows. -/
theorem get?_relatedData {bs : List Branch} (hkeys : (bs.map (·.outputKey)).Nodup) {b : Branch}
    (hb : b ∈ bs) (row : Row) :
    Assoc.get? (relatedData bs row) b.outputKey = b.shown? (Value.member row b.name) := by
  induction bs with
  | nil => cases hb
  | cons c rest ih =>
    obtain ⟨hc, hrest⟩ := List.nodup_cons.1 hkeys
    rw [relatedData, Assoc.get?_append]
    rcases List.mem_cons.1 hb with rfl | hb
    · have hnone : Assoc.get? (relatedData rest row) b.outputKey = none :=
        Assoc.get?_eq_none_iff.2 fun h => hc (mem_keys_relatedData h)
      rw [hnone, Option.or_none]
      cases b.shown? (Value.member row b.name) <;> simp [Assoc.get?]
    · have hne : c.outputKey ≠ b.outputKey := fun h => hc (List.mem_map.2 ⟨b, hb, h.symm⟩)
      rw [ih hrest hb]
      cases c.shown? (Value.member row c.name) <;> simp [Assoc.get?, hne]

namespace Relates

variable {b : Branch} {value : Value}

/-- What a branch shows of a value leads to what its level shows of the rows that the value leads to. -/
theorem rowAt?_shown? (h : b.Relates value) (index : Option Nat) :
    ((b.shown? value).getD .null).rowAt? index =
      (value.rowAt? index).map fun row => Assoc.ofPairs (b.level.data row) := by
  cases h with
  | none =>
    cases b
    cases index <;> rfl
  | one =>
    rw [shown?_obj]
    cases index <;> rfl
  | @several _ rows =>
    have hrows : (rows.map fun row => Value.obj (Assoc.ofPairs (b.level.data row))) =
        (rows.map fun row => Assoc.ofPairs (b.level.data row)).map .obj := by
      rw [List.map_map]
      rfl
    rw [shown?_list, Option.getD_some, hrows, Value.rowAt?_rows, Value.rowAt?_rows, Option.map_bind]
    exact congrArg _ (funext fun i => List.getElem?_map ..)

/-- The rows that a value leads to are as a result holds them. -/
theorem hydrated_rowAt? (h : b.Relates value) {index : Option Nat} {row : Row}
    (hrow : value.rowAt? index = some row) : Hydrated b.children row := by
  cases h with
  | none => cases index <;> cases hrow
  | one hone =>
    cases index with
    | none => exact Option.some.inj hrow ▸ hone
    | some i => cases hrow
  | @several _ rows hrows =>
    rw [Value.rowAt?_rows, Option.bind_eq_some_iff] at hrow
    obtain ⟨i, -, hi⟩ := hrow
    exact hrows row (List.mem_of_getElem? hi)

end Relates

end Branch

namespace Level

variable {l last : Level} {row : Row} {hops : List Hop} {b : Branch}

theorem nodup_outputKeys (h : (l.plannedKeys row).Nodup) : (l.outputKeys row).Nodup :=
  h.sublist (.append (.refl _) (List.filter_sublist.map _))

/-- The datum under the key of a branch is what the branch shows. -/
theorem get?_data (h : (l.plannedKeys row).Nodup) (hb : b ∈ l.branches) :
    Assoc.get? (l.data row) b.outputKey = b.shown? (Value.member row b.name) := by
  obtain ⟨-, hkeys, hdisjoint⟩ := List.nodup_append.1 h
  have hnone : Assoc.get? (Branch.columnData l.columns l.branches row) b.outputKey = none := by
    rw [Assoc.get?_eq_none_iff, Branch.keys_columnData]
    exact fun hmem => hdisjoint _ hmem _ (List.mem_map_of_mem hb) rfl
  rw [data, Assoc.get?_append, hnone, Option.none_or, Branch.get?_relatedData hkeys hb]

theorem renames_data (h : (l.plannedKeys row).Nodup) (hrow : Branch.Hydrated l.branches row) :
    l.Renames row (l.data row) := by
  obtain ⟨out, -, hshows⟩ := l.exists_shape hrow
  have hnodup : (Assoc.keys (l.data row)).Nodup := hshows.keys_data ▸ nodup_outputKeys h
  have hget : ∀ {key value}, (key, value) ∈ Branch.columnData l.columns l.branches row →
      Assoc.get? (l.data row) key = some value := fun hmem =>
    Assoc.get?_of_mem hnodup (List.mem_append_left _ hmem)
  obtain ⟨-, hrelates⟩ := hrow
  constructor
  case keys => exact hshows.keys_data
  case column =>
    intro field key hmem
    apply hget
    have hne : l.columns.isEmpty = false := by
      cases hcolumns : l.columns with
      | nil => rw [hcolumns] at hmem; cases hmem
      | cons => rfl
    rw [Branch.columnData, hne, if_neg (by simp)]
    exact List.mem_map.2 ⟨_, hmem, rfl⟩
  case unplanned =>
    intro hcolumns name value hname hvalue
    apply hget
    rw [Branch.columnData, hcolumns, List.isEmpty_nil, if_pos rfl, List.mem_filter]
    exact ⟨Assoc.mem_of_get? hvalue, by rw [hname]; rfl⟩
  case absent =>
    intro b hb hvalue
    rw [get?_data h hb, hvalue]
    cases b
    rfl
  case one =>
    intro b hb below hvalue
    rw [get?_data h hb, hvalue, Branch.shown?_obj]
    exact ⟨_, rfl⟩
  case several =>
    intro b hb items hvalue
    have hb' := hrelates b hb
    rw [hvalue] at hb'
    cases hb' with
    | several =>
      rw [get?_data h hb, hvalue, Branch.shown?_list]
      exact ⟨_, rfl, by rw [List.length_map, List.length_map]⟩

/-- At the end of every way from a row the level there has keys of its own for all that it may show. -/
def Clear (l : Level) (row : Row) : Prop :=
  ∀ hops last below, l.Leads hops last → Row.follow? row (hops.map Hop.byName) = some below →
    (last.plannedKeys below).Nodup

theorem Clear.nodup (h : l.Clear row) : (l.plannedKeys row).Nodup := h [] l row (.here l) rfl

theorem Clear.rowAt? (h : l.Clear row) {hop : Hop} (hmem : hop.branch ∈ l.branches) {below : Row}
    (hbelow : (Value.member row hop.branch.name).rowAt? hop.index = some below) :
    hop.branch.level.Clear below := by
  intro hops last end' hleads hend
  refine h (hop :: hops) last end' (.via hmem hleads) ?_
  rw [List.map_cons, Row.follow?, Hop.byName, hbelow]
  exact hend

/-- The ways by the keys of the branches through the data of a level lead to the data of the levels at the
ends of the ways by names. -/
theorem Leads.follow?_data (hleads : l.Leads hops last) (hrow : Branch.Hydrated l.branches row)
    (hclear : l.Clear row) : Row.follow? (l.data row) (hops.map Hop.byKey) =
      (Row.follow? row (hops.map Hop.byName)).map last.data := by
  induction hleads generalizing row with
  | here l => rfl
  | @via l last hop hops hmem _ ih =>
    obtain ⟨-, hrelates⟩ := hrow
    have hvalue := hrelates hop.branch hmem
    rw [List.map_cons, List.map_cons, Row.follow?, Row.follow?, Hop.byKey, Hop.byName, Value.member,
      get?_data hclear.nodup hmem, hvalue.rowAt?_shown?]
    cases hbelow : (Value.member row hop.branch.name).rowAt? hop.index with
    -- Where a value is null or a list too short, both ways end.
    | none => rfl
    | some below =>
      have hhydrated := hvalue.hydrated_rowAt? hbelow
      have hbelowClear := hclear.rowAt? hmem hbelow
      obtain ⟨out, -, hshows⟩ := hop.branch.level.exists_shape hhydrated
      have hsame : Assoc.ofPairs (hop.branch.level.data below) = hop.branch.level.data below :=
        Assoc.ofPairs_of_nodup (hshows.keys_data ▸ nodup_outputKeys hbelowClear.nodup)
      rw [Option.map_some, Option.bind_some, Option.bind_some, hsame]
      exact ih hhydrated hbelowClear

theorem Leads.hydrated_follow? (hleads : l.Leads hops last) (hrow : Branch.Hydrated l.branches row)
    {below : Row} (h : Row.follow? row (hops.map Hop.byName) = some below) :
    Branch.Hydrated last.branches below := by
  induction hleads generalizing row with
  | here l => exact Option.some.inj h ▸ hrow
  | @via l last hop hops hmem _ ih =>
    obtain ⟨-, hrelates⟩ := hrow
    obtain ⟨next, hnext, hrest⟩ := Option.bind_eq_some_iff.1 h
    exact ih ((hrelates hop.branch hmem).hydrated_rowAt? hnext) hrest

theorem Leads.cases_branch (hleads : l.Leads hops last) :
    (hops = [] ∧ last = l) ∨ ∃ b ∈ Branch.walkAll l.branches, last = b.level := by
  induction hleads with
  | here l => exact .inl ⟨rfl, rfl⟩
  | @via l last hop hops hmem _ ih =>
    right
    rcases ih with ⟨-, rfl⟩ | ⟨b, hb, rfl⟩
    · exact ⟨hop.branch, Branch.mem_walkAll.2 ⟨_, hmem, .inl rfl⟩, rfl⟩
    · exact ⟨b, Branch.mem_walkAll.2 ⟨_, hmem, .inr hb⟩, rfl⟩

end Level

namespace Layout

variable {l : Layout} {row : Row}

theorem mem_levels_of_leads {hops : List Hop} {last : Level} (h : l.level.Leads hops last) :
    last ∈ l.levels := by
  rcases h.cases_branch with ⟨-, rfl⟩ | ⟨b, hb, rfl⟩
  · exact List.mem_cons_self
  · exact List.mem_cons_of_mem _ (List.mem_map_of_mem hb)

/-- Shaping renames. Where the output keys of each level are distinct, and those of a level without columns
are no unplanned keys of the rows that it shows, a shaped row has the ways of the row, by output keys in
place of names, and at the end of each way the row there is renamed by the level there. -/
theorem shape_renames (hrow : Branch.Hydrated l.branches row)
    (hkeys : ∀ level ∈ l.levels,
      (level.columns.map (·.2) ++ level.branches.map (·.outputKey)).Nodup)
    (hunplanned : ∀ hops last below, l.level.Leads hops last →
      Row.follow? row (hops.map Hop.byName) = some below → last.columns = [] →
      ∀ b ∈ last.branches, b.outputKey ∉ Assoc.keys (last.unplanned below)) :
    ∃ out, l.shape row = .ok out ∧ ∀ hops last, l.level.Leads hops last →
      Option.Rel last.Renames (Row.follow? row (hops.map Hop.byName))
        (Row.follow? out (hops.map Hop.byKey)) := by
  have hclear : l.level.Clear row := by
    intro hops last below hleads hbelow
    have hlast := hkeys last (mem_levels_of_leads hleads)
    cases hcolumns : last.columns with
    | cons column rest => simpa [Level.plannedKeys, hcolumns] using hlast
    | nil =>
      obtain ⟨hnodup, -⟩ := hleads.hydrated_follow? hrow hbelow
      rw [Level.plannedKeys, hcolumns, List.isEmpty_nil, if_pos rfl]
      refine List.nodup_append.2 ⟨hnodup.sublist (List.filter_sublist.map _), ?_, ?_⟩
      · simpa [hcolumns] using hlast
      · rintro key hkey _ hkey' rfl
        obtain ⟨b, hb, rfl⟩ := List.mem_map.1 hkey'
        exact hunplanned hops last below hleads hbelow hcolumns b hb hkey
  obtain ⟨out, hout, hshows⟩ := l.level.exists_shape hrow
  refine ⟨out, hout, fun hops last hleads => ?_⟩
  rw [hshows.eq_data (Level.nodup_outputKeys hclear.nodup), hleads.follow?_data hrow hclear]
  cases hbelow : Row.follow? row (hops.map Hop.byName) with
  | none => exact .none
  | some below =>
    exact .some (Level.renames_data (hclear hops last below hleads hbelow)
      (hleads.hydrated_follow? hrow hbelow))

end Layout

namespace Sample

def replies : Branch :=
  ⟨"comments", "posts.comments", "posts", "user_posts_comments", "replies", [("body", "text")], []⟩

def articles : Branch :=
  ⟨"posts", "posts", "", "user_posts", "articles", [("title", "title")], [replies]⟩

/-- All columns of a user, with articles that show their replies, and a profile. -/
def withReplies : Layout :=
  ⟨[], [articles, ⟨"profile", "profile", "", "user_profile", "profile", [("bio", "about")], []⟩]⟩

/-- A user without a profile, with two posts of which the second has no comments. -/
def johnWithPosts : Row :=
  [("id", .int 1), ("posts", .list ([
    [("title", .str "Hello"), ("comments", .list ([[("body", .str "Nice")], []].map .obj))],
    [("comments", .list (List.map .obj []))]].map .obj)), ("profile", .null)]

theorem johnWithPosts_hydrated : Branch.Hydrated withReplies.branches johnWithPosts := by
  have hcomments : ∀ rows : List Row, (∀ row ∈ rows, (Assoc.keys row).Nodup) →
      replies.Relates (.list (rows.map .obj)) := fun rows hrows =>
    .several fun row hrow => .mk (hrows row hrow) (by simp [replies])
  have hposts : ∀ rows : List Row, (∀ row ∈ rows, (Assoc.keys row).Nodup ∧
      replies.Relates (Value.member row "comments")) → articles.Relates (.list (rows.map .obj)) :=
    fun rows hrows => .several fun row hrow => .mk (hrows row hrow).1 fun b hb => by
      rw [List.mem_singleton.1 hb]
      exact (hrows row hrow).2
  refine .mk (by decide) (List.forall_mem_cons.2 ⟨hposts _ ?_, List.forall_mem_singleton.2 .none⟩)
  refine List.forall_mem_cons.2 ⟨⟨by decide, hcomments _ (by decide)⟩, ?_⟩
  exact List.forall_mem_singleton.2 ⟨by decide, hcomments _ (by decide)⟩

/-- The comment of the first post is found below its article, under the keys of the layout. -/
theorem shape_renames_replies :
    Branch.Hydrated withReplies.branches johnWithPosts ∧
    (∀ level ∈ withReplies.levels,
      (level.columns.map (·.2) ++ level.branches.map (·.outputKey)).Nodup) ∧
    ∃ out, withReplies.shape johnWithPosts = .ok out ∧
      Option.Rel replies.level.Renames (some [("body", .str "Nice")])
        (Row.follow? out [("articles", some 0), ("replies", some 0)]) := by
  have hkeys : ∀ level ∈ withReplies.levels,
      (level.columns.map (·.2) ++ level.branches.map (·.outputKey)).Nodup := by decide
  have hcolumns : ∀ b ∈ Branch.walkAll withReplies.branches, b.columns ≠ [] := by decide
  refine ⟨johnWithPosts_hydrated, hkeys, ?_⟩
  obtain ⟨out, hout, hways⟩ := Layout.shape_renames johnWithPosts_hydrated hkeys
    fun hops last below hleads hbelow hnone => by
      rcases hleads.cases_branch with ⟨rfl, rfl⟩ | ⟨b, hb, rfl⟩
      · obtain rfl := Option.some.inj hbelow
        decide
      · exact absurd hnone (hcolumns b hb)
  exact ⟨out, hout, hways [⟨articles, some 0⟩, ⟨replies, some 0⟩] replies.level
    (.via List.mem_cons_self (.via List.mem_cons_self (.here _)))⟩

end Sample

end EntityQuery
