import EntityQuery.Proofs.Layout.Placement

/-! Levels of layouts. A level is distinct when it has one entry for each of its columns and one branch of
each name; placing branches and setting columns keep all levels so. -/

namespace EntityQuery

/-- What a layout has at one place: columns with their keys, and branches. -/
structure Level where
  columns : List (String × String)
  branches : List Branch

/-- A level with one entry for each of its columns and one branch of each name. -/
structure Level.Distinct (l : Level) : Prop where
  columns : (Assoc.keys l.columns).Nodup
  branches : (l.branches.map (·.name)).Nodup

namespace Branch

/-- The level below a branch. -/
def level (b : Branch) : Level := ⟨b.columns, b.children⟩

/-- A branch below which all levels are distinct. -/
inductive Distinct : Branch → Prop
  | mk {b : Branch} (hlevel : b.level.Distinct) (hchildren : ∀ c ∈ b.children, Distinct c) : Distinct b

/-- Branches of one level, below which all levels are distinct. -/
structure AllDistinct (bs : List Branch) : Prop where
  names : (bs.map (·.name)).Nodup
  distinct : ∀ b ∈ bs, b.Distinct

theorem distinct_iff {b : Branch} :
    b.Distinct ↔ (Assoc.keys b.columns).Nodup ∧ AllDistinct b.children :=
  ⟨fun ⟨hlevel, hchildren⟩ => ⟨hlevel.columns, hlevel.branches, hchildren⟩,
    fun ⟨hcolumns, hchildren⟩ => ⟨⟨hcolumns, hchildren.names⟩, hchildren.distinct⟩⟩

theorem distinct_of_leaf {b : Branch} (hcolumns : b.columns = []) (hchildren : b.children = []) :
    b.Distinct := by
  rw [distinct_iff, hcolumns, hchildren]
  exact ⟨.nil, .nil, by simp⟩

theorem Distinct.of_mem_walk {b : Branch} (h : b.Distinct) : ∀ x ∈ b.walk, x.level.Distinct := by
  induction h with
  | @mk b hlevel hchildren ih =>
    intro x hx
    rw [walk_eq] at hx
    rcases List.mem_cons.1 hx with rfl | hx
    · exact hlevel
    · obtain ⟨c, hc, hx⟩ := mem_walkAll.1 hx
      exact ih c hc x (by rw [walk_eq]; exact List.mem_cons.2 hx)

variable {bs : List Branch}

/-- A change of a branch that keeps its name and all levels below it distinct. -/
structure KeepsDistinct (f : Branch → Branch) : Prop where
  name : ∀ b, (f b).name = b.name
  distinct : ∀ b, b.Distinct → (f b).Distinct

theorem AllDistinct.modify (h : AllDistinct bs) {f : Branch → Branch} (hf : KeepsDistinct f)
    (name : String) : AllDistinct (modify name f bs) := by
  rw [modify_eq_map h.names]
  constructor
  · have hnames : ((fun b : Branch => b.name) ∘ fun b => if b.name = name then f b else b) =
        fun b => b.name := by
      funext b
      rw [Function.comp_apply]
      split
      · exact hf.name b
      · rfl
    rw [List.map_map, hnames]
    exact h.names
  · intro c hc
    obtain ⟨b, hb, rfl⟩ := List.mem_map.1 hc
    split
    · exact hf.distinct b (h.distinct b hb)
    · exact h.distinct b hb

theorem KeepsDistinct.outputKey (key : String) :
    KeepsDistinct fun b => { b with outputKey := key } where
  name _ := rfl
  distinct _ hb :=
    have ⟨hcolumns, hchildren⟩ := distinct_iff.1 hb
    distinct_iff.2 ⟨hcolumns, hchildren⟩

theorem KeepsDistinct.columns {f : List (String × String) → List (String × String)}
    (hf : ∀ columns, (Assoc.keys columns).Nodup → (Assoc.keys (f columns)).Nodup) :
    KeepsDistinct fun b => { b with columns := f b.columns } where
  name _ := rfl
  distinct b hb := distinct_iff.2 ((distinct_iff.1 hb).imp_left (hf b.columns))

theorem KeepsDistinct.withChildren {f : List Branch → List Branch}
    (hf : ∀ bs, AllDistinct bs → AllDistinct (f bs)) : KeepsDistinct (withChildren f) where
  name _ := rfl
  distinct b hb := distinct_iff.2 ((distinct_iff.1 hb).imp_right (hf b.children))

theorem AllDistinct.modifyAt (h : AllDistinct bs) {f : Branch → Branch} (hf : KeepsDistinct f)
    (segs : List String) : AllDistinct (modifyAt f segs bs) := by
  induction segs generalizing bs with
  | nil => exact h
  | cons name rest ih =>
    by_cases hrest : rest = []
    · subst hrest
      exact h.modify hf name
    · rw [modifyAt_cons f name hrest]
      exact h.modify (.withChildren fun _ h => ih h) name

theorem AllDistinct.place (h : AllDistinct bs) {b : Branch} (hb : b.Distinct)
    (rename : Option String) : AllDistinct (place bs b rename) := by
  unfold Branch.place
  split
  · next hnone =>
    rw [find?_eq_none_iff] at hnone
    refine ⟨?_, fun c hc => ?_⟩
    · simpa [List.nodup_append, h.names] using hnone
    · rcases List.mem_append.1 hc with hc | hc
      · exact h.distinct c hc
      · exact List.mem_singleton.1 hc ▸ hb
  · split
    · next key => exact h.modify (.outputKey key) b.name
    · exact h

end Branch

namespace Layout

/-- The level of the root. -/
def level (l : Layout) : Level := ⟨l.rootColumns, l.branches⟩

/-- The level of the root, then those below. -/
def levels (l : Layout) : List Level := l.level :: l.walk.map Branch.level

/-- A layout all of whose levels are distinct. -/
structure Distinct (l : Layout) : Prop where
  columns : (Assoc.keys l.rootColumns).Nodup
  branches : Branch.AllDistinct l.branches

variable {l : Layout}

theorem distinct_empty : empty.Distinct := ⟨.nil, .nil, by simp [empty]⟩

theorem Distinct.of_mem_levels (h : l.Distinct) {level : Level} (hlevel : level ∈ l.levels) :
    level.Distinct := by
  rcases List.mem_cons.1 hlevel with rfl | hlevel
  · exact ⟨h.columns, h.branches.names⟩
  · obtain ⟨x, hx, rfl⟩ := List.mem_map.1 hlevel
    obtain ⟨b, hb, hx⟩ := Branch.mem_walkAll.1 hx
    exact (h.branches.distinct b hb).of_mem_walk x (by rw [Branch.walk_eq]; exact List.mem_cons.2 hx)

theorem Distinct.modifyBranch (h : l.Distinct) {f : Branch → Branch} (hf : Branch.KeepsDistinct f)
    (path : String) : (l.modifyBranch path f).Distinct :=
  ⟨h.columns, h.branches.modifyAt hf (Path.segments path)⟩

theorem Distinct.placeAt (h : l.Distinct) (holder : Option String) {b : Branch} (hb : b.Distinct)
    (rename : Option String) : (l.placeAt holder b rename).Distinct := by
  cases holder with
  | none => exact ⟨h.columns, h.branches.place hb rename⟩
  | some path => exact h.modifyBranch (.withChildren fun _ h => h.place hb rename) path

end Layout

end EntityQuery
