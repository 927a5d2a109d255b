import Mathlib.Data.List.Induction
import EntityQuery.Proofs.Join.Tree
import EntityQuery.Proofs.Path

/-! What a walk along a path adds to a tree of joins, whatever the graph: aliases for parts of the path
that had none, each the one that the request wishes for, and marks of joins at parts of the path. -/

namespace EntityQuery

variable {ι : Type} {g : EntityGraph ι}

namespace Aliases

theorem length_synthesize (a : Aliases) (path : String) :
    (a.synthesize path).length = a.root.length + 1 + path.length := by
  have hmark : ("_" : String).length = 1 := rfl
  simp [synthesize, String.length_append, hmark]

theorem synthesize_ne_root (a : Aliases) (path : String) : a.synthesize path ≠ a.root := by
  intro h
  have hlength := congrArg String.length h
  rw [length_synthesize] at hlength
  omega

/-- The alias made from a path depends on the alias of the root only. -/
theorem synthesize_congr {a b : Aliases} (h : a.root = b.root) (path : String) :
    a.synthesize path = b.synthesize path := by
  rw [synthesize, synthesize, h]

end Aliases

/-- The alias that a request wishes for a part of its path. -/
def JoinRequest.wish (request : JoinRequest) (a : Aliases) (path : String) : String :=
  (if path = request.path then nonEmpty? request.aliasName else none).getD (a.synthesize path)

theorem JoinRequest.wish_congr {a b : Aliases} (h : a.root = b.root) (request : JoinRequest)
    (path : String) : request.wish a path = request.wish b path := by
  rw [wish, wish, Aliases.synthesize_congr h]

/-- A property of the elements of a list and of what stands before them, after one more element. -/
theorem forall_split_concat {α : Type} {P : List α → α → Prop} {xs : List α} {x : α}
    (h : ∀ earlier y later, xs = earlier ++ y :: later → P earlier y) (hx : P xs x) :
    ∀ earlier y later, xs ++ [x] = earlier ++ y :: later → P earlier y := by
  intro earlier y later hsplit
  rcases List.eq_nil_or_concat later with rfl | ⟨later, last, rfl⟩
  · obtain ⟨rfl, hy⟩ := List.append_inj' hsplit rfl
    obtain rfl := List.singleton_inj.1 hy
    exact hx
  · rw [List.concat_eq_append, ← List.cons_append, ← List.append_assoc] at hsplit
    exact h earlier y later (List.append_inj' hsplit rfl).1

/-- A property of the elements of a list and of what stands before them, after all are changed. -/
theorem forall_split_map {α β : Type} {P : List β → β → Prop} {f : α → β} {xs : List α}
    (h : ∀ earlier y later, xs = earlier ++ y :: later → P (earlier.map f) (f y)) :
    ∀ earlier y later, xs.map f = earlier ++ y :: later → P earlier y := by
  intro earlier y later hsplit
  obtain ⟨earlier, rest, hxs, rfl, hrest⟩ := List.map_eq_append_iff.1 hsplit
  obtain ⟨y, later, rfl, rfl, rfl⟩ := List.map_eq_cons_iff.1 hrest
  exact h earlier y later hxs

namespace JoinTree

variable {t t' u : JoinTree ι} {request : JoinRequest}

/-! ### Parts of a path -/

theorem mem_leads {segs : List String} {path : String} :
    path ∈ leads segs ↔ ∃ n, 0 < n ∧ n ≤ segs.length ∧ path = Path.ofSegments (segs.take n) := by
  simp only [leads, List.mem_map, List.mem_range]
  constructor
  · rintro ⟨n, hn, rfl⟩
    exact ⟨n + 1, by omega, by omega, rfl⟩
  · rintro ⟨n, hpos, hn, rfl⟩
    refine ⟨n - 1, by omega, ?_⟩
    rw [Nat.sub_add_cancel hpos]

theorem leads_append_subset (segs more : List String) : leads segs ⊆ leads (segs ++ more) := by
  intro path hpath
  obtain ⟨n, hpos, hn, rfl⟩ := mem_leads.1 hpath
  refine mem_leads.2 ⟨n, hpos, ?_, ?_⟩
  · rw [List.length_append]
    omega
  · rw [List.take_append_of_le_length hn]

theorem mem_leads_self {segs : List String} (hne : segs ≠ []) : Path.ofSegments segs ∈ leads segs :=
  mem_leads.2 ⟨segs.length, List.length_pos_iff.2 hne, Nat.le_refl _, by rw [List.take_length]⟩

theorem leads_concat (segs : List String) (s : String) :
    leads (segs ++ [s]) = leads segs ++ [Path.ofSegments (segs ++ [s])] := by
  unfold leads
  rw [List.length_append, List.length_singleton, List.range_succ, List.map_append, List.map_singleton]
  congr 1
  · refine List.map_congr_left fun n hn => ?_
    rw [List.take_append_of_le_length (List.mem_range.1 hn)]
  · rw [List.take_of_length_le (by simp)]

theorem leads_subset_of_prefix {segs segs' : List String} (h : segs <+: segs') :
    leads segs ⊆ leads segs' := by
  obtain ⟨more, rfl⟩ := h
  exact leads_append_subset segs more

/-- Parts of a chain have shorter paths than the chain one segment further. -/
theorem length_lt_of_mem_leads {segs : List String} {path : String} (hpath : path ∈ leads segs)
    (s : String) : path.length < (Path.ofSegments (segs ++ [s])).length := by
  induction segs using List.reverseRecOn generalizing s with
  | nil => simp [leads] at hpath
  | append_singleton segs t ih =>
    have hlast : (Path.ofSegments (segs ++ [t])).length <
        (Path.ofSegments (segs ++ [t] ++ [s])).length := by
      have hmore : Path.ofSegments (segs ++ [t] ++ [s]) = Path.ofSegments (segs ++ [t]) ++ "." ++ s :=
        Path.ofSegments_append_singleton (by simp) s
      have hdot : ("." : String).length = 1 := rfl
      rw [hmore, String.length_append, String.length_append, hdot]
      omega
    rw [leads_concat, List.mem_append, List.mem_singleton] at hpath
    rcases hpath with hpath | rfl
    · exact Nat.lt_trans (ih hpath t) hlast
    · exact hlast

/-- A chain one segment further is none of the parts of the chain. -/
theorem ofSegments_concat_not_mem_leads (segs : List String) (s : String) :
    Path.ofSegments (segs ++ [s]) ∉ leads segs :=
  fun hmem => Nat.lt_irrefl _ (length_lt_of_mem_leads hmem s)

/-- The parts of a chain can be told apart by their lengths. -/
theorem eq_of_mem_leads_of_length_eq {segs : List String} {p q : String} (hp : p ∈ leads segs)
    (hq : q ∈ leads segs) (h : p.length = q.length) : p = q := by
  induction segs using List.reverseRecOn with
  | nil => simp [leads] at hp
  | append_singleton segs s ih =>
    rw [leads_concat, List.mem_append, List.mem_singleton] at hp hq
    rcases hp with hp | rfl <;> rcases hq with hq | rfl
    · exact ih hp hq
    · exact absurd h (Nat.ne_of_lt (length_lt_of_mem_leads hp s))
    · exact absurd h.symm (Nat.ne_of_lt (length_lt_of_mem_leads hq s))
    · rfl

/-- The parts of a part of a path are the parts of the path up to there. -/
theorem leads_segments_ofSegments {segs : List String} {path : String} (hne : segs ≠ [])
    (h : segs <+: Path.segments path) :
    leads (Path.segments (Path.ofSegments segs)) = leads segs := by
  rw [Path.segments_ofSegments_of_prefix hne h]

/-! ### Where a reach starts -/

theorem contains_joinedLength {t : JoinTree ι} {segs : List String} {n : Nat}
    (h : t.joinedLength segs n ≠ 0) :
    t.aliases.contains (Path.ofSegments (segs.take (t.joinedLength segs n))) = true := by
  induction n with
  | zero => exact absurd rfl h
  | succ n ih =>
    rw [joinedLength] at h ⊢
    split
    · assumption
    · next hnot =>
      rw [if_neg hnot] at h
      exact ih h

theorem le_joinedLength {t : JoinTree ι} {segs : List String} {m n : Nat} (hm : 0 < m) (hmn : m ≤ n)
    (h : t.aliases.contains (Path.ofSegments (segs.take m)) = true) : m ≤ t.joinedLength segs n := by
  induction n with
  | zero => omega
  | succ n ih =>
    rw [joinedLength]
    split
    · exact hmn
    · next hnot =>
      by_cases hlast : m = n + 1
      · exact absurd (hlast ▸ h) hnot
      · exact ih (by omega)

theorem lead_append_missing (t : JoinTree ι) (path : String) :
    t.lead path ++ t.missing path = Path.segments path :=
  List.take_append_drop _ _

/-- The part of a path that a reach starts from is empty, or has an alias. -/
theorem lead_cases (t : JoinTree ι) (path : String) :
    t.lead path = [] ∨
      (t.lead path ≠ [] ∧ (t.aliases.get? (Path.ofSegments (t.lead path))).isSome = true) := by
  by_cases hzero : t.joinedLength (Path.segments path) (Path.segments path).length = 0
  · left
    rw [lead, hzero, List.take_zero]
  · right
    constructor
    · rw [lead, Ne, List.take_eq_nil_iff, not_or]
      exact ⟨hzero, Path.segments_ne_nil path⟩
    · rw [Aliases.get?, ← Assoc.contains_eq_isSome]
      exact contains_joinedLength hzero

/-- A request that walks from the root, or from a part of its path that is joined already. -/
def Anchors (t : JoinTree ι) (request : JoinRequest) : Prop :=
  (nonEmpty? request.start).getD t.aliases.root = t.aliases.root ∨
    Path.ofSegments (t.lead request.path) ≠ ""

theorem anchors_of_start (t : JoinTree ι) (h : request.start = none) : t.Anchors request := by
  left
  rw [h]
  rfl

/-- A request that anchors walks from the alias of the part of its path that is joined. -/
theorem Starts.aliasFor {e : ι} {parent : String} (hstarts : t.Starts request e parent)
    (hanchors : t.Anchors request) :
    t.aliases.aliasFor (Path.ofSegments (t.lead request.path)) = .ok parent := by
  cases hempty : (Path.ofSegments (t.lead request.path)).isEmpty with
  | true =>
    have hroot := hanchors.resolve_right (not_not_intro (by simpa using hempty))
    rw [hstarts.root hempty, hroot, Aliases.aliasFor, hempty]
    rfl
  | false => exact hstarts.joined hempty

/-! ### Selected paths -/

/-- The join at a path loads its entity. -/
def Selected (t : JoinTree ι) (path : String) : Prop :=
  ∃ j ∈ t.joins, j.path = path ∧ j.selected = true

theorem Aligned.selected_iff (ht : t.Aligned) {j : Join ι} (hj : j ∈ t.joins) :
    t.Selected j.path ↔ j.selected = true := by
  constructor
  · rintro ⟨k, hk, hpath, hselected⟩
    have hname := (ht.path_eq_iff hk hj).2 hpath
    have hk' := ht.get?_aliasName hk
    rw [hname, ht.get?_aliasName hj] at hk'
    exact Option.some.inj hk' ▸ hselected
  · exact fun h => ⟨j, hj, rfl, h⟩

theorem Aligned.selected_attached (ht : t.Aligned) {wish : String} {aliases : Aliases} {j : Join ι}
    (h : t.aliases.register wish j.path = .ok (j.aliasName, aliases)) (path : String) :
    (t.attached aliases j).Selected path ↔
      t.Selected path ∨ (j.path = path ∧ j.selected = true) := by
  rcases ht.attached_cases h with ⟨-, -, -, -, rfl, hjoins⟩ | ⟨hold, rfl, hjoins⟩
  · simp only [Selected, JoinTree.attached, hjoins, List.mem_append, List.mem_singleton, or_and_right,
      exists_or, exists_eq_left]
  · obtain ⟨k, hk, hkpath, hkname⟩ := ht.exists_of_get? hold
    simp only [Selected, JoinTree.attached, hjoins, List.mem_map]
    constructor
    · rintro ⟨_, ⟨i, hi, rfl⟩, rfl, hselected⟩
      simp only [Join.marked_selected, Bool.or_eq_true, Bool.and_eq_true,
        decide_eq_true_eq] at hselected
      rw [Join.marked_path]
      rcases hselected with hselected | ⟨hselected, hname⟩
      · exact .inl ⟨i, hi, rfl, hselected⟩
      · have := (ht.path_eq_iff hi hk).1 (hname.trans hkname.symm)
        exact .inr ⟨(this.trans hkpath).symm, hselected⟩
    · rintro (⟨i, hi, rfl, hselected⟩ | ⟨rfl, hselected⟩)
      · exact ⟨_, ⟨i, hi, rfl⟩, by simp, by simp [Join.marked_selected, hselected]⟩
      · exact ⟨_, ⟨k, hk, rfl⟩, by simp [hkpath], by simp [Join.marked_selected, hselected, hkname]⟩

theorem Aligned.joins_attached_of_unselected (ht : t.Aligned) {wish : String} {aliases : Aliases}
    {j : Join ι} (h : t.aliases.register wish j.path = .ok (j.aliasName, aliases))
    (hselected : j.selected = false) : t.joins <+: (t.attached aliases j).joins := by
  rcases ht.attached_cases h with ⟨-, -, -, -, rfl, hjoins⟩ | ⟨-, rfl, hjoins⟩
  · rw [JoinTree.attached, hjoins]
    exact List.prefix_append _ _
  · have hmap : t.joins.map (Join.marked j.aliasName false) = t.joins :=
      (List.map_congr_left fun k _ => Join.marked_false _ k).trans (List.map_id _)
    have hattached : (t.attached t.aliases j).joins = t.joins := by
      rw [JoinTree.attached, hjoins, hselected, hmap]
    exact hattached ▸ List.prefix_refl _

/-- Marking for a request selects the parts of its path that are joined. -/
theorem Aligned.selected_selectFor (ht : t.Aligned) {path : String} :
    (t.selectFor request).Selected path ↔
      t.Selected path ∨ (path ∈ selecting request ∧ ∃ j ∈ t.joins, j.path = path) := by
  rw [ht.selectFor_eq]
  simp only [Selected, List.mem_map]
  constructor
  · rintro ⟨_, ⟨j, hj, rfl⟩, rfl, hselected⟩
    simp only [Join.selectedAt, Bool.or_eq_true, decide_eq_true_eq] at hselected
    exact hselected.imp (fun h => ⟨j, hj, rfl, h⟩) fun h => ⟨h, j, hj, rfl⟩
  · rintro (⟨j, hj, rfl, hselected⟩ | ⟨hpath, j, hj, rfl⟩)
    · exact ⟨_, ⟨j, hj, rfl⟩, rfl, by simp [Join.selectedAt, hselected]⟩
    · exact ⟨_, ⟨j, hj, rfl⟩, rfl, by simp [Join.selectedAt, hpath]⟩

/-! ### The walk -/

/-- The alias of a path after a join is attached. -/
theorem Aligned.get?_attached (ht : t.Aligned) {wish : String} {aliases : Aliases} {j : Join ι}
    (h : t.aliases.register wish j.path = .ok (j.aliasName, aliases)) (path : String) :
    (t.attached aliases j).aliases.get? path =
      if j.path = path then some j.aliasName else t.aliases.get? path := by
  rcases ht.attached_cases h with ⟨hnew, -, -, -, rfl, -⟩ | ⟨hold, rfl, -⟩
  · have hnone : Assoc.get? t.aliases.entries j.path = none := by
      rw [Assoc.get?_eq_none_iff, ht.keys_entries]
      exact hnew
    rw [JoinTree.attached, Aliases.get?, Assoc.get?_append, Assoc.get?_cons]
    split
    · next heq => rw [← heq, hnone, Option.none_or]
    · exact Option.or_none
  · rw [JoinTree.attached]
    split
    · next heq => rw [← heq, hold]
    · rfl

theorem prefix_of_append_cons {before rest segs : List String} {s : String}
    (h : before ++ s :: rest = segs) : before ++ [s] <+: segs :=
  ⟨rest, by rw [← h, List.append_assoc, List.singleton_append]⟩

/-- What is wished for the next segment of a walk is what is wished for the part of the path up to
it. -/
theorem wishFor_eq_wish {before rest : List String} {s : String}
    (h : before ++ s :: rest = Path.segments request.path) (hroot : u.aliases.root = t.aliases.root) :
    u.wishFor request (Path.ofSegments (before ++ [s])) rest =
      request.wish t.aliases (Path.ofSegments (before ++ [s])) := by
  have hpart : before ++ [s] <+: Path.segments request.path := prefix_of_append_cons h
  have hend : Path.ofSegments (before ++ [s]) = request.path ↔ rest = [] := by
    constructor
    · intro heq
      have hsegs := Path.segments_ofSegments_of_prefix (by simp) hpart
      rw [heq, ← h, List.append_right_inj, List.cons_eq_cons] at hsegs
      exact hsegs.2
    · rintro rfl
      rw [h, Path.ofSegments_segments]
  rw [wishFor, JoinRequest.wish, Aliases.synthesize_congr hroot]
  simp only [hend, List.isEmpty_iff]

/-- How far a walk along a path has come: the tree has grown from `t` to `u` by aliases and marks for
the parts of `before`, and `todo` is left to walk. -/
structure Passed (request : JoinRequest) (t u : JoinTree ι) (before todo : List String) : Prop where
  aligned : u.Aligned
  grows : t.Extends u
  path : before ++ todo = Path.segments request.path
  added : ∀ path aliasName, u.aliases.get? path = some aliasName →
    t.aliases.get? path = some aliasName ∨
      (path ∈ leads before ∧ aliasName = request.wish t.aliases path)
  keeps : ∀ path, t.Selected path → u.Selected path
  selected : ∀ path, u.Selected path →
    t.Selected path ∨ (request.select = true ∧ path ∈ leads before)
  unselected : request.select = false → t.joins <+: u.joins

namespace Passed

/-- At its start a walk has passed the part of its path that it starts from. -/
theorem start (ht : t.Aligned) (request : JoinRequest) :
    Passed request t t (t.lead request.path) (t.missing request.path) where
  aligned := ht
  grows := .refl t
  path := lead_append_missing t request.path
  added _ _ h := .inl h
  keeps _ h := h
  selected _ h := .inl h
  unselected _ := List.prefix_refl _

theorem step {before rest : List String} {s : String} {j : Join ι} {aliases : Aliases}
    (h : Passed request t u before (s :: rest)) (hpath : j.path = Path.ofSegments (before ++ [s]))
    (hselect : j.selected = request.select)
    (hregister : u.aliases.register (u.wishFor request (Path.ofSegments (before ++ [s])) rest) j.path =
      .ok (j.aliasName, aliases)) :
    Passed request t (u.attached aliases j) (before ++ [s]) rest := by
  have haligned := h.aligned
  have hselected := haligned.selected_attached hregister
  have hlast : j.path ∈ leads (before ++ [s]) := hpath ▸ mem_leads_self (by simp)
  have hmore := leads_append_subset before [s]
  constructor
  case aligned => exact haligned.attached (wishFor_ne_empty u request _ rest) hregister
  case grows => exact h.grows.trans (haligned.extends_attached hregister)
  case path =>
    rw [List.append_assoc]
    exact h.path
  case added =>
    intro path aliasName hget
    have hold : u.aliases.get? path = some aliasName → t.aliases.get? path = some aliasName ∨
        (path ∈ leads (before ++ [s]) ∧ aliasName = request.wish t.aliases path) := fun hget =>
      (h.added path aliasName hget).imp_right fun ⟨hlead, hwish⟩ => ⟨hmore hlead, hwish⟩
    rw [haligned.get?_attached hregister] at hget
    split at hget
    · next heq =>
      rcases haligned.attached_cases hregister with ⟨-, -, -, hwish, -, -⟩ | ⟨hget', -, -⟩
      · refine .inr ⟨heq ▸ hlast, ?_⟩
        rw [← Option.some.inj hget, hwish, wishFor_eq_wish h.path h.grows.rootAlias, ← hpath, heq]
      · exact hold (heq ▸ hget'.trans hget)
    · exact hold hget
  case keeps => exact fun path hp => (hselected path).2 (.inl (h.keeps path hp))
  case selected =>
    intro path hp
    rcases (hselected path).1 hp with hp | ⟨rfl, hmark⟩
    · exact (h.selected path hp).imp_right fun ⟨hmark, hlead⟩ => ⟨hmark, hmore hlead⟩
    · exact .inr ⟨hselect ▸ hmark, hlast⟩
  case unselected =>
    intro hmark
    exact (h.unselected hmark).trans
      (haligned.joins_attached_of_unselected hregister (hselect.trans hmark))

/-- A walk along a whole path, whose parts are then all joined, selects those parts where that is asked
for, and nothing else. -/
theorem selected_selectFor (h : Passed request t u (Path.segments request.path) [])
    (hjoined : ∀ path ∈ leads (Path.segments request.path), ∃ j ∈ u.joins, j.path = path)
    (path : String) :
    (u.selectFor request).Selected path ↔ t.Selected path ∨
      (request.select = true ∧ path ∈ leads (Path.segments request.path)) := by
  rw [h.aligned.selected_selectFor, mem_selecting]
  constructor
  · rintro (hp | ⟨hmark, -⟩)
    · exact h.selected path hp
    · exact .inr hmark
  · rintro (hp | hmark)
    · exact .inl (h.keeps path hp)
    · exact .inr ⟨hmark, hjoined path hmark.2⟩

end Passed

/-- A reach walks as far as it can, then marks its path. What holds where the walk starts and is kept by each
join that it attaches holds where it stops. -/
theorem Starts.exists_stops {e : ι} {parent : String} (hstarts : t.Starts request e parent)
    (ht : t.Aligned) {P : JoinTree ι → List String → ι → String → List String → Prop}
    (h₀ : P t (t.lead request.path) e parent (t.missing request.path))
    (hstep : ∀ u before e s rest j aliases, Passed request t u before (s :: rest) →
      P u before e j.parent (s :: rest) → (g.entity e).relation? s = some j.relation →
      j.path = Path.ofSegments (before ++ [s]) → j.selected = request.select →
      u.aliases.register (u.wishFor request (Path.ofSegments (before ++ [s])) rest) j.path =
        .ok (j.aliasName, aliases) →
      P (u.attached aliases j) (before ++ [s]) j.relation.target j.aliasName rest) :
    ∃ u before e parent todo walked, Passed request t u before todo ∧ P u before e parent todo ∧
      Stops g request u before e todo walked ∧ (reach g request).exec t = finish request (walked, u) := by
  rcases hextend : (extend g request (t.lead request.path) e parent
    (t.missing request.path)).exec t with ⟨walked, u⟩
  obtain ⟨done, todo, e', parent', -, ⟨hpassed, hP⟩, hstop⟩ := extend_induct
    (P := fun u before e parent todo => Passed request t u before todo ∧ P u before e parent todo)
    (fun u before e parent s rest relation aliasName aliases hu hrelation hregister =>
      let j : Join ι := ⟨parent, relation, aliasName, Path.ofSegments (before ++ [s]), request.select⟩
      ⟨hu.1.step (j := j) rfl rfl hregister,
        hstep u before e s rest j aliases hu.1 hu.2 hrelation rfl rfl hregister⟩)
    ⟨.start ht request, h₀⟩ hextend
  exact ⟨u, _, e', parent', todo, walked, hpassed, hP, hstop, by rw [hstarts.exec_reach, hextend]⟩

end JoinTree

end EntityQuery
