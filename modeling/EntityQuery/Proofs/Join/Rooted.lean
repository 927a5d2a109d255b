import EntityQuery.Proofs.Join.Lookup

/-! Trees of joins in which all hangs together. Where requests walk from the root or from what is joined, each
join stands at a path whose relations lead from the root entity to it, and hangs on the join one segment
before it, or on the root. A walk then attaches new joins only. -/

namespace EntityQuery

variable {ι : Type} {g : EntityGraph ι}

namespace JoinTree

variable {t t' u : JoinTree ι} {request : JoinRequest}

/-- Joins hang on the alias of the path one segment before their own. -/
def Hung (t : JoinTree ι) : Prop :=
  ∀ j ∈ t.joins, t.aliases.aliasFor j.parentPath = .ok j.parent

theorem Hung.selectFor (h : t.Hung) (ht : t.Aligned) (request : JoinRequest) :
    (t.selectFor request).Hung := by
  rw [ht.selectFor_eq]
  intro k hk
  obtain ⟨j, hj, rfl⟩ := List.mem_map.1 hk
  exact h j hj

/-- A faithful tree over a root that has no relation of the empty name, with its joins in order and where
they belong. -/
structure Rooted (g : EntityGraph ι) (t : JoinTree ι) : Prop extends Faithful g t where
  named : (g.entity t.root).relation? "" = none
  hung : t.Hung
  ordered : t.Ordered

theorem rooted_start {root : ι} (hroot : (g.entity root).relation? "" = none) (aliasName : String) :
    (start root aliasName).Rooted g where
  toFaithful := faithful_start g root aliasName
  named := hroot
  hung := by simp [Hung, start]
  ordered := ordered_start root aliasName

namespace Rooted

theorem selectFor (ht : t.Rooted g) (request : JoinRequest) : (t.selectFor request).Rooted g where
  toFaithful := ht.toFaithful.selectFor request
  named := (ht.aligned.extends_selectFor request).root.symm ▸ ht.named
  hung := ht.hung.selectFor ht.aligned request
  ordered := ht.ordered.selectFor ht.aligned request

theorem path_ne_empty (ht : t.Rooted g) {j : Join ι} (hj : j ∈ t.joins) : j.path ≠ "" := by
  intro hempty
  have hrelation := ht.relation j hj
  rw [hempty, show Path.segments "" = [""] from rfl, EntityGraph.relationAlong, ht.named] at hrelation
  cases hrelation

theorem aliasName_ne_root (ht : t.Rooted g) {j : Join ι} (hj : j ∈ t.joins) :
    j.aliasName ≠ t.aliases.root :=
  fun h => ht.path_ne_empty hj (ht.aligned.rootAlias j hj h)

/-- A join at a path of one segment hangs on the root. -/
theorem parent_root (ht : t.Rooted g) {j : Join ι} (hj : j ∈ t.joins)
    (hone : (Path.segments j.path).length = 1) : j.parent = t.aliases.root := by
  have hparent : j.parentPath = "" := by
    obtain ⟨s, hs⟩ := List.length_eq_one_iff.1 hone
    rw [Join.parentPath, Path.parent, hs]
    rfl
  have hhung := ht.hung j hj
  rw [hparent] at hhung
  exact (Except.ok.inj hhung).symm

/-- A join at a longer path hangs on the join one segment before it, which comes earlier. -/
theorem parent_join (ht : t.Rooted g) {before after : Joins ι} {j : Join ι}
    (hjoins : t.joins = before ++ j :: after) (hlong : 1 < (Path.segments j.path).length) :
    ∃ k ∈ before, k.path = j.parentPath ∧ k.aliasName = j.parent := by
  obtain ⟨segs, s, hsegs⟩ := List.eq_nil_or_concat (Path.segments j.path) |>.resolve_left
    (Path.segments_ne_nil _)
  rw [List.concat_eq_append] at hsegs
  have hne : segs ≠ [] := by
    rintro rfl
    rw [hsegs] at hlong
    exact Nat.lt_irrefl _ hlong
  have hparent : j.parentPath = Path.ofSegments segs := by
    rw [Join.parentPath, Path.parent, hsegs, List.dropLast_concat]
  have hlead : j.parentPath ∈ leads segs := hparent ▸ mem_leads_self hne
  have hshorter : j.parentPath ≠ j.path := by
    intro heq
    rw [heq, ← Path.ofSegments_segments j.path, hsegs] at hlead
    exact ofSegments_concat_not_mem_leads segs s hlead
  have hearlier := ((ht.ordered before j after hjoins).parts j.parentPath
    (hsegs ▸ leads_append_subset segs [s] hlead)).resolve_left hshorter
  obtain ⟨k, hk, hkpath⟩ := List.mem_map.1 hearlier
  refine ⟨k, hk, hkpath, ?_⟩
  have hkmem : k ∈ t.joins := by simp [hjoins, hk]
  have hget := Aliases.aliasFor_of_get? (ht.path_ne_empty hkmem) (ht.aligned.get?_of_mem hkmem)
  rw [hkpath, ht.hung j (by simp [hjoins])] at hget
  exact (Except.ok.inj hget).symm

end Rooted

/-! ### Walks that attach new joins -/

/-- How far a walk has come that attaches new joins only: they stand at the parts of its path that were
missing, in order, and it has come to the alias of the last of them. -/
structure Grown (g : EntityGraph ι) (request : JoinRequest) (t u : JoinTree ι) (before : List String)
    (parent : String) : Prop where
  rooted : u.Rooted g
  climbed : u.Climbed before parent
  parent : u.aliases.aliasFor (Path.ofSegments before) = .ok parent
  added : ∃ added, u.joins = t.joins ++ added ∧
    added.map (·.path) = (leads before).drop (t.lead request.path).length
  length : (t.lead request.path).length ≤ before.length

theorem Grown.start (ht : t.Rooted g) (hanchors : t.Anchors request) {e : ι} {parent : String}
    (hstarts : t.Starts request e parent) : Grown g request t t (t.lead request.path) parent where
  rooted := ht
  climbed := .start ht.aligned ht.ordered hanchors hstarts
  parent := hstarts.aliasFor hanchors
  added := by
    refine ⟨[], (List.append_nil _).symm, ?_⟩
    rw [List.drop_of_length_le (by simp [leads])]
    rfl
  length := Nat.le_refl _

/-- No part of a requested path that is longer than its lead has an alias. -/
theorem get?_eq_none_of_lead_lt {n : Nat} (hlead : (t.lead request.path).length < n)
    (hn : n ≤ (Path.segments request.path).length) :
    t.aliases.get? (Path.ofSegments ((Path.segments request.path).take n)) = none := by
  rw [Option.eq_none_iff_forall_ne_some]
  intro aliasName hget
  have hcontains : t.aliases.contains
      (Path.ofSegments ((Path.segments request.path).take n)) = true := by
    rw [Aliases.contains, Assoc.contains_eq_isSome]
    exact Option.isSome_iff_exists.2 ⟨aliasName, hget⟩
  have hle := le_joinedLength (by omega) hn hcontains
  rw [lead, List.length_take] at hlead
  omega

/-- The next segment of a walk is not joined yet. -/
theorem Grown.next_not_mem {before rest : List String} {s parent : String}
    (h : Grown g request t u before parent) (ht : t.Aligned)
    (hpath : before ++ s :: rest = Path.segments request.path) :
    Path.ofSegments (before ++ [s]) ∉ u.joins.map (·.path) := by
  obtain ⟨added, hjoins, hadded⟩ := h.added
  have hprefix := prefix_of_append_cons hpath
  rw [hjoins, List.map_append, hadded, List.mem_append, not_or]
  constructor
  · have htake : (Path.segments request.path).take (before.length + 1) = before ++ [s] := by
      have := List.prefix_iff_eq_take.1 hprefix
      rwa [List.length_append, List.length_singleton, eq_comm] at this
    have hle := hprefix.length_le
    rw [List.length_append, List.length_singleton] at hle
    have hlength := h.length
    have hnone : t.aliases.get?
        (Path.ofSegments ((Path.segments request.path).take (before.length + 1))) = none :=
      get?_eq_none_of_lead_lt (by omega) hle
    rw [htake] at hnone
    rw [← ht.isSome_get?_iff, hnone]
    simp
  · exact fun hmem => ofSegments_concat_not_mem_leads before s (List.mem_of_mem_drop hmem)

theorem Grown.step (ht : t.Aligned) {before rest : List String} {e : ι} {s : String} {j : Join ι}
    {aliases : Aliases} (hstrode : Strode g request t u before e (s :: rest))
    (h : Grown g request t u before j.parent)
    (hrelation : (g.entity e).relation? s = some j.relation)
    (hpath : j.path = Path.ofSegments (before ++ [s])) (hselect : j.selected = request.select)
    (hregister : u.aliases.register (u.wishFor request (Path.ofSegments (before ++ [s])) rest) j.path =
      .ok (j.aliasName, aliases)) :
    Grown g request t (u.attached aliases j) (before ++ [s]) j.aliasName := by
  have haligned := h.rooted.aligned
  have hroot : (g.entity t.root).relation? "" = none := hstrode.passed.grows.root ▸ h.rooted.named
  have hnew : j.path ∉ u.joins.map (·.path) := hpath ▸ h.next_not_mem ht hstrode.passed.path
  have hextends := haligned.extends_attached hregister
  have hjoins : (u.attached aliases j).joins = u.joins ++ [j] := by
    rcases haligned.attached_cases hregister with ⟨-, -, -, -, -, hjoins⟩ | ⟨hold, -, -⟩
    · exact hjoins
    · rw [← haligned.isSome_get?_iff, hold] at hnew
      exact absurd rfl hnew
  have hclimbed := h.climbed.step hstrode.passed hpath hregister
  constructor
  case rooted =>
    refine ⟨h.rooted.toFaithful.attached hroot hstrode hrelation hpath hselect hregister,
      h.rooted.named, ?_, hclimbed.ordered⟩
    intro k hk
    rw [hjoins, List.mem_append, List.mem_singleton] at hk
    rcases hk with hk | rfl
    · exact hextends.aliasFor (h.rooted.hung k hk)
    · have hparent : k.parentPath = Path.ofSegments before := by
        rw [Join.parentPath, Path.parent, hpath, hstrode.segments_next, List.dropLast_concat]
      rw [hparent]
      exact hextends.aliasFor h.parent
  case climbed => exact hclimbed
  case parent =>
    rw [← hpath]
    refine Aliases.aliasFor_of_get? (hpath ▸ hstrode.next_ne_empty hroot hrelation) ?_
    rw [haligned.get?_attached hregister, if_pos rfl]
  case added =>
    obtain ⟨added, hu, hadded⟩ := h.added
    refine ⟨added ++ [j], by rw [hjoins, hu, List.append_assoc], ?_⟩
    have hlength := h.length
    rw [List.map_append, hadded, leads_concat, List.drop_append_of_le_length (by simpa [leads]),
      List.map_singleton, hpath]
  case length =>
    have := h.length
    rw [List.length_append]
    omega

/-! ### Reaching -/

/-- What reaching a path does to a rooted tree. -/
structure Reached (g : EntityGraph ι) (request : JoinRequest) (t t' : JoinTree ι) (bound : String) :
    Prop extends Answered request t t' bound where
  rooted : t'.Rooted g

namespace Rooted

theorem exists_grown (ht : t.Rooted g) (hanchors : t.Anchors request) :
    ∃ u before e parent todo walked, Strode g request t u before e todo ∧
      Grown g request t u before parent ∧ Stops g request u before e todo walked ∧
      (JoinTree.reach g request).exec t = finish request (walked, u) :=
  ht.toHonest.exists_stops_of ht.named request
    (P := fun u before parent => Grown g request t u before parent)
    (fun _ _ hstarts => .start ht hanchors hstarts)
    fun _ _ _ _ _ _ _ hstrode h hrelation hpath hselect hregister =>
      h.step ht.aligned hstrode hrelation hpath hselect hregister

/-- A request keeps a tree rooted, also one that fails. -/
theorem exec_reach (ht : t.Rooted g) (hanchors : t.Anchors request) :
    ((JoinTree.reach g request).exec t).2.Rooted g := by
  obtain ⟨u, _, _, _, _, walked, -, hgrown, -, hrun⟩ := ht.exists_grown hanchors
  rw [hrun]
  cases walked with
  | error cause => exact hgrown.rooted
  | ok _ => exact hgrown.rooted.selectFor request

theorem reach (ht : t.Rooted g) (hanchors : t.Anchors request) {bound : String}
    (h : (JoinTree.reach g request).exec t = (.ok bound, t')) : Reached g request t t' bound where
  toAnswered := ht.ordered.reach ht.aligned hanchors h
  rooted := by
    have ht' := ht.exec_reach hanchors
    rwa [h] at ht'

/-- Requests in turn, which start at the root, keep a tree rooted. -/
theorem answers (ht : t.Rooted g) {requests : List JoinRequest}
    (hstart : ∀ request ∈ requests, request.start = none) :
    (JoinTree.answers g requests t).2.Rooted g := by
  refine answers_induct (P := fun u => u.Rooted g) (fun request hrequest u hu => ?_) ht
  exact hu.exec_reach (u.anchors_of_start (hstart request hrequest))

end Rooted

end JoinTree

end EntityQuery
