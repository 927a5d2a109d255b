import Mathlib.Data.List.Forall2
import EntityQuery.Proofs.Join.Walk

/-! Requests one after another, from a tree without joins. What the tree holds after them can be read off
the requests: the parts of their paths, each under the alias that the first request for it wishes for,
selected where a request asks for that. -/

namespace EntityQuery

variable {ι : Type} {g : EntityGraph ι}

/-- The path is a part of the one that is requested, or all of it. -/
def JoinRequest.Passes (request : JoinRequest) (path : String) : Prop :=
  path ∈ JoinTree.leads (Path.segments request.path)

instance (request : JoinRequest) (path : String) : Decidable (request.Passes path) :=
  inferInstanceAs (Decidable (path ∈ _))

/-- The alias of a path after requests: what the first one that passes it wishes for. -/
def Aliases.settled (a : Aliases) (requests : List JoinRequest) (path : String) : Option String :=
  (requests.find? fun request => request.Passes path).map (·.wish a path)

namespace Aliases

theorem settled_concat (a : Aliases) (requests : List JoinRequest) (request : JoinRequest)
    (path : String) :
    a.settled (requests ++ [request]) path = (a.settled requests path).or
      (if request.Passes path then some (request.wish a path) else none) := by
  rw [settled, settled, List.find?_append, Option.map_or]
  congr 1
  by_cases hpass : request.Passes path <;> simp [hpass]

theorem isSome_settled_iff (a : Aliases) (requests : List JoinRequest) (path : String) :
    (a.settled requests path).isSome = true ↔ ∃ request ∈ requests, request.Passes path := by
  rw [settled, Option.isSome_map, List.find?_isSome]
  simp

theorem settled_congr {a b : Aliases} (h : a.root = b.root) (requests : List JoinRequest)
    (path : String) : a.settled requests path = b.settled requests path := by
  unfold settled
  congr 1
  funext request
  exact JoinRequest.wish_congr h request path

/-- Requests that ask for no aliases settle on those made from the paths. -/
theorem settled_of_unnamed (a : Aliases) {requests : List JoinRequest}
    (h : ∀ request ∈ requests, nonEmpty? request.aliasName = none) {path : String}
    (hpass : ∃ request ∈ requests, request.Passes path) :
    a.settled requests path = some (a.synthesize path) := by
  obtain ⟨request, hfind⟩ := Option.isSome_iff_exists.1
    (List.find?_isSome (p := fun request : JoinRequest => request.Passes path).2 (by simpa using hpass))
  have hwish : request.wish a path = a.synthesize path := by
    rw [JoinRequest.wish, h request (List.mem_of_find?_eq_some hfind), ite_self, Option.getD_none]
  rw [settled, hfind, Option.map_some, hwish]

end Aliases

/-- A join that comes after joins at all shorter parts of its path, and hangs on the root or on the join
one segment before it. -/
structure Join.Follows (rootAlias : String) (earlier : Joins ι) (j : Join ι) : Prop where
  parts : ∀ path ∈ JoinTree.leads (Path.segments j.path),
    path = j.path ∨ path ∈ earlier.map (·.path)
  parent : j.parent = rootAlias ∨ ∃ k ∈ earlier, k.path = j.parentPath ∧ k.aliasName = j.parent

namespace JoinTree

variable {t t' u : JoinTree ι} {request : JoinRequest}

/-! ### Order of joins -/

/-- Joins come after those they depend on. -/
def Ordered (t : JoinTree ι) : Prop :=
  ∀ earlier j later, t.joins = earlier ++ j :: later → j.Follows t.aliases.root earlier

theorem ordered_start (root : ι) (aliasName : String) : (start root aliasName).Ordered := by
  intro earlier j later h
  simp [start] at h

theorem Ordered.map_joins (h : t.Ordered) {f : Join ι → Join ι} (hpath : ∀ j, (f j).path = j.path)
    (hname : ∀ j, (f j).aliasName = j.aliasName) (hparent : ∀ j, (f j).parent = j.parent) :
    ({ t with joins := t.joins.map f } : JoinTree ι).Ordered := by
  apply forall_split_map
  intro earlier j later hsplit
  obtain ⟨hparts, hfollows⟩ := h earlier j later hsplit
  constructor
  · simpa [hpath, Function.comp_def] using hparts
  · rw [hparent, Join.parentPath, hpath]
    refine hfollows.imp_right ?_
    rintro ⟨k, hk, hkpath, hkname⟩
    exact ⟨f k, List.mem_map_of_mem hk, (hpath k).trans hkpath, (hname k).trans hkname⟩

theorem Ordered.selectFor (h : t.Ordered) (ht : t.Aligned) (request : JoinRequest) :
    (t.selectFor request).Ordered := by
  rw [ht.selectFor_eq]
  exact h.map_joins (fun _ => rfl) (fun _ => rfl) fun _ => rfl

/-- Where a path is joined, its parts are. -/
theorem Ordered.mem_paths_of_mem_leads (h : t.Ordered) {j : Join ι} (hj : j ∈ t.joins) {path : String}
    (hpath : path ∈ leads (Path.segments j.path)) : path ∈ t.joins.map (·.path) := by
  obtain ⟨earlier, later, hsplit⟩ := List.append_of_mem hj
  rcases (h earlier j later hsplit).parts path hpath with rfl | hpath
  · exact List.mem_map_of_mem hj
  · rw [hsplit, List.map_append]
    exact List.mem_append_left _ hpath

/-- How far a walk has come in a tree in which no part is missing: all that it has passed is joined, and
it has come to the alias of the last part. -/
structure Climbed (u : JoinTree ι) (before : List String) (parent : String) : Prop where
  ordered : u.Ordered
  joined : ∀ path ∈ leads before, path ∈ u.joins.map (·.path)
  parent : parent = u.aliases.root ∨ u.aliases.get? (Path.ofSegments before) = some parent

theorem Climbed.start (ht : t.Aligned) (ho : t.Ordered) (hanchors : t.Anchors request) {e : ι}
    {parent : String} (hstarts : t.Starts request e parent) :
    t.Climbed (t.lead request.path) parent where
  ordered := ho
  joined := by
    intro path hpath
    rcases t.lead_cases request.path with hlead | ⟨hlead, hjoined⟩
    · rw [hlead] at hpath
      cases hpath
    · rw [ht.isSome_get?_iff, List.mem_map] at hjoined
      obtain ⟨j, hj, hjpath⟩ := hjoined
      rw [← leads_segments_ofSegments hlead (List.take_prefix _ _), ← hjpath] at hpath
      exact ho.mem_paths_of_mem_leads hj hpath
  parent := Aliases.eq_root_or_of_aliasFor (hstarts.aliasFor hanchors)

theorem Climbed.step {before rest : List String} {s : String} {j : Join ι} {aliases : Aliases}
    (h : u.Climbed before j.parent) (hpassed : Passed request t u before (s :: rest))
    (hpath : j.path = Path.ofSegments (before ++ [s]))
    (hregister : u.aliases.register (u.wishFor request (Path.ofSegments (before ++ [s])) rest) j.path =
      .ok (j.aliasName, aliases)) :
    (u.attached aliases j).Climbed (before ++ [s]) j.aliasName := by
  have hu := hpassed.aligned
  have hnext := hu.attached (wishFor_ne_empty u request _ rest) hregister
  have hget := hu.get?_attached hregister
  have hsegs : Path.segments j.path = before ++ [s] := by
    rw [hpath, Path.segments_ofSegments_of_prefix (by simp) (prefix_of_append_cons hpassed.path)]
  constructor
  case ordered =>
    rcases hu.attached_cases hregister with ⟨-, -, -, -, rfl, hjoins⟩ | ⟨-, rfl, hjoins⟩
    · rw [Ordered, JoinTree.attached, hjoins]
      apply forall_split_concat h.ordered
      constructor
      · intro path hmem
        rw [hsegs, leads_concat, List.mem_append, List.mem_singleton, ← hpath] at hmem
        exact hmem.symm.imp_right (h.joined path)
      · refine h.parent.imp_right fun hparent => ?_
        obtain ⟨k, hk, hkpath, hkname⟩ := hu.exists_of_get? hparent
        refine ⟨k, hk, ?_, hkname⟩
        rw [Join.parentPath, Path.parent, hsegs, List.dropLast_concat, hkpath]
    · rw [Ordered, JoinTree.attached, hjoins]
      exact h.ordered.map_joins (by simp) (by simp) (by simp)
  case joined =>
    intro path hmem
    rw [← hnext.isSome_get?_iff, hget]
    split
    · rfl
    · next hne =>
      rw [leads_concat, List.mem_append, List.mem_singleton, ← hpath] at hmem
      rw [hu.isSome_get?_iff]
      exact h.joined path (hmem.resolve_right (Ne.symm hne))
  case parent =>
    right
    rw [hget, if_pos hpath]

/-! ### One request -/

/-- What a request does to a tree in which no part is missing. -/
structure Answered (request : JoinRequest) (t t' : JoinTree ι) (bound : String) : Prop where
  aligned : t'.Aligned
  grows : t.Extends t'
  ordered : t'.Ordered
  aliases : ∀ path, t'.aliases.get? path = (t.aliases.get? path).or
    (if request.Passes path then some (request.wish t.aliases path) else none)
  selected : ∀ path, t'.Selected path ↔
    t.Selected path ∨ (request.select = true ∧ request.Passes path)
  unselected : request.select = false → t.joins <+: t'.joins
  bound : t'.aliases.get? request.path = some bound

theorem Ordered.reach (ho : t.Ordered) (ht : t.Aligned) (hanchors : t.Anchors request)
    {bound : String} (h : (JoinTree.reach g request).exec t = (.ok bound, t')) :
    Answered request t t' bound := by
  obtain ⟨e, parent, -, hstarts, -⟩ := reach_eq_ok h
  obtain ⟨t₁, _, _, _, _, _, hpassed, hclimbed, hstop, hrun⟩ := hstarts.exists_stops (g := g) ht
    (P := fun u before _ parent _ => u.Climbed before parent) (.start ht ho hanchors hstarts)
    fun u before e s rest j aliases hpassed hu _ hpath _ hregister => hu.step hpassed hpath hregister
  obtain ⟨rfl, rfl, hbound⟩ := finish_eq_ok (hrun.symm.trans h)
  obtain rfl := hstop.eq_nil
  have hwhole := hpassed.path
  rw [List.append_nil] at hwhole
  subst hwhole
  have ht₁ := hpassed.aligned
  constructor
  case aligned => exact ht₁.selectFor request
  case grows => exact hpassed.grows.trans (ht₁.extends_selectFor request)
  case ordered => exact hclimbed.ordered.selectFor ht₁ request
  case bound => exact hbound
  case selected =>
    exact hpassed.selected_selectFor fun path hpath => List.mem_map.1 (hclimbed.joined path hpath)
  case unselected =>
    intro hmark
    rw [JoinTree.selectFor, hmark, if_neg (by simp)]
    exact hpassed.unselected hmark
  case aliases =>
    intro path
    rw [ht₁.aliases_selectFor]
    cases hold : t.aliases.get? path with
    | some aliasName => rw [hpassed.grows.get? hold, Option.some_or]
    | none =>
      rw [Option.none_or]
      cases hnew : t₁.aliases.get? path with
      | none =>
        rw [if_neg]
        intro hpass
        have hjoined := hclimbed.joined path hpass
        rw [← ht₁.isSome_get?_iff, hnew] at hjoined
        cases hjoined
      | some aliasName =>
        rcases hpassed.added path aliasName hnew with h | ⟨hpass, rfl⟩
        · cases hold.symm.trans h
        · exact (if_pos hpass).symm

/-! ### Requests in turn -/

/-- The answers to requests in turn, with the tree after them. A request that fails may leave joins
behind, and the next one finds them. -/
def answers (g : EntityGraph ι) : List JoinRequest → JoinTree ι →
    List (Except QueryError String) × JoinTree ι
  | [], t => ([], t)
  | request :: rest, t =>
    let (answer, t₁) := (reach g request).exec t
    let (more, t₂) := answers g rest t₁
    (answer :: more, t₂)

theorem answers_cons (g : EntityGraph ι) (request : JoinRequest) (rest : List JoinRequest)
    (t : JoinTree ι) :
    answers g (request :: rest) t =
      (((reach g request).exec t).1 :: (answers g rest ((reach g request).exec t).2).1,
        (answers g rest ((reach g request).exec t).2).2) :=
  rfl

theorem answers_append (g : EntityGraph ι) (earlier later : List JoinRequest) (t : JoinTree ι) :
    answers g (earlier ++ later) t =
      ((answers g earlier t).1 ++ (answers g later (answers g earlier t).2).1,
        (answers g later (answers g earlier t).2).2) := by
  induction earlier generalizing t with
  | nil => rfl
  | cons request rest ih =>
    rw [List.cons_append, answers_cons, answers_cons, ih]
    rfl

/-- What every request keeps, requests in turn keep. -/
theorem answers_induct {P : JoinTree ι → Prop} {requests : List JoinRequest}
    (hstep : ∀ request ∈ requests, ∀ t, P t → P ((reach g request).exec t).2) {t : JoinTree ι}
    (h₀ : P t) : P (answers g requests t).2 := by
  induction requests generalizing t with
  | nil => exact h₀
  | cons request rest ih =>
    apply ih
    · exact fun request hrequest => hstep request (List.mem_cons_of_mem _ hrequest)
    · exact hstep request List.mem_cons_self t h₀

theorem Aligned.answers (ht : t.Aligned) (g : EntityGraph ι) (requests : List JoinRequest) :
    (answers g requests t).2.Aligned ∧ t.Extends (JoinTree.answers g requests t).2 := by
  apply answers_induct (P := fun u => u.Aligned ∧ t.Extends u)
  · rintro request - u ⟨hu, hgrows⟩
    have hreach := hu.exec_reach g request
    exact ⟨hreach.1, hgrows.trans hreach.2⟩
  · exact ⟨ht, .refl t⟩

theorem answers_root (g : EntityGraph ι) (root : ι) (rootAlias : String)
    (requests : List JoinRequest) :
    (answers g requests (start root rootAlias)).2.root = root ∧
      (answers g requests (start root rootAlias)).2.aliases.root = rootAlias := by
  have hgrows := ((aligned_start root rootAlias).answers g requests).2
  exact ⟨hgrows.root, hgrows.rootAlias⟩

/-- Requests that all succeed do so in parts. -/
theorem answers_append_eq_ok {earlier later : List JoinRequest} {bounds : List String}
    (h : answers g (earlier ++ later) t = (bounds.map .ok, t')) :
    ∃ first second t₁, bounds = first ++ second ∧ answers g earlier t = (first.map .ok, t₁) ∧
      answers g later t₁ = (second.map .ok, t') := by
  rw [answers_append] at h
  obtain ⟨hanswers, ht'⟩ := Prod.mk.inj h
  obtain ⟨first, second, rfl, hfirst, hsecond⟩ := List.map_eq_append_iff.1 hanswers.symm
  exact ⟨first, second, _, rfl, Prod.ext hfirst.symm rfl, Prod.ext hsecond.symm ht'⟩

theorem answers_singleton_eq_ok {bounds : List String}
    (h : answers g [request] t = (bounds.map .ok, t')) :
    ∃ bound, bounds = [bound] ∧ (reach g request).exec t = (.ok bound, t') := by
  obtain ⟨hanswers, ht'⟩ := Prod.mk.inj h
  obtain ⟨bound, rest, rfl, hbound, hrest⟩ := List.map_eq_cons_iff.1 hanswers.symm
  obtain rfl := List.map_eq_nil_iff.1 hrest
  exact ⟨bound, rfl, Prod.ext hbound.symm ht'⟩

/-- Requests whose answers are known succeed. -/
theorem answers_eq_of_toOption {requests : List JoinRequest} {bounds : List String}
    (h : (answers g requests t).1.map Except.toOption = bounds.map some) :
    answers g requests t = (bounds.map .ok, (answers g requests t).2) :=
  Prod.ext (Except.eq_map_ok_of_toOption h) rfl

/-- What a tree holds after requests. -/
structure Settled (requests : List JoinRequest) (t : JoinTree ι) : Prop where
  aligned : t.Aligned
  ordered : t.Ordered
  aliases : ∀ path, t.aliases.get? path = t.aliases.settled requests path
  selected : ∀ path, t.Selected path ↔
    ∃ request ∈ requests, request.select = true ∧ request.Passes path

theorem settled_start (root : ι) (aliasName : String) : (start root aliasName).Settled [] where
  aligned := aligned_start root aliasName
  ordered := ordered_start root aliasName
  aliases _ := rfl
  selected _ := by simp [Selected, start]

theorem Settled.concat {requests : List JoinRequest} {bound : String} (h : t.Settled requests)
    (ha : Answered request t t' bound) : t'.Settled (requests ++ [request]) where
  aligned := ha.aligned
  ordered := ha.ordered
  aliases path := by
    rw [ha.aliases, h.aliases, Aliases.settled_congr ha.grows.rootAlias, Aliases.settled_concat]
  selected path := by
    rw [ha.selected, h.selected]
    simp [or_and_right, exists_or]

/-- After requests that succeed, the tree holds what they settle on, and each has been given the alias
that its path then has. -/
theorem answers_settled {root : ι} {rootAlias : String} {requests : List JoinRequest}
    (hstart : ∀ request ∈ requests, request.start = none) {bounds : List String}
    (h : answers g requests (start root rootAlias) = (bounds.map .ok, t)) :
    t.Settled requests ∧
      List.Forall₂ (fun request bound => t.aliases.get? request.path = some bound) requests bounds := by
  induction requests using List.reverseRecOn generalizing bounds t with
  | nil =>
    obtain ⟨hbounds, rfl⟩ := Prod.mk.inj h
    obtain rfl := List.map_eq_nil_iff.1 hbounds.symm
    exact ⟨settled_start root rootAlias, .nil⟩
  | append_singleton requests request ih =>
    obtain ⟨first, second, t₁, rfl, hfirst, hsecond⟩ := answers_append_eq_ok h
    obtain ⟨bound, rfl, hreach⟩ := answers_singleton_eq_ok hsecond
    obtain ⟨hsettled, hbounds⟩ :=
      ih (fun request hrequest => hstart request (List.mem_append_left _ hrequest)) hfirst
    have hanchors : t₁.Anchors request := t₁.anchors_of_start (hstart request (by simp))
    have ha := hsettled.ordered.reach hsettled.aligned hanchors hreach
    refine ⟨hsettled.concat ha, List.rel_append ?_ (.cons ha.bound .nil)⟩
    exact hbounds.imp fun _ _ hget => ha.grows.get? hget

theorem Settled.joined {requests : List JoinRequest} (h : t.Settled requests) (path : String) :
    path ∈ t.joins.map (·.path) ↔ ∃ request ∈ requests, request.Passes path := by
  rw [← h.aligned.isSome_get?_iff, h.aliases, Aliases.isSome_settled_iff]

end JoinTree

end EntityQuery
