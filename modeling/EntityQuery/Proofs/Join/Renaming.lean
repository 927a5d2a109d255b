import EntityQuery.Proofs.Join.Walk

/-! Trees of joins that differ in aliases only. Requests that ask for the same path and the same loading,
each under an alias of its own, take such trees to such trees. -/

namespace EntityQuery

variable {ι : Type}

/-- A join without its alias and the one it hangs on. -/
def Join.bare (j : Join ι) : Join ι := { j with aliasName := "", parent := "" }

namespace Join

theorem bare_eq_iff {j k : Join ι} :
    j.bare = k.bare ↔ j.relation = k.relation ∧ j.path = k.path ∧ j.selected = k.selected := by
  simp [bare]

theorem bare_comp_selectedAt (paths : List String) :
    bare ∘ selectedAt paths = selectedAt paths ∘ (bare : Join ι → Join ι) := rfl

theorem map_path_bare (joins : Joins ι) : (joins.map bare).map (·.path) = joins.map (·.path) := by
  rw [List.map_map]
  rfl

end Join

namespace JoinTree

variable {g : EntityGraph ι} {t t' u u' : JoinTree ι}

/-- Marking the joins under the alias of a path marks those at the path. -/
theorem Aligned.map_marked (ht : t.Aligned) {path aliasName : String}
    (hget : t.aliases.get? path = some aliasName) (selected : Bool) :
    t.joins.map (Join.marked aliasName selected) =
      t.joins.map (Join.selectedAt (if selected then [path] else [])) := by
  obtain ⟨k, hk, rfl, rfl⟩ := ht.exists_of_get? hget
  refine List.map_congr_left fun j hj => ?_
  have hsame := ht.path_eq_iff hj hk
  unfold Join.marked Join.selectedAt
  split
  · next hname => cases selected <;> simp [hsame.1 hname]
  · next hname =>
    have hpath : j.path ≠ k.path := fun h => hname (hsame.2 h)
    cases selected <;> simp [hpath]

/-- Two aligned trees with the same joins at the same paths. -/
structure Alike (t t' : JoinTree ι) : Prop where
  aligned : t.Aligned
  aligned' : t'.Aligned
  root : t.root = t'.root
  joins : t.joins.map Join.bare = t'.joins.map Join.bare
  reached : t.reached = t'.reached

theorem alike_start (root : ι) (aliasName aliasName' : String) :
    (start root aliasName).Alike (start root aliasName') :=
  ⟨aligned_start root aliasName, aligned_start root aliasName', rfl, rfl, rfl⟩

namespace Alike

theorem paths (h : t.Alike t') : t.joins.map (·.path) = t'.joins.map (·.path) := by
  rw [← Join.map_path_bare, h.joins, Join.map_path_bare]

theorem isSome_get? (h : t.Alike t') (path : String) :
    (t.aliases.get? path).isSome = (t'.aliases.get? path).isSome := by
  rw [Bool.eq_iff_iff, h.aligned.isSome_get?_iff, h.aligned'.isSome_get?_iff, h.paths]

theorem joinedLength_eq (h : t.Alike t') (segments : List String) (n : Nat) :
    t.joinedLength segments n = t'.joinedLength segments n := by
  induction n with
  | zero => rfl
  | succ n ih =>
    have hcontains := h.isSome_get? (Path.ofSegments (segments.take (n + 1)))
    simp only [Aliases.get?, ← Assoc.contains_eq_isSome] at hcontains
    rw [joinedLength, joinedLength, Aliases.contains, Aliases.contains, hcontains, ih]

theorem lead_eq (h : t.Alike t') (path : String) : t.lead path = t'.lead path := by
  rw [lead, lead, h.joinedLength_eq]

theorem missing_eq (h : t.Alike t') (path : String) : t.missing path = t'.missing path := by
  rw [missing, missing, h.joinedLength_eq]

/-- Joins that differ in aliases only are attached to both trees, or both mark the one in force. -/
theorem attached (h : t.Alike t') {wish wish' : String} {aliases aliases' : Aliases} {j j' : Join ι}
    (hwish : wish ≠ "") (hwish' : wish' ≠ "") (hbare : j.bare = j'.bare)
    (hregister : t.aliases.register wish j.path = .ok (j.aliasName, aliases))
    (hregister' : t'.aliases.register wish' j'.path = .ok (j'.aliasName, aliases')) :
    (t.attached aliases j).Alike (t'.attached aliases' j') := by
  obtain ⟨hrelation, hpath, hselected⟩ := Join.bare_eq_iff.1 hbare
  constructor
  case aligned => exact h.aligned.attached hwish hregister
  case aligned' => exact h.aligned'.attached hwish' hregister'
  case root => exact h.root
  case reached =>
    show Assoc.set t.reached _ _ = Assoc.set t'.reached _ _
    rw [h.reached, hpath, hrelation]
  case joins =>
    show (t.joins.add j).2.map Join.bare = (t'.joins.add j').2.map Join.bare
    have hsome := h.isSome_get? j.path
    rcases h.aligned.attached_cases hregister with ⟨hnew, -, -, -, -, hjoins⟩ | ⟨hold, -, hjoins⟩ <;>
      rcases h.aligned'.attached_cases hregister' with
        ⟨hnew', -, -, -, -, hjoins'⟩ | ⟨hold', -, hjoins'⟩
    · rw [hjoins, hjoins', List.map_append, List.map_append, h.joins, List.map_singleton,
        List.map_singleton, hbare]
    · rw [hpath, hold', Option.isSome_some, ← hpath, h.aligned.isSome_get?_iff] at hsome
      exact absurd hsome hnew
    · rw [hold, Option.isSome_some, hpath, eq_comm, h.aligned'.isSome_get?_iff] at hsome
      exact absurd hsome hnew'
    · rw [hjoins, hjoins', h.aligned.map_marked hold, h.aligned'.map_marked hold', List.map_map,
        List.map_map, hselected, hpath, Join.bare_comp_selectedAt, ← List.map_map, ← List.map_map,
        h.joins]

theorem selectFor (h : t.Alike t') {request request' : JoinRequest}
    (hpath : request.path = request'.path) (hselect : request.select = request'.select) :
    (t.selectFor request).Alike (t'.selectFor request') := by
  have hselecting : selecting request = selecting request' := by
    rw [selecting, selecting, hpath, hselect]
  rw [h.aligned.selectFor_eq, h.aligned'.selectFor_eq, hselecting]
  constructor
  case aligned => exact h.aligned.map_joins (fun _ => rfl) fun _ => rfl
  case aligned' => exact h.aligned'.map_joins (fun _ => rfl) fun _ => rfl
  case root => exact h.root
  case reached => exact h.reached
  case joins =>
    rw [List.map_map, List.map_map, Join.bare_comp_selectedAt, ← List.map_map, ← List.map_map,
      h.joins]

/-- Walks along the same segments keep trees alike. -/
theorem extend (h : t.Alike t') {request request' : JoinRequest}
    (hselect : request.select = request'.select) {before rest : List String} {e : ι}
    {parent parent' : String}
    (hrun : (JoinTree.extend g request before e parent rest).exec t = (.ok (), u))
    (hrun' : (JoinTree.extend g request' before e parent' rest).exec t' = (.ok (), u')) :
    u.Alike u' := by
  induction rest generalizing before e parent parent' t t' with
  | nil =>
    obtain ⟨-, rfl⟩ := Prod.mk.inj hrun
    obtain ⟨-, rfl⟩ := Prod.mk.inj hrun'
    exact h
  | cons s rest ih =>
    obtain ⟨relation, aliasName, aliases, hrelation, hregister, hrest⟩ := extend_cons_eq_ok hrun
    obtain ⟨relation', aliasName', aliases', hrelation', hregister', hrest'⟩ :=
      extend_cons_eq_ok hrun'
    obtain rfl := Option.some.inj (hrelation.symm.trans hrelation')
    refine ih (h.attached (wishFor_ne_empty t request _ rest) (wishFor_ne_empty t' request' _ rest)
      ?_ hregister hregister') hrest hrest'
    rw [Join.bare, Join.bare, hselect]

/-- Requests for the same path and the same loading keep trees alike. -/
theorem reach (h : t.Alike t') {request request' : JoinRequest}
    (hpath : request.path = request'.path) (hselect : request.select = request'.select)
    {bound bound' : String} (hrun : (JoinTree.reach g request).exec t = (.ok bound, u))
    (hrun' : (JoinTree.reach g request').exec t' = (.ok bound', u')) : u.Alike u' := by
  obtain ⟨e, parent, t₁, hstarts, hextend, rfl, -⟩ := reach_eq_ok hrun
  obtain ⟨e', parent', t₁', hstarts', hextend', rfl, -⟩ := reach_eq_ok hrun'
  have he := hstarts.reached
  rw [h.lead_eq, h.reached, hpath, hstarts'.reached] at he
  obtain rfl := Option.some.inj he
  rw [h.lead_eq, h.missing_eq, hpath] at hextend
  exact (h.extend hselect hextend hextend').selectFor hpath hselect

end Alike

end JoinTree

end EntityQuery
