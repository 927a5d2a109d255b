import EntityQuery.Proofs.Join.Honest

/-! Trees that hold the parts of one chain of relations and nothing else. Such a tree can always be
reached one relation further: aliases of longer paths are longer, so that none of them is taken. -/

namespace EntityQuery

variable {ι : Type} {g : EntityGraph ι}

namespace JoinTree

/-- The parts of a chain under the aliases made from their paths. -/
def chainAliases (a : Aliases) (segs : List String) : List (String × String) :=
  (leads segs).map fun path => (path, a.synthesize path)

/-- The alias at the end of a chain. -/
def chainAlias (a : Aliases) (segs : List String) : String :=
  if segs = [] then a.root else a.synthesize (Path.ofSegments segs)

/-- A tree that holds the parts of a chain, each under the alias made from its path. -/
structure Chained (g : EntityGraph ι) (t : JoinTree ι) (segs : List String) (e : ι) :
    Prop extends Honest g t where
  along : g.entityAlong t.root segs = some e
  entries : t.aliases.entries = chainAliases t.aliases segs

theorem chained_start (g : EntityGraph ι) (root : ι) (aliasName : String) :
    (start root aliasName).Chained g [] root :=
  ⟨honest_start g root aliasName, rfl, rfl⟩

namespace Chained

variable {t : JoinTree ι} {segs : List String} {e : ι}

theorem keys_entries (ht : t.Chained g segs e) : Assoc.keys t.aliases.entries = leads segs := by
  rw [ht.entries, chainAliases, Assoc.keys, List.map_map]
  exact List.map_id _

theorem contains_iff (ht : t.Chained g segs e) (path : String) :
    t.aliases.contains path = true ↔ path ∈ leads segs := by
  rw [Aliases.contains, Assoc.contains_iff, ht.keys_entries]

/-- The joined part of the chain one segment further is the chain. -/
theorem joinedLength_eq (ht : t.Chained g segs e) (s : String) :
    t.joinedLength (segs ++ [s]) (segs ++ [s]).length = segs.length := by
  have hlast : ¬ t.aliases.contains (Path.ofSegments (segs ++ [s])) = true := by
    rw [ht.contains_iff]
    exact ofSegments_concat_not_mem_leads segs s
  rw [List.length_append, List.length_singleton, joinedLength, List.take_of_length_le (by simp),
    if_neg hlast]
  rcases List.eq_nil_or_concat segs with rfl | ⟨front, x, rfl⟩
  · rfl
  · rw [List.concat_eq_append] at ht ⊢
    have hjoined : t.aliases.contains (Path.ofSegments (front ++ [x])) = true := by
      rw [ht.contains_iff]
      exact mem_leads_self (by simp)
    rw [List.length_append, List.length_singleton, joinedLength,
      List.take_left' (by simp), if_pos hjoined]

/-- The alias made from the path one segment further names no other path. -/
theorem boundPath?_eq_none (ht : t.Chained g segs e) (s : String) :
    t.aliases.boundPath? (t.aliases.synthesize (Path.ofSegments (segs ++ [s]))) = none := by
  rw [Aliases.boundPath?, if_neg (t.aliases.synthesize_ne_root _), Option.map_eq_none_iff,
    List.find?_eq_none, ht.entries, chainAliases, List.forall_mem_map]
  intro path hpath
  rw [decide_eq_true_eq]
  intro h
  have hshorter := length_lt_of_mem_leads hpath s
  have hlength := congrArg String.length h
  rw [Aliases.length_synthesize, Aliases.length_synthesize] at hlength
  omega

/-- A chained tree can be reached one relation further. -/
theorem reach (ht : t.Chained g segs e) (hg : g.Navigable t.root) {s : String} {r : Relation ι}
    (hr : (g.entity e).relation? s = some r) {request : JoinRequest}
    (hpath : request.path = Path.ofSegments (segs ++ [s])) (hselect : request.select = false)
    (hname : request.aliasName = none) :
    ∃ t', (JoinTree.reach g request).exec t = (.ok (t.aliases.synthesize request.path), t') ∧
      t'.Chained g (segs ++ [s]) r.target ∧ t.Extends t' := by
  have halong : g.entityAlong t.root (segs ++ [s]) = some r.target := by
    rw [EntityGraph.entityAlong_concat, ht.along, Option.bind_some, hr, Option.map_some]
  have hsegments : Path.segments request.path = segs ++ [s] := by
    rw [hpath, hg.segments_ofSegments halong (by simp)]
  have hlead : t.lead request.path = segs := by
    rw [lead, hsegments, ht.joinedLength_eq, List.take_left' rfl]
  have hmissing : t.missing request.path = [s] := by
    rw [missing, hsegments, ht.joinedLength_eq, List.drop_left' rfl]
  obtain ⟨e', parent, hstarts, hstrode⟩ := ht.toHonest.exists_starts hg.named request
  obtain rfl : e = e' := by
    have hentity := hstrode.entity
    rw [hlead, ht.along] at hentity
    exact Option.some.inj hentity
  -- The alias made from the path is free, so that the walk attaches one join.
  let wish := t.aliases.synthesize request.path
  let aliases : Aliases := { t.aliases with entries := t.aliases.entries ++ [(request.path, wish)] }
  let t' := t.attached aliases ⟨parent, r, wish, request.path, request.select⟩
  have hnone : t.aliases.get? request.path = none := by
    rw [Aliases.get?, Assoc.get?_eq_none_iff, ht.keys_entries, hpath]
    exact ofSegments_concat_not_mem_leads segs s
  have hregister : t.aliases.register wish request.path = .ok (wish, aliases) := by
    refine Aliases.register_eq_ok.2 (.inr ⟨hnone, rfl, rfl, fun other hother => ?_⟩)
    have hfree := ht.boundPath?_eq_none s
    rw [← hpath] at hfree
    cases hfree.symm.trans hother
  have hextend : (extend g request (t.lead request.path) e parent (t.missing request.path)).exec t =
      (.ok (), t') := by
    have hwish : t.wishFor request request.path [] = wish := by
      rw [wishFor, hname]
      rfl
    rw [hlead, hmissing, exec_extend_cons, hr]
    dsimp only
    rw [← hpath, hwish, hregister]
    rfl
  have hbound : t'.aliases.get? request.path = some wish := by
    have happend := Assoc.get?_append t.aliases.entries [(request.path, wish)] request.path
    rw [Aliases.get?] at hnone
    rw [hnone, Option.none_or] at happend
    exact happend.trans (by simp [Assoc.get?_cons])
  have hexec : (JoinTree.reach g request).exec t = (.ok wish, t') := by
    rw [hstarts.exec_reach, hextend, finish, selectFor, hselect]
    simp [hbound]
  have hdone := ht.toHonest.reach hg.named hexec
  refine ⟨t', hexec, ⟨hdone.honest, hdone.grows.root ▸ halong, ?_⟩, hdone.grows⟩
  rw [chainAliases, leads_concat, List.map_append, List.map_singleton, ← hpath]
  exact congrArg (· ++ [(request.path, wish)]) ht.entries

end Chained

end JoinTree

end EntityQuery
