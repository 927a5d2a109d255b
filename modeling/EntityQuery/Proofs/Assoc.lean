import Mathlib.Data.List.Dedup
import Mathlib.Data.List.Forall2
import Mathlib.Data.List.Induction
import EntityQuery.Assoc

/-! Looking up keys of ordered maps after they are extended, set or renamed. -/

namespace EntityQuery

/-- Where keys are distinct, an element is what its key finds. -/
theorem find?_of_nodup {α κ : Type} [DecidableEq κ] {key : α → κ} {xs : List α}
    (hn : (xs.map key).Nodup) {x : α} (hx : x ∈ xs) : xs.find? (key · = key x) = some x := by
  induction xs with
  | nil => simp at hx
  | cons y xs ih =>
    obtain ⟨hy, hn⟩ := List.nodup_cons.1 hn
    rcases List.mem_cons.1 hx with rfl | hx
    · simp
    · have hne : key y ≠ key x := fun h => hy (List.mem_map.2 ⟨x, hx, h.symm⟩)
      rw [List.find?_cons_of_neg (by simpa using hne)]
      exact ih hn hx

namespace Assoc

variable {α β : Type} [DecidableEq α]

theorem get?_cons (p : α × β) (m : List (α × β)) (k : α) :
    get? (p :: m) k = if p.1 = k then some p.2 else get? m k := by
  by_cases h : p.1 = k <;> simp [get?, h]

theorem get?_append (m m' : List (α × β)) (k : α) :
    get? (m ++ m') k = (get? m k).or (get? m' k) := by
  simp [get?, List.find?_append, Option.map_or]

theorem get?_append_of_some {m : List (α × β)} {k : α} {v : β} (h : get? m k = some v)
    (m' : List (α × β)) : get? (m ++ m') k = some v := by
  rw [get?_append, h, Option.some_or]

theorem get?_eq_none_iff {m : List (α × β)} {k : α} : get? m k = none ↔ k ∉ keys m := by
  simp only [get?, keys, Option.map_eq_none_iff, List.find?_eq_none, decide_eq_true_eq,
    List.mem_map, not_exists, not_and]

theorem mem_of_get? {m : List (α × β)} {k : α} {v : β} (h : get? m k = some v) : (k, v) ∈ m := by
  obtain ⟨p, hp, rfl⟩ := Option.map_eq_some_iff.1 h
  have hk : p.1 = k := by simpa using List.find?_some hp
  exact hk ▸ List.mem_of_find?_eq_some hp

theorem get?_of_mem {m : List (α × β)} (hm : (keys m).Nodup) {k : α} {v : β} (h : (k, v) ∈ m) :
    get? m k = some v := by
  rw [get?, find?_of_nodup hm h, Option.map_some]

theorem get?_set (m : List (α × β)) (k k' : α) (v : β) :
    get? (set m k v) k' = if k = k' then some v else get? m k' := by
  induction m with
  | nil => simp [set, get?_cons]
  | cons p m ih =>
    simp only [set]
    split
    · next h => simp only [get?_cons, h]; split <;> rfl
    · next h =>
      simp only [get?_cons, ih]
      split
      · next hp => rw [if_neg (fun hk => h (hp.trans hk.symm))]
      · rfl

@[simp] theorem get?_set_self (m : List (α × β)) (k : α) (v : β) : get? (set m k v) k = some v := by
  simp [get?_set]

theorem get?_set_of_ne (m : List (α × β)) {k k' : α} (h : k ≠ k') (v : β) :
    get? (set m k v) k' = get? m k' := by
  simp [get?_set, h]

/-- A new key goes to the end. -/
theorem set_of_not_mem {m : List (α × β)} {k : α} (h : k ∉ keys m) (v : β) :
    set m k v = m ++ [(k, v)] := by
  induction m with
  | nil => rfl
  | cons p m ih =>
    simp only [keys, List.map_cons, List.mem_cons, not_or] at h
    rw [set, if_neg (Ne.symm h.1), ih h.2, List.cons_append]

/-- Setting a key adds it to the end of the keys, unless it is there. -/
theorem keys_set (m : List (α × β)) (k : α) (v : β) :
    keys (set m k v) = if k ∈ keys m then keys m else keys m ++ [k] := by
  split
  · next h =>
    induction m with
    | nil => simp [keys] at h
    | cons p m ih =>
      rw [set]
      split
      · next hp => simp [keys, hp]
      · next hp =>
        have hrest : k ∈ keys m := by simpa [keys, Ne.symm hp] using h
        exact congrArg (p.1 :: ·) (ih hrest)
  · next h => rw [set_of_not_mem h, keys, List.map_append, keys, List.map_singleton]

theorem mem_keys_set {m : List (α × β)} {k k' : α} {v : β} :
    k' ∈ keys (set m k v) ↔ k' ∈ keys m ∨ k' = k := by
  rw [keys_set]
  split
  · next h => exact ⟨.inl, fun h' => h'.elim id fun hk => hk ▸ h⟩
  · rw [List.mem_append, List.mem_singleton]

theorem nodup_keys_set {m : List (α × β)} (hm : (keys m).Nodup) (k : α) (v : β) :
    (keys (set m k v)).Nodup := by
  rw [keys_set]
  split
  · exact hm
  · next h => simpa only [List.concat_eq_append] using List.Nodup.concat h hm

/-! ### Maps of lists of pairs -/

theorem merge_append (m xs ys : List (α × β)) : merge m (xs ++ ys) = merge (merge m xs) ys :=
  List.foldl_append ..

theorem ofPairs_concat (xs : List (α × β)) (p : α × β) :
    ofPairs (xs ++ [p]) = set (ofPairs xs) p.1 p.2 :=
  merge_append [] xs [p]

theorem mem_keys_ofPairs {pairs : List (α × β)} {k : α} : k ∈ keys (ofPairs pairs) ↔ k ∈ keys pairs := by
  induction pairs using List.reverseRecOn with
  | nil => rfl
  | append_singleton xs p ih =>
    rw [ofPairs_concat, mem_keys_set, ih, keys, keys, List.map_append, List.mem_append,
      List.map_singleton, List.mem_singleton]

theorem nodup_keys_ofPairs (pairs : List (α × β)) : (keys (ofPairs pairs)).Nodup := by
  induction pairs using List.reverseRecOn with
  | nil => exact .nil
  | append_singleton xs p ih =>
    rw [ofPairs_concat]
    exact nodup_keys_set ih p.1 p.2

/-- The last pair of a key gives its value. -/
theorem get?_ofPairs (pairs : List (α × β)) (k : α) : get? (ofPairs pairs) k = get? pairs.reverse k := by
  induction pairs using List.reverseRecOn with
  | nil => rfl
  | append_singleton xs p ih =>
    rw [ofPairs_concat, get?_set, ih, List.reverse_append, List.reverse_singleton,
      List.singleton_append, get?_cons]

/-- Pairs with distinct keys are a map as they stand. -/
theorem ofPairs_of_nodup {pairs : List (α × β)} (h : (keys pairs).Nodup) : ofPairs pairs = pairs := by
  induction pairs using List.reverseRecOn with
  | nil => rfl
  | append_singleton xs p ih =>
    rw [keys, List.map_append, List.nodup_append] at h
    obtain ⟨hxs, -, hdisjoint⟩ := h
    have hp : p.1 ∉ keys xs := fun hmem => hdisjoint _ hmem _ (by simp) rfl
    rw [ofPairs_concat, ih hxs, set_of_not_mem hp]

/-- A map has as many keys as its pairs have different ones. -/
theorem length_ofPairs (pairs : List (α × β)) : (ofPairs pairs).length = (keys pairs).dedup.length := by
  have hperm : (keys (ofPairs pairs)).Perm (keys pairs).dedup :=
    (List.perm_ext_iff_of_nodup (nodup_keys_ofPairs pairs) (List.nodup_dedup _)).2 fun k => by
      rw [mem_keys_ofPairs, List.mem_dedup]
  rw [← hperm.length_eq, keys, List.length_map]

/-- No pair is lost exactly where the keys are distinct. -/
theorem length_ofPairs_eq_iff {pairs : List (α × β)} :
    (ofPairs pairs).length = pairs.length ↔ (keys pairs).Nodup := by
  rw [length_ofPairs, ← List.dedup_eq_self]
  constructor
  · intro h
    exact (List.dedup_sublist _).eq_of_length (by rw [h, keys, List.length_map])
  · intro h
    rw [h, keys, List.length_map]

/-- The map of pairs that belong to elements matches these one by one exactly where no pair is lost and
the pairs match them as they stand. -/
theorem forall₂_ofPairs_iff {γ : Type} {R : α × β → γ → Prop} {pairs : List (α × β)} {xs : List γ}
    (hlength : pairs.length = xs.length) :
    List.Forall₂ R (ofPairs pairs) xs ↔ (keys pairs).Nodup ∧ List.Forall₂ R pairs xs := by
  constructor
  · intro h
    have hnodup := length_ofPairs_eq_iff.1 (h.length_eq.trans hlength.symm)
    rw [ofPairs_of_nodup hnodup] at h
    exact ⟨hnodup, h⟩
  · rintro ⟨hnodup, h⟩
    rwa [ofPairs_of_nodup hnodup]

theorem contains_iff {m : List (α × β)} {k : α} : contains m k = true ↔ k ∈ keys m := by
  simp [contains, keys]

theorem contains_eq_isSome (m : List (α × β)) (k : α) : contains m k = (get? m k).isSome := by
  rw [contains, get?, Option.isSome_map, List.isSome_find?]

end Assoc

end EntityQuery
