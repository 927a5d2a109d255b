import EntityQuery.Proofs.Assoc
import EntityQuery.Proofs.Step

/-! Elements and the members of objects that they are read from or written as, matched one by one. -/

namespace EntityQuery

section Matched

variable {α β : Type} {R R' : α → β → Prop} {xs : List α} {ys : List β}

theorem forall₂_imp_of_mem (h : List.Forall₂ R xs ys) (himp : ∀ x ∈ xs, ∀ y, R x y → R' x y) :
    List.Forall₂ R' xs ys := by
  induction h with
  | nil => exact .nil
  | cons hxy _ ih =>
    rw [List.forall_mem_cons] at himp
    exact .cons (himp.1 _ hxy) (ih himp.2)

theorem forall_mem_of_forall₂ {Q : β → Prop} (h : List.Forall₂ R xs ys)
    (himp : ∀ x ∈ xs, ∀ y, R x y → Q y) : ∀ y ∈ ys, Q y := by
  induction h with
  | nil => simp
  | cons hxy _ ih =>
    rw [List.forall_mem_cons] at himp ⊢
    exact ⟨himp.1 _ hxy, ih himp.2⟩

end Matched

/-! ### Elements that are written as one pair each -/

section Written

variable {α γ : Type} {write : γ → List α} {xs : List γ}

theorem length_flatMap_of_one (hone : ∀ x ∈ xs, (write x).length = 1) :
    (xs.flatMap write).length = xs.length := by
  induction xs with
  | nil => rfl
  | cons x xs ih =>
    rw [List.forall_mem_cons] at hone
    rw [List.flatMap_cons, List.length_append, hone.1, ih hone.2, List.length_cons, Nat.add_comm]

theorem forall₂_flatMap_iff {R : α → γ → Prop} (hone : ∀ x ∈ xs, (write x).length = 1) :
    List.Forall₂ R (xs.flatMap write) xs ↔ ∀ x ∈ xs, List.Forall₂ R (write x) [x] := by
  induction xs with
  | nil => simp
  | cons x xs ih =>
    rw [List.forall_mem_cons] at hone ⊢
    obtain ⟨a, ha⟩ := List.length_eq_one_iff.1 hone.1
    rw [← ih hone.2, List.flatMap_cons, ha]
    simp

/-- A reader that reads what each element is written as, whatever follows it, reads what all of them are
written as. -/
theorem read_flatMap {read : List α → Except QueryError (List γ)} (hnil : read [] = .ok [])
    (h : ∀ x ∈ xs, ∀ rest others, read rest = .ok others → read (write x ++ rest) = .ok (x :: others)) :
    read (xs.flatMap write) = .ok xs := by
  induction xs with
  | nil => exact hnil
  | cons x xs ih =>
    rw [List.forall_mem_cons] at h
    rw [List.flatMap_cons]
    exact h.1 _ _ (ih h.2)

end Written

namespace Assoc

variable {α β γ δ : Type}

theorem keys_flatMap_of_forall₂ {key : δ → α} {write : γ → List (α × β)} {ys : List δ} {xs : List γ}
    (h : List.Forall₂ (fun y x => keys (write x) = [key y]) ys xs) :
    keys (xs.flatMap write) = ys.map key := by
  induction h with
  | nil => rfl
  | cons hkey _ ih =>
    rw [List.flatMap_cons, keys, List.map_append, ← keys, ← keys, hkey, ih]
    rfl

theorem keys_flatMap {name : γ → α} {write : γ → List (α × β)} (h : ∀ x, keys (write x) = [name x])
    (xs : List γ) : keys (xs.flatMap write) = xs.map name :=
  keys_flatMap_of_forall₂ (List.forall₂_same.2 fun x _ => h x)

end Assoc

/-- Elements of distinct names are read again from the object that all of them are written into. -/
theorem read_ofPairs {α β γ : Type} [DecidableEq α] {write : γ → List (α × β)} {name : γ → α}
    {read : List (α × β) → Except QueryError (List γ)} {xs : List γ}
    (hkeys : ∀ x, Assoc.keys (write x) = [name x]) (hnames : (xs.map name).Nodup) (hnil : read [] = .ok [])
    (h : ∀ x ∈ xs, ∀ rest others, read rest = .ok others → read (write x ++ rest) = .ok (x :: others)) :
    read (Assoc.ofPairs (xs.flatMap write)) = .ok xs := by
  rw [Assoc.ofPairs_of_nodup]
  · exact read_flatMap hnil h
  · rwa [Assoc.keys_flatMap hkeys]

end EntityQuery
