import EntityQuery.Step

/-! Runs of steps. Each way to build a step has one equation for its run, and a run that succeeds
is taken apart into runs of its parts. -/

namespace EntityQuery

theorem Except.bind_eq_ok {ε α β : Type} {x : Except ε α} {f : α → Except ε β} {b : β} :
    x >>= f = .ok b ↔ ∃ a, x = .ok a ∧ f a = .ok b := by
  cases x with
  | error e => simp [bind, Except.bind]
  | ok a => simp [bind, Except.bind]

theorem Except.exists_of_isOk {ε α : Type} {x : Except ε α} (h : x.isOk = true) :
    ∃ a, x = .ok a := by
  cases x with
  | error e => cases h
  | ok a => exact ⟨a, rfl⟩

theorem Except.eq_ok_of_toOption {ε α : Type} {x : Except ε α} {a : α} (h : x.toOption = some a) :
    x = .ok a := by
  cases x with
  | error e => cases h
  | ok b => exact congrArg Except.ok (Option.some.inj h)

theorem Except.eq_map_ok_of_toOption {ε α : Type} {xs : List (Except ε α)} {as : List α}
    (h : xs.map Except.toOption = as.map some) : xs = as.map .ok := by
  induction xs generalizing as with
  | nil => rw [List.map_eq_nil_iff.1 h.symm, List.map_nil]
  | cons x xs ih =>
    obtain ⟨a, as, rfl, ha, has⟩ := List.map_eq_cons_iff.1 h.symm
    rw [List.map_cons, ← ih has.symm, eq_ok_of_toOption ha.symm]

theorem Except.exists_eq_map_ok {ε α : Type} {xs : List (Except ε α)}
    (h : ∀ x ∈ xs, x.isOk = true) : ∃ as : List α, xs = as.map .ok := by
  induction xs with
  | nil => exact ⟨[], rfl⟩
  | cons x xs ih =>
    rw [List.forall_mem_cons] at h
    obtain ⟨a, rfl⟩ := exists_of_isOk h.1
    obtain ⟨as, rfl⟩ := ih h.2
    exact ⟨a :: as, rfl⟩

theorem Except.forM_eq_ok {ε α : Type} {f : α → Except ε Unit} {xs : List α} :
    xs.forM f = .ok () ↔ ∀ x ∈ xs, f x = .ok () := by
  induction xs with
  | nil => exact iff_of_true rfl (by simp)
  | cons x xs ih =>
    rw [List.forall_mem_cons, ← ih]
    change (f x >>= fun _ => xs.forM f) = _ ↔ _
    rw [Except.bind_eq_ok]
    exact ⟨fun ⟨_, hx, hxs⟩ => ⟨hx, hxs⟩, fun ⟨hx, hxs⟩ => ⟨(), hx, hxs⟩⟩

theorem Except.mapM_eq_ok {ε α β : Type} {f : α → Except ε β} {f' : α → β} {xs : List α}
    (h : ∀ x ∈ xs, f x = .ok (f' x)) : xs.mapM f = .ok (xs.map f') := by
  induction xs with
  | nil => rfl
  | cons x xs ih =>
    rw [List.forall_mem_cons] at h
    rw [List.mapM_cons, h.1, ih h.2]
    rfl

namespace Step

variable {σ τ α β : Type}

@[simp] theorem exec_pure (a : α) (s : σ) : (pure a : Step σ α).exec s = (.ok a, s) := rfl

@[simp] theorem exec_throw (e : QueryError) (s : σ) :
    (throw e : Step σ α).exec s = (.error e, s) := rfl

@[simp] theorem exec_get (s : σ) : (get : Step σ σ).exec s = (.ok s, s) := rfl

@[simp] theorem exec_modify (f : σ → σ) (s : σ) :
    (modify f : Step σ Unit).exec s = (.ok (), f s) := rfl

@[simp] theorem exec_ofRun (f : σ → Except QueryError α × σ) (s : σ) : (ofRun f).exec s = f s := rfl

@[simp] theorem exec_ofExcept (r : Except QueryError α) (s : σ) :
    (ofExcept r).exec s = (r, s) := rfl

@[simp] theorem exec_within (part : σ → τ) (replace : σ → τ → σ) (x : Step τ α) (s : σ) :
    (within part replace x).exec s = ((x.exec (part s)).1, replace s (x.exec (part s)).2) := rfl

theorem exec_bind (x : Step σ α) (f : α → Step σ β) (s : σ) :
    (x >>= f).exec s = match x.exec s with
      | (.ok a, s') => (f a).exec s'
      | (.error e, s') => (.error e, s') := by
  simp only [exec, ExceptT.run_bind, StateT.run_bind]
  rcases StateT.run (ExceptT.run x) s with ⟨_ | _, _⟩ <;> rfl

theorem exists_of_toOption {x : Step σ α} {s : σ} {a : α} (h : (x.exec s).1.toOption = some a) :
    ∃ s', x.exec s = (.ok a, s') :=
  ⟨_, Prod.ext (Except.eq_ok_of_toOption h) rfl⟩

/-- A successful run of a sequence is a successful run of each part. -/
theorem bind_eq_ok {x : Step σ α} {f : α → Step σ β} {s s'' : σ} {b : β} :
    (x >>= f).exec s = (.ok b, s'') ↔
      ∃ a s', x.exec s = (.ok a, s') ∧ (f a).exec s' = (.ok b, s'') := by
  rw [exec_bind]
  rcases x.exec s with ⟨_ | a, s'⟩
  · simp
  · constructor
    · exact fun h => ⟨a, s', rfl, h⟩
    · rintro ⟨_, _, ⟨rfl, rfl⟩, h⟩
      exact h

/-- A run of a sequence stops in the first part or goes on with what that has given. -/
theorem bind_cases {x : Step σ α} {f : α → Step σ β} {s s'' : σ} {r : Except QueryError β}
    (h : (x >>= f).exec s = (r, s'')) :
    (∃ e, x.exec s = (.error e, s'') ∧ r = .error e) ∨
      ∃ a s', x.exec s = (.ok a, s') ∧ (f a).exec s' = (r, s'') := by
  rw [exec_bind] at h
  rcases hx : x.exec s with ⟨e | a, s'⟩ <;> rw [hx] at h
  · obtain ⟨rfl, rfl⟩ := Prod.mk.inj h
    exact .inl ⟨e, rfl, rfl⟩
  · exact .inr ⟨a, s', rfl, h⟩

theorem seq_eq_ok {x : Step σ Unit} {f : Unit → Step σ β} {s s'' : σ} {b : β} :
    (x >>= f).exec s = (.ok b, s'') ↔
      ∃ s', x.exec s = (.ok (), s') ∧ (f ()).exec s' = (.ok b, s'') := by
  rw [bind_eq_ok]
  exact ⟨fun ⟨_, s', h⟩ => ⟨s', h⟩, fun ⟨s', h⟩ => ⟨(), s', h⟩⟩

/-- A run that ends in a plain value is a run of the step before. -/
theorem map_eq_ok {x : Step σ α} {f : α → β} {s s' : σ} {b : β} :
    (x >>= fun a => pure (f a)).exec s = (.ok b, s') ↔ ∃ a, x.exec s = (.ok a, s') ∧ b = f a := by
  rw [bind_eq_ok]
  constructor
  · rintro ⟨a, _, h, hpure⟩
    obtain ⟨hvalue, rfl⟩ := Prod.mk.inj hpure
    exact ⟨a, h, (Except.ok.inj hvalue).symm⟩
  · rintro ⟨a, h, rfl⟩
    exact ⟨a, s', h, rfl⟩

theorem bind_map_eq_ok {γ : Type} {x : Step σ α} {y : α → Step σ β} {f : α → β → γ} {s s'' : σ}
    {b : γ} :
    (x >>= fun a => y a >>= fun b => pure (f a b)).exec s = (.ok b, s'') ↔
      ∃ a s' b', x.exec s = (.ok a, s') ∧ (y a).exec s' = (.ok b', s'') ∧ b = f a b' := by
  rw [bind_eq_ok]
  simp only [map_eq_ok, exists_and_left]

theorem within_eq_ok {part : σ → τ} {replace : σ → τ → σ} {x : Step τ α} {s s' : σ} {a : α} :
    (within part replace x).exec s = (.ok a, s') ↔
      ∃ t, x.exec (part s) = (.ok a, t) ∧ replace s t = s' := by
  rw [exec_within]
  rcases x.exec (part s) with ⟨r, t⟩
  simp only [Prod.mk.injEq]
  constructor
  · rintro ⟨rfl, rfl⟩
    exact ⟨t, ⟨rfl, rfl⟩, rfl⟩
  · rintro ⟨_, ⟨rfl, rfl⟩, rfl⟩
    exact ⟨rfl, rfl⟩

/-! ### What runs leave alone -/

/-- No run of a step changes what `f` sees of the state, whatever its outcome. -/
def Keeps {γ : Type} (f : σ → γ) (x : Step σ α) : Prop := ∀ s, f (x.exec s).2 = f s

namespace Keeps

variable {γ : Type} {f : σ → γ}

theorem pure (a : α) : Keeps f (Pure.pure a : Step σ α) := fun _ => rfl

theorem get : Keeps f (MonadState.get : Step σ σ) := fun _ => rfl

theorem modify {h : σ → σ} (hf : ∀ s, f (h s) = f s) : Keeps f (modify h : Step σ Unit) := hf

theorem within {x : Step τ α} {part : σ → τ} {replace : σ → τ → σ}
    (hf : ∀ s t, f (replace s t) = f s) : Keeps f (Step.within part replace x) := fun s => hf s _

theorem bind {x : Step σ α} {y : α → Step σ β} (hx : Keeps f x) (hy : ∀ a, Keeps f (y a)) :
    Keeps f (x >>= y) := by
  intro s
  have hs := hx s
  rw [exec_bind]
  rcases hrun : x.exec s with ⟨e | a, s'⟩ <;> rw [hrun] at hs
  · exact hs
  · exact (hy a s').trans hs

end Keeps

/-! ### Two runs side by side -/

variable {R : σ → σ → Prop} {x x' : Step σ α} {f f' : α → Step σ β}

/-- Where two steps both succeed, from related states, their results are the same and the states that
they leave are related. -/
def Lockstep (R : σ → σ → Prop) (x x' : Step σ α) : Prop :=
  ∀ ⦃s s' t t' a a'⦄, R s s' → x.exec s = (.ok a, t) → x'.exec s' = (.ok a', t') → a = a' ∧ R t t'

theorem lockstep_eq (x : Step σ α) : Lockstep Eq x x := by
  rintro s _ t t' a a' rfl h h'
  obtain ⟨hresult, rfl⟩ := Prod.mk.inj (h.symm.trans h')
  exact ⟨Except.ok.inj hresult, rfl⟩

theorem lockstep_pure (a : α) : Lockstep R (pure a) (pure a) := by
  rintro s s' _ _ _ _ hs ⟨⟩ ⟨⟩
  exact ⟨rfl, hs⟩

theorem lockstep_throw (e : QueryError) : Lockstep R (throw e : Step σ α) x' := by
  intro s s' t t' a a' _ h
  simp at h

theorem Lockstep.bind (hx : Lockstep R x x') (hf : ∀ a, Lockstep R (f a) (f' a)) :
    Lockstep R (x >>= f) (x' >>= f') := by
  intro s s' u u' b b' hs h h'
  obtain ⟨a, t, hrun, hrest⟩ := bind_eq_ok.1 h
  obtain ⟨a', t', hrun', hrest'⟩ := bind_eq_ok.1 h'
  obtain ⟨rfl, ht⟩ := hx hs hrun hrun'
  exact hf a ht hrest hrest'

/-- What is read from the state may differ, as long as what follows goes along with it. -/
theorem lockstep_get {f f' : σ → Step σ β} (h : ∀ s s', R s s' → Lockstep R (f s) (f' s')) :
    Lockstep R (get >>= f) (get >>= f') := by
  intro s s' t t' b b' hs hrun hrun'
  obtain ⟨_, _, ⟨⟩, hrest⟩ := bind_eq_ok.1 hrun
  obtain ⟨_, _, ⟨⟩, hrest'⟩ := bind_eq_ok.1 hrun'
  exact h s s' hs hs hrest hrest'

theorem Lockstep.map (hx : Lockstep R x x') (f : α → β) :
    Lockstep R (x >>= fun a => pure (f a)) (x' >>= fun a => pure (f a)) :=
  hx.bind fun a => lockstep_pure (f a)

theorem Lockstep.within {Q : τ → τ → Prop} {y y' : Step τ α} {part : σ → τ} {replace : σ → τ → σ}
    (h : Lockstep Q y y') (hpart : ∀ s s', R s s' → Q (part s) (part s'))
    (hreplace : ∀ s s' t t', R s s' → Q t t' → R (replace s t) (replace s' t')) :
    Lockstep R (Step.within part replace y) (Step.within part replace y') := by
  intro s s' u u' a a' hs hrun hrun'
  obtain ⟨t, ht, rfl⟩ := within_eq_ok.1 hrun
  obtain ⟨t', ht', rfl⟩ := within_eq_ok.1 hrun'
  obtain ⟨rfl, hq⟩ := h (hpart s s' hs) ht ht'
  exact ⟨rfl, hreplace s s' t t' hs hq⟩

end Step

end EntityQuery
