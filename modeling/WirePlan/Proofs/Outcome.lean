import Mathlib.Data.List.Perm.Basic

/-!
# Successful computations

A computation that may fail succeeds exactly when all its steps do. These lemmas take the success of
a whole apart into the successes of its parts, and its failure down to that of one part
(`bind_eq_error`, `exists_of_mapM_eq_error`); they put the success of a list together from that of
its items: of the items as they are, of the items rearranged (`exists_mapM_of_perm`), and of what
replaces them (`exists_mapM_map`, `mapM_map_eq_map`, `foldlM_map_eq_map`).
-/

namespace WirePlan

variable {ε α β : Type}

theorem pure_eq_ok {a b : α} : (pure a : Except ε α) = .ok b ↔ a = b := by
  constructor
  · intro h
    cases h
    rfl
  · rintro rfl
    rfl

theorem bind_eq_ok {x : Except ε α} {f : α → Except ε β} {b : β} :
    x >>= f = .ok b ↔ ∃ a, x = .ok a ∧ f a = .ok b := by
  cases x with
  | ok a => simp [bind, Except.bind]
  | error e => simp [bind, Except.bind]

theorem bind_eq_error {x : Except ε α} {f : α → Except ε β} {e : ε} :
    x >>= f = .error e ↔ x = .error e ∨ ∃ a, x = .ok a ∧ f a = .error e := by
  cases x with
  | ok a => simp [bind, Except.bind]
  | error e => simp [bind, Except.bind]

/-- What follows a computation matters only for what it comes to. -/
theorem bind_congr_ok {x : Except ε α} {f g : α → Except ε β} (h : ∀ a, x = .ok a → f a = g a) :
    x >>= f = x >>= g := by
  cases x with
  | ok a => exact h a rfl
  | error e => rfl

theorem map_eq_ok {x : Except ε α} {f : α → β} {b : β} :
    f <$> x = .ok b ↔ ∃ a, x = .ok a ∧ f a = b := by
  cases x with
  | ok a => simp [Functor.map, Except.map]
  | error e => simp [Functor.map, Except.map]

theorem ite_eq_ok {c : Prop} [Decidable c] {a b : α} {e : ε} :
    (if c then Except.ok a else .error e) = .ok b ↔ c ∧ a = b := by
  split
  · next h => simp [h]
  · next h => simp [h]

theorem toOption_eq_some {x : Except ε α} {a : α} : x.toOption = some a ↔ x = .ok a := by
  cases x with
  | ok b => simp [Except.toOption]
  | error e => simp [Except.toOption]

/-- A computation for every item of a list succeeds when it does so for each. -/
theorem mapM_eq_ok {f : α → Except ε β} {xs : List α} {ys : List β} :
    xs.mapM f = .ok ys ↔ List.Forall₂ (fun x y => f x = .ok y) xs ys := by
  induction xs generalizing ys with
  | nil =>
    rw [List.mapM_nil, pure_eq_ok, List.forall₂_nil_left_iff, eq_comm]
  | cons x xs ih =>
    rw [List.mapM_cons, bind_eq_ok, List.forall₂_cons_left_iff]
    constructor
    · rintro ⟨y, hy, h⟩
      obtain ⟨zs, hzs, h⟩ := bind_eq_ok.1 h
      cases pure_eq_ok.1 h
      exact ⟨y, zs, hy, ih.1 hzs, rfl⟩
    · rintro ⟨y, zs, hy, hzs, rfl⟩
      exact ⟨y, hy, bind_eq_ok.2 ⟨zs, ih.2 hzs, rfl⟩⟩

/-- A computation succeeds for a list if it does so for every item. -/
theorem exists_mapM_eq_ok {f : α → Except ε β} {xs : List α} (h : ∀ x ∈ xs, ∃ y, f x = .ok y) :
    ∃ ys, xs.mapM f = .ok ys := by
  induction xs with
  | nil => exact ⟨[], rfl⟩
  | cons x xs ih =>
    obtain ⟨y, hy⟩ := h x (.head _)
    obtain ⟨ys, hys⟩ := ih fun z hz => h z (.tail _ hz)
    exact ⟨y :: ys, mapM_eq_ok.2 (.cons hy (mapM_eq_ok.1 hys))⟩

/-- A computation for every item of a list that fails does so for one of them. -/
theorem exists_of_mapM_eq_error {f : α → Except ε β} {xs : List α} {e : ε}
    (h : xs.mapM f = .error e) : ∃ x ∈ xs, f x = .error e := by
  induction xs with
  | nil => cases h
  | cons x xs ih =>
    rw [List.mapM_cons] at h
    rcases bind_eq_error.1 h with hx | ⟨y, -, h⟩
    · exact ⟨x, .head _, hx⟩
    rcases bind_eq_error.1 h with hxs | ⟨ys, -, h⟩
    · obtain ⟨z, hz, hfails⟩ := ih hxs
      exact ⟨z, .tail _ hz, hfails⟩
    · cases h

/-- Every result belongs to an item. -/
theorem exists_of_mem_right {R : α → β → Prop} {xs : List α} {ys : List β}
    (h : List.Forall₂ R xs ys) {y : β} (hy : y ∈ ys) : ∃ x ∈ xs, R x y := by
  induction h with
  | nil => cases hy
  | cons hxy _ ih =>
    cases hy with
    | head => exact ⟨_, .head _, hxy⟩
    | tail _ hy =>
      obtain ⟨x, hx, hr⟩ := ih hy
      exact ⟨x, .tail _ hx, hr⟩

/-- Every item has a result. -/
theorem exists_of_mem_left {R : α → β → Prop} {xs : List α} {ys : List β}
    (h : List.Forall₂ R xs ys) {x : α} (hx : x ∈ xs) : ∃ y ∈ ys, R x y :=
  exists_of_mem_right h.flip hx

/-- What two lists that belong to each other have in common. -/
theorem map_eq_of_forall₂ {γ : Type} {f : α → γ} {g : β → γ} {xs : List α} {ys : List β}
    (h : List.Forall₂ (fun x y => g y = f x) xs ys) : ys.map g = xs.map f := by
  refine List.forall₂_eq_eq_eq ▸ ?_
  rw [List.forall₂_map_left_iff, List.forall₂_map_right_iff]
  exact h.flip

theorem forall₂_of_map_eq {γ : Type} {f : α → γ} {g : β → γ} {xs : List α} {ys : List β}
    (h : ys.map g = xs.map f) : List.Forall₂ (fun x y => g y = f x) xs ys := by
  rw [← List.forall₂_eq_eq_eq, List.forall₂_map_left_iff, List.forall₂_map_right_iff] at h
  exact h.flip

/-- Two lists that belong to one in between belong to each other through its items. -/
theorem forall₂_through {γ : Type} {R : α → β → Prop} {S : β → γ → Prop} {xs : List α} {ys : List β}
    {zs : List γ} (h : List.Forall₂ R xs ys) (h' : List.Forall₂ S ys zs) :
    List.Forall₂ (fun x z => ∃ y ∈ ys, R x y ∧ S y z) xs zs := by
  induction h generalizing zs with
  | nil =>
    cases h'
    exact .nil
  | cons hxy _ ih =>
    cases h' with
    | cons hyz h' =>
      refine .cons ⟨_, .head _, hxy, hyz⟩ ((ih h').imp fun _ _ ⟨y, hy, hboth⟩ => ?_)
      exact ⟨y, .tail _ hy, hboth⟩

/-- Two lists that belong to one are the same if what belongs to an item of it is. -/
theorem eq_of_forall₂ {R S : α → β → Prop} {xs : List α} {ys zs : List β}
    (h : List.Forall₂ R xs ys) (h' : List.Forall₂ S xs zs)
    (hunique : ∀ x ∈ xs, ∀ y z, R x y → S x z → z = y) : zs = ys := by
  refine List.forall₂_eq_eq_eq ▸ (forall₂_through h'.flip h).imp ?_
  rintro z y ⟨x, hx, hs, hr⟩
  exact hunique x hx y z hr hs

/-- Computations for the items of a list succeed together exactly if each does. -/
theorem exists_mapM_iff {f : α → Except ε β} {xs : List α} :
    (∃ ys, xs.mapM f = .ok ys) ↔ ∀ x ∈ xs, ∃ y, f x = .ok y := by
  refine ⟨?_, exists_mapM_eq_ok⟩
  rintro ⟨ys, h⟩ x hx
  obtain ⟨y, -, hy⟩ := exists_of_mem_left (mapM_eq_ok.1 h) hx
  exact ⟨y, hy⟩

/-- A step that only wraps what it is given succeeds exactly if what it is given does. -/
theorem exists_bind_pure_iff {x : Except ε α} {f : α → β} :
    (∃ b, (x >>= fun a => pure (f a)) = .ok b) ↔ ∃ a, x = .ok a := by
  constructor
  · rintro ⟨b, h⟩
    obtain ⟨a, ha, -⟩ := bind_eq_ok.1 h
    exact ⟨a, ha⟩
  · rintro ⟨a, ha⟩
    exact ⟨f a, bind_eq_ok.2 ⟨a, ha, rfl⟩⟩

/-- Of two computations that come to the same as far as can be seen, one succeeds exactly if the
other does. -/
theorem exists_ok_iff_of_map_eq {γ : Type} {x : Except ε α} {x' : Except ε β} {see : α → γ}
    {see' : β → γ} (h : x'.map see' = x.map see) : (∃ a, x = .ok a) ↔ ∃ b, x' = .ok b := by
  cases x with
  | ok a =>
    cases x' with
    | ok b => simp
    | error e => cases h
  | error e =>
    cases x' with
    | ok b => cases h
    | error e' => simp

/-! ## Rearranged and replaced items -/

/-- The results for a rearranged list are those for the list, rearranged. -/
theorem exists_forall₂_of_perm {R : α → β → Prop} {xs xs' : List α} {ys : List β}
    (hperm : xs.Perm xs') (h : List.Forall₂ R xs ys) :
    ∃ ys', List.Forall₂ R xs' ys' ∧ ys.Perm ys' := by
  obtain ⟨ys', hys', hperm'⟩ := List.perm_comp_forall₂ hperm.symm h
  exact ⟨ys', hys', hperm'.symm⟩

/-- A computation for every item of a rearranged list succeeds where it does so for the list. -/
theorem exists_mapM_of_perm {f : α → Except ε β} {xs xs' : List α} {ys : List β}
    (hperm : xs.Perm xs') (h : xs.mapM f = .ok ys) : ∃ ys', xs'.mapM f = .ok ys' ∧ ys.Perm ys' := by
  obtain ⟨ys', hys', hperm'⟩ := exists_forall₂_of_perm hperm (mapM_eq_ok.1 h)
  exact ⟨ys', mapM_eq_ok.2 hys', hperm'⟩

/-- Where an item of a list and what replaces it give the same as far as can be seen, the list and
the replaced list do. -/
theorem exists_mapM_map {γ : Type} {f f' : α → Except ε β} {replace : α → α} {see : β → γ}
    (hstep : ∀ {x y}, f x = .ok y → ∃ y', f' (replace x) = .ok y' ∧ see y' = see y) {xs : List α}
    {ys : List β} (h : xs.mapM f = .ok ys) :
    ∃ ys', (xs.map replace).mapM f' = .ok ys' ∧ ys'.map see = ys.map see := by
  induction xs generalizing ys with
  | nil =>
    cases pure_eq_ok.1 h
    exact ⟨[], rfl, rfl⟩
  | cons x xs ih =>
    rw [List.mapM_cons] at h
    obtain ⟨y, hy, h⟩ := bind_eq_ok.1 h
    obtain ⟨rest, hrest, h⟩ := bind_eq_ok.1 h
    cases pure_eq_ok.1 h
    obtain ⟨y', hy', hsame⟩ := hstep hy
    obtain ⟨rest', hrest', hothers⟩ := ih hrest
    refine ⟨y' :: rest', ?_, by rw [List.map_cons, List.map_cons, hsame, hothers]⟩
    rw [List.map_cons, List.mapM_cons]
    exact bind_eq_ok.2 ⟨y', hy', bind_eq_ok.2 ⟨rest', hrest', rfl⟩⟩

section Map

variable {α' β' : Type} {x : Except ε α} {f : α → Except ε β} {see : β → β'}

/-- A map goes past a step that is the same on both sides. -/
theorem bind_eq_map {f' : α → Except ε β'} (hf : ∀ a, f' a = (f a).map see) :
    x >>= f' = (x >>= f).map see := by
  cases x with
  | error e => rfl
  | ok a => exact hf a

/-- A map goes past a step whose result is mapped. -/
theorem map_bind_eq_map {f' : α' → Except ε β'} {g : α → α'}
    (hf : ∀ a, f' (g a) = (f a).map see) : x.map g >>= f' = (x >>= f).map see := by
  cases x with
  | error e => rfl
  | ok a => exact hf a

/-- What follows a step whose result is mapped may be told of the result. -/
theorem map_bind_eq {f' : α' → Except ε β} {g : α → α'} (hf : ∀ a, f' (g a) = f a) :
    x.map g >>= f' = x >>= f := by
  cases x with
  | error e => rfl
  | ok a => exact hf a

/-- Where the result for what replaces an item is that for the item under a map, so it is for the
whole list. -/
theorem mapM_map_eq_map {f' : α' → Except ε β'} {replace : α → α'}
    (hf : ∀ a, f' (replace a) = (f a).map see) (xs : List α) :
    (xs.map replace).mapM f' = (xs.mapM f).map (List.map see) := by
  induction xs with
  | nil => rfl
  | cons x xs ih =>
    rw [List.map_cons, List.mapM_cons, List.mapM_cons, hf, ih]
    exact map_bind_eq_map fun y => map_bind_eq_map fun ys => rfl

theorem mapM_eq_map {f' : α → Except ε β'} (hf : ∀ a, f' a = (f a).map see) (xs : List α) :
    xs.mapM f' = (xs.mapM f).map (List.map see) := by
  nth_rewrite 1 [← List.map_id xs]
  exact mapM_map_eq_map hf xs

/-- Where a step from what is to be seen, for what replaces an item, gives what is to be seen of the
step for the item, so do the steps for a whole list. -/
theorem foldlM_map_eq_map {γ γ' : Type} {step : γ → α → Except ε γ} {step' : γ' → α' → Except ε γ'}
    {replace : α → α'} {see : γ → γ'}
    (hstep : ∀ c a, step' (see c) (replace a) = (step c a).map see) (xs : List α) (c : γ) :
    (xs.map replace).foldlM step' (see c) = (xs.foldlM step c).map see := by
  induction xs generalizing c with
  | nil => rfl
  | cons x xs ih =>
    rw [List.map_cons, List.foldlM_cons, List.foldlM_cons, hstep]
    exact map_bind_eq_map ih

end Map

end WirePlan
