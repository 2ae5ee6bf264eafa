import Mathlib

/-!
# Lists side by side

What two lists of related items, or two optional ones, have in common.
-/

namespace SceneSync

variable {α β : Type} {P : α → β → Prop} {xs : List α} {ys : List β}

theorem exists_left_of_mem (h : List.Forall₂ P xs ys) {y : β} (hy : y ∈ ys) : ∃ x ∈ xs, P x y := by
  induction h with
  | nil => cases hy
  | cons hxy _ ih =>
    rcases List.mem_cons.mp hy with rfl | hy
    · exact ⟨_, by simp, hxy⟩
    · obtain ⟨x, hx, hP⟩ := ih hy
      exact ⟨x, by simp [hx], hP⟩

theorem exists_right_of_mem (h : List.Forall₂ P xs ys) {x : α} (hx : x ∈ xs) : ∃ y ∈ ys, P x y :=
  exists_left_of_mem h.flip hx

/-- What holds between the members of one list holds between those beside them. -/
theorem pairwise_of_forall₂ {R : α → α → Prop} {S : β → β → Prop} (h : List.Forall₂ P xs ys)
    (hxs : xs.Pairwise R) (hS : ∀ x y x' y', P x y → P x' y' → R x x' → S y y') :
    ys.Pairwise S := by
  induction h with
  | nil => exact .nil
  | @cons x y xs ys hxy hrest ih =>
    rw [List.pairwise_cons] at hxs
    refine .cons (fun y' hy' => ?_) (ih hxs.2)
    obtain ⟨x', hx', hP⟩ := exists_left_of_mem hrest hy'
    exact hS x y x' y' hxy hP (hxs.1 x' hx')

theorem rel_none {y : Option β} (h : Option.Rel P none y) :
    y = none := by
  cases h
  rfl

theorem exists_of_rel_some {x : α} {y : Option β} (h : Option.Rel P (some x) y) :
    ∃ b, y = some b ∧ P x b := by
  cases h with
  | some h => exact ⟨_, rfl, h⟩

/-- Functions that agree on related items find the same in related lists. -/
theorem filterMap_eq_of_rel {γ : Type} {f : α → Option γ} {g : β → Option γ}
    (h : List.Forall₂ P xs ys) (hfg : ∀ x y, P x y → g y = f x) : ys.filterMap g = xs.filterMap f := by
  induction h with
  | nil => rfl
  | @cons x y _ _ hxy _ ih => rw [List.filterMap_cons, List.filterMap_cons, hfg x y hxy, ih]

theorem flatMap_eq_of_rel {γ : Type} {f : α → List γ} {g : β → List γ}
    (h : List.Forall₂ P xs ys) (hfg : ∀ x y, P x y → g y = f x) : ys.flatMap g = xs.flatMap f := by
  induction h with
  | nil => rfl
  | @cons x y _ _ hxy _ ih => rw [List.flatMap_cons, List.flatMap_cons, hfg x y hxy, ih]

theorem countP_eq_of_rel {p : α → Bool} {q : β → Bool} (h : List.Forall₂ P xs ys)
    (hpq : ∀ x y, P x y → q y = p x) : ys.countP q = xs.countP p := by
  induction h with
  | nil => rfl
  | @cons x y _ _ hxy _ ih => rw [List.countP_cons, List.countP_cons, hpq x y hxy, ih]

/-- The first items that a test finds correspond when related items pass it together. -/
theorem rel_find {p : α → Bool} {q : β → Bool} (h : List.Forall₂ P xs ys)
    (hpq : ∀ x y, P x y → q y = p x) : Option.Rel P (xs.find? p) (ys.find? q) := by
  induction h with
  | nil => exact .none
  | @cons x y _ _ hxy _ ih =>
    rw [List.find?_cons, List.find?_cons, hpq x y hxy]
    cases p x
    · exact ih
    · exact .some hxy

/-! ## All but the first -/

/-- Lists side by side, with a relation of its own for the first items that pass a test. -/
inductive FirstApart (p : α → Bool) (Q P : α → β → Prop) : List α → List β → Prop
  | nil : FirstApart p Q P [] []
  | first {x : α} {y : β} {xs : List α} {ys : List β} : p x = true → Q x y →
      List.Forall₂ P xs ys → FirstApart p Q P (x :: xs) (y :: ys)
  | other {x : α} {y : β} {xs : List α} {ys : List β} : p x = false → P x y →
      FirstApart p Q P xs ys → FirstApart p Q P (x :: xs) (y :: ys)

namespace FirstApart

variable {p : α → Bool} {Q : α → β → Prop}

theorem imp {Q' P' : α → β → Prop} (h : FirstApart p Q P xs ys) (hQ : ∀ x y, Q x y → Q' x y)
    (hP : ∀ x y, P x y → P' x y) : FirstApart p Q' P' xs ys := by
  induction h with
  | nil => exact .nil
  | first hp hxy hrest => exact .first hp (hQ _ _ hxy) (hrest.imp hP)
  | other hp hxy _ ih => exact .other hp (hP _ _ hxy) ih

/-- What the test finds is related as the first items are. -/
theorem find {q : β → Bool} (h : FirstApart p Q P xs ys) (hQ : ∀ x y, Q x y → q y = p x)
    (hP : ∀ x y, P x y → q y = p x) : Option.Rel Q (xs.find? p) (ys.find? q) := by
  induction h with
  | nil => exact .none
  | @first x y _ _ hp hxy _ =>
    rw [List.find?_cons, List.find?_cons, hQ x y hxy, hp]
    exact .some hxy
  | @other x y _ _ hp hxy _ ih =>
    rw [List.find?_cons, List.find?_cons, hP x y hxy, hp]
    exact ih

/-- What a test finds that the first items do not pass is related as the others are. -/
theorem find_other {p' : α → Bool} {q' : β → Bool} (h : FirstApart p Q P xs ys)
    (hother : ∀ x, p x = true → p' x = false) (hQ : ∀ x y, Q x y → q' y = p' x)
    (hP : ∀ x y, P x y → q' y = p' x) : Option.Rel P (xs.find? p') (ys.find? q') := by
  induction h with
  | nil => exact .none
  | @first x y _ _ hp hxy hrest =>
    rw [List.find?_cons, List.find?_cons, hQ x y hxy, hother x hp]
    exact rel_find hrest hP
  | @other x y _ _ _ hxy _ ih =>
    rw [List.find?_cons, List.find?_cons, hP x y hxy]
    cases p' x
    · exact ih
    · exact .some hxy

theorem exists_left {y : β} (h : FirstApart p Q P xs ys) (hy : y ∈ ys) :
    ∃ x ∈ xs, P x y ∨ p x = true ∧ Q x y := by
  induction h with
  | nil => cases hy
  | @first x y' _ _ hp hxy hrest =>
    cases hy with
    | head => exact ⟨x, by simp, .inr ⟨hp, hxy⟩⟩
    | tail _ hy =>
      obtain ⟨x', hx', hrel⟩ := exists_left_of_mem hrest hy
      exact ⟨x', by simp [hx'], .inl hrel⟩
  | @other x y' _ _ _ hxy _ ih =>
    cases hy with
    | head => exact ⟨x, by simp, .inl hxy⟩
    | tail _ hy =>
      obtain ⟨x', hx', hrel⟩ := ih hy
      exact ⟨x', by simp [hx'], hrel⟩

end FirstApart

/-! ## Results -/

/-- A list of results is complete when each of its items has one. -/
theorem mapM_ok_iff {α β ε : Type} (f : α → Except ε β) (xs : List α) (ys : List β) :
    xs.mapM f = .ok ys ↔ List.Forall₂ (fun x y => f x = .ok y) xs ys := by
  induction xs generalizing ys with
  | nil => simp [pure, Except.pure, eq_comm]
  | cons x xs ih =>
    rw [List.mapM_cons]
    cases hx : f x with
    | error e => simp [bind, Except.bind, List.forall₂_cons_left_iff, hx]
    | ok y =>
      cases hxs : xs.mapM f with
      | error e =>
        have hno : ∀ zs, ¬ List.Forall₂ (fun x y => f x = .ok y) xs zs := fun zs hz => by
          simp [(ih zs).mpr hz] at hxs
        simp [bind, Except.bind, List.forall₂_cons_left_iff, hno]
      | ok zs =>
        simp only [bind, Except.bind, pure, Except.pure, Except.ok.injEq,
          List.forall₂_cons_left_iff, hx, ← ih, hxs]
        constructor
        · rintro rfl
          exact ⟨y, zs, rfl, rfl, rfl⟩
        · rintro ⟨_, _, rfl, rfl, rfl⟩
          rfl

/-- A list of results fails at the first of its items to fail. -/
theorem mapM_error_iff {α β ε : Type} (f : α → Except ε β) (xs : List α) (fault : ε) :
    xs.mapM f = .error fault ↔ ∃ before x after, xs = before ++ x :: after ∧
      (∀ y ∈ before, ∃ r, f y = .ok r) ∧ f x = .error fault := by
  induction xs with
  | nil => simp [pure, Except.pure]
  | cons x xs ih =>
    rw [List.mapM_cons]
    cases hx : f x with
    | error e =>
      simp only [bind, Except.bind, Except.error.injEq]
      constructor
      · rintro rfl
        exact ⟨[], x, xs, rfl, by simp, hx⟩
      · rintro ⟨before, y, after, hsplit, hbefore, hy⟩
        cases before with
        | nil =>
          obtain ⟨rfl, rfl⟩ := List.cons.inj hsplit
          exact Except.error.inj (hx.symm.trans hy)
        | cons z before =>
          obtain ⟨rfl, rfl⟩ := List.cons.inj hsplit
          obtain ⟨r, hr⟩ := hbefore x (by simp)
          simp [hx] at hr
    | ok y =>
      have hrest : (bind (xs.mapM f) fun ys => pure (y :: ys)) = Except.error fault ↔
          xs.mapM f = .error fault := by
        cases xs.mapM f <;> simp [bind, Except.bind, pure, Except.pure]
      refine hrest.trans (ih.trans ?_)
      constructor
      · rintro ⟨before, z, after, rfl, hbefore, hz⟩
        refine ⟨x :: before, z, after, rfl, fun w hw => ?_, hz⟩
        cases hw with
        | head => exact ⟨y, hx⟩
        | tail _ hw => exact hbefore w hw
      · rintro ⟨before, z, after, hsplit, hbefore, hz⟩
        cases before with
        | nil =>
          obtain ⟨rfl, rfl⟩ := List.cons.inj hsplit
          simp [hx] at hz
        | cons w before =>
          obtain ⟨rfl, rfl⟩ := List.cons.inj hsplit
          exact ⟨before, z, after, rfl, fun v hv => hbefore v (by simp [hv]), hz⟩

end SceneSync
