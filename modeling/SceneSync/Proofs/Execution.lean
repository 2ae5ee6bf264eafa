import Mathlib
import SceneSync.Work

/-!
# Executions

Changes and work run from a state to a result and a state. One equation for each
way of putting them together.
-/

namespace SceneSync

variable {ε σ α β : Type}

/-- What a computation ends with when it starts in a state, and the state it leaves. -/
def execute (x : ExceptT ε (StateM σ) α) (s : σ) : Except ε α × σ := x.run s

@[simp] theorem execute_pure (a : α) (s : σ) :
    execute (pure a : ExceptT ε (StateM σ) α) s = (.ok a, s) := rfl

@[simp] theorem execute_throw (e : ε) (s : σ) :
    execute (throw e : ExceptT ε (StateM σ) α) s = (.error e, s) := rfl

@[simp] theorem execute_get (s : σ) :
    execute (get : ExceptT ε (StateM σ) σ) s = (.ok s, s) := rfl

@[simp] theorem execute_set (s' s : σ) :
    execute (set s' : ExceptT ε (StateM σ) PUnit) s = (.ok ⟨⟩, s') := rfl

@[simp] theorem execute_modify (f : σ → σ) (s : σ) :
    execute (modify f : ExceptT ε (StateM σ) PUnit) s = (.ok ⟨⟩, f s) := rfl

theorem execute_bind (x : ExceptT ε (StateM σ) α) (f : α → ExceptT ε (StateM σ) β) (s : σ) :
    execute (x >>= f) s = match execute x s with
      | (.ok a, s') => execute (f a) s'
      | (.error e, s') => (.error e, s') := by
  simp only [execute, ExceptT.run, bind, ExceptT.bind, ExceptT.mk, StateT.bind, ExceptT.bindCont]
  cases h : x s with
  | mk r s' => cases r <;> rfl

theorem execute_tryCatch (x : ExceptT ε (StateM σ) α) (f : ε → ExceptT ε (StateM σ) α) (s : σ) :
    execute (tryCatch x f) s = match execute x s with
      | (.ok a, s') => (.ok a, s')
      | (.error e, s') => execute (f e) s' := by
  simp only [execute, ExceptT.run, tryCatch, tryCatchThe, MonadExceptOf.tryCatch, ExceptT.tryCatch,
    ExceptT.mk, bind, StateT.bind]
  cases h : x s with
  | mk r s' => cases r <;> rfl

theorem execute_bind_ok {x : ExceptT ε (StateM σ) α} {f : α → ExceptT ε (StateM σ) β} {s s' : σ}
    {a : α} (h : execute x s = (.ok a, s')) : execute (x >>= f) s = execute (f a) s' := by
  rw [execute_bind, h]

theorem execute_bind_error {x : ExceptT ε (StateM σ) α} {f : α → ExceptT ε (StateM σ) β}
    {s s' : σ} {e : ε} (h : execute x s = (.error e, s')) :
    execute (x >>= f) s = (.error e, s') := by
  rw [execute_bind, h]

theorem execute_bind_eq_ok {x : ExceptT ε (StateM σ) α} {f : α → ExceptT ε (StateM σ) β}
    {s s' : σ} {b : β} : execute (x >>= f) s = (.ok b, s') ↔
      ∃ a s₁, execute x s = (.ok a, s₁) ∧ execute (f a) s₁ = (.ok b, s') := by
  rw [execute_bind]
  constructor
  · intro h
    split at h
    · rename_i a s₁ hx
      exact ⟨a, s₁, hx, h⟩
    · cases h
  · rintro ⟨a, s₁, hx, h⟩
    rw [hx]
    exact h

theorem execute_tryCatch_ok {x : ExceptT ε (StateM σ) α} {f : ε → ExceptT ε (StateM σ) α}
    {s s' : σ} {a : α} (h : execute x s = (.ok a, s')) :
    execute (tryCatch x f) s = (.ok a, s') := by
  rw [execute_tryCatch, h]

theorem execute_tryCatch_error {x : ExceptT ε (StateM σ) α} {f : ε → ExceptT ε (StateM σ) α}
    {s s' : σ} {e : ε} (h : execute x s = (.error e, s')) :
    execute (tryCatch x f) s = execute (f e) s' := by
  rw [execute_tryCatch, h]

/-- A list of computations that leave the state alone. -/
theorem execute_mapM_pure {f : α → ExceptT ε (StateM σ) β} {g : α → β} {s : σ} {xs : List α}
    (hf : ∀ x ∈ xs, execute (f x) s = (.ok (g x), s)) :
    execute (xs.mapM f) s = (.ok (xs.map g), s) := by
  induction xs with
  | nil => rw [List.mapM_nil, execute_pure, List.map_nil]
  | cons x xs ih =>
    have hxs := ih fun y hy => hf y (by simp [hy])
    rw [List.mapM_cons, execute_bind_ok (hf x (by simp)), execute_bind_ok hxs, execute_pure,
      List.map_cons]

/-- Without their results the computations of a list do the same. -/
theorem execute_forM_of_mapM {f : α → ExceptT ε (StateM σ) PUnit} {s s' : σ} {xs : List α}
    {ys : List PUnit} (h : execute (xs.mapM f) s = (.ok ys, s')) :
    execute (xs.forM f) s = (.ok ⟨⟩, s') := by
  induction xs generalizing s ys with
  | nil =>
    rw [List.mapM_nil, execute_pure] at h
    obtain rfl := (Prod.mk.inj h).2
    rfl
  | cons x xs ih =>
    rw [List.mapM_cons] at h
    obtain ⟨_, s₁, hx, h⟩ := execute_bind_eq_ok.mp h
    obtain ⟨_, s₂, hxs, h⟩ := execute_bind_eq_ok.mp h
    obtain rfl := (Prod.mk.inj h).2
    exact (execute_bind_ok hx).trans (ih hxs)

/-- A list of computations that keep an invariant and get one thing each done that
the later ones do not undo. -/
theorem execute_mapM {f : α → ExceptT ε (StateM σ) β} {xs : List α}
    {I : σ → Prop} {R : σ → σ → Prop} {D : α → σ → Prop} (hrefl : ∀ s, R s s)
    (htrans : ∀ s s' s'', R s s' → R s' s'' → R s s'')
    (hkept : ∀ x s s', D x s → R s s' → D x s')
    (hf : ∀ x ∈ xs, ∀ s, I s →
      ∃ b s', execute (f x) s = (.ok b, s') ∧ I s' ∧ R s s' ∧ D x s')
    (s : σ) (hs : I s) :
    ∃ bs s', execute (xs.mapM f) s = (.ok bs, s') ∧ I s' ∧ R s s' ∧ ∀ x ∈ xs, D x s' := by
  induction xs generalizing s with
  | nil => exact ⟨[], s, by rw [List.mapM_nil, execute_pure], hs, hrefl s, by simp⟩
  | cons x xs ih =>
    obtain ⟨b, s₁, hx, hinv, hlater, hdone⟩ := hf x (by simp) s hs
    obtain ⟨bs, s', hxs, hinv', hlater', hdone'⟩ := ih (fun y hy => hf y (by simp [hy])) s₁ hinv
    refine ⟨b :: bs, s', ?_, hinv', htrans _ _ _ hlater hlater', fun y hy => ?_⟩
    · rw [List.mapM_cons, execute_bind_ok hx, execute_bind_ok hxs, execute_pure]
    · rcases List.mem_cons.mp hy with rfl | hy
      · exact hkept _ _ _ hdone hlater'
      · exact hdone' y hy

/-- A list of computations of which each ends well as long as an invariant holds. -/
theorem mapM_ok {f : α → ExceptT ε (StateM σ) β} {xs : List α} {I : σ → Prop} {G : β → Prop}
    (hf : ∀ x ∈ xs, ∀ s, I s → ∃ y s', execute (f x) s = (.ok y, s') ∧ I s' ∧ G y)
    {s : σ} (hs : I s) :
    ∃ ys s', execute (xs.mapM f) s = (.ok ys, s') ∧ I s' ∧ ∀ y ∈ ys, G y := by
  induction xs generalizing s with
  | nil => exact ⟨[], s, by rw [List.mapM_nil, execute_pure], hs, by simp⟩
  | cons x xs ih =>
    obtain ⟨y, s₁, hx, hinv, hy⟩ := hf x (by simp) s hs
    obtain ⟨ys, s', hxs, hinv', hys⟩ := ih (fun x' hx' => hf x' (by simp [hx'])) hinv
    refine ⟨y :: ys, s', ?_, hinv', by simpa [hy] using hys⟩
    rw [List.mapM_cons, execute_bind_ok hx, execute_bind_ok hxs, execute_pure]

/-- A list of computations that has run to its end: they kept an invariant, and what
each of them gave and got done has not been undone. -/
theorem mapM_run {f : α → ExceptT ε (StateM σ) β} {xs : List α} {ys : List β} {I : σ → Prop}
    {R : σ → σ → Prop} {D : α → β → σ → Prop} (hrefl : ∀ s, R s s)
    (htrans : ∀ s s' s'', R s s' → R s' s'' → R s s'')
    (hkept : ∀ x y s s', D x y s → R s s' → D x y s')
    (hf : ∀ x ∈ xs, ∀ y ∈ ys, ∀ s s', I s → execute (f x) s = (.ok y, s') →
      I s' ∧ R s s' ∧ D x y s')
    {s s' : σ} (hs : I s) (hexec : execute (xs.mapM f) s = (.ok ys, s')) :
    I s' ∧ R s s' ∧ List.Forall₂ (fun x y => D x y s') xs ys := by
  induction xs generalizing s ys with
  | nil =>
    rw [List.mapM_nil, execute_pure, Prod.mk.injEq, Except.ok.injEq] at hexec
    obtain ⟨rfl, rfl⟩ := hexec
    exact ⟨hs, hrefl s, .nil⟩
  | cons x xs ih =>
    rw [List.mapM_cons, execute_bind_eq_ok] at hexec
    obtain ⟨y, s₁, hx, hexec⟩ := hexec
    obtain ⟨zs, s₂, hxs, hexec⟩ := execute_bind_eq_ok.mp hexec
    rw [execute_pure, Prod.mk.injEq, Except.ok.injEq] at hexec
    obtain ⟨rfl, rfl⟩ := hexec
    obtain ⟨hinv, hlater, hdone⟩ := hf x (by simp) y (by simp) s s₁ hs hx
    obtain ⟨hinv', hlater', hdone'⟩ :=
      ih (fun x' hx' z hz => hf x' (by simp [hx']) z (by simp [hz])) hinv hxs
    exact ⟨hinv', htrans _ _ _ hlater hlater', .cons (hkept _ _ _ _ hdone hlater') hdone'⟩

/-- A list of computations that has run to its end, beside another one that does the like
from other states. -/
theorem mapM_alike {f g : α → ExceptT ε (StateM σ) β} {xs : List α} {ys : List β}
    {I J : σ → Prop} {Q : β → β → Prop}
    (hf : ∀ x ∈ xs, ∀ y ∈ ys, ∀ s s' r, I s → J r → execute (f x) s = (.ok y, s') →
      I s' ∧ ∃ z r', execute (g x) r = (.ok z, r') ∧ J r' ∧ Q y z)
    {s s' r : σ} (hs : I s) (hr : J r) (hexec : execute (xs.mapM f) s = (.ok ys, s')) :
    I s' ∧ ∃ zs r', execute (xs.mapM g) r = (.ok zs, r') ∧ J r' ∧ List.Forall₂ Q ys zs := by
  induction xs generalizing s r ys with
  | nil =>
    rw [List.mapM_nil, execute_pure, Prod.mk.injEq, Except.ok.injEq] at hexec
    obtain ⟨rfl, rfl⟩ := hexec
    exact ⟨hs, [], r, by rw [List.mapM_nil, execute_pure], hr, .nil⟩
  | cons x xs ih =>
    rw [List.mapM_cons, execute_bind_eq_ok] at hexec
    obtain ⟨y, s₁, hx, hexec⟩ := hexec
    obtain ⟨ys, s₂, hxs, hexec⟩ := execute_bind_eq_ok.mp hexec
    rw [execute_pure, Prod.mk.injEq, Except.ok.injEq] at hexec
    obtain ⟨rfl, rfl⟩ := hexec
    obtain ⟨hinv, z, r₁, hz, hr₁, hQ⟩ := hf x (by simp) y (by simp) s s₁ r hs hr hx
    obtain ⟨hinv', zs, r', hzs, hr', hQs⟩ :=
      ih (fun x' hx' y' hy' => hf x' (by simp [hx']) y' (by simp [hy'])) hinv hr₁ hxs
    refine ⟨hinv', z :: zs, r', ?_, hr', .cons hQ hQs⟩
    rw [List.mapM_cons, execute_bind_ok hz, execute_bind_ok hzs, execute_pure]

/-- A computation keeps a property of the state, and it fails only in some ways. -/
def Contained (P : σ → Prop) (F : ε → Prop) (x : ExceptT ε (StateM σ) α) : Prop :=
  ∀ s, P s → P (execute x s).2 ∧ ∀ e, (execute x s).1 = .error e → F e

namespace Contained

variable {P : σ → Prop} {F G : ε → Prop}

theorem pure (a : α) : Contained P F (Pure.pure a : ExceptT ε (StateM σ) α) :=
  fun _ h => ⟨h, by simp⟩

theorem throw {e : ε} (he : F e) : Contained P F (throw e : ExceptT ε (StateM σ) α) :=
  fun _ h => ⟨h, by rintro _ ⟨⟩; exact he⟩

theorem modify {f : σ → σ} (hf : ∀ s, P s → P (f s)) :
    Contained P F (modify f : ExceptT ε (StateM σ) PUnit) :=
  fun s h => ⟨hf s h, by simp⟩

theorem kept {x : ExceptT ε (StateM σ) α} {s s' : σ} {r : Except ε α} (hx : Contained P F x)
    (hs : P s) (h : execute x s = (r, s')) : P s' := by
  have hkept := (hx s hs).1
  rwa [h] at hkept

theorem mono {x : ExceptT ε (StateM σ) α} (hx : Contained P F x) (h : ∀ e, F e → G e) :
    Contained P G x :=
  fun s hs => ⟨(hx s hs).1, fun e he => h e ((hx s hs).2 e he)⟩

theorem bind {x : ExceptT ε (StateM σ) α} {f : α → ExceptT ε (StateM σ) β}
    (hx : Contained P F x) (hf : ∀ a, Contained P F (f a)) : Contained P F (x >>= f) := by
  intro s hs
  have h := hx s hs
  rw [execute_bind]
  split
  · rename_i a s' heq
    rw [heq] at h
    exact hf a s' h.1
  · rename_i e s' heq
    rw [heq] at h
    exact ⟨h.1, by rintro _ ⟨⟩; exact h.2 e rfl⟩

/-- A handler meets the failures from before it only. -/
theorem tryCatch {x : ExceptT ε (StateM σ) α} {f : ε → ExceptT ε (StateM σ) α}
    (hx : Contained P G x) (hf : ∀ e, G e → Contained P F (f e)) : Contained P F (tryCatch x f) := by
  intro s hs
  have h := hx s hs
  rw [execute_tryCatch]
  split
  · rename_i a s' heq
    rw [heq] at h
    exact ⟨h.1, by simp⟩
  · rename_i e s' heq
    rw [heq] at h
    exact hf e (h.2 e rfl) s' h.1

theorem mapM {f : α → ExceptT ε (StateM σ) β} {xs : List α}
    (hf : ∀ x ∈ xs, Contained P F (f x)) : Contained P F (xs.mapM f) := by
  induction xs with
  | nil =>
    rw [List.mapM_nil]
    exact .pure _
  | cons x xs ih =>
    rw [List.mapM_cons]
    exact .bind (hf x (by simp)) fun _ => .bind (ih fun y hy => hf y (by simp [hy])) fun _ => .pure _

theorem forM {f : α → ExceptT ε (StateM σ) PUnit} {xs : List α}
    (hf : ∀ x ∈ xs, Contained P F (f x)) : Contained P F (xs.forM f) := by
  induction xs with
  | nil => exact .pure _
  | cons x xs ih =>
    exact .bind (hf x (by simp)) fun _ => ih fun y hy => hf y (by simp [hy])

end Contained

/-- A computation keeps a property of the state, however it ends. -/
def Preserves (P : σ → Prop) (x : ExceptT ε (StateM σ) α) : Prop := ∀ s, P s → P (execute x s).2

namespace Preserves

variable {P : σ → Prop}

theorem of_contained {F : ε → Prop} {x : ExceptT ε (StateM σ) α} (hx : Contained P F x) :
    Preserves P x := fun s hs => (hx s hs).1

theorem contained {x : ExceptT ε (StateM σ) α} (hx : Preserves P x) :
    Contained P (fun _ => True) x := fun s hs => ⟨hx s hs, fun _ _ => trivial⟩

theorem pure (a : α) : Preserves P (Pure.pure a : ExceptT ε (StateM σ) α) := fun _ h => h

theorem throw (e : ε) : Preserves P (throw e : ExceptT ε (StateM σ) α) := fun _ h => h

theorem get : Preserves P (get : ExceptT ε (StateM σ) σ) := fun _ h => h

theorem modify {f : σ → σ} (hf : ∀ s, P s → P (f s)) :
    Preserves P (modify f : ExceptT ε (StateM σ) PUnit) := hf

theorem bind {x : ExceptT ε (StateM σ) α} {f : α → ExceptT ε (StateM σ) β}
    (hx : Preserves P x) (hf : ∀ a, Preserves P (f a)) : Preserves P (x >>= f) :=
  .of_contained (.bind hx.contained fun a => (hf a).contained)

theorem mapM {f : α → ExceptT ε (StateM σ) β} {xs : List α}
    (hf : ∀ x ∈ xs, Preserves P (f x)) : Preserves P (xs.mapM f) :=
  .of_contained (.mapM fun x hx => (hf x hx).contained)

theorem forM {f : α → ExceptT ε (StateM σ) PUnit} {xs : List α}
    (hf : ∀ x ∈ xs, Preserves P (f x)) : Preserves P (xs.forM f) :=
  .of_contained (.forM fun x hx => (hf x hx).contained)

theorem tryCatch {x : ExceptT ε (StateM σ) α} {f : ε → ExceptT ε (StateM σ) α}
    (hx : Preserves P x) (hf : ∀ e, Preserves P (f e)) : Preserves P (tryCatch x f) :=
  .of_contained (.tryCatch hx.contained fun e _ => (hf e).contained)

end Preserves

/-- Whatever a computation gives has a property. -/
def Gives (Q : α → Prop) (x : ExceptT ε (StateM σ) α) : Prop :=
  ∀ s a s', execute x s = (.ok a, s') → Q a

namespace Gives

variable {Q : α → Prop}

theorem pure {a : α} (ha : Q a) : Gives Q (Pure.pure a : ExceptT ε (StateM σ) α) := by
  rintro s b s' ⟨⟩
  exact ha

theorem bind_of {R : β → Prop} {x : ExceptT ε (StateM σ) β} {f : β → ExceptT ε (StateM σ) α}
    (hx : Gives R x) (hf : ∀ b, R b → Gives Q (f b)) : Gives Q (x >>= f) := by
  intro s a s' h
  obtain ⟨b, s₁, hb, h⟩ := execute_bind_eq_ok.mp h
  exact hf b (hx s b s₁ hb) s₁ a s' h

theorem bind {x : ExceptT ε (StateM σ) β} {f : β → ExceptT ε (StateM σ) α}
    (hf : ∀ b, Gives Q (f b)) : Gives Q (x >>= f) :=
  bind_of (R := fun _ => True) (fun _ _ _ _ => trivial) fun b _ => hf b

theorem tryCatch {x : ExceptT ε (StateM σ) α} {f : ε → ExceptT ε (StateM σ) α}
    (hx : Gives Q x) (hf : ∀ e, Gives Q (f e)) : Gives Q (tryCatch x f) := by
  intro s a s' h
  cases hexec : execute x s with
  | mk r s₁ =>
    cases r with
    | ok b =>
      rw [execute_tryCatch_ok hexec] at h
      obtain rfl := Except.ok.inj (Prod.mk.inj h).1
      exact hx s b s₁ hexec
    | error e =>
      rw [execute_tryCatch_error hexec] at h
      exact hf e s₁ a s' h

end Gives

namespace Work

@[simp] theorem execute_tree (w : World) : execute tree w = (.ok w.tree, w) := rfl

@[simp] theorem execute_notify (n : Notice) (w : World) :
    execute (notify n) w = (.ok ⟨⟩, { w with notices := w.notices ++ [n] }) := rfl

@[simp] theorem execute_ofExcept_ok (f : ε → Failure) (a : α) (w : World) :
    execute (ofExcept f (.ok a)) w = (.ok a, w) := rfl

@[simp] theorem execute_ofExcept_error (f : ε → Failure) (e : ε) (w : World) :
    execute (ofExcept f (.error e) : Work α) w = (.error (f e), w) := rfl

/-- A change of the tree leaves the notices alone. -/
theorem execute_change {c : Change α} {w : World} {r : Except FileError α} {t : FileTree}
    (h : execute c w.tree = (r, t)) :
    execute (change c) w = (r.mapError Failure.file, { w with tree := t }) := by
  have hrun : c.run w.tree = (r, t) := h
  rw [change, execute_bind, execute_get]
  simp only [hrun, execute_bind, execute_set]
  cases r <;> rfl

theorem preserves_change {P : FileTree → Prop} {c : Change α} (h : Preserves P c) :
    Preserves (fun w : World => P w.tree) (change c) := by
  intro w hw
  have ht := h w.tree hw
  cases hc : execute c w.tree with
  | mk r t =>
    rw [hc] at ht
    rwa [execute_change hc]

theorem contained_change {P : FileTree → Prop} {F : Failure → Prop} {c : Change α}
    (h : Preserves P c) (hF : ∀ e, F (.file e)) :
    Contained (fun w : World => P w.tree) F (change c) := by
  intro w hw
  refine ⟨preserves_change h w hw, fun e he => ?_⟩
  cases hc : execute c w.tree with
  | mk r t =>
    rw [execute_change hc] at he
    cases r with
    | ok a => cases he
    | error f =>
      obtain rfl : Failure.file f = e := Except.error.inj he
      exact hF f

theorem contained_ofExcept {P : World → Prop} {F : Failure → Prop} {f : ε → Failure}
    {r : Except ε α} (h : ∀ e, r = .error e → F (f e)) : Contained P F (ofExcept f r) := by
  cases r with
  | ok a => exact .pure a
  | error e => exact .throw (h e rfl)

theorem contained_tree {P : World → Prop} {F : Failure → Prop} {f : FileTree → Work α}
    (h : ∀ w, P w → P (execute (f w.tree) w).2 ∧ ∀ e, (execute (f w.tree) w).1 = .error e → F e) :
    Contained P F (tree >>= f) := by
  intro w hw
  rw [execute_bind, execute_tree]
  exact h w hw

/-- The text of a file, if its bytes were read. -/
def textOf : Except FileError (List UInt8) → Except Failure (List Char)
  | .error f => .error (.file f)
  | .ok bytes =>
    match Text.decode bytes with
    | .error f => .error (.undecodable f)
    | .ok cs => .ok (Text.unifyLineEnds cs)

/-- To read a text changes nothing and leaves no notice. -/
theorem execute_readText (p : Path) (w : World) :
    execute (readText p) w = (textOf (w.tree.read p), w) := by
  simp only [readText, readBytes, execute_bind, execute_tree]
  cases w.tree.read p with
  | error f => rfl
  | ok b =>
    simp only [execute_ofExcept_ok, textOf]
    cases Text.decode b <;> rfl

@[simp] theorem execute_absolute (p : Path) (w : World) :
    execute (absolute p) w = (.ok (Path.absolute w.tree.current p), w) := rfl

end Work

end SceneSync
