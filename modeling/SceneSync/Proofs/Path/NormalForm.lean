import Mathlib
import SceneSync.Proofs.Path

/-!
# Normal forms of texts

A path can be spelled in many ways: with empty names, with `.` and with `..`. A spelling
is shortened one name at a time, in any order. What cannot be shortened any more is the
absolute path that the text stands for.
-/

namespace SceneSync.Path

/-- The texts between the slashes. -/
def pieces (text : String) : List String := (splitSlash text.toList).map String.ofList

/-- One step that makes a spelling shorter and does not change where it leads. There is
nothing above the top. -/
inductive Shortens : List String → List String → Prop where
  | skip (l r : List String) {n : String} (h : n = "" ∨ n = ".") :
    Shortens (l ++ n :: r) (l ++ r)
  | back (l r : List String) {n : String} (h : n ≠ "" ∧ n ≠ "." ∧ n ≠ "..") :
    Shortens (l ++ n :: ".." :: r) (l ++ r)
  | top (r : List String) : Shortens (".." :: r) r

/-- The spelling of a text in a directory. -/
def spelling (cwd : Path) (text : String) : Path :=
  if anchorOf text.toList = .relative then ⟨cwd.anchor, cwd.names ++ pieces text⟩
  else ⟨anchorOf text.toList, pieces text⟩

/-- A spelling of the text that cannot be shortened. -/
structure NormalForm (cwd : Path) (text : String) (p : Path) : Prop where
  anchor : p.anchor = (spelling cwd text).anchor
  names : Relation.ReflTransGen Shortens (spelling cwd text).names p.names
  short : ∀ n ∈ p.names, n ≠ "" ∧ n ≠ "." ∧ n ≠ ".."

variable {cwd p q : Path} {l r : List String} {n : String}

/-! ## Shortening -/

/-- The names that count. -/
def counted (l : List String) : List String := l.filter fun n => n != "" && n != "."

theorem counted_append : counted (l ++ r) = counted l ++ counted r := List.filter_append l r

theorem counted_eq_self (h : ∀ n ∈ l, n ≠ "" ∧ n ≠ ".") : counted l = l := by
  rw [counted, List.filter_eq_self]
  intro n hn
  simpa using h n hn

/-- The names that are left of a spelling when `..` is resolved. -/
def resolved (l : List String) : List String := ((counted l).foldl resolveStep []).reverse

theorem resolved_concat (l : List String) (n : String) :
    resolved (l ++ [n]) = if n = "" ∨ n = "." then resolved l
      else if n = ".." then (resolved l).dropLast else resolved l ++ [n] := by
  rw [resolved, counted_append, List.foldl_append, resolved]
  split
  · rename_i h
    rcases h with rfl | rfl <;> rfl
  · rename_i h
    have hcounted : counted [n] = [n] := counted_eq_self (by simpa using h)
    rw [hcounted, List.foldl_cons, List.foldl_nil, resolveStep]
    split <;> simp_all

theorem short_of_mem_resolved (h : n ∈ resolved l) : n ≠ "" ∧ n ≠ "." ∧ n ≠ ".." := by
  induction l using List.reverseRecOn with
  | nil => cases h
  | append_singleton l m ih =>
    rw [resolved_concat] at h
    split at h
    · exact ih h
    · rename_i hm
      split at h
      · exact ih (List.mem_of_mem_dropLast h)
      · rename_i hup
        rcases List.mem_append.mp h with h | h
        · exact ih h
        · obtain rfl := List.mem_singleton.mp h
          exact ⟨fun he => hm (.inl he), fun he => hm (.inr he), hup⟩

theorem Shortens.concat (h : Shortens l r) (n : String) : Shortens (l ++ [n]) (r ++ [n]) := by
  cases h with
  | skip l r hn => simpa using Shortens.skip l (r ++ [n]) hn
  | back l r hn => simpa using Shortens.back l (r ++ [n]) hn
  | top r => exact .top (r ++ [n])

/-- A spelling can be shortened until every `..` is resolved. -/
theorem shortens_resolved (l : List String) :
    Relation.ReflTransGen Shortens l (resolved l) := by
  induction l using List.reverseRecOn with
  | nil => exact .refl
  | append_singleton l n ih =>
    have hfront : Relation.ReflTransGen Shortens (l ++ [n]) (resolved l ++ [n]) :=
      ih.lift (· ++ [n]) fun _ _ h => h.concat n
    rw [resolved_concat]
    split
    · rename_i hn
      refine hfront.tail ?_
      simpa using Shortens.skip (resolved l) [] hn
    · split
      · rename_i hup
        subst hup
        -- the last name that is left goes with the `..`
        rcases List.eq_nil_or_concat (resolved l) with hnil | ⟨front, last, hlast⟩
        · rw [hnil] at hfront ⊢
          exact hfront.tail (.top [])
        · have hshort : last ≠ "" ∧ last ≠ "." ∧ last ≠ ".." :=
            short_of_mem_resolved (l := l) (by simp [hlast])
          rw [hlast] at hfront ⊢
          refine hfront.tail ?_
          simpa using Shortens.back front [] hshort
      · exact hfront

/-- A shorter spelling leads to the same place. -/
theorem Shortens.resolved_eq (h : Shortens l r) : resolved l = resolved r := by
  cases h with
  | @skip l r n hn =>
    have hskip : counted (n :: r) = counted r :=
      List.filter_cons_of_neg (by rcases hn with rfl | rfl <;> simp)
    rw [resolved, resolved, counted_append, counted_append, hskip]
  | @back l r n hn =>
    have hback : counted (n :: ".." :: r) = n :: ".." :: counted r := by
      simp [counted, hn.1, hn.2.1]
    have hstep (done : List String) : resolveStep (resolveStep done n) ".." = done := by
      simp [resolveStep, hn.2.2]
    rw [resolved, resolved, counted_append, counted_append, hback, List.foldl_append,
      List.foldl_append, List.foldl_cons, List.foldl_cons, hstep]
  | top r =>
    have htop : counted (".." :: r) = ".." :: counted r := by simp [counted]
    rw [resolved, resolved, htop]
    rfl

theorem resolved_eq_of_shortens (h : Relation.ReflTransGen Shortens l r) :
    resolved l = resolved r := by
  induction h with
  | refl => rfl
  | tail _ hstep ih => exact ih.trans hstep.resolved_eq

theorem resolved_eq_self (h : ∀ n ∈ l, n ≠ "" ∧ n ≠ "." ∧ n ≠ "..") : resolved l = l := by
  rw [resolved, counted_eq_self fun n hn => ⟨(h n hn).1, (h n hn).2.1⟩,
    foldl_resolveStep fun n hn => (h n hn).2.2]
  simp

/-! ## The normal form -/

theorem absolute_ofString (hcwd : cwd.WellSpelled) (text : String) :
    Path.absolute cwd (ofString text) =
      ⟨(spelling cwd text).anchor, resolved (spelling cwd text).names⟩ := by
  have hnames : (ofString text).names = counted (pieces text) := rfl
  have hcurrent : counted cwd.names = cwd.names := counted_eq_self fun n hn => by
    rcases hcwd n hn with rfl | hvalid
    · simp
    · exact ⟨hvalid.nonempty, hvalid.notHere⟩
  have hanchor : (ofString text).anchor = anchorOf text.toList := rfl
  by_cases hrelative : anchorOf text.toList = .relative
  · have habs : (ofString text).isAbsolute = false := by simp [isAbsolute, hanchor, hrelative]
    rw [Path.absolute, join, habs, spelling, if_pos hrelative, resolved, counted_append, hcurrent]
    rfl
  · have habs : (ofString text).isAbsolute = true := by simp [isAbsolute, hanchor, hrelative]
    rw [Path.absolute, join, habs, spelling, if_neg hrelative, resolved]
    rfl

/-- A text has one normal form, however it is shortened: the absolute path that it
stands for. -/
theorem normalForm_iff (hcwd : cwd.WellSpelled) (text : String) :
    NormalForm cwd text p ↔ p = Path.absolute cwd (ofString text) := by
  rw [absolute_ofString hcwd]
  constructor
  · rintro ⟨hanchor, hnames, hshort⟩
    rw [resolved_eq_of_shortens hnames, resolved_eq_self hshort, ← hanchor]
  · rintro rfl
    exact ⟨rfl, shortens_resolved _, fun n hn => short_of_mem_resolved hn⟩

example : NormalForm (.ofString "/home") "../w//./a/../b" (.ofString "/w/b") :=
  (normalForm_iff (wellSpelled_ofString "/home") _).mpr (by decide)

end SceneSync.Path
