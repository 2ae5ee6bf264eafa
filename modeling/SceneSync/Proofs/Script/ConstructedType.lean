import Mathlib
import SceneSync.Proofs.Script.Reading.Statements
import SceneSync.Proofs.Script.TypedConversion

/-!
# The names of constructed types

A constructed type is named by the text of what `new` constructs without its blanks. That
is the names with points between them just when nothing but blanks stands around the
points and the names have none: a comment stays in the type.
-/

namespace SceneSync

theorem intercalate_concat {α : Type} {ns : List (List α)} (sep n : List α) (h : ns ≠ []) :
    sep.intercalate (ns ++ [n]) = sep.intercalate ns ++ (sep ++ n) := by
  induction ns with
  | nil => exact absurd rfl h
  | cons m ns ih =>
    cases ns with
    | nil => simp [List.intercalate_cons_of_ne_nil]
    | cons k ns =>
      rw [List.cons_append, List.intercalate_cons_of_ne_nil (by simp), ih (List.cons_ne_nil k ns),
        List.intercalate_cons_of_ne_nil (List.cons_ne_nil k ns)]
      simp only [List.append_assoc]

theorem mem_intercalate {α : Type} {ns : List (List α)} {n : List α} {x : α} (sep : List α)
    (hn : n ∈ ns) (hx : x ∈ n) : x ∈ sep.intercalate ns := by
  induction ns with
  | nil => cases hn
  | cons m ns ih =>
    cases ns with
    | nil =>
      obtain rfl : n = m := by simpa using hn
      simpa using hx
    | cons k ns =>
      rw [List.intercalate_cons_of_ne_nil (List.cons_ne_nil k ns), List.mem_append,
        List.mem_append]
      rcases List.mem_cons.mp hn with rfl | hn
      · exact .inl (.inl hx)
      · exact .inr (ih hn)

namespace Text

theorem squeeze_append (cs ds : List Char) : squeeze (cs ++ ds) = squeeze cs ++ squeeze ds :=
  List.filter_append ..

theorem squeeze_eq_self {cs : List Char} : squeeze cs = cs ↔ ∀ x ∈ cs, isBlank x = false := by
  simp [squeeze, List.filter_eq_self]

theorem squeeze_eq_nil {cs : List Char} : squeeze cs = [] ↔ ∀ x ∈ cs, isBlank x = true := by
  simp [squeeze, List.filter_eq_nil_iff]

end Text

namespace Script

variable {ns gs : List (List Char)} {text : List Char}

theorem Spelling.ne_nil (h : Spelling ns gs text) : ns ≠ [] := by
  cases h <;> simp

/-- The blanks aside, a chain is as long as its names, its points and its gaps. -/
theorem Spelling.length_squeeze (h : Spelling ns gs text)
    (hns : ∀ n ∈ ns, ∀ x ∈ n, Text.isBlank x = false) :
    (Text.squeeze text).length =
      (['.'].intercalate ns).length + ((gs.map Text.squeeze).flatten).length := by
  induction h with
  | name n =>
    rw [Text.squeeze_eq_self.mpr (hns n (List.mem_singleton_self n))]
    simp
  | @member ns gs text g g' n h _ _ ih =>
    have hn := Text.squeeze_eq_self.mpr (hns n (by simp))
    have hrest := ih fun m hm => hns m (by simp [hm])
    have hpoint : Text.squeeze ('.' :: (g' ++ n)) = '.' :: Text.squeeze (g' ++ n) := rfl
    rw [intercalate_concat _ _ h.ne_nil, Text.squeeze_append, Text.squeeze_append, hpoint,
      Text.squeeze_append, hn]
    simp [hrest]
    omega

theorem Spelling.squeeze_of_blank (h : Spelling ns gs text)
    (hns : ∀ n ∈ ns, ∀ x ∈ n, Text.isBlank x = false)
    (hgs : ∀ g ∈ gs, ∀ x ∈ g, Text.isBlank x = true) :
    Text.squeeze text = ['.'].intercalate ns := by
  induction h with
  | name n =>
    rw [Text.squeeze_eq_self.mpr (hns n (List.mem_singleton_self n))]
    simp
  | @member ns gs text g g' n h _ _ ih =>
    have hn := Text.squeeze_eq_self.mpr (hns n (by simp))
    have hg := Text.squeeze_eq_nil.mpr (hgs g (by simp))
    have hg' := Text.squeeze_eq_nil.mpr (hgs g' (by simp))
    have hrest := ih (fun m hm => hns m (by simp [hm])) fun k hk => hgs k (by simp [hk])
    have hpoint : Text.squeeze ('.' :: (g' ++ n)) = '.' :: Text.squeeze (g' ++ n) := rfl
    rw [intercalate_concat _ _ h.ne_nil, Text.squeeze_append, Text.squeeze_append, hpoint,
      Text.squeeze_append, hn, hg, hg', hrest]
    rfl

theorem Spelling.squeeze_eq_iff (h : Spelling ns gs text) :
    Text.squeeze text = ['.'].intercalate ns ↔
      (∀ g ∈ gs, ∀ x ∈ g, Text.isBlank x = true) ∧ ∀ n ∈ ns, ∀ x ∈ n, Text.isBlank x = false := by
  refine ⟨fun heq => ?_, fun ⟨hgs, hns⟩ => h.squeeze_of_blank hns hgs⟩
  have hns : ∀ n ∈ ns, ∀ x ∈ n, Text.isBlank x = false := by
    intro n hn x hx
    have hmem : x ∈ Text.squeeze text := heq ▸ mem_intercalate ['.'] hn hx
    simpa using (List.mem_filter.mp hmem).2
  refine ⟨fun g hg => Text.squeeze_eq_nil.mp ?_, hns⟩
  have hlength := h.length_squeeze hns
  rw [heq] at hlength
  have hflat : (gs.map Text.squeeze).flatten = [] := List.eq_nil_of_length_eq_zero (by omega)
  exact List.flatten_eq_nil_iff.mp hflat _ (List.mem_map_of_mem hg)

/-! ## Constructed types -/

/-- The text of the type arguments of a `new` expression. -/
def typeArgumentText (s : Script) (t : Tree) : List Char :=
  ((t.child? .typeArguments).map s.text).getD []

theorem constructedType_eq (s : Script) {t c : Tree} (hc : t.child? .callee = some c) :
    s.constructedType t = if isMemberPath c then
      String.ofList (Text.squeeze (s.text c) ++ s.typeArgumentText t) else anyType := by
  rw [constructedType, hc, typeArgumentText]
  cases t.child? .typeArguments <;> rfl

/-- What `new` constructs has the type of its names, with points between them and the type
arguments behind, just when blanks alone stand around the points and the names have none.
What is no chain of names has any type. -/
theorem constructedType_names {dialect : Dialect} {src : List Char} {s : Script} {t : Tree}
    (hs : read dialect src = .ok s) (ht : t ∈ s.tree.preorder) (hnew : t.kind = .newExpression) :
    ∃ c, t.child? .callee = some c ∧
      (c.names? src = none → s.constructedType t = anyType) ∧
      ∀ ns, c.names? src = some ns → ∃ gs, Spelling ns gs (s.text c) ∧
        s.constructedType t =
          String.ofList (Text.squeeze (s.text c) ++ s.typeArgumentText t) ∧
        (s.constructedType t = String.ofList (['.'].intercalate ns ++ s.typeArgumentText t) ↔
          (∀ g ∈ gs, ∀ x ∈ g, Text.isBlank x = true) ∧
            ∀ n ∈ ns, ∀ x ∈ n, Text.isBlank x = false) := by
  obtain ⟨rfl, hsound⟩ := sound_of_read hs
  obtain ⟨c, hc, hspelled⟩ := hsound t ht hnew
  rw [s.constructedType_eq hc, isMemberPath_eq s.source c]
  refine ⟨c, hc, fun hnone => by simp [hnone], fun ns hns => ?_⟩
  have hpath : isMemberPath c = true := by rw [isMemberPath_eq s.source, hns, Option.isSome_some]
  obtain ⟨ms, gs, text, hms, hspelling, hspans⟩ := hspelled hpath
  obtain rfl : ms = ns := Option.some.inj (hms.symm.trans hns)
  obtain rfl : s.text c = text := hspans.textIn
  refine ⟨gs, hspelling, by simp [hns], ?_⟩
  rw [← hspelling.squeeze_eq_iff]
  simp [hns, String.ofList_inj]

/-- Whether a script has a `new` expression with the given names, type arguments and type. -/
def constructs (s : Script) (names : List String) (arguments type : String) : Bool :=
  s.tree.preorder.any fun t => t.kind == .newExpression &&
    (t.child? .callee).any (fun c => c.names? s.source == some (names.map String.toList)) &&
    s.typeArgumentText t == arguments.toList && s.constructedType t == type

theorem exists_of_constructs (source : String) (names : List String) (arguments type : String)
    (hparse : (parse? .typed source.toList).isSome)
    (h : (typedScript source).constructs names arguments type = true) :
    ∃ s t c, read .typed source.toList = .ok s ∧ t ∈ s.tree.preorder ∧ t.kind = .newExpression ∧
      t.child? .callee = some c ∧ c.names? source.toList = some (names.map String.toList) ∧
      s.typeArgumentText t = arguments.toList ∧ s.constructedType t = type := by
  obtain ⟨t, ht, hp⟩ := List.any_eq_true.mp h
  simp only [Bool.and_eq_true, beq_iff_eq, Option.any_eq_true] at hp
  obtain ⟨⟨⟨hkind, c, hc, hnames⟩, harguments⟩, htype⟩ := hp
  exact ⟨_, t, c, read_typedScript source hparse, ht, hkind, hc, hnames, harguments, htype⟩

theorem constructedType_names_spaced :
    ∃ s t c gs, read .typed "new Phaser . Game\n. Group<Hero >();".toList = .ok s ∧
      t ∈ s.tree.preorder ∧ t.kind = .newExpression ∧ t.child? .callee = some c ∧
      Spelling ["Phaser".toList, "Game".toList, "Group".toList] gs (s.text c) ∧
      (∀ g ∈ gs, ∀ x ∈ g, Text.isBlank x = true) ∧
      s.constructedType t = "Phaser.Game.Group<Hero >" := by
  obtain ⟨s, t, c, hread, ht, hkind, hc, hnames, harguments, htype⟩ :=
    exists_of_constructs "new Phaser . Game\n. Group<Hero >();" ["Phaser", "Game", "Group"]
      "<Hero >" "Phaser.Game.Group<Hero >" (by decide +kernel) (by decide +kernel)
  obtain ⟨c', hc', -, hchain⟩ := constructedType_names hread ht hkind
  obtain rfl : c' = c := Option.some.inj (hc'.symm.trans hc)
  obtain ⟨gs, hspelling, -, hiff⟩ := hchain _ hnames
  refine ⟨s, t, c', gs, hread, ht, hkind, hc, hspelling, (hiff.mp ?_).1, htype⟩
  rw [htype, harguments]
  rfl

/-- A comment around a point stays in the type. -/
theorem comment_in_constructedType :
    ∃ s t c, read .typed "new Phaser /* c */ . Hero();".toList = .ok s ∧
      t ∈ s.tree.preorder ∧ t.kind = .newExpression ∧ t.child? .callee = some c ∧
      c.names? "new Phaser /* c */ . Hero();".toList = some ["Phaser".toList, "Hero".toList] ∧
      s.typeArgumentText t = [] ∧ s.constructedType t = "Phaser/*c*/.Hero" :=
  exists_of_constructs _ ["Phaser", "Hero"] "" _ (by decide +kernel) (by decide +kernel)

end Script

end SceneSync
