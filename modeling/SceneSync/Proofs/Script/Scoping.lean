import Mathlib
import SceneSync.Proofs.Script.TypedConversion

/-!
# The scope of the scene

What the scene's name stands for where it was put in place of a `this`. A conversion
looks at the parameters of the site alone, so it is the scene unless a scope further
in binds the name as well: that of a nested function, of a clause or of a block.

The bodies of classes are left out, since no `this` in them gives way. Types have no
part in it, nor does what is declared without run-time content.
-/

namespace SceneSync.Script

open Script.Tree Script.Parser

variable {s : Script} {o : ConversionOptions} {site : Site} {name : String}

/-! ## Scopes -/

/-- Functions with parameters of their own. -/
def hasParameters : Kind → Bool
  | .functionDeclaration | .generatorFunctionDeclaration | .functionExpression
  | .generatorFunction | .arrowFunction | .methodDefinition => true
  | _ => false

/-- Whether one of the parameters binds the name. An arrow function may have a bare one. -/
def parametersBind (s : Script) (name : String) (t : Tree) : Bool :=
  t.children.any fun c =>
    if c.kind == .formalParameters then c.children.any (s.binds name)
    else t.kind == .arrowFunction && c.role == .plain && c.kind == .identifier &&
      s.textString c == name

/-- A function expression may be called by its name in itself. -/
def ownNameBinds (s : Script) (name : String) (t : Tree) : Bool :=
  (t.kind == .functionExpression || t.kind == .generatorFunction) && s.name? t == some name

def declaratorsBind (s : Script) (name : String) (t : Tree) : Bool :=
  t.children.any fun d => (d.child? .name).any (s.binds name)

/-- Whether a statement declares the name in the block that it stands in. -/
def declaresInBlock (s : Script) (name : String) (t : Tree) : Bool :=
  match t.kind with
  | .lexicalDeclaration => s.declaratorsBind name t
  | .functionDeclaration | .generatorFunctionDeclaration | .classDeclaration
  | .abstractClassDeclaration | .enumDeclaration => s.name? t == some name
  | _ => false

/-- Whether the word in the head of a `for` is `var`. It is no node. -/
def loopsOverVar (s : Script) (t : Tree) : Bool :=
  let head : Parser Bool := do
    expectWord "for"
    let _ ← acceptWord "await"
    expect "("
    atWord "var"
  ((head (Cursor.ofText s.dialect (s.text t))).map Prod.fst).getD false

/-- Whether the head of a `for` over values declares the name. -/
def loopHeadBinds (s : Script) (name : String) (t : Tree) : Bool :=
  t.children.any fun h => (h.role == .name && s.binds name h) ||
    (h.kind == .variableDeclarator && (h.child? .name).any (s.binds name))

def declaresVar (s : Script) (name : String) (t : Tree) : Bool :=
  match t.kind with
  | .variableDeclaration => s.declaratorsBind name t
  | .forInStatement => s.loopsOverVar t && s.loopHeadBinds name t
  | _ => false

/-- Whether a variable of the function is declared anywhere in its body. -/
def bodyDeclaresVar (s : Script) (name : String) (body : Tree) : Bool :=
  (body.preorderOutside fun k => hasParameters k || k == .classBody).any (s.declaresVar name)

/-- Whether a node opens a scope around one of its children in which the name is bound. -/
def bindsAround (s : Script) (name : String) (t c : Tree) : Bool :=
  match t.kind with
  | .functionDeclaration | .generatorFunctionDeclaration | .functionExpression
  | .generatorFunction | .arrowFunction | .methodDefinition =>
    s.ownNameBinds name t || (c.role != .name && s.parametersBind name t)
  | .classDeclaration | .abstractClassDeclaration | .classExpression =>
    c.kind != .decorator && s.name? t == some name
  | .statementBlock => t.children.any (s.declaresInBlock name) ||
      (t.role == .body && s.bodyDeclaresVar name t)
  | .switchStatement => c.kind == .switchCase &&
      t.children.any fun k => k.kind == .switchCase && k.children.any (s.declaresInBlock name)
  | .forStatement =>
      t.children.any fun d => d.kind == .lexicalDeclaration && s.declaratorsBind name d
  | .forInStatement => !s.loopsOverVar t && s.loopHeadBinds name t
  | .catchClause => t.children.head?.any (s.binds name)
  | _ => false

/-- A walk down from a node, with the node whose scope binds the name at either end of it. -/
inductive Resolves (s : Script) (name : String) : Tree → Tree → Tree → Tree → Prop
  | here (t owner : Tree) : Resolves s name t owner t owner
  | down {t c u owner owner' : Tree} : c ∈ t.children →
      Resolves s name c (if s.bindsAround name t c then t else owner) u owner' →
      Resolves s name t owner u owner'

/-- Whether a scope strictly between two nodes binds the name. -/
def Shadowed (s : Script) (name : String) (root u : Tree) : Prop :=
  ∃ d ∈ root.children, ∃ t c, Contains d t ∧ c ∈ t.children ∧ Contains c u ∧
    s.bindsAround name t c = true

/-! ## What a walk resolves to -/

/-- Whatever contains a node has a walk to it. -/
theorem exists_resolves (s : Script) (name : String) {t u : Tree} (h : Contains t u)
    (owner : Tree) :
    ∃ owner', Resolves s name t owner u owner' := by
  induction h generalizing owner with
  | here t => exact ⟨owner, .here t owner⟩
  | @down t c u _ hc _ ih =>
    obtain ⟨owner', hu⟩ := ih (if s.bindsAround name t c then t else owner)
    exact ⟨owner', .down hc hu⟩

theorem Resolves.contains {t u owner owner' : Tree} (h : Resolves s name t owner u owner') :
    Contains t u := by
  induction h with
  | here t => exact .here t
  | down hc _ ih => exact .down rfl hc ih

theorem Resolves.trans {t u v owner owner' owner'' : Tree}
    (h : Resolves s name t owner u owner') (h' : Resolves s name u owner' v owner'') :
    Resolves s name t owner v owner'' := by
  induction h with
  | here => exact h'
  | down hc _ ih => exact .down hc (ih h')

/-- The scope at the end of a walk is that at its start, or one on the way. -/
theorem Resolves.owner_cases {t u owner owner' : Tree} (h : Resolves s name t owner u owner') :
    owner' = owner ∨ Contains t owner' ∧ ∃ c ∈ owner'.children, Contains c u ∧
      s.bindsAround name owner' c = true := by
  induction h with
  | here => exact .inl rfl
  | @down t c u owner owner' hc hu ih =>
    rcases ih with rfl | ⟨hin, hbind⟩
    · split
      · rename_i hbinds
        exact .inr ⟨.here t, c, hc, hu.contains, hbinds⟩
      · exact .inl rfl
    · exact .inr ⟨.down rfl hc hin, hbind⟩

/-- What is resolved below the children of a node resolves to the node exactly when nothing
in between binds the name. -/
theorem resolves_iff_not_shadowed {root u : Tree} :
    (∀ owner, Resolves s name root root u owner → owner = root) ↔
      ¬ Shadowed s name root u := by
  constructor
  · rintro hall ⟨d, hd, t, c, ht, hc, hu, hbinds⟩
    obtain ⟨owner, hdt⟩ := exists_resolves s name ht
      (if s.bindsAround name root d then root else root)
    obtain ⟨owner', hcu⟩ := exists_resolves s name hu
      (if s.bindsAround name t c then t else owner)
    have hroot := hall owner' (.down hd (hdt.trans (.down hc hcu)))
    -- Below the scope that binds the name nothing resolves to the root any more.
    have hbelow : Contains t owner' := by
      rw [if_pos hbinds] at hcu
      rcases hcu.owner_cases with rfl | ⟨hin, -⟩
      · exact .here _
      · exact .down rfl hc hin
    exact not_contains_parent hd (hroot ▸ ht.trans hbelow)
  · intro hnone owner h
    cases h with
    | here => rfl
    | @down _ d _ _ _ hd hu =>
      rw [ite_self] at hu
      rcases hu.owner_cases with rfl | ⟨hin, c, hc, hcu, hbinds⟩
      · rfl
      · exact absurd ⟨d, hd, owner, c, hin, hc, hcu, hbinds⟩ hnone

/-! ## The scene -/

theorem allSiteEdits_of_convert {members : List Field} {r : Converted}
    (h : s.convert o members = .ok r) : ∃ edits, s.allSiteEdits o = .ok edits := by
  cases he : s.allSiteEdits o with
  | error fault => simp [convert, he, bind, Except.bind] at h
  | ok edits => exact ⟨edits, rfl⟩

theorem sceneUse_of_reaches {root c u : Tree} (h : Reaches (· == .classBody) root c)
    (hu : SceneUse c u) : SceneUse root u := by
  obtain ⟨⟨t, ht, huse⟩, hthis⟩ := sceneUse_iff.mp hu
  exact sceneUse_iff.mpr ⟨⟨t, h.trans ht, huse⟩, hthis⟩

/-- After a conversion every site takes the scene, by a parameter that it has or by one that
is put among parameters that do not bind the name; and the scene's name in place of a `this`
stands for that parameter exactly when no scope between the two binds the name. -/
theorem replaced_this_resolves (s : Script) (o : ConversionOptions) (members : List Field)
    (r : Converted) (h : s.convert o members = .ok r) :
    ∃ edits, s.allSiteEdits o = .ok edits ∧ ∀ site ∈ s.sites,
      (∃ parameters, TakesScene s o site parameters ∧ parameters ⊆ edits) ∧
      ∀ u, SceneUse site.tree u → ⟨u.start, u.stop, bytesOf o.context⟩ ∈ edits ∧
        (∃ owner, Resolves s o.context site.tree site.tree u owner) ∧
        ((∀ owner, Resolves s o.context site.tree site.tree u owner → owner = site.tree) ↔
          ¬ Shadowed s o.context site.tree u) := by
  obtain ⟨edits, hedits⟩ := allSiteEdits_of_convert h
  refine ⟨edits, hedits, fun site hsite => ?_⟩
  obtain ⟨l, hl⟩ := siteEdits_ok hedits hsite
  have hsub : ∀ e ∈ l, e ∈ edits := fun e he =>
    (mem_allSiteEdits_iff hedits e).mpr ⟨site, hsite, l, hl, he⟩
  obtain ⟨parameters, hparameters, rfl⟩ := siteEdits_eq_ok.mp hl
  refine ⟨⟨parameters, takesScene hparameters, fun e he => hsub e (by simp [he])⟩, ?_⟩
  intro u hu
  refine ⟨hsub _ (List.mem_append_right _ ?_), exists_resolves _ _ hu.contains _,
    resolves_iff_not_shadowed⟩
  exact List.mem_map.mpr ⟨u, mem_sceneUses.mpr hu, rfl⟩

set_option maxRecDepth 100000 in
theorem replaced_this_resolves_hero :
    heroScript.convert .usual [] =
      .ok ⟨"export function create(scene, key) { new Hero(scene); }".toList, [], []⟩ ∧
      ∃ site ∈ heroScript.sites, ∃ u, SceneUse site.tree u ∧
        ∀ owner, Resolves heroScript "scene" site.tree site.tree u owner → owner = site.tree := by
  obtain ⟨edits, -, hsites⟩ := replaced_this_resolves heroScript .usual [] _ heroScript_converts
  obtain ⟨⟨site, hsite, hsome⟩, hfree⟩ :
      (∃ site ∈ heroScript.sites, (sceneUses site.tree).head?.isSome = true) ∧
      ∀ t ∈ heroScript.tree.preorder, ∀ c ∈ t.children,
        heroScript.bindsAround "scene" t c = false := by decide +kernel
  obtain ⟨u, hhead⟩ := Option.isSome_iff_exists.mp hsome
  have hu : SceneUse site.tree u := mem_sceneUses.mp (List.mem_of_head? hhead)
  refine ⟨heroScript_converts, site, hsite, u, hu, (((hsites site hsite).2 u hu).2.2).mpr ?_⟩
  rintro ⟨d, hd, t, c, ht, hc, -, hbinds⟩
  have hin := (site_contains hsite).trans ((contains_child hd).trans ht)
  exact Bool.false_ne_true ((hfree t (mem_preorder.mpr hin) c hc).symm.trans hbinds)

/-- A callback whose parameter has the scene's name. -/
def callbackScript : Script :=
  let source := "function create() { spawn(function (scene) { this.x = scene; }); }".toList
  ⟨.plain, source, (parse? .plain source).getD (.node .plain .program 0 0 [])⟩

def callbackText : List Char :=
  "export function create(scene) { spawn(function (scene) { scene.x = scene; }); }".toList

set_option maxRecDepth 100000 in
theorem callbackScript_converts :
    callbackScript.convert .usual [] = .ok ⟨callbackText, [], []⟩ := by
  let changes := [insertion 0 "export ", insertion 16 "scene", ⟨45, 49, bytesOf "scene"⟩]
  have hedits : callbackScript.allSiteEdits .usual = .ok changes := by decide +kernel
  have hedited : callbackScript.edited changes =
      Edit.splice (Text.encode callbackScript.source) 0 changes :=
    Edit.applyAll_eq_splice (by decide +kernel) (by decide +kernel) (by decide +kernel)
  refine convert_plain_of_parses rfl hedits ?_ (by decide +kernel) []
  rw [hedited]
  decide +kernel

set_option maxRecDepth 100000 in
/-- The name put in place of a `this` can be captured. -/
theorem replaced_this_captured :
    callbackScript.convert .usual [] = .ok ⟨callbackText, [], []⟩ ∧
      ∃ site ∈ callbackScript.sites, ∃ u, SceneUse site.tree u ∧
        ∃ owner, Resolves callbackScript "scene" site.tree site.tree u owner ∧
          owner ≠ site.tree := by
  obtain ⟨⟨site, hsite, d, hd, t, ht, c, hc, hbinds, hsome⟩, hclass⟩ :
      (∃ site ∈ callbackScript.sites, ∃ d ∈ site.tree.children, ∃ t ∈ d.preorder,
        ∃ c ∈ t.children, callbackScript.bindsAround "scene" t c = true ∧
          (sceneUses c).head?.isSome = true) ∧
      ∀ u ∈ callbackScript.tree.preorder, (u.kind == .classBody) = false := by decide +kernel
  obtain ⟨u, hhead⟩ := Option.isSome_iff_exists.mp hsome
  have huse : SceneUse c u := mem_sceneUses.mp (List.mem_of_head? hhead)
  have hcIn : Contains site.tree c :=
    (contains_child hd).trans ((mem_preorder.mp ht).trans (contains_child hc))
  have hreach : Reaches (· == .classBody) site.tree c :=
    hcIn.reaches fun v hv => hclass v (mem_preorder.mpr ((site_contains hsite).trans hv))
  have hshadowed : Shadowed callbackScript "scene" site.tree u :=
    ⟨d, hd, t, c, mem_preorder.mp ht, hc, huse.contains, hbinds⟩
  have hnot := mt resolves_iff_not_shadowed.mp (not_not_intro hshadowed)
  push Not at hnot
  obtain ⟨owner, hresolves, hne⟩ := hnot
  exact ⟨callbackScript_converts, site, hsite, u, sceneUse_of_reaches hreach huse, owner,
    hresolves, hne⟩

end SceneSync.Script
