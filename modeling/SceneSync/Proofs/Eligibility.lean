import Mathlib
import SceneSync.Proofs.Execution
import SceneSync.Proofs.Script.PlainConversion
import SceneSync.Transform

/-!
# Scripts that are left alone

A script that exports a class was written by hand. There are several ways to export one;
the gate knows those in which the export statement holds the class itself.
-/

namespace SceneSync

namespace Script

variable {s : Script} {t c : Tree}

/-- The classes at the top of a script, those that are declared for the types only among
them. -/
def classes (s : Script) : List Tree :=
  s.statements.flatMap fun t =>
    (t :: if t.kind == .ambientDeclaration then t.children else []).filter (isClassKind ·.kind)

inductive ClassExport where
  /-- `export class C {}`, `export abstract class C {}`, `export default class {}` -/
  | own
  /-- `export declare class C {}` -/
  | ambient
  /-- `export default C` -/
  | byName
  /-- `export { C }`, `export { C as D }` -/
  | listed
  deriving DecidableEq, Repr

/-- A statement exports a class in one of the ways there are. -/
inductive ExportsBy (s : Script) (t c : Tree) : ClassExport → Prop
  | own (ht : t.kind = .exportStatement) (hexported : exported? t = some c)
      (hc : isClassKind c.kind = true) : ExportsBy s t c .own
  | ambient {d : Tree} (ht : t.kind = .exportStatement) (hexported : exported? t = some d)
      (hd : d.kind = .ambientDeclaration) (hmem : c ∈ d.children)
      (hc : isClassKind c.kind = true) : ExportsBy s t c .ambient
  | byName {v : Tree} (ht : t.kind = .exportStatement) (hexported : exported? t = some v)
      (hv : v.kind = .identifier) (hmem : c ∈ s.classes)
      (hname : s.name? c = some (s.textString v)) : ExportsBy s t c .byName
  | listed {n : String} (hmem : c ∈ s.classes) (hname : s.name? c = some n)
      (hlisted : n ∈ s.listedIn t) : ExportsBy s t c .listed

theorem exportsBy_own_iff : s.ExportsBy t c .own ↔
    t.kind = .exportStatement ∧ exported? t = some c ∧ isClassKind c.kind = true :=
  ⟨fun | .own ht hexported hc => ⟨ht, hexported, hc⟩, fun ⟨ht, hexported, hc⟩ =>
    .own ht hexported hc⟩

/-- The gate looks at every export statement, but only at what the statement holds. -/
theorem exportsClass_iff :
    s.exportsClass = true ↔ ∃ t ∈ s.tree.preorder, ∃ c, s.ExportsBy t c .own := by
  simp only [exportsClass, List.any_eq_true, Bool.and_eq_true, beq_iff_eq, Option.any_eq_true,
    exportsBy_own_iff]
  constructor
  · rintro ⟨t, hmem, ht, c, hexported, hc⟩
    exact ⟨t, hmem, c, ht, hexported, hc⟩
  · rintro ⟨t, hmem, c, ht, hexported, hc⟩
    exact ⟨t, hmem, ht, c, hexported, hc⟩

theorem mem_preorder_of_statement (h : t ∈ s.statements) : t ∈ s.tree.preorder :=
  Tree.mem_preorder.mpr (Tree.contains_child h)

end Script

namespace Transform

open Script

variable {o : ScriptOptions} {p : Path} {text : List Char} {w w' : World} {d : Dialect}
  {s : Script} {t c : Tree} {r : Converted}

theorem execute_notifyAll (notice : String → Notice) (xs : List String) (w : World) :
    execute (forIn xs PUnit.unit fun x _ => do
      Work.notify (notice x)
      pure (ForInStep.yield PUnit.unit)) w =
      (.ok ⟨⟩, ⟨w.tree, w.notices ++ xs.map notice⟩) := by
  induction xs generalizing w with
  | nil => simp
  | cons x xs ih =>
    rw [List.forIn_cons]
    simp only [execute_bind, Work.execute_notify, execute_pure, ih, List.map_cons,
      List.append_assoc, List.singleton_append]

/-- What is logged about a script that has been converted. -/
def noticesOf (p : Path) (r : Converted) : List Notice :=
  r.warnings.map (fun x => .log .warning logName (p.toString ++ ": " ++ x)) ++
    [.log .debug logName
      ("Rewrote " ++ p.toString ++ " (" ++ toString r.fields.length ++ " scene fields)")]

/-- What becomes of an eligible script that can be read. -/
theorem execute_run (heligible : o.isEligible w.tree.current p = true)
    (hd : Dialect.ofPath? p = some d) (hread : read d text = .ok s) :
    execute (run o p text) w =
      if s.exportsClass then (.ok (.unchanged .exportsClass), w)
      else if s.sites.isEmpty then (.ok (.unchanged .noFunctions), w)
      else match execute (descriptorFields p o.extension o.maxDepth) w with
        | (.error f, w') => (.error f, w')
        | (.ok members, w') =>
          match s.convert o.conversionOptions members with
          | .error e => (.error (.script ⟨some p, e⟩), w')
          | .ok r => (.ok (.converted r), ⟨w'.tree, w'.notices ++ noticesOf p r⟩) := by
  rw [run, execute_bind, Work.execute_tree]
  simp only [heligible, hd, hread, Bool.not_true, Bool.false_eq_true, ↓reduceIte]
  rw [execute_bind_ok (Work.execute_ofExcept_ok _ s w)]
  by_cases hclass : s.exportsClass
  · simp only [hclass, ↓reduceIte, execute_pure]
  by_cases hsites : s.sites.isEmpty
  · simp only [hclass, hsites, ↓reduceIte, Bool.false_eq_true, execute_pure]
  simp only [hclass, hsites, ↓reduceIte, Bool.false_eq_true]
  rw [execute_bind]
  rcases execute (descriptorFields p o.extension o.maxDepth) w with ⟨f | members, w'⟩
  · rfl
  cases hconvert : s.convert o.conversionOptions members with
  | error e => simp only [hconvert, execute_bind, Work.execute_ofExcept_error]
  | ok r =>
    simp only [hconvert, execute_bind, Work.execute_ofExcept_ok, execute_notifyAll,
      Work.execute_notify, execute_pure, noticesOf, List.append_assoc]

/-- Without a descriptor nothing is made public. -/
theorem execute_descriptorFields_none {extension : String} {maxDepth : Int} {q : Path}
    (hq : Descriptor.pathOf p extension = .ok q) (hnone : w.tree.isFile q = false) :
    execute (descriptorFields p extension maxDepth) w = (.ok [], w) := by
  rw [descriptorFields, hq, execute_bind_ok (Work.execute_ofExcept_ok _ q w),
    execute_bind_ok (Work.execute_tree w)]
  simp only [hnone, Bool.not_false, ↓reduceIte, execute_pure]

theorem execute_run_of_own (heligible : o.isEligible w.tree.current p = true)
    (hd : Dialect.ofPath? p = some d) (hread : read d text = .ok s) (ht : t ∈ s.tree.preorder)
    (hown : s.ExportsBy t c .own) :
    execute (run o p text) w = (.ok (.unchanged .exportsClass), w) := by
  rw [execute_run heligible hd hread, if_pos (exportsClass_iff.mpr ⟨t, ht, c, hown⟩)]

theorem unchanged_exportsClass_iff (heligible : o.isEligible w.tree.current p = true)
    (hd : Dialect.ofPath? p = some d) (hread : read d text = .ok s) :
    (execute (run o p text) w).1 = .ok (.unchanged .exportsClass) ↔
      ∃ t ∈ s.tree.preorder, ∃ c, s.ExportsBy t c .own := by
  rw [← exportsClass_iff, execute_run heligible hd hread]
  by_cases hclass : s.exportsClass
  · simp [hclass]
  by_cases hsites : s.sites.isEmpty
  · simp [hclass, hsites]
  simp only [hclass, hsites, Bool.false_eq_true, ↓reduceIte, iff_false]
  rcases execute (descriptorFields p o.extension o.maxDepth) w with ⟨f | members, w'⟩
  · simp
  · cases hconvert : s.convert o.conversionOptions members <;> simp [hconvert]

theorem converted_iff (heligible : o.isEligible w.tree.current p = true)
    (hd : Dialect.ofPath? p = some d) (hread : read d text = .ok s) :
    (execute (run o p text) w).1 = .ok (.converted r) ↔
      (∀ t ∈ s.tree.preorder, ∀ c, ¬ s.ExportsBy t c .own) ∧ s.sites ≠ [] ∧
        ∃ members, (execute (descriptorFields p o.extension o.maxDepth) w).1 = .ok members ∧
          s.convert o.conversionOptions members = .ok r := by
  have hnone : (∀ t ∈ s.tree.preorder, ∀ c, ¬ s.ExportsBy t c .own) ↔ ¬ s.exportsClass := by
    rw [exportsClass_iff]
    push Not
    rfl
  rw [hnone, execute_run heligible hd hread, ← List.isEmpty_eq_false_iff]
  by_cases hclass : s.exportsClass
  · simp [hclass]
  by_cases hsites : s.sites.isEmpty
  · simp [hclass, hsites]
  simp only [hclass, hsites, Bool.false_eq_true, ↓reduceIte, not_false_eq_true, true_and]
  rcases execute (descriptorFields p o.extension o.maxDepth) w with ⟨f | members, w'⟩
  · simp
  · cases hconvert : s.convert o.conversionOptions members <;> simp [hconvert]

/-- An eligible script with a statement that holds the class it exports is left alone,
whatever functions are in it. Any other one is rewritten if it has functions and they can
be converted: a class that is exported as an ambient one, by its name or in a list is no
obstacle. -/
theorem class_export_gate (heligible : o.isEligible w.tree.current p = true)
    (hd : Dialect.ofPath? p = some d) (hread : read d text = .ok s) :
    (∀ t ∈ s.statements, ∀ c, s.ExportsBy t c .own →
      execute (run o p text) w = (.ok (.unchanged .exportsClass), w)) ∧
    ((execute (run o p text) w).1 = .ok (.unchanged .exportsClass) ↔
      ∃ t ∈ s.tree.preorder, ∃ c, s.ExportsBy t c .own) ∧
    ∀ r, (execute (run o p text) w).1 = .ok (.converted r) ↔
      (∀ t ∈ s.tree.preorder, ∀ c, ¬ s.ExportsBy t c .own) ∧ s.sites ≠ [] ∧
        ∃ members, (execute (descriptorFields p o.extension o.maxDepth) w).1 = .ok members ∧
          s.convert o.conversionOptions members = .ok r :=
  ⟨fun _ ht _ hown =>
      execute_run_of_own heligible hd hread (mem_preorder_of_statement ht) hown,
    unchanged_exportsClass_iff heligible hd hread, fun _ => converted_iff heligible hd hread⟩

/-- Scripts below `s` are converted. -/
def scriptsBelow : ScriptOptions := { ScriptOptions.usual with conversionDir := some (.ofString "s") }

def emptyWorld : World := ⟨⟨.ofString "/", []⟩, []⟩

set_option maxRecDepth 100000 in
theorem class_export_gate_hero :
    let text := "export class Hero {}\nfunction helper() {}\n".toList
    ∃ s, read .plain text = .ok s ∧ s.sites ≠ [] ∧
      execute (run scriptsBelow (.ofString "s/Hero.js") text) emptyWorld =
        (.ok (.unchanged .exportsClass), emptyWorld) := by
  let source := "export class Hero {}\nfunction helper() {}\n"
  have hread := read_plainScript source (by decide +kernel)
  have hsites : (plainScript source).sites.isEmpty = false := by decide +kernel
  have hclass : (plainScript source).statements.head?.any (fun t =>
      t.kind == .exportStatement && (exported? t).any (isClassKind ·.kind)) = true := by
    decide +kernel
  simp only [Option.any_eq_true, Bool.and_eq_true, beq_iff_eq] at hclass
  obtain ⟨t, ht, hkind, c, hc, hclass⟩ := hclass
  obtain ⟨hgate, -, -⟩ := class_export_gate (o := scriptsBelow) (w := emptyWorld)
    (p := .ofString "s/Hero.js") (by decide) (by decide) hread
  exact ⟨_, hread, List.isEmpty_eq_false_iff.mp hsites,
    hgate t (List.mem_of_head? ht) c (.own hkind hc hclass)⟩

/-- A script whose export list names a class. -/
def listingScript : Script := plainScript "class C {}\nexport { C };\nfunction f() {}\n"

set_option maxRecDepth 100000 in
theorem listingScript_converts : listingScript.convert .usual [] =
    .ok ⟨"class C {}\nexport { C };\nexport function f(scene) {}\n".toList, [], []⟩ := by
  let changes := [insertion 25 "export ", insertion 36 "scene"]
  have hedits : listingScript.allSiteEdits .usual = .ok changes := by decide +kernel
  have hedited : listingScript.edited changes =
      Edit.splice (Text.encode listingScript.source) 0 changes :=
    Edit.applyAll_eq_splice (by decide +kernel) (by decide +kernel) (by decide +kernel)
  refine convert_plain_of_parses rfl hedits ?_ ?_ []
  · rw [hedited]
    decide +kernel
  · decide +kernel

set_option maxRecDepth 100000 in
/-- A script that exports a class in a list is rewritten. -/
theorem listed_class_rewritten :
    ∃ t ∈ listingScript.statements, ∃ c, listingScript.ExportsBy t c .listed ∧
      read .plain listingScript.source = .ok listingScript ∧
      scriptsBelow.isEligible emptyWorld.tree.current (.ofString "s/a.js") = true ∧
      (execute (run scriptsBelow (.ofString "s/a.js") listingScript.source) emptyWorld).1 =
        .ok (.converted ⟨"class C {}\nexport { C };\nexport function f(scene) {}\n".toList,
          [], []⟩) := by
  have hread : read .plain listingScript.source = .ok listingScript :=
    read_plainScript _ (by decide +kernel)
  have heligible : scriptsBelow.isEligible emptyWorld.tree.current (.ofString "s/a.js") = true := by
    decide
  have hlisted : (listingScript.statements.any fun t => listingScript.classes.any fun c =>
      (listingScript.name? c).any (listingScript.listedIn t).contains) = true := by decide +kernel
  simp only [List.any_eq_true, Option.any_eq_true, List.contains_iff_mem] at hlisted
  obtain ⟨t, ht, c, hc, n, hname, hlisted⟩ := hlisted
  have hfields : execute (descriptorFields (.ofString "s/a.js") scriptsBelow.extension
      scriptsBelow.maxDepth) emptyWorld = (.ok [], emptyWorld) :=
    execute_descriptorFields_none (q := .ofString "s/a.scene") (by decide) (by cbv)
  have hclass : listingScript.exportsClass = false := by decide +kernel
  have hsites : listingScript.sites.isEmpty = false := by decide +kernel
  refine ⟨t, ht, c, .listed hc hname hlisted, hread, heligible, ?_⟩
  rw [converted_iff heligible rfl hread]
  refine ⟨fun t ht c hown => ?_, List.isEmpty_eq_false_iff.mp hsites, [], by rw [hfields],
    listingScript_converts⟩
  exact absurd (exportsClass_iff.mpr ⟨t, ht, c, hown⟩) (by simp [hclass])

end Transform

end SceneSync
