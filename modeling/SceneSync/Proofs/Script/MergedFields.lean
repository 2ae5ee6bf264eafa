import Mathlib
import SceneSync.Proofs.Script.Publishing

/-!
# The fields of a scene put together

Sites publish locals, several may publish the same name, and the descriptor adds members.
The fields are what is left of all these names when each is kept where it comes first, and
what that passes over is in a type or in a warning.
-/

namespace SceneSync

/-! ## Keeping the first of each -/

section Firsts

variable {α β : Type} [BEq α] [LawfulBEq α] [BEq β] [LawfulBEq β]

theorem eraseDups_filter (p : α → Bool) : ∀ xs : List α,
    (xs.filter p).eraseDups = xs.eraseDups.filter p
  | [] => rfl
  | x :: xs => by
    rw [List.eraseDups_cons, List.filter_cons]
    have hcomm : (xs.filter fun b => !b == x).filter p = (xs.filter p).filter fun b => !b == x := by
      rw [List.filter_filter, List.filter_filter]
      simp only [Bool.and_comm]
    have ih := eraseDups_filter p (xs.filter fun b => !b == x)
    rw [hcomm] at ih
    split
    · rename_i hp
      rw [List.eraseDups_cons, List.filter_cons_of_pos hp, ih]
    · rename_i hp
      rw [List.filter_cons_of_neg hp, ← ih, List.filter_filter]
      congr 1
      refine List.filter_congr fun b _ => ?_
      by_cases hb : b = x
      · subst hb
        simp [hp]
      · simp [hb]
  termination_by xs => xs.length
  decreasing_by exact Nat.lt_succ_of_le (List.length_filter_le _ _)

theorem eraseDups_of_nodup {xs : List α} (h : xs.Nodup) : xs.eraseDups = xs := by
  induction xs with
  | nil => rfl
  | cons x xs ih =>
    obtain ⟨hx, hxs⟩ := List.nodup_cons.mp h
    have hfilter : (xs.filter fun b => !b == x) = xs := by
      refine List.filter_eq_self.mpr fun b hb => ?_
      have hne : b ≠ x := fun heq => hx (heq ▸ hb)
      simp [hne]
    rw [List.eraseDups_cons, hfilter, ih hxs]

/-- What is kept of a list does not depend on repetitions in its front. -/
theorem eraseDups_left (xs ys : List α) : (xs.eraseDups ++ ys).eraseDups = (xs ++ ys).eraseDups := by
  rw [List.eraseDups_append, List.eraseDups_append, eraseDups_of_nodup (Script.eraseDups_nodup xs)]
  congr 2
  refine List.filter_congr fun b _ => ?_
  simp

/-- Nor on those in its rear. -/
theorem eraseDups_right (xs ys : List α) : (xs ++ ys.eraseDups).eraseDups = (xs ++ ys).eraseDups := by
  rw [List.eraseDups_append, List.eraseDups_append]
  congr 1
  rw [List.removeAll, List.removeAll, eraseDups_filter, eraseDups_filter,
    eraseDups_of_nodup (Script.eraseDups_nodup ys)]

theorem eraseDups_flatMap {γ : Type} (f : γ → List α) (xs : List γ) :
    (xs.flatMap fun x => (f x).eraseDups).eraseDups = (xs.flatMap f).eraseDups := by
  induction xs with
  | nil => rfl
  | cons x xs ih =>
    rw [List.flatMap_cons, List.flatMap_cons, eraseDups_left, ← eraseDups_right, ih, eraseDups_right]

theorem eraseDups_concat_of_mem {xs : List α} {x : α} (h : x ∈ xs) :
    (xs ++ [x]).eraseDups = xs.eraseDups := by
  rw [List.eraseDups_append]
  simp [List.removeAll, h]

theorem eraseDups_concat_of_not_mem {xs : List α} {x : α} (h : x ∉ xs) :
    (xs ++ [x]).eraseDups = xs.eraseDups ++ [x] := by
  rw [List.eraseDups_append]
  simp [List.removeAll, h, List.eraseDups_cons]

end Firsts

namespace Script

variable {s : Script} {o : ConversionOptions} {context name : String}
  {fields members : List Field} {ps known : List Publication}

/-! ## The law -/

/-- The locals that a body publishes, once for each assignment. -/
def namesAssigned (s : Script) (context : String) (body : Tree) : List String :=
  (body.preorder.filterMap (s.publication? context)).filter fun n =>
    n ∈ (s.instantiations body).map (·.name)

/-- The types that a body constructs under a name, once for each declaration. -/
def typesDeclared (s : Script) (name : String) (body : Tree) : List String :=
  ((s.instantiations body).filter (·.name = name)).map (·.type)

def siteBodies (s : Script) : List Tree := s.sites.filterMap Site.body?

/-- All the names that the sites publish, in the order of the source. -/
def allNamesAssigned (s : Script) (context : String) : List String :=
  s.siteBodies.flatMap (s.namesAssigned context)

/-- The distinct types of a published name, over all sites that publish it. -/
def publishedTypes (s : Script) (context name : String) : List String :=
  ((s.siteBodies.filter fun b => name ∈ s.namesAssigned context b).flatMap
    (s.typesDeclared name)).eraseDups

/-- The members whose name is taken, by a field that is there already or by an earlier
member. -/
def takenMembers (taken : List String) (members : List Field) : List Field :=
  (members.zipIdx.filter fun m =>
    m.1.name ∈ taken ∨ m.1.name ∈ (members.take m.2).map (·.name)).map (·.1)

/-! ## Publications -/

theorem publishedNames_eq (s : Script) (context : String) (body : Tree) :
    s.publishedNames context body = (s.namesAssigned context body).eraseDups := by
  rw [publishedNames, namesAssigned]
  congr 2
  funext n
  simp

theorem typesOf_eq (s : Script) (name : String) (body : Tree) :
    typesOf (s.instantiations body) name = (s.typesDeclared name body).eraseDups := by
  rw [typesOf, typesDeclared]
  congr 3

/-- Publications put together under each of their names. -/
def together (ps : List Publication) : List Publication :=
  (ps.map (·.name)).eraseDups.map fun n =>
    ⟨n, ((ps.filter (·.name = n)).flatMap (·.types)).eraseDups⟩

theorem any_together_iff (p : Publication) :
    (together ps).any (·.name == p.name) = true ↔ p.name ∈ ps.map (·.name) := by
  simp [together]

/-- One more publication joins those under its name, or stands behind the others. -/
theorem addPublication_together {p : Publication} (hp : p.types.Nodup) :
    addPublication (together ps) p = together (ps ++ [p]) := by
  rw [addPublication]
  split
  · rename_i hany
    have hmem := any_together_iff p |>.mp hany
    rw [together, together, List.map_append, List.map_singleton, eraseDups_concat_of_mem hmem,
      List.map_map]
    refine List.map_congr_left fun n _ => ?_
    by_cases hn : n = p.name
    · subst hn
      simp [List.filter_append, eraseDups_left]
    · have hn' : ¬ p.name = n := fun h => hn h.symm
      simp [List.filter_append, hn, hn']
  · rename_i hany
    have hmem : p.name ∉ ps.map (·.name) := fun h => hany (any_together_iff p |>.mpr h)
    have hnone : ps.filter (·.name = p.name) = [] := by
      refine List.filter_eq_nil_iff.mpr fun q hq => ?_
      simpa using fun h => hmem (List.mem_map.mpr ⟨q, hq, h⟩)
    rw [together, together, List.map_append, List.map_singleton,
      eraseDups_concat_of_not_mem hmem, List.map_append]
    congr 1
    · refine List.map_congr_left fun n hn => ?_
      have hne : ¬ p.name = n := fun h => hmem (h ▸ List.mem_eraseDups.mp hn)
      simp [List.filter_append, hne]
    · simp [List.filter_append, hnone, eraseDups_of_nodup hp]

theorem foldl_addPublication (hps : ∀ p ∈ ps, p.types.Nodup) :
    ps.foldl addPublication [] = together ps := by
  induction ps using List.reverseRecOn with
  | nil => rfl
  | append_singleton ps p ih =>
    rw [List.foldl_append, ih fun q hq => hps q (by simp [hq])]
    exact addPublication_together (hps p (by simp))

/-- What one body adds to the publications under a name. -/
theorem publications_under (s : Script) (context : String) (body : Tree) (name : String) :
    ((s.publications context body).filter (·.name = name)).flatMap (·.types) =
      if name ∈ s.namesAssigned context body then (s.typesDeclared name body).eraseDups
      else [] := by
  have hnodup := eraseDups_nodup (s.namesAssigned context body)
  have hmem : name ∈ (s.namesAssigned context body).eraseDups ↔
      name ∈ s.namesAssigned context body := List.mem_eraseDups
  rw [publications, publishedNames_eq, ← typesOf_eq]
  simp only [← hmem]
  generalize (s.namesAssigned context body).eraseDups = ns at hnodup
  induction ns with
  | nil => simp
  | cons n ns ih =>
    obtain ⟨hn, hns⟩ := List.nodup_cons.mp hnodup
    have hrest := ih hns
    by_cases heq : n = name
    · subst heq
      rw [if_neg hn] at hrest
      simp [hrest]
    · have heq' : ¬ name = n := fun h => heq h.symm
      simp [heq, heq', hrest]

theorem allPublications_eq_together (s : Script) (context : String) :
    s.allPublications context = (s.allNamesAssigned context).eraseDups.map fun n =>
      ⟨n, s.publishedTypes context n⟩ := by
  have hnames : ((s.siteBodies.flatMap (s.publications context)).map (·.name)).eraseDups =
      (s.allNamesAssigned context).eraseDups := by
    rw [List.map_flatMap, allNamesAssigned, ← eraseDups_flatMap (s.namesAssigned context)]
    simp [publications, publishedNames_eq, Function.comp_def]
  have htypes (n : String) :
      (((s.siteBodies.flatMap (s.publications context)).filter (·.name = n)).flatMap
        (·.types)).eraseDups = s.publishedTypes context n := by
    rw [List.filter_flatMap, List.flatMap_assoc, publishedTypes]
    simp only [publications_under]
    rw [← eraseDups_flatMap (s.typesDeclared n)]
    congr 1
    induction s.siteBodies with
    | nil => rfl
    | cons b bs ih =>
      rw [List.flatMap_cons, ih, List.filter_cons]
      by_cases hb : n ∈ s.namesAssigned context b <;> simp [hb]
  change (s.siteBodies.flatMap (s.publications context)).foldl addPublication [] = _
  rw [foldl_addPublication fun p hp => ?_, together, hnames]
  · simp only [htypes]
  · obtain ⟨body, -, hp⟩ := List.mem_flatMap.mp hp
    obtain ⟨n, -, rfl⟩ := List.mem_map.mp hp
    rw [typesOf]
    exact eraseDups_nodup _

/-! ## Members -/

theorem addMembers_names_eq (hfields : (fields.map (·.name)).Nodup) :
    (addMembers fields members).1.map (·.name) =
      (fields.map (·.name) ++ members.map (·.name)).eraseDups := by
  induction members generalizing fields with
  | nil => simp [addMembers, eraseDups_of_nodup hfields]
  | cons m ms ih =>
    have hany : fields.any (·.name == m.name) = true ↔ m.name ∈ fields.map (·.name) := by simp
    have hsplit : fields.map (·.name) ++ (m :: ms).map (·.name) =
        (fields.map (·.name) ++ [m.name]) ++ ms.map (·.name) := by simp
    rw [addMembers, hsplit, ← eraseDups_left]
    split
    · rename_i h
      rw [eraseDups_concat_of_mem (hany.mp h), eraseDups_of_nodup hfields]
      exact ih hfields
    · rename_i h
      have hm : m.name ∉ fields.map (·.name) := fun hmem => h (hany.mpr hmem)
      rw [eraseDups_concat_of_not_mem hm, eraseDups_of_nodup hfields,
        ih (by simpa [List.nodup_append] using ⟨hfields, by simpa using hm⟩)]
      simp

/-- Under a name that is taken stays what was there. -/
theorem mem_of_taken {f : Field} (hf : f ∈ (addMembers fields members).1)
    (htaken : f.name ∈ fields.map (·.name)) : f ∈ fields := by
  induction members generalizing fields with
  | nil => exact hf
  | cons m ms ih =>
    rw [addMembers] at hf
    split at hf
    · exact ih hf htaken
    · rename_i hany
      rcases List.mem_append.mp (ih hf (by simp [htaken])) with h | h
      · exact h
      · obtain rfl := List.mem_singleton.mp h
        exact absurd (by simpa using htaken) hany

/-- A field behind those that were there is the first member of its name. -/
theorem find_of_mem_addMembers {f : Field} (hf : f ∈ (addMembers fields members).1)
    (hnew : f.name ∉ fields.map (·.name)) : members.find? (·.name = f.name) = some f := by
  induction members generalizing fields with
  | nil => exact absurd (List.mem_map_of_mem hf) hnew
  | cons m ms ih =>
    rw [addMembers] at hf
    by_cases hm : m.name = f.name
    · have hany : ¬ fields.any (·.name == m.name) = true := fun h =>
        hnew (hm ▸ by simpa using h)
      rw [if_neg hany] at hf
      rcases List.mem_append.mp (mem_of_taken hf (by simp [hm])) with h | h
      · exact absurd (List.mem_map_of_mem h) hnew
      · simp [List.mem_singleton.mp h]
    · rw [List.find?_cons_of_neg (by simpa using hm)]
      split at hf
      · exact ih hf hnew
      · refine ih hf fun h => ?_
        rw [List.map_append, List.mem_append] at h
        exact h.elim hnew fun h => hm (List.mem_singleton.mp h).symm

theorem takenMembers_cons (taken : List String) (m : Field) (ms : List Field) :
    takenMembers taken (m :: ms) =
      (if m.name ∈ taken then [m] else []) ++ takenMembers (taken ++ [m.name]) ms := by
  have hrest : takenMembers (taken ++ [m.name]) ms = ((ms.zipIdx 1).filter fun x =>
      x.1.name ∈ taken ∨ x.1.name ∈ ((m :: ms).take x.2).map (·.name)).map (·.1) := by
    rw [takenMembers, List.zipIdx_succ, List.filter_map, List.map_map]
    congr 1
    refine List.filter_congr fun x _ => ?_
    simp [or_assoc]
  rw [hrest, takenMembers, List.zipIdx_cons, List.filter_cons]
  by_cases hm : m.name ∈ taken <;> simp [hm]

theorem takenMembers_congr {taken taken' : List String}
    (h : ∀ n, n ∈ taken ↔ n ∈ taken') (ms : List Field) :
    takenMembers taken ms = takenMembers taken' ms := by
  rw [takenMembers, takenMembers]
  simp only [h]

theorem addMembers_warnings (fields members : List Field) :
    (addMembers fields members).2 =
      (takenMembers (fields.map (·.name)) members).map repeatWarning := by
  induction members generalizing fields with
  | nil => rfl
  | cons m ms ih =>
    have hany : fields.any (·.name == m.name) = true ↔ m.name ∈ fields.map (·.name) := by simp
    rw [addMembers, takenMembers_cons]
    split
    · rename_i h
      have hm := hany.mp h
      have hsame : takenMembers (fields.map (·.name)) ms =
          takenMembers (fields.map (·.name) ++ [m.name]) ms := by
        refine takenMembers_congr (fun n => ?_) ms
        rw [List.mem_append, List.mem_singleton]
        exact ⟨.inl, fun h => h.elim id fun h => h ▸ hm⟩
      rw [if_pos hm, ← hsame]
      simp only [ih]
      rfl
    · rename_i h
      rw [if_neg fun hm => h (hany.mpr hm), ih, List.map_append]
      rfl

/-! ## The fields of a conversion -/

/-- The fields that a typed conversion declares. Their names are those that the sites
publish, in the order of the source, and then those of the members, each once. A published
name has the types that are constructed under it, any other that of its first member. The
warnings name each union of types, and each member whose name is taken. -/
theorem merged_fields (s : Script) (o : ConversionOptions) (members : List Field)
    (r : Converted) (htyped : s.dialect = .typed) (h : s.convert o members = .ok r) :
    (r.fields.map (·.name)).Nodup ∧
    r.fields.map (·.name) =
      (s.allNamesAssigned o.context ++ members.map (·.name)).eraseDups ∧
    (∀ f ∈ r.fields, f.name ∈ s.allNamesAssigned o.context →
      f.type = " | ".intercalate (s.publishedTypes o.context f.name)) ∧
    (∀ f ∈ r.fields, f.name ∉ s.allNamesAssigned o.context →
      members.find? (·.name = f.name) = some f) ∧
    r.warnings =
      ((s.allNamesAssigned o.context).eraseDups.filter fun n =>
        2 ≤ (s.publishedTypes o.context n).length).map
          (fun n => unionWarning ⟨n, s.publishedTypes o.context n⟩) ++
      (takenMembers (s.allNamesAssigned o.context) members).map repeatWarning := by
  obtain ⟨-, -, hfields, hwarnings, -⟩ := (convert_typed_iff htyped).mp h
  rw [fieldsOf, allPublications_eq_together] at hfields hwarnings
  simp only at hfields hwarnings
  set ns := (s.allNamesAssigned o.context).eraseDups with hns
  set own := (ns.map fun n => (⟨n, s.publishedTypes o.context n⟩ : Publication)).map
    fun p => Field.mk p.name (" | ".intercalate p.types) with hown
  have hnames : own.map (·.name) = ns := by simp [hown, Function.comp_def]
  have hnodup : (own.map (·.name)).Nodup := by
    rw [hnames]
    exact eraseDups_nodup _
  have hmem (n : String) : n ∈ own.map (·.name) ↔ n ∈ s.allNamesAssigned o.context := by
    rw [hnames, hns, List.mem_eraseDups]
  have hall : r.fields.map (·.name) =
      (s.allNamesAssigned o.context ++ members.map (·.name)).eraseDups := by
    rw [hfields, addMembers_names_eq hnodup, hnames, hns, eraseDups_left]
  refine ⟨?_, hall, ?_, ?_, ?_⟩
  · rw [hall]
    exact eraseDups_nodup _
  · intro f hf hpublished
    rw [hfields] at hf
    have hown' := mem_of_taken hf ((hmem _).mpr hpublished)
    obtain ⟨n, -, rfl⟩ : ∃ n ∈ ns, Field.mk n (" | ".intercalate (s.publishedTypes o.context n)) = f := by
      simpa [hown] using hown'
    rfl
  · intro f hf hnew
    rw [hfields] at hf
    exact find_of_mem_addMembers hf fun h => hnew ((hmem _).mp h)
  · rw [hwarnings, addMembers_warnings, takenMembers_congr hmem, List.filter_map, List.map_map]
    rfl

/-- Two sites that publish one name. -/
def rivalsSource : String :=
  "function a() { const x = new A; this.x = x; }\n" ++
    "function b() { const x = new B; this.x = x; }"

def rivalsConverted : Converted where
  text := ("export function a(scene: Phaser.Scene | any) { const x = new A; scene.x = x; }\n" ++
    "export function b(scene: Phaser.Scene | any) { const x = new B; scene.x = x; }" ++
    "\n\nexport type SceneExtensions = \x7b\n  x: A | B;\n  bg: any;\n\x7d;\n").toList
  fields := [⟨"x", "A | B"⟩, ⟨"bg", "any"⟩]
  warnings :=
    ["'x' is published with different types (A, B); declaring their union",
      "'x' is declared more than once; keeping the first declaration",
      "'bg' is declared more than once; keeping the first declaration"]

set_option maxRecDepth 100000 in
theorem merged_fields_rivals :
    (typedScript rivalsSource).dialect = .typed ∧
    (typedScript rivalsSource).convert .usual
      [⟨"bg", "any"⟩, ⟨"x", "any"⟩, ⟨"bg", "Layer"⟩] = .ok rivalsConverted ∧
    rivalsConverted.fields.map (·.name) =
      ((typedScript rivalsSource).allNamesAssigned "scene" ++ ["bg", "x", "bg"]).eraseDups := by
  let changes := [insertion 0 "export ", insertion 11 "scene: Phaser.Scene | any",
    ⟨32, 36, bytesOf "scene"⟩, insertion 46 "export ", insertion 57 "scene: Phaser.Scene | any",
    ⟨78, 82, bytesOf "scene"⟩]
  have hby : ConvertsBy (typedScript rivalsSource) .usual
      [⟨"bg", "any"⟩, ⟨"x", "any"⟩, ⟨"bg", "Layer"⟩] changes changes rivalsConverted := by
    decide +kernel
  have hconverts := hby.convert
  exact ⟨rfl, hconverts, (merged_fields _ _ _ _ rfl hconverts).2.1⟩

end Script

end SceneSync
