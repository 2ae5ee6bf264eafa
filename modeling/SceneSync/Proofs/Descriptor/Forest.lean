import Mathlib
import SceneSync.Descriptor
import SceneSync.Proofs.Pairing

/-!
# The forest of a descriptor

The display list is read off one stack and listed off another. Both together come to the
structural recursion over the text: one item for each entry, with what is inside it, parents
first and siblings in order.
-/

namespace SceneSync

/-! ## What a document says -/

namespace Json

/-- The items of an array; nothing has none. -/
def elements : Json → List Json
  | .array es => es
  | _ => []

/-- The text of an object under a key, empty when there is none. -/
def textAt (raw : Json) (key : String) : String :=
  match raw with
  | .object ms => match member? ms key with
    | some (.string s) => s
    | _ => ""
  | _ => ""

/-- The items of the array of an object under a key. -/
def elementsAt (raw : Json) (key : String) : List Json :=
  match raw with
  | .object ms => ((member? ms key).map elements).getD []
  | _ => []

theorem sizeOf_elements_lt {raw e : Json} (h : e ∈ raw.elements) : sizeOf e < sizeOf raw := by
  cases raw with
  | array es =>
    have := List.sizeOf_lt_of_mem (show e ∈ es from h)
    simp only [array.sizeOf_spec]
    omega
  | _ => cases h

theorem sizeOf_elementsAt_lt {raw e : Json} {key : String} (h : e ∈ raw.elementsAt key) :
    sizeOf e < sizeOf raw := by
  cases raw with
  | object ms =>
    rw [elementsAt] at h
    cases hv : member? ms key with
    | none => simp [hv] at h
    | some v =>
      have he := sizeOf_elements_lt (show e ∈ v.elements by simpa [hv] using h)
      have hm := Descriptor.sizeOf_lookup_lt hv
      simp only [object.sizeOf_spec]
      omega
  | _ => cases h

/-- An entry and those inside it, parents first and siblings in order. -/
def withInner (raw : Json) : List Json :=
  raw :: (raw.elementsAt "list").attach.flatMap fun e => withInner e.1
termination_by sizeOf raw
decreasing_by exact sizeOf_elementsAt_lt e.2

theorem withInner_eq (raw : Json) :
    raw.withInner = raw :: (raw.elementsAt "list").flatMap withInner := by
  have h (es : List Json) : es.flatMap withInner = es.attach.flatMap fun e => withInner e.1 := by
    conv_lhs => rw [← List.attach_map_subtype_val es, List.flatMap_map]
  rw [withInner, h]

end Json

namespace Item

open Json

/-- The item of an entry, with one item for each entry inside it. -/
def ofEntry (raw : Json) : Item :=
  mk (raw.textAt "label") (raw.textAt "type") (raw.textAt "scope")
    ((raw.elementsAt "list").attach.map fun e => ofEntry e.1)
termination_by sizeOf raw
decreasing_by exact sizeOf_elementsAt_lt e.2

theorem ofEntry_eq (raw : Json) :
    ofEntry raw = mk (raw.textAt "label") (raw.textAt "type") (raw.textAt "scope")
      ((raw.elementsAt "list").map ofEntry) := by
  have h (es : List Json) : es.map ofEntry = es.attach.map fun e => ofEntry e.1 := by
    conv_lhs => rw [← List.attach_map_subtype_val es, List.map_map]
    rfl
  rw [ofEntry, h]

theorem preorderAll_append (is js : List Item) :
    preorderAll (is ++ js) = preorderAll is ++ preorderAll js := by
  induction is with
  | nil => rfl
  | cons i is ih => simp [preorderAll, ih]

theorem preorder_ofEntry (raw : Json) : preorder (ofEntry raw) = raw.withInner.map ofEntry := by
  induction raw using ofEntry.induct with
  | case1 raw ih =>
    have hall : ∀ es : List Json, (∀ e ∈ es, e ∈ raw.elementsAt "list") →
        preorderAll (es.map ofEntry) = (es.flatMap withInner).map ofEntry := by
      intro es hes
      induction es with
      | nil => rfl
      | cons e es ih' =>
        rw [List.map_cons, preorderAll, ih ⟨e, hes e (by simp)⟩,
          ih' fun e' he' => hes e' (by simp [he'])]
        simp
    rw [ofEntry_eq, preorder, hall _ fun _ h => h, withInner_eq raw, List.map_cons, ofEntry_eq raw]

theorem preorderAll_ofEntry (es : List Json) :
    preorderAll (es.map ofEntry) = (es.flatMap withInner).map ofEntry := by
  induction es with
  | nil => rfl
  | cons e es ih => simp [preorderAll, preorder_ofEntry, ih]

/-! ## The stack of a traversal -/

theorem takenFrom_eq (stack : List Item) : takenFrom stack = preorderAll stack := by
  induction stack using takenFrom.induct with
  | case1 => rw [takenFrom, preorderAll]
  | case2 i stack ih =>
    obtain ⟨l, k, s, cs⟩ := i
    rw [takenFrom, ih, Stack.push_eq, List.reverse_reverse, preorderAll_append]
    rfl

/-- The two reversals, onto the stack and off it, cancel. -/
theorem listed_eq (items : List Item) : listed items = preorderAll items := by
  rw [listed, takenFrom_eq, Stack.push_eq]
  simp

/-! ## Filling in -/

theorem modify_at (done rest : List Item) (i : Item) (f : Item → Item) :
    (done ++ i :: rest).modify done.length f = done ++ f i :: rest := by
  induction done with
  | nil => rfl
  | cons d done ih => simpa using ih

/-- An item with other contents. -/
def containing (contents : List Item) (i : Item) : Item := mk i.label i.kind i.scope contents

/-- Contents that go inside what has just been filled in. -/
theorem fill_inside (contents inner : List Item) (n : Nat) (place : List Nat) (items : List Item) :
    fill inner (place ++ [n]) (fill contents place items) =
      fill (contents.modify n (containing inner)) place items := by
  induction place generalizing items with
  | nil => rfl
  | cons m place ih =>
    simp only [List.cons_append, fill, List.modify_modify_eq]
    congr 1
    funext i
    simp [Function.comp, label, kind, scope, children, ih]

end Item

namespace Descriptor

open Item Json

/-- The items of a list that has yet to be read. -/
def Pending.items (p : Pending) : List Item := p.raw.elements.map ofEntry

/-- What a building comes to: every list that is missing filled in at its place. -/
def Building.finished (b : Building) : List Item :=
  b.pending.foldl (fun items p => fill p.items p.place items) b.items

/-- The field of an entry, if it is public and has a kind. -/
def publicField? (raw : Json) : Option Field :=
  if raw.textAt "scope" = publicScope ∧ raw.textAt "type" ≠ "" then
    some ⟨raw.textAt "label", ObjectKind.typeOf (raw.textAt "type")⟩
  else none

theorem textMember?_eq_some {ms : List (String × Json)} {key s : String}
    (h : textMember? ms key = some s) : s = (Json.object ms).textAt key := by
  rw [textMember?] at h
  rw [textAt]
  cases hv : member? ms key with
  | none => simpa [hv, eq_comm] using h
  | some v =>
    cases v with
    | string s' =>
      by_cases hs' : s' = ""
      · subst hs'
        simpa [hv, isFalsy] using h.symm
      · simpa [hv, isFalsy, hs'] using h.symm
    | _ =>
      simp only [hv] at h
      split at h
      · simpa [eq_comm] using h
      · cases h

theorem label_eq_textAt {ms : List (String × Json)} {l : String}
    (h : (member? ms "label").getD (.string "") = .string l) :
    l = (Json.object ms).textAt "label" := by
  rw [textAt]
  cases hv : member? ms "label" with
  | none => simpa [hv, eq_comm] using h
  | some v =>
    obtain rfl : v = .string l := by simpa [hv] using h
    rfl

theorem entry_eq_ok {raw : Json} {head : String × String × String} (h : entry raw = .ok head) :
    head = (raw.textAt "label", raw.textAt "type", raw.textAt "scope") := by
  cases raw with
  | object ms =>
    rw [entry] at h
    split at h
    · rename_i kind scope l hkind hscope hlabel
      split at h
      · cases h
      · cases h
        rw [textMember?_eq_some hkind, textMember?_eq_some hscope, label_eq_textAt hlabel]
    · cases h
  | _ => cases h

theorem elementsAt_of_inner {raw v : Json} (h : inner? raw = some v) :
    raw.elementsAt "list" = v.elements := by
  cases raw with
  | object ms =>
    have hv := Option.eq_some_of_filter_eq_some h
    simp [elementsAt, hv]
  | _ => cases h

theorem elementsAt_of_no_inner {raw : Json} (h : inner? raw = none) :
    raw.elementsAt "list" = [] := by
  cases raw with
  | object ms =>
    rw [elementsAt]
    cases hv : member? ms "list" with
    | none => rfl
    | some v =>
      have hfalsy : v.isFalsy = true := by simpa [inner?, hv] using h
      cases v with
      | array es => simpa [isFalsy, elements] using hfalsy
      | _ => rfl
  | _ => rfl

/-- A list is filled in with bare items, and then from the last to the first of them what is
inside it: `done` are the items before those that still are bare. -/
theorem fill_bare (p : Pending) (items : List Item) {es : List Json}
    {heads : List (String × String × String)}
    (h : List.Forall₂ (fun e head => entry e = .ok head) es heads) (done : List Item) :
    ((es.zipIdx done.length).filterMap fun e =>
        (inner? e.1).map fun v => (⟨v, p.place ++ [e.2], p.depth + 1⟩ : Pending)).foldr
      (fun q is => fill q.items q.place is) (fill (done ++ heads.map bare) p.place items) =
    fill (done ++ es.map ofEntry) p.place items := by
  induction h generalizing done with
  | nil => rfl
  | @cons e head es heads he _ ih =>
    have hhead : bare head = mk (e.textAt "label") (e.textAt "type") (e.textAt "scope") [] := by
      rw [entry_eq_ok he, bare]
    have hrest := ih (done ++ [bare head])
    rw [List.length_append, List.length_singleton, List.append_assoc, List.append_assoc] at hrest
    rw [List.zipIdx_cons, List.filterMap_cons, List.map_cons, List.map_cons, ofEntry_eq e]
    cases hinner : inner? e with
    | none =>
      simp only [Option.map_none]
      rw [show bare head :: heads.map bare = [bare head] ++ heads.map bare from rfl, hrest, hhead,
        elementsAt_of_no_inner hinner]
      rfl
    | some v =>
      simp only [Option.map_some, List.foldr_cons]
      rw [show bare head :: heads.map bare = [bare head] ++ heads.map bare from rfl, hrest,
        fill_inside, hhead, elementsAt_of_inner hinner]
      congr 1
      rw [List.singleton_append, modify_at]
      rfl

/-- To read a list that came off the stack leaves alone what the building comes to. -/
theorem finished_readList {limit : Int} {p : Pending} {items : List Item} {ps : List Pending}
    {b : Building} (h : readList limit p ⟨items, ps⟩ = .ok b) :
    b.finished = Building.finished ⟨items, p :: ps⟩ := by
  rw [readList] at h
  split at h
  · cases h
  · split at h
    · rename_i es hraw
      cases hheads : es.mapM entry with
      | error f => simp [hheads, bind, Except.bind] at h
      | ok heads =>
        simp only [hheads, bind, Except.bind, pure, Except.pure, Except.ok.injEq] at h
        subst h
        have hfill := fill_bare p items ((mapM_ok_iff _ _ _).mp hheads) []
        simp only [Building.finished, Stack.push_eq, List.foldl_append, List.foldl_reverse,
          List.foldl_cons]
        rw [Pending.inside]
        simp only [List.length_nil, List.nil_append] at hfill
        rw [hfill, Pending.items, hraw]
        rfl
    · cases h

theorem build_of_error {limit : Int} {p : Pending} {items : List Item} {ps : List Pending}
    {f : DescriptorFault} (h : readList limit p ⟨items, ps⟩ = .error f) :
    build limit ⟨items, p :: ps⟩ = .error f := by
  rw [build]
  split
  · rename_i b hb
    cases h.symm.trans hb
  · rename_i g hg
    rw [Except.error.inj (h.symm.trans hg)]

theorem build_of_ok {limit : Int} {p : Pending} {items : List Item} {ps : List Pending}
    {b : Building} (h : readList limit p ⟨items, ps⟩ = .ok b) :
    build limit ⟨items, p :: ps⟩ = build limit b := by
  rw [build]
  split
  · rename_i b' hb'
    rw [Except.ok.inj (h.symm.trans hb')]
  · rename_i f hf
    cases h.symm.trans hf

theorem build_eq_ok {limit : Int} {b : Building} {items : List Item}
    (h : build limit b = .ok items) : items = b.finished := by
  induction b using build.induct limit with
  | case1 items' =>
    rw [build] at h
    exact (Except.ok.inj h).symm
  | case2 items' p ps b hread _ ih =>
    rw [build_of_ok hread] at h
    rw [ih h, finished_readList hread]
  | case3 items' p ps f hread =>
    rw [build_of_error hread] at h
    cases h

/-- What a document shows, and nothing when there is no display list. -/
theorem read_eq_ok {limit : Int} {content : List Char} {items : List Item}
    (h : read limit content = .ok items) :
    ∃ ms, Json.read content = .ok (.object ms) ∧
      items = ((Json.object ms).elementsAt "displayList").map ofEntry := by
  rw [read] at h
  split at h
  · cases h
  · cases h
  · rename_i ms hms
    refine ⟨ms, hms, ?_⟩
    rw [elementsAt]
    split at h
    · rename_i hnone
      simpa [hnone, eq_comm] using h
    · rename_i hnull
      simpa [hnull, elements, eq_comm] using h
    · rename_i list _ hlist
      have hitems := build_eq_ok (show build limit ⟨[], [⟨list, [], 1⟩]⟩ = .ok items from h)
      rw [hitems, hlist]
      rfl
  · cases h

theorem field?_ofEntry (raw : Json) : (ofEntry raw).field? = publicField? raw := by
  rw [ofEntry_eq, field?, publicField?, isPublic, scope, kind, label]
  simp

/-- The items of a descriptor are those that its text shows by structural recursion, one for
each entry; the traversal lists them parents first; and the fields are those of the public
entries with a kind, at any depth and in the order of the text. -/
theorem read_eq_recursive_reading {limit : Int} {content : List Char} {items : List Item}
    (h : read limit content = .ok items) :
    ∃ ms, Json.read content = .ok (.object ms) ∧
      items = ((Json.object ms).elementsAt "displayList").map ofEntry ∧
      listed items = preorderAll items ∧
      fields items =
        (((Json.object ms).elementsAt "displayList").flatMap withInner).filterMap publicField? := by
  obtain ⟨ms, hms, rfl⟩ := read_eq_ok h
  refine ⟨ms, hms, rfl, listed_eq _, ?_⟩
  rw [fields, listed_eq, preorderAll_ofEntry, List.filterMap_map]
  congr 1
  funext raw
  exact field?_ofEntry raw

/-- A public item inside another that is not. -/
def nestedText : List Char :=
  ("\x7b\"displayList\": [\x7b\"label\": \"ui\", \"list\": [" ++
    "\x7b\"label\": \"hero\", \"type\": \"Image\", \"scope\": \"PUBLIC\"\x7d]\x7d]\x7d").toList

theorem read_eq_recursive_reading_nested : ∃ items, read 2 nestedText = .ok items ∧
    fields items = [⟨"hero", "Phaser.GameObjects.Image"⟩] ∧
    ∃ ms, Json.read nestedText = .ok (.object ms) ∧
      items = ((Json.object ms).elementsAt "displayList").map ofEntry ∧
      fields items =
        (((Json.object ms).elementsAt "displayList").flatMap withInner).filterMap publicField? := by
  have hfields : (read 2 nestedText).toOption.map fields =
      some [⟨"hero", "Phaser.GameObjects.Image"⟩] := by decide +kernel
  cases hread : read 2 nestedText with
  | error f => simp [hread, Except.toOption] at hfields
  | ok items =>
    obtain ⟨ms, hms, hitems, -, hsame⟩ := read_eq_recursive_reading hread
    exact ⟨items, rfl, by simpa [hread, Except.toOption] using hfields, ms, hms, hitems, hsame⟩

end Descriptor

end SceneSync
