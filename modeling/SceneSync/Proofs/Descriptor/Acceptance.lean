import Mathlib
import SceneSync.Proofs.Descriptor.Forest

/-!
# Which descriptors are read

A document is read exactly when its display list is an array of sound entries, and so are all
lists inside, and none of them is too deep. The order in which the lists come off the stack
decides which of several faults is found, but not whether there is one.
-/

namespace SceneSync.Descriptor

open Json

variable {limit : Int} {list raw v u : Json} {n : Nat} {p q : Pending} {ms : List (String × Json)}

/-! ## What a display list may be -/

/-- A member that is a text, or that counts as absent. -/
def TextOrFalsy (ms : List (String × Json)) (key : String) : Prop :=
  ∀ v, member? ms key = some v → v.isFalsy = true ∨ ∃ s, v = .string s

/-- The members of an entry: texts where texts are due, and a label for what needs one. -/
structure ValidMembers (ms : List (String × Json)) : Prop where
  type : TextOrFalsy ms "type"
  scope : TextOrFalsy ms "scope"
  label : ∀ v, member? ms "label" = some v → ∃ s, v = .string s
  labelled : (Json.object ms).textAt "scope" = Item.publicScope →
    (Json.object ms).textAt "type" ≠ "" → (Json.object ms).textAt "label" ≠ ""

def ValidEntry (raw : Json) : Prop := ∃ ms, raw = .object ms ∧ ValidMembers ms

/-- The lists in a display list with their depths. Its own is one, and what counts as absent
is no list. -/
inductive ListAt (list : Json) : Nat → Json → Prop
  | itself : ListAt list 1 list
  | inside {n : Nat} {v u : Json} {ms : List (String × Json)} : ListAt list n v →
      .object ms ∈ v.elements → member? ms "list" = some u → u.isFalsy = false →
      ListAt list (n + 1) u

/-- A display list without faults, however deep. -/
structure WellFormed (list : Json) : Prop where
  lists : ∀ n v, ListAt list n v → ∃ es, v = .array es
  entries : ∀ n v, ListAt list n v → ∀ e ∈ v.elements, ValidEntry e

/-! ## One entry -/

theorem textMember?_isSome_iff {key : String} :
    (∃ s, textMember? ms key = some s) ↔ TextOrFalsy ms key := by
  rw [textMember?, TextOrFalsy]
  cases member? ms key with
  | none => simp
  | some v =>
    cases hv : v.isFalsy
    · cases v <;> simp [hv]
    · simp [hv]

theorem label_text_iff : (∃ l, (member? ms "label").getD (.string "") = .string l) ↔
    ∀ v, member? ms "label" = some v → ∃ s, v = .string s := by
  cases member? ms "label" <;> simp

theorem entry_isOk_iff : (∃ head, entry raw = .ok head) ↔ ValidEntry raw := by
  cases raw with
  | object ms =>
    constructor
    · rintro ⟨head, h⟩
      have hhead := entry_eq_ok h
      refine ⟨ms, rfl, ?_⟩
      rw [entry] at h
      split at h
      · rename_i kind scope l hkind hscope hlabel
        split at h
        · cases h
        · rename_i hpublic
          obtain ⟨rfl, rfl, rfl⟩ : (Json.object ms).textAt "label" = l ∧
              (Json.object ms).textAt "type" = kind ∧ (Json.object ms).textAt "scope" = scope := by
            simpa using hhead.symm.trans (Except.ok.inj h).symm
          refine ⟨textMember?_isSome_iff.mp ⟨_, hkind⟩, textMember?_isSome_iff.mp ⟨_, hscope⟩,
            label_text_iff.mp ⟨_, hlabel⟩, fun hscope' htype hempty => hpublic ?_⟩
          simp [hscope', htype, hempty]
      · cases h
    · rintro ⟨ms, hms, hvalid⟩
      cases hms
      obtain ⟨kind, hkind⟩ := textMember?_isSome_iff.mpr hvalid.type
      obtain ⟨scope, hscope⟩ := textMember?_isSome_iff.mpr hvalid.scope
      obtain ⟨l, hl⟩ := label_text_iff.mpr hvalid.label
      have hlabelled := hvalid.labelled
      rw [← textMember?_eq_some hkind, ← textMember?_eq_some hscope,
        ← label_eq_textAt hl] at hlabelled
      rw [entry]
      simp only [hkind, hscope, hl]
      rw [if_neg]
      · exact ⟨_, rfl⟩
      · simpa [and_imp] using hlabelled
  | _ =>
    constructor
    · rintro ⟨head, h⟩
      cases h
    · rintro ⟨ms, hms, -⟩
      cases hms

theorem entry_not_tooDeep {f : DescriptorFault} (h : entry raw = .error f) :
    f.isTooDeep = false := by
  cases raw with
  | object ms =>
    rw [entry] at h
    split at h
    · split at h
      · cases h
        rfl
      · cases h
    · cases h
      rfl
  | _ =>
    cases h
    rfl

/-- When one entry of some is at fault, their reading stops with its fault. -/
theorem mapM_entry_error {es : List Json} {f : DescriptorFault} (h : es.mapM entry = .error f) :
    ∃ e ∈ es, entry e = .error f := by
  induction es with
  | nil => cases h
  | cons e es ih =>
    rw [List.mapM_cons] at h
    cases he : entry e with
    | error g =>
      simp only [he, bind, Except.bind] at h
      cases h
      exact ⟨e, by simp, he⟩
    | ok head =>
      cases hes : es.mapM entry with
      | error g =>
        simp only [he, hes, bind, Except.bind] at h
        cases h
        obtain ⟨e', he', hf⟩ := ih hes
        exact ⟨e', by simp [he'], hf⟩
      | ok heads => simp [he, hes, bind, Except.bind, pure, Except.pure] at h

/-! ## One list -/

theorem inner?_eq_some_iff : inner? raw = some u ↔
    ∃ ms, raw = .object ms ∧ member? ms "list" = some u ∧ u.isFalsy = false := by
  cases raw <;> simp [inner?, Option.filter_eq_some_iff]

theorem mem_inside_iff {es : List Json} : q ∈ p.inside es ↔
    ∃ n e, es[n]? = some e ∧ inner? e = some q.raw ∧ q.place = p.place ++ [n] ∧
      q.depth = p.depth + 1 := by
  obtain ⟨raw, place, depth⟩ := q
  simp only [Pending.inside, List.mem_filterMap, Prod.exists, List.mem_zipIdx_iff_getElem?,
    Option.map_eq_some_iff, Pending.mk.injEq]
  constructor
  · rintro ⟨e, n, he, v, hv, rfl, rfl, rfl⟩
    exact ⟨n, e, he, hv, rfl, rfl⟩
  · rintro ⟨n, e, he, hv, rfl, rfl⟩
    exact ⟨e, n, he, raw, hv, rfl, rfl, rfl⟩

/-- What may become of a list that came off the stack. -/
theorem readList_cases (limit : Int) (p : Pending) (items : List Item) (ps : List Pending) :
    (limit < p.depth ∧ readList limit p ⟨items, ps⟩ = .error (.tooDeep limit)) ∨
    (p.depth ≤ limit ∧ ¬ ((∃ es, p.raw = .array es) ∧ ∀ e ∈ p.raw.elements, ValidEntry e) ∧
      ∃ f, readList limit p ⟨items, ps⟩ = .error f ∧ f.isTooDeep = false) ∨
    (p.depth ≤ limit ∧ (∃ es, p.raw = .array es) ∧ (∀ e ∈ p.raw.elements, ValidEntry e) ∧
      ∃ items', readList limit p ⟨items, ps⟩ =
        .ok ⟨items', (p.inside p.raw.elements).reverse ++ ps⟩) := by
  by_cases hdepth : limit < p.depth
  · refine .inl ⟨hdepth, ?_⟩
    rw [readList, if_pos hdepth]
    rfl
  refine .inr ?_
  have hle : p.depth ≤ limit := by omega
  by_cases harray : ∃ es, p.raw = .array es
  · obtain ⟨es, hraw⟩ := harray
    rw [hraw]
    cases hheads : es.mapM entry with
    | error f =>
      obtain ⟨e, he, hf⟩ := mapM_entry_error hheads
      refine .inl ⟨hle, fun h => ?_, f, ?_, entry_not_tooDeep hf⟩
      · obtain ⟨head, hhead⟩ := entry_isOk_iff.mpr (h.2 e he)
        cases hf.symm.trans hhead
      · simp [readList, hdepth, hraw, hheads, bind, Except.bind]
    | ok heads =>
      refine .inr ⟨hle, ⟨es, rfl⟩, fun e he => ?_, Item.fill (heads.map bare) p.place items, ?_⟩
      · obtain ⟨head, -, hhead⟩ :=
          exists_right_of_mem ((mapM_ok_iff _ _ _).mp hheads) (show e ∈ es from he)
        exact entry_isOk_iff.mp ⟨head, hhead⟩
      · simp only [readList, hdepth, hraw, hheads, bind, Except.bind, pure, Except.pure,
          Stack.push_eq, elements, if_false]
  · refine .inl ⟨hle, fun h => harray h.1, .listNotArray, ?_, rfl⟩
    rw [readList, if_neg hdepth]
    split
    · rename_i es hraw
      exact absurd ⟨es, hraw⟩ harray
    · rfl

/-! ## The lists below -/

/-- A list inside an entry of the top. -/
theorem ListAt.deeper (hmem : .object ms ∈ list.elements) (hinner : member? ms "list" = some v)
    (hfull : v.isFalsy = false) (h : ListAt v n u) : ListAt list (n + 1) u := by
  induction h with
  | itself => exact .inside .itself hmem hinner hfull
  | inside _ hmem' hinner' hfull' ih => exact .inside ih hmem' hinner' hfull'

theorem listAt_iff : ListAt list n u ↔ n = 1 ∧ u = list ∨
    ∃ e ∈ list.elements, ∃ v m, inner? e = some v ∧ ListAt v m u ∧ n = m + 1 := by
  constructor
  · intro h
    induction h with
    | itself => exact .inl ⟨rfl, rfl⟩
    | @inside n v u ms _ hmem hinner hfull ih =>
      have hinner? := inner?_eq_some_iff.mpr ⟨ms, rfl, hinner, hfull⟩
      rcases ih with ⟨rfl, rfl⟩ | ⟨e, he, v', m, hv', hv, rfl⟩
      · exact .inr ⟨_, hmem, u, 1, hinner?, .itself, rfl⟩
      · exact .inr ⟨e, he, v', m + 1, hv', .inside hv hmem hinner hfull, rfl⟩
  · rintro (⟨rfl, rfl⟩ | ⟨e, he, v, m, hv, h, rfl⟩)
    · exact .itself
    · obtain ⟨ms, rfl, hinner, hfull⟩ := inner?_eq_some_iff.mp hv
      exact h.deeper he hinner hfull

/-- No list in a pending one is too deep. -/
def Pending.Fits (limit : Int) (p : Pending) : Prop :=
  ∀ n v, ListAt p.raw n v → p.depth + n ≤ limit + 1

theorem exists_inside {e : Json} (he : e ∈ p.raw.elements) (hv : inner? e = some v) :
    ∃ q ∈ p.inside p.raw.elements, q.raw = v ∧ q.depth = p.depth + 1 := by
  obtain ⟨n, hn⟩ := List.getElem?_of_mem he
  exact ⟨⟨v, p.place ++ [n], p.depth + 1⟩, mem_inside_iff.mpr ⟨n, e, hn, hv, rfl, rfl⟩, rfl, rfl⟩

theorem of_mem_inside (hq : q ∈ p.inside p.raw.elements) :
    ∃ e ∈ p.raw.elements, inner? e = some q.raw ∧ q.depth = p.depth + 1 := by
  obtain ⟨n, e, hn, hv, -, hdepth⟩ := mem_inside_iff.mp hq
  exact ⟨e, List.mem_of_getElem? hn, hv, hdepth⟩

theorem Pending.fits_iff : p.Fits limit ↔
    p.depth ≤ limit ∧ ∀ q ∈ p.inside p.raw.elements, q.Fits limit := by
  constructor
  · intro h
    refine ⟨by have := h 1 _ .itself; omega, fun q hq n u hu => ?_⟩
    obtain ⟨e, he, hv, hdepth⟩ := of_mem_inside hq
    have := h (n + 1) u (listAt_iff.mpr (.inr ⟨e, he, _, n, hv, hu, rfl⟩))
    push_cast at this
    omega
  · rintro ⟨htop, hinside⟩ n u hu
    rcases listAt_iff.mp hu with ⟨rfl, rfl⟩ | ⟨e, he, v, m, hv, hm, rfl⟩
    · push_cast
      omega
    · obtain ⟨q, hq, rfl, hdepth⟩ := exists_inside he hv
      have := hinside q hq m u hm
      push_cast
      omega

theorem Pending.wellFormed_iff : WellFormed p.raw ↔
    ((∃ es, p.raw = .array es) ∧ ∀ e ∈ p.raw.elements, ValidEntry e) ∧
      ∀ q ∈ p.inside p.raw.elements, WellFormed q.raw := by
  constructor
  · intro h
    refine ⟨⟨h.lists 1 _ .itself, h.entries 1 _ .itself⟩, fun q hq => ?_⟩
    obtain ⟨e, he, hv, -⟩ := of_mem_inside hq
    have hbelow (n : Nat) (u : Json) (hu : ListAt q.raw n u) : ListAt p.raw (n + 1) u :=
      listAt_iff.mpr (.inr ⟨e, he, _, n, hv, hu, rfl⟩)
    exact ⟨fun n u hu => h.lists _ u (hbelow n u hu), fun n u hu => h.entries _ u (hbelow n u hu)⟩
  · rintro ⟨htop, hinside⟩
    have hcases (n : Nat) (u : Json) (hu : ListAt p.raw n u) :
        u = p.raw ∨ ∃ q ∈ p.inside p.raw.elements, ∃ m, ListAt q.raw m u := by
      rcases listAt_iff.mp hu with ⟨-, rfl⟩ | ⟨e, he, v, m, hv, hm, -⟩
      · exact .inl rfl
      · obtain ⟨q, hq, rfl, -⟩ := exists_inside he hv
        exact .inr ⟨q, hq, m, hm⟩
    constructor
    · intro n u hu
      rcases hcases n u hu with rfl | ⟨q, hq, m, hm⟩
      · exact htop.1
      · exact (hinside q hq).lists m u hm
    · intro n u hu
      rcases hcases n u hu with rfl | ⟨q, hq, m, hm⟩
      · exact htop.2
      · exact (hinside q hq).entries m u hm

/-! ## The whole reading -/

/-- A reading succeeds, or stops at a list that is too deep, or at one that has another
fault. -/
theorem build_cases (limit : Int) (b : Building) :
    ((∃ items, build limit b = .ok items) ∧
      ∀ p ∈ b.pending, WellFormed p.raw ∧ p.Fits limit) ∨
    (build limit b = .error (.tooDeep limit) ∧ ∃ p ∈ b.pending, ¬ p.Fits limit) ∨
    (∃ f, build limit b = .error f ∧ f.isTooDeep = false ∧
      ∃ p ∈ b.pending, ¬ WellFormed p.raw) := by
  induction b using build.induct limit with
  | case1 items =>
    rw [build]
    exact .inl ⟨⟨items, rfl⟩, by simp⟩
  | case2 items p ps b hread _ ih =>
    rw [build_of_ok hread]
    rcases readList_cases limit p items ps with
      ⟨-, h⟩ | ⟨-, -, f, h, -⟩ | ⟨hle, harray, hvalid, items', h⟩
    · cases h.symm.trans hread
    · cases h.symm.trans hread
    · obtain rfl : _ = b := Except.ok.inj (h.symm.trans hread)
      have hinside {P : Pending → Prop} (hP : ∃ q ∈ (p.inside p.raw.elements).reverse ++ ps, ¬ P q)
          (hp : P p → ∀ q ∈ p.inside p.raw.elements, P q) : ∃ q ∈ p :: ps, ¬ P q := by
        obtain ⟨q, hq, hnot⟩ := hP
        rcases List.mem_append.mp hq with hq | hq
        · exact ⟨p, by simp, fun h => hnot (hp h q (List.mem_reverse.mp hq))⟩
        · exact ⟨q, by simp [hq], hnot⟩
      rcases ih with ⟨hok, hall⟩ | ⟨herror, hdeep⟩ | ⟨f, herror, hf, hfault⟩
      · refine .inl ⟨hok, fun q hq => ?_⟩
        rcases List.mem_cons.mp hq with rfl | hq
        · have hin (r : Pending) (hr : r ∈ q.inside q.raw.elements) := hall r (by simp [hr])
          exact ⟨Pending.wellFormed_iff.mpr ⟨⟨harray, hvalid⟩, fun r hr => (hin r hr).1⟩,
            Pending.fits_iff.mpr ⟨hle, fun r hr => (hin r hr).2⟩⟩
        · exact hall q (by simp [hq])
      · exact .inr (.inl ⟨herror, hinside hdeep fun h => (Pending.fits_iff.mp h).2⟩)
      · exact .inr (.inr ⟨f, herror, hf, hinside (P := fun q => WellFormed q.raw) hfault
          fun h => (Pending.wellFormed_iff.mp h).2⟩)
  | case3 items p ps f hread =>
    rw [build_of_error hread]
    rcases readList_cases limit p items ps with
      ⟨hlt, h⟩ | ⟨-, hnot, g, h, hg⟩ | ⟨-, -, -, items', h⟩
    · obtain rfl : _ = f := Except.error.inj (h.symm.trans hread)
      refine .inr (.inl ⟨rfl, p, by simp, fun hfits => ?_⟩)
      have := (Pending.fits_iff.mp hfits).1
      omega
    · obtain rfl : g = f := Except.error.inj (h.symm.trans hread)
      exact .inr (.inr ⟨g, rfl, hg, p, by simp, fun hw => hnot (Pending.wellFormed_iff.mp hw).1⟩)
    · cases h.symm.trans hread

/-- The display list of a document; one that is null counts as absent. -/
def Shows (v list : Json) : Prop :=
  ∃ ms, v = .object ms ∧ member? ms "displayList" = some list ∧ list ≠ .null

theorem Shows.unique {list' : Json} (h : Shows v list) (h' : Shows v list') : list = list' := by
  obtain ⟨ms, rfl, hlist, -⟩ := h
  obtain ⟨ms', hms, hlist', -⟩ := h'
  cases hms
  exact Option.some.inj (hlist.symm.trans hlist')

/-- Some list is deeper than the limit allows. -/
def Exceeds (limit : Int) (list : Json) : Prop :=
  limit < 1 ∨ ∃ n u, ListAt list n u ∧ 1 < n ∧ limit < n

/-- A document that is read: an object, without a display list or with one that has no fault
and is not too deep. -/
def Acceptable (limit : Int) (v : Json) : Prop :=
  ∃ ms, v = .object ms ∧ (member? ms "displayList" = none ∨
    member? ms "displayList" = some .null ∨
    ∃ list, member? ms "displayList" = some list ∧ WellFormed list ∧ 1 ≤ limit ∧
      ∀ n u, ListAt list n u → n ≤ limit)

theorem fits_iff_not_exceeds : Pending.Fits limit ⟨list, [], 1⟩ ↔ ¬ Exceeds limit list := by
  constructor
  · rintro hfits (hlimit | ⟨n, u, hu, -, hn⟩)
    · have := hfits 1 list .itself
      simp only at this
      omega
    · have := hfits n u hu
      simp only at this
      omega
  · intro h n u hu
    by_contra hdeep
    simp only [not_le] at hdeep
    rcases Nat.lt_or_ge 1 n with hn | hn
    · exact h (.inr ⟨n, u, hu, hn, by omega⟩)
    · exact h (.inl (by omega))

theorem read_of_shows {content : List Char} (hv : Json.read content = .ok v)
    (h : Shows v list) : read limit content = build limit ⟨[], [⟨list, [], 1⟩]⟩ := by
  obtain ⟨ms, rfl, hlist, hnull⟩ := h
  rw [read, hv]
  simp only [hlist]
  rfl

/-- What a document without a display list is read as. -/
theorem read_of_no_list {content : List Char} (hv : Json.read content = .ok (.object ms))
    (h : member? ms "displayList" = none ∨ member? ms "displayList" = some .null) :
    read limit content = .ok [] := by
  rw [read, hv]
  rcases h with h | h <;> simp [h]

theorem read_of_not_object {content : List Char} (hv : Json.read content = .ok v)
    (h : ∀ ms, v ≠ .object ms) : read limit content = .error .rootNotObject := by
  rw [read, hv]
  cases v with
  | object ms => exact absurd rfl (h ms)
  | _ => rfl

/-- What a value is as a document: no object, one without a display list, or one with. -/
theorem document_cases (v : Json) : (∀ ms, v ≠ .object ms) ∨
    (∃ ms, v = .object ms ∧
      (member? ms "displayList" = none ∨ member? ms "displayList" = some .null)) ∨
    ∃ list, Shows v list := by
  cases v with
  | object ms =>
    refine .inr ?_
    cases hlist : member? ms "displayList" with
    | none => exact .inl ⟨ms, rfl, .inl hlist⟩
    | some list =>
      by_cases hnull : list = .null
      · exact .inl ⟨ms, rfl, .inr (by rw [hlist, hnull])⟩
      · exact .inr ⟨list, ms, rfl, hlist, hnull⟩
  | _ => exact .inl (by simp)

theorem acceptable_iff_of_shows (h : Shows v list) :
    Acceptable limit v ↔ WellFormed list ∧ ¬ Exceeds limit list := by
  obtain ⟨ms, rfl, hlist, hnull⟩ := h
  rw [Exceeds]
  constructor
  · rintro ⟨ms', hms, hcases⟩
    cases hms
    rcases hcases with hnone | hnull' | ⟨list', hlist', hw, hlimit, hdeep⟩
    · cases hlist.symm.trans hnone
    · exact absurd (Option.some.inj (hlist.symm.trans hnull')) hnull
    · obtain rfl := Option.some.inj (hlist.symm.trans hlist')
      refine ⟨hw, ?_⟩
      rintro (hlow | ⟨n, u, hu, -, hn⟩)
      · omega
      · have := hdeep n u hu
        omega
  · rintro ⟨hw, hnot⟩
    have hlimit : 1 ≤ limit := by
      by_contra h
      exact hnot (.inl (by omega))
    refine ⟨ms, rfl, .inr (.inr ⟨list, hlist, hw, hlimit, fun n u hu => ?_⟩)⟩
    by_contra hn
    refine hnot (.inr ⟨n, u, hu, ?_, by omega⟩)
    by_contra hone
    omega

/-- How reading a document can end. -/
theorem read_cases (limit : Int) {content : List Char} (hv : Json.read content = .ok v) :
    (∃ items, read limit content = .ok items ∧ Acceptable limit v) ∨
    (read limit content = .error (.tooDeep limit) ∧ ¬ Acceptable limit v ∧
      ∃ list, Shows v list ∧ Exceeds limit list) ∨
    ∃ f, read limit content = .error f ∧ f.isTooDeep = false ∧ ¬ Acceptable limit v ∧
      ∀ list, Shows v list → ¬ WellFormed list := by
  rcases document_cases v with hobject | ⟨ms, rfl, hnone⟩ | ⟨list, hshows⟩
  · refine .inr (.inr ⟨_, read_of_not_object hv hobject, rfl, ?_, ?_⟩)
    · rintro ⟨ms, rfl, -⟩
      exact hobject ms rfl
    · rintro list ⟨ms, rfl, -⟩
      exact absurd rfl (hobject ms)
  · exact .inl ⟨[], read_of_no_list hv hnone, ms, rfl, hnone.imp_right .inl⟩
  have hread : read limit content = _ := read_of_shows hv hshows
  have hacceptable : Acceptable limit v ↔ _ := acceptable_iff_of_shows hshows
  rcases build_cases limit ⟨[], [⟨list, [], 1⟩]⟩ with
    ⟨⟨items, hok⟩, hall⟩ | ⟨herror, p, hp, hdeep⟩ | ⟨f, herror, hf, p, hp, hfault⟩
  · obtain ⟨hw, hfits⟩ := hall ⟨list, [], 1⟩ (by simp)
    exact .inl ⟨items, hread.trans hok, hacceptable.mpr ⟨hw, fits_iff_not_exceeds.mp hfits⟩⟩
  · obtain rfl := List.mem_singleton.mp hp
    have hexceeds := not_not.mp (mt fits_iff_not_exceeds.mpr hdeep)
    exact .inr (.inl ⟨hread.trans herror, fun h => (hacceptable.mp h).2 hexceeds,
      list, hshows, hexceeds⟩)
  · obtain rfl := List.mem_singleton.mp hp
    refine .inr (.inr ⟨f, hread.trans herror, hf, fun h => hfault (hacceptable.mp h).1, ?_⟩)
    intro list' hshows' hw
    rw [hshows'.unique hshows] at hw
    exact hfault hw

/-- A document is read exactly when it is acceptable. The fault is one of depth only if the
limit is exceeded, and it is that one whenever the document is without faults otherwise. -/
theorem read_isOk_iff_acceptable {content : List Char} (hv : Json.read content = .ok v) :
    ((∃ items, read limit content = .ok items) ↔ Acceptable limit v) ∧
    (¬ Acceptable limit v → ∃ f, read limit content = .error f) ∧
    (∀ f, read limit content = .error f → f.isTooDeep = true →
      ∃ list, Shows v list ∧ Exceeds limit list) ∧
    (∀ list, Shows v list → WellFormed list → Exceeds limit list →
      read limit content = .error (.tooDeep limit)) := by
  rcases read_cases limit hv with
    ⟨items, hok, hacceptable⟩ | ⟨herror, hnot, hexceeds⟩ | ⟨f, herror, hf, hnot, hfault⟩
  · refine ⟨⟨fun _ => hacceptable, fun _ => ⟨items, hok⟩⟩, fun h => absurd hacceptable h, ?_, ?_⟩
    · intro f hf
      cases hok.symm.trans hf
    · intro list hshows _ hexceeds
      exact absurd hexceeds ((acceptable_iff_of_shows hshows).mp hacceptable).2
  · refine ⟨⟨?_, fun h => absurd h hnot⟩, fun _ => ⟨_, herror⟩, fun _ _ _ => hexceeds,
      fun _ _ _ _ => herror⟩
    rintro ⟨items, hitems⟩
    cases herror.symm.trans hitems
  · refine ⟨⟨?_, fun h => absurd h hnot⟩, fun _ => ⟨f, herror⟩, ?_, ?_⟩
    · rintro ⟨items, hitems⟩
      cases herror.symm.trans hitems
    · intro g hg hdeep
      cases herror.symm.trans hg
      rw [hf] at hdeep
      cases hdeep
    · intro list hshows hw
      exact absurd hw (hfault list hshows)

/-- What the example says. -/
def nestedDocument : Json :=
  .object [("displayList", .array [.object [("label", .string "ui"), ("list", .array [.object
    [("label", .string "hero"), ("type", .string "Image"), ("scope", .string "PUBLIC")]])]])]

set_option maxRecDepth 20000 in
theorem read_isOk_iff_acceptable_nested : Json.read nestedText = .ok nestedDocument ∧
    Acceptable 2 nestedDocument ∧ ¬ Acceptable 1 nestedDocument := by
  have hv : Json.read nestedText = .ok nestedDocument := by cbv
  refine ⟨hv, (read_isOk_iff_acceptable hv).1.mp ?_, fun h => ?_⟩
  · have hok : (read 2 nestedText).isOk = true := by decide +kernel
    cases hread : read 2 nestedText with
    | ok items => exact ⟨items, rfl⟩
    | error f => simp [hread, Except.isOk, Except.toBool] at hok
  · have hfails : (read 1 nestedText).isOk = false := by decide +kernel
    obtain ⟨items, hread⟩ := (read_isOk_iff_acceptable hv).1.mpr h
    simp [hread, Except.isOk, Except.toBool] at hfails

end SceneSync.Descriptor
