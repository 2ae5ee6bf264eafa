import Mathlib
import SceneSync.Proofs.Script.Layout

/-!
# The declarations that go

A typed conversion takes away each declaration of an earlier one together with blanks
beside it. What goes is the declarations and blanks, and no edit of a function is in the
way of it. Two of the declarations can be in the way of each other: at the head of the
source, and where the first of them ends in a blank.
-/

namespace SceneSync.Script

open Script.Tree

variable {s : Script} {o : ConversionOptions} {site : Site}

/-- Statements and functions begin with a byte that is no blank, and parameter lists and
`this` end in one. -/
structure SolidTokens (s : Script) : Prop where
  statements : ∀ t ∈ s.statements, t.start < t.stop ∧
    ∀ b ∈ (Text.encode s.source)[t.start]?, isBlankByte b = false
  functions : ∀ site ∈ s.sites,
    ∀ b ∈ (Text.encode s.source)[site.tree.start]?, isBlankByte b = false
  lists : ∀ site ∈ s.sites, ∀ list ∈ site.parameters?,
    ∀ b ∈ (Text.encode s.source)[list.stop - 1]?, isBlankByte b = false
  receivers : ∀ t ∈ s.tree.preorder, t.kind = .thisExpression →
    ∀ b ∈ (Text.encode s.source)[t.stop - 1]?, isBlankByte b = false

theorem solidTokens_iff : s.SolidTokens ↔
    (∀ t ∈ s.statements, t.start < t.stop ∧
      ∀ b ∈ (Text.encode s.source)[t.start]?, isBlankByte b = false) ∧
    (∀ site ∈ s.sites, ∀ b ∈ (Text.encode s.source)[site.tree.start]?, isBlankByte b = false) ∧
    (∀ site ∈ s.sites, ∀ list ∈ site.parameters?,
      ∀ b ∈ (Text.encode s.source)[list.stop - 1]?, isBlankByte b = false) ∧
    ∀ t ∈ s.tree.preorder, t.kind = .thisExpression →
      ∀ b ∈ (Text.encode s.source)[t.stop - 1]?, isBlankByte b = false :=
  ⟨fun ⟨h1, h2, h3, h4⟩ => ⟨h1, h2, h3, h4⟩, fun ⟨h1, h2, h3, h4⟩ => ⟨h1, h2, h3, h4⟩⟩

instance (s : Script) : Decidable s.SolidTokens := decidable_of_iff _ solidTokens_iff.symm

/-- A declaration that ends in a blank, with nothing but blanks between it and a second
one. -/
def DeclaresBehindBlank (s : Script) : Prop :=
  ∃ t ∈ s.statements, ∃ u ∈ s.statements,
    s.isOldAlias t = true ∧ s.isOldAlias u = true ∧ t.stop ≤ u.start ∧
      ∀ b ∈ ((Text.encode s.source).take u.start).drop (t.stop - 1), isBlankByte b = true

instance (s : Script) : Decidable s.DeclaresBehindBlank :=
  inferInstanceAs (Decidable (∃ t ∈ s.statements, _))

/-- Whether a byte goes with a declaration. -/
def Removed (s : Script) (j : Nat) : Prop :=
  ∃ e ∈ s.removalEdits, e.start ≤ j ∧ (j : Int) < e.stop

/-- A blank byte before or behind a statement with only blanks between the two. -/
def BlankBeside (s : Script) (t : Tree) (j : Nat) : Prop :=
  (j < t.start ∧ ∀ b ∈ ((Text.encode s.source).take t.start).drop j, isBlankByte b = true) ∨
  (t.stop ≤ j ∧ ∀ b ∈ ((Text.encode s.source).take (j + 1)).drop t.stop, isBlankByte b = true)

theorem mem_removalEdits {e : Edit} : e ∈ s.removalEdits ↔
    ∃ t ∈ s.statements, s.isOldAlias t = true ∧ e = ⟨s.beginning t, s.ending t, []⟩ := by
  rw [removalEdits, List.mem_map]
  constructor
  · rintro ⟨t, ht, rfl⟩
    obtain ⟨ht, halias⟩ := List.mem_filter.mp ht
    exact ⟨t, ht, halias, removal_of_alias halias⟩
  · rintro ⟨t, ht, halias, rfl⟩
    exact ⟨t, List.mem_filter.mpr ⟨ht, halias⟩, removal_of_alias halias⟩

/-! ## Runs of blanks -/

/-- What comes after the last byte that is no blank is blank. -/
theorem blank_iff_trimBlanks_le {bytes : List UInt8} {j : Nat} :
    (∀ b ∈ bytes.drop j, isBlankByte b = true) ↔ (trimBlanks bytes).length ≤ j := by
  constructor
  · intro h
    by_contra hlt
    rw [Nat.not_le] at hlt
    have hnil := trimBlanks_eq_nil_iff.mpr h
    rw [trimBlanks_drop (Nat.le_of_lt hlt), List.drop_eq_nil_iff] at hnil
    omega
  · intro h b hb
    obtain ⟨blanks, hsplit, hblanks⟩ := trimBlanks_append bytes
    rw [hsplit, List.drop_append, List.drop_eq_nil_of_le h, List.nil_append] at hb
    exact hblanks b (List.mem_of_mem_drop hb)

theorem blank_iff_le_blanksAt {bytes : List UInt8} {n m : Nat} (hn : n ≤ m)
    (hm : m ≤ bytes.length) : (∀ b ∈ (bytes.take m).drop n, isBlankByte b = true) ↔
      m ≤ n + blanksAt bytes n := by
  have htake : (bytes.take m).drop n = (bytes.drop n).take (m - n) := List.drop_take
  have hlength : ((bytes.drop n).take (m - n)).length = m - n := by
    rw [List.length_take, List.length_drop]
    omega
  rw [htake, blanksAt]
  constructor
  · intro h
    have hsplit : ((bytes.drop n).take (m - n) ++ (bytes.drop n).drop (m - n)).takeWhile
        isBlankByte = _ := List.takeWhile_append_of_pos h
    rw [List.take_append_drop] at hsplit
    rw [hsplit, List.length_append, hlength]
    omega
  · intro h b hb
    have hfront := List.prefix_of_prefix_length_le (List.take_prefix (m - n) (bytes.drop n))
      (List.takeWhile_prefix isBlankByte (l := bytes.drop n)) (by omega)
    exact List.mem_takeWhile_imp (hfront.subset hb)

/-! ## Where a removal begins and ends -/

theorem beginning_of_alias {t : Tree} (h : s.isOldAlias t = true) :
    s.beginning t = (trimBlanks ((Text.encode s.source).take t.start)).length := by
  rw [beginning, if_pos h]

/-- A removal begins where the blanks before the statement begin. -/
theorem beginning_le_iff {t : Tree} (h : s.isOldAlias t = true) {j : Nat} :
    s.beginning t ≤ j ↔
      ∀ b ∈ ((Text.encode s.source).take t.start).drop j, isBlankByte b = true := by
  rw [beginning_of_alias h, blank_iff_trimBlanks_le]

theorem blankBeside_of_removal (hs : s.Regular) {t : Tree} (ht : t ∈ s.statements)
    (halias : s.isOldAlias t = true) {j : Nat} (hfrom : s.beginning t ≤ j)
    (hto : j < s.ending t) : t.start ≤ j ∧ j < t.stop ∨ BlankBeside s t j := by
  by_cases hbefore : j < t.start
  · exact .inr (.inl ⟨hbefore, (beginning_le_iff halias).mp hfrom⟩)
  by_cases hin : j < t.stop
  · exact .inl ⟨Nat.not_lt.mp hbefore, hin⟩
  · rw [Nat.not_lt] at hin
    refine .inr (.inr ⟨hin, ?_⟩)
    have hend := ending_le hs ht
    refine (blank_iff_le_blanksAt (by omega) (by omega)).mpr ?_
    rw [ending] at hto
    split at hto <;> omega

/-- A statement is over before the removal of a later one begins, unless it ends in a blank
and there are only blanks between the two. -/
theorem stop_le_beginning_iff {t u : Tree} (hne : t.start < t.stop)
    (hualias : s.isOldAlias u = true) : t.stop ≤ s.beginning u ↔
      ¬ ∀ b ∈ ((Text.encode s.source).take u.start).drop (t.stop - 1), isBlankByte b = true := by
  rw [← beginning_le_iff hualias]
  omega

/-- Two declarations at the head are in the way of each other. -/
theorem beginning_lt_ending_of_head {t u : Tree} (hs : s.Regular) (hu : u ∈ s.statements)
    (halias : s.isOldAlias t = true) (hualias : s.isOldAlias u = true) (htu : t.stop < u.start)
    (hhead : ∀ b ∈ (Text.encode s.source).take t.start, isBlankByte b = true)
    (hblank : ∀ b ∈ ((Text.encode s.source).take u.start).drop t.stop, isBlankByte b = true) :
    s.beginning u < s.ending t := by
  have hbegin := (beginning_le_iff hualias).mpr hblank
  have hbounds := statement_bounds hs hu
  have hend : s.ending t = t.stop + blanksAt (Text.encode s.source) t.stop := by
    rw [ending, if_pos ⟨halias, trimBlanks_eq_nil_iff.mpr hhead⟩]
  have := (blank_iff_le_blanksAt (Nat.le_of_lt htu) (by omega)).mp hblank
  omega

/-- The removals of two declarations keep apart but at the head of the source and behind a
blank. -/
theorem ending_le_beginning_iff (hs : s.Regular) (hsolid : s.SolidTokens) :
    (∀ t ∈ s.statements, ∀ u ∈ s.statements, s.isOldAlias t = true → s.isOldAlias u = true →
      t.stop ≤ u.start → s.ending t ≤ s.beginning u) ↔
      ¬ s.DeclaresTwiceAtHead ∧ ¬ s.DeclaresBehindBlank := by
  constructor
  · intro h
    refine ⟨?_, ?_⟩
    · rintro ⟨t, ht, u, hu, halias, hualias, htu, hhead, hblank⟩
      have := beginning_lt_ending_of_head hs hu halias hualias htu hhead hblank
      have := h t ht u hu halias hualias (Nat.le_of_lt htu)
      omega
    · rintro ⟨t, ht, u, hu, halias, hualias, htu, hblank⟩
      have hle := Nat.le_trans (le_ending (s := s) t) (h t ht u hu halias hualias htu)
      exact (stop_le_beginning_iff (hsolid.statements t ht).1 hualias).mp hle hblank
  · rintro ⟨hhead, hbehind⟩ t ht u hu halias hualias htu
    have hstop : t.stop ≤ s.beginning u := by
      refine (stop_le_beginning_iff (hsolid.statements t ht).1 hualias).mpr fun hblank => ?_
      exact hbehind ⟨t, ht, u, hu, halias, hualias, htu, hblank⟩
    obtain ⟨hune, hufirst⟩ := hsolid.statements u hu
    have hulength := (statement_bounds hs hu).2
    obtain ⟨c, hc, hcblank⟩ := exists_byte (by omega) hufirst
    exact ending_le_beginning_of_stop hhead ht hu htu hstop hc hcblank

theorem removalEdits_pairwise_iff (hs : s.Regular) (hsolid : s.SolidTokens) :
    s.removalEdits.Pairwise Edit.Apart ↔
      ¬ s.DeclaresTwiceAtHead ∧ ¬ s.DeclaresBehindBlank := by
  rw [← ending_le_beginning_iff hs hsolid, removalEdits, List.pairwise_map]
  have hremoval {t : Tree} (h : t ∈ s.statements.filter s.isOldAlias) :
      removal (Text.encode s.source) t = ⟨s.beginning t, s.ending t, []⟩ :=
    removal_of_alias (List.mem_filter.mp h).2
  constructor
  · intro h t ht u hu halias hualias htu
    have ht' := List.mem_filter.mpr ⟨ht, halias⟩
    have hu' := List.mem_filter.mpr ⟨hu, hualias⟩
    have hsymm := List.Pairwise.forall_of_forall_of_flip
      (R := fun t u => t = u ∨
        Edit.Apart (removal (Text.encode s.source) t) (removal (Text.encode s.source) u))
      (fun _ _ => .inl rfl) (h.imp fun h => .inr h) (h.imp fun h => .inr (Or.symm h)) ht' hu'
    have htne := (hsolid.statements t ht).1
    have hune := (hsolid.statements u hu).1
    cases hsymm with
    | inl heq =>
      subst heq
      omega
    | inr hapart =>
      have h1 := le_ending (s := s) u
      have h2 := beginning_le (s := s) t
      rw [hremoval ht', hremoval hu'] at hapart
      simp only [Edit.Apart] at hapart
      omega
  · intro h
    refine (hs.nested.children.pairwise.filter _).imp_of_mem fun {t u} ht hu htu => .inl ?_
    obtain ⟨htMem, halias⟩ := List.mem_filter.mp ht
    obtain ⟨huMem, hualias⟩ := List.mem_filter.mp hu
    rw [hremoval ht, hremoval hu]
    exact Int.ofNat_le.mpr (h t htMem u huMem halias hualias htu)

/-! ## Functions are not in the way -/

/-- An edit of a function ends no later than behind a byte of the function that is no
blank. -/
theorem SiteEdit.solid (hs : s.Regular) (hsolid : s.SolidTokens) (hsite : site ∈ s.sites)
    {context text : String} {place : Nat} {e : Edit} (h : SiteEdit context site place text e) :
    ∃ j b, (Text.encode s.source)[j]? = some b ∧ isBlankByte b = false ∧
      j < site.tree.stop ∧ e.stop ≤ j + 1 := by
  have hroot := site_contains hsite
  have hlength {t : Tree} (ht : Contains s.tree t) : t.stop ≤ (Text.encode s.source).length :=
    Text.boundary_le (hs.boundary ht).2
  cases h with
  | exported =>
    have hne := hs.functions site hsite
    have := hlength hroot
    obtain ⟨b, hb, hblank⟩ := exists_byte (by omega) (hsolid.functions site hsite)
    refine ⟨_, b, hb, hblank, hne, ?_⟩
    simp only [insertion]
    omega
  | parameter hplace =>
    obtain ⟨list, hl, hplace⟩ := hplace
    have hlist := hs.lists site hsite list hl
    have hclosed := hlist.closed
    have hin := contains_child (child?_mem hl)
    have := hlength (hroot.trans hin)
    have := ((hs.site_nested hsite).contains hin).2.2
    obtain ⟨b, hb, hblank⟩ := exists_byte (by omega) (hsolid.lists site hsite list hl)
    refine ⟨_, b, hb, hblank, by omega, ?_⟩
    simp only [insertion]
    cases hplace with
    | inl h => omega
    | inr h =>
      obtain ⟨p, hp, rfl⟩ := h
      have := (hlist.between.mem hp).2.2
      omega
  | @use t ht =>
    have hne := (ht.token hs hsite).2
    have htMem := hroot.trans ht.contains
    have := hlength htMem
    have := ((hs.site_nested hsite).contains ht.contains).2.2
    obtain ⟨b, hb, hblank⟩ := exists_byte (by omega)
      (hsolid.receivers t (mem_preorder.mpr htMem) (sceneUse_iff.mp ht).2)
    exact ⟨_, b, hb, hblank, by omega, by simp only; omega⟩

theorem removal_apart_siteEdit (hs : s.Regular) (hsolid : s.SolidTokens) {t : Tree}
    (ht : t ∈ s.statements) (halias : s.isOldAlias t = true) (hsite : site ∈ s.sites)
    {context text : String} {place : Nat} {e : Edit} (h : SiteEdit context site place text e) :
    e.stop ≤ s.beginning t ∨ (s.ending t : Int) ≤ e.start := by
  obtain ⟨w, hw, hsiteOf⟩ := mem_sites hsite
  obtain ⟨hstart, -, hstop⟩ := (hs.nested.children.mem hw).2.1.contains (siteOf?_contains hsiteOf)
  have hwithin := h.within hs hsite
  cases hs.nested.children.eq_or_apart ht hw with
  | inl heq =>
    rw [← heq, siteOf?_of_alias halias] at hsiteOf
    cases hsiteOf
  | inr hapart =>
    cases hapart with
    | inl hbefore =>
      have hlength := Text.boundary_le (hs.boundary (site_contains hsite)).2
      obtain ⟨b, hb, hblank⟩ := exists_byte (by omega) (hsolid.functions site hsite)
      have hblanks := blanksAt_le hb hblank (Nat.le_trans hbefore hstart)
      have hend : s.ending t ≤ site.tree.start := by
        rw [ending]
        split <;> omega
      exact .inr (by omega)
    | inr hbehind =>
      obtain ⟨j, b, hb, hblank, hj, hle⟩ := h.solid hs hsolid hsite
      have := lt_beginning (u := t) (by omega) hb hblank
      exact .inl (by omega)

/-- Edits of functions keep apart. -/
theorem allSiteEdits_separate (hs : s.Regular) {edits : List Edit}
    (h : s.allSiteEdits o = .ok edits) {e f : Edit} (he : e ∈ edits) (hf : f ∈ edits)
    (hne : e ≠ f) : Edit.Apart e f ∧ ¬ Edit.SamePlace e f := by
  obtain ⟨a, ha, la, hla, he⟩ := (mem_allSiteEdits_iff h e).mp he
  obtain ⟨b, hb, lb, hlb, hf⟩ := (mem_allSiteEdits_iff h f).mp hf
  obtain ⟨place, text, hedit⟩ := siteEdit_of_siteEdits hla
  obtain ⟨place', text', hedit'⟩ := siteEdit_of_siteEdits hlb
  cases site_eq_or_apart hs ha hb with
  | inl heq =>
    subst heq
    obtain rfl := Except.ok.inj (hla.symm.trans hlb)
    exact (hedit e he).separate hs ha (hedit f hf) hne
  | inr hapart =>
    have := (hedit e he).within hs ha
    have := (hedit' f hf).within hs hb
    unfold Tree.Apart at hapart
    unfold Edit.Apart Edit.SamePlace
    omega

theorem allSiteEdits_inRange (hs : s.Regular) {edits : List Edit}
    (h : s.allSiteEdits o = .ok edits) {e : Edit} (he : e ∈ edits) :
    e.InRange (Text.encode s.source).length := by
  obtain ⟨site, hsite, l, hl, he⟩ := (mem_allSiteEdits_iff h e).mp he
  obtain ⟨place, text, hedit⟩ := siteEdit_of_siteEdits hl
  have hwithin := (hedit e he).within hs hsite
  have hlength := Text.boundary_le (hs.boundary (site_contains hsite)).2
  exact ⟨by omega, by omega, by omega⟩

theorem removal_inRange (hs : s.Regular) {e : Edit} (he : e ∈ s.removalEdits) :
    e.InRange (Text.encode s.source).length := by
  obtain ⟨t, ht, halias, rfl⟩ := mem_removalEdits.mp he
  have h1 := beginning_le (s := s) t
  have h2 := (statement_bounds hs ht).1
  have h3 := le_ending (s := s) t
  have h4 := ending_le hs ht
  exact ⟨by simp, by simp only; omega, by simp only; omega⟩

theorem removalEdits_separate (hs : s.Regular) (hsolid : s.SolidTokens)
    (hhead : ¬ s.DeclaresTwiceAtHead) (hbehind : ¬ s.DeclaresBehindBlank) {e f : Edit}
    (he : e ∈ s.removalEdits) (hf : f ∈ s.removalEdits) (hne : e ≠ f) :
    Edit.Apart e f ∧ ¬ Edit.SamePlace e f := by
  have hover := (ending_le_beginning_iff hs hsolid).mpr ⟨hhead, hbehind⟩
  obtain ⟨t, ht, halias, rfl⟩ := mem_removalEdits.mp he
  obtain ⟨u, hu, hualias, rfl⟩ := mem_removalEdits.mp hf
  have htlt : s.beginning t < s.ending t :=
    Nat.lt_of_le_of_lt (beginning_le t) (Nat.lt_of_lt_of_le (hsolid.statements t ht).1 (le_ending t))
  have hult : s.beginning u < s.ending u :=
    Nat.lt_of_le_of_lt (beginning_le u) (Nat.lt_of_lt_of_le (hsolid.statements u hu).1 (le_ending u))
  have hapart : s.ending t ≤ s.beginning u ∨ s.ending u ≤ s.beginning t := by
    cases hs.nested.children.eq_or_apart ht hu with
    | inl heq =>
      subst heq
      exact absurd rfl hne
    | inr hapart =>
      cases hapart with
      | inl htu => exact .inl (hover t ht u hu halias hualias htu)
      | inr hut => exact .inr (hover u hu t ht hualias halias hut)
  unfold Edit.Apart Edit.SamePlace
  simp only
  omega

/-! ## What goes, and what stays -/

/-- Edits that are in range and keep apart are spliced into the source. -/
theorem edited_eq_splice (s : Script) {edits : List Edit}
    (hseparate : ∀ e ∈ edits, ∀ f ∈ edits, e ≠ f → Edit.Apart e f ∧ ¬ Edit.SamePlace e f)
    (hrange : ∀ e ∈ edits, e.InRange (Text.encode s.source).length) :
    ∃ changes : List Edit, (∀ e, e ∈ changes ↔ e ∈ edits) ∧ changes.Pairwise Edit.Precedes ∧
      s.edited edits = Edit.splice (Text.encode s.source) 0 changes := by
  have hmem : ∀ e, e ∈ edits.eraseDups ↔ e ∈ edits := fun _ => List.mem_eraseDups
  obtain ⟨changes, hperm, hsorted⟩ := Edit.exists_sorted (eraseDups_nodup edits)
    (fun e he f hf => hseparate e ((hmem e).mp he) f ((hmem f).mp hf))
    (fun e he => (hrange e ((hmem e).mp he)).ordered)
  have hchanges : ∀ e, e ∈ changes ↔ e ∈ edits := fun e => hperm.mem_iff.trans (hmem e)
  exact ⟨changes, hchanges, hsorted, Edit.applyAll_eq_splice hperm hsorted
    fun e he => hrange e ((hchanges e).mp he)⟩

theorem edited_removals (hs : s.Regular) (hsolid : s.SolidTokens)
    (hhead : ¬ s.DeclaresTwiceAtHead) (hbehind : ¬ s.DeclaresBehindBlank) :
    s.edited s.removalEdits = Edit.sparedFrom (Text.encode s.source) 0 s.removalEdits := by
  obtain ⟨changes, hmem, hsorted, hedited⟩ := s.edited_eq_splice
    (fun e he f hf => removalEdits_separate hs hsolid hhead hbehind he hf)
    (fun e he => removal_inRange hs he)
  have hrange : ∀ e ∈ changes, e.InRange (Text.encode s.source).length :=
    fun e he => removal_inRange hs ((hmem e).mp he)
  rw [hedited, Edit.splice_of_deletions (fun e he => (hrange e he).start) hsorted hrange,
    Edit.sparedFrom_congr hmem]
  intro e he
  obtain ⟨t, -, -, rfl⟩ := mem_removalEdits.mp ((hmem e).mp he)
  rfl

theorem apart_removal (hs : s.Regular) (hsolid : s.SolidTokens) {edits : List Edit}
    (h : s.allSiteEdits o = .ok edits) {e r : Edit} (he : e ∈ edits) (hr : r ∈ s.removalEdits) :
    Edit.Apart e r ∧ ¬ Edit.SamePlace e r := by
  obtain ⟨site, hsite, l, hl, he⟩ := (mem_allSiteEdits_iff h e).mp he
  obtain ⟨place, text, hedit⟩ := siteEdit_of_siteEdits hl
  obtain ⟨t, ht, halias, rfl⟩ := mem_removalEdits.mp hr
  have hsides := removal_apart_siteEdit hs hsolid ht halias hsite (hedit e he)
  have hordered := ((hedit e he).within hs hsite).2.1
  have hne := (hsolid.statements t ht).1
  have hbegin := beginning_le (s := s) t
  have hend := le_ending (s := s) t
  unfold Edit.Apart Edit.SamePlace
  simp only
  omega

/-- Of the edits of a conversion none takes a byte from where another one writes. -/
theorem edited_all (hs : s.Regular) (hsolid : s.SolidTokens) (hhead : ¬ s.DeclaresTwiceAtHead)
    (hbehind : ¬ s.DeclaresBehindBlank) {edits : List Edit} (h : s.allSiteEdits o = .ok edits) :
    ∃ changes : List Edit, (∀ e, e ∈ changes ↔ e ∈ edits ++ s.removalEdits) ∧
      changes.Pairwise Edit.Precedes ∧
      s.edited (edits ++ s.removalEdits) = Edit.splice (Text.encode s.source) 0 changes ∧
      (Edit.sparedFrom (Text.encode s.source) 0 (edits ++ s.removalEdits)).Sublist
        (s.edited (edits ++ s.removalEdits)) := by
  have hrange : ∀ e ∈ edits ++ s.removalEdits, e.InRange (Text.encode s.source).length := by
    intro e he
    cases List.mem_append.mp he with
    | inl he => exact allSiteEdits_inRange hs h he
    | inr he => exact removal_inRange hs he
  obtain ⟨changes, hmem, hsorted, hedited⟩ := s.edited_eq_splice (fun e he f hf hne => by
    cases List.mem_append.mp he with
    | inl he =>
      cases List.mem_append.mp hf with
      | inl hf => exact allSiteEdits_separate hs h he hf hne
      | inr hf => exact apart_removal hs hsolid h he hf
    | inr he =>
      cases List.mem_append.mp hf with
      | inl hf =>
        obtain ⟨hapart, hplace⟩ := apart_removal hs hsolid h hf he
        exact ⟨hapart.symm, fun hsame => hplace ⟨hsame.1.symm, hsame.2.symm⟩⟩
      | inr hf => exact removalEdits_separate hs hsolid hhead hbehind he hf hne) hrange
  have hrange' : ∀ e ∈ changes, e.InRange (Text.encode s.source).length :=
    fun e he => hrange e ((hmem e).mp he)
  refine ⟨changes, hmem, hsorted, hedited, ?_⟩
  rw [hedited, ← Edit.sparedFrom_congr hmem]
  exact Edit.sparedFrom_sublist (fun e he => (hrange' e he).start) hsorted hrange'

/-- The removals of old declarations lie in the source and away from the edits of functions,
and what they cover is the declarations and blanks beside them. They keep apart unless two
declarations stand at the head of the source or one of them ends in a blank before the
next; and then nothing but the bytes that edits cover goes. -/
theorem removals_delete_declarations (s : Script) (o : ConversionOptions) (hs : s.Regular)
    (hsolid : s.SolidTokens) :
    (∀ r ∈ s.removalEdits, r.InRange (Text.encode s.source).length ∧ r.replacement = []) ∧
    (∀ edits, s.allSiteEdits o = .ok edits → ∀ e ∈ edits, ∀ r ∈ s.removalEdits,
      Edit.Apart e r ∧ ¬ Edit.SamePlace e r) ∧
    (∀ t ∈ s.statements, s.isOldAlias t = true → ∀ j, t.start ≤ j → j < t.stop → s.Removed j) ∧
    (∀ j, s.Removed j → ∃ t ∈ s.statements, s.isOldAlias t = true ∧
      (t.start ≤ j ∧ j < t.stop ∨ BlankBeside s t j)) ∧
    (s.removalEdits.Pairwise Edit.Apart ↔
      ¬ s.DeclaresTwiceAtHead ∧ ¬ s.DeclaresBehindBlank) ∧
    (s.removalEdits.Pairwise Edit.Apart →
      s.edited s.removalEdits = Edit.sparedFrom (Text.encode s.source) 0 s.removalEdits ∧
      ∀ edits, s.allSiteEdits o = .ok edits → ∃ changes : List Edit,
        (∀ e, e ∈ changes ↔ e ∈ edits ++ s.removalEdits) ∧ changes.Pairwise Edit.Precedes ∧
        s.edited (edits ++ s.removalEdits) = Edit.splice (Text.encode s.source) 0 changes ∧
        (Edit.sparedFrom (Text.encode s.source) 0 (edits ++ s.removalEdits)).Sublist
          (s.edited (edits ++ s.removalEdits))) := by
  have hiff := removalEdits_pairwise_iff hs hsolid
  refine ⟨fun r hr => ⟨removal_inRange hs hr, ?_⟩, fun edits h e he r hr =>
    apart_removal hs hsolid h he hr, fun t ht halias j hfrom hto => ?_, ?_, hiff, fun hapart => ?_⟩
  · obtain ⟨t, -, -, rfl⟩ := mem_removalEdits.mp hr
    rfl
  · have hbegin := beginning_le (s := s) t
    have hend := le_ending (s := s) t
    exact ⟨_, mem_removalEdits.mpr ⟨t, ht, halias, rfl⟩, by simp only; omega, by simp only; omega⟩
  · rintro j ⟨r, hr, hfrom, hto⟩
    obtain ⟨t, ht, halias, rfl⟩ := mem_removalEdits.mp hr
    exact ⟨t, ht, halias, blankBeside_of_removal hs ht halias (Int.ofNat_le.mp hfrom)
      (Int.ofNat_lt.mp hto)⟩
  · obtain ⟨hhead, hbehind⟩ := hiff.mp hapart
    exact ⟨edited_removals hs hsolid hhead hbehind,
      fun edits h => edited_all hs hsolid hhead hbehind h⟩

set_option maxRecDepth 100000 in
theorem removals_delete_declarations_redeclared :
    (typedScript redeclaredSource).Regular ∧ (typedScript redeclaredSource).SolidTokens ∧
      (typedScript redeclaredSource).removalEdits.Pairwise Edit.Apart ∧
      (typedScript redeclaredSource).edited (typedScript redeclaredSource).removalEdits =
        bytesOf "a();\nfunction f() {}\n" := by
  obtain ⟨hregular, hsolid, hhead, hbehind, hspared⟩ : (typedScript redeclaredSource).Regular ∧
      (typedScript redeclaredSource).SolidTokens ∧
      ¬ (typedScript redeclaredSource).DeclaresTwiceAtHead ∧
      ¬ (typedScript redeclaredSource).DeclaresBehindBlank ∧
      Edit.sparedFrom (Text.encode (typedScript redeclaredSource).source) 0
        (typedScript redeclaredSource).removalEdits = bytesOf "a();\nfunction f() {}\n" := by
    decide +kernel
  obtain ⟨-, -, -, -, hiff, hedited⟩ :=
    removals_delete_declarations (typedScript redeclaredSource) .usual hregular hsolid
  have hapart := hiff.mpr ⟨hhead, hbehind⟩
  exact ⟨hregular, hsolid, hapart, (hedited hapart).1.trans hspared⟩

set_option maxRecDepth 100000 in
/-- Removals that are in the way of each other take bytes of another statement. -/
theorem removals_delete_statement :
    (typedScript twiceDeclaredSource).Regular ∧ (typedScript twiceDeclaredSource).SolidTokens ∧
      ¬ (typedScript twiceDeclaredSource).removalEdits.Pairwise Edit.Apart ∧
      (typedScript twiceDeclaredSource).edited (typedScript twiceDeclaredSource).removalEdits ≠
        Edit.sparedFrom (Text.encode (typedScript twiceDeclaredSource).source) 0
          (typedScript twiceDeclaredSource).removalEdits := by
  obtain ⟨hregular, hsolid, hhead, hspared⟩ : (typedScript twiceDeclaredSource).Regular ∧
      (typedScript twiceDeclaredSource).SolidTokens ∧
      (typedScript twiceDeclaredSource).DeclaresTwiceAtHead ∧
      Edit.sparedFrom (Text.encode (typedScript twiceDeclaredSource).source) 0
        (typedScript twiceDeclaredSource).removalEdits = bytesOf "\nxfoo();\n" := by
    decide +kernel
  refine ⟨hregular, hsolid, fun hapart => ?_, ?_⟩
  · exact ((removalEdits_pairwise_iff hregular hsolid).mp hapart).1 hhead
  · rw [hspared, twiceDeclaredSource_edited.2]
    decide

end SceneSync.Script
