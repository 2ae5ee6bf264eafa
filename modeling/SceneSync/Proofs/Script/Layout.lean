import Mathlib
import SceneSync.Proofs.Script.TypedConversion

/-!
# The layout of a converted script

A typed conversion keeps the statements of its source in their order, each with its
own edits, and what stands between them. What an earlier conversion declared goes, with
the blanks before it and, at the head of the source, with those behind it.

Two such declarations at the head are one too many: the blanks between them are taken
twice, and the second time they are bytes of what follows.
-/

namespace SceneSync.Script

open Script.Tree

variable {s : Script} {o : ConversionOptions}

/-! ## Blank bytes -/

theorem isBlankByte_of_high {b : UInt8} (h : 128 ≤ b.toNat) : isBlankByte b = false := by
  simp [isBlankByte, ← UInt8.toNat_inj]
  omega

theorem low_of_isBlankByte {b : UInt8} (h : isBlankByte b = true) : b.toNat < 128 := by
  by_contra hhigh
  rw [isBlankByte_of_high (by omega)] at h
  cases h

/-- The bytes without the blanks at their end. -/
def trimBlanks (bytes : List UInt8) : List UInt8 := bytes.rdropWhile isBlankByte

theorem trimBlanks_append (bytes : List UInt8) :
    ∃ blanks, bytes = trimBlanks bytes ++ blanks ∧ ∀ b ∈ blanks, isBlankByte b = true := by
  refine ⟨bytes.rtakeWhile isBlankByte, ?_, fun b hb => List.mem_rtakeWhile_imp hb⟩
  rw [trimBlanks, List.rdropWhile, List.rtakeWhile, ← List.reverse_append,
    List.takeWhile_append_dropWhile, List.reverse_reverse]

theorem trimBlanks_eq_nil_iff {bytes : List UInt8} :
    trimBlanks bytes = [] ↔ ∀ b ∈ bytes, isBlankByte b = true :=
  List.rdropWhile_eq_nil_iff

/-- A byte that is no blank stays. -/
theorem lt_length_trimBlanks {bytes : List UInt8} {j : Nat} {b : UInt8} (h : bytes[j]? = some b)
    (hb : isBlankByte b = false) : j < (trimBlanks bytes).length := by
  obtain ⟨blanks, hsplit, hblanks⟩ := trimBlanks_append bytes
  by_contra hle
  rw [hsplit, List.getElem?_append_right (by omega)] at h
  rw [hblanks b (List.mem_of_getElem? h)] at hb
  cases hb

/-- What starts before the blanks at the end is trimmed as the whole is. -/
theorem trimBlanks_drop {bytes : List UInt8} {pos : Nat} (h : pos ≤ (trimBlanks bytes).length) :
    trimBlanks (bytes.drop pos) = (trimBlanks bytes).drop pos := by
  obtain ⟨blanks, hsplit, hblanks⟩ := trimBlanks_append bytes
  have hdrop : bytes.drop pos = (trimBlanks bytes).drop pos ++ blanks := by
    conv_lhs => rw [hsplit]
    rw [List.drop_append_of_le_length h]
  have hlast : ((trimBlanks bytes).drop pos).rdropWhile isBlankByte =
      (trimBlanks bytes).drop pos := by
    rw [List.rdropWhile_eq_self_iff]
    intro hne
    rw [List.getLast_drop]
    exact List.rdropWhile_last_not _ _ _
  rw [hdrop, trimBlanks, List.rdropWhile, List.reverse_append,
    List.dropWhile_append_of_pos (by simpa using hblanks)]
  exact hlast

/-- How many blanks begin at a byte. -/
def blanksAt (bytes : List UInt8) (n : Nat) : Nat := ((bytes.drop n).takeWhile isBlankByte).length

theorem blanksAt_le {bytes : List UInt8} {n j : Nat} {b : UInt8} (h : bytes[j]? = some b)
    (hb : isBlankByte b = false) (hn : n ≤ j) : n + blanksAt bytes n ≤ j := by
  by_contra hlt
  have hj : (bytes.drop n)[j - n]? = some b := by
    rw [List.getElem?_drop, Nat.add_sub_cancel' hn, h]
  have hin : j - n < ((bytes.drop n).takeWhile isBlankByte).length := by
    rw [blanksAt] at hlt
    omega
  rw [← List.takeWhile_append_dropWhile (p := isBlankByte) (l := bytes.drop n),
    List.getElem?_append_left hin] at hj
  rw [List.mem_takeWhile_imp (List.mem_of_getElem? hj)] at hb
  cases hb

theorem blanksAt_add_le {bytes : List UInt8} {n : Nat} (h : n ≤ bytes.length) :
    n + blanksAt bytes n ≤ bytes.length := by
  have hle := (List.takeWhile_sublist isBlankByte (l := bytes.drop n)).length_le
  rw [List.length_drop] at hle
  rw [blanksAt]
  omega

/-! ## Blanks are characters -/

theorem boundary_add_blanks {cs : List Char} {n : Nat} (h : Text.Boundary cs n) :
    Text.Boundary cs (n + blanksAt (Text.encode cs) n) := by
  rw [blanksAt]
  generalize hbs : (Text.encode cs).drop n = bs
  induction bs generalizing n with
  | nil => exact h
  | cons b bs ih =>
    rw [List.takeWhile_cons]
    split
    · rename_i hblank
      have hb : (Text.encode cs)[n]? = some b := by
        have := congrArg (·[0]?) hbs
        simpa [List.getElem?_drop] using this
      have hrest : (Text.encode cs).drop (n + 1) = bs := by
        rw [← List.drop_drop, hbs, List.drop_one, List.tail_cons]
      have hnext := ih (h.succ hb (low_of_isBlankByte hblank)) hrest
      rwa [List.length_cons, Nat.add_comm _ 1, ← Nat.add_assoc]
    · exact h

theorem trimBlanks_encode (cs : List Char) :
    ∃ front, front <+: cs ∧ trimBlanks (Text.encode cs) = Text.encode front := by
  induction cs using List.reverseRecOn with
  | nil => exact ⟨[], List.prefix_rfl, rfl⟩
  | append_singleton cs c ih =>
    have henc : Text.encode (cs ++ [c]) = Text.encode cs ++ String.utf8EncodeChar c := by
      rw [Text.encode_append]
      simp [Text.encode]
    have hlast (bs : List UInt8) {b : UInt8} (h : String.utf8EncodeChar c = bs ++ [b])
        (hb : isBlankByte b = false) :
        trimBlanks (Text.encode (cs ++ [c])) = Text.encode (cs ++ [c]) := by
      rw [henc, h, ← List.append_assoc, trimBlanks, List.rdropWhile_concat_neg _ _ _ (by simp [hb])]
    rcases Text.utf8EncodeChar_last c with ⟨-, hone⟩ | ⟨bs, b, hmany, hb⟩
    · cases hb : isBlankByte (UInt8.ofNat c.toNat) with
      | true =>
        obtain ⟨front, hfront, htrim⟩ := ih
        refine ⟨front, hfront.trans (List.prefix_append _ _), ?_⟩
        rw [henc, hone, trimBlanks, List.rdropWhile_concat_pos _ _ _ hb]
        exact htrim
      | false => exact ⟨_, List.prefix_rfl, hlast [] hone hb⟩
    · exact ⟨_, List.prefix_rfl, hlast bs hmany (isBlankByte_of_high hb)⟩

theorem boundary_trimBlanks {cs : List Char} {n : Nat} (h : Text.Boundary cs n) :
    Text.Boundary cs (trimBlanks ((Text.encode cs).take n)).length := by
  obtain ⟨front, back, rfl, rfl⟩ := h
  rw [Text.encode_append, List.take_left]
  obtain ⟨kept, ⟨rest, rfl⟩, htrim⟩ := trimBlanks_encode front
  exact ⟨kept, rest ++ back, by rw [List.append_assoc], by rw [htrim]⟩

/-! ## The layout -/

/-- A statement begins and ends with a token, and so with no blank. -/
def Tight (s : Script) : Prop :=
  ∀ t ∈ s.statements, t.start < t.stop ∧
    (∀ b ∈ (Text.encode s.source)[t.start]?, isBlankByte b = false) ∧
    ∀ b ∈ (Text.encode s.source)[t.stop - 1]?, isBlankByte b = false

/-- Two declarations of an earlier conversion at the head of the source, with nothing but
blanks before and between them. -/
def DeclaresTwiceAtHead (s : Script) : Prop :=
  ∃ t ∈ s.statements, ∃ u ∈ s.statements,
    s.isOldAlias t = true ∧ s.isOldAlias u = true ∧ t.stop < u.start ∧
      (∀ b ∈ (Text.encode s.source).take t.start, isBlankByte b = true) ∧
      ∀ b ∈ ((Text.encode s.source).take u.start).drop t.stop, isBlankByte b = true

instance (s : Script) : Decidable s.Tight :=
  inferInstanceAs (Decidable (∀ t ∈ s.statements, _))

instance (s : Script) : Decidable s.DeclaresTwiceAtHead :=
  inferInstanceAs (Decidable (∃ t ∈ s.statements, _))

/-- The edits that a statement gets when it is a function site. -/
def editsOf (s : Script) (o : ConversionOptions) (t : Tree) : List Edit :=
  match s.siteOf? t with
  | some site => (s.siteEdits o site).toOption.getD []
  | none => []

/-- The bytes of a statement with its own edits made in them. -/
def statementAfter (s : Script) (o : ConversionOptions) (t : Tree) : List UInt8 :=
  Edit.applyAll (((Text.encode s.source).take t.stop).drop t.start)
    ((s.editsOf o t).eraseDups.map (Edit.shift t.start))

/-- What a conversion leaves of the source from a byte on, statement by statement. -/
def laidOut (s : Script) (o : ConversionOptions) : Nat → List Tree → List UInt8
  | pos, [] => (Text.encode s.source).drop pos
  | pos, t :: ts =>
    let gap := ((Text.encode s.source).take t.start).drop pos
    if s.isOldAlias t = true then
      if pos = 0 ∧ trimBlanks gap = [] then
        laidOut s o (t.stop + blanksAt (Text.encode s.source) t.stop) ts
      else trimBlanks gap ++ laidOut s o t.stop ts
    else gap ++ s.statementAfter o t ++ laidOut s o t.stop ts

/-! ## What a statement takes up -/

/-- The first byte that changes with a statement. -/
def beginning (s : Script) (t : Tree) : Nat :=
  if s.isOldAlias t = true then (trimBlanks ((Text.encode s.source).take t.start)).length
  else t.start

/-- The byte behind the last one that changes with a statement. -/
def ending (s : Script) (t : Tree) : Nat :=
  if s.isOldAlias t = true ∧ trimBlanks ((Text.encode s.source).take t.start) = [] then
    t.stop + blanksAt (Text.encode s.source) t.stop
  else t.stop

theorem removal_of_alias {t : Tree} (h : s.isOldAlias t = true) :
    removal (Text.encode s.source) t = ⟨s.beginning t, s.ending t, []⟩ := by
  have hlength : ((Text.encode s.source).take t.start).length -
      (((Text.encode s.source).take t.start).reverse.takeWhile isBlankByte).length =
      (trimBlanks ((Text.encode s.source).take t.start)).length := by
    have hsum := congrArg List.length (List.takeWhile_append_dropWhile (p := isBlankByte)
      (l := ((Text.encode s.source).take t.start).reverse))
    rw [List.length_append, List.length_reverse] at hsum
    rw [trimBlanks, List.rdropWhile, List.length_reverse]
    omega
  simp only [removal, hlength, beginning, ending, h, true_and, ↓reduceIte, beq_iff_eq,
    List.length_eq_zero_iff, blanksAt]

theorem beginning_le (t : Tree) :
    s.beginning t ≤ t.start := by
  rw [beginning]
  split
  · have hle := (List.rdropWhile_prefix isBlankByte (l := (Text.encode s.source).take t.start)).length_le
    rw [List.length_take] at hle
    rw [trimBlanks]
    omega
  · exact Nat.le_refl _

theorem beginning_of_kept {t : Tree} (h : s.isOldAlias t ≠ true) : s.beginning t = t.start := by
  rw [beginning, if_neg h]

theorem ending_of_kept {t : Tree} (h : s.isOldAlias t ≠ true) : s.ending t = t.stop := by
  rw [ending, if_neg fun halias => h halias.1]

theorem le_ending (t : Tree) : t.stop ≤ s.ending t := by
  rw [ending]
  split <;> omega

theorem statement_bounds (hs : s.Regular) {t : Tree} (ht : t ∈ s.statements) :
    t.start ≤ t.stop ∧ t.stop ≤ (Text.encode s.source).length :=
  ⟨(hs.nested.children.mem ht).2.1.start_le_stop,
    Text.boundary_le (hs.boundary (contains_child ht)).2⟩

theorem ending_le (hs : s.Regular) {t : Tree} (ht : t ∈ s.statements) :
    s.ending t ≤ (Text.encode s.source).length := by
  have hstop := (statement_bounds hs ht).2
  rw [ending]
  split
  · exact blanksAt_add_le hstop
  · exact hstop

theorem exists_byte {bytes : List UInt8} {j : Nat} (h : j < bytes.length)
    (hb : ∀ b ∈ bytes[j]?, isBlankByte b = false) :
    ∃ b, bytes[j]? = some b ∧ isBlankByte b = false :=
  ⟨bytes[j], List.getElem?_eq_getElem h, hb _ (List.getElem?_eq_getElem h)⟩

/-- A byte before a statement that is no blank does not change with it. -/
theorem lt_beginning {u : Tree} {j : Nat} {b : UInt8} (hj : j < u.start)
    (h : (Text.encode s.source)[j]? = some b) (hb : isBlankByte b = false) :
    j < s.beginning u := by
  rw [beginning]
  split
  · exact lt_length_trimBlanks (by rwa [List.getElem?_take_of_lt hj]) hb
  · exact hj

/-- What changes with a statement is over before the next one begins unless the two are
declarations at the head. -/
theorem ending_le_beginning_of_stop (hhead : ¬ s.DeclaresTwiceAtHead) {t u : Tree}
    (ht : t ∈ s.statements) (hu : u ∈ s.statements) (htu : t.stop ≤ u.start)
    (hstop : t.stop ≤ s.beginning u) {c : UInt8}
    (hc : (Text.encode s.source)[u.start]? = some c) (hcblank : isBlankByte c = false) :
    s.ending t ≤ s.beginning u := by
  rw [ending]
  split
  · rename_i hcond
    obtain ⟨halias, hbefore⟩ := hcond
    by_cases hualias : s.isOldAlias u = true
    · by_cases hadjacent : t.stop = u.start
      · exact Nat.le_trans (blanksAt_le hc hcblank htu) (by omega)
      · -- Something other than blanks stands between the two declarations.
        have hbetween : ¬ ∀ b ∈ ((Text.encode s.source).take u.start).drop t.stop,
            isBlankByte b = true := fun hall => hhead ⟨t, ht, u, hu, halias, hualias, by omega,
              trimBlanks_eq_nil_iff.mp hbefore, hall⟩
        push Not at hbetween
        obtain ⟨d, hd, hdblank⟩ := hbetween
        obtain ⟨i, hi⟩ := List.getElem?_of_mem hd
        rw [List.getElem?_drop] at hi
        have hlt : t.stop + i < u.start := by
          by_contra hge
          rw [List.getElem?_take_eq_none (by omega)] at hi
          cases hi
        rw [List.getElem?_take_of_lt hlt] at hi
        have hle := blanksAt_le hi (by simpa using hdblank) (Nat.le_add_right t.stop i)
        have := lt_beginning hlt hi (by simpa using hdblank)
        omega
    · rw [beginning_of_kept hualias]
      exact blanksAt_le hc hcblank htu
  · exact hstop

/-- A statement is over before the next one begins. -/
theorem ending_le_beginning (hs : s.Regular) (htight : s.Tight)
    (hhead : ¬ s.DeclaresTwiceAtHead) {t u : Tree} (ht : t ∈ s.statements)
    (hu : u ∈ s.statements) (htu : t.stop ≤ u.start) : s.ending t ≤ s.beginning u := by
  obtain ⟨htne, -, htlast⟩ := htight t ht
  obtain ⟨hune, hufirst, -⟩ := htight u hu
  have hulength := (statement_bounds hs hu).2
  obtain ⟨b, hb, hblank⟩ := exists_byte (by omega) htlast
  obtain ⟨c, hc, hcblank⟩ := exists_byte (by omega) hufirst
  have hbegin : t.stop - 1 < s.beginning u := lt_beginning (by omega) hb hblank
  exact ending_le_beginning_of_stop hhead ht hu htu (by omega) hc hcblank

/-! ## The edits of a statement -/

/-- What is edited in a statement, or in place of it. -/
def ownEdits (s : Script) (o : ConversionOptions) (t : Tree) : List Edit :=
  if s.isOldAlias t = true then [removal (Text.encode s.source) t] else s.editsOf o t

theorem ownEdits_of_alias {t : Tree} (h : s.isOldAlias t = true) :
    s.ownEdits o t = [⟨s.beginning t, s.ending t, []⟩] := by
  rw [ownEdits, if_pos h, removal_of_alias h]

/-- The edits of a conversion are those of the statements. -/
theorem mem_edits_iff {edits : List Edit} (h : s.allSiteEdits o = .ok edits) (e : Edit) :
    e ∈ (edits ++ s.removalEdits).eraseDups ↔ ∃ t ∈ s.statements, e ∈ s.ownEdits o t := by
  rw [List.mem_eraseDups, List.mem_append, mem_allSiteEdits_iff h, removalEdits, List.mem_map]
  constructor
  · rintro (⟨site, hsite, l, hl, he⟩ | ⟨t, ht, rfl⟩)
    · obtain ⟨t, ht, hsiteOf⟩ := mem_sites hsite
      have halias : s.isOldAlias t ≠ true := fun h => by simp [siteOf?_of_alias h] at hsiteOf
      refine ⟨t, ht, ?_⟩
      rw [ownEdits, if_neg halias, editsOf, hsiteOf]
      simpa [hl, Except.toOption] using he
    · obtain ⟨ht, halias⟩ := List.mem_filter.mp ht
      exact ⟨t, ht, by simp [ownEdits, halias]⟩
  · rintro ⟨t, ht, he⟩
    rw [ownEdits] at he
    split at he
    · exact .inr ⟨t, List.mem_filter.mpr ⟨ht, ‹_›⟩, (List.mem_singleton.mp he).symm⟩
    · rw [editsOf] at he
      split at he
      · rename_i site hsiteOf
        have hsite : site ∈ s.sites := List.mem_filterMap.mpr ⟨t, ht, hsiteOf⟩
        obtain ⟨l, hl⟩ := siteEdits_ok h hsite
        exact .inl ⟨site, hsite, l, hl, by simpa [hl, Except.toOption] using he⟩
      · cases he

/-- The edits of a statement from left to right, within what it takes up. -/
structure Changes (s : Script) (o : ConversionOptions) (t : Tree) (changes : List Edit) :
    Prop where
  perm : changes.Perm (s.ownEdits o t).eraseDups
  sorted : changes.Pairwise Edit.Precedes
  within : ∀ e ∈ changes, (s.beginning t : Int) ≤ e.start ∧ e.start ≤ e.stop ∧
    e.stop ≤ s.ending t ∧ e.start < s.ending t
  encoded : ∀ e ∈ changes, Text.Boundary s.source e.start.toNat ∧
    Text.Boundary s.source e.stop.toNat ∧ ∃ ds, e.replacement = Text.encode ds

theorem exists_changes_of_alias (hs : s.Regular) (htight : s.Tight) {t : Tree}
    (ht : t ∈ s.statements) (halias : s.isOldAlias t = true) :
    s.Changes o t [⟨s.beginning t, s.ending t, []⟩] := by
  have hbegin := beginning_le (s := s) t
  have hend := le_ending (s := s) t
  have hne := (htight t ht).1
  have hb := hs.boundary (contains_child ht)
  refine ⟨?_, List.pairwise_singleton _ _, ?_, ?_⟩
  · rw [ownEdits_of_alias halias, List.eraseDups_cons]
    exact List.Perm.refl _
  · rintro e he
    rw [List.mem_singleton.mp he]
    simp only
    omega
  · rintro e he
    rw [List.mem_singleton.mp he]
    refine ⟨?_, ?_, [], rfl⟩
    · rw [Int.toNat_natCast, beginning, if_pos halias]
      exact boundary_trimBlanks hb.1
    · rw [Int.toNat_natCast, ending]
      split
      · exact boundary_add_blanks hb.2
      · exact hb.2

theorem exists_changes_of_kept (hs : s.Regular) {edits : List Edit}
    (h : s.allSiteEdits o = .ok edits) {t : Tree} (ht : t ∈ s.statements)
    (halias : s.isOldAlias t ≠ true) : ∃ changes, s.Changes o t changes := by
  have hown : s.ownEdits o t = s.editsOf o t := by rw [ownEdits, if_neg halias]
  have hbegin := beginning_of_kept halias
  have hend := ending_of_kept halias
  cases hsiteOf : s.siteOf? t with
  | none => exact ⟨[], by simp [hown, editsOf, hsiteOf], .nil, by simp, by simp⟩
  | some site =>
    have hsite : site ∈ s.sites := List.mem_filterMap.mpr ⟨t, ht, hsiteOf⟩
    obtain ⟨l, hl⟩ := siteEdits_ok h hsite
    obtain ⟨place, text, hedit⟩ := siteEdit_of_siteEdits hl
    have heq : s.ownEdits o t = l := by simp [hown, editsOf, hsiteOf, hl, Except.toOption]
    have hmem : ∀ e ∈ l.eraseDups, SiteEdit o.context site place text e :=
      fun e he => hedit e (List.mem_eraseDups.mp he)
    obtain ⟨changes, hperm, hsorted⟩ := Edit.exists_sorted (eraseDups_nodup l)
      (fun e he f hf hne => (hmem e he).separate hs hsite (hmem f hf) hne)
      (fun e he => ((hmem e he).within hs hsite).2.1)
    obtain ⟨h1, -, h2⟩ := ((hs.nested.children.mem ht).2.1).contains (siteOf?_contains hsiteOf)
    refine ⟨changes, heq ▸ hperm, hsorted, fun e he => ?_, fun e he => ?_⟩
    · have := (hmem e (hperm.mem_iff.mp he)).within hs hsite
      rw [hbegin, hend]
      omega
    · exact (hmem e (hperm.mem_iff.mp he)).boundary hs hsite

theorem exists_changes_of_statement (hs : s.Regular) (htight : s.Tight) {edits : List Edit}
    (h : s.allSiteEdits o = .ok edits) {t : Tree} (ht : t ∈ s.statements) :
    ∃ changes, s.Changes o t changes := by
  by_cases halias : s.isOldAlias t = true
  · exact ⟨_, exists_changes_of_alias hs htight ht halias⟩
  · exact exists_changes_of_kept hs h ht halias

/-- A statement that is kept is spliced by itself. -/
theorem Changes.statementAfter_eq (hs : s.Regular) {t : Tree} (ht : t ∈ s.statements)
    (halias : s.isOldAlias t ≠ true) {changes : List Edit} (h : s.Changes o t changes) :
    s.statementAfter o t =
      Edit.splice ((Text.encode s.source).take t.stop) t.start changes := by
  have hbegin := beginning_of_kept halias
  have hend := ending_of_kept halias
  have hbounds := statement_bounds hs ht
  have hwithin := h.within
  rw [hbegin, hend] at hwithin
  have hperm : (changes.map (Edit.shift t.start)).Perm
      ((s.editsOf o t).eraseDups.map (Edit.shift t.start)) := by
    have := h.perm
    rw [ownEdits, if_neg halias] at this
    exact this.map _
  rw [statementAfter, Edit.applyAll_eq_splice hperm]
  · exact Edit.splice_drop _ _ 0 fun e he => ⟨(hwithin e he).1, (hwithin e he).2.1⟩
  · refine List.pairwise_map.mpr (h.sorted.imp fun {e f} hef => ?_)
    simp only [Edit.Precedes, Edit.SamePlace, Edit.shift] at hef ⊢
    omega
  · intro e he
    obtain ⟨f, hf, rfl⟩ := List.mem_map.mp he
    have := hwithin f hf
    rw [List.length_drop, List.length_take]
    refine ⟨?_, ?_, ?_⟩ <;> simp only [Edit.shift] <;> omega

/-! ## The splice of all statements -/

/-- What stands before a declaration stays without the blanks at its end. -/
theorem gap_of_alias {t : Tree} (halias : s.isOldAlias t = true) {pos : Nat}
    (hpos : pos ≤ s.beginning t) : ((Text.encode s.source).take (s.beginning t)).drop pos =
      trimBlanks (((Text.encode s.source).take t.start).drop pos) := by
  rw [beginning, if_pos halias] at hpos ⊢
  rw [trimBlanks_drop hpos]
  congr 1
  have hprefix := (List.rdropWhile_prefix isBlankByte
    (l := (Text.encode s.source).take t.start)).trans (List.take_prefix _ _)
  exact (List.prefix_iff_eq_take.mp hprefix).symm

theorem ending_of_alias {t : Tree} (halias : s.isOldAlias t = true) {pos : Nat}
    (hpos : pos ≤ s.beginning t) : s.ending t =
      if pos = 0 ∧ trimBlanks (((Text.encode s.source).take t.start).drop pos) = [] then
        t.stop + blanksAt (Text.encode s.source) t.stop
      else t.stop := by
  rw [beginning, if_pos halias] at hpos
  have hiff : (pos = 0 ∧ trimBlanks (((Text.encode s.source).take t.start).drop pos) = []) ↔
      trimBlanks ((Text.encode s.source).take t.start) = [] := by
    constructor
    · rintro ⟨rfl, h⟩
      exact h
    · intro h
      rw [h, List.length_nil, Nat.le_zero] at hpos
      subst hpos
      exact ⟨rfl, h⟩
  simp only [ending, halias, true_and, hiff]

theorem Changes.splice_alias {t : Tree} (halias : s.isOldAlias t = true) {changes : List Edit}
    (h : s.Changes o t changes) {pos : Nat} (hpos : pos ≤ s.beginning t) (later : List Edit) :
    Edit.splice (Text.encode s.source) pos (changes ++ later) =
      trimBlanks (((Text.encode s.source).take t.start).drop pos) ++
        Edit.splice (Text.encode s.source) (s.ending t) later := by
  obtain rfl : changes = [⟨s.beginning t, s.ending t, []⟩] := by
    have hperm := h.perm
    rw [ownEdits_of_alias halias, List.eraseDups_cons] at hperm
    exact List.perm_singleton.mp hperm
  rw [List.singleton_append, Edit.splice]
  simp only [Int.toNat_natCast, List.append_nil]
  rw [gap_of_alias halias hpos]

theorem Changes.splice_kept (hs : s.Regular) {t : Tree} (ht : t ∈ s.statements)
    (halias : s.isOldAlias t ≠ true) {changes : List Edit} (h : s.Changes o t changes) {pos : Nat}
    (hpos : pos ≤ t.start) {later : List Edit} (hlater : ∀ f ∈ later, (t.stop : Int) ≤ f.start) :
    Edit.splice (Text.encode s.source) pos (changes ++ later) =
      ((Text.encode s.source).take t.start).drop pos ++ s.statementAfter o t ++
        Edit.splice (Text.encode s.source) t.stop later := by
  have hwithin := h.within
  rw [beginning_of_kept halias, ending_of_kept halias] at hwithin
  have hbounds := statement_bounds hs ht
  have hgap : Edit.splice ((Text.encode s.source).take t.stop) pos ([] ++ changes) = _ :=
    Edit.splice_append hpos .nil (by simp) fun e he => (hwithin e he).1
  rw [List.nil_append, Edit.splice, List.take_take, Nat.min_eq_left hbounds.1,
    ← h.statementAfter_eq hs ht halias] at hgap
  rw [Edit.splice_append (Nat.le_trans hpos hbounds.1) h.sorted ?_ hlater, hgap]
  intro e he
  have := hwithin e he
  exact ⟨by omega, by omega, by omega⟩

/-- Statement by statement, a splice is the layout. -/
theorem splice_eq_laidOut (hs : s.Regular) (htight : s.Tight) (hhead : ¬ s.DeclaresTwiceAtHead)
    (changes : Tree → List Edit) (hchanges : ∀ t ∈ s.statements, s.Changes o t (changes t))
    (ts : List Tree) (hmem : ∀ t ∈ ts, t ∈ s.statements)
    (hsorted : ts.Pairwise fun t u => t.stop ≤ u.start) (pos : Nat)
    (hpos : ∀ t ∈ ts, pos ≤ s.beginning t) :
    Edit.splice (Text.encode s.source) pos (ts.flatMap changes) = s.laidOut o pos ts := by
  induction ts generalizing pos with
  | nil => rfl
  | cons t ts ih =>
    obtain ⟨hnext, hsorted⟩ := List.pairwise_cons.mp hsorted
    have ht := hmem t (by simp)
    have htpos := hpos t (by simp)
    have hafter : ∀ u ∈ ts, s.ending t ≤ s.beginning u := fun u hu =>
      ending_le_beginning hs htight hhead ht (hmem u (by simp [hu])) (hnext u hu)
    have hrest := ih (fun u hu => hmem u (by simp [hu])) hsorted (s.ending t) hafter
    rw [List.flatMap_cons, laidOut]
    by_cases halias : s.isOldAlias t = true
    · rw [if_pos halias, (hchanges t ht).splice_alias halias htpos, hrest,
        ending_of_alias halias htpos]
      split
      · rename_i hcond
        rw [hcond.2, List.nil_append]
      · rfl
    · rw [ending_of_kept halias] at hrest hafter
      rw [beginning_of_kept halias] at htpos
      rw [if_neg halias, (hchanges t ht).splice_kept hs ht halias htpos, hrest]
      intro f hf
      obtain ⟨u, hu, hf⟩ := List.mem_flatMap.mp hf
      have h1 := hafter u hu
      have h2 := ((hchanges u (hmem u (by simp [hu]))).within f hf).1
      omega

/-- The changes of all statements, one after the other, are in order and apart. -/
theorem changes_sorted (hs : s.Regular) (htight : s.Tight) (hhead : ¬ s.DeclaresTwiceAtHead)
    {changes : Tree → List Edit} (hchanges : ∀ t ∈ s.statements, s.Changes o t (changes t)) :
    (s.statements.flatMap changes).Pairwise Edit.Precedes := by
  refine List.pairwise_flatMap.mpr ⟨fun t ht => (hchanges t ht).sorted, ?_⟩
  refine hs.nested.children.pairwise.imp_of_mem fun {t u} ht hu htu e he f hf => ?_
  have hle := ending_le_beginning hs htight hhead ht hu htu
  have h1 := (hchanges t ht).within e he
  have h2 := (hchanges u hu).within f hf
  unfold Edit.Precedes Edit.SamePlace
  omega

theorem edited_eq_laidOut (hs : s.Regular) (htight : s.Tight) (hhead : ¬ s.DeclaresTwiceAtHead)
    {edits : List Edit} (h : s.allSiteEdits o = .ok edits) :
    s.edited (edits ++ s.removalEdits) = s.laidOut o 0 s.statements ∧
      ∃ ds, s.laidOut o 0 s.statements = Text.encode ds := by
  have hexists : ∀ t ∈ s.statements, ∃ changes, s.Changes o t changes :=
    fun t ht => exists_changes_of_statement hs htight h ht
  choose! changes hchanges using hexists
  have hsorted := changes_sorted hs htight hhead hchanges
  have hmem : ∀ e, e ∈ s.statements.flatMap changes ↔
      e ∈ (edits ++ s.removalEdits).eraseDups := by
    intro e
    rw [mem_edits_iff h, List.mem_flatMap]
    refine exists_congr fun t => and_congr_right fun ht => ?_
    rw [(hchanges t ht).perm.mem_iff, List.mem_eraseDups]
  have hnodup : (s.statements.flatMap changes).Nodup :=
    hsorted.imp fun hef heq => hef.2 ⟨congrArg Edit.start heq, congrArg Edit.stop heq⟩
  have hperm := (List.perm_ext_iff_of_nodup hnodup (eraseDups_nodup _)).mpr hmem
  have hrange : ∀ e ∈ s.statements.flatMap changes, e.InRange (Text.encode s.source).length := by
    intro e he
    obtain ⟨t, ht, he⟩ := List.mem_flatMap.mp he
    have := (hchanges t ht).within e he
    have := ending_le hs ht
    exact ⟨by omega, by omega, by omega⟩
  have hlaid := splice_eq_laidOut hs htight hhead changes hchanges s.statements (fun _ h => h)
    hs.nested.children.pairwise 0 (fun _ _ => Nat.zero_le _)
  refine ⟨by rw [edited, Edit.applyAll_eq_splice hperm hsorted hrange, hlaid], ?_⟩
  rw [← hlaid]
  refine Edit.splice_encoded (Text.boundary_zero _) (fun e he => ?_) fun e he => ?_
  · obtain ⟨t, ht, he⟩ := List.mem_flatMap.mp he
    obtain ⟨h1, h2, -⟩ := (hchanges t ht).encoded e he
    exact ⟨h1, h2⟩
  · obtain ⟨t, ht, he⟩ := List.mem_flatMap.mp he
    exact ((hchanges t ht).encoded e he).2.2

/-- A script with a declaration of an earlier conversion between two statements. -/
def redeclaredSource : String := "a();\ntype SceneExtensions = {};\nfunction f() {}\n"

def redeclaredConverted : Converted :=
  ⟨"a();\nexport function f(scene: Phaser.Scene | any) {}\n".toList, [], []⟩

theorem mergeSort_pair (e f : Edit) : [e, f].mergeSort Edit.notBefore =
    if Edit.notBefore e f then [e, f] else [f, e] := by
  simp [List.mergeSort, List.MergeSort.Internal.splitInTwo, List.merge]

/-- A script with two declarations at its head. -/
def twiceDeclaredSource : String :=
  "type SceneExtensions = {};\n\ntype SceneExtensions = {};\nxfoo();\n"

set_option maxRecDepth 100000 in
theorem twiceDeclaredSource_edited :
    (typedScript twiceDeclaredSource).removalEdits = [⟨0, 28, []⟩, ⟨26, 54, []⟩] ∧
      (typedScript twiceDeclaredSource).edited (typedScript twiceDeclaredSource).removalEdits =
        bytesOf "foo();\n" := by
  let removals : List Edit := [⟨0, 28, []⟩, ⟨26, 54, []⟩]
  obtain ⟨hremovals, hdups, happly⟩ :
      (typedScript twiceDeclaredSource).removalEdits = removals ∧
      removals.eraseDups = removals ∧
      removals.reverse.foldl Edit.apply (Text.encode (typedScript twiceDeclaredSource).source) =
        bytesOf "foo();\n" := by decide +kernel
  have hsorted : removals.mergeSort Edit.notBefore = removals.reverse := by
    rw [mergeSort_pair]
    rfl
  refine ⟨hremovals, ?_⟩
  rw [hremovals, edited, hdups, Edit.applyAll, hsorted, happly]

end SceneSync.Script
