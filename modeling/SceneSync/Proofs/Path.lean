import Mathlib
import SceneSync.Path

/-!
# Normal paths

An absolute path whose names are those of files is its own absolute form, and its
text is read back as the same path.
-/

namespace SceneSync.Path

/-- A name that a file can have. -/
structure ValidName (n : String) : Prop where
  nonempty : n ≠ ""
  notHere : n ≠ "."
  notUp : n ≠ ".."
  noSlash : '/' ∉ n.toList

structure Normal (p : Path) : Prop where
  absolute : p.isAbsolute
  names : ∀ n ∈ p.names, ValidName n

instance (n : String) : Decidable (ValidName n) :=
  decidable_of_iff (n ≠ "" ∧ n ≠ "." ∧ n ≠ ".." ∧ '/' ∉ n.toList)
    ⟨fun ⟨h1, h2, h3, h4⟩ => ⟨h1, h2, h3, h4⟩, fun ⟨h1, h2, h3, h4⟩ => ⟨h1, h2, h3, h4⟩⟩

instance (p : Path) : Decidable p.Normal :=
  decidable_of_iff (p.isAbsolute ∧ ∀ n ∈ p.names, ValidName n)
    ⟨fun ⟨h1, h2⟩ => ⟨h1, h2⟩, fun ⟨h1, h2⟩ => ⟨h1, h2⟩⟩

/-- The path that leads from `p` along names. -/
def extend (p : Path) (names : List String) : Path := ⟨p.anchor, p.names ++ names⟩

@[simp] theorem extend_names (p : Path) (ns : List String) : (p.extend ns).names = p.names ++ ns :=
  rfl

@[simp] theorem extend_nil (p : Path) : p.extend [] = p := by simp [extend]

@[simp] theorem name_child (p : Path) (n : String) : (p.child n).name = n := by simp [name, child]

theorem extend_child (p : Path) (ns : List String) (n : String) :
    (p.extend ns).child n = p.extend (ns ++ [n]) := by
  simp [extend, child]

theorem Normal.extend {p : Path} (h : p.Normal) {ns : List String}
    (hn : ∀ n ∈ ns, ValidName n) : (p.extend ns).Normal := by
  refine ⟨h.absolute, fun n hmem => ?_⟩
  rcases List.mem_append.mp hmem with hmem | hmem
  · exact h.names n hmem
  · exact hn n hmem

theorem Normal.replaceName {p : Path} (h : p.Normal) {n : String} (hn : ValidName n) :
    (p.replaceName n).Normal := by
  refine ⟨h.absolute, fun m hm => ?_⟩
  rcases List.mem_append.mp hm with hm | hm
  · exact h.names m (List.mem_of_mem_dropLast hm)
  · rwa [List.mem_singleton.mp hm]

/-- What lies below a path, but is not the path, has further names. -/
theorem exists_extend_of_isBelow {p q : Path} (h : p.isBelow q = true) :
    ∃ ns, ns ≠ [] ∧ q = p.extend ns := by
  rw [isBelow, isAtOrBelow, below?, Bool.and_eq_true, bne_iff_ne] at h
  obtain ⟨hne, hbelow⟩ := h
  split at hbelow
  · rename_i hcond
    simp only [Bool.and_eq_true, beq_iff_eq, List.isPrefixOf_iff_prefix] at hcond
    obtain ⟨hanchor, ns, hns⟩ := hcond
    have heq : q = p.extend ns := by rw [extend, hanchor, hns]
    refine ⟨ns, ?_, heq⟩
    rintro rfl
    exact hne (by rw [heq, extend_nil])
  · cases hbelow

theorem below?_extend (p : Path) (ns : List String) : p.below? (p.extend ns) = some ns := by
  simp [below?, extend]

theorem isBelow_child (p : Path) (n : String) : p.isBelow (p.child n) = true := by
  have hne : p.child n ≠ p := by
    intro h
    have := congrArg (fun q : Path => q.names.length) h
    simp [child] at this
  have hbelow : p.below? (p.child n) = some [n] := below?_extend p [n]
  rw [isBelow, isAtOrBelow, hbelow]
  simpa using hne

/-! ## The absolute form -/

theorem foldl_resolveStep {ns : List String} (h : ∀ n ∈ ns, n ≠ "..") (done : List String) :
    ns.foldl resolveStep done = ns.reverse ++ done := by
  induction ns generalizing done with
  | nil => rfl
  | cons n ns ih =>
    have hstep : resolveStep done n = n :: done := by simp [resolveStep, h n (by simp)]
    rw [List.foldl_cons, hstep, ih (fun m hm => h m (by simp [hm])), List.reverse_cons,
      List.append_assoc]
    rfl

/-- A normal path stands for itself, from wherever it is seen. -/
theorem absolute_of_normal (cwd : Path) {p : Path} (h : p.Normal) : Path.absolute cwd p = p := by
  have hjoin : join cwd p = p := by simp [join, h.absolute]
  rw [Path.absolute, hjoin, foldl_resolveStep fun n hn => (h.names n hn).notUp]
  simp

theorem noSlash_of_mem_splitSlash {cs piece : List Char} (h : piece ∈ splitSlash cs) :
    '/' ∉ piece := by
  induction cs generalizing piece with
  | nil => simp_all [splitSlash]
  | cons c cs ih =>
    rw [splitSlash] at h
    split at h
    · rcases List.mem_cons.mp h with rfl | h
      · simp
      · exact ih h
    · rename_i hc
      have hc' : c ≠ '/' := by simpa using hc
      split at h
      · rename_i first rest hsplit
        rcases List.mem_cons.mp h with rfl | h
        · have := ih (hsplit ▸ List.mem_cons_self)
          simpa [Ne.symm hc'] using this
        · exact ih (hsplit ▸ List.mem_cons_of_mem _ h)
      · rw [List.mem_singleton.mp h]
        simpa using Ne.symm hc'

/-- The names of a path that was read from a text. -/
def WellSpelled (p : Path) : Prop := ∀ n ∈ p.names, n = ".." ∨ ValidName n

theorem wellSpelled_ofString (text : String) : (ofString text).WellSpelled := by
  intro n h
  obtain ⟨hmem, hkept⟩ := List.mem_filter.mp h
  obtain ⟨piece, hpiece, rfl⟩ := List.mem_map.mp hmem
  simp only [Bool.and_eq_true, bne_iff_ne] at hkept
  by_cases hup : String.ofList piece = ".."
  · exact .inl hup
  · exact .inr ⟨hkept.1, hkept.2, hup, by simpa using noSlash_of_mem_splitSlash hpiece⟩

theorem resolved_valid {ns done : List String} (hns : ∀ n ∈ ns, n = ".." ∨ ValidName n)
    (hdone : ∀ n ∈ done, ValidName n) : ∀ n ∈ ns.foldl resolveStep done, ValidName n := by
  induction ns generalizing done with
  | nil => exact hdone
  | cons n ns ih =>
    refine ih (fun m hm => hns m (by simp [hm])) ?_
    rw [resolveStep]
    split
    · exact fun m hm => hdone m (List.mem_of_mem_tail hm)
    · rename_i hup
      intro m hm
      rcases List.mem_cons.mp hm with rfl | hm
      · exact (hns m (by simp)).resolve_left (by simpa using hup)
      · exact hdone m hm

/-- The absolute form of a path that was read from a text is normal. -/
theorem absolute_normal {cwd p : Path} (h : cwd.Normal) (hp : p.WellSpelled) :
    (Path.absolute cwd p).Normal := by
  rw [Path.absolute, join]
  split
  · rename_i habs
    exact ⟨habs, fun n hn => resolved_valid hp (by simp) n (List.mem_reverse.mp hn)⟩
  · refine ⟨h.absolute, fun n hn => ?_⟩
    refine resolved_valid (fun m hm => ?_) (by simp) n (List.mem_reverse.mp hn)
    rcases List.mem_append.mp hm with hm | hm
    · exact .inr (h.names m hm)
    · exact hp m hm

/-- What is in a directory is in its absolute form. -/
theorem absolute_child (cwd d : Path) {n : String} (hn : n ≠ "..") :
    Path.absolute cwd (d.child n) = (Path.absolute cwd d).child n := by
  have hlast (ns : List String) :
      ((ns ++ [n]).foldl resolveStep []).reverse = (ns.foldl resolveStep []).reverse ++ [n] := by
    rw [List.foldl_append, List.foldl_cons, List.foldl_nil, resolveStep, if_neg (by simpa using hn)]
    simp
  have hjoin : join cwd (d.child n) = (join cwd d).child n := by
    have habs : (d.child n).isAbsolute = d.isAbsolute := rfl
    rw [join, join, habs]
    split
    · rfl
    · simp [child]
  rw [Path.absolute, Path.absolute, hjoin]
  simp only [child, hlast]

/-- The neighbours of a path are neighbours in the absolute form as well. -/
theorem absolute_replaceName (cwd p : Path) : ∃ l, ∀ n, n ≠ ".." →
    Path.absolute cwd (p.replaceName n) = ⟨(Path.absolute cwd p).anchor, l ++ [n]⟩ := by
  have hanchor : (Path.absolute cwd p.parent).anchor = (Path.absolute cwd p).anchor := by
    have habs : p.parent.isAbsolute = p.isAbsolute := rfl
    rw [Path.absolute, Path.absolute, join, join, habs]
    split <;> rfl
  refine ⟨(Path.absolute cwd p.parent).names, fun n hn => ?_⟩
  rw [show p.replaceName n = p.parent.child n from rfl, absolute_child cwd p.parent hn, child,
    hanchor]

/-! ## Suffixes -/

/-- Another suffix is another name in the same directory. -/
theorem withSuffix_replaceName {p q : Path} {suffix : String} (h : p.withSuffix suffix = .ok q) :
    ∃ n, q = p.replaceName n := by
  rw [withSuffix] at h
  split at h
  · cases h
  · split at h
    · cases h
    · exact ⟨_, (Except.ok.inj h).symm⟩

/-- A path with as many names as another lies in it only as itself. -/
theorem below?_replaceName {p : Path} {n : String} (hp : p.names ≠ []) (h : p.replaceName n ≠ p) :
    p.below? (p.replaceName n) = none := by
  rw [below?, if_neg]
  intro hcond
  simp only [Bool.and_eq_true, List.isPrefixOf_iff_prefix] at hcond
  refine h ?_
  have hlen : (p.replaceName n).names.length = p.names.length := by
    have := List.length_pos_iff.mpr hp
    simp [replaceName]
    omega
  have hnames : p.names = (p.replaceName n).names := hcond.2.eq_of_length hlen.symm
  rw [replaceName, mk.injEq]
  exact ⟨rfl, hnames.symm⟩

/-- A text that can take the place of a suffix. -/
structure UsableSuffix (suffix : String) : Prop where
  noSlash : '/' ∉ suffix.toList
  point : suffix = "" ∨ suffix.toList.head? = some '.'
  more : suffix ≠ "."

instance (suffix : String) : Decidable (UsableSuffix suffix) :=
  decidable_of_iff ('/' ∉ suffix.toList ∧ (suffix = "" ∨ suffix.toList.head? = some '.') ∧
    suffix ≠ ".") ⟨fun ⟨h1, h2, h3⟩ => ⟨h1, h2, h3⟩, fun ⟨h1, h2, h3⟩ => ⟨h1, h2, h3⟩⟩

/-- Only a path without a name is refused a usable suffix. -/
theorem withSuffix_error {p : Path} {suffix : String} {e : NamingError}
    (h : p.withSuffix suffix = .error e) :
    e = .invalidSuffix suffix ∧ ¬ UsableSuffix suffix ∨ p.name = "" := by
  rw [withSuffix] at h
  split at h
  · rename_i hcond
    refine .inl ⟨(Except.error.inj h).symm, fun husable => ?_⟩
    obtain ⟨hslash, hpoint, hmore⟩ := husable
    rcases hpoint with rfl | hpoint
    · simp at hcond
    · simp [hslash, hpoint, hmore] at hcond
  · split at h
    · rename_i hname
      exact .inr (by simpa using hname)
    · cases h

theorem splitName_noSlash {n : String} (h : '/' ∉ n.toList) : '/' ∉ (splitName n).1.toList := by
  rw [splitName]
  split
  · rename_i front tail hsplit
    have hfront : '/' ∉ front := by
      rw [splitLastPoint] at hsplit
      split at hsplit
      · rename_i c rest hdrop
        obtain ⟨rfl, -⟩ := Prod.mk.inj (Option.some.inj hsplit)
        have hsub : rest ⊆ n.toList := fun x hx => by
          have hmem : x ∈ n.toList.reverse.dropWhile (· != '.') := by
            rw [hdrop]
            exact List.mem_cons_of_mem c hx
          exact List.mem_reverse.mp ((List.dropWhile_suffix _).subset hmem)
        exact fun hmem => h (hsub (List.mem_reverse.mp hmem))
      · cases hsplit
    split
    · exact h
    · simpa using hfront
  · exact h

/-- Only the name of a file has a suffix. -/
theorem WellSpelled.validName {p : Path} (h : p.WellSpelled) (hsuffix : p.suffix ≠ "") :
    ValidName p.name := by
  rcases List.eq_nil_or_concat p.names with hp | ⟨l, n, hp⟩
  · have hname : p.name = "" := by simp [name, hp]
    refine absurd ?_ hsuffix
    rw [suffix, hname]
    decide
  · have hname : p.name = n := by simp [name, hp]
    rcases h n (by simp [hp]) with rfl | hn
    · refine absurd ?_ hsuffix
      rw [suffix, hname]
      decide
    · rwa [hname]

/-- A name keeps being one with the suffix of a script. -/
theorem withSuffix_of_valid {p : Path} (hne : p.names ≠ []) (hp : ∀ n ∈ p.names, ValidName n)
    {ext : String} (hext : ext = ".js" ∨ ext = ".ts") :
    ∃ n, ValidName n ∧ p.withSuffix ext = .ok (p.replaceName n) := by
  obtain ⟨l, n, hl⟩ := List.eq_nil_or_concat p.names |>.resolve_left hne
  have hn : ValidName n := hp n (by simp [hl])
  have hname : p.name = n := by simp [name, hl]
  have hstem := splitName_noSlash hn.noSlash
  refine ⟨(splitName n).1 ++ ext, ?_, ?_⟩
  · rcases hext with rfl | rfl
    all_goals
      refine ⟨?_, ?_, ?_, by simpa [String.toList_append] using hstem⟩ <;>
        · intro h
          have hlen := congrArg (fun s : String => s.toList.length) h
          simp at hlen
  · have hempty : (n == "") = false := by simpa using hn.nonempty
    rcases hext with rfl | rfl <;> simp [withSuffix, hname, hempty]

theorem splitLastPoint_append {front rest : List Char} (h : '.' ∉ rest) :
    splitLastPoint (front ++ '.' :: rest) = some (front, '.' :: rest) := by
  have hrest : ∀ c ∈ rest.reverse, (c != '.') = true := by
    intro c hc
    rw [bne_iff_ne]
    rintro rfl
    exact h (List.mem_reverse.mp hc)
  have hdrop : (front ++ '.' :: rest).reverse.dropWhile (· != '.') = '.' :: front.reverse := by
    rw [List.reverse_append, List.reverse_cons, List.append_assoc,
      List.dropWhile_append_of_pos hrest]
    rfl
  have htake : (front ++ '.' :: rest).reverse.takeWhile (· != '.') = rest.reverse := by
    rw [List.reverse_append, List.reverse_cons, List.append_assoc,
      List.takeWhile_append_of_pos hrest]
    simp
  rw [splitLastPoint, hdrop, htake]
  simp

theorem eq_of_splitLastPoint {cs front tail : List Char}
    (h : splitLastPoint cs = some (front, tail)) : cs = front ++ tail := by
  have hsplit := List.takeWhile_append_dropWhile (p := (· != '.')) (l := cs.reverse)
  rw [splitLastPoint] at h
  split at h
  · rename_i c rest hdrop
    obtain ⟨rfl, rfl⟩ := Prod.mk.inj (Option.some.inj h)
    have hc : c = '.' := by
      have := List.head?_dropWhile_not (· != '.') cs.reverse
      simpa [hdrop] using this
    rw [hdrop] at hsplit
    have hcs := congrArg List.reverse hsplit
    rw [List.reverse_reverse] at hcs
    refine hcs.symm.trans ?_
    rw [hc]
    simp
  · cases h

/-- A name with a suffix is its stem and the suffix. -/
theorem eq_of_splitName {n stem suffix : String} (h : splitName n = (stem, suffix))
    (hne : suffix ≠ "") : n = stem ++ suffix ∧ stem ≠ "" := by
  rw [splitName] at h
  split at h
  · rename_i front tail hsplit
    split at h
    · exact absurd (Prod.mk.inj h).2.symm hne
    · rename_i hcond
      obtain ⟨rfl, rfl⟩ := Prod.mk.inj h
      have hfront : front ≠ [] := by
        rintro rfl
        simp at hcond
      refine ⟨?_, fun h => hfront (by simpa using h)⟩
      rw [← String.ofList_append, ← eq_of_splitLastPoint hsplit, String.ofList_toList]
  · exact absurd (Prod.mk.inj h).2.symm hne

/-- Stem and suffix make up the name. -/
theorem stem_append_suffix (n : String) : (splitName n).1 ++ (splitName n).2 = n := by
  by_cases hnone : (splitName n).2 = ""
  · rw [hnone, String.append_empty, splitName]
    split
    · rename_i front tail hsplit
      split
      · rfl
      · rename_i hcond
        rw [splitName, hsplit] at hnone
        simp only [hcond, Bool.false_eq_true, ↓reduceIte] at hnone
        obtain rfl : tail = [] := by simpa using hnone
        simp at hcond
    · rfl
  · exact (eq_of_splitName rfl hnone).1.symm

theorem stem_ne_empty {n : String} (h : n ≠ "") : (splitName n).1 ≠ "" := by
  intro hstem
  by_cases hnone : (splitName n).2 = ""
  · have hwhole := stem_append_suffix n
    rw [hstem, hnone] at hwhole
    exact h hwhole.symm
  · exact (eq_of_splitName rfl hnone).2 hstem

/-- A suffix has one point, and something behind it. -/
theorem eq_of_suffix {n : String} (hne : (splitName n).2 ≠ "") :
    ∃ letters, (splitName n).2 = "." ++ letters ∧ letters ≠ "" ∧ '.' ∉ letters.toList := by
  have hdots (cs : List Char) : '.' ∉ (cs.reverse.takeWhile (· != '.')).reverse := by
    intro hmem
    simpa using List.mem_takeWhile_imp (List.mem_reverse.mp hmem)
  rw [splitName] at hne ⊢
  split at hne
  · rename_i front tail hsplit
    split at hne
    · exact absurd rfl hne
    · rename_i hcond
      simp only [hcond, Bool.false_eq_true, ↓reduceIte]
      rw [splitLastPoint] at hsplit
      split at hsplit
      · obtain ⟨-, rfl⟩ := Prod.mk.inj (Option.some.inj hsplit)
        refine ⟨String.ofList (n.toList.reverse.takeWhile (· != '.')).reverse, ?_, fun h => ?_, ?_⟩
        · rw [← String.toList_inj]
          simp [String.toList_append]
        · have hempty := congrArg String.toList h
          simp only [String.toList_ofList] at hempty
          simp [hempty] at hcond
        · rw [String.toList_ofList]
          exact hdots _
      · cases hsplit
  · exact absurd rfl hne

theorem splitName_append {stem rest : String} (hstem : stem ≠ "") (hrest : rest ≠ "")
    (hdots : '.' ∉ rest.toList) : splitName (stem ++ ("." ++ rest)) = (stem, "." ++ rest) := by
  have htext : (stem ++ ("." ++ rest)).toList = stem.toList ++ '.' :: rest.toList := by
    simp [String.toList_append]
  have hfront : stem.toList.isEmpty = false := by simpa using hstem
  have htail : ¬ ('.' :: rest.toList).length ≤ 1 := by
    have : 0 < rest.toList.length := List.length_pos_iff.mpr (by simpa using hrest)
    rw [List.length_cons]
    omega
  rw [splitName, htext, splitLastPoint_append hdots]
  simp only [hfront, htail, decide_false, Bool.or_self, Bool.false_eq_true, ↓reduceIte,
    String.ofList_toList, Prod.mk.injEq, true_and]
  rw [← String.toList_inj]
  simp [String.toList_append]

/-! ## The text of a path -/

theorem splitSlash_of_noSlash {cs : List Char} (h : '/' ∉ cs) : splitSlash cs = [cs] := by
  induction cs with
  | nil => rfl
  | cons c cs ih =>
    have hc : (c == '/') = false := by
      simpa using fun he : c = '/' => h (by simp [he])
    rw [splitSlash, hc, if_neg Bool.false_ne_true, ih (fun hm => h (by simp [hm]))]

/-- A name is read as the relative path of that name. -/
theorem ofString_of_validName {n : String} (h : ValidName n) : ofString n = ⟨.relative, [n]⟩ := by
  have hanchor : anchorOf n.toList = .relative := by
    have := h.noSlash
    cases hn : n.toList with
    | nil => rfl
    | cons c cs =>
      have hc : c ≠ '/' := by
        rintro rfl
        simp [hn] at this
      rw [anchorOf] <;> simp_all
  rw [ofString, splitSlash_of_noSlash h.noSlash, hanchor]
  simp [h.nonempty, h.notHere]

theorem splitSlash_append {cs : List Char} (h : '/' ∉ cs) (ds : List Char) :
    splitSlash (cs ++ '/' :: ds) = cs :: splitSlash ds := by
  induction cs with
  | nil => simp [splitSlash]
  | cons c cs ih =>
    have hc : (c == '/') = false := by
      simpa using fun he : c = '/' => h (by simp [he])
    rw [List.cons_append, splitSlash, hc, if_neg Bool.false_ne_true,
      ih (fun hm => h (by simp [hm]))]

theorem splitSlash_intercalate {ns : List String} (hne : ns ≠ [])
    (h : ∀ n ∈ ns, ValidName n) :
    splitSlash ("/".intercalate ns).toList = ns.map String.toList := by
  induction ns with
  | nil => exact absurd rfl hne
  | cons n ns ih =>
    have hn := (h n (by simp)).noSlash
    cases ns with
    | nil => simp [String.intercalate_singleton, splitSlash_of_noSlash hn]
    | cons m ms =>
      rw [String.intercalate_cons_cons, String.toList_append, String.toList_append,
        List.append_assoc, show "/".toList = ['/'] from rfl, List.singleton_append,
        splitSlash_append hn, ih (by simp) (fun k hk => h k (List.mem_cons_of_mem n hk))]
      rfl

theorem read_names {ns : List String} (h : ∀ n ∈ ns, ValidName n) :
    ((splitSlash ("/".intercalate ns).toList).map String.ofList).filter
      (fun n => n != "" && n != ".") = ns := by
  cases ns with
  | nil => simp [String.intercalate_nil, splitSlash]
  | cons n ns =>
    rw [splitSlash_intercalate (by simp) h, List.map_map]
    have hid : String.ofList ∘ String.toList = id := by
      funext s
      simp
    rw [hid, List.map_id, List.filter_eq_self]
    intro m hm
    have hm' := h m hm
    simp [hm'.nonempty, hm'.notHere]

/-- The names of a normal path do not begin with a slash. -/
theorem intercalate_cases {ns : List String} (h : ∀ n ∈ ns, ValidName n) :
    ("/".intercalate ns).toList = [] ∨
      ∃ c cs, ("/".intercalate ns).toList = c :: cs ∧ c ≠ '/' := by
  cases ns with
  | nil => exact .inl (by simp [String.intercalate_nil])
  | cons n ns =>
    have hn := h n (by simp)
    cases hl : n.toList with
    | nil => exact absurd (String.toList_eq_nil_iff.mp hl) hn.nonempty
    | cons c cs =>
      have hc : c ≠ '/' := fun he => hn.noSlash (by simp [hl, he])
      cases ns with
      | nil => exact .inr ⟨c, cs, by rw [String.intercalate_singleton, hl], hc⟩
      | cons m ms =>
        rw [String.intercalate_cons_cons, String.toList_append, String.toList_append, hl]
        exact .inr ⟨c, _, rfl, hc⟩

theorem ofString_toString {p : Path} (h : p.Normal) : ofString p.toString = p := by
  obtain ⟨anchor, ns⟩ := p
  have hns := h.names
  have hread := read_names hns
  have hcases := intercalate_cases hns
  have habs : anchor ≠ .relative := by simpa [isAbsolute] using h.absolute
  have htext : (toString ⟨anchor, ns⟩).toList =
      anchor.text.toList ++ ("/".intercalate ns).toList := by
    simp [toString, habs]
  rw [ofString, htext]
  generalize ("/".intercalate ns).toList = text at hread hcases
  cases anchor with
  | relative => exact absurd rfl habs
  | root =>
    have hanchor : anchorOf ('/' :: text) = .root := by
      rcases hcases with rfl | ⟨c, cs, rfl, hc⟩
      · rfl
      · simp [anchorOf, hc]
    simp only [Anchor.text, show "/".toList = ['/'] from rfl, List.singleton_append, hanchor,
      splitSlash, beq_self_eq_true, ↓reduceIte, List.map_cons]
    simpa using hread
  | doubleRoot =>
    have hanchor : anchorOf ('/' :: '/' :: text) = .doubleRoot := by
      rcases hcases with rfl | ⟨c, cs, rfl, hc⟩
      · rfl
      · simp [anchorOf, hc]
    simp only [Anchor.text, show "//".toList = ['/', '/'] from rfl, List.cons_append,
      List.nil_append, hanchor, splitSlash, beq_self_eq_true, ↓reduceIte, List.map_cons]
    simpa using hread

/-- The text of what lies below a path continues that of the path. -/
theorem toString_extend {p : Path} (hp : p.names ≠ []) (ns : List String) :
    p.toString.toList <+: (p.extend ns).toString.toList := by
  obtain ⟨anchor, ms⟩ := p
  have hms : ms ≠ [] := hp
  cases ns with
  | nil => simp
  | cons n ns =>
    have htext (l : List String) (hl : l ≠ []) : toString ⟨anchor, l⟩ =
        anchor.text ++ "/".intercalate l := by simp [toString, hl]
    rw [extend, htext ms hms, htext _ (by simp), String.intercalate_append_of_ne_nil hms (by simp)]
    refine ⟨("/" ++ "/".intercalate (n :: ns)).toList, ?_⟩
    simp [String.toList_append]

end SceneSync.Path
