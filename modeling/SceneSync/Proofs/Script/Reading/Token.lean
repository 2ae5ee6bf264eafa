import Mathlib
import SceneSync.Proofs.Script.Phrase
import SceneSync.Script.Token

/-!
# What tokens take

What stands between two tokens are blanks and comments, and a token takes the characters
at the head of those left. The byte positions count what was taken.
-/

namespace SceneSync.Script

/-- Blanks and comments between two tokens. A line comment goes on to the end of its
line, a block comment to the first mark that closes it. -/
inductive Trivia : List Char → Prop
  | nil : Trivia []
  | blank {c : Char} {cs : List Char} : isBlank c = true → Trivia cs → Trivia (c :: cs)
  | line {body cs : List Char} {c : Char} : (∀ d ∈ body, isLineEnd d = false) →
      isLineEnd c = true → Trivia cs → Trivia ('/' :: '/' :: (body ++ c :: cs))
  | block {body cs : List Char} : ¬ ['*', '/'] <:+: body → Trivia cs →
      Trivia ('/' :: '*' :: (body ++ '*' :: '/' :: cs))

/-- Of the characters `cs` at byte `n` some are taken, and `ds` are left at byte `m`. -/
def Eats (cs : List Char) (n : Nat) (ds : List Char) (m : Nat) : Prop :=
  ∃ word, cs = word ++ ds ∧ m = n + width word

variable {cs ds es : List Char} {n m k : Nat} {c : Char}

theorem Eats.refl (cs : List Char) (n : Nat) : Eats cs n cs n := ⟨[], rfl, rfl⟩

theorem Eats.trans (h : Eats cs n ds m) (h' : Eats ds m es k) : Eats cs n es k := by
  obtain ⟨word, rfl, rfl⟩ := h
  obtain ⟨word', rfl, rfl⟩ := h'
  exact ⟨word ++ word', by simp, by rw [width_append]; omega⟩

theorem eats_append (word ds : List Char) (n : Nat) : Eats (word ++ ds) n ds (n + width word) :=
  ⟨word, rfl, rfl⟩

theorem Eats.cons (h : Eats cs (n + c.utf8Size) ds m) : Eats (c :: cs) n ds m :=
  (show Eats (c :: cs) n cs (n + c.utf8Size) from ⟨[c], rfl, by simp⟩).trans h

theorem eats_drop (cs : List Char) (n k : Nat) :
    Eats cs n (cs.drop k) (n + width (cs.take k)) :=
  ⟨cs.take k, (List.take_append_drop k cs).symm, rfl⟩

/-! ## Comments -/

theorem blank_of_isLineEnd (h : isLineEnd c = true) : isBlank c = true := by
  simp only [isLineEnd, Bool.or_eq_true, beq_iff_eq] at h
  rcases h with ((rfl | rfl) | h) | h
  · decide
  · decide
  · simp [isBlank, h]
  · simp [isBlank, h]

theorem eats_afterLine (cs : List Char) (n : Nat) : ∃ body, cs = body ++ (afterLine cs n).1 ∧
    (afterLine cs n).2 = n + width body ∧ (∀ d ∈ body, isLineEnd d = false) ∧
      ∀ d ∈ (afterLine cs n).1.head?, isLineEnd d = true := by
  induction cs generalizing n with
  | nil => exact ⟨[], rfl, rfl, by simp, by simp [afterLine]⟩
  | cons c cs ih =>
    rw [afterLine]
    split
    · rename_i hend
      exact ⟨[], rfl, rfl, by simp, by simpa using hend⟩
    · rename_i hend
      obtain ⟨body, hcs, hn, hbody, hhead⟩ := ih (n + c.utf8Size)
      refine ⟨c :: body, by rw [List.cons_append, ← hcs], ?_, ?_, hhead⟩
      · rw [hn, width_cons]
        omega
      · simpa [hend] using hbody

theorem eats_afterBlock {a b : Bool} (h : afterBlock cs n a = some (ds, m, b)) :
    ∃ body, cs = body ++ '*' :: '/' :: ds ∧ m = n + width body + 2 ∧
      ¬ ['*', '/'] <:+: body := by
  fun_induction afterBlock cs n a with
  | case1 =>
    obtain ⟨rfl, rfl, rfl⟩ := by simpa using h
    exact ⟨[], rfl, rfl, by simp⟩
  | case2 c cs n a hopen ih =>
    obtain ⟨body, rfl, rfl, hbody⟩ := ih h
    refine ⟨c :: body, rfl, by rw [width_cons]; omega, fun hinfix => ?_⟩
    rcases List.infix_cons_iff.mp hinfix with hprefix | hinfix
    · cases body with
      | nil => simp at hprefix
      | cons d body =>
        obtain ⟨rfl, rfl, -⟩ := by simpa using hprefix
        exact hopen _ rfl rfl
    · exact hbody hinfix
  | case3 => cases h

theorem eats_lineComment (ds : List Char) (n : Nat) :
    Eats ('/' :: '/' :: ds) n (afterLine ds (n + 2)).1 (afterLine ds (n + 2)).2 := by
  obtain ⟨body, hds, hn, -⟩ := eats_afterLine ds (n + 2)
  refine ⟨'/' :: '/' :: body, by rw [List.cons_append, List.cons_append, ← hds], ?_⟩
  rw [hn, width_cons, width_cons, show '/'.utf8Size = 1 from rfl]
  omega

theorem eats_blockComment {a b : Bool} (h : afterBlock cs (n + 2) a = some (ds, m, b)) :
    Eats ('/' :: '*' :: cs) n ds m := by
  obtain ⟨body, rfl, rfl, -⟩ := eats_afterBlock h
  refine ⟨'/' :: '*' :: (body ++ ['*', '/']), by simp, ?_⟩
  simp only [width_cons, width_append, width_nil, show '/'.utf8Size = 1 from rfl,
    show '*'.utf8Size = 1 from rfl]
  omega

/-- What is skipped before a token. -/
theorem skipGap_trivia {newline inLine : Bool} {remark : Nat} {g : Gap}
    (h : skipGap cs n newline inLine remark = some g) :
    Eats cs n g.rest g.width ∧ (∀ c ∈ g.rest.head?, isBlank c = false) ∧
      (g.rest ≠ [] → ∃ gap, Trivia gap ∧ cs = gap ++ g.rest ∧ g.width = n + width gap) := by
  fun_induction skipGap cs n newline inLine remark with
  | case1 n newline inLine remark ds r hlength ih =>
    obtain ⟨heats, hhead, hgap⟩ := ih h
    obtain ⟨body, hds, hn, hbody, hend⟩ := eats_afterLine ds (n + 2)
    change ds = body ++ r.1 at hds
    change r.2 = n + 2 + width body at hn
    refine ⟨(eats_lineComment ds n).trans heats, hhead, fun hne => ?_⟩
    obtain ⟨gap, htrivia, hrest, hwidth⟩ := hgap hne
    -- behind the comment stands the end of its line, which is no token
    cases gap with
    | nil =>
      cases hr : g.rest with
      | nil => exact absurd hr hne
      | cons c rest =>
        have hblank := hhead c (by simp [hr])
        have hline := hend c (by
          show c ∈ r.1.head?
          rw [hrest, List.nil_append, hr]
          rfl)
        rw [blank_of_isLineEnd hline] at hblank
        cases hblank
    | cons c gap =>
      have hline := hend c (by
        show c ∈ r.1.head?
        rw [hrest]
        rfl)
      have htail : Trivia gap := by
        cases htrivia with
        | blank _ htail => exact htail
        | line => cases hline
        | block => cases hline
      refine ⟨'/' :: '/' :: (body ++ c :: gap), .line hbody hline htail, ?_, ?_⟩
      · rw [hds, hrest]
        simp
      · rw [hwidth, hn]
        simp only [width_cons, width_append, show '/'.utf8Size = 1 from rfl]
        omega
  | case2 n newline inLine remark ds es m b hblock hlength ih =>
    obtain ⟨heats, hhead, hgap⟩ := ih h
    refine ⟨(eats_blockComment hblock).trans heats, hhead, fun hne => ?_⟩
    obtain ⟨body, rfl, rfl, hbody⟩ := eats_afterBlock hblock
    obtain ⟨gap, htrivia, rfl, hwidth⟩ := hgap hne
    refine ⟨_, .block hbody htrivia, by simp, ?_⟩
    rw [hwidth]
    simp only [width_cons, width_append, show '/'.utf8Size = 1 from rfl,
      show '*'.utf8Size = 1 from rfl]
    omega
  | case3 => cases h
  | case4 n newline inLine remark c ds _ _ hblank ih =>
    obtain ⟨heats, hhead, hgap⟩ := ih h
    refine ⟨heats.cons, hhead, fun hne => ?_⟩
    obtain ⟨gap, htrivia, rfl, hwidth⟩ := hgap hne
    exact ⟨c :: gap, .blank hblank htrivia, rfl, by rw [hwidth, width_cons]; omega⟩
  | case5 n newline inLine remark c ds _ _ hblank =>
    obtain rfl := Option.some.inj h
    exact ⟨.refl _ _, by simpa using hblank, fun _ => ⟨[], .nil, rfl, rfl⟩⟩
  | case6 =>
    obtain rfl := Option.some.inj h
    exact ⟨.refl _ _, by simp, fun hne => absurd rfl hne⟩

/-! ## Tokens -/

theorem utf8Size_of_lt (h : c.val.toNat < 128) : c.utf8Size = 1 := by
  rw [Char.utf8Size_eq_one_iff, UInt32.le_iff_toNat_le]
  have hbound : (127 : UInt32).toNat = 127 := rfl
  omega

theorem width_of_ascii (h : ∀ d ∈ cs, d.val.toNat < 128) : width cs = cs.length := by
  induction cs with
  | nil => rfl
  | cons c cs ih =>
    rw [width_cons, utf8Size_of_lt (h c (by simp)), ih fun d hd => h d (by simp [hd]),
      List.length_cons]
    omega

theorem isHexDigit_lt (h : isHexDigit c = true) : c.val.toNat < 128 := by
  simp only [isHexDigit, isDigit, Bool.or_eq_true, Bool.and_eq_true, decide_eq_true_eq,
    Char.le_def, UInt32.le_iff_toNat_le] at h
  have hdigit : '9'.val.toNat = 57 := rfl
  have hlower : 'f'.val.toNat = 102 := rfl
  have hupper : 'F'.val.toNat = 70 := rfl
  omega

theorem eats_unicodeEscape (h : unicodeEscape cs n = some (ds, m)) :
    ∃ word, cs = word ++ ds ∧ m = n + word.length ∧ ∀ d ∈ word, d.val.toNat < 128 := by
  unfold unicodeEscape at h
  split at h
  · rename_i c es
    simp only at h
    split at h
    · rename_i fs hdrop
      split at h
      · cases h
      · obtain ⟨rfl, rfl⟩ := by simpa using h
        refine ⟨'{' :: ((c :: es).takeWhile isHexDigit ++ ['}']), ?_, by simp; omega, ?_⟩
        · have hsplit := List.take_append_drop ((c :: es).takeWhile isHexDigit).length (c :: es)
          rw [hdrop, List.prefix_iff_eq_take.mp (List.takeWhile_prefix _) |>.symm] at hsplit
          simpa using hsplit.symm
        · intro d hd
          rcases List.mem_cons.mp hd with rfl | hd
          · decide
          · rcases List.mem_append.mp hd with hd | hd
            · exact isHexDigit_lt (List.mem_takeWhile_imp hd)
            · obtain rfl := List.mem_singleton.mp hd
              decide
    · cases h
  · rename_i a b c d es _
    split at h
    · rename_i hhex
      simp only [Bool.and_eq_true] at hhex
      obtain ⟨rfl, rfl⟩ := by simpa using h
      refine ⟨[a, b, c, d], rfl, rfl, fun e he => ?_⟩
      simp only [List.mem_cons, List.not_mem_nil, or_false] at he
      rcases he with rfl | rfl | rfl | rfl
      all_goals exact isHexDigit_lt (by simp [hhex])
    · cases h
  · cases h

theorem eats_escape (h : escape cs n = some (ds, m)) : Eats cs n ds m := by
  have hone {c : Char} (hc : c.val.toNat < 128) : c.utf8Size = 1 := utf8Size_of_lt hc
  unfold escape at h
  split at h
  · rename_i a b es
    split at h
    · rename_i hhex
      simp only [Bool.and_eq_true] at hhex
      obtain ⟨rfl, rfl⟩ := by simpa using h
      refine ⟨['x', a, b], rfl, ?_⟩
      simp only [width_cons, width_nil, hone (isHexDigit_lt hhex.1), hone (isHexDigit_lt hhex.2),
        show 'x'.utf8Size = 1 from rfl]
    · cases h
  · cases h
  · obtain ⟨word, rfl, rfl, hword⟩ := eats_unicodeEscape h
    refine ⟨'u' :: word, rfl, ?_⟩
    rw [width_cons, width_of_ascii hword, show 'u'.utf8Size = 1 from rfl]
    omega
  · obtain ⟨rfl, rfl⟩ := by simpa using h
    exact ⟨['\r', '\n'], rfl, rfl⟩
  · rename_i c es _ _ _ _
    obtain ⟨rfl, rfl⟩ := by simpa using h
    exact (Eats.refl es _).cons
  · cases h

theorem eats_afterString {quote : Char} (hquote : quote.utf8Size = 1)
    (h : afterString quote cs n = some (ds, m)) : Eats cs n ds m := by
  fun_induction afterString quote cs n with
  | case1 => cases h
  | case2 n es fs k hescape _ ih => exact Eats.cons ((eats_escape hescape).trans (ih h))
  | case3 => cases h
  | case4 n c es _ hc =>
    obtain ⟨rfl, rfl⟩ := by simpa using h
    obtain rfl : c = quote := by simpa using hc
    exact ⟨[c], rfl, by rw [width_cons, hquote]; rfl⟩
  | case5 => cases h
  | case6 n c es _ _ _ ih => exact (ih h).cons

theorem eats_templateChunk {more : Bool} (h : templateChunk cs n = some (ds, m, more)) :
    Eats cs n ds m := by
  fun_induction templateChunk cs n with
  | case1 => cases h
  | case2 n es =>
    obtain ⟨rfl, rfl, -⟩ := by simpa using h
    exact ⟨['`'], rfl, rfl⟩
  | case3 n es =>
    obtain ⟨rfl, rfl, -⟩ := by simpa using h
    exact ⟨['$', '{'], rfl, rfl⟩
  | case4 n es fs k hescape _ ih => exact Eats.cons ((eats_escape hescape).trans (ih h))
  | case5 => cases h
  | case6 n c es _ _ _ ih => exact (ih h).cons

theorem takeName_append {text : List Char} (h : takeName cs = some (text, ds)) :
    cs = text ++ ds := by
  fun_induction takeName cs generalizing text with
  | case1 es fs k hescape _ name rest hname ih =>
    obtain ⟨rfl, rfl⟩ := by simpa using h
    obtain ⟨word, rfl, rfl, -⟩ := eats_unicodeEscape hescape
    rw [ih hname]
    simp
  | case5 c es _ _ _ name rest hname ih =>
    obtain ⟨rfl, rfl⟩ := by simpa using h
    rw [ih hname, List.cons_append]
  | case7 | case8 =>
    obtain ⟨rfl, rfl⟩ := by simpa using h
    rfl
  | case2 | case3 | case4 | case6 => cases h

theorem startsWith_iff {as bs : List Char} : startsWith as bs = true ↔ as <+: bs := by
  induction as generalizing bs with
  | nil => simp [startsWith]
  | cons a as ih =>
    cases bs with
    | nil => simp [startsWith]
    | cons b bs => simp [startsWith, ih]

theorem scanPunct_prefix {p : List Char} (h : scanPunct cs = some p) :
    p <+: cs ∧ width p = p.length := by
  rw [scanPunct.eq_def] at h
  split at h
  · split at h
    all_goals
      obtain rfl := Option.some.inj h
      exact ⟨by simp, rfl⟩
  · refine ⟨startsWith_iff.mp (by simpa using List.find?_some h), ?_⟩
    have hmem := List.mem_of_find?_eq_some h
    exact (show ∀ q ∈ punctuators, width q = q.length by decide) p hmem

/-- A scanned token takes characters, and a name or a punctuator is what it takes. -/
structure Scans (cs : List Char) (n : Nat) (r : Scanned) : Prop where
  eats : Eats cs n r.rest r.stop
  name : ∀ w, r.token = .name w → cs = w.toList ++ r.rest
  punct : ∀ p, r.token = .punct p → cs = p.toList ++ r.rest

theorem scans_of_eats {t : Token} (h : Eats cs n ds m) (hname : ∀ w, t ≠ .name w)
    (hpunct : ∀ p, t ≠ .punct p) : Scans cs n ⟨t, ds, m⟩ :=
  ⟨h, fun w hw => absurd hw (hname w), fun p hp => absurd hp (hpunct p)⟩

theorem scans_scan (cs : List Char) (n : Nat) : Scans cs n (Token.scan cs n) := by
  cases cs with
  | nil => exact scans_of_eats (.refl [] n) nofun nofun
  | cons c cs =>
    have hinvalid : Scans (c :: cs) n ⟨.invalid, cs, n + c.utf8Size⟩ :=
      scans_of_eats (Eats.refl cs _).cons nofun nofun
    simp only [Token.scan]
    split
    · rename_i hquote
      have hsize : c.utf8Size = 1 := by
        simp only [Bool.or_eq_true, beq_iff_eq] at hquote
        rcases hquote with rfl | rfl <;> rfl
      split
      · rename_i es m hstring
        rw [← hsize] at hstring
        exact scans_of_eats (eats_afterString hsize hstring).cons nofun nofun
      · exact hinvalid
    · split
      · exact scans_of_eats (eats_drop _ _ _) nofun nofun
      · split
        · rename_i hhash
          obtain rfl : c = '#' := by simpa using hhash
          split
          · rename_i _ es _
            obtain ⟨body, hes, hstop, -⟩ := eats_afterLine es (n + 2)
            refine scans_of_eats ⟨'#' :: '!' :: body, ?_, ?_⟩ nofun nofun
            · rw [List.cons_append, List.cons_append, ← hes]
            · rw [hstop, width_cons, width_cons, show '#'.utf8Size = 1 from rfl,
                show '!'.utf8Size = 1 from rfl]
              omega
          · split
            · split
              · rename_i text r hname
                refine scans_of_eats ⟨'#' :: text, ?_, ?_⟩ nofun nofun
                · rw [List.cons_append, ← takeName_append hname]
                · rw [width_cons, show '#'.utf8Size = 1 from rfl]
                  omega
              · exact hinvalid
            · exact hinvalid
          · exact hinvalid
        · split
          · split
            · rename_i text r hname
              have htext := takeName_append hname
              refine ⟨⟨text, htext, rfl⟩, fun w hw => ?_, nofun⟩
              obtain rfl := Token.name.inj hw
              rwa [String.toList_ofList]
            · exact hinvalid
          · split
            · rename_i p hpunct
              obtain ⟨⟨rest, hrest⟩, hwidth⟩ := scanPunct_prefix hpunct
              have hdrop : (c :: cs).drop p.length = rest := by
                rw [← hrest, List.drop_left]
              rw [hdrop, ← hwidth, ← hrest]
              refine ⟨eats_append p rest n, nofun, fun q hq => ?_⟩
              obtain rfl := Token.punct.inj hq
              rw [String.toList_ofList]
            · exact hinvalid

end SceneSync.Script
