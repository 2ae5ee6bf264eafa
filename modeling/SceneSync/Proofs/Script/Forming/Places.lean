import Mathlib
import SceneSync.Proofs.Script.Reading.Parser
import SceneSync.Proofs.Text.Encoding
import SceneSync.Script.Conversion

/-!
# Where cursors stand

The bytes that a cursor names come in the order of what stands there: the token before it,
the comments of its line, the token and its end. All of them are character boundaries of
the source, and a token takes a byte at least and does not begin with a blank.
-/

namespace SceneSync.Script

variable {src : List Char} {cs ds : List Char} {n m k : Nat} {c : Char}

theorem Eats.le (h : Eats cs n ds m) : n ≤ m := by
  obtain ⟨word, -, rfl⟩ := h
  exact Nat.le_add_right _ _

/-! ## Tokens take characters -/

theorem length_afterDigits_le (p : Char → Bool) (cs : List Char) :
    (afterDigits p cs).length ≤ cs.length := by
  fun_induction afterDigits p cs with
  | case1 c cs _ ih => exact ih.trans (by simp only [List.length_cons]; omega)
  | case2 => exact Nat.le_refl _
  | case3 c cs _ _ ih => exact ih.trans (by simp)
  | case4 => exact Nat.le_refl _
  | case5 => exact Nat.le_refl _

theorem length_afterExponent_le (cs : List Char) : (afterExponent cs).length ≤ cs.length := by
  have hdigits := length_afterDigits_le isDigit
  rw [afterExponent.eq_def]
  split
  · rename_i e s d ds
    split
    · exact (hdigits ds).trans (by simp only [List.length_cons]; omega)
    · split
      · exact (hdigits (d :: ds)).trans (by simp)
      · exact Nat.le_refl _
  · split
    · exact Nat.zero_le _
    · exact Nat.le_refl _
  · exact Nat.le_refl _

/-- A number begins with a digit or with a point. -/
theorem length_afterInteger_lt (h : isDigit c = true ∨ c = '.') :
    (afterNumber.afterInteger (c :: cs)).length < (c :: cs).length := by
  have hpoint (ds : List Char) :
      (afterExponent (afterDigits isDigit ds)).length ≤ ds.length :=
    (length_afterExponent_le _).trans (length_afterDigits_le _ _)
  rcases h with hdigit | rfl
  · have hrest : (afterDigits isDigit (c :: cs)).length ≤ cs.length := by
      have hmark : c ≠ '_' := by
        rintro rfl
        cases hdigit
      rw [afterDigits.eq_def]
      split
      · simp_all
      · rename_i heq
        cases heq
        rw [if_pos hdigit]
        exact length_afterDigits_le _ _
      · simp_all
    rw [afterNumber.afterInteger, List.length_cons]
    split
    · rename_i ds hds
      rw [hds, List.length_cons] at hrest
      omega
    · rename_i ds hds
      rw [hds, List.length_cons] at hrest
      exact Nat.lt_of_le_of_lt (hpoint ds) (by omega)
    · exact Nat.lt_succ_of_le ((length_afterExponent_le _).trans hrest)
  · have hstay : afterDigits isDigit ('.' :: cs) = '.' :: cs := by
      rw [afterDigits.eq_def]
      simp [isDigit]
    rw [afterNumber.afterInteger, hstay]
    exact Nat.lt_succ_of_le (hpoint cs)

theorem length_afterNumber_lt (h : isDigit c = true ∨ c = '.') :
    (afterNumber (c :: cs)).length < (c :: cs).length := by
  have hsuffix (p : Char → Bool) (ds : List Char) :
      (afterNumber.afterSuffix (afterDigits p ds)).length ≤ ds.length := by
    refine Nat.le_trans ?_ (length_afterDigits_le p ds)
    rw [afterNumber.afterSuffix.eq_def]
    split
    · rename_i heq
      simp [heq]
    · exact Nat.le_refl _
  rw [afterNumber.eq_def]
  split
  · rename_i r d ds heq
    cases heq
    split
    · exact Nat.lt_of_le_of_lt (hsuffix _ ds) (by simp only [List.length_cons]; omega)
    · split
      · exact Nat.lt_of_le_of_lt (hsuffix _ ds) (by simp only [List.length_cons]; omega)
      · exact length_afterInteger_lt h
  · exact length_afterInteger_lt h

theorem numberLength_pos (h : isDigit c = true ∨ c = '.') : 0 < numberLength (c :: cs) := by
  have hchar : isNumberChar c = true := by
    rcases h with h | rfl
    · simp [isNumberChar, continuesName, h]
    · rfl
  rw [numberLength, List.takeWhile_cons_of_pos hchar]
  exact Nat.sub_pos_of_lt (length_afterNumber_lt h)

theorem takeName_ne_nil {text : List Char} (h : takeName (c :: cs) = some (text, ds))
    (hc : startsName c = true ∨ c = '\\') : text ≠ [] := by
  rw [takeName.eq_def] at h
  split at h
  · split at h
    · split at h
      · obtain ⟨rfl, -⟩ := by simpa using h
        exact List.cons_ne_nil _ _
      · cases h
    · cases h
  · cases h
  · rename_i c' ds' hescape hslash heq
    cases heq
    have hname : continuesName c = true := by
      rcases hc with hc | rfl
      · simp [continuesName, hc]
      · exact (hslash rfl).elim
    rw [if_pos hname] at h
    split at h
    · obtain ⟨rfl, -⟩ := by simpa using h
      exact List.cons_ne_nil _ _
    · cases h
  · simp_all

theorem width_pos {word : List Char} (h : word ≠ []) : 0 < width word := by
  cases word with
  | nil => exact absurd rfl h
  | cons c word =>
    rw [width_cons]
    exact Nat.add_pos_left c.utf8Size_pos _

theorem scanPunct_ne_nil {p : List Char} (h : scanPunct cs = some p) : p ≠ [] := by
  rw [scanPunct.eq_def] at h
  split at h
  · split at h
    all_goals
      obtain rfl := Option.some.inj h
      exact List.cons_ne_nil _ _
  · exact (show ∀ q ∈ punctuators, q ≠ [] by decide) p (List.mem_of_find?_eq_some h)

/-- Where characters are left a token takes some of them. -/
theorem lt_stop_scan (c : Char) (cs : List Char) (n : Nat) :
    n < (Token.scan (c :: cs) n).stop := by
  have hinvalid : n < n + c.utf8Size := Nat.lt_add_of_pos_right c.utf8Size_pos
  simp only [Token.scan]
  split
  · rename_i hquote
    have hsize : c.utf8Size = 1 := by
      simp only [Bool.or_eq_true, beq_iff_eq] at hquote
      rcases hquote with rfl | rfl <;> rfl
    split
    · rename_i es m hstring
      exact (eats_afterString hsize hstring).le
    · exact hinvalid
  · split
    · rename_i hnumber
      have hpos : 0 < numberLength (c :: cs) := by
        refine numberLength_pos ?_
        simp only [Bool.or_eq_true, Bool.and_eq_true, beq_iff_eq] at hnumber
        exact hnumber.imp_right fun h => h.1
      refine Nat.lt_add_of_pos_right (width_pos ?_)
      rw [Ne, List.take_eq_nil_iff]
      simp [hpos.ne']
    · split
      · split
        · rename_i _ es _
          obtain ⟨body, -, hstop, -⟩ := eats_afterLine es (n + 2)
          show n < (afterLine es (n + 2)).2
          omega
        · split
          · split
            · exact Nat.lt_of_lt_of_le (Nat.lt_succ_self n) (Nat.le_add_right _ _)
            · exact hinvalid
          · exact hinvalid
        · exact hinvalid
      · split
        · rename_i hname
          split
          · rename_i htake
            refine Nat.lt_add_of_pos_right (width_pos (takeName_ne_nil htake ?_))
            simpa using hname
          · exact hinvalid
        · split
          · rename_i p hpunct
            exact Nat.lt_add_of_pos_right
              (List.length_pos_iff.mpr (scanPunct_ne_nil hpunct))
          · exact hinvalid

/-! ## Bytes of the source -/

theorem Remains.boundary (h : Remains src n cs) : Text.Boundary src n := by
  obtain ⟨front, rfl, rfl⟩ := h
  exact ⟨front, cs, rfl, length_encode front⟩

theorem Remains.byte (h : Remains src n (c :: cs)) :
    (Text.encode src)[n]? = (String.utf8EncodeChar c).head? := by
  obtain ⟨front, rfl, rfl⟩ := h
  obtain ⟨b, rest, hbytes, -⟩ := Text.decodeOne_utf8EncodeChar c [] 0
  have hcons : Text.encode (c :: cs) = String.utf8EncodeChar c ++ Text.encode cs := rfl
  rw [Text.encode_append, ← length_encode, List.getElem?_append_right (Nat.le_refl _),
    Nat.sub_self, hcons, hbytes]
  rfl

/-- What starts at the byte is no blank. -/
def Solid (src : List Char) (n : Nat) : Prop :=
  ∀ b ∈ (Text.encode src)[n]?, isBlankByte b = false

theorem Remains.solid (h : Remains src n (c :: cs)) (hc : isBlank c = false) : Solid src n := by
  intro b hb
  rw [h.byte] at hb
  by_contra hblank
  rw [Bool.not_eq_false] at hblank
  obtain ⟨b', rest, hbytes, hone⟩ := Text.decodeOne_utf8EncodeChar c [] 0
  obtain rfl : b' = b := by simpa [hbytes] using hb
  have hbyte : b'.toNat = 32 ∨ b'.toNat = 9 ∨ b'.toNat = 13 ∨ b'.toNat = 10 := by
    simpa [isBlankByte, or_assoc, ← UInt8.toNat_inj] using hblank
  rw [Text.decodeOne_one (by omega)] at hone
  have hcode : c.toNat = b'.toNat := (Prod.mk.inj (Except.ok.inj hone)).1.symm
  obtain rfl : c = Char.ofNat b'.toNat := by rw [← hcode, Char.ofNat_toNat]
  rcases hbyte with h | h | h | h <;>
    · rw [h] at hc
      cases hc

/-- The byte is a boundary, and the characters from it on are given unless there are none. -/
structure Leaves (src : List Char) (n : Nat) (cs : List Char) : Prop where
  boundary : Text.Boundary src n
  remains : cs ≠ [] → Remains src n cs

theorem Remains.leaves (h : Remains src n cs) : Leaves src n cs := ⟨h.boundary, fun _ => h⟩

theorem Leaves.eats (h : Leaves src n cs) (he : Eats cs n ds m) : Leaves src m ds := by
  refine ⟨?_, fun hne => (h.remains (he.ne_nil hne)).eats he⟩
  cases cs with
  | nil =>
    obtain ⟨word, hword, rfl⟩ := he
    obtain ⟨rfl, -⟩ := List.append_eq_nil_iff.mp hword.symm
    exact h.boundary
  | cons c cs => exact ((h.remains (List.cons_ne_nil c cs)).eats he).boundary

/-- Where the comments end that are skipped before a token. -/
theorem skipGap_remark {newline inLine : Bool} {remark : Nat} {g : Gap}
    (h : skipGap cs n newline inLine remark = some g) (hs : Leaves src n cs) (hle : remark ≤ n)
    (hremark : Text.Boundary src remark) :
    remark ≤ g.remark ∧ g.remark ≤ g.width ∧ Text.Boundary src g.remark := by
  fun_induction skipGap cs n newline inLine remark with
  | case1 n newline inLine remark ds r hlength ih =>
    have heats := eats_lineComment ds n
    have hmore := hs.eats heats
    cases inLine with
    | true =>
      have hend := ih h hmore (Nat.le_refl _) hmore.boundary
      exact ⟨(hle.trans heats.le).trans hend.1, hend.2⟩
    | false => exact ih h hmore (hle.trans heats.le) hremark
  | case2 n newline inLine remark ds es m b hblock hlength ih =>
    have heats := eats_blockComment hblock
    have hmore := hs.eats heats
    cases inLine with
    | true =>
      have hend := ih h hmore (Nat.le_refl _) hmore.boundary
      exact ⟨(hle.trans heats.le).trans hend.1, hend.2⟩
    | false => exact ih h hmore (hle.trans heats.le) hremark
  | case3 => cases h
  | case4 n newline inLine remark c ds _ _ hblank ih =>
    have heats : Eats (c :: ds) n ds (n + c.utf8Size) := (Eats.refl ds _).cons
    exact ih h (hs.eats heats) (hle.trans heats.le) hremark
  | case5 =>
    obtain rfl := Option.some.inj h
    exact ⟨Nat.le_refl _, hle, hremark⟩
  | case6 =>
    obtain rfl := Option.some.inj h
    exact ⟨Nat.le_refl _, hle, hremark⟩

/-! ## Cursors -/

/-- From a byte at which no blank stands something reaches up to another. -/
structure Begun (src : List Char) (a n : Nat) : Prop where
  solid : Solid src a
  lt : a < n

theorem Begun.mono {a : Nat} (h : Begun src a n) (hle : n ≤ m) : Begun src a m :=
  ⟨h.solid, Nat.lt_of_lt_of_le h.lt hle⟩

/-- A cursor in a source of a dialect, with its bytes in order. -/
structure Cursor.Placed (src : List Char) (dialect : Dialect) (c : Cursor) : Prop where
  within : c.In src
  dialect_eq : c.dialect = dialect
  previous_le : c.previous ≤ c.remark
  remark_le : c.remark ≤ c.start
  start_le : c.start ≤ c.stop
  previous : Text.Boundary src c.previous
  remark : Text.Boundary src c.remark
  start : Text.Boundary src c.start
  stop : Leaves src c.stop c.rest
  token : c.token ≠ .done → c.token ≠ .invalid → Begun src c.start c.stop

namespace Cursor

variable {dialect : Dialect} {c d : Cursor}

theorem placed_read (size : Nat) (h : Leaves src n cs) :
    (read dialect size n cs).Placed src dialect := by
  have hin : (read dialect size n cs).In src := in_read h.remains
  rw [read] at hin ⊢
  split
  · rename_i hnone
    rw [hnone] at hin
    exact ⟨hin, rfl, Nat.le_refl _, Nat.le_refl _, Nat.le_refl _, h.boundary, h.boundary,
      h.boundary, ⟨h.boundary, fun hne => absurd rfl hne⟩, fun _ hvalid => absurd rfl hvalid⟩
  · rename_i g hskip
    rw [hskip] at hin
    obtain ⟨heats, hhead, -⟩ := skipGap_trivia hskip
    obtain ⟨hprevious, hremark, hboundary⟩ :=
      skipGap_remark hskip h (Nat.le_refl n) h.boundary
    have hscan := (scans_scan g.rest g.width).eats
    have hstart := h.eats heats
    refine ⟨hin, rfl, hprevious, hremark, hscan.le, h.boundary, hboundary, hstart.boundary,
      hstart.eats hscan, fun hdone _ => ?_⟩
    cases hrest : g.rest with
    | nil => exact absurd (by rw [hrest]; rfl) hdone
    | cons c rest =>
      rw [hrest] at hstart hhead
      exact ⟨(hstart.remains (List.cons_ne_nil c rest)).solid (hhead c rfl),
        lt_stop_scan c rest g.width⟩

theorem Placed.advance (hc : c.Placed src dialect) : c.advance.Placed src dialect := by
  rw [Cursor.advance, hc.dialect_eq]
  exact placed_read _ hc.stop

theorem Placed.jump (hc : c.Placed src dialect) (h : Eats c.rest c.stop cs n) :
    (c.jump n cs).Placed src dialect := by
  rw [Cursor.jump, hc.dialect_eq]
  exact placed_read _ (hc.stop.eats h)

theorem Placed.jump_here (hc : c.Placed src dialect) (h : Eats c.here c.start cs n) :
    (c.jump n cs).Placed src dialect := by
  rw [Cursor.jump, hc.dialect_eq]
  exact placed_read _ (Leaves.eats ⟨hc.start, hc.within.remains⟩ h)

theorem Placed.previous_le_start (hc : c.Placed src dialect) : c.previous ≤ c.start :=
  hc.previous_le.trans hc.remark_le

/-- The byte at which a mark of one byte stands. -/
theorem Placed.mark {p : String} (hc : c.Placed src dialect) (htoken : c.token = .punct p)
    {x : Char} (hp : p.toList = [x]) (hx : x.utf8Size = 1) :
    (Text.encode src)[c.start]? = (String.utf8EncodeChar x).head? ∧ c.stop = c.start + 1 := by
  obtain ⟨hne, hhere, hstop⟩ := hc.within.punct p htoken
  have hremains := hc.within.remains hne
  rw [hhere, hp] at hremains
  exact ⟨hremains.byte, by simpa [hp, hx] using hstop⟩

end Cursor

end SceneSync.Script
