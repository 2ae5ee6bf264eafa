import Mathlib
import SceneSync.Descriptor
import SceneSync.Proofs.Path

/-!
# Scripts and their descriptors

A script and its descriptor have the same stem, so each of the two paths leads back
to the other.
-/

namespace SceneSync.Descriptor

variable {p d : Path} {stem : String}

theorem replaceName_name (p : Path) (n : String) : (p.replaceName n).name = n := by
  simp [Path.replaceName, Path.name]

theorem replaceName_replaceName (p : Path) (n m : String) :
    (p.replaceName n).replaceName m = p.replaceName m := by
  simp [Path.replaceName]

theorem replaceName_self (h : p.name ≠ "") : p.replaceName p.name = p := by
  rcases List.eq_nil_or_concat p.names with hp | ⟨l, n, hp⟩
  · simp [Path.name, hp] at h
  · obtain ⟨anchor, names⟩ := p
    obtain rfl : names = l ++ [n] := by simpa using hp
    simp [Path.replaceName, Path.name]

/-- A suffix of a point and letters. -/
def PlainSuffix (e : String) : Prop :=
  ∃ letters, e = "." ++ letters ∧ letters ≠ "" ∧ '.' ∉ letters.toList ∧ '/' ∉ letters.toList

theorem plainSuffix_of_mem {e : String} (h : e ∈ scriptSuffixes) : PlainSuffix e := by
  simp only [scriptSuffixes, List.mem_cons, List.not_mem_nil, or_false] at h
  rcases h with rfl | rfl
  · exact ⟨"js", by decide, by decide, by decide, by decide⟩
  · exact ⟨"ts", by decide, by decide, by decide, by decide⟩

theorem PlainSuffix.validName {e : String} (he : PlainSuffix e) (hstem : stem ≠ "")
    (hslash : '/' ∉ stem.toList) : Path.ValidName (stem ++ e) := by
  obtain ⟨letters, rfl, hletters, -, hslash'⟩ := he
  have hlen : 3 ≤ (stem ++ ("." ++ letters)).toList.length := by
    have h1 : 0 < stem.toList.length := List.length_pos_iff.mpr (by simpa using hstem)
    have h2 : 0 < letters.toList.length := List.length_pos_iff.mpr (by simpa using hletters)
    simp only [String.toList_append, List.length_append, show ".".toList.length = 1 from rfl]
    omega
  refine ⟨?_, ?_, ?_, by simp [String.toList_append, hslash, hslash']⟩ <;>
    · intro h
      rw [h] at hlen
      revert hlen
      decide

theorem PlainSuffix.suffix {e : String} (he : PlainSuffix e) (hstem : stem ≠ "") :
    (p.replaceName (stem ++ e)).suffix = e := by
  obtain ⟨letters, rfl, hletters, hdots, -⟩ := he
  rw [Path.suffix, replaceName_name, Path.splitName_append hstem hletters hdots]

theorem PlainSuffix.usable {e : String} (he : PlainSuffix e) : Path.UsableSuffix e := by
  obtain ⟨letters, rfl, hletters, -, hslash⟩ := he
  refine ⟨by simpa [String.toList_append] using hslash, .inr ?_, by simp [hletters]⟩
  simp [String.toList_append]

/-- One suffix is exchanged for another. -/
theorem PlainSuffix.withSuffix {e e' : String} (he : PlainSuffix e) (he' : Path.UsableSuffix e')
    (hstem : stem ≠ "") :
    (p.replaceName (stem ++ e)).withSuffix e' = .ok (p.replaceName (stem ++ e')) := by
  obtain ⟨letters, rfl, hletters, hdots, -⟩ := he
  obtain ⟨hslash, hpoint, hmore⟩ := he'
  have hname : (stem ++ ("." ++ letters) == "") = false := by simp [hstem]
  have hsuffix : (e'.toList.contains '/' || (!e'.toList.isEmpty && e'.toList.head? != some '.') ||
      e' == ".") = false := by
    rcases hpoint with rfl | hpoint
    · rfl
    · simp [hslash, hpoint, hmore]
  simp only [Path.withSuffix, hsuffix, Bool.false_eq_true, ↓reduceIte, replaceName_name, hname,
    Path.splitName_append hstem hletters hdots, replaceName_replaceName]

/-- A script and its descriptor under one stem. -/
theorem pathOf_ok (hscript : p.suffix ∈ scriptSuffixes) {extension : String}
    (hd : pathOf p extension = .ok d) :
    ∃ stem, stem ≠ "" ∧ p.name = stem ++ p.suffix ∧ d = p.replaceName (stem ++ extension) ∧
      '/' ∉ extension.toList := by
  have hne : p.suffix ≠ "" := by
    obtain ⟨letters, hletters, -⟩ := plainSuffix_of_mem hscript
    rw [hletters]
    intro h
    simpa using congrArg String.toList h
  have hsplit : Path.splitName p.name = ((Path.splitName p.name).1, p.suffix) := rfl
  obtain ⟨hname, hstem⟩ := Path.eq_of_splitName hsplit hne
  rw [pathOf, if_pos (by simpa using hscript), Path.withSuffix] at hd
  split at hd
  · cases hd
  · rename_i hcond
    split at hd
    · cases hd
    · refine ⟨_, hstem, hname, (Except.ok.inj hd).symm, fun h => hcond ?_⟩
      simp [h]

/-- A descriptor stands beside its script. -/
theorem pathOf_replaceName {extension : String} (hd : pathOf p extension = .ok d) :
    ∃ n, d = p.replaceName n := by
  rw [pathOf] at hd
  split at hd
  · exact Path.withSuffix_replaceName hd
  · rw [Path.withName] at hd
    split at hd
    · cases hd
    · simp only at hd
      split at hd
      · cases hd
      · exact ⟨_, (Except.ok.inj hd).symm⟩

/-- Every script with the stem of a descriptor has it as its own. -/
theorem pathOf_append {e extension : String} (he : e ∈ scriptSuffixes)
    (hext : Path.UsableSuffix extension) (hstem : stem ≠ "") :
    pathOf (p.replaceName (stem ++ e)) extension = .ok (p.replaceName (stem ++ extension)) := by
  have hplain := plainSuffix_of_mem he
  rw [pathOf, hplain.suffix hstem, if_pos (by simpa using he), hplain.withSuffix hext hstem]

/-- Every file has a descriptor, were it there. -/
theorem pathOf_isOk (hname : Path.ValidName p.name) {extension : String}
    (hext : PlainSuffix extension) : ∃ d, pathOf p extension = .ok d := by
  have hempty : (p.name == "") = false := by simpa using hname.nonempty
  rw [pathOf]
  split
  · obtain ⟨letters, rfl, hletters, -, hslash⟩ := hext
    have hpoint : ("." ++ letters == ".") = false := by simp [hletters]
    refine ⟨p.replaceName ((Path.splitName p.name).1 ++ ("." ++ letters)), ?_⟩
    simp [Path.withSuffix, hempty, hslash, hpoint, String.toList_append]
  · have hvalid := hext.validName hname.nonempty hname.noSlash
    generalize p.name ++ extension = n at hvalid
    have hslash : n.toList.getLast? ≠ some '/' := fun h =>
      hvalid.noSlash (List.mem_of_getLast? h)
    refine ⟨p.replaceName n, ?_⟩
    rw [Path.withName, hempty, Path.ofString_of_validName hvalid]
    simp [hvalid.nonempty, hslash, Path.isAbsolute]

end SceneSync.Descriptor
