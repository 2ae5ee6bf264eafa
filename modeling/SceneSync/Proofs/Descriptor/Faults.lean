import Mathlib
import SceneSync.Proofs.Descriptor.Acceptance
import SceneSync.Proofs.Eligibility
import SceneSync.Proofs.FileTree.Sound
import SceneSync.Proofs.Text.Decoding

/-!
# Faults of descriptors

The descriptor of a script may be missing, but when it is there it has to be read. If
it holds text and is at fault, the failure says so and names the descriptor. If it holds
no text, the failure is that of the encoding, and it names no file.
-/

namespace SceneSync

theorem FileTree.isFile_iff_read {t : FileTree} {p : Path} :
    t.isFile p = true ↔ ∃ bytes, t.read p = .ok bytes := by
  constructor
  · exact read_of_isFile
  · rintro ⟨bytes, h⟩
    rw [read] at h
    split at h
    · rename_i hfind
      rw [isFile, hfind]
    · cases h
    · cases h

namespace Descriptor

variable {limit : Int} {p : Path}

/-! ## The text of a descriptor -/

/-- Every script with a suffix of its own has a place for its descriptor. -/
theorem exists_pathOf_of_script (hp : p.suffix ∈ scriptSuffixes) :
    ∃ d, pathOf p extension = .ok d := by
  have hname : (p.name == "") = false := by
    rw [beq_eq_false_iff_ne]
    intro hempty
    rw [Path.suffix, hempty] at hp
    revert hp
    decide
  refine ⟨p.replaceName ((Path.splitName p.name).1 ++ extension), ?_⟩
  rw [pathOf, if_pos (by simpa using hp), Path.withSuffix]
  simp only [hname, Bool.false_eq_true, ↓reduceIte]
  rw [if_neg (by decide)]

/-- A text is read when it is JSON that is acceptable. -/
theorem read_isOk_iff {content : List Char} : (∃ items, read limit content = .ok items) ↔
    ∃ v, Json.read content = .ok v ∧ Acceptable limit v := by
  cases hv : Json.read content with
  | error e =>
    have hfails : ∃ f, read limit content = .error f := by
      rw [read, hv]
      cases e <;> exact ⟨_, rfl⟩
    obtain ⟨f, hf⟩ := hfails
    simp [hf]
  | ok v =>
    simp only [Except.ok.injEq, exists_eq_left']
    rcases read_cases limit hv with
      ⟨items, hok, hacceptable⟩ | ⟨herror, hnot, -⟩ | ⟨f, herror, -, hnot, -⟩
    · exact ⟨fun _ => hacceptable, fun _ => ⟨items, hok⟩⟩
    · simp [herror, hnot]
    · simp [herror, hnot]

/-- The text in a descriptor file: without a byte order mark, and with line feeds at its
line ends. -/
def fileText (cs : List Char) : List Char := Text.unifyLineEnds (Text.unmarked cs)

/-- The bytes are a descriptor: the encoding of JSON that is acceptable. -/
def Holds (limit : Int) (bytes : List UInt8) : Prop :=
  ∃ cs v, bytes = Text.encode cs ∧ Json.read (fileText cs) = .ok v ∧ Acceptable limit v

theorem holds_encode_iff {cs : List Char} : Holds limit (Text.encode cs) ↔
    ∃ items, read limit (fileText cs) = .ok items := by
  rw [read_isOk_iff]
  constructor
  · rintro ⟨ds, v, hds, h⟩
    rw [Text.encode_injective hds]
    exact ⟨v, h⟩
  · rintro ⟨v, h⟩
    exact ⟨cs, v, rfl, h⟩

end Descriptor

/-- To read a text that may be marked changes nothing and leaves no notice. -/
theorem Work.execute_readMarkedText (p : Path) (w : World) :
    execute (readMarkedText p) w = (match w.tree.read p with
      | .error f => .error (.file f)
      | .ok bytes => match Text.decodeMarked bytes with
        | .error f => .error (.undecodable f)
        | .ok cs => .ok (Text.unifyLineEnds cs), w) := by
  simp only [readMarkedText, readBytes, execute_bind, execute_tree]
  cases w.tree.read p with
  | error f => rfl
  | ok bytes =>
    simp only [execute_ofExcept_ok]
    cases Text.decodeMarked bytes <;> rfl

namespace Transform

open Descriptor

variable {limit : Int} {p d : Path} {w : World} {extension : String}

/-! ## What becomes of a descriptor file -/

/-- The fields of a descriptor file, from what it holds. -/
theorem execute_descriptorFields_some (hd : pathOf p extension = .ok d) {bytes : List UInt8}
    (hread : w.tree.read d = .ok bytes) (limit : Int) :
    execute (descriptorFields p extension limit) w = (match Text.decodeMarked bytes with
      | .error e => .error (.undecodable e)
      | .ok cs => match Descriptor.read limit (Text.unifyLineEnds cs) with
        | .error f => .error (.descriptor ⟨some d, f⟩)
        | .ok items => .ok (fields items), w) := by
  have hfile : w.tree.isFile d = true := FileTree.isFile_iff_read.mpr ⟨bytes, hread⟩
  rw [descriptorFields, hd, execute_bind_ok (Work.execute_ofExcept_ok _ d w),
    execute_bind_ok (Work.execute_tree w)]
  simp only [hfile, Bool.not_true, Bool.false_eq_true, ↓reduceIte, execute_bind,
    Work.execute_readMarkedText, hread]
  cases Text.decodeMarked bytes with
  | error e => rfl
  | ok cs =>
    simp only
    cases Descriptor.read limit (Text.unifyLineEnds cs) <;> rfl

/-- How reading the descriptor of a script can end. -/
theorem descriptorFields_cases (hd : pathOf p extension = .ok d) (limit : Int) (w : World) :
    (w.tree.isFile d = false ∧ execute (descriptorFields p extension limit) w = (.ok [], w)) ∨
    (∃ cs items, w.tree.read d = .ok (Text.encode cs) ∧
      Descriptor.read limit (fileText cs) = .ok items ∧
      execute (descriptorFields p extension limit) w = (.ok (fields items), w)) ∨
    (∃ cs f, w.tree.read d = .ok (Text.encode cs) ∧ Descriptor.read limit (fileText cs) = .error f ∧
      execute (descriptorFields p extension limit) w = (.error (.descriptor ⟨some d, f⟩), w)) ∨
    ∃ bytes e, w.tree.read d = .ok bytes ∧ (∀ cs, bytes ≠ Text.encode cs) ∧
      execute (descriptorFields p extension limit) w = (.error (.undecodable e), w) := by
  cases hfile : w.tree.isFile d with
  | false => exact .inl ⟨rfl, execute_descriptorFields_none hd hfile⟩
  | true =>
    obtain ⟨bytes, hread⟩ := FileTree.isFile_iff_read.mp hfile
    have hrun := execute_descriptorFields_some hd hread limit
    by_cases htext : ∃ cs, bytes = Text.encode cs
    · obtain ⟨cs, rfl⟩ := htext
      rw [Text.decodeMarked_encode] at hrun
      simp only at hrun
      rw [← fileText] at hrun
      cases hitems : Descriptor.read limit (fileText cs) with
      | ok items =>
        rw [hitems] at hrun
        exact .inr (.inl ⟨cs, items, hread, hitems, hrun⟩)
      | error f =>
        rw [hitems] at hrun
        exact .inr (.inr (.inl ⟨cs, f, hread, hitems, hrun⟩))
    · have hnone : ∀ cs, bytes ≠ Text.encode cs := not_exists.mp htext
      obtain ⟨e, he⟩ := Text.decodeMarked_eq_error_iff.mpr hnone
      rw [he] at hrun
      exact .inr (.inr (.inr ⟨bytes, e, hread, hnone, hrun⟩))

/-! ## All descriptors of scripts -/

/-- Without a descriptor a script has no members, and with one that can be read it has the
fields of its items. A descriptor that is text and cannot be read is named by the failure.
The one other failure is that of a descriptor that is no text. -/
theorem descriptor_failure_located (hp : p.suffix ∈ scriptSuffixes) (limit : Int) (w : World) :
    ∃ d r, pathOf p Descriptor.extension = .ok d ∧
      execute (descriptorFields p Descriptor.extension limit) w = (r, w) ∧
      (∀ members, r = .ok members ↔ w.tree.isFile d = false ∧ members = [] ∨
        ∃ cs items, w.tree.read d = .ok (Text.encode cs) ∧
          Descriptor.read limit (fileText cs) = .ok items ∧ members = fields items) ∧
      ((∃ members, r = .ok members) ↔ w.tree.isFile d = false ∨
        ∃ bytes, w.tree.read d = .ok bytes ∧ Holds limit bytes) ∧
      ((∃ f, r = .error (.descriptor ⟨some d, f⟩)) ↔
        ∃ cs, w.tree.read d = .ok (Text.encode cs) ∧ ¬ Holds limit (Text.encode cs)) ∧
      ((∃ e, r = .error (.undecodable e)) ↔
        ∃ bytes, w.tree.read d = .ok bytes ∧ ∀ cs, bytes ≠ Text.encode cs) ∧
      ∀ f, r = .error f → (∃ g, f = .descriptor ⟨some d, g⟩) ∨ ∃ e, f = .undecodable e := by
  obtain ⟨d, hd⟩ := exists_pathOf_of_script hp
  rcases descriptorFields_cases hd limit w with ⟨hfile, hrun⟩ | ⟨cs, items, hread, hitems, hrun⟩ |
    ⟨cs, f, hread, hfault, hrun⟩ | ⟨bytes, e, hread, hnone, hrun⟩
  · refine ⟨d, _, hd, hrun, ?_⟩
    have hnot (bytes : List UInt8) : w.tree.read d ≠ .ok bytes := fun h => by
      cases hfile.symm.trans (FileTree.isFile_iff_read.mpr ⟨bytes, h⟩)
    simp [hfile, hnot, eq_comm]
  · refine ⟨d, _, hd, hrun, ?_⟩
    have hfile := FileTree.isFile_iff_read.mpr ⟨_, hread⟩
    have hholds : Holds limit (Text.encode cs) := holds_encode_iff.mpr ⟨items, hitems⟩
    simp [hfile, hread, hitems, Text.encode_inj, hholds, eq_comm]
  · refine ⟨d, _, hd, hrun, ?_⟩
    have hfile := FileTree.isFile_iff_read.mpr ⟨_, hread⟩
    have hholds : ¬ Holds limit (Text.encode cs) := by simp [holds_encode_iff, hfault]
    simp [hfile, hread, hfault, Text.encode_inj, hholds]
  · refine ⟨d, _, hd, hrun, ?_⟩
    have hfile := FileTree.isFile_iff_read.mpr ⟨_, hread⟩
    have hholds : ¬ Holds limit bytes := fun ⟨cs, _, hcs, _⟩ => hnone cs hcs
    simp [hfile, hread, hnone, hholds]

/-- A script and its descriptor, of which the bytes are given. -/
def besideScript (bytes : List UInt8) : World :=
  ⟨⟨.ofString "/", [(["a.ts"], .file []), (["a.scene"], .file bytes)]⟩, []⟩

theorem read_besideScript (bytes : List UInt8) :
    (besideScript bytes).tree.read (.ofString "/a.scene") = .ok bytes := by cbv

set_option maxRecDepth 20000 in
/-- A descriptor that breaks off behind its mark and its first brace. -/
theorem descriptor_failure_located_cut :
    let w := besideScript (Text.encode [Text.byteOrderMark, '\x7b'])
    (Path.ofString "/a.ts").suffix ∈ scriptSuffixes ∧
      ∃ f, execute (descriptorFields (.ofString "/a.ts") Descriptor.extension usualMaxDepth) w =
        (.error (.descriptor ⟨some (.ofString "/a.scene"), f⟩), w) := by
  intro w
  have hp : (Path.ofString "/a.ts").suffix ∈ scriptSuffixes := by decide
  obtain ⟨d, r, hd, hrun, -, -, hlocated, -, -⟩ :=
    descriptor_failure_located hp usualMaxDepth w
  obtain rfl : Path.ofString "/a.scene" = d :=
    Except.ok.inj ((show pathOf _ _ = .ok (.ofString "/a.scene") by decide).symm.trans hd)
  have hfails : Json.read (fileText [Text.byteOrderMark, '\x7b']) =
      .error (.unexpected .expectingName 1 1 2) := by cbv
  have hholds : ¬ Holds usualMaxDepth (Text.encode [Text.byteOrderMark, '\x7b']) := by
    rw [holds_encode_iff, read_isOk_iff, hfails]
    simp
  obtain ⟨f, rfl⟩ := hlocated.mpr ⟨_, read_besideScript _, hholds⟩
  exact ⟨hp, f, hrun⟩

/-- A descriptor of one byte that is no text. Its failure is not among those that name the
descriptor. -/
theorem undecodable_descriptor_unnamed :
    let w := besideScript [0xFF]
    let r := (execute (descriptorFields (.ofString "/a.ts") Descriptor.extension usualMaxDepth) w).1
    (Path.ofString "/a.ts").suffix ∈ scriptSuffixes ∧
      pathOf (.ofString "/a.ts") Descriptor.extension = .ok (.ofString "/a.scene") ∧
      w.tree.read (.ofString "/a.scene") = .ok [0xFF] ∧
      r = .error (.undecodable ⟨0xFF, 0, 1, .invalidStart⟩) ∧
      ¬ ((∃ members, r = .ok members) ∨
        ∃ f, r = .error (.descriptor ⟨some (.ofString "/a.scene"), f⟩)) := by
  intro w r
  have hd : pathOf (.ofString "/a.ts") Descriptor.extension = .ok (.ofString "/a.scene") := by
    decide
  have hread : w.tree.read (.ofString "/a.scene") = .ok [0xFF] := read_besideScript _
  have hdecode : Text.decodeMarked [0xFF] = .error ⟨0xFF, 0, 1, .invalidStart⟩ := by cbv
  have hr : r = .error (.undecodable ⟨0xFF, 0, 1, .invalidStart⟩) := by
    simp only [r, execute_descriptorFields_some hd hread, hdecode]
  exact ⟨by decide, hd, hread, hr, by simp [hr]⟩

end Transform

end SceneSync
