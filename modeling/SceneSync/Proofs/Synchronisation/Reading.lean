import Mathlib
import SceneSync.Proofs.Synchronisation.Update

/-!
# Reading a script

What a script becomes is decided by its own bytes and those of its descriptor. From
two trees that agree on these the conversion ends alike, and it leaves notices only.
-/

namespace SceneSync

variable {α β ε : Type} {P : Failure → Prop} {t t' : FileTree}

/-- From both trees the work ends in the same way, with the same notices, and it changes
neither of them. It fails only as `P` allows. -/
def ReadsAlike (P : Failure → Prop) (t t' : FileTree) (x : Work α) : Prop :=
  ∃ r ns, (∀ e, r = .error e → P e) ∧
    ∀ n, execute x ⟨t, n⟩ = (r, ⟨t, n ++ ns⟩) ∧ execute x ⟨t', n⟩ = (r, ⟨t', n ++ ns⟩)

namespace ReadsAlike

theorem pure (a : α) : ReadsAlike P t t' (Pure.pure a) := ⟨.ok a, [], by simp, by simp⟩

theorem between {t₀ : FileTree} {x : Work α} (h : ReadsAlike P t₀ t x)
    (h' : ReadsAlike P t₀ t' x) : ReadsAlike P t t' x := by
  obtain ⟨r, ns, hP, hx⟩ := h
  obtain ⟨r', ns', -, hx'⟩ := h'
  obtain ⟨rfl, hns⟩ := Prod.mk.inj ((hx []).1.symm.trans (hx' []).1)
  obtain rfl : ns = ns' := by simpa using hns
  exact ⟨r, ns, hP, fun n => ⟨(hx n).2, (hx' n).2⟩⟩

theorem throw {e : Failure} (he : P e) : ReadsAlike P t t' (throw e : Work α) :=
  ⟨.error e, [], by rintro _ ⟨⟩; exact he, by simp⟩

theorem ofExcept {f : ε → Failure} {r : Except ε α} (hr : ∀ e, r = .error e → P (f e)) :
    ReadsAlike P t t' (Work.ofExcept f r) := by
  cases r with
  | ok a => exact pure a
  | error e => exact throw (hr e rfl)

theorem notify (n : Notice) : ReadsAlike P t t' (Work.notify n) := ⟨.ok (), [n], by simp, by simp⟩

theorem bind {x : Work α} {f : α → Work β} (hx : ReadsAlike P t t' x)
    (hf : ∀ a, ReadsAlike P t t' (f a)) : ReadsAlike P t t' (x >>= f) := by
  obtain ⟨r, ns, hP, hx⟩ := hx
  cases r with
  | error e =>
    refine ⟨.error e, ns, by rintro _ ⟨⟩; exact hP e rfl, fun n => ?_⟩
    rw [execute_bind_error (hx n).1, execute_bind_error (hx n).2]
    exact ⟨rfl, rfl⟩
  | ok a =>
    obtain ⟨r, ms, hP', hf⟩ := hf a
    refine ⟨r, ns ++ ms, hP', fun n => ?_⟩
    rw [execute_bind_ok (hx n).1, execute_bind_ok (hx n).2, (hf _).1, (hf _).2]
    simp

/-- Work on the tree reads alike when it goes on alike from both. -/
theorem tree {f : FileTree → Work α} (hf : f t = f t') (hx : ReadsAlike P t t' (f t)) :
    ReadsAlike P t t' (Work.tree >>= f) := by
  obtain ⟨r, ns, hP, hx⟩ := hx
  refine ⟨r, ns, hP, fun n => ?_⟩
  simp only [execute_bind, Work.execute_tree, ← hf]
  exact hx n

theorem readBytes {p : Path} {b : List UInt8} (h : t.read p = .ok b) (h' : t'.read p = t.read p) :
    ReadsAlike P t t' (Work.readBytes p) := by
  refine tree ?_ (ofExcept ?_)
  · rw [h']
  · simp [h]

theorem readText {p : Path} {b : List UInt8} (h : t.read p = .ok b) (h' : t'.read p = t.read p)
    (hP : ∀ e, P (.undecodable e)) : ReadsAlike P t t' (Work.readText p) :=
  bind (readBytes h h') fun _ => bind (ofExcept fun e _ => hP e) fun _ => pure _

theorem readMarkedText {p : Path} {b : List UInt8} (h : t.read p = .ok b)
    (h' : t'.read p = t.read p) (hP : ∀ e, P (.undecodable e)) :
    ReadsAlike P t t' (Work.readMarkedText p) :=
  bind (readBytes h h') fun _ => bind (ofExcept fun e _ => hP e) fun _ => pure _

/-- Notices for a list of texts. -/
theorem notifyAll (notice : String → Notice) (texts : List String) :
    ReadsAlike P t t' (forIn texts PUnit.unit fun x _ => do
      Work.notify (notice x)
      return ForInStep.yield PUnit.unit) := by
  induction texts with
  | nil => exact pure _
  | cons x xs ih =>
    simp only [List.forIn_cons, bind_assoc, pure_bind] at ih ⊢
    exact bind (notify _) fun _ => ih

end ReadsAlike

/-- Two trees that show the same script with the same descriptor. -/
structure SameScript (script : Path) (extension : String) (t t' : FileTree) : Prop where
  current : t'.current = t.current
  read : t'.read script = t.read script
  isFile : ∀ d, Descriptor.pathOf script extension = .ok d → t'.isFile d = t.isFile d
  descriptor : ∀ d, Descriptor.pathOf script extension = .ok d → t.isFile d = true →
    t'.read d = t.read d

variable {script : Path} {extension : String}

theorem SameScript.refl (script : Path) (extension : String) (t : FileTree) :
    SameScript script extension t t :=
  ⟨rfl, rfl, fun _ _ => rfl, fun _ _ _ => rfl⟩

/-- The failures that a conversion may have: those that leave the script to be copied,
and that of a script for whose descriptor there is no name. -/
def SpoilsOrUnnamed (script : Path) (extension : String) (f : Failure) : Prop :=
  f.spoilsConversion = true ∨ ∃ e, Descriptor.pathOf script extension = .error e ∧ f = .naming e

theorem readsAlike_descriptorFields (h : SameScript script extension t t') (maxDepth : Int) :
    ReadsAlike (SpoilsOrUnnamed script extension) t t'
      (Transform.descriptorFields script extension maxDepth) := by
  rw [Transform.descriptorFields]
  cases hd : Descriptor.pathOf script extension with
  | error e =>
    have hthrow : ReadsAlike (SpoilsOrUnnamed script extension) t t'
        (throw (.naming e) : Work (List Field)) := .throw (.inr ⟨e, hd, rfl⟩)
    exact hthrow
  | ok d =>
    have hpure : Work.ofExcept Failure.naming (.ok d) = pure d := rfl
    rw [hpure, pure_bind]
    refine .tree (by simp only [h.isFile d hd]) ?_
    by_cases hfile : t.isFile d = true
    · simp only [hfile, Bool.not_true, Bool.false_eq_true, ↓reduceIte]
      obtain ⟨b, hb⟩ := FileTree.read_of_isFile hfile
      exact .bind (.readMarkedText hb (h.descriptor d hd hfile) fun _ => .inl rfl) fun _ =>
        .bind (.ofExcept fun _ _ => .inl rfl) fun _ => .pure _
    · simp only [hfile, Bool.not_false, ↓reduceIte]
      exact .pure _

theorem readsAlike_run {o : ScriptOptions} (h : SameScript script o.extension t t')
    (text : List Char) :
    ReadsAlike (SpoilsOrUnnamed script o.extension) t t' (Transform.run o script text) := by
  rw [Transform.run]
  refine .tree (by simp only [h.current]) ?_
  split
  · exact .pure _
  · split
    · exact .pure _
    · refine .bind (.ofExcept fun _ _ => .inl rfl) fun s => ?_
      split
      · exact .pure _
      · split
        · exact .pure _
        · refine .bind (readsAlike_descriptorFields h _) fun members => ?_
          refine .bind (.ofExcept fun _ _ => .inl rfl) fun r => ?_
          exact .bind (.notifyAll _ _) fun _ => .bind (.notify _) fun _ => .pure _

theorem readsAlike_converted? {s : Syncer} (h : SameScript script s.configuration.extension t t')
    {content : List UInt8} (hscript : t.read script = .ok content) :
    ReadsAlike (SpoilsOrUnnamed script s.configuration.extension) t t' (s.converted? script) := by
  rw [Syncer.converted?]
  refine .tree (by simp only [h.current]) ?_
  split
  · exact .pure _
  · have hoptions : SameScript script s.configuration.scriptOptions.extension t t' := h
    refine .bind (.readText hscript h.read fun _ => .inl rfl) fun text => ?_
    refine .bind (readsAlike_run hoptions text) fun r => ?_
    cases r <;> exact .pure _

namespace Syncer

variable {s : Syncer}

def bytesOfResult (content : List UInt8) : Except Failure (Option (List Char)) → List UInt8
  | .ok (some text) => Text.encode text
  | _ => content

/-- The bytes that are due at the target of a file: those of the text it is converted to,
or else its own. -/
def dueBytes (s : Syncer) (t : FileTree) (source : Path) (content : List UInt8) : List UInt8 :=
  bytesOfResult content (execute (s.converted? source) ⟨t, []⟩).1

/-- Two trees in which a file has the same bytes and becomes the same thing. -/
structure SameDue (s : Syncer) (source : Path) (t t' : FileTree) : Prop where
  read : t'.read source = t.read source
  conversion : ReadsAlike (SpoilsOrUnnamed source s.configuration.extension) t t'
    (s.converted? source)

/-- What a script becomes hangs on its bytes and its descriptor alone. -/
theorem sameDue_of_sameScript (h : SameScript script s.configuration.extension t t')
    {content : List UInt8} (hscript : t.read script = .ok content) : SameDue s script t t' :=
  ⟨h.read, readsAlike_converted? h hscript⟩

/-- What is not eligible is left as it is. -/
theorem sameDue_of_ineligible {source : Path} (hcurrent : t'.current = t.current)
    (hread : t'.read source = t.read source)
    (h : s.configuration.scriptOptions.isEligible t.current source = false) :
    SameDue s source t t' := by
  refine ⟨hread, ?_⟩
  rw [converted?]
  refine .tree (by simp only [hcurrent]) ?_
  simp only [h, Bool.not_false, ↓reduceIte]
  exact .pure _

theorem SameDue.between {source : Path} {t₀ : FileTree} (h : SameDue s source t₀ t)
    (h' : SameDue s source t₀ t') : SameDue s source t t' :=
  ⟨h'.read.trans h.read.symm, h.conversion.between h'.conversion⟩

theorem SameDue.dueBytes {source : Path} (h : SameDue s source t t') (content : List UInt8) :
    s.dueBytes t' source content = s.dueBytes t source content := by
  obtain ⟨r, ns, -, hr⟩ := h.conversion
  rw [Syncer.dueBytes, Syncer.dueBytes, (hr []).1, (hr []).2]

/-- The text that an eligible script in UTF-8 is transformed to. -/
def RewrittenTo (s : Syncer) (t : FileTree) (source : Path) (content : List UInt8)
    (text : List Char) : Prop :=
  s.configuration.scriptOptions.isEligible t.current source = true ∧
    ∃ cs r w, Text.decode content = .ok cs ∧
      execute (Transform.run s.configuration.scriptOptions source (Text.unifyLineEnds cs))
        ⟨t, []⟩ = (.ok (.converted r), w) ∧ r.text = text

/-- The failure of a conversion that was attempted. -/
def SpoiledBy (s : Syncer) (t : FileTree) (source : Path) (content : List UInt8)
    (f : Failure) : Prop :=
  s.configuration.scriptOptions.isEligible t.current source = true ∧
    ((∃ e, Text.decode content = .error e ∧ f = .undecodable e) ∨
      ∃ cs w, Text.decode content = .ok cs ∧
        execute (Transform.run s.configuration.scriptOptions source (Text.unifyLineEnds cs))
          ⟨t, []⟩ = (.error f, w))

theorem converted?_result {source : Path} {content : List UInt8}
    (hread : t.read source = .ok content) :
    (execute (s.converted? source) ⟨t, []⟩).1 =
      if s.configuration.scriptOptions.isEligible t.current source then
        match Text.decode content with
        | .error e => .error (.undecodable e)
        | .ok cs =>
          match (execute (Transform.run s.configuration.scriptOptions source
              (Text.unifyLineEnds cs)) ⟨t, []⟩).1 with
          | .error f => .error f
          | .ok (.converted r) => .ok (some r.text)
          | .ok (.unchanged _) => .ok none
      else .ok none := by
  rw [converted?, execute_bind, Work.execute_tree]
  simp only
  cases heligible : s.configuration.scriptOptions.isEligible t.current source with
  | false => simp
  | true =>
    simp only [Bool.not_true, Bool.false_eq_true, ↓reduceIte]
    rw [execute_bind, Work.readText, execute_bind, execute_readBytes, hread]
    simp only [Except.mapError, execute_bind]
    cases hdecode : Text.decode content with
    | error e => simp
    | ok cs =>
      simp only [Work.execute_ofExcept_ok, execute_pure]
      cases hrun : execute (Transform.run s.configuration.scriptOptions source
          (Text.unifyLineEnds cs)) ⟨t, []⟩ with
      | mk r w =>
        cases r with
        | error f => rfl
        | ok transformed => cases transformed <;> rfl

theorem converted?_eq_some {source : Path} {content : List UInt8} {text : List Char}
    (hread : t.read source = .ok content) :
    (execute (s.converted? source) ⟨t, []⟩).1 = .ok (some text) ↔
      RewrittenTo s t source content text := by
  rw [converted?_result hread, RewrittenTo]
  cases s.configuration.scriptOptions.isEligible t.current source with
  | false => simp
  | true =>
    cases Text.decode content with
    | error e => simp
    | ok cs =>
      cases hrun : execute (Transform.run s.configuration.scriptOptions source
          (Text.unifyLineEnds cs)) ⟨t, []⟩ with
      | mk r w =>
        cases r with
        | error f => simp [hrun]
        | ok transformed => cases transformed <;> simp [hrun]

theorem converted?_eq_error {source : Path} {content : List UInt8} {f : Failure}
    (hread : t.read source = .ok content) :
    (execute (s.converted? source) ⟨t, []⟩).1 = .error f ↔ SpoiledBy s t source content f := by
  rw [converted?_result hread, SpoiledBy]
  cases s.configuration.scriptOptions.isEligible t.current source with
  | false => simp
  | true =>
    cases Text.decode content with
    | error e => simpa using eq_comm
    | ok cs =>
      cases hrun : execute (Transform.run s.configuration.scriptOptions source
          (Text.unifyLineEnds cs)) ⟨t, []⟩ with
      | mk r w =>
        cases r with
        | error f => simp [hrun]
        | ok transformed => cases transformed <;> simp [hrun]

theorem dueBytes_of_rewritten {source : Path} {content : List UInt8} {text : List Char}
    (hread : t.read source = .ok content) (h : RewrittenTo s t source content text) :
    s.dueBytes t source content = Text.encode text := by
  rw [dueBytes, (converted?_eq_some hread).mpr h, bytesOfResult]

theorem dueBytes_of_not_rewritten {source : Path} {content : List UInt8}
    (hread : t.read source = .ok content) (h : ∀ text, ¬ RewrittenTo s t source content text) :
    s.dueBytes t source content = content := by
  rw [dueBytes]
  generalize hr : (execute (s.converted? source) ⟨t, []⟩).1 = r
  cases r with
  | error e => rfl
  | ok text? =>
    cases text? with
    | none => rfl
    | some text => exact absurd ((converted?_eq_some hread).mp hr) (h text)

/-- How the conversion of a file ends where only some failures leave it to be copied. -/
theorem execute_attempt (s : Syncer) (source : Path) (w : World) :
    execute (tryCatch (do return .ok (← s.converted? source))
      (fun e => if e.spoilsConversion then return .error e else throw e) :
        Work (Except Failure (Option (List Char)))) w =
      match execute (s.converted? source) w with
      | (.ok text?, w') => (.ok (.ok text?), w')
      | (.error e, w') => if e.spoilsConversion then (.ok (.error e), w') else (.error e, w') := by
  rw [execute_tryCatch, execute_bind]
  cases execute (s.converted? source) w with
  | mk r w' =>
    cases r with
    | ok text? => rfl
    | error e => cases hspoils : e.spoilsConversion <;> simp [hspoils]

/-- A failure that is no reason to copy the file goes through. -/
theorem execute_addFile_stopped {source : Path} (target : Path) {w w' : World} {e : Failure}
    (hspoils : e.spoilsConversion = false)
    (hconv : execute (s.converted? source) w = (.error e, w')) :
    execute (s.addFile source target) w = (.error e, w') := by
  rw [addFile, execute_bind, execute_attempt, hconv]
  simp [hspoils]

/-- What the outcome of a file tells: no more than whether its bytes were new at the
target. -/
structure Tells (source target : Path) (outcome : Bool → Outcome) : Prop where
  source : ∀ written, (outcome written).source = source
  notIgnored : ∀ written, (outcome written).action ≠ .ignored
  skipped : (outcome false).action = .skipped
  target : (outcome false).target = some target
  error : ∀ written, (outcome written).error = (outcome false).error

/-- The outcome of a file whose conversion has ended, by whether its bytes were new. -/
def outcomeOf (source target : Path) :
    Except Failure (Option (List Char)) → Bool → Outcome
  | .ok (some _), written =>
    ⟨source, if written then .transformed else .skipped, some target, none⟩
  | .ok none, written => ⟨source, if written then .copied else .skipped, some target, none⟩
  | .error e, written =>
    ⟨source, if written then .copied else .skipped, some target, some e.message⟩

theorem tells_outcomeOf (source target : Path) (r : Except Failure (Option (List Char))) :
    Tells source target (outcomeOf source target r) := by
  match r with
  | .ok (some _) | .ok none | .error _ =>
    exact ⟨fun _ => rfl, fun written => by cases written <;> simp [outcomeOf], rfl, rfl,
      fun _ => rfl⟩

theorem execute_copy_of_read {source : Path} {content : List UInt8} (target : Path)
    (error : Option String) {w : World} (hread : w.tree.read source = .ok content) :
    execute (copy source target error) w = execute (do
      let written ← update target content
      return ⟨source, if written then .copied else .skipped, some target, error⟩) w := by
  rw [copy, execute_bind, execute_readBytes, hread]
  rfl

/-- However else the conversion of a file ends, its target gets the bytes of the result. -/
theorem execute_addFile_goes_on (s : Syncer) (source target : Path) (content : List UInt8)
    (r : Except Failure (Option (List Char))) (hr : ∀ e, r = .error e → e.spoilsConversion = true) :
    ∃ ns : List Notice, ∀ w w', execute (s.converted? source) w = (r, w') →
      w'.tree.read source = .ok content → execute (s.addFile source target) w =
        execute (do return outcomeOf source target r (← update target (bytesOfResult content r)))
          ⟨w'.tree, w'.notices ++ ns⟩ := by
  match r, hr with
  | .error e, hr =>
    refine ⟨[.log .warning logName
      ("Cannot transform " ++ source.toString ++ ", copying it unchanged: " ++ e.message)],
      fun w w' hconv hw => ?_⟩
    rw [addFile, execute_bind, execute_attempt, hconv]
    simp only [hr e rfl, ↓reduceIte]
    rw [execute_bind, Work.execute_notify]
    exact execute_copy_of_read target (some e.message) hw
  | .ok none, _ =>
    refine ⟨[], fun w w' hconv hw => ?_⟩
    rw [addFile, execute_bind, execute_attempt, hconv, List.append_nil]
    exact execute_copy_of_read target none hw
  | .ok (some text), _ =>
    refine ⟨[], fun w w' hconv _ => ?_⟩
    rw [addFile, execute_bind, execute_attempt, hconv, List.append_nil]
    rfl

/-- What a file is added as: the bytes that are due at its target. Only without a name
for its descriptor it may not be added at all. -/
theorem execute_addFile_alike (h : SameDue s script t t') {content : List UInt8}
    (hscript : t.read script = .ok content) (target : Path) :
    ((∃ e, Descriptor.pathOf script s.configuration.extension = .error e) ∧
      ∃ f ns, ∀ n, execute (s.addFile script target) ⟨t, n⟩ = (.error f, ⟨t, n ++ ns⟩) ∧
        execute (s.addFile script target) ⟨t', n⟩ = (.error f, ⟨t', n ++ ns⟩)) ∨
    ∃ (outcome : Bool → Outcome) (ns : List Notice), Tells script target outcome ∧ ∀ n,
      execute (s.addFile script target) ⟨t, n⟩ =
        execute (do return outcome (← update target (s.dueBytes t script content))) ⟨t, n ++ ns⟩ ∧
      execute (s.addFile script target) ⟨t', n⟩ =
        execute (do return outcome (← update target (s.dueBytes t script content)))
          ⟨t', n ++ ns⟩ := by
  obtain ⟨r, ns, hallowed, hr⟩ := h.conversion
  by_cases hstop : ∃ e, r = .error e ∧ e.spoilsConversion = false
  · obtain ⟨e, rfl, hspoils⟩ := hstop
    obtain ⟨unnamed, hunnamed, -⟩ := (hallowed e rfl).resolve_left (by simp [hspoils])
    exact .inl ⟨⟨unnamed, hunnamed⟩, e, ns, fun n =>
      ⟨execute_addFile_stopped target hspoils (hr n).1,
        execute_addFile_stopped target hspoils (hr n).2⟩⟩
  · have hspoils (e : Failure) (he : r = .error e) : e.spoilsConversion = true := by
      rw [← Bool.not_eq_false]
      exact fun hno => hstop ⟨e, he, hno⟩
    obtain ⟨ns', hadd⟩ := execute_addFile_goes_on s script target content r hspoils
    refine .inr ⟨outcomeOf script target r, ns ++ ns', tells_outcomeOf .., fun n => ?_⟩
    rw [dueBytes, (hr []).1, ← List.append_assoc]
    exact ⟨hadd _ _ (hr n).1 hscript, hadd _ _ (hr n).2 (h.read.trans hscript)⟩

end Syncer

end SceneSync
