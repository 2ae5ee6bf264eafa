import Mathlib
import SceneSync.Proofs.Text.Encoding
import SceneSync.Splice

/-!
# The left-to-right splice

Edits are applied one by one from the back to the front. When they are in range
and apart, the result is what one pass from left to right writes: the gaps of
the source as they are, with the replacements between them. Nothing hangs on the
order in which the edits are given.
-/

namespace SceneSync.Edit

/-- The range lies in a source of the given size. -/
structure InRange (size : Nat) (e : Edit) : Prop where
  start : 0 ≤ e.start
  ordered : e.start ≤ e.stop
  stop : e.stop ≤ size

/-- One of the ranges ends before the other starts; touching ends are allowed. -/
def Apart (e f : Edit) : Prop := e.stop ≤ f.start ∨ f.stop ≤ e.start

def SamePlace (e f : Edit) : Prop := e.start = f.start ∧ e.stop = f.stop

/-- The order of a left-to-right pass. -/
def Precedes (e f : Edit) : Prop := e.stop ≤ f.start ∧ ¬ SamePlace e f

instance (size : Nat) (e : Edit) : Decidable (e.InRange size) :=
  decidable_of_iff (0 ≤ e.start ∧ e.start ≤ e.stop ∧ e.stop ≤ size)
    ⟨fun ⟨h1, h2, h3⟩ => ⟨h1, h2, h3⟩, fun ⟨h1, h2, h3⟩ => ⟨h1, h2, h3⟩⟩

instance (e f : Edit) : Decidable (SamePlace e f) :=
  inferInstanceAs (Decidable (e.start = f.start ∧ e.stop = f.stop))

instance (e f : Edit) : Decidable (Precedes e f) :=
  inferInstanceAs (Decidable (e.stop ≤ f.start ∧ ¬ SamePlace e f))

/-- What a left-to-right pass writes from byte `pos` on. -/
def splice (bytes : List UInt8) (pos : Nat) : List Edit → List UInt8
  | [] => bytes.drop pos
  | e :: es => (bytes.take e.start.toNat).drop pos ++ e.replacement ++
      splice bytes e.stop.toNat es

theorem clamp_eq {size : Nat} {i : Int} (h : 0 ≤ i) (h' : i ≤ size) : clamp size i = i.toNat := by
  rw [clamp, if_neg (by omega)]
  omega

theorem apply_eq {bytes : List UInt8} {e : Edit} (h : e.InRange bytes.length) :
    apply bytes e = bytes.take e.start.toNat ++ e.replacement ++ bytes.drop e.stop.toNat := by
  obtain ⟨h1, h2, h3⟩ := h
  rw [apply, clamp_eq h1 (by omega), clamp_eq (by omega) h3, Nat.max_eq_right (by omega)]

/-- Behind the edit applied last stands what the later edits have left there, and
before it the source is untouched. -/
theorem foldr_apply (bytes : List UInt8) (es : List Edit) (pos : Nat) (hpos : pos ≤ bytes.length)
    (hp : ∀ e ∈ es, (pos : Int) ≤ e.start) (hs : es.Pairwise Precedes)
    (hr : ∀ e ∈ es, e.InRange bytes.length) :
    es.foldr (fun e b => apply b e) bytes = bytes.take pos ++ splice bytes pos es := by
  induction es generalizing pos with
  | nil => simp [splice]
  | cons e es ih =>
    obtain ⟨he, hes⟩ := List.pairwise_cons.mp hs
    obtain ⟨h1, h2, h3⟩ := hr e (by simp)
    have hpe := hp e (by simp)
    have hrest := ih e.stop.toNat (by omega) (fun f hf => by have := (he f hf).1; omega) hes
      (fun f hf => hr f (by simp [hf]))
    have hlen : (bytes.take e.stop.toNat).length = e.stop.toNat := by
      rw [List.length_take]
      omega
    have hin : e.InRange (bytes.take e.stop.toNat ++ splice bytes e.stop.toNat es).length :=
      ⟨h1, h2, by rw [List.length_append, hlen]; omega⟩
    rw [List.foldr_cons, hrest, apply_eq hin, List.take_append_of_le_length (by omega),
      List.drop_append_of_le_length (by omega), List.take_take, Nat.min_eq_left (by omega)]
    have hdrop : (bytes.take e.stop.toNat).drop e.stop.toNat = [] :=
      List.drop_eq_nil_of_le (by omega)
    have hsplit : bytes.take pos ++ (bytes.take e.start.toNat).drop pos =
        bytes.take e.start.toNat := by
      have h := List.take_append_drop pos (bytes.take e.start.toNat)
      rwa [List.take_take, Nat.min_eq_left (by omega)] at h
    rw [hdrop, splice, List.nil_append, List.append_assoc, ← List.append_assoc (bytes.take pos),
      ← List.append_assoc (bytes.take pos), hsplit, List.append_assoc]

theorem notBefore_total (e f : Edit) : notBefore e f || notBefore f e := by
  simp only [notBefore, Bool.or_eq_true, Bool.and_eq_true, decide_eq_true_eq, beq_iff_eq]
  omega

theorem notBefore_trans (e f g : Edit) (h : notBefore e f) (h' : notBefore f g) :
    notBefore e g := by
  simp only [notBefore, Bool.or_eq_true, Bool.and_eq_true, decide_eq_true_eq, beq_iff_eq] at *
  omega

/-- Two edits in a left-to-right order are applied in the opposite one only. -/
theorem notBefore_of_precedes {e f : Edit} (h : Precedes e f) (he : e.start ≤ e.stop)
    (hf : f.start ≤ f.stop) : notBefore f e ∧ ¬ notBefore e f := by
  obtain ⟨h1, h2⟩ := h
  simp only [SamePlace] at h2
  simp only [notBefore, Bool.or_eq_true, Bool.and_eq_true, decide_eq_true_eq, beq_iff_eq]
  omega

/-- Sorting brings edits that are apart into the one order that their places fix. -/
theorem mergeSort_eq_reverse {edits sorted : List Edit} (hp : sorted.Perm edits)
    (hs : sorted.Pairwise Precedes) (ho : ∀ e ∈ sorted, e.start ≤ e.stop) :
    edits.mergeSort notBefore = sorted.reverse := by
  have hback : sorted.Pairwise (fun e f => notBefore f e ∧ ¬ notBefore e f) :=
    hs.imp_of_mem fun {e f} he hf h => notBefore_of_precedes h (ho e he) (ho f hf)
  have hanti : ∀ e ∈ sorted, ∀ f ∈ sorted, notBefore e f → notBefore f e → e = f :=
    List.Pairwise.forall_of_forall_of_flip (fun _ _ _ _ => rfl)
      (hback.imp fun h h1 _ => absurd h1 h.2) (hback.imp fun h _ h2 => absurd h2 h.2)
  have hperm : (edits.mergeSort notBefore).Perm sorted.reverse :=
    (List.mergeSort_perm edits _).trans (hp.symm.trans sorted.reverse_perm.symm)
  have hmem {e : Edit} (he : e ∈ edits.mergeSort notBefore) : e ∈ sorted := by
    simpa using hperm.mem_iff.mp he
  have hsorted : sorted.reverse.Pairwise fun e f => notBefore e f :=
    List.pairwise_reverse.mpr (hback.imp fun h => h.1)
  refine List.Perm.eq_of_pairwise ?_
    (List.pairwise_mergeSort notBefore_trans notBefore_total edits) hsorted hperm
  intro e f he hf
  exact hanti e (hmem he) f (by simpa using hf)

/-- Edits that are in range and apart have the effect of one left-to-right pass, in
whatever order they are given. -/
theorem applyAll_eq_splice {bytes : List UInt8} {edits sorted : List Edit}
    (hp : sorted.Perm edits) (hs : sorted.Pairwise Precedes)
    (hr : ∀ e ∈ sorted, e.InRange bytes.length) :
    applyAll bytes edits = splice bytes 0 sorted := by
  rw [applyAll, mergeSort_eq_reverse hp hs (fun e he => (hr e he).ordered), List.foldl_reverse]
  rw [foldr_apply bytes sorted 0 (by omega) (fun e he => (hr e he).start) hs hr]
  simp

/-- Separate edits have a left-to-right order. -/
theorem exists_sorted {edits : List Edit} (hn : edits.Nodup)
    (ha : ∀ e ∈ edits, ∀ f ∈ edits, e ≠ f → Apart e f ∧ ¬ SamePlace e f)
    (ho : ∀ e ∈ edits, e.start ≤ e.stop) :
    ∃ sorted : List Edit, sorted.Perm edits ∧ sorted.Pairwise Precedes := by
  have hperm : (edits.mergeSort notBefore).Perm edits := List.mergeSort_perm edits _
  have horder := List.pairwise_mergeSort notBefore_trans notBefore_total edits
  have hdistinct : (edits.mergeSort notBefore).Pairwise (· ≠ ·) := hperm.nodup_iff.mpr hn
  refine ⟨(edits.mergeSort notBefore).reverse,
    (List.reverse_perm _).trans hperm, List.pairwise_reverse.mpr ?_⟩
  refine (horder.and hdistinct).imp_of_mem ?_
  intro f e hf he h
  obtain ⟨hfe, hne⟩ := h
  have he' := hperm.mem_iff.mp he
  have hf' := hperm.mem_iff.mp hf
  obtain ⟨hapart, hplace⟩ := ha e he' f hf' (Ne.symm hne)
  have h1 := ho e he'
  have h2 := ho f hf'
  refine ⟨?_, hplace⟩
  simp only [Apart] at hapart
  simp only [notBefore, Bool.or_eq_true, Bool.and_eq_true, decide_eq_true_eq, beq_iff_eq] at hfe
  omega

/-- How many bytes an edit adds. -/
def growth (e : Edit) : Int := e.replacement.length - (e.stop - e.start)

/-- A splice is as long as the rest of the source and all that the edits add. -/
theorem length_splice {bytes : List UInt8} {es : List Edit} (pos : Nat) (hpos : pos ≤ bytes.length)
    (hp : ∀ e ∈ es, (pos : Int) ≤ e.start) (hs : es.Pairwise Precedes)
    (hr : ∀ e ∈ es, e.InRange bytes.length) :
    ((splice bytes pos es).length : Int) = bytes.length - pos + (es.map growth).sum := by
  induction es generalizing pos with
  | nil =>
    rw [splice, List.length_drop, List.map_nil, List.sum_nil]
    omega
  | cons e es ih =>
    obtain ⟨he, hes⟩ := List.pairwise_cons.mp hs
    obtain ⟨h1, h2, h3⟩ := hr e (by simp)
    have hpe := hp e (by simp)
    have hrest := ih e.stop.toNat (by omega)
      (fun f hf => by have := (he f hf).1; omega) hes fun f hf => hr f (by simp [hf])
    have hgap : ((bytes.take e.start.toNat).drop pos).length = e.start.toNat - pos := by
      rw [List.length_drop, List.length_take]
      omega
    rw [splice, List.length_append, List.length_append, hgap, List.map_cons, List.sum_cons, growth]
    push_cast
    omega

/-- Edits that are in range, apart and at places of their own have one left-to-right
order. In whatever order they are given, the result is the splice in that one, and its
size is that of the source and of all that the edits add. -/
theorem applyAll_simultaneous {bytes : List UInt8} {edits : List Edit}
    (hr : ∀ e ∈ edits, e.InRange bytes.length)
    (ha : edits.Pairwise fun e f => Apart e f ∧ ¬ SamePlace e f) :
    ∃ sorted : List Edit, sorted.Perm edits ∧ sorted.Pairwise Precedes ∧
      (∀ l : List Edit, l.Perm edits → l.Pairwise Precedes → l = sorted) ∧
      (∀ given : List Edit, given.Perm edits → applyAll bytes given = splice bytes 0 sorted) ∧
      ((applyAll bytes edits).length : Int) = bytes.length + (edits.map growth).sum := by
  have hdistinct : edits.Nodup := ha.imp fun h heq => h.2 (by simp [SamePlace, heq])
  have hsymm : Std.Symm fun e f : Edit => Apart e f ∧ ¬ SamePlace e f :=
    ⟨fun _ _ h => ⟨h.1.symm, fun hplace => h.2 ⟨hplace.1.symm, hplace.2.symm⟩⟩⟩
  obtain ⟨sorted, hperm, hsorted⟩ :=
    exists_sorted hdistinct ha.forall fun e he => (hr e he).ordered
  have hrange {l : List Edit} (hl : l.Perm edits) : ∀ e ∈ l, e.InRange bytes.length :=
    fun e he => hr e (hl.mem_iff.mp he)
  refine ⟨sorted, hperm, hsorted, fun l hl horder => ?_, fun given hgiven => ?_, ?_⟩
  · have hback := mergeSort_eq_reverse hl horder fun e he => (hrange hl e he).ordered
    rw [mergeSort_eq_reverse hperm hsorted fun e he => (hrange hperm e he).ordered] at hback
    exact (List.reverse_injective hback).symm
  · exact applyAll_eq_splice (hperm.trans hgiven.symm) hsorted (hrange hperm)
  · rw [applyAll_eq_splice hperm hsorted (hrange hperm), length_splice 0 (Nat.zero_le _)
      (fun e he => (hrange hperm e he).start) hsorted (hrange hperm), (hperm.map growth).sum_eq]
    simp

/-- An insertion in front of a range that is replaced, and a deletion right behind it. -/
theorem applyAll_simultaneous_touching :
    let bytes : List UInt8 := [0, 1, 2, 3, 4]
    let edits : List Edit := [⟨3, 4, []⟩, ⟨1, 3, [9]⟩, ⟨1, 1, [7, 8]⟩]
    (∀ e ∈ edits, e.InRange bytes.length) ∧
      (edits.Pairwise fun e f => Apart e f ∧ ¬ SamePlace e f) ∧
      ∀ given : List Edit, given.Perm edits → applyAll bytes given = [0, 7, 8, 9, 4] := by
  intro bytes edits
  have hr : ∀ e ∈ edits, e.InRange bytes.length := by decide
  have ha : edits.Pairwise fun e f => Apart e f ∧ ¬ SamePlace e f := by
    simp [edits, Apart, SamePlace]
  obtain ⟨sorted, -, -, honly, hsplice, -⟩ := applyAll_simultaneous hr ha
  obtain rfl := honly edits.reverse edits.reverse_perm (by decide)
  exact ⟨hr, ha, hsplice⟩

/-- Spliced at character boundaries with texts, an encoded text stays one. -/
theorem splice_encoded {cs : List Char} {edits : List Edit} {pos : Nat}
    (hpos : Text.Boundary cs pos)
    (hb : ∀ e ∈ edits, Text.Boundary cs e.start.toNat ∧ Text.Boundary cs e.stop.toNat)
    (hr : ∀ e ∈ edits, ∃ ds, e.replacement = Text.encode ds) :
    ∃ ds, splice (Text.encode cs) pos edits = Text.encode ds := by
  induction edits generalizing pos with
  | nil => exact Text.exists_encode_drop hpos
  | cons e es ih =>
    obtain ⟨hstart, hstop⟩ := hb e (by simp)
    obtain ⟨gap, hgap⟩ := Text.exists_encode_between hpos hstart
    obtain ⟨new, hnew⟩ := hr e (by simp)
    obtain ⟨rest, hrest⟩ := ih hstop (fun f hf => hb f (by simp [hf]))
      (fun f hf => hr f (by simp [hf]))
    exact ⟨gap ++ new ++ rest, by
      rw [splice, hgap, hnew, hrest, Text.encode_append, Text.encode_append]⟩

/-! ## Parts of a splice -/

/-- The edit in a source that lacks the first `n` bytes. -/
def shift (n : Nat) (e : Edit) : Edit := ⟨e.start - n, e.stop - n, e.replacement⟩

theorem splice_drop (bytes : List UInt8) (n pos : Nat) {es : List Edit}
    (h : ∀ e ∈ es, (n : Int) ≤ e.start ∧ e.start ≤ e.stop) :
    splice (bytes.drop n) pos (es.map (shift n)) = splice bytes (n + pos) es := by
  induction es generalizing pos with
  | nil => rw [List.map_nil, splice, splice, List.drop_drop]
  | cons e es ih =>
    obtain ⟨h1, h2⟩ := h e (by simp)
    have hstart : e.start.toNat = n + (e.start - n).toNat := by omega
    have hstop : e.stop.toNat = n + (e.stop - n).toNat := by omega
    rw [List.map_cons, splice, splice, hstart, hstop, ← ih _ fun f hf => h f (by simp [hf])]
    rw [shift, List.take_drop, List.drop_drop]

theorem drop_eq_append (bytes : List UInt8) {pos m : Nat} (h : pos ≤ m) :
    bytes.drop pos = (bytes.take m).drop pos ++ bytes.drop m := by
  have hsplit := List.take_append_drop (m - pos) (bytes.drop pos)
  rw [List.drop_drop, Nat.add_sub_cancel' h] at hsplit
  rw [List.drop_take, hsplit]

/-- Up to a byte that no edit is across, a splice is that of what comes before. -/
theorem splice_append {bytes : List UInt8} {pos m : Nat} {es fs : List Edit} (hpos : pos ≤ m)
    (hes : es.Pairwise Precedes)
    (hin : ∀ e ∈ es, (pos : Int) ≤ e.start ∧ e.start ≤ e.stop ∧ e.stop ≤ m)
    (hfs : ∀ f ∈ fs, (m : Int) ≤ f.start) :
    splice bytes pos (es ++ fs) = splice (bytes.take m) pos es ++ splice bytes m fs := by
  induction es generalizing pos with
  | nil =>
    rw [List.nil_append, splice]
    cases fs with
    | nil => exact drop_eq_append bytes hpos
    | cons f fs =>
      have hm := hfs f (by simp)
      rw [splice, splice, drop_eq_append _ hpos, List.take_take, Nat.min_eq_left (by omega)]
      simp only [List.append_assoc]
  | cons e es ih =>
    obtain ⟨he, hes⟩ := List.pairwise_cons.mp hes
    obtain ⟨h1, h2, h3⟩ := hin e (by simp)
    rw [List.cons_append, splice, splice, ih (by omega) hes ?_, List.take_take,
      Nat.min_eq_left (by omega)]
    · simp only [List.append_assoc]
    · intro f hf
      obtain ⟨-, h4, h5⟩ := hin f (by simp [hf])
      have := (he f hf).1
      exact ⟨by omega, h4, h5⟩

/-! ## What a splice keeps -/

/-- Whether a byte is in none of the ranges. -/
def spares (edits : List Edit) (i : Nat) : Bool :=
  edits.all fun e => (i : Int) < e.start || e.stop ≤ (i : Int)

/-- The bytes from `pos` on that are in none of the ranges. -/
def sparedFrom (bytes : List UInt8) (pos : Nat) (edits : List Edit) : List UInt8 :=
  (((bytes.drop pos).zipIdx pos).filter fun b => spares edits b.2).map (·.1)

theorem spares_iff {edits : List Edit} {i : Nat} :
    spares edits i = true ↔ ∀ e ∈ edits, (i : Int) < e.start ∨ e.stop ≤ (i : Int) := by
  simp [spares, List.all_eq_true]

/-- Which bytes are spared does not hang on the order of the edits. -/
theorem sparedFrom_congr {edits edits' : List Edit} (h : ∀ e, e ∈ edits ↔ e ∈ edits')
    (bytes : List UInt8) (pos : Nat) :
    sparedFrom bytes pos edits = sparedFrom bytes pos edits' := by
  rw [sparedFrom, sparedFrom]
  congr 2
  funext b
  rw [Bool.eq_iff_iff, spares_iff, spares_iff]
  simp only [h]

/-- Up to the end of the first range what comes before it is spared. -/
theorem sparedFrom_cons {bytes : List UInt8} {pos : Nat} {e : Edit} {es : List Edit}
    (hpos : (pos : Int) ≤ e.start) (he : e.InRange bytes.length)
    (hes : ∀ f ∈ es, e.stop ≤ f.start) : sparedFrom bytes pos (e :: es) =
      (bytes.take e.start.toNat).drop pos ++ sparedFrom bytes e.stop.toNat es := by
  obtain ⟨h1, h2, h3⟩ := he
  have hsplit : bytes.drop pos = (bytes.take e.start.toNat).drop pos ++
      ((bytes.take e.stop.toNat).drop e.start.toNat ++ bytes.drop e.stop.toNat) := by
    rw [← drop_eq_append bytes (by omega), ← drop_eq_append bytes (by omega)]
  have hgap : pos + ((bytes.take e.start.toNat).drop pos).length = e.start.toNat := by
    rw [List.length_drop, List.length_take]
    omega
  have hmid : e.start.toNat + ((bytes.take e.stop.toNat).drop e.start.toNat).length =
      e.stop.toNat := by
    rw [List.length_drop, List.length_take]
    omega
  rw [sparedFrom, hsplit, List.zipIdx_append, List.zipIdx_append, hgap, hmid, List.filter_append,
    List.filter_append, List.map_append, List.map_append]
  have hbefore : (((bytes.take e.start.toNat).drop pos).zipIdx pos).filter
      (fun b => spares (e :: es) b.2) = ((bytes.take e.start.toNat).drop pos).zipIdx pos := by
    refine List.filter_eq_self.mpr fun b hb => spares_iff.mpr fun f hf => .inl ?_
    have hlt := (List.mem_zipIdx hb).2.1
    rw [hgap] at hlt
    cases hf with
    | head => omega
    | tail _ hf =>
      have := hes f hf
      omega
  have hinside : (((bytes.take e.stop.toNat).drop e.start.toNat).zipIdx e.start.toNat).filter
      (fun b => spares (e :: es) b.2) = [] := by
    refine List.filter_eq_nil_iff.mpr fun b hb hspared => ?_
    obtain ⟨hge, hlt, -⟩ := List.mem_zipIdx hb
    rw [hmid] at hlt
    have := spares_iff.mp hspared e (by simp)
    omega
  have hbehind : ((bytes.drop e.stop.toNat).zipIdx e.stop.toNat).filter
      (fun b => spares (e :: es) b.2) = ((bytes.drop e.stop.toNat).zipIdx e.stop.toNat).filter
        fun b => spares es b.2 := by
    refine List.filter_congr fun b hb => ?_
    have hge := (List.mem_zipIdx hb).1
    rw [Bool.eq_iff_iff, spares_iff, spares_iff, List.forall_mem_cons]
    exact and_iff_right (.inr (by omega))
  rw [hbefore, hinside, hbehind, List.zipIdx_map_fst, List.map_nil, List.nil_append]
  rfl

theorem sparedFrom_nil (bytes : List UInt8) (pos : Nat) :
    sparedFrom bytes pos [] = bytes.drop pos := by
  simp [sparedFrom, spares]

/-- Every byte outside of the ranges is in the splice, in its order. -/
theorem sparedFrom_sublist {bytes : List UInt8} {pos : Nat} {es : List Edit}
    (hpos : ∀ e ∈ es, (pos : Int) ≤ e.start) (hs : es.Pairwise Precedes)
    (hr : ∀ e ∈ es, e.InRange bytes.length) :
    (sparedFrom bytes pos es).Sublist (splice bytes pos es) := by
  induction es generalizing pos with
  | nil =>
    rw [sparedFrom_nil]
    exact List.Sublist.refl _
  | cons e es ih =>
    obtain ⟨he, hes⟩ := List.pairwise_cons.mp hs
    have hrange := hr e (by simp)
    have hstop := hrange.ordered
    have hstart := hrange.start
    rw [sparedFrom_cons (hpos e (by simp)) hrange fun f hf => (he f hf).1, splice]
    refine List.Sublist.append (List.sublist_append_left _ _) (ih (fun f hf => ?_) hes fun f hf =>
      hr f (by simp [hf]))
    have := (he f hf).1
    omega

/-- Without replacements there is nothing else in it. -/
theorem splice_of_deletions {bytes : List UInt8} {pos : Nat} {es : List Edit}
    (hpos : ∀ e ∈ es, (pos : Int) ≤ e.start) (hs : es.Pairwise Precedes)
    (hr : ∀ e ∈ es, e.InRange bytes.length) (hd : ∀ e ∈ es, e.replacement = []) :
    splice bytes pos es = sparedFrom bytes pos es := by
  induction es generalizing pos with
  | nil => rw [sparedFrom_nil, splice]
  | cons e es ih =>
    obtain ⟨he, hes⟩ := List.pairwise_cons.mp hs
    have hrange := hr e (by simp)
    have hstop := hrange.ordered
    have hstart := hrange.start
    rw [sparedFrom_cons (hpos e (by simp)) hrange fun f hf => (he f hf).1, splice,
      hd e (by simp), List.append_nil, ih (fun f hf => ?_) hes (fun f hf => hr f (by simp [hf]))
        fun f hf => hd f (by simp [hf])]
    have := (he f hf).1
    omega

end SceneSync.Edit
