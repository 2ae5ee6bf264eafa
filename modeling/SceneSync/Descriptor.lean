import SceneSync.Extensions
import SceneSync.Json.Read
import SceneSync.Located
import SceneSync.ObjectKind
import SceneSync.Path

/-!
# Scene descriptors

A descriptor lists the objects that the editor builds for a scene. The public
ones among them become fields of the scene, under the types of their kinds.
-/

namespace SceneSync

/-- Puts things on a stack one after the other: the last of them comes off first. -/
def Stack.push {α : Type} (stack : List α) (xs : List α) : List α :=
  xs.foldl (fun st x => x :: st) stack

theorem Stack.push_eq {α : Type} (stack xs : List α) :
    Stack.push stack xs = xs.reverse ++ stack := by
  induction xs generalizing stack with
  | nil => rfl
  | cons x xs ih =>
    have h := ih (x :: stack)
    rw [Stack.push, List.foldl_cons, ← Stack.push, h]
    simp

/-- An object of the display list, with those it contains. -/
inductive Item where
  | mk (label kind scope : String) (children : List Item)
  deriving Repr

namespace Item

def label : Item → String
  | mk l _ _ _ => l

def kind : Item → String
  | mk _ k _ _ => k

def scope : Item → String
  | mk _ _ s _ => s

def children : Item → List Item
  | mk _ _ _ cs => cs

def publicScope : String := "PUBLIC"

def isPublic (i : Item) : Bool := i.scope == publicScope

mutual
/-- An item and those inside it, parents first. -/
def preorder : Item → List Item
  | mk l k s cs => mk l k s cs :: preorderAll cs

def preorderAll : List Item → List Item
  | [] => []
  | i :: is => preorder i ++ preorderAll is
end

/-- Gives the item at a place its contents. A place is the positions that lead there, and
the place of the whole list is empty. -/
def fill (contents : List Item) : List Nat → List Item → List Item
  | [], _ => contents
  | n :: place, items => items.modify n fun i =>
    mk i.label i.kind i.scope (fill contents place i.children)

/-- How much there is in some items. -/
noncomputable def weight : List Item → Nat
  | [] => 0
  | i :: is => sizeOf i + weight is

theorem weight_append (is js : List Item) : weight (is ++ js) = weight is + weight js := by
  induction is with
  | nil => simp [weight]
  | cons i is ih =>
    simp only [List.cons_append, weight, ih]
    omega

theorem weight_children_lt (i : Item) : weight i.children < sizeOf i := by
  obtain ⟨l, k, s, cs⟩ := i
  have h : weight cs ≤ sizeOf cs := by
    induction cs with
    | nil => simp [weight]
    | cons c cs ih =>
      simp only [weight, List.cons.sizeOf_spec]
      omega
  simp only [children, mk.sizeOf_spec]
  omega

/-- The items that come off a stack. Those inside an item go onto it when the item comes
off, the first of them last. -/
def takenFrom : List Item → List Item
  | [] => []
  | i :: stack => i :: takenFrom (Stack.push stack i.children.reverse)
termination_by stack => weight stack
decreasing_by
  have := weight_children_lt i
  simp only [Stack.push_eq, List.reverse_reverse, weight_append, weight]
  omega

/-- The items and those inside them. -/
def listed (items : List Item) : List Item := takenFrom (Stack.push [] items.reverse)

/-- The field that an item becomes: a public one that has a kind. -/
def field? (i : Item) : Option Field :=
  if i.isPublic && i.kind != "" then some ⟨i.label, ObjectKind.typeOf i.kind⟩ else none

end Item

inductive DescriptorFault where
  | notJson (error : Json.ReadError)
  | rootNotObject
  | listNotArray
  | entryNotObject
  /-- a label, kind or scope that is no text -/
  | notText (label : Json)
  | noLabel (kind : String)
  | tooDeep (limit : Int)
  deriving Repr

namespace DescriptorFault

def message : DescriptorFault → String
  | notJson e => "invalid JSON: " ++ e.message
  | rootNotObject => "descriptor root must be an object"
  | listNotArray => "display list must be an array"
  | entryNotObject => "display list entries must be objects"
  | notText l => "item " ++ l.literal ++ " has a non-string label, type or scope"
  | noLabel k => "public " ++ k ++ " has no label"
  | tooDeep n => "display list nesting exceeds " ++ toString n ++ " levels"

def isTooDeep : DescriptorFault → Bool
  | tooDeep _ => true
  | _ => false

end DescriptorFault

abbrev DescriptorError := Located DescriptorFault

namespace Descriptor

def usualMaxDepth : Int := 1000

/-- A member that counts as empty text when it is absent in any way. -/
def textMember? (members : List (String × Json)) (key : String) : Option String :=
  match Json.member? members key with
  | none => some ""
  | some v =>
    if v.isFalsy then some ""
    else match v with
      | .string s => some s
      | _ => none

/-- An entry of the display list without what it contains. -/
def entry (raw : Json) : Except DescriptorFault (String × String × String) :=
  match raw with
  | .object ms =>
    let label := (Json.member? ms "label").getD (.string "")
    match textMember? ms "type", textMember? ms "scope", label with
    | some kind, some scope, .string l =>
      if scope == Item.publicScope && kind != "" && l == "" then .error (.noLabel kind)
      else .ok (l, kind, scope)
    | _, _, _ => .error (.notText label)
  | _ => .error .entryNotObject

/-- The raw list of what an entry contains, if there is anything in it. -/
def inner? (raw : Json) : Option Json :=
  match raw with
  | .object ms => (Json.member? ms "list").filter (fun v => !v.isFalsy)
  | _ => none

theorem sizeOf_lookup_lt {ms : List (String × Json)} {k : String} {v : Json}
    (h : ms.lookup k = some v) : sizeOf v < sizeOf ms := by
  induction ms with
  | nil => simp at h
  | cons m ms ih =>
    obtain ⟨k', v'⟩ := m
    rw [List.lookup_cons] at h
    split at h
    · cases h
      simp
      omega
    · have := ih h
      simp
      omega

theorem sizeOf_inner_lt {raw v : Json} (h : inner? raw = some v) : sizeOf v < sizeOf raw := by
  unfold inner? at h
  split at h
  · rename_i ms
    have h1 := Option.eq_some_of_filter_eq_some h
    have := sizeOf_lookup_lt h1
    simp
    omega
  · cases h

/-- An item with nothing in it yet. -/
def bare (head : String × String × String) : Item := .mk head.1 head.2.1 head.2.2 []

/-- A raw list that has yet to be read: the place of the item that it belongs to, and
its depth. -/
structure Pending where
  raw : Json
  place : List Nat
  depth : Int

/-- What the entries of a list contain, as lists that have yet to be read. -/
def Pending.inside (p : Pending) (entries : List Json) : List Pending :=
  entries.zipIdx.filterMap fun e =>
    (inner? e.1).map fun v => ⟨v, p.place ++ [e.2], p.depth + 1⟩

/-- Items of which some still lack their contents, and the stack of what is missing. -/
structure Building where
  items : List Item
  pending : List Pending

/-- Reads a list that came off the stack. All its entries are read before what any of
them contains. -/
def readList (limit : Int) (p : Pending) (b : Building) : Except DescriptorFault Building := do
  if limit < p.depth then throw (.tooDeep limit)
  match p.raw with
  | .array entries =>
    let heads ← entries.mapM entry
    return ⟨Item.fill (heads.map bare) p.place b.items, Stack.push b.pending (p.inside entries)⟩
  | _ => throw .listNotArray

/-- How much is yet to be read. -/
noncomputable def weight : List Pending → Nat
  | [] => 0
  | p :: ps => sizeOf p.raw + weight ps

theorem weight_append (ps qs : List Pending) : weight (ps ++ qs) = weight ps + weight qs := by
  induction ps with
  | nil => simp [weight]
  | cons p ps ih =>
    simp only [List.cons_append, weight, ih]
    omega

theorem weight_reverse (ps : List Pending) : weight ps.reverse = weight ps := by
  induction ps with
  | nil => rfl
  | cons p ps ih =>
    rw [List.reverse_cons, weight_append, ih]
    simp only [weight]
    omega

theorem weight_inside (p : Pending) (entries : List Json) :
    weight (p.inside entries) ≤ sizeOf entries := by
  rw [Pending.inside]
  generalize 0 = n
  induction entries generalizing n with
  | nil => simp [weight]
  | cons e es ih =>
    have hrest := ih (n + 1)
    rw [List.zipIdx_cons, List.filterMap_cons]
    cases he : inner? e with
    | none =>
      simp only [Option.map_none, List.cons.sizeOf_spec]
      omega
    | some v =>
      have hv := sizeOf_inner_lt he
      simp only [Option.map_some, List.cons.sizeOf_spec]
      simp only [weight] at hrest ⊢
      omega

theorem weight_readList {limit : Int} {p : Pending} {items : List Item} {ps : List Pending}
    {b : Building} (h : readList limit p ⟨items, ps⟩ = .ok b) :
    weight b.pending < weight (p :: ps) := by
  rw [readList] at h
  split at h
  · cases h
  · split at h
    · rename_i entries hraw
      cases hheads : entries.mapM entry with
      | error f => simp [hheads, bind, Except.bind] at h
      | ok heads =>
        simp only [hheads, bind, Except.bind, pure, Except.pure, Except.ok.injEq] at h
        subst h
        have := weight_inside p entries
        rw [Stack.push_eq, weight_append, weight_reverse]
        simp only [weight, hraw, Json.array.sizeOf_spec]
        omega
    · cases h

/-- Reads what is on the stack, and what comes onto it on the way. -/
def build (limit : Int) (b : Building) : Except DescriptorFault (List Item) :=
  match b with
  | ⟨items, []⟩ => .ok items
  | ⟨items, p :: pending⟩ =>
    match h : readList limit p ⟨items, pending⟩ with
    | .ok b =>
      have := weight_readList h
      build limit b
    | .error f => .error f
termination_by weight b.pending

/-- The items of a raw display list. -/
def itemsOf (limit : Int) (raw : Json) : Except DescriptorFault (List Item) :=
  build limit ⟨[], [⟨raw, [], 1⟩]⟩

/-- The display list of a descriptor's text. -/
def read (limit : Int) (content : List Char) : Except DescriptorFault (List Item) :=
  match Json.read content with
  | .error .tooDeep => .error (.tooDeep limit)
  | .error e => .error (.notJson e)
  | .ok (.object ms) =>
    match Json.member? ms "displayList" with
    | none | some .null => .ok []
    | some list => itemsOf limit list
  | .ok _ => .error .rootNotObject

/-- The fields of the public items, in the order of the descriptor. -/
def fields (items : List Item) : List Field := (Item.listed items).filterMap Item.field?

/-! ## Where a script's descriptor is -/

def extension : String := ".scene"

def scriptSuffixes : List String := [".js", ".ts"]

def pathOf (script : Path) (extension : String) : Except Path.NamingError Path :=
  if scriptSuffixes.contains script.suffix then script.withSuffix extension
  else script.withName (script.name ++ extension)

end Descriptor

end SceneSync
