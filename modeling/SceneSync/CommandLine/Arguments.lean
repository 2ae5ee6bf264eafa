import SceneSync.Cleaning
import SceneSync.Watch

/-!
# Arguments of the command line

Options stand anywhere among the arguments of a command, before `--`; those of the
program itself stand before the command. Arguments that name files are checked
against the file tree, so a command never starts on a path of the wrong kind.
`none` stands for arguments that are no command.
-/

namespace SceneSync.CommandLine

/-! ## Options -/

structure OptionForm where
  names : List String
  key : String
  takesValue : Bool

structure Parsed where
  /-- the options in the order given, by key; those without value hold nothing -/
  options : List (String × String)
  arguments : List String
  deriving DecidableEq, Repr

namespace Parsed

/-- The last value of an option. -/
def value? (p : Parsed) (k : String) : Option String := p.options.reverse.lookup k

def values (p : Parsed) (k : String) : List String :=
  (p.options.filter (·.1 == k)).map (·.2)

def has (p : Parsed) (k : String) : Bool := p.options.any (·.1 == k)

end Parsed

def form? (forms : List OptionForm) (name : String) : Option OptionForm :=
  forms.find? (·.names.contains name)

/-- A long option and the value behind `=`, if there is one. -/
def splitEquals (cs : List Char) : String × Option String :=
  let name := cs.takeWhile (· != '=')
  match cs.drop name.length with
  | _ :: v => (String.ofList name, some (String.ofList v))
  | [] => (String.ofList name, none)

/-- The options of a run of letters behind one hyphen, and the key of the last one
when its value has to follow. -/
def shortOptions (forms : List OptionForm) :
    List Char → Option (List (String × String) × Option String)
  | [] => some ([], none)
  | c :: cs => do
    let f ← form? forms (String.ofList ['-', c])
    if f.takesValue then
      if cs.isEmpty then return ([], some f.key)
      return ([(f.key, String.ofList cs)], none)
    let (os, k) ← shortOptions forms cs
    return ((f.key, "") :: os, k)

/-- What one argument that starts with a hyphen says. -/
def optionOf (forms : List OptionForm) (arg : String) :
    Option (List (String × String) × Option String) :=
  match arg.toList with
  | '-' :: '-' :: _ => do
    let (name, value) := splitEquals arg.toList
    let f ← form? forms name
    match f.takesValue, value with
    | true, some v => return ([(f.key, v)], none)
    | true, none => return ([], some f.key)
    | false, none => return ([(f.key, "")], none)
    | false, some _ => none
  | '-' :: cs => shortOptions forms cs
  | _ => none

def isOption (arg : String) : Bool :=
  match arg.toList with
  | '-' :: _ :: _ => true
  | _ => false

/-- Reads the arguments of a command; when `mixed` does not hold, the first argument
that is no option ends the options. -/
def parse (forms : List OptionForm) (mixed : Bool) : List String → Option Parsed
  | [] => some ⟨[], []⟩
  | a :: rest =>
    if a == "--" then some ⟨[], rest⟩
    else if isOption a then
      match optionOf forms a with
      | none => none
      | some (os, none) =>
        (parse forms mixed rest).map fun p => { p with options := os ++ p.options }
      | some (os, some k) =>
        match rest with
        | [] => none
        | v :: others =>
          (parse forms mixed others).map fun p => { p with options := os ++ (k, v) :: p.options }
    else if mixed then
      (parse forms mixed rest).map fun p => { p with arguments := a :: p.arguments }
    else some ⟨[], a :: rest⟩

/-! ## Paths -/

/-- Which kind of thing an argument may name. -/
structure PathForm where
  mustExist : Bool
  files : Bool
  directories : Bool

def path? (t : FileTree) (f : PathForm) (arg : String) : Option Path :=
  let p := Path.ofString arg
  let found := if arg == "" then none else (t.find true p).toOption
  match found with
  | none => if f.mustExist then none else some p
  | some .directory => if f.directories then some p else none
  | some _ => if f.files then some p else none

/-- An option that may be left out, but not name the wrong kind of thing. -/
def optionalPath (t : FileTree) (f : PathForm) : Option String → Option (Option Path)
  | none => some none
  | some a => (path? t f a).map some

/-! ## Commands -/

structure TransformCommand where
  file : Path
  conversionDir : Option Path
  output : Option Path
  context : String
  sceneType : String
  deriving DecidableEq, Repr

structure SyncCommand where
  watchDir : Option Path
  outputDir : Option Path
  settings : Option Path
  conversionDir : Option Path
  exclude : List String
  watch : Bool
  deriving DecidableEq, Repr

structure CleanCommand where
  output : Path
  watchDirName : String
  dryRun : Bool
  deriving DecidableEq, Repr

inductive Command where
  | version
  | help
  | transform (c : TransformCommand)
  | sync (c : SyncCommand)
  | clean (c : CleanCommand)
  deriving DecidableEq, Repr

structure Invocation where
  verbose : Bool
  command : Command
  deriving DecidableEq, Repr

def existingFile : PathForm := ⟨true, true, false⟩

def anyFile : PathForm := ⟨false, true, false⟩

def existingDirectory : PathForm := ⟨true, false, true⟩

def anyDirectory : PathForm := ⟨false, false, true⟩

def helpForm : OptionForm := ⟨["--help"], "help", false⟩

def programForms : List OptionForm :=
  [⟨["--version"], "version", false⟩, ⟨["-v", "--verbose"], "verbose", false⟩, helpForm]

def transformForms : List OptionForm :=
  [⟨["--conversion-dir"], "conversion-dir", true⟩, ⟨["-o", "--output"], "output", true⟩,
   ⟨["--context-name"], "context-name", true⟩, ⟨["--scene-type"], "scene-type", true⟩, helpForm]

def syncForms : List OptionForm :=
  [⟨["--config"], "config", true⟩, ⟨["--conversion-dir"], "conversion-dir", true⟩,
   ⟨["--exclude"], "exclude", true⟩, ⟨["--watch"], "watch", false⟩, helpForm]

def cleanForms : List OptionForm :=
  [⟨["--watch-dir-name"], "watch-dir-name", true⟩, ⟨["--dry-run"], "dry-run", false⟩, helpForm]

def transformCommand (t : FileTree) (p : Parsed) : Option Command := do
  let [file] := p.arguments | none
  let file ← path? t existingFile file
  let conversionDir ← optionalPath t anyDirectory (p.value? "conversion-dir")
  let output ← optionalPath t anyFile (p.value? "output")
  return .transform ⟨file, conversionDir, output,
    (p.value? "context-name").getD Script.ConversionOptions.usual.context,
    (p.value? "scene-type").getD Script.ConversionOptions.usual.sceneType⟩

def syncCommand (t : FileTree) (p : Parsed) : Option Command := do
  guard (p.arguments.length ≤ 2)
  let watchDir ← optionalPath t anyDirectory p.arguments[0]?
  let outputDir ← optionalPath t anyDirectory p.arguments[1]?
  let settings ← optionalPath t existingFile (p.value? "config")
  let conversionDir ← optionalPath t anyDirectory (p.value? "conversion-dir")
  return .sync ⟨watchDir, outputDir, settings, conversionDir, p.values "exclude",
    p.has "watch"⟩

def cleanCommand (t : FileTree) (p : Parsed) : Option Command := do
  let [output] := p.arguments | none
  let output ← path? t existingDirectory output
  return .clean ⟨output, ← p.value? "watch-dir-name", p.has "dry-run"⟩

/-- A command by its name, with its arguments. -/
def commandOf (t : FileTree) (name : String) (args : List String) : Option Command := do
  let (forms, make) ← match name with
    | "transform" => some (transformForms, transformCommand t)
    | "sync" => some (syncForms, syncCommand t)
    | "clean" => some (cleanForms, cleanCommand t)
    | _ => none
  let p ← parse forms true args
  if p.has "help" then return .help
  make p

/-- What the arguments of the program ask for. -/
def invocation (t : FileTree) (args : List String) : Option Invocation := do
  let p ← parse programForms false args
  let verbose := p.has "verbose"
  match (p.options.map (·.1)).filter (· != "verbose") with
  | "version" :: _ => return ⟨verbose, .version⟩
  | _ :: _ => return ⟨verbose, .help⟩
  | [] =>
    match p.arguments with
    | name :: rest => return ⟨verbose, ← commandOf t name rest⟩
    | [] => none

end SceneSync.CommandLine
