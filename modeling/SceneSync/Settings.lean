import SceneSync.Text.Integer
import SceneSync.Transform
import SceneSync.Yaml.Read

/-!
# Settings

A settings file is a mapping with a few known keys. Everything in it is checked
before anything is used. The paths in it are seen from its own directory, and what
it leaves out has a default.
-/

namespace SceneSync

/-- What a settings file says, with nothing added. -/
structure Settings where
  watchDir : String
  outputDir : String
  conversionDir : Option String
  context : Option String
  sceneType : Option String
  extension : Option String
  exclude : Option (List String)
  maxDepth : Option Int
  deriving DecidableEq, Repr

/-- The directories of a synchronisation, and how it treats what is in them. -/
structure Configuration where
  watchDir : Path
  outputDir : Path
  conversionDir : Option Path
  exclude : List String
  context : String
  sceneType : String
  extension : String
  maxDepth : Int
  deriving DecidableEq, Repr

inductive SettingsFault where
  | notYaml
  | notMapping
  | unknownKeys (keys : List String)
  | missingKeys (keys : List String)
  | notText (key : String)
  | badExclude
  | badDepth
  deriving DecidableEq, Repr

def SettingsFault.message : SettingsFault → String
  | notYaml => "invalid YAML"
  | notMapping => "configuration must be a mapping"
  | unknownKeys ks => "unknown keys: " ++ ", ".intercalate ks
  | missingKeys ks => "missing required keys: " ++ ", ".intercalate ks
  | notText k => "'" ++ k ++ "' must be a string"
  | badExclude => "'exclude' must be a list of strings"
  | badDepth => "'max_descriptor_depth' must be an integer"

namespace Settings

def requiredKeys : List String := ["watch_dir", "output_dir"]

def allKeys : List String :=
  ["watch_dir", "output_dir", "conversion_dir", "context_name", "scene_type",
   "descriptor_extension", "exclude", "max_descriptor_depth"]

/-- Whether the value of a required key is there. -/
def isGiven : Option Yaml → Bool
  | none | some .null => false
  | some (.scalar s) => s != ""
  | some (.sequence xs) => !xs.isEmpty
  | some (.mapping es) => !es.isEmpty

/-- The text under a key that may be missing. -/
def text? (entries : List (String × Yaml)) (key : String) :
    Except SettingsFault (Option String) :=
  match Yaml.valueOf? entries key with
  | none | some .null => .ok none
  | some (.scalar s) => .ok (some s)
  | some _ => .error (.notText key)

def scalarText? : Yaml → Option String
  | .scalar s => some s
  | _ => none

/-- The patterns to exclude: one text or a list of texts. -/
def exclude? (entries : List (String × Yaml)) : Except SettingsFault (Option (List String)) :=
  match Yaml.valueOf? entries "exclude" with
  | none | some .null => .ok none
  | some (.scalar s) => .ok (some [s])
  | some (.sequence xs) =>
    match xs.mapM scalarText? with
    | some ss => .ok (some ss)
    | none => .error .badExclude
  | some (.mapping _) => .error .badExclude

def maxDepth? (entries : List (String × Yaml)) : Except SettingsFault (Option Int) :=
  match Yaml.valueOf? entries "max_descriptor_depth" with
  | none | some .null => .ok none
  | some (.scalar s) =>
    match Text.toInt? s with
    | some n => .ok (some n)
    | none => .error .badDepth
  | some _ => .error .badDepth

def ofYaml (value : Yaml) : Except SettingsFault Settings := do
  match value with
  | .mapping entries =>
    let unknown := (entries.map (·.1)).filter (!allKeys.contains ·)
    if !unknown.isEmpty then throw (.unknownKeys unknown.eraseDups.mergeSort)
    let missing := requiredKeys.filter fun k => !isGiven (Yaml.valueOf? entries k)
    if !missing.isEmpty then throw (.missingKeys missing)
    let watchDir ← text? entries "watch_dir"
    let outputDir ← text? entries "output_dir"
    let conversionDir ← text? entries "conversion_dir"
    let context ← text? entries "context_name"
    let sceneType ← text? entries "scene_type"
    let extension ← text? entries "descriptor_extension"
    let exclude ← exclude? entries
    let maxDepth ← maxDepth? entries
    return ⟨watchDir.getD "", outputDir.getD "", conversionDir, context, sceneType, extension,
      exclude, maxDepth⟩
  | _ => throw .notMapping

def read (text : List Char) : Except SettingsFault Settings :=
  match Yaml.read text with
  | some v => ofYaml v
  | none => .error .notYaml

/-- The configuration of settings that were read in a directory. -/
def configuration (s : Settings) (base : Path) : Configuration :=
  let path (p : String) : Path := base.join (Path.ofString p)
  { watchDir := path s.watchDir
    outputDir := path s.outputDir
    conversionDir := s.conversionDir.map path
    exclude := s.exclude.getD []
    context := s.context.getD Script.ConversionOptions.usual.context
    sceneType := s.sceneType.getD Script.ConversionOptions.usual.sceneType
    extension := s.extension.getD Descriptor.extension
    maxDepth := s.maxDepth.getD Descriptor.usualMaxDepth }

end Settings

/-- Why there is no configuration. Settings that cannot be decoded are no matter of
what they say. -/
inductive ConfigurationError where
  | unreadable (path : Path) (error : FileError)
  | undecodable (error : Text.DecodeError)
  | invalid (source : String) (fault : SettingsFault)
  /-- neither settings nor both directories are given -/
  | missingDirectories
  deriving DecidableEq, Repr

def ConfigurationError.message : ConfigurationError → String
  | unreadable p e => "Cannot read " ++ p.toString ++ ": " ++ e.message
  | undecodable e => e.message
  | invalid s f => s ++ ": " ++ f.message
  | missingDirectories => "WATCH_DIR and OUTPUT_DIR are required without a configuration file"

namespace Configuration

def ofDirectories (watchDir outputDir : Path) : Configuration :=
  { watchDir := watchDir
    outputDir := outputDir
    conversionDir := none
    exclude := []
    context := Script.ConversionOptions.usual.context
    sceneType := Script.ConversionOptions.usual.sceneType
    extension := Descriptor.extension
    maxDepth := Descriptor.usualMaxDepth }

def scriptOptions (c : Configuration) : ScriptOptions :=
  ⟨c.conversionDir, c.context, c.sceneType, c.extension, c.maxDepth⟩

/-- Reads the settings file at a path. -/
def load (t : FileTree) (p : Path) : Except ConfigurationError Configuration :=
  match t.read p with
  | .error e => .error (.unreadable p e)
  | .ok bytes =>
    match Text.decode bytes with
    | .error e => .error (.undecodable e)
    | .ok cs =>
      match Settings.read (Text.unifyLineEnds cs) with
      | .error f => .error (.invalid p.toString f)
      | .ok s => .ok (s.configuration p.parent)

end Configuration

end SceneSync
