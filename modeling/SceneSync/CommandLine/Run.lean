import SceneSync.CommandLine.Arguments

/-!
# Running commands

A command does its work on the file tree, tells the user what became of it and ends
with an exit code. A failure that it does not expect ends it as a failure.
-/

namespace SceneSync.CommandLine

def version : String := "0.3.0"

def programName : String := "phaserflow"

def settingsName : String := "phaserflow.yaml"

def say (line : String) : Work Unit := Work.notify (.out (line ++ "\n"))

def complain (line : String) : Work Unit := Work.notify (.err (line ++ "\n"))

def usage : String :=
  "Usage: " ++ programName ++ " [OPTIONS] COMMAND [ARGS]...\n\n" ++
  "Commands:\n" ++
  "  transform  Transform a single scene script\n" ++
  "  sync       Synchronize an editor directory into an output directory\n" ++
  "  clean      Remove editor-only files from a production build\n"

/-- Puts the converted text where it was asked for. -/
def deliver (c : TransformCommand) (text : List Char) : Work Unit := do
  match c.output with
  | some o =>
    Work.change do
      FileTree.ensureDirectories o.parent
      FileTree.write o (Text.encode text)
    say ("Transformed: " ++ c.file.toString ++ " -> " ++ o.toString)
  | none => Work.notify (.out (String.ofList text))

def runTransform (c : TransformCommand) : Work Nat := do
  let o : ScriptOptions :=
    { ScriptOptions.usual with
      conversionDir := some (c.conversionDir.getD c.file.parent)
      context := c.context
      sceneType := c.sceneType }
  let attempt : Work (Except Failure Transformed) := tryCatch
    (do return .ok (← Transform.run o c.file (← Work.readText c.file)))
    (fun e => if e.spoilsConversion then return .error e else throw e)
  match ← attempt with
  | .error (.undecodable e) =>
    complain ("Error: " ++ c.file.toString ++ ": not UTF-8 text: " ++ e.message)
    return 1
  | .error e =>
    complain ("Error: " ++ e.message)
    return 1
  | .ok (.unchanged why) =>
    complain ("Unchanged: " ++ why.reason)
    return 0
  | .ok (.converted r) =>
    r.warnings.forM fun w => complain ("Warning: " ++ w)
    deliver c r.text
    return 0

/-- The configuration of a command: that of its settings file, of the one in the
current directory, or none but the directories given. -/
def baseConfiguration (t : FileTree) (c : SyncCommand) :
    Except ConfigurationError Configuration :=
  let usual := Path.ofString settingsName
  let settings := if c.settings.isNone && t.isFile usual then some usual else c.settings
  match settings, c.watchDir, c.outputDir with
  | some p, _, _ => Configuration.load t p
  | none, some w, some o => .ok (Configuration.ofDirectories w o)
  | none, _, _ => .error .missingDirectories

/-- The configuration with what the command gives itself. -/
def configurationOf (t : FileTree) (c : SyncCommand) :
    Except ConfigurationError Configuration := do
  let base ← baseConfiguration t c
  return { base with
    watchDir := c.watchDir.getD base.watchDir
    outputDir := c.outputDir.getD base.outputDir
    conversionDir := c.conversionDir.orElse fun _ => base.conversionDir
    exclude := if c.exclude.isEmpty then base.exclude else c.exclude }

def saySummary (c : Configuration) (r : Report) : Work Unit :=
  say ("Synchronized " ++ c.watchDir.toString ++ " -> " ++ c.outputDir.toString ++ ": " ++
    r.summary)

/-- One full pass, and the watch after it when that was asked for; it ends as soon as
it is interrupted. -/
def syncWith (c : Configuration) (watch : Bool) : Work Nat := do
  let t ← Work.tree
  if !t.isDirectory c.watchDir then
    complain ("Error: Not a directory: " ++ c.watchDir.toString)
    return 1
  let s := Syncer.of c t.current
  if watch then
    let (report, w) ← (Watcher.of s).start
    report.forM (saySummary c)
    say "Watching for changes (Ctrl+C to stop)..."
    let _ := w.stop
    say "Stopped."
  else
    let report ← s.fullPass
    report.failures.forM fun o =>
      complain ("Warning: " ++ o.source.toString ++ ": " ++ o.error.getD "")
    saySummary c report
  return 0

def runSync (c : SyncCommand) : Work Nat := do
  match configurationOf (← Work.tree) c with
  | .ok configuration => syncWith configuration c.watch
  | .error (.undecodable e) => throw (.undecodable e)
  | .error e =>
    complain ("Error: " ++ e.message)
    return 1

def runClean (c : CleanCommand) : Work Nat := do
  let cleaned ← Cleaning.clean c.output c.watchDirName c.dryRun
  cleaned.refused.forM fun e =>
    complain ("Warning: Refusing to remove '" ++ e ++ "' (outside " ++ c.output.toString ++ ")")
  let count := toString cleaned.removed.length ++ " path(s)"
  if c.dryRun then
    cleaned.removed.forM fun p => say ("Would remove: " ++ p.toString)
    say ("Would remove " ++ count)
  else say ("Removed " ++ count)
  return 0

def runCommand : Command → Work Nat
  | .version => do
    say (programName ++ ", version " ++ version)
    return 0
  | .help => do
    Work.notify (.out usage)
    return 0
  | .transform c => runTransform c
  | .sync c => runSync c
  | .clean c => runClean c

/-! ## What the user sees -/

/-- How a run ends. -/
inductive Ending where
  /-- the arguments are no command -/
  | misused
  | exited (code : Nat)
  | failed (failure : Failure)
  deriving Repr

structure Session where
  ending : Ending
  world : World
  verbose : Bool

/-- Runs the program on a file tree. -/
def run (t : FileTree) (args : List String) : Session :=
  match invocation t args with
  | none => ⟨.misused, ⟨t, []⟩, false⟩
  | some i =>
    let (r, w) := (runCommand i.command).run ⟨t, []⟩
    match r with
    | .ok code => ⟨.exited code, w, i.verbose⟩
    | .error e => ⟨.failed e, w, i.verbose⟩

namespace Session

def code (s : Session) : Nat :=
  match s.ending with
  | .misused => 2
  | .exited c => c
  | .failed _ => 1

def out (s : Session) : String :=
  String.join (s.world.notices.filterMap fun
    | .out text => some text
    | _ => none)

/-- Without the word of the user only warnings are shown of the log. -/
def err (s : Session) : String :=
  String.join (s.world.notices.filterMap fun
    | .out _ => none
    | .err text => some text
    | n@(.log level _ _) =>
      if s.verbose || level == .warning then n.logLine?.map (· ++ "\n") else none)

end Session

end SceneSync.CommandLine
