import SceneSync.CommandLine.Run

/-!
# The reach of a command

The paths that decide what the arguments mean, and those that the command then
reads and changes with everything below them. Outside of these a file tree can
be left unknown.
-/

namespace SceneSync.CommandLine

/-- The texts in an argument that may name a path: all of it, what stands behind `=`,
and what stands behind the letter of a short option. -/
def namesIn (arg : String) : List String :=
  let cs := arg.toList
  [arg, String.ofList ((cs.dropWhile (· != '=')).drop 1), String.ofList (cs.drop 2)]

def argumentPaths (args : List String) : List Path :=
  ((settingsName :: args.flatMap namesIn).filter (· != "")).map Path.ofString

/-- The script, its descriptor, and the place of the result. -/
def TransformCommand.paths (c : TransformCommand) : List Path :=
  c.file :: (Descriptor.pathOf c.file Descriptor.extension).toOption.toList ++ c.output.toList

/-- The two directories, of which the first holds the conversion directory. -/
def SyncCommand.paths (t : FileTree) (c : SyncCommand) : List Path :=
  match configurationOf t c with
  | .ok configuration => [configuration.watchDir, configuration.outputDir]
  | .error _ => []

def Command.paths (t : FileTree) : Command → List Path
  | .version => []
  | .help => []
  | .transform c => c.paths
  | .sync c => c.paths t
  | .clean c => [c.output]

def reach (t : FileTree) (args : List String) : List Path :=
  match invocation t args with
  | some i => i.command.paths t
  | none => []

end SceneSync.CommandLine
