import SceneSync.Descriptor
import SceneSync.FileTree.Basic
import SceneSync.Script.Source
import SceneSync.Text.Utf8

/-!
# Failures

Everything that can keep a file from being processed. A script or a descriptor at
fault is the matter of one file; the other causes lie in the paths and the files
themselves.
-/

namespace SceneSync

inductive Failure where
  | script (error : ScriptError)
  | descriptor (error : DescriptorError)
  | undecodable (error : Text.DecodeError)
  | naming (error : Path.NamingError)
  /-- a path outside of the directory that it should lie in -/
  | outside (path root : Path)
  | file (error : FileError)
  deriving Repr

namespace Failure

def message : Failure → String
  | script e => e.message ScriptFault.message
  | descriptor e => e.message DescriptorFault.message
  | undecodable e => e.message
  | naming e => e.message
  | outside p r =>
    Text.literal p.toString ++ " is not in the subpath of " ++ Text.literal r.toString ++
      " OR one path is relative and the other is absolute."
  | file e => e.message

/-- Whether a script, its descriptor or their encoding is at fault, so that the script
can still be copied as it is. -/
def spoilsConversion : Failure → Bool
  | script _ | descriptor _ | undecodable _ => true
  | _ => false

/-- Whether the script or its descriptor is at fault for what it says. -/
def isContent : Failure → Bool
  | script _ | descriptor _ => true
  | _ => false

def isFile : Failure → Bool
  | file _ => true
  | _ => false

end Failure

end SceneSync
