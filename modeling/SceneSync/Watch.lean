import SceneSync.Synchronisation

/-!
# Watching

While a directory is watched, each event in it brings one target up to date, or
two when something moves. A failure concerns its event only.
-/

namespace SceneSync

inductive Event where
  | created (path : String)
  | modified (path : String) (isDirectory : Bool)
  | deleted (path : String)
  | moved (source destination : String)
  deriving DecidableEq, Repr

structure Watcher where
  syncer : Syncer
  watching : Bool
  deriving DecidableEq, Repr

namespace Watcher

def of (s : Syncer) : Watcher := ⟨s, false⟩

/-- A full pass, after which the directory is watched; nothing when it is already. -/
def start (w : Watcher) : Work (Option Report × Watcher) := do
  if w.watching then return (none, w)
  let report ← w.syncer.fullPass
  Work.notify (.log .info Syncer.logName
    ("Watching " ++ w.syncer.watchRoot.toString ++ " -> " ++ w.syncer.outputRoot.toString))
  return (some report, { w with watching := true })

def stop (w : Watcher) : Watcher := { w with watching := false }

/-- Reports what became of a path, or why nothing did. -/
def report (path : String) (operation : Path → Work Outcome) : Work Unit := do
  let attempt : Work (Except Failure Outcome) := tryCatch
    (do return .ok (← operation (Path.ofString path)))
    (fun e => if e.isContent then throw e else return .error e)
  match ← attempt with
  | .error e => Syncer.warnFailed path e
  | .ok o =>
    if o.action != .ignored && o.action != .skipped then
      let target := (o.target.map Path.toString).getD "None"
      Work.notify (.log .info Syncer.logName (o.action.name ++ " " ++ target))

def handle (w : Watcher) : Event → Work Unit
  | .created p => report p (w.syncer.add · true)
  | .modified p isDirectory => if isDirectory then return else report p (w.syncer.add · true)
  | .deleted p => report p w.syncer.remove
  | .moved p q => do
    report p w.syncer.remove
    report q (w.syncer.add · true)

end Watcher

end SceneSync
