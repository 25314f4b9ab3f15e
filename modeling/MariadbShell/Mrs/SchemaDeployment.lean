import MariadbShell.ImportTable.Dialect
import MariadbShell.Lib.Attempt
import MariadbShell.Lib.Decimal

/-!
# Deployment of the metadata schema

`Script_deployer::deploy` creates the metadata schema or updates it in place with a script.
Before an update the schema is dumped, so that it can be dropped and loaded back when the
script fails. How each step on the server or on the disk ends is given from outside.
-/

namespace MariadbShell.Mrs

open List
open ImportTable (Bytes ascii)
open Lib Attempt

/-- A text of the source. -/
def word (text : String) : Bytes :=
  ascii text.toList

/-! ## Versions -/

structure Version where
  major : Int
  minor : Int
  patch : Int
deriving DecidableEq, Repr

namespace Version

def str (version : Version) : Bytes :=
  Decimal.decimalInt version.major ++ word "." ++ Decimal.decimalInt version.minor ++
    word "." ++ Decimal.decimalInt version.patch

/-- `operator<=`, which compares the fields in their order. -/
def Le (version other : Version) : Prop :=
  version.major < other.major ∨ version.major = other.major ∧
    (version.minor < other.minor ∨ version.minor = other.minor ∧ version.patch ≤ other.patch)

instance : DecidableRel Le :=
  fun _ _ => inferInstanceAs (Decidable (_ ∨ _))

instance : Std.Total Le where
  total version other := by
    unfold Le
    omega

instance : IsTrans Version Le where
  trans first second third := by
    unfold Le
    omega

end Version

/-- `k_schema_version`. -/
def schemaVersion : Version := ⟨5, 0, 0⟩

/-- `updatable_versions`, from the update procedures in the order of the script. -/
def updatableVersions (procedures : List Version) : List Version :=
  (procedures.foldl (fun versions version =>
    if version ∈ versions then versions else versions ++ [version]) []).insertionSort Version.Le

/-- No updatable version is newer than the last one. -/
theorem le_getLast_updatableVersions {procedures : List Version} {version last : Version}
    (member : version ∈ updatableVersions procedures)
    (final : (updatableVersions procedures).getLast? = some last) : version.Le last := by
  have sorted : (updatableVersions procedures).Pairwise Version.Le := pairwise_insertionSort _ _
  obtain ⟨front, split⟩ := getLast?_eq_some_iff.mp final
  rw [split] at member sorted
  rcases mem_append.mp member with before | same
  · exact (pairwise_append.mp sorted).2.2 version before last (by simp)
  · obtain rfl := mem_singleton.mp same
    exact (Std.Total.total version version).elim id id

/-! ## Server and disk -/

/-- The metadata schema: as it was found, after a script that failed on the way, or after
a script that completed. -/
inductive Schema where
  | absent
  | original
  | changed
  | updated
deriving DecidableEq, Repr

inductive Directory where
  | absent
  | incomplete
  | complete
deriving DecidableEq, Repr

/-- What held when the schema was dropped. -/
structure Drop where
  scriptDone : Bool
  backup : Directory
deriving DecidableEq, Repr

/-- The server, the disk, the members of `Dump_schema_backup` and the log. -/
structure Deployment where
  schema : Schema
  scriptDone : Bool
  drops : List Drop
  localInfile : Bool
  directory : Directory
  hasSession : Bool
  originalLocalInfile : Bool
  messages : List (Bytes × Bytes)
deriving DecidableEq, Repr

/-- How the removal of a folder ends; if it fails, some files may be gone. -/
inductive Removal where
  | removed
  | failed (error : Bytes) (left : Directory)
deriving DecidableEq, Repr

/-- How the steps of a deployment end, or the text of their errors. -/
structure Steps where
  script : Option Bytes
  substitute : Bytes → Except Bytes Bytes
  lock : Except Bytes Unit
  schemaQuery : Except Bytes Unit
  managed : Except Bytes Bool
  version : Except Bytes Version
  procedures : Bytes → Except Bytes (List Version)
  dataPath : Except Bytes Unit
  createDirectory : Except Bytes Unit
  localInfile : Except Bytes Bool
  enableLocalInfile : Except Bytes Unit
  dump : Except Bytes Unit
  discardIncomplete : Removal
  execute : Bytes → Except Bytes Unit
  discardDone : Removal
  disableLocalInfile : Except Bytes Unit
  drop : Except Bytes Unit
  restore : Except Bytes Unit
  discardRestored : Removal

abbrev Deploy := Attempt Deployment Bytes

/-- `Deployment_log::write`, which does not fail. -/
def log (type : String) (text : List Bytes) : Deploy Unit :=
  modify fun state =>
    { state with messages := state.messages ++ [(word type, text.flatten)] }

def fail {Value : Type} (text : List Bytes) : Deploy Value := do
  log "ERROR" text
  raise text.flatten

/-! ## The dump of the schema -/

namespace DumpSchemaBackup

variable (steps : Steps)

/-- The server has to accept the files of the dump when it is loaded back. -/
def enableLocalInfile (original : Bool) : Deploy Unit :=
  if original then pure ()
  else handle
    (do
      log "INFO" [word ("Enabling local_infile option in order to be able to " ++
        "load back the schema dump in case of an update error...")]
      lift steps.enableLocalInfile
      modify fun state => { state with localInfile := true })
    fun _ => raise (word ("Failed to enable the local_infile option. Please execute " ++
      "SET PERSIST GLOBAL local_infile=1; on the MariaDB Server."))

/-- `create`, with a folder that no other backup has. -/
def create (name : Bytes) (version : Version) : Deploy Unit := do
  lift steps.dataPath
  modify fun state => { state with directory := .absent }
  lift steps.createDirectory
  modify fun state => { state with directory := .incomplete, hasSession := true }
  let original ← lift steps.localInfile
  modify fun state => { state with originalLocalInfile := original }
  enableLocalInfile steps original
  log "INFO" [word "Creating dump of `", name, word "` version ", version.str, word " ..."]
  lift steps.dump
  modify fun state => { state with directory := .complete }

def restore : Deploy Unit := do
  lift steps.restore
  modify fun state => { state with schema := .original }

/-- The first part of `discard`; an error is no reason to fail. -/
def resetLocalInfile : Deploy Unit := do
  let state ← get
  if state.originalLocalInfile = false ∧ state.hasSession then
    handle
      (do
        lift steps.disableLocalInfile
        modify fun state => { state with localInfile := false }
        log "INFO" [word "Restored local_infile option."])
      fun _ => pure ()
    modify fun state => { state with originalLocalInfile := true }
  else pure ()

def removeDirectory (removal : Removal) : Deploy Unit := do
  let state ← get
  if state.directory = .absent then pure ()
  else
    match removal with
    | .removed => modify fun state => { state with directory := .absent }
    | .failed error left => do
        modify fun state => { state with directory := left }
        raise error

def discard (removal : Removal) : Deploy Unit := do
  resetLocalInfile steps
  removeDirectory removal

end DumpSchemaBackup

/-! ## The deployment -/

namespace ScriptDeployer

variable (setup : Setup) (steps : Steps)

/-- The name of the schema, the path of the script and whether there is a `m_backup`. -/
structure Setup where
  name : Bytes
  scriptPath : Bytes
  hasBackup : Bool

/-- Nothing to do, or the script to run and the version to update if the schema exists. -/
inductive Plan where
  | unchanged (info : Bytes)
  | run (script : Bytes) (current : Option Version)
deriving DecidableEq, Repr

/-- `Deployment or update of database schema … using version …`. -/
def requested : List Bytes :=
  [word "Deployment or update of database schema `", setup.name, word "` using version ",
    schemaVersion.str]

def currentVersion : Deploy (Option Version) := do
  lift steps.schemaQuery
  let state ← get
  if state.schema = .absent then pure none
  else
    let managed ← lift steps.managed
    if managed then
      let version ← lift steps.version
      pure (some version)
    else fail (requested setup ++ [word " requested but the schema is not managed by MSM."])

def planUpdate (script deployScript : Bytes)
    (current : Version) : Deploy Plan := do
  if current = schemaVersion then
    let info := requested setup ++ [word (" requested but the schema is already on the " ++
      "requested version. No changes performed.")]
    log "INFO" info
    pure (.unchanged info.flatten)
  else
    let procedures ← lift (steps.procedures script)
    let updatable := updatableVersions procedures
    match updatable.getLast?.filter fun last => ¬ current.Le last with
    | some last =>
      let info := [word "The database schema `", setup.name,
        word "` is on a newer version ", current.str,
        word " than shipped with this project (version ", last.str,
        word "). No changes performed."]
      log "INFO" info
      pure (.unchanged info.flatten)
    | none =>
      if current ∈ updatable then pure (.run deployScript (some current))
      else fail [word "Update of database schema `", setup.name, word "` to version ",
        schemaVersion.str, word " requested but the version ", current.str,
        word " cannot be updated."]

/-- The checks before the deployment. The lock is taken before the schema is looked at. -/
def plan : Deploy Plan := do
  match steps.script with
  | none => fail (requested setup ++ [word (" requested but there is no deployment script " ++
      "available for this version.")])
  | some script =>
    let deployScript ← handle (lift (steps.substitute script))
      fun error => fail [error]
    handle (lift steps.lock) fun error => fail [error]
    let current ← currentVersion setup steps
    match current with
    | none => pure (.run deployScript none)
    | some version => planUpdate setup steps script deployScript version

/-- A copy of the existing schema to go back to; returns `backup_available`. -/
def backUp (backup : Bool) : Option Version → Deploy Bool
  | none => pure false
  | some current =>
    if backup && setup.hasBackup then do
      log "INFO" [word "Preparing dump of `", setup.name, word "` version ", current.str,
        word " in order to be roll back in case of an error."]
      handle (DumpSchemaBackup.create steps setup.name current) fun error => do
        handle (DumpSchemaBackup.discard steps steps.discardIncomplete)
          fun _ => pure ()
        fail [error]
      pure true
    else pure false

/-- `execute_script`: what a script that fails has done stays. -/
def executeScript (script : Bytes) : Deploy Unit :=
  match steps.execute script with
  | .ok _ => modify fun state => { state with schema := .updated, scriptDone := true }
  | .error error => do
      modify fun state => { state with schema := .changed }
      raise error

def discardBackup (backupAvailable : Bool) : Deploy Unit :=
  if backupAvailable then DumpSchemaBackup.discard steps steps.discardDone else pure ()

/-- The block whose errors the handler of `deploy` is for. -/
def runScript (script : Bytes) (current : Option Version)
    (backupAvailable : Bool) : Deploy Bytes := do
  log "INFO" [word "Running SQL script `", setup.scriptPath, word "` ..."]
  handle (executeScript steps script) fun error => do
    log "ERROR" [word "Failed to run the the SQL script `", setup.scriptPath, word "`.\n", error]
    raise (word "Failed to run the SQL script.\n" ++ error)
  log "INFO" [word "SQL script ", setup.scriptPath, word " executed successfully."]
  let info := match current with
    | none => [word "Deployment of `", setup.name, word "` version ", schemaVersion.str,
        word " completed successfully."]
    | some version => [word "Completed the update of `", setup.name, word "` version ",
        version.str, word " to ", schemaVersion.str, word " successfully."]
  log "INFO" info
  discardBackup steps backupAvailable
  pure info.flatten

/-- `DROP SCHEMA IF EXISTS`. -/
def dropSchema : Deploy Unit := do
  lift steps.drop
  modify fun state =>
    { state with schema := .absent, drops := state.drops ++ [⟨state.scriptDone, state.directory⟩] }

/-- The schema is dropped when it can be restored, or when this deployment created it; an
error is not reported. -/
def dropBroken (current : Option Version) (backupAvailable : Bool) :
    Deploy Unit :=
  if backupAvailable || current.isNone then
    handle (dropSchema steps) fun _ => pure ()
  else pure ()

def updateFailed (rest : List Bytes) : List Bytes :=
  [word "An error occurred while updating the database schema `", setup.name,
    word "` to version ", schemaVersion.str] ++ rest

/-- The end of the handler, after the schema was dropped or not. -/
def report (backupAvailable : Bool) (error : Bytes) :
    Option Version → Deploy Bytes
  | none => fail [word "Deploying the database schema `", setup.name, word "` failed. ", error]
  | some current =>
    if backupAvailable then do
      handle
        (do
          DumpSchemaBackup.restore steps
          DumpSchemaBackup.discard steps steps.discardRestored)
        fun restoreError => fail (updateFailed setup
          [word ". The schema could not be restored back to version ", current.str,
            word ". ", error, word " ", restoreError])
      fail (updateFailed setup [word ". The schema has been restored back to version ",
        current.str, word ". ", error])
    else fail (updateFailed setup [word ". ", error])

def recover (current : Option Version)
    (backupAvailable : Bool) (error : Bytes) : Deploy Bytes := do
  dropBroken steps current backupAvailable
  report setup steps backupAvailable error current

def starting : Option Version → List Bytes
  | none => [word "Starting deployment of database schema `", setup.name,
      word "` using version ", schemaVersion.str, word " ..."]
  | some current => [word "Starting update of database schema `", setup.name,
      word "` version ", current.str, word " to version ", schemaVersion.str, word " ..."]

def deploy (backup : Bool) : Deploy Bytes := do
  let planned ← plan setup steps
  match planned with
  | .unchanged info => pure info
  | .run script current => do
      log "INFO" (starting setup current)
      let backupAvailable ← backUp setup steps backup current
      handle (runScript setup steps script current backupAvailable)
        (recover setup steps current backupAvailable)

end ScriptDeployer

end MariadbShell.Mrs
