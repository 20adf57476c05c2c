import Goobers.Lib.Calls
import Goobers.Lib.Utf8

/-!
# Configuration migrations

`WriteWithBackup` replaces the sources of several workflows. It saves what the files
held in one backup file first, so that `Rollback` can put it back. The model has every
call the two make to the file system, in their order: those are where they can be
interrupted.

`encoding/json` and the digest are a `Format`. Of the first it is recorded that a string
is written as Unicode text: a byte that belongs to no character is not what is read back.
-/

namespace Goobers.Migration

open Lib Lib.Utf8
open Lib.Attempt (settle throwIf observe wrap each)

/-! ## Files -/

/-- What a path names. The mode has the permissions in its low nine bits. -/
inductive Node where
  | dir
  | symlink
  | file (content : Bytes) (mode : Nat)
  deriving DecidableEq

/-- Node without what a write changes. -/
inductive Kind where
  | dir
  | symlink
  | file
  deriving DecidableEq

def Node.kind : Node → Kind
  | .dir => .dir
  | .symlink => .symlink
  | .file _ _ => .file

/-- What there is to read. -/
def Node.content? : Node → Option Bytes
  | .file content _ => some content
  | _ => none

def Node.mode : Node → Nat
  | .file _ mode => mode
  | _ => 0

def perm (mode : Nat) : Nat := mode % 0o1000

/--
The instance root. A path is the list of its components below the root; the backup file
and the lock directory have names of their own.
-/
structure Disk where
  node : List Bytes → Option Node
  backup : Option Bytes
  locked : Bool

/-- The disk with a file replaced: new contents under new permissions. -/
def Disk.replace (d : Disk) (path : List Bytes) (data : Bytes) (mode : Nat) : Disk :=
  { d with node := fun p => if p = path then some (.file data mode) else d.node p }

@[simp] theorem Disk.replace_same (d : Disk) (p : List Bytes) (data : Bytes) (mode : Nat) :
    (d.replace p data mode).node p = some (.file data mode) := if_pos rfl

theorem Disk.replace_other (d : Disk) {p q : List Bytes} (h : q ≠ p) (data : Bytes) (mode : Nat) :
    (d.replace p data mode).node q = d.node q := if_neg h

/-- A file with its bytes before and after the migration. -/
structure FileChange where
  path : Bytes
  before : Bytes
  after : Bytes
  deriving DecidableEq

structure BackupFile where
  path : Bytes
  before : Bytes
  beforeSHA256 : Bytes
  afterSHA256 : Bytes
  mode : Nat
  deriving DecidableEq

structure MigrationBackup where
  version : Nat
  files : List BackupFile
  deriving DecidableEq

def maxBackupBytes : Nat := 8 <<< 20

def maxBackupFiles : Nat := 128

/-- An entry as a reader of its JSON text sees it. -/
def BackupFile.written (f : BackupFile) : BackupFile :=
  { path := toValid f.path, before := toValid f.before, beforeSHA256 := toValid f.beforeSHA256,
    afterSHA256 := toValid f.afterSHA256, mode := f.mode }

/-- A digest without collisions, and JSON. -/
structure Format where
  digest : Bytes → Bytes
  digest_injective : Function.Injective digest
  digest_valid : ∀ s, validString (digest s) = true
  /-- `hex.DecodeString` gives as many bytes as a digest has. -/
  isDigest : Bytes → Bool
  isDigest_digest : ∀ s, isDigest (digest s) = true
  /-- `json.Marshal`. -/
  marshal : MigrationBackup → Bytes
  /-- `Decode` with no unknown field, and nothing after it. -/
  decode : Bytes → Option MigrationBackup
  decode_marshal : ∀ b,
    decode (marshal b) = some { version := b.version, files := b.files.map BackupFile.written }
  decode_torn : ∀ b data, data <+: marshal b → data ≠ marshal b → decode data = none

/-! ## Calls -/

inductive Call where
  /-- `os.Mkdir` of the lock -/
  | mkdirLock
  /-- `os.Remove` of the lock -/
  | removeLock
  | lstat (path : List Bytes)
  | stat (path : List Bytes)
  | readFile (path : List Bytes)
  /-- `os.OpenFile` of the backup with `O_EXCL` -/
  | createBackup
  | writeBackup (data : Bytes)
  | syncBackup
  | closeBackup
  | removeBackup
  /-- the whole backup file: `Lstat`, `Open` and `ReadAll` -/
  | openBackup
  | syncDir
  /-- `journal.WriteFileAtomic` -/
  | writeFileAtomic (path : List Bytes) (data : Bytes) (mode : Nat)

@[reducible] def Answer : Call → Type
  | .lstat _ => Node
  | .stat _ => Node
  | .readFile _ => Bytes
  | .openBackup => Bytes
  | _ => Unit

/-- The errors, with what their texts name. -/
inductive Failure where
  /-- an error of the operating system -/
  | os
  /-- acquire migration lock (inspect a stale lock before removing it) -/
  | lock (err : Failure)
  | unsafePath (relative : Bytes)
  | notYAML (relative : Bytes)
  /-- migration refuses symlink -/
  | symlink (path : List Bytes)
  /-- migration requires a regular file -/
  | notRegular (path : List Bytes)
  /-- migration exceeds the file bound; split the cohort -/
  | tooManyFiles
  | duplicatePath (relative : Bytes)
  /-- changed since preview; no files written -/
  | changedSincePreview (relative : Bytes)
  /-- migration exceeds the byte bound; split the cohort -/
  | tooManyBytes
  /-- create backup (never overwrites an existing backup) -/
  | createBackup (err : Failure)
  | saveBackup
  /-- sync backup directory; no sources written; backup retained -/
  | syncBackupDirectory (err : Failure)
  | sourceChangedAfterBackup
  /-- write; backup retained; run goobers fix --rollback after resolving the error -/
  | write (relative : Bytes) (err : Failure)
  /-- backup must be a regular file of bounded size -/
  | backupTooLarge
  /-- the text of the backup is no backup, or more than one -/
  | undecodable
  | unsupportedBackup
  | corruptEntry (relative : Bytes)
  | invalidDestinationHash (relative : Bytes)
  | readBackup (err : Failure)
  /-- changed since migration; refusing to overwrite user edits -/
  | changedSinceMigration (relative : Bytes)
  /-- restore (backup retained) -/
  | restore (relative : Bytes) (err : Failure)
  /-- sources restored but backup cleanup failed -/
  | cleanup (err : Failure)

abbrev FileM (α : Type) : Type := Attempt Failure Call Answer α

abbrev ask (c : Call) : FileM (Answer c) := Attempt.ask c

/-- What is there, or an error that there is nothing. -/
def found {α : Type} : Option α → Except Failure α
  | some a => .ok a
  | none => .error .os

/-- What a call does to the disk and answers when nothing disturbs it. -/
def perform (d : Disk) : (c : Call) → Except Failure (Answer c) × Disk
  | .mkdirLock => if d.locked then (.error .os, d) else (.ok (), { d with locked := true })
  | .removeLock => if d.locked then (.ok (), { d with locked := false }) else (.error .os, d)
  | .lstat path => (found (d.node path), d)
  | .stat path => (found (d.node path), d)
  | .readFile path => (found ((d.node path).bind Node.content?), d)
  | .createBackup =>
    if d.backup.isSome then (.error .os, d) else (.ok (), { d with backup := some [] })
  | .writeBackup data => (.ok (), { d with backup := some data })
  | .syncBackup => (.ok (), d)
  | .closeBackup => (.ok (), d)
  | .removeBackup =>
    if d.backup.isSome then (.ok (), { d with backup := none }) else (.error .os, d)
  | .openBackup => (found d.backup, d)
  | .syncDir => (.ok (), d)
  | .writeFileAtomic path data mode => (.ok (), d.replace path data mode)

/-- The backup is written in place, so that a write of it can also be torn. -/
inductive Effect (d : Disk) : (c : Call) → Except Failure (Answer c) → Disk → Prop where
  | whole (c : Call) : Effect d c (perform d c).1 (perform d c).2
  | torn {data part : Bytes} : part <+: data →
      Effect d (.writeBackup data) (.error .os) { d with backup := some part }

/-! ## Paths -/

def ascii (s : String) : Bytes := s.toList.map (fun c => UInt8.ofNat c.toNat)

def slash : UInt8 := 0x2F

/-- One component put behind a path that is clean already. -/
def cleanStep (rooted : Bool) (out : List Bytes) (component : Bytes) : List Bytes :=
  if component = [] ∨ component = ascii "." then out
  else if component = ascii ".." then
    match out.getLast? with
    | some last => if last = ascii ".." then out ++ [component] else out.dropLast
    | none => if rooted then out else out ++ [component]
  else out ++ [component]

/-- `path.Clean`. -/
def clean (p : Bytes) : Bytes :=
  let rooted : Bool := p.head? = some slash
  let body := [slash].intercalate ((p.splitOn slash).foldl (cleanStep rooted) [])
  if rooted then slash :: body else if body = [] then ascii "." else body

/-- `filepath.Ext`: from the last dot of the last component on. -/
def ext (p : Bytes) : Bytes :=
  let base := (p.splitOn slash).getLastD []
  match (base.splitOn 0x2E).reverse with
  | last :: _ :: _ => 0x2E :: last
  | _ => []

/-- The first check of `checkedWorkflowPath`. -/
def unsafeText (relative : Bytes) : Bool :=
  relative = ascii "." || relative.head? = some slash || clean relative ≠ relative ||
    relative.any (fun b => b = 0x5C || b = 0x3A) || relative = ascii ".." ||
    (ascii "../").isPrefixOf relative

/-- The components one below the other, none of them a link. -/
def walkComponents (path : List Bytes) : List Bytes → FileM (List Bytes)
  | [] => return path
  | component :: rest => do
    let path := path ++ [component]
    let info ← ask (.lstat path)
    throwIf (info.kind = .symlink) (.symlink path)
    walkComponents path rest

def checkedWorkflowPath (relative : Bytes) : FileM (List Bytes) := do
  throwIf (unsafeText relative) (.unsafePath relative)
  throwIf (ext relative ≠ ascii ".yaml" ∧ ext relative ≠ ascii ".yml") (.notYAML relative)
  let path ← walkComponents [] (ascii "config" :: relative.splitOn slash)
  let info ← ask (.stat path)
  throwIf (info.kind ≠ .file) (.notRegular path)
  return path

/-! ## The transaction -/

/-- `lockMigration` around a body, which gives the lock back however it ends. -/
def withLock {α : Type} (body : FileM α) : FileM α := do
  wrap .lock (ask .mkdirLock)
  let outcome ← observe body
  let _ ← observe (ask .removeLock)
  settle outcome

section
variable (fmt : Format)

/-- The entries of the backup, from files that hold what the preview saw. -/
def preflight (seen : List Bytes) : List FileChange → FileM (List BackupFile)
  | [] => return []
  | change :: changes => do
    throwIf (change.path ∈ seen) (.duplicatePath change.path)
    let path ← checkedWorkflowPath change.path
    let current ← ask (.readFile path)
    throwIf (current ≠ change.before) (.changedSincePreview change.path)
    let info ← ask (.stat path)
    let files ← preflight (change.path :: seen) changes
    return {
      path := change.path
      before := change.before
      beforeSHA256 := fmt.digest change.before
      afterSHA256 := fmt.digest change.after
      mode := perm info.mode } :: files

/-- The backup on the disk, or nothing of it that was meant to stay. -/
def saveBackup (data : Bytes) : FileM Unit := do
  wrap .createBackup (ask .createBackup)
  let written ← observe (ask (.writeBackup data))
  let synced ← observe (ask .syncBackup)
  let closed ← observe (ask .closeBackup)
  if written.toBool && synced.toBool && closed.toBool then
    wrap .syncBackupDirectory (ask .syncDir)
  else
    let _ ← observe (ask .removeBackup)
    throw .saveBackup

/-- One source, which must not have moved since the backup was taken. -/
def writeSource (change : FileChange) (mode : Nat) : FileM Unit :=
  wrap (.write change.path) do
    let path ← checkedWorkflowPath change.path
    let current ← ask (.readFile path)
    throwIf (current ≠ change.before) .sourceChangedAfterBackup
    ask (.writeFileAtomic path change.after mode)

def writeWithBackup (changes : List FileChange) : FileM Unit :=
  if changes = [] then return
  else do
    throwIf (maxBackupFiles < changes.length) .tooManyFiles
    withLock do
      let files ← preflight fmt [] changes
      let data := fmt.marshal { version := 1, files := files }
      throwIf (maxBackupBytes < data.length) .tooManyBytes
      saveBackup data
      each (fun entry => writeSource entry.1 entry.2.mode) (changes.zip files)

def checkEntries (seen : List Bytes) : List BackupFile → Except Failure Unit
  | [] => .ok ()
  | file :: files =>
    if file.path ∈ seen ∨ 0o777 < file.mode ∨ fmt.digest file.before ≠ file.beforeSHA256 then
      .error (.corruptEntry file.path)
    else if fmt.isDigest file.afterSHA256 = false then
      .error (.invalidDestinationHash file.path)
    else checkEntries (file.path :: seen) files

def parseBackup (data : Bytes) : Except Failure MigrationBackup :=
  match fmt.decode data with
  | none => .error .undecodable
  | some backup =>
    if backup.version ≠ 1 ∨ backup.files = [] ∨ maxBackupFiles < backup.files.length then
      .error .unsupportedBackup
    else
      match checkEntries fmt [] backup.files with
      | .error e => .error e
      | .ok () => .ok backup

def readBackup : FileM MigrationBackup := do
  let data ← ask .openBackup
  throwIf (maxBackupBytes < data.length) .backupTooLarge
  settle (parseBackup fmt data)

/-- `check`: the file is as the transaction left it, on either side of the change. -/
def checkDestination (file : BackupFile) : FileM (List Bytes) := do
  let path ← checkedWorkflowPath file.path
  let current ← ask (.readFile path)
  let hash := fmt.digest current
  throwIf (hash ≠ file.beforeSHA256 ∧ hash ≠ file.afterSHA256) (.changedSinceMigration file.path)
  return path

def restore (file : BackupFile) : FileM Unit := do
  let path ← checkDestination fmt file
  wrap (.restore file.path) (ask (.writeFileAtomic path file.before file.mode))

def rollback : FileM Unit :=
  withLock do
    let backup ← wrap .readBackup (readBackup fmt)
    each (fun file => do let _ ← checkDestination fmt file; return) backup.files
    each (restore fmt) backup.files
    wrap .cleanup (ask .removeBackup)
    ask .syncDir

end

end Goobers.Migration
