import Radmind.Command.Request

/-!
# Stores

`f_stor` makes a directory for the files of a transcript, and creates every file under
`tmp`, with the directories above it if it has to.
-/

namespace Radmind
namespace Server

open Interaction

/-- The directories above a path, without their last `/`, the shortest one first. -/
def dirsAbove (path : CStr) : List CStr :=
  (List.range path.length).filterMap fun i =>
    if path[i]? = some slash then some (path.take i) else none

/-- The first loop of `mkdirs`, over the directories from the longest one on.  The result
is the directories that are missing, or the error. -/
def mkdirsUp : List CStr → List CStr → Serve (Except Errno (List CStr))
  | [], _ => return .error .einval
  | dir :: dirs, missing => do
    match (← call (.mkdir dir)) with
    | .ok _ | .error .eexist => return .ok missing
    | .error .enoent => mkdirsUp dirs (dir :: missing)
    | .error e => return .error e

/-- The second loop of `mkdirs`. -/
def mkdirsDown : List CStr → Serve (Except Errno Unit)
  | [] => return .ok ()
  | dir :: dirs => do
    match (← call (.mkdir dir)) with
    | .ok _ | .error .eexist => mkdirsDown dirs
    | .error e => return .error e

def mkdirs (path : CStr) : Serve (Except Errno Unit) := do
  match (← mkdirsUp (dirsAbove path).reverse []) with
  | .error e => return .error e
  | .ok missing => mkdirsDown missing

variable (cfg : ServerConfig)

/-- The error of a call on the file. -/
def storeError {α : Type} (path : CStr) (e : Errno) : Serve α := do
  reply 555 (path ++ lit ": " ++ strerror e)
  exit 1

/-- The case `K_TRANSCRIPT` of `f_stor`. -/
def storTranscript (av : List (List Byte)) (tran : List Byte) (name : CStr) :
    Serve (Except Int CStr) := do
  splice .transcript tran name
  let xscriptdir := lit "tmp/file/" ++ name
  let upload := lit "tmp/transcript/" ++ name
  let xscript := cstr (← arg av 2)
  if xscriptdir.length ≥ maxPathLen || upload.length ≥ maxPathLen || xscript.length ≥ maxPathLen then
    refuse 540 (lit "Path too long")
  else
    -- the encoded name is only compared later
    modify fun s => { s with uploadXscript := xscript }
    match (← call (.mkdir xscriptdir)) with
    | .ok _ => return .ok upload
    | .error .eexist =>
      reply 551 (lit "Transcript exists")
      exit 1
    | .error e =>
      reply 551 (xscriptdir ++ lit ": " ++ strerror e)
      exit 1

/-- The case `K_FILE` of `f_stor`. -/
def storFile (av : List (List Byte)) (tran : List Byte) (name : CStr) :
    Serve (Except Int CStr) := do
  let xscript := cstr (← arg av 2)
  if (← get).uploadXscript ≠ xscript then
    reply 552 (lit "Incorrect Transcript " ++ xscript)
    exit 1
  else
    let file ← arg av 3
    match (← decodeName file) with
    | .error rc => return .error rc
    | .ok path =>
      splice .file tran name
      splice .file file path
      if path.head? = some slash then checkPath (lit "tmp/file/" ++ name ++ path)
      else checkPath (lit "tmp/file/" ++ name ++ slash :: path)

/-- Create the file, with the directories above it if it cannot be created at once. -/
def createFile (upload : CStr) : Serve Nat := do
  match (← call (.create upload)) with
  | .ok fd => return fd
  | .error _ =>
    match (← mkdirs upload) with
    | .error e => storeError upload e
    | .ok _ =>
      match (← call (.create upload)) with
      | .ok fd => return fd
      | .error e => storeError upload e

/-- The loop over the data: whether all of it was read.  Every round takes a byte at
least, so `fuel` does not end it. -/
def storData (upload : CStr) (fd : Nat) : Nat → Nat → Serve Bool
  | _, 0 => return true
  | 0, _ + 1 => return false
  | fuel + 1, len + 1 => do
    match (← call (.read (min (len + 1) 8192))) with
    | none => return false
    | some bytes =>
      match (← call (.write fd bytes.val)) with
      | .error e => storeError upload e
      | .ok _ => storData upload fd fuel (len + 1 - bytes.val.length)

/-- The part of `f_stor` behind the data. -/
def storEnd (upload : CStr) (fd : Nat) : Serve Int := do
  match (← call (.close fd)) with
  | .error e => storeError upload e
  | .ok _ =>
    match (← call .getline) with
    | none => return -1
    | some line =>
      -- make sure client agrees we're at the end
      if cstr line ≠ lit "." then
        reply 555 (lit "Length doesn't match sent data " ++ upload)
        let _ ← call (.unlink upload)
        exit 1
      else
        reply 250 (lit "File stored")
        return 0

/-- The part of `f_stor` behind the switch. -/
def storeFile (upload : CStr) : Serve Int := do
  let fd ← createFile upload
  reply 350 (lit "Storing file")
  match (← call .getline) with
  | none => return -1
  | some sizebuf =>
    let len := strtol 10 (cstr sizebuf)
    if len < 0 then
      reply 555 (upload ++ lit ": internal error!")
      exit 1
    else if (← storData upload fd len.toNat len.toNat) then storEnd upload fd
    else return -1

/-- Turn off `TCP_NODELAY` for stores. -/
def prepareStore : Serve Bool := do
  if (← get).prevstor then return true
  else if (← call .delay) then
    modify fun s => { s with prevstor := true }
    return true
  else return false

/-- The switch of `f_stor`. -/
def storPath (key : Option Key) (av : List (List Byte)) (tran : List Byte) (name : CStr) :
    Serve (Except Int CStr) :=
  match key with
  | some .transcript => storTranscript av tran name
  | some .file => storFile av tran name
  | _ => do
    reply 550 (lit "STOR Syntax error")
    exit 1

/-- The part of `f_stor` for a client that may store. -/
def storRequest (av : List (List Byte)) : Serve Int := do
  let tran ← arg av 2
  match (← decodeName tran) with
  | .error rc => return rc
  | .ok name =>
    match (← storPath (← requestKey cfg av) av tran name) with
    | .error rc => return rc
    | .ok upload => storeFile upload

def fStor (av : List (List Byte)) : Serve Int := do
  if !(← prepareStore) then return -1
  else if cfg.checkuser && !(← get).authorized then
    reply 551 (lit "Not logged in")
    exit 1
  else storRequest cfg av

end Server
end Radmind
