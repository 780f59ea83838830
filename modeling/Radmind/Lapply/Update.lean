import Radmind.Lapply.World

/-!
# Carrying out a line

`retr` fetches a file from the server, `update` makes an object what a line says, and
`do_line` does one or both.  What they print is left out, and with it the arguments
only the messages need.  The build is one outside of macOS, where no applefile can be
retrieved.
-/

namespace Radmind

section

variable {σ : Type} (os : Os σ) (cfg : LapplyConfig)

/-! ## Missing directories -/

/-- What stands before each '/' of a path, the leading ones aside. -/
def prefixes (path : CStr) : List CStr :=
  -- move past any leading /'s
  let start := (path.takeWhile (· = slash)).length
  ((List.range path.length).filter fun i => start ≤ i && path[i]? = some slash).map path.take

/-- `stat` -/
def statOf (path : CStr) : Lapply σ (Option Stat) := fun w => .ok (os.stat w.os path) w

/-- The stats of the parent of the first missing directory, if they are not known yet. -/
def parentStat (parent : Option Stat) (path : CStr) : Lapply σ (Option Stat) :=
  match parent with
  | some st => return some st
  | none =>
    if (path ++ lit "/..").length > maxPathLen then return none
    else statOf os (path ++ lit "/..")

/-- A call that is made only if it has to be. -/
def sysIf (needed : Bool) (c : SysCall) : Lapply σ SysResult :=
  if needed then sys os c else return .ok

/-- The mode and the owner of a new directory, from its parent. -/
def inheritOwner (path : CStr) (parent : Stat) : Lapply σ Bool := do
  -- set mode to that of last preexisting parent
  if (← sysIf os (0o777 ≠ parent.stMode) (.chmod path parent.stMode)) ≠ .ok then return false
  else
    return (← sysIf os (cfg.euid ≠ parent.stUid) (.chown path parent.stUid parent.stGid)) = .ok

/-- The loop of `mkprefix`, with `parent_st` once it is set. -/
def mkprefixLoop (parent : Option Stat) : List CStr → Lapply σ Bool
  | [] => return true
  | path :: paths => do
    if (← sys os (.mkdir path 0o777)) ≠ .ok then
      -- only error if path exists and it's not a directory
      match (← statOf os path) with
      | none => return false
      | some st => if st.isDir then mkprefixLoop parent paths else return false
    else
      match (← parentStat os parent path) with
      | none => return false
      | some st =>
        if (← inheritOwner os cfg path st) then mkprefixLoop (some st) paths else return false

/-- `mkprefix` -/
def mkprefix (path : CStr) : Lapply σ Bool := mkprefixLoop os cfg none (prefixes path)

/-- A call that is made again when the directories it misses were created. -/
def tryPrefix (c : SysCall) (path : CStr) : Lapply σ Bool := do
  match (← sys os c) with
  | .ok => return true
  | .failed => return false
  | .enoent =>
    if cfg.createPrefix then
      if (← mkprefix os cfg path) then return (← sys os c) = .ok else return false
    else return false

def sysPrefix (c : SysCall) (path : CStr) : Lapply σ Unit := do
  let ok ← tryPrefix os cfg c path
  runIf (!ok) (throw (.system path))

/-! ## retr -/

/-- The return values -1, 1 and 0 of `retr`, the last with `temppath`. -/
inductive Retrieved
  | lost
  | refused
  | file (temppath : CStr)
  deriving DecidableEq, Repr

/-- A RETR for a line. -/
def request (line : Nat) (pathdesc : CStr) : Lapply σ Answer := fun w =>
  let (a, s) := os.request pathdesc w.os
  .ok a { w with os := s, trace := w.trace ++ [.request line w.linenum pathdesc] }

/-- The line behind the file is `.`. -/
def trailer : Lapply σ Bool := fun w =>
  let (ok, s) := os.trailer w.os
  .ok ok { w with os := s, trace := w.trace ++ [.trailer] }

/-- `cksum_b64` of what was received. -/
def digest : Lapply σ CStr := fun w => .ok (os.digest w.os) w

/-- `error1` of `retr` -/
def dropTemp (temppath : CStr) (r : Retrieved) : Lapply σ Retrieved := do
  let _ ← sys os (.unlink temppath)
  return r

/-- `retr` from the open file on. -/
def retrFile (temppath : CStr) (size : Int) (trancksum : CStr) : Lapply σ Retrieved := do
  if (← sys os (.receive temppath size)) ≠ .ok then
    let _ ← sys os (.close temppath)
    dropTemp os temppath .lost
  else if (← sys os (.close temppath)) ≠ .ok then dropTemp os temppath .lost
  else if !(← trailer os) then dropTemp os temppath .lost
  else if cfg.cksum && (← digest os) ≠ trancksum then dropTemp os temppath .refused
  else return .file temppath

/-- `retr` -/
def retr (line : Nat) (pathdesc path : CStr) (tempmode : BitVec 32) (transize : Int)
    (trancksum : CStr) : Lapply σ Retrieved := do
  if cfg.cksum && trancksum = [minus] then return .refused
  else
    match (← request os line pathdesc) with
    | .lost => return .lost
    | .refused => return .refused
    | .size size =>
      let temppath := path ++ lit ".radmind." ++ cfg.pid
      if transize ≥ 0 && size ≠ transize then return .lost
      else if temppath.length ≥ maxPathLen then return .lost
      else if (← tryPrefix os cfg (.openTemp temppath tempmode) temppath) then
        retrFile os cfg temppath size trancksum
      else return .lost

/-! ## update -/

/-- The return values 0 and 2 of `update`. -/
inductive Updated
  | ok | notCreated
  deriving DecidableEq, Repr

/-- The variables `mode`, `uid` and `gid` from their words. -/
def lineMode (word : List Byte) : BitVec 32 := BitVec.ofInt 32 (strtol 8 (cstr word))

def lineId (word : List Byte) : BitVec 32 := atoi (cstr word)

def currentStat : Lapply σ Stat := fun w => .ok w.st w

def currentLine : Lapply σ Nat := fun w => .ok w.linenum w

/-- `lstat( path, st )` -/
def lstatInto (path : CStr) : Lapply σ Unit := fun w =>
  match os.lstat w.os path with
  | .found st => .ok () { w with st := st }
  | _ => .error (.system path) w

/-- `S_ISUID | S_ISGID` -/
def setIdBits : BitVec 32 := 0o6000

/-- The owner of `st` is not the one of the line. -/
def ownerChanges (st : Stat) (uid gid : BitVec 32) : Bool := uid ≠ st.stUid || gid ≠ st.stGid

/-- The mode has to be set, after a chown of a set-uid or set-gid file once more. -/
def modeChanges (st : Stat) (mode uid gid : BitVec 32) : Bool :=
  mode ≠ tMode &&& st.stMode || (ownerChanges st uid gid && mode &&& setIdBits ≠ 0)

/-- The end of `update`: check uid & gid, and the mode. -/
def updateOwner (path : CStr) (mode uid gid : BitVec 32) : Lapply σ Updated := do
  let st ← currentStat
  runIf (ownerChanges st uid gid) (sysOrFail os (.chown path uid gid) path)
  runIf (modeChanges st mode uid gid) (sysOrFail os (.chmod path mode) path)
  return .ok

def wrongArguments {α : Type} : Lapply σ α := do
  throw (.wrongArguments (← currentLine))

/-- The cases 'a' and 'f' of `update`. -/
def updateFile (path : CStr) (targv : List (List Byte)) : Lapply σ Updated := do
  match targv with
  | [_, _, mode, uid, gid, mtime, _, _] =>
    let modtime := BitVec.ofInt 64 (strtol 10 (cstr mtime))
    let st ← currentStat
    runIf (modtime ≠ st.stMtime) (sysOrFail os (.utime path modtime) path)
    updateOwner os path (lineMode mode) (lineId uid) (lineId gid)
  | _ => wrongArguments

/-- `radstat` where it has to find an object. -/
def radstatOrFail (path : CStr) : Lapply σ Unit := do
  match (← radstat os path) with
  | .found _ => return ()
  | _ => throw (.system path)

def createDir (path : CStr) (mode : BitVec 32) : Lapply σ Unit := do
  sysPrefix os cfg (.mkdir path mode) path
  radstatOrFail os path

/-- The case 'd' of `update`. -/
def updateDir (path : CStr) (present : Bool) (targv : List (List Byte)) : Lapply σ Updated := do
  match targv with
  | [_, _, mode, uid, gid] =>
    runIf (!present) (createDir os cfg path (lineMode mode))
    updateOwner os path (lineMode mode) (lineId uid) (lineId gid)
  | _ => wrongArguments

/-- The case 'h' of `update`. -/
def updateHard (path : CStr) (targv : List (List Byte)) : Lapply σ Updated := do
  match targv with
  | [_, _, target] =>
    let d_target ← decodeArg .targetTooLong (some target)
    sysPrefix os cfg (.link d_target path) path
    return .ok
  | _ => wrongArguments

/-- The case 'l' of `update`, with the words read.  `st` is what it was before. -/
def updateLink (path : CStr) (present : Bool) (mode uid gid : BitVec 32) (target : List Byte) :
    Lapply σ Updated := do
  runIf present (sysOrFail os (.unlink path) path)
  let d_target ← decodeArg .targetTooLong (some target)
  sysPrefix os cfg (.symlink d_target path) path
  let st ← currentStat
  runIf (cfg.haveLchown && ownerChanges st uid gid) (sysOrFail os (.lchown path uid gid) path)
  runIf (cfg.haveLchmod && modeChanges st mode uid gid) (sysOrFail os (.lchmod path mode) path)
  return .ok

/-- A pipe or a device is created, and `st` read again. -/
def createNode (c : SysCall) (path : CStr) : Lapply σ Unit := do
  sysPrefix os cfg c path
  lstatInto os path

/-- The case 'p' of `update`. -/
def updatePipe (path : CStr) (present : Bool) (targv : List (List Byte)) : Lapply σ Updated := do
  match targv with
  | [_, _, mode, uid, gid] =>
    let mode := lineMode mode ||| 0o010000
    runIf (!present) (createNode os cfg (.mkfifo path mode) path)
    updateOwner os path mode (lineId uid) (lineId gid)
  | _ => wrongArguments

/-- The cases 'b' and 'c' of `update`, with the bits of the type. -/
def updateDevice (bits : BitVec 32) (path : CStr) (present : Bool) (targv : List (List Byte)) :
    Lapply σ Updated := do
  match targv with
  | [_, _, mode, uid, gid, maj, min] =>
    let st ← currentStat
    let other := minor st.stRdev ≠ atoi (cstr min) || major st.stRdev ≠ atoi (cstr maj)
    runIf (present && other) (sysOrFail os (.unlink path) path)
    let present := present && !other
    let mode := if present then lineMode mode else lineMode mode ||| bits
    let dev := makedev (atoi (cstr maj)) (atoi (cstr min))
    runIf (!present) (createNode os cfg (.mknod path mode dev) path)
    updateOwner os path mode (lineId uid) (lineId gid)
  | _ => wrongArguments

/-- The cases 's' and 'D' of `update`. -/
def updateSocket (path : CStr) (present : Bool) (targv : List (List Byte)) : Lapply σ Updated := do
  match targv with
  | [_, _, mode, uid, gid] =>
    if present then updateOwner os path (lineMode mode) (lineId uid) (lineId gid)
    -- a warning, the run goes on
    else return .notCreated
  | _ => wrongArguments

/-- `update` -/
def update (path : CStr) (present : Bool) (targv : List (List Byte)) : Lapply σ Updated := do
  match FileType.ofLetter ((targv.headD []).headD nul) with
  | some .a | some .f => updateFile os path targv
  | some .d => updateDir os cfg path present targv
  | some .h => updateHard os cfg path targv
  | some .l =>
    match targv with
    -- legacy symlink entries get defaults
    | [_, _, target] => updateLink os cfg path present 0o777 0 0 target
    | [_, _, mode, uid, gid, target] =>
      updateLink os cfg path present (lineMode mode) (lineId uid) (lineId gid) target
    | _ => wrongArguments
  | some .p => updatePipe os cfg path present targv
  | some .b => updateDevice os cfg 0o060000 path present targv
  | some .c => updateDevice os cfg 0o020000 path present targv
  | some .s | some .D => updateSocket os path present targv
  | _ => throw (.updateType (← currentLine) (cstr (targv.headD [])))

/-! ## do_line -/

/-- `SZ_BASE64_E( EVP_MAX_MD_SIZE )` -/
def cksumSize : Nat := 89

def lostNetwork {α : Type} (e : Failure) : Lapply σ α := fun w => .error e { w with network := false }

/-- The request for a file: of the special transcript, or of the one it is listed in. -/
def pathdesc (special : Bool) (tran word : CStr) : CStr :=
  if special then lit "SPECIAL " ++ word else lit "FILE " ++ tran ++ space :: word

/-- The request, made if it is short enough. -/
def requestDesc (tran word : CStr) : Lapply σ CStr := fun w =>
  let desc := pathdesc w.special tran word
  if desc.length ≥ 2 * maxPathLen then .error (.requestTooLong desc) w else .ok desc w

/-- The retrieved file takes the place of the old one. -/
def installFile (temppath path : CStr) (present : Bool) (targv : List (List Byte)) :
    Lapply σ Unit := do
  radstatOrFail os temppath
  match (← update os cfg temppath present targv) with
  | .ok => sysOrFail os (.rename temppath path) temppath
  | .notCreated => return ()

/-- The part of `do_line` that downloads a file. -/
def download (line : Nat) (tran path : CStr) (present : Bool) (targv : List (List Byte)) :
    Lapply σ Unit := do
  let letter := (targv.headD []).headD nul
  let linenum ← currentLine
  runIf (letter ≠ 102 ∧ letter ≠ 97) (throw (.invalidDownload linenum letter))
  -- strcpy of a word that is not there, or does not fit
  runIf (targv[7]?.all fun word => strlen word ≥ cksumSize) (throw .overrun)
  let trancksum := cstr (targv.getD 7 [])
  let desc ← requestDesc tran (cstr (targv.getD 1 []))
  -- retr_applefile
  if letter = 97 then lostNetwork (.retrieve desc)
  else
    match (← retr os cfg line desc path 0o600 (strtol 10 (cstr (targv.getD 6 []))) trancksum) with
    | .lost => lostNetwork (.retrieve desc)
    | .refused => throw (.retrieve desc)
    | .file temppath => installFile os cfg temppath path present targv

/-- The words of a line behind its sign. -/
def signedWords (tline : CStr) : Byte × List (List Byte) :=
  match (acavParse (tline ++ [nul])).2 with
  | [] => (nul, [])
  | word :: targv =>
    if word.head? = some plus ∨ word.head? = some minus then (word.headD nul, targv)
    else (nul, word :: targv)

/-- `do_line` for the line with the number `line`. -/
def doLine (line : Nat) (tline tran : CStr) (present : Bool) : Lapply σ Unit := do
  let (command, targv) := signedWords tline
  let path ← decodeArg .decodeTooLong targv[1]?
  if command = plus then download os cfg line tran path present targv
  else
    -- UPDATE
    runIf present (radstatOrFail os path)
    let _ ← update os cfg path present targv
    return ()

end

end Radmind
