import Radmind.Command.Session

/-!
# The requests of a client

`keyword` checks the words of a request as they were sent.  The handlers decode them, and
put what they stand for into the path of a file.
-/

namespace Radmind
namespace Server

open Interaction

variable (cfg : ServerConfig)

/-- The last check of `keyword`. -/
def keywordName (key : Key) (name : CStr) : Option Key :=
  if strstr name (lit "../") then none else some key

/-- `keyword`, without a result for -1. -/
def keyword (commandFile : CStr) (av : List CStr) : Option Key :=
  match av with
  | _ :: word :: args =>
    if strcaseeq word (lit "COMMAND") then
      if args.length > 1 then none
      else if args = [] ∧ (commandFile.drop 5).length > maxPathLen then none
      else some .command
    else if strcaseeq word (lit "SPECIAL") then
      match args with
      | [path] =>
        if word.length + path.length + cfg.remoteHost.length + 5 > maxPathLen then none
        else keywordName .special path
      | _ => none
    else if strcaseeq word (lit "TRANSCRIPT") then
      match args with
      | [tran] =>
        if word.length + tran.length + 5 > maxPathLen then none
        else keywordName .transcript tran
      | _ => none
    else if strcaseeq word (lit "FILE") then
      match args with
      | [tran, path] =>
        -- a leading or an internal ../
        if hasPrefix (lit "../") path then none
        else if strstr path (lit "/../") then none
        else if word.length + tran.length + path.length + 5 > maxPathLen then none
        else keywordName .file tran
      | _ => none
    else none
  | _ => none

/-- A refusal ends a handler with 1. -/
def refuse {α : Type} (code : Nat) (text : CStr) : Serve (Except Int α) := do
  reply code text
  return .error 1

def lineTooLong {α : Type} : Serve (Except Int α) := refuse 540 (lit "Line too long")

/-- A path, unless it is too long for its buffer. -/
def checkPath (path : CStr) : Serve (Except Int CStr) :=
  if path.length ≥ maxPathLen then refuse 540 (lit "Path too long") else return .ok path

/-- The decoded word of a request. -/
def decodeName (mem : List Byte) : Serve (Except Int CStr) := do
  match (← decodeArg mem) with
  | none => lineTooLong
  | some name => return .ok name

theorem decodeName_eq (mem : List Byte) (s : Session) : decodeName mem s =
    match (decode s.buf mem).1 with
    | none => lineTooLong { s with buf := (decode s.buf mem).2 }
    | some name => .pure (.ok name, { s with buf := (decode s.buf mem).2 }) := by
  show (match (decode s.buf mem).1 with
    | none => lineTooLong
    | some name => return .ok name : Serve (Except Int CStr)) _ = _
  cases (decode s.buf mem).1 with
  | none => rfl
  | some name => rfl

/-- The name of a request that has to be on the access list. -/
def grantedName (mem : List Byte) (shown : CStr → CStr) : Serve (Except Int CStr) := do
  match (← decodeName mem) with
  | .error rc => return .error rc
  | .ok name =>
    if listCheck (← get).access.list name then return .ok name
    else refuse 540 (lit "No access for " ++ shown name)

/-- Put a word into a path. -/
def splice (key : Key) (mem : List Byte) (name : CStr) : Serve Unit :=
  call (.splice key (cstr mem) name)

/-- The path of a request with a name on the access list. -/
def grantedPath (key : Key) (dir : CStr) (mem : List Byte) : Serve (Except Int CStr) := do
  match (← grantedName mem id) with
  | .error rc => return .error rc
  | .ok name =>
    splice key mem name
    checkPath (dir ++ slash :: name)

/-- The case `K_COMMAND` of `f_retr` and `f_stat`. -/
def commandPath (av : List (List Byte)) : Serve (Except Int CStr) := do
  match av[2]? with
  | none => checkPath (lit "command/" ++ (← get).lookup.commandFile)
  | some mem => grantedPath .command (lit "command") mem

/-- The case `K_TRANSCRIPT` of `f_retr` and `f_stat`. -/
def transcriptPath (av : List (List Byte)) : Serve (Except Int CStr) := do
  grantedPath .transcript (lit "transcript") (← arg av 2)

/-- The case `K_SPECIAL` of `f_retr` and `f_stat`. -/
def specialPath (av : List (List Byte)) : Serve (Except Int CStr) := do
  let mem ← arg av 2
  match (← decodeName mem) with
  | .error rc => return .error rc
  | .ok name =>
    splice .special mem name
    checkPath ((← get).lookup.specialDir ++ slash :: name)

/-- The case `K_FILE` of `f_retr`. -/
def filePath (av : List (List Byte)) : Serve (Except Int CStr) := do
  let file ← arg av 3
  match (← decodeName file) with
  | .error rc => return .error rc
  | .ok path =>
    let tran ← arg av 2
    match (← grantedName tran fun name => name ++ colon :: path) with
    | .error rc => return .error rc
    | .ok name =>
      splice .file tran name
      splice .file file path
      checkPath (lit "file/" ++ name ++ slash :: path)

def requestKey (av : List (List Byte)) : Serve (Option Key) := do
  return keyword cfg (← get).lookup.commandFile (av.map cstr)

/-- The part of `f_retr` behind the switch. -/
def sendFile (path : CStr) : Serve Int := do
  if !(← call (.openFile path)) then
    reply 543 (lit "Unable to access " ++ path ++ lit ".")
    return 1
  else
    match (← call .fstat) with
    | none =>
      reply 543 (lit "Access Error: " ++ path)
      if (← call .closeFile) then return 1 else return -1
    | some size =>
      reply 240 (lit "Retrieving file")
      call (.line (printInt size))
      if !(← call .dump) then return -1
      else
        call (.line (lit "."))
        if (← call .closeFile) then return 0 else return -1

/-- The switch of `f_retr`. -/
def retrPath (key : Option Key) (av : List (List Byte)) : Serve (Except Int CStr) :=
  match key with
  | some .command => commandPath av
  | some .transcript => transcriptPath av
  | some .special => specialPath av
  | some .file => filePath av
  | none => refuse 540 (lit "RETR Syntax error")

def fRetr (av : List (List Byte)) : Serve Int := do
  match (← retrPath (← requestKey cfg av) av) with
  | .error rc => return rc
  | .ok path => sendFile path

/-! ## Status -/

/-- A line of a special transcript that is about the path. -/
def specialLineFor (remotePath : CStr) (line : List Byte) : Option (List CStr) :=
  if hasPrefix (lit "f ") (cstr line) || hasPrefix (lit "a ") (cstr line) then
    let av := lineWords line
    if av.length = 8 ∧ av[1]? = some remotePath then some av else none
  else none

/-- The lines of a special transcript up to the first one that is too long. -/
def specialLines (remotePath : CStr) : List (List Byte) → Option (List CStr)
  | [] => none
  | line :: lines =>
    if (cstr line).getLast? ≠ some newline then none
    else
      match specialLineFor remotePath line with
      | some av => some av
      | none => specialLines remotePath lines

/-- The name of the special transcript for a path, unless it is too long. -/
def specialName (path : CStr) : Option CStr :=
  let name := if (lit ".T").isSuffixOf path then path else path ++ lit ".T"
  if name.length ≥ maxPathLen then none else some name

/-- The loop of `special_t` over the paths. -/
def specialSearch (remotePath : CStr) : List CStr → Serve (Option (List CStr))
  | [] => return none
  | path :: paths => do
    match specialName path with
    | none => specialSearch remotePath paths
    | some name =>
      match (← call (.fileLines name)) with
      | none => specialSearch remotePath paths
      | some lines =>
        match specialLines remotePath lines with
        | some av => return some av
        | none => specialSearch remotePath paths

/-- `special_t` -/
def specialT (spPath remotePath : CStr) : Serve (Option (List CStr)) := do
  specialSearch remotePath [spPath, (← get).lookup.specialDir, lit "transcript/special.T"]

/-- `DEFAULT_MODE`, `DEFAULT_UID` and `DEFAULT_GID` -/
def defaultOwner : List CStr := [printNat 8 0o444, printInt 0, printInt 0]

/-- `RADMIND_STAT_FMT` -/
def statText (type name : CStr) (owner : List CStr) (st : FileStat) (cksum : CStr) : CStr :=
  [space].intercalate ([type, name] ++ owner ++ [printInt st.mtime, printInt st.size, cksum])

/-- The part of `f_stat` behind the checksum: what stands for the name of the file. -/
def statReply (key : Key) (av : List (List Byte)) (path : CStr) (st : FileStat) (cksum : CStr) :
    Serve Int := do
  reply 230 (lit "Returning STAT information")
  match key with
  | .special =>
    let file := cstr (← arg av 2)
    match (← specialT path file) with
    | some (type :: _ :: mode :: uid :: gid :: _) =>
      call (.line (statText type file [mode, uid, gid] st cksum))
    | _ => call (.line (statText (lit "f") file defaultOwner st cksum))
    return 0
  | _ =>
    let name := (av[2]?.map cstr).getD (lit "command")
    call (.line (statText (lit "f") name defaultOwner st cksum))
    return 0

/-- The switch of `f_stat`. -/
def statPath (key : Option Key) (av : List (List Byte)) : Serve (Except Int CStr) :=
  match key with
  | some .command => commandPath av
  | some .transcript => transcriptPath av
  | some .special => specialPath av
  | _ => refuse 530 (lit "STAT Syntax error")

/-- The part of `f_stat` behind the switch. -/
def statFile (key : Key) (av : List (List Byte)) (path : CStr) : Serve Int := do
  match (← call (.stat path)) with
  | none =>
    reply 531 (lit "Access Error: " ++ path)
    return 1
  | some st =>
    match (← call (.cksum path)) with
    | .error e =>
      reply 500 (lit "Checksum Error: " ++ path ++ lit ": " ++ strerror e)
      return 1
    | .ok cksum => statReply key av path st cksum

def fStat (av : List (List Byte)) : Serve Int := do
  let key ← requestKey cfg av
  match (← statPath key av) with
  | .error rc => return rc
  | .ok path => statFile (key.getD .command) av path

/-! ## Reports -/

def fRepo (av : List (List Byte)) : Serve Int := do
  if av.length ≠ 3 then
    reply 501 (lit "Syntax error (invalid parameters)")
    return 1
  else
    match (← decodeArg (← arg av 2)) with
    | none =>
      reply 501 (lit "Syntax error (invalid parameter)")
      return 1
    | some msg =>
      let cn := (← get).remoteCn.getD (lit "-")
      call (.report [cfg.remoteHost, cfg.remoteAddr, cn, lit "-", cstr (← arg av 1), msg])
      reply 215 (lit "Report successful")
      return 0

end Server
end Radmind
