import Radmind.Command.Store

/-!
# The command loop

Which handlers a client can reach depends on the table in force.  STARTTLS puts another
one in force, by what the config file has for the client.
-/

namespace Radmind
namespace Server

open Interaction MarkedSearch

variable (cfg : ServerConfig)

/-! ## Tables -/

/-- The entries for PAM and for compression, where they are built in. -/
def builtIn (havePam haveZlib : Bool) (login compress : Handler) : List (CStr × Handler) :=
  (if havePam then [(lit "LOGIn", login)] else []) ++
    (if haveZlib then [(lit "COMPress", compress)] else [])

def Table.commands (havePam haveZlib : Bool) : Table → List (CStr × Handler)
  | .notls =>
    [(lit "QUIT", .quit), (lit "NOOP", .noop), (lit "HELP", .help), (lit "STATus", .notls),
      (lit "RETRieve", .notls), (lit "STORe", .notls), (lit "STARttls", .starttls),
      (lit "REPOrt", .notls)] ++ builtIn havePam haveZlib .notls .notls
  | .noauth =>
    [(lit "QUIT", .quit), (lit "NOOP", .noop), (lit "HELP", .help), (lit "STATus", .noauth),
      (lit "RETRieve", .noauth), (lit "STORe", .noauth), (lit "REPOrt", .noauth)] ++
        builtIn havePam haveZlib .noauth .noauth
  | .auth =>
    [(lit "QUIT", .quit), (lit "NOOP", .noop), (lit "HELP", .help), (lit "STATus", .stat),
      (lit "RETRieve", .retr), (lit "STORe", .stor), (lit "STARttls", .starttls),
      (lit "REPOrt", .repo)] ++ builtIn havePam haveZlib .login .compress

/-- `strncasecmp( word, name, MAX( strlen( word ), 4 )) == 0` -/
def abbreviates (word name : CStr) : Bool := strcaseeq word (name.take (max word.length 4))

/-- The loop over `commands`. -/
def Table.lookup (table : Table) (word : CStr) : Option (CStr × Handler) :=
  (table.commands cfg.havePam cfg.haveZlib).find? fun command => abbreviates word command.1

/-! ## Handlers -/

def fQuit : Serve Int := do
  reply 201 (lit "QUIT OK, closing connection")
  exit 0

def fNoop : Serve Int := do
  reply 202 (lit "NOOP OK")
  return 0

def fHelp : Serve Int := do
  reply 203 (lit "What is this, SMTP?")
  return 0

def fNoauth : Serve Int := do
  reply 500 (lit "No access for " ++ cfg.remoteHost)
  exit 1

def fNotls : Serve Int := do
  reply 530 (lit "Must issue a STARTTLS command first")
  exit 1

/-- `command_k( "config", 0 )`: whether the client is in the config file. -/
def lookupConfig : Serve Bool := do
  let files ← call .config
  let s ← get
  let found := commandK files (cfg.client s.remoteCn) (lit "config") 0 s.lookup
  set { s with lookup := found.2 }
  return found.1

/-- `read_kfile( sn, command_file )`, which ends the process where it fails. -/
def lookupKfile : Serve Unit := do
  let files ← call .kfiles
  let s ← get
  match files.read s.lookup.commandFile s.access with
  | .error _ =>
    reply 421 (lit "Service not available, closing transmission channel")
    exit 1
  | .ok access => set { s with access := access }

theorem lookupKfile_eq (s : Session) : lookupKfile s = .call .kfiles fun files =>
    (match files.read s.lookup.commandFile s.access with
    | .error _ => do
      reply 421 (lit "Service not available, closing transmission channel")
      exit 1
    | .ok access => set { s with access := access } : Serve Unit) s := rfl

def setTable (table : Table) : Serve Unit := modify fun s => { s with table := table }

/-- The certificate of the peer: whether there is one, if there has to be. -/
def checkPeer : Serve Bool := do
  if cfg.authlevel ≥ 2 then
    match (← call .peer) with
    | none => return false
    | some cn =>
      modify fun s => { s with remoteCn := some cn }
      return true
  else return true

def fStarttls (av : List (List Byte)) : Serve Int := do
  if av.length ≠ 1 then
    reply 501 (lit "Syntax error (no parameters allowed)")
    return 1
  else
    reply 220 (lit "Ready to start TLS")
    if !(← call .starttls) then
      reply 501 (lit "SSL didn't work error! XXX")
      return 1
    else if !(← checkPeer cfg) then return -1
    else
      if (← lookupConfig cfg) then
        setTable .auth
        lookupKfile
      else setTable .noauth
      return 0

/-- The PAM calls, up to the first one that fails. -/
def pamCalls : List PamCall → Serve Bool
  | [] => return true
  | c :: calls => do
    if (← call (.pam c)) then pamCalls calls else return false

def fLogin (av : List (List Byte)) : Serve Int := do
  if !cfg.checkuser then
    reply 502 (lit "login not enabled")
    return 1
  else if av.length ≠ 3 then
    reply 501 (lit "Syntax error")
    return 1
  else
    let user := cstr (← arg av 1)
    let password := cstr (← arg av 2)
    if (← pamCalls [.start user password, .authenticate, .acctMgmt, .finish]) then
      reply 205 (user ++ lit " successfully logged in")
      modify fun s => { s with authorized := true }
      return 0
    else
      reply 535 (lit "Authentication Failed")
      return 1

/-- The level of a request for compression. -/
def compressLevel (av : List (List Byte)) : Int :=
  match av[2]? with
  | some mem => min (max (atoi (cstr mem)).toInt 1) cfg.maxZlibLevel
  | none => cfg.maxZlibLevel

def fCompress (av : List (List Byte)) : Serve Int := do
  if cfg.maxZlibLevel ≤ 0 then
    reply 501 (lit "Compression not enabled")
    return 1
  else if av.length ≠ 2 ∧ av.length ≠ 3 then
    reply 501 (lit "Syntax error")
    return 1
  else if (← get).compressed then
    reply 501 (lit "Compression already enabled")
    return 1
  else
    let method := cstr (← arg av 1)
    if strcaseeq method (lit "ZLIB") then
      let level := compressLevel cfg av
      reply 320 (lit "Ready to start ZLIB compression level " ++ printInt level)
      if (← call (.setCompression level)) then
        modify fun s => { s with compressed := true }
        reply 220 (lit "ZLIB compression level " ++ printInt level ++ lit " enabled")
        return 0
      else return -1
    else
      reply 525 (method ++ lit ": unknown compression type")
      return 0

/-- `(*(commands[ i ].c_func))( sn, ac, av )` -/
def Handler.run (h : Handler) (av : List (List Byte)) : Serve Int :=
  match h with
  | .quit => fQuit
  | .noop => fNoop
  | .help => fHelp
  | .stat => fStat cfg av
  | .retr => fRetr cfg av
  | .stor => fStor cfg av
  | .noauth => fNoauth cfg
  | .notls => fNotls
  | .starttls => fStarttls cfg av
  | .repo => fRepo cfg av
  | .login => fLogin cfg av
  | .compress => fCompress cfg av

/-! ## The loop -/

/-- A request line: the result of its handler. -/
def request (line : List Byte) : Serve Int := do
  let av := (acavParse line).2
  match av with
  | [] =>
    reply 501 (lit "Illegal null command")
    return 0
  | word :: _ =>
    match (← get).table.lookup cfg (cstr word) with
    | none =>
      reply 500 (lit "Command " ++ cstr word ++ lit " unrecognized")
      return 0
    | some (_, h) =>
      call (.enter h)
      h.run cfg av

/-- A line with words is a request for the handler of the first. -/
theorem request_cons {line word : List Byte} {av : List (List Byte)}
    (hav : (acavParse line).2 = word :: av) (s : Session) :
    request cfg line s = (match s.table.lookup cfg (cstr word) with
      | none => do
        reply 500 (lit "Command " ++ cstr word ++ lit " unrecognized")
        return 0
      | some (_, h) => do
        call (.enter h)
        h.run cfg (word :: av) : Serve Int) s := by
  unfold request
  rw [hav]
  rfl

/-- The loop of `cmdloop`, for so many requests at most. -/
def requests : Nat → Serve Unit
  | 0 => return ()
  | rounds + 1 => do
    match (← call .getline) with
    | none => reply 444 (lit "Server closing connection")
    | some line =>
      let rc ← request cfg line
      if rc < 0 then reply 444 (lit "Server closing connection") else requests rounds

/-- The lookup of a client that needs no TLS. -/
def lookupClient : Serve Unit := do
  if (← lookupConfig cfg) then
    lookupKfile
    setTable .auth
  else
    reply 500 (lit "No access for " ++ cfg.remoteHost)
    exit 1

def lookupAtStart : Serve Unit := if cfg.authlevel = 0 then lookupClient cfg else return ()

/-- The greeting, with the capabilities. -/
def greet : Serve Unit := do
  match (← call .gethostname) with
  | none => exit 1
  | some hostname =>
    reply 200 (lit "RAP 1 " ++ hostname ++ space :: cfg.version ++ lit " radmind access protocol")
    if cfg.rapExtensions then
      reply 200 (lit "CAPA" ++
        (if cfg.haveZlib && cfg.maxZlibLevel > 0 then lit " ZLIB" else []) ++ lit " REPO")
    else return ()

/-- `cmdloop` -/
def cmdloop (rounds : Nat) : Serve Unit := do
  setTable (if cfg.authlevel = 0 then .noauth else .notls)
  if cfg.maxconnections ≠ 0 && cfg.connections > cfg.maxconnections then
    reply 420 (lit "Server busy")
    exit 1
  else
    lookupAtStart cfg
    greet cfg
    requests cfg rounds

/-- The program of a process that serves a client. -/
def serve (rounds : Nat) : Prog Answer (Unit × Session) := cmdloop cfg rounds .start

/-! ## An environment -/

/-- The lines that were asked for. -/
def linesRead (history : List (Event Answer)) : Nat :=
  history.countP fun e => match e.call with
    | .getline => true
    | _ => false

/-- An environment in which everything goes well: the client sends these lines and no data,
and the server has these files. -/
def obliging (lines : List CStr) (config : ConfigFiles) (kfiles : Kfiles)
    (history : List (Event Answer)) : (c : Call) → Option (Answer c)
  | .getline => some (lines[linesRead history]?.map (· ++ [nul]))
  | .read _ => some none
  | .delay | .starttls | .pam _ | .setCompression _ | .openFile _ | .dump | .closeFile
  | .unlink _ => some true
  | .gethostname => some (some (lit "server"))
  | .config => some config
  | .kfiles => some kfiles
  | .peer => some (some (lit "c"))
  | .fstat => some (some 0)
  | .stat _ => some (some ⟨0, 0⟩)
  | .cksum _ => some (.ok [])
  | .fileLines _ => some none
  | .mkdir _ | .write _ _ | .close _ => some (.ok ())
  | .create _ => some (.ok 3)
  | .enter _ | .splice _ _ _ | .reply _ _ | .line _ | .report _ => some ()
  | .exit _ | .overrun => none

end Server
end Radmind
