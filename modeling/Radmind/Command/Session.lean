import Radmind.Command.Config
import Radmind.Command.Kfile
import Radmind.ArgcArgv
import Radmind.Number
import Radmind.Lib.Interaction

/-!
# A session of the server

The handlers of command.c share some variables, and call the client, the file system, TLS
and PAM.  All these may answer in any way they like.
-/

namespace Radmind
namespace Server

open Interaction MarkedSearch

/-- The handlers, by the names of their functions. -/
inductive Handler
  | quit | noop | help | stat | retr | stor | noauth | notls | starttls | repo | login | compress
  deriving DecidableEq, Repr

/-- `K_COMMAND`, `K_TRANSCRIPT`, `K_SPECIAL` and `K_FILE`. -/
inductive Key
  | command | transcript | special | file
  deriving DecidableEq, Repr

inductive Errno
  | eexist
  | enoent
  | einval
  | other (text : CStr)
  deriving DecidableEq, Repr

def strerror : Errno → CStr
  | .eexist => lit "File exists"
  | .enoent => lit "No such file or directory"
  | .einval => lit "Invalid argument"
  | .other text => text

/-- The PAM calls of `f_login`. -/
inductive PamCall
  | start (user password : CStr)
  | authenticate
  | acctMgmt
  | finish
  deriving DecidableEq, Repr

/-- `st_mtime` and `st_size`. -/
structure FileStat where
  mtime : Int
  size : Int
  deriving DecidableEq, Repr

/-- The command files of the server, by their paths. -/
abbrev Kfiles := List (CStr × List Byte)

/-- What a handler calls.  `enter` and `splice` only tell what the server does: it begins a
handler, and puts a decoded word into the path of a request. -/
inductive Call
  | enter (h : Handler)
  | splice (key : Key) (word decoded : CStr)
  | reply (code : Nat) (text : CStr)
  /-- Output that is no reply. -/
  | line (text : CStr)
  | report (fields : List CStr)
  /-- `snet_getline`: the memory of a line, and what lies behind it. -/
  | getline
  | read (max : Nat)
  /-- `getprotobyname` and `setsockopt`. -/
  | delay
  | gethostname
  | config
  | kfiles
  | starttls
  /-- `SSL_get_peer_certificate`, with the common name. -/
  | peer
  | pam (c : PamCall)
  | setCompression (level : Int)
  | openFile (path : CStr)
  | fstat
  /-- The loop that copies a file to the client. -/
  | dump
  | closeFile
  | stat (path : CStr)
  | cksum (path : CStr)
  /-- The lines of a file, as `fgets` has them. -/
  | fileLines (path : CStr)
  | mkdir (path : CStr)
  /-- `open` with `O_CREAT|O_EXCL`. -/
  | create (path : CStr)
  | write (fd : Nat) (bytes : List Byte)
  | close (fd : Nat)
  | unlink (path : CStr)
  | exit (status : Nat)
  /-- The program reads where there is nothing. -/
  | overrun

@[reducible] def Answer : Call → Type
  | .getline => Option (List Byte)
  | .read max => Option { bytes : List Byte // 0 < bytes.length ∧ bytes.length ≤ max }
  | .delay => Bool
  | .gethostname => Option CStr
  | .config => ConfigFiles
  | .kfiles => Kfiles
  | .starttls => Bool
  | .peer => Option CStr
  | .pam _ => Bool
  | .setCompression _ => Bool
  | .openFile _ => Bool
  | .fstat => Option Int
  | .dump => Bool
  | .closeFile => Bool
  | .stat _ => Option FileStat
  | .cksum _ => Except Errno CStr
  | .fileLines _ => Option (List (List Byte))
  | .mkdir _ => Except Errno Unit
  | .create _ => Except Errno Nat
  | .write _ _ => Except Errno Unit
  | .close _ => Except Errno Unit
  | .unlink _ => Bool
  | .exit _ => Empty
  | .overrun => Empty
  | _ => Unit

/-- The settings of the server, and what it knows of the host of the client. -/
structure ServerConfig where
  authlevel : Nat
  checkuser : Bool
  havePam : Bool
  haveZlib : Bool
  maxZlibLevel : Int
  rapExtensions : Bool
  connections : Nat
  maxconnections : Nat
  version : CStr
  remoteHost : CStr
  remoteAddr : CStr
  wildcard : CStr → CStr → Bool → Bool

/-- `commands` -/
inductive Table
  | notls | noauth | auth
  deriving DecidableEq, Repr

/-- The variables of command.c, and the static buffer of `decode`. -/
structure Session where
  table : Table
  lookup : Lookup
  uploadXscript : CStr
  access : Access
  remoteCn : Option CStr
  authorized : Bool
  prevstor : Bool
  /-- `SNET_ZLIB` is set. -/
  compressed : Bool
  buf : List Byte
  deriving DecidableEq, Repr

/-- The start of a process. -/
def Session.start : Session :=
  { table := .notls, lookup := .start, uploadXscript := [], access := .new, remoteCn := none
    authorized := false, prevstor := false, compressed := false, buf := [] }

abbrev Serve (α : Type) := StateT Session (Prog Answer) α

def call (c : Call) : Serve (Answer c) := perform c

/-- `snet_writef` of a line with a code. -/
def reply (code : Nat) (text : CStr) : Serve Unit := call (.reply code text)

def exit {α : Type} (status : Nat) : Serve α := fun _ => .call (.exit status) fun e => e.elim

def overrun {α : Type} : Serve α := fun _ => .call .overrun fun e => e.elim

/-- `decode` of a word in the memory of a line. -/
def decodeArg (mem : List Byte) : Serve (Option CStr) := fun s =>
  .pure ((decode s.buf mem).1, { s with buf := (decode s.buf mem).2 })

/-- `av[ i ]` -/
def arg (av : List (List Byte)) (i : Nat) : Serve (List Byte) :=
  match av[i]? with
  | some mem => pure mem
  | none => overrun

def ServerConfig.client (cfg : ServerConfig) (remoteCn : Option CStr) : Client :=
  ⟨remoteCn, cfg.remoteHost, cfg.remoteAddr, cfg.wildcard⟩

def Kfiles.fopen (files : Kfiles) (path : CStr) : Option (List Byte) := files.lookup path

/-- `read_kfile`, with fuel for as many names as the command files have. -/
def Kfiles.read (files : Kfiles) (kfile : CStr) (access : Access) : Except KfileError Access :=
  readKfile files.fopen ((namesOf (files.map Prod.snd)).card + 1) kfile access

theorem Kfiles.fopen_mem {files : Kfiles} {path : CStr} {content : List Byte}
    (h : files.fopen path = some content) : content ∈ files.map Prod.snd := by
  obtain ⟨before, after, rfl, -⟩ := List.lookup_eq_some_iff.mp h
  simp

/-- The reading does not run out of fuel. -/
theorem Kfiles.read_ne_outOfFuel (files : Kfiles) (kfile : CStr) {access : Access}
    (h : access.Ok) : files.read kfile access ≠ .error .outOfFuel := by
  refine readKfile_ne_outOfFuel (fun path content => Kfiles.fopen_mem) _ kfile access h ?_
  exact Nat.lt_succ_of_le (Finset.card_le_card (Finset.filter_subset _ _))

end Server
end Radmind
