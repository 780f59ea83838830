import Radmind.Transcript.Parse

/-!
# The file system and the server as lapply sees them

The operating system and the server answer the calls of `lapply` in any way they like:
an `Os` is a state with an answer to every call.  The `World` of a run adds the
variables of the program and a trace of what it did.
-/

namespace Radmind

/-- The system calls `lapply` makes to change something, and the loop of `retr` that
copies a file from the server. -/
inductive SysCall
  | unlink (path : CStr)
  | rmdir (path : CStr)
  | rename (old new : CStr)
  | utime (path : CStr) (modtime : BitVec 64)
  | mkdir (path : CStr) (mode : BitVec 32)
  | link (target path : CStr)
  | symlink (target path : CStr)
  | mkfifo (path : CStr) (mode : BitVec 32)
  | mknod (path : CStr) (mode : BitVec 32) (dev : BitVec 64)
  | chown (path : CStr) (uid gid : BitVec 32)
  | lchown (path : CStr) (uid gid : BitVec 32)
  | chmod (path : CStr) (mode : BitVec 32)
  | lchmod (path : CStr) (mode : BitVec 32)
  | openTemp (path : CStr) (mode : BitVec 32)
  | receive (path : CStr) (size : Int)
  | close (path : CStr)
  deriving DecidableEq, Repr

/-- The call changes the file system where it succeeds. -/
def SysCall.modifies : SysCall → Bool
  | close _ => false
  | _ => true

/-- 0, and -1 with ENOENT or with another error. -/
inductive SysResult
  | ok | enoent | failed
  deriving DecidableEq, Repr

/-- `lstat` -/
inductive Lstat
  | found (st : Stat)
  | enoent
  | enotdir
  | failed
  deriving DecidableEq, Repr

/-- The answer to a RETR: none, a refusal, or the size of the file. -/
inductive Answer
  | lost
  | refused
  | size (n : Int)
  deriving DecidableEq, Repr

/-- The system and the server, with a state `σ` of their own. -/
structure Os (σ : Type) where
  sys : SysCall → σ → SysResult × σ
  lstat : σ → CStr → Lstat
  stat : σ → CStr → Option Stat
  request : CStr → σ → Answer × σ
  /-- The checksum of what was received last. -/
  digest : σ → CStr
  /-- The line behind a file is `.`. -/
  trailer : σ → Bool × σ
  fclose : σ → Bool
  closesn : σ → Bool

/-- The settings of a run, with the environment and the build. -/
structure LapplyConfig where
  caseSensitive : Bool
  cksum : Bool
  force : Bool
  createPrefix : Bool
  haveLchown : Bool
  haveLchmod : Bool
  euid : BitVec 32
  pid : CStr

/-- An entry of the removal list.  `tline` and `tran` are there for a line that is
carried out when the directory is gone; `line` is the number of the line that put it
there. -/
structure Node where
  line : Nat
  path : CStr
  tline : Option CStr
  tran : CStr
  deriving DecidableEq, Repr

/-- What ends a run before its end.  All of them but `decodeReturn`, which is a
`return( 1 )`, and `overrun` go through `error2`. -/
inductive Failure
  | lineTooLong (line : Nat)
  | invalidTranscript (name : CStr) (line : Nat)
  | noTranscript (line : Nat)
  | decodeReturn (line : Nat)
  | decodeTooLong (line : Nat)
  | badSortOrder (line : Nat)
  | pathTooLong (line : Nat)
  | unknownType (path : CStr)
  | system (path : CStr)
  | invalidDownload (line : Nat) (type : Byte)
  | requestTooLong (path : CStr)
  | noChecksum (line : Nat)
  | retrieve (pathdesc : CStr)
  | wrongArguments (line : Nat)
  | targetTooLong (line : Nat)
  | updateType (line : Nat) (word : CStr)
  | overrun
  deriving DecidableEq, Repr

/-- What a run does, in order.  A request and an action carry the number of the line
they are for, a request also that of the line read last. -/
inductive Action
  | call (c : SysCall) (r : SysResult)
  | request (line linenum : Nat) (pathdesc : CStr)
  /-- The line behind a file was read. -/
  | trailer
  /-- A line with this path begins to act, on what `radstat` found there. -/
  | begin (line : Nat) (path : CStr) (found : FileType)
  | push (n : Node)
  | rmdir (n : Node)
  | unlink (line : Nat) (path : CStr)
  | doLine (line : Nat) (path : CStr)
  /-- `do_line` returned 0. -/
  | done (line : Nat) (path : CStr)
  deriving DecidableEq, Repr

/-- The variables of `main`, those it shares with other functions, the state of the
system, and the trace. -/
structure World (σ : Type) where
  os : σ
  trace : List Action
  buf : List Byte
  network : Bool
  st : Stat
  head : List Node
  transcript : CStr
  special : Bool
  /-- `command` points into `targvline`, or at an empty string. -/
  command : Option Nat
  targvline : List Byte
  prepath : CStr
  linenum : Nat
  change : Bool

abbrev Lapply (σ : Type) := EStateM Failure (World σ)

section

variable {σ : Type} (os : Os σ)

/-- Add to the trace. -/
def record (ev : Action) : Lapply σ Unit := fun w => .ok () { w with trace := w.trace ++ [ev] }

/-- A system call, with its result. -/
def sys (c : SysCall) : Lapply σ SysResult := fun w =>
  let (r, s) := os.sys c w.os
  .ok r { w with os := s, trace := w.trace ++ [.call c r] }

/-- An `if` without an `else`. -/
def runIf (c : Bool) (x : Lapply σ Unit) : Lapply σ Unit := if c then x else pure ()

/-- A system call that ends the run where it fails. -/
def sysOrFail (c : SysCall) (path : CStr) : Lapply σ Unit := do
  let r ← sys os c
  runIf (r ≠ .ok) (throw (.system path))

/-- The switch on `st_mode & S_IFMT` in `radstat`, outside of macOS. -/
def Stat.fileType (st : Stat) : Option FileType :=
  let fmt := st.stMode &&& 0o170000
  if fmt = 0o100000 then some .f
  else if fmt = 0o040000 then some .d
  else if fmt = 0o120000 then some .l
  else if fmt = 0o020000 then some .c
  else if fmt = 0o060000 then some .b
  else if fmt = 0o010000 then some .p
  else if fmt = 0o140000 then some .s
  else none

/-- The results of `radstat`: the type, none for an unknown one, and the errors. -/
inductive Radstat
  | found (type : Option FileType)
  | enoent
  | failed
  deriving DecidableEq, Repr

/-- `radstat`.  It leaves what `lstat` says in `st`, and zeros where there is no object. -/
def radstat (path : CStr) : Lapply σ Radstat := fun w =>
  match os.lstat w.os path with
  | .found st => .ok (.found st.fileType) { w with st := st }
  | .enoent => .ok .enoent { w with st := Stat.zero }
  | .enotdir => .ok .failed { w with st := Stat.zero }
  | .failed => .ok .failed w

/-- `decode` of a word, with the static buffer.  `none` is the NULL that ends `targv`. -/
def decodeArg (tooLong : Nat → Failure) (word : Option (List Byte)) : Lapply σ CStr := fun w =>
  match word with
  | none => .error .overrun w
  | some mem =>
    match decode w.buf mem with
    | (none, buf) => .error (tooLong w.linenum) { w with buf := buf }
    | (some path, buf) => .ok path { w with buf := buf }

end

end Radmind
