import Radmind.Base64
import Radmind.CommandFile
import Radmind.Number

/-!
# Checking the sizes and checksums of a transcript

`do_lcksum` of lcksum.c reads a transcript line by line and compares what it lists of each
file with the file on the server.  It writes the transcript anew, or with `-n` reports what
is wrong.
-/

namespace Radmind

/-! ## Files on the server -/

/-- What a descriptor of a file gives: `fstat` its time and size, `read` its bytes. -/
structure ServerFile where
  stat : Option (BitVec 64 × BitVec 64)
  content : List Byte
  readable : Bool
  seekable : Bool
  closes : Bool

/-- `do_fcksum`: the number of bytes, and the checksum. -/
def doFcksum (digest : List Byte → List Byte) (file : ServerFile) : Option (Int × CStr) :=
  if file.readable then some (file.content.length, base64E (digest file.content)) else none

/-- The bytes of `as_header`. -/
def asHeader : List Byte :=
  [0x00, 0x05, 0x16, 0x00, 0x00, 0x02, 0x00, 0x00] ++ List.replicate 16 0 ++ [0x00, 0x03]

structure AsEntry where
  aeId : BitVec 32
  aeOffset : BitVec 32
  aeLength : BitVec 32

/-- `ntohl` of four bytes. -/
def netLong : List Byte → BitVec 32
  | [a, b, c, d] => a.toBitVec ++ b.toBitVec ++ c.toBitVec ++ d.toBitVec
  | _ => 0

/-- The entry at the start of some memory. -/
def asEntry (mem : List Byte) : AsEntry :=
  ⟨netLong (mem.take 4), netLong ((mem.drop 4).take 4), netLong ((mem.drop 8).take 4)⟩

/-- `ckapplefile`: the size the header of an applesingle file gives it, `none` for -1. -/
def ckapplefile (content : List Byte) : Option Int :=
  if content.take 26 ≠ asHeader then none
  else
    let ents := (content.drop 26).take 36
    if ents.length ≠ 36 then none
    else
      let fie := asEntry ents
      let rfe := asEntry (ents.drop 12)
      let dfe := asEntry (ents.drop 24)
      if fie.aeId ≠ 9 ∨ rfe.aeId ≠ 2 ∨ dfe.aeId ≠ 1 then none
      else if fie.aeOffset ≠ 62 then none
      else if rfe.aeOffset ≠ fie.aeOffset + fie.aeLength then none
      else if dfe.aeOffset ≠ rfe.aeOffset + rfe.aeLength then none
      else some (62 + (fie.aeLength + rfe.aeLength + dfe.aeLength).toNat)

/-! ## A line -/

/-- The options, and what the run finds on the server.  `recloses` is whether `fclose` of a
stream that is closed goes well. -/
structure LcksumConfig where
  caseSensitive : Bool
  checkall : Bool
  checkapplefile : Bool
  updatetran : Bool
  pathPrefix : Option CStr
  fileRoot : CStr
  tranName : CStr
  digest : List Byte → List Byte
  server : CStr → Option ServerFile
  recloses : Bool

/-- What is printed about a line. -/
inductive LcksumReport
  | lineTooLong (linenum : Nat)
  | invalidLine (linenum : Nat)
  | pathTooLong (linenum : Nat)
  | badSortOrder (linenum : Nat)
  | wrongArguments (linenum tac : Nat)
  | fullPathTooLong (linenum : Nat) (path : CStr)
  | openFailed (linenum : Nat) (dPath : CStr)
  | fstatFailed (linenum : Nat)
  | readFailed (linenum : Nat) (path : CStr)
  | sizeWrong (linenum : Nat) (dPath : CStr)
  | sizeUpdated (dPath : CStr)
  | checksumWrong (linenum : Nat) (dPath : CStr)
  | checksumUpdated (dPath : CStr)
  | lseekFailed (path : CStr)
  | corruptedApplefile (path : CStr)
  | closeFailed (path : CStr)
  deriving DecidableEq, Repr

/-- How the work on a line ends: at `done`, at `badline`, or with the run. -/
inductive BodyEnd
  | done
  | badline
  | exits
  deriving DecidableEq, Repr

/-- What the lines change: the line number, `prepath`, the counts, the transcript that is
written, and the static buffer of `decode`. -/
structure LcksumState where
  linenum : Nat
  prepath : CStr
  prefixfound : Bool
  ucount : Nat
  exitval : Bool
  ufs : List Byte
  buf : List Byte

/-- What was found at a line. -/
structure LineReport where
  reports : List LcksumReport
  ended : BodyEnd
  deriving DecidableEq, Repr

section

variable (cfg : LcksumConfig)

/-- The line written as it is. -/
def LcksumState.copy (st : LcksumState) (line : CStr) : LcksumState :=
  if cfg.updatetran then { st with ufs := st.ufs ++ line } else st

/-- The line with what the file has: its time only if a checksum was listed. -/
def lcksumText (type name mode uid gid mtime cksum : CStr) (stMtime stSize : BitVec 64)
    (lcksum : CStr) : CStr :=
  type ++ space :: padRight 37 name ++ space :: padLeft space 4 mode ++
    space :: padLeft space 5 uid ++ space :: padLeft space 5 gid ++
    space :: padLeft space 9 (if cksum ≠ [minus] then printInt stMtime.toInt else mtime) ++
    space :: padLeft space 7 (printInt stSize.toInt) ++ space :: lcksum ++ [newline]

/-- One of the two comparisons: what it reports and counts. -/
def lcksumCompare (wrong : Bool) (report update : LcksumReport) (st : LcksumState) :
    List LcksumReport × LcksumState :=
  if wrong then
    if cfg.updatetran then ([update], { st with ucount := st.ucount + 1 })
    else ([report], { st with exitval := true })
  else ([], st)

/-- `path`, the file of a line. -/
def lcksumPath (dPath : CStr) : CStr := cfg.fileRoot ++ slash :: cfg.tranName ++ slash :: dPath

/-- The work on a file that has been opened and read. -/
def lcksumOpened (st : LcksumState) (line dPath : CStr) (file : ServerFile)
    (stMtime stSize : BitVec 64) (cksumsize : Int) (lcksum : CStr)
    (type name mode uid gid mtime size cksum : CStr) : LineReport × LcksumState :=
  let sizeBad : Bool := cksumsize ≠ strtol 10 size
  let cksumBad : Bool := lcksum ≠ cksum
  let (r₁, st) := lcksumCompare cfg sizeBad (.sizeWrong st.linenum dPath) (.sizeUpdated dPath) st
  let (r₂, st) :=
    lcksumCompare cfg cksumBad (.checksumWrong st.linenum dPath) (.checksumUpdated dPath) st
  let isApple : Bool := type.head? = some 97 && cfg.checkapplefile
  if isApple && !file.seekable then
    (⟨r₁ ++ r₂ ++ [.lseekFailed (lcksumPath cfg dPath)], .badline⟩, st)
  else if isApple && ckapplefile file.content ≠ some stSize.toInt then
    (⟨r₁ ++ r₂ ++ [.corruptedApplefile (lcksumPath cfg dPath)], .badline⟩, st)
  else if !file.closes then (⟨r₁ ++ r₂ ++ [.closeFailed (lcksumPath cfg dPath)], .exits⟩, st)
  else if sizeBad || cksumBad then
    (⟨r₁ ++ r₂, .done⟩,
      st.copy cfg (lcksumText type name mode uid gid mtime cksum stMtime stSize lcksum))
  else (⟨r₁ ++ r₂, .done⟩, st.copy cfg line)

/-- The work on a line that lists a file. -/
def lcksumFile (st : LcksumState) (line dPath : CStr) (targv : List CStr) :
    LineReport × LcksumState :=
  match targv with
  | [type, name, mode, uid, gid, mtime, size, cksum] =>
    let path := lcksumPath cfg dPath
    if path.length ≥ maxPathLen then (⟨[.fullPathTooLong st.linenum path], .badline⟩, st)
    else
      match cfg.server path with
      | none => (⟨[.openFailed st.linenum dPath], .badline⟩, st)
      | some file =>
        match file.stat with
        | none => (⟨[.fstatFailed st.linenum], .badline⟩, st)
        | some (stMtime, stSize) =>
          match doFcksum cfg.digest file with
          | none => (⟨[.readFailed st.linenum path], .badline⟩, st)
          | some (cksumsize, lcksum) =>
            lcksumOpened cfg st line dPath file stMtime stSize cksumsize lcksum
              type name mode uid gid mtime size cksum
  | _ => (⟨[.wrongArguments st.linenum targv.length], .badline⟩, st)

/-- Whether a path does not start with the prefix. -/
def outsidePrefix (dPath : CStr) : Bool :=
  match cfg.pathPrefix with
  | none => false
  | some p => !p.isPrefixOf dPath

/-- Whether a line is about a file that is compared: its type, and no '-'. -/
def listsFile (remove : Bool) (type : CStr) : Bool :=
  (type.head? = some 102 || type.head? = some 97) && !remove

/-- The work on a line from its type on. -/
def lcksumEntry (st : LcksumState) (line : CStr) (remove : Bool) (targv : List (List Byte)) :
    LineReport × LcksumState :=
  match targv with
  | type :: name :: _ =>
    match decode st.buf name with
    | (none, buf) => (⟨[.pathTooLong st.linenum], .badline⟩, { st with buf := buf })
    | (some dPath, buf) =>
      let st := { st with buf := buf }
      if dPath.length ≥ maxPathLen then (⟨[.pathTooLong st.linenum], .badline⟩, st)
      else if outsidePrefix cfg dPath then (⟨[], .done⟩, st.copy cfg line)
      else
        let st := { st with prefixfound := st.prefixfound || cfg.pathPrefix.isSome }
        if st.prepath ≠ [] ∧ pathcasecmp dPath st.prepath cfg.caseSensitive ≤ 0 then
          (⟨[.badSortOrder st.linenum], .exits⟩, st)
        else
          let st := { st with prepath := dPath }
          if !listsFile remove (cstr type) then (⟨[], .done⟩, st.copy cfg line)
          else lcksumFile cfg st line dPath (targv.map cstr)
  | _ => (⟨[.invalidLine st.linenum], .badline⟩, st)

/-- The body of the loop of `do_lcksum`. -/
def lcksumLine (st : LcksumState) (tline : List Byte) : LineReport × LcksumState :=
  let st := { st with linenum := st.linenum + 1 }
  let line := cstr tline
  -- an empty string has no last character
  if line.getLast? ≠ some newline then (⟨[.lineTooLong st.linenum], .badline⟩, st)
  else
    match (acavParse (tline ++ [nul])).2 with
    | [] => (⟨[], .done⟩, st.copy cfg line)
    | word :: argv =>
      if word.head? = some hash then (⟨[], .done⟩, st.copy cfg line)
      else if argv = [] then (⟨[.invalidLine st.linenum], .badline⟩, st)
      else if word.head? = some minus then lcksumEntry cfg st line true argv
      else lcksumEntry cfg st line false (word :: argv)

/-! ## The transcript -/

/-- The loop of `do_lcksum` on what `fgets` returns: what was found at each line, and the state
at its end with whether the stream is closed, none where the run exits.  A closed stream gives
no line. -/
def lcksumLoop : List (List Byte) → LcksumState → List LineReport × Option (LcksumState × Bool)
  | [], st => ([], some (st, false))
  | tline :: f, st =>
    match lcksumLine cfg st tline with
    | (report, st) =>
      match report.ended with
      | .done =>
        if cfg.updatetran && st.exitval then ([report], none)
        else
          let (reports, r) := lcksumLoop f st
          (report :: reports, r)
      | .badline =>
        if cfg.checkall && !cfg.updatetran then ([report], some ({ st with exitval := true }, true))
        else ([report], none)
      | .exits => ([report], none)

/-- How `do_lcksum` ends: with 0, with 1 and the transcript written anew, with 1, or with 2. -/
inductive LcksumEnd
  | verified
  | updated (tran : List Byte)
  | incorrect
  | failed
  deriving DecidableEq, Repr

def LcksumState.start : LcksumState := ⟨0, [], false, 0, false, [], []⟩

/-- `do_lcksum` from the opened transcript on. -/
def doLcksum (input : List Byte) : List LineReport × LcksumEnd :=
  match lcksumLoop cfg (fileLines input) .start with
  | (reports, none) => (reports, .failed)
  | (reports, some (st, closed)) =>
    (reports,
      if closed && !cfg.recloses then .failed
      else if cfg.updatetran then if st.ucount ≠ 0 then .updated st.ufs else .verified
      else if st.exitval then .incorrect
      else .verified)

/-- The transcript a run leaves. -/
def LcksumEnd.transcript (input : List Byte) : LcksumEnd → List Byte
  | .updated tran => tran
  | _ => input

end

end Radmind
