import Radmind.Base64
import Radmind.Number

/-!
# Transcripts and their records

The data of `transcript.h`: a `pathinfo` describes one object of the file system
or one line of a transcript, a `transcript` is an open file with the record of
its current line.
-/

namespace Radmind

/-- `pi_type`.  `unset` is the zero of a fresh record. -/
inductive FileType
  | a | f | d | l | h | p | s | D | b | c | X | unset
  deriving DecidableEq, Repr

/-- The letter that stands for a type in a transcript. -/
def FileType.letter : FileType → Byte
  | a => 97
  | b => 98
  | c => 99
  | d => 100
  | f => 102
  | h => 104
  | l => 108
  | p => 112
  | s => 115
  | D => 68
  | X => 88
  | unset => nul

/-- The types `transcript_parse` knows. -/
def FileType.ofLetter (byte : Byte) : Option FileType :=
  [a, b, c, d, f, h, l, p, s, D].find? (·.letter = byte)

/-- The fields of `struct stat` that transcripts are about, with their types on
64 bit Linux. -/
structure Stat where
  stDev : BitVec 64
  stIno : BitVec 64
  stNlink : BitVec 64
  stMode : BitVec 32
  stUid : BitVec 32
  stGid : BitVec 32
  stRdev : BitVec 64
  stSize : BitVec 64
  stMtime : BitVec 64
  deriving DecidableEq, Repr

def Stat.zero : Stat := ⟨0, 0, 0, 0, 0, 0, 0, 0, 0⟩

/-- `T_MODE` -/
def tMode : BitVec 32 := 0x0FFF

/-- `S_ISDIR( st_mode )` -/
def Stat.isDir (st : Stat) : Bool := st.stMode &&& 0o170000 = 0o040000

/-- `S_ISLNK( st_mode )` -/
def Stat.isLnk (st : Stat) : Bool := st.stMode &&& 0o170000 = 0o120000

/-- `FINFOLEN` -/
def finfoLen : Nat := 32

/-- The bytes of `struct applefileinfo` from `ai_data` to its end. -/
def afinfoLen : Nat := 92

/-- `struct pathinfo`.  Of `pi_afinfo` it has the bytes from `ai_data` on. -/
structure PathInfo where
  piType : FileType
  piMinus : Bool
  piName : CStr
  piLink : CStr
  piStat : Stat
  piCksumB64 : CStr
  piAfinfo : List Byte
  deriving DecidableEq, Repr

/-- A record after `memset`. -/
def PathInfo.zero : PathInfo :=
  ⟨.unset, false, [], [], Stat.zero, [], List.replicate afinfoLen 0⟩

/-- `ai_data` -/
def PathInfo.aiData (pi : PathInfo) : List Byte := pi.piAfinfo.take finfoLen

inductive TType
  | null | positive | negative | special
  deriving DecidableEq, Repr

/-- `struct transcript`.  `tIn` is what is left to read of the file. -/
structure Transcript where
  tPinfo : PathInfo
  tType : TType
  tFullname : CStr
  tShortname : CStr
  tLinenum : Nat
  tEof : Bool
  tIn : List Byte
  deriving DecidableEq, Repr

/-- What names a transcript, and stays as it is while the file is read. -/
structure TranFile where
  tType : TType
  tFullname : CStr
  tShortname : CStr
  deriving DecidableEq, Repr

def Transcript.file (tran : Transcript) : TranFile :=
  ⟨tran.tType, tran.tFullname, tran.tShortname⟩

/-- `tran_format`, -1 before it is set. -/
inductive TranFormat
  | unset | relative | absolute
  deriving DecidableEq, Repr

/-- What ends a run: the message on an `exit( 2 )`, with the file and the line it
names.  `overrun` stands for an access outside an object or through a NULL
pointer, after which C promises nothing. -/
inductive Exit
  | lineTooLong (file : CStr) (line : Nat)
  | tooFewArguments (file : CStr) (line ac : Nat)
  | typeTooLong (file : CStr) (line : Nat) (word : CStr)
  | pathTooLong (file : CStr) (line : Nat)
  | targetTooLong (file : CStr) (line : Nat)
  | badSortOrder (file : CStr) (line : Nat)
  | wrongArguments (file : CStr) (line : Nat) (expected : List Nat) (ac : Nat)
  | noCksums (file : CStr) (line : Nat)
  | unknownFileType (file : CStr) (line : Nat) (type : Byte)
  | filenameTooLong (name : CStr)
  | systemError (name : CStr)
  | unknownType (name : CStr) (type : Byte)
  | devNotFound (name : CStr)
  | inoNotFound (name : CStr)
  | overrun
  | outOfFuel
  deriving DecidableEq, Repr

end Radmind
