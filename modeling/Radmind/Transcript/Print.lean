import Radmind.Code
import Radmind.Hardlink

/-!
# Printing a transcript

`t_print` writes the line for one object: with a '-' where it is to be removed,
with a '+' where its content is to be fetched.  The model keeps what is printed as
records and turns them into text at the end.
-/

namespace Radmind

inductive EditPath
  | applicable | creatable
  deriving DecidableEq, Repr

/-- The last argument of `t_print`. -/
inductive PrFlag
  | tranOnly | fsOnly | download | status | statusNeg | statusMinus
  deriving DecidableEq, Repr

/-- What `t_print` and `t_compare` read of a transcript, with its place in the
list, which stands for its address. -/
structure TranLine where
  index : Nat
  file : TranFile
  pinfo : PathInfo
  deriving DecidableEq, Repr

def Transcript.tranLine (i : Nat) (tran : Transcript) : TranLine := ⟨i, tran.file, tran.tPinfo⟩

/-- The settings `t_print` reads.  `doCksum` and `doAcksum` are `do_cksum` and
`do_acksum`, `none` on an error. -/
structure PrintConfig where
  editPath : EditPath
  cksum : Bool
  shellEscapes : Bool
  apple : Bool
  doCksum : CStr → Option CStr
  doAcksum : CStr → List Byte → Option CStr

/-- One line of the output. -/
inductive OutLine
  | header (shortname : CStr)
  | object (isMinus isPlus : Bool) (pinfo : PathInfo)
  deriving DecidableEq, Repr

/-- What printing changes: `prev_tran` by its index, `fs_minus`, the table of hard
links and the lines of `outtran`. -/
structure Printer where
  prevTran : Option Nat
  fsMinus : Bool
  devHead : List Devlist
  outtran : List OutLine

/-- `fs` is printed for a path that is to be changed itself: its links are
changed with it. -/
def marksLinks (cfg : PrintConfig) (fs : PathInfo) : Bool :=
  cfg.editPath = .applicable && fs.piType ≠ .d && fs.piType ≠ .h && 1 < fs.piStat.stNlink

def markLinks (cfg : PrintConfig) (pr : Printer) : Option PathInfo → Except Exit Printer
  | none => .ok pr
  | some fs =>
    if marksLinks cfg fs then
      match hardlinkChanged pr.devHead fs true with
      | .error e => .error e
      | .ok (devHead, _) => .ok { pr with devHead := devHead }
    else .ok pr

/-- The name of the transcript, if it changed since the last line that needs it. -/
def printHeader (cfg : PrintConfig) (pr : Printer) (tran : TranLine) (flag : PrFlag) : Printer :=
  if cfg.editPath = .applicable ∧ (flag = .tranOnly ∨ flag = .download ∨ flag = .statusNeg) ∧
      pr.prevTran ≠ some tran.index then
    { pr with
      prevTran := some tran.index
      outtran := pr.outtran ++ [.header tran.file.tShortname] }
  else pr

/-- `print_minus` -/
def printMinus (cfg : PrintConfig) (fs : Option PathInfo) (flag : PrFlag) : Bool :=
  match cfg.editPath with
  | .applicable => flag = .fsOnly
  | .creatable => flag = .tranOnly || fs.map (·.piType) = some .X

/-- `cur`, `none` for a NULL `fs`. -/
def printCur (cfg : PrintConfig) (fs : Option PathInfo) (tran : TranLine) (flag : PrFlag) :
    Option PathInfo :=
  match cfg.editPath with
  | .applicable => if flag = .fsOnly then fs else some tran.pinfo
  | .creatable => if printMinus cfg fs flag then some tran.pinfo else fs

/-- The checksum of a file that has none yet, calculated where it is printed. -/
def printCksum (cfg : PrintConfig) (isMinus : Bool) (cur : PathInfo) : Except Exit PathInfo :=
  if cur.piCksumB64.head? = some minus ∧ cfg.cksum = true ∧ isMinus = false then
    match (if cur.piType = .f then cfg.doCksum cur.piName
        else cfg.doAcksum cur.piName cur.piAfinfo) with
    | none => .error (.systemError cur.piName)
    | some cksum => .ok { cur with piCksumB64 := cksum }
  else .ok cur

/-- The time on the line of a file: a file of a negative transcript keeps the one it
has. -/
def printMtime (fs : Option PathInfo) (flag : PrFlag) (cur : PathInfo) : Except Exit PathInfo :=
  if flag = .statusNeg then
    match fs with
    | none => .error .overrun
    | some fs => .ok { cur with piStat := { cur.piStat with stMtime := fs.piStat.stMtime } }
  else .ok cur

/-- The record on the line of an object. -/
def printRecord (cfg : PrintConfig) (fs : Option PathInfo) (isMinus : Bool) (flag : PrFlag)
    (cur : PathInfo) : Except Exit PathInfo :=
  if encodeInternal cfg.shellEscapes cur.piName = none then .error (.filenameTooLong cur.piName)
  else
    match cur.piType with
    | .s | .D | .p | .d | .c | .b => .ok cur
    | .l | .h =>
      if encodeInternal cfg.shellEscapes cur.piLink = none then
        .error (.filenameTooLong cur.piLink)
      else .ok cur
    | .a | .f =>
      match printCksum cfg isMinus cur with
      | .error e => .error e
      | .ok cur => printMtime fs flag cur
    | .X => .error (.systemError cur.piName)
    | .unset => .error (.unknownType cur.piName cur.piType.letter)

/-- `t_print` -/
def tPrint (cfg : PrintConfig) (pr : Printer) (fs : Option PathInfo) (tran : TranLine)
    (flag : PrFlag) : Except Exit Printer :=
  match markLinks cfg pr fs with
  | .error e => .error e
  | .ok pr =>
    let pr := printHeader cfg pr tran flag
    let isMinus := printMinus cfg fs flag
    match printCur cfg fs tran flag with
    | none => .error .overrun
    | some cur =>
      match printRecord cfg fs isMinus flag cur with
      | .error e => .error e
      | .ok record =>
        let isPlus := (record.piType = .a || record.piType = .f) &&
          cfg.editPath = .applicable && (flag = .tranOnly || flag = .download)
        let dash := isMinus || (cfg.editPath = .applicable && flag = .statusMinus)
        .ok { pr with
          fsMinus := pr.fsMinus || isMinus
          outtran := pr.outtran ++ [.object dash isPlus record] }

/-! ## The text -/

/-- `%.4lo %5d %5d` of the mode, the owner and the group. -/
def ownerText (pi : PathInfo) : CStr :=
  printMode (tMode &&& pi.piStat.stMode) ++ space :: padLeft space 5 (printInt pi.piStat.stUid.toInt)
    ++ space :: padLeft space 5 (printInt pi.piStat.stGid.toInt)

/-- `%c %-37s\t` -/
def nameText (shellEscapes : Bool) (pi : PathInfo) : CStr :=
  pi.piType.letter :: space :: padRight 37 (pi.piName.flatMap (encodeByte shellEscapes)) ++ [tab]

/-- What follows the name on the line of an object. -/
def fieldsText (cfg : PrintConfig) (pi : PathInfo) : CStr :=
  match pi.piType with
  | .d =>
    if cfg.apple ∧ pi.aiData ≠ List.replicate finfoLen 0 then
      ownerText pi ++ space :: base64E pi.aiData
    else ownerText pi
  | .l => ownerText pi ++ space :: pi.piLink.flatMap (encodeByte cfg.shellEscapes)
  | .h => pi.piLink.flatMap (encodeByte cfg.shellEscapes)
  | .a | .f =>
    ownerText pi ++ space :: padLeft space 9 (printInt pi.piStat.stMtime.toInt) ++
      space :: padLeft space 7 (printInt pi.piStat.stSize.toInt) ++ space :: pi.piCksumB64
  | .b | .c =>
    ownerText pi ++ space :: padLeft space 5 (printInt (major pi.piStat.stRdev).toInt) ++
      space :: padLeft space 5 (printInt (minor pi.piStat.stRdev).toInt)
  | _ => ownerText pi

/-- A line as it stands in the file. -/
def OutLine.text (cfg : PrintConfig) : OutLine → CStr
  | .header shortname => shortname ++ [colon, newline]
  | .object isMinus isPlus pi =>
    (if isMinus then [minus, space] else []) ++ (if isPlus then [plus, space] else []) ++
      nameText cfg.shellEscapes pi ++ fieldsText cfg pi ++ [newline]

def printed (cfg : PrintConfig) (lines : List OutLine) : List Byte := lines.flatMap (·.text cfg)

end Radmind
