import Radmind.Transcript.Print
import Radmind.Transcript.Select

/-!
# Comparing the file system with the transcripts

`t_compare` puts one object of the file system against the current transcript
line, `transcript` calls it until the object is dealt with.
-/

namespace Radmind

/-- The settings of an `fsdiff` run, and of its build.  `isSpecial` says whether a
path is on the list of special files. -/
structure DiffConfig extends SelectConfig where
  editPath : EditPath
  ignoreTimestamps : Bool
  shellEscapes : Bool
  apple : Bool
  haveLchown : Bool
  haveLchmod : Bool
  isSpecial : CStr → Bool
  doCksum : CStr → Option CStr
  doAcksum : CStr → List Byte → Option CStr

def DiffConfig.print (cfg : DiffConfig) : PrintConfig :=
  { editPath := cfg.editPath, cksum := cfg.cksum, shellEscapes := cfg.shellEscapes
    apple := cfg.apple, doCksum := cfg.doCksum, doAcksum := cfg.doAcksum }

/-- The return values of `t_compare`. -/
inductive Move
  | tran | fs | both
  deriving DecidableEq, Repr

/-- The owner, the group or the mode differ. -/
def ownerDiffers (fs tran : PathInfo) : Bool :=
  fs.piStat.stUid ≠ tran.piStat.stUid || fs.piStat.stGid ≠ tran.piStat.stGid ||
    tMode &&& fs.piStat.stMode ≠ tMode &&& tran.piStat.stMode

def statusIf (differs : Bool) : Option PrFlag := if differs then some .status else none

/-- The owner, group and mode of a file. -/
def compareOwner (cfg : DiffConfig) (fs : PathInfo) (tran : TranLine) : Option PrFlag :=
  if ownerDiffers fs tran.pinfo then
    if tran.file.tType = .negative ∧ cfg.editPath = .applicable then some .statusNeg
    else some .status
  else none

/-- `fs` with its checksum. -/
def sumFile (cfg : DiffConfig) (fs : PathInfo) : Except Exit PathInfo :=
  match (if fs.piType = .f then cfg.doCksum fs.piName else cfg.doAcksum fs.piName fs.piAfinfo) with
  | none => .error (.systemError fs.piName)
  | some cksum => .ok { fs with piCksumB64 := cksum }

/-- The cases 'a' and 'f' of `t_compare`: the flag to print with, if any, and `fs`
with the checksum it may have been given. -/
def compareFile (cfg : DiffConfig) (fs : PathInfo) (tran : TranLine) :
    Except Exit (PathInfo × Option PrFlag) :=
  let timeDiffers := !cfg.ignoreTimestamps && fs.piStat.stMtime ≠ tran.pinfo.piStat.stMtime
  if tran.file.tType = .negative then .ok (fs, compareOwner cfg fs tran)
  else if fs.piStat.stSize ≠ tran.pinfo.piStat.stSize then .ok (fs, some .download)
  else if cfg.cksum then
    match sumFile cfg fs with
    | .error e => .error e
    | .ok fs =>
      if fs.piCksumB64 ≠ tran.pinfo.piCksumB64 then .ok (fs, some .download)
      else if timeDiffers then .ok (fs, some .status)
      else .ok (fs, compareOwner cfg fs tran)
  else if timeDiffers then .ok (fs, some .download)
  else .ok (fs, compareOwner cfg fs tran)

/-- The switch of `t_compare` for equal names and types. -/
def compareFields (cfg : DiffConfig) (devHead : List Devlist) (fs : PathInfo) (tran : TranLine) :
    Except Exit (PathInfo × Option PrFlag) :=
  match fs.piType with
  | .a | .f => compareFile cfg fs tran
  | .d =>
    .ok (fs, statusIf (ownerDiffers fs tran.pinfo ||
      (cfg.apple && tran.file.tType ≠ .negative && fs.aiData ≠ tran.pinfo.aiData)))
  | .D | .p | .s => .ok (fs, statusIf (ownerDiffers fs tran.pinfo))
  | .l =>
    .ok (fs, statusIf (tran.file.tType ≠ .negative &&
      (fs.piLink ≠ tran.pinfo.piLink ||
        (cfg.haveLchown && (fs.piStat.stUid ≠ tran.pinfo.piStat.stUid ||
          fs.piStat.stGid ≠ tran.pinfo.piStat.stGid)) ||
        (cfg.haveLchmod && tMode &&& fs.piStat.stMode ≠ tMode &&& tran.pinfo.piStat.stMode))))
  | .h =>
    if fs.piLink ≠ tran.pinfo.piLink then .ok (fs, some .status)
    else
      match hardlinkChanged devHead fs false with
      | .error e => .error e
      | .ok (_, changed) => .ok (fs, statusIf changed)
  | .c =>
    .ok (fs, statusIf (fs.piStat.stRdev ≠ tran.pinfo.piStat.stRdev ||
      (tran.file.tType ≠ .negative && ownerDiffers fs tran.pinfo)))
  | .b =>
    .ok (fs, statusIf (fs.piStat.stRdev ≠ tran.pinfo.piStat.stRdev || ownerDiffers fs tran.pinfo))
  -- an unknown type is only reported
  | .X | .unset => .ok (fs, none)

/-- `t_compare` where the names match. -/
def compareBoth (cfg : DiffConfig) (pr : Printer) (fs : PathInfo) (tran : TranLine) :
    Except Exit Printer :=
  if fs.piType ≠ tran.pinfo.piType then tPrint cfg.print pr (some fs) tran .download
  else
    match compareFields cfg pr.devHead fs tran with
    | .error e => .error e
    | .ok (_, none) => .ok pr
    | .ok (fs, some flag) => tPrint cfg.print pr (some fs) tran flag

/-- `t_compare` -/
def tCompare (cfg : DiffConfig) (pr : Printer) (fs : Option PathInfo) (eof : Bool)
    (tran : TranLine) : Except Exit (Printer × Move) :=
  let print (flag : PrFlag) (move : Move) : Except Exit (Printer × Move) :=
    match tPrint cfg.print pr fs tran flag with
    | .error e => .error e
    | .ok pr => .ok (pr, move)
  match fs with
  | none => if eof then .ok (pr, .fs) else print .tranOnly .tran
  | some p =>
    let cmp := if eof then -1 else pathcasecmp p.piName tran.pinfo.piName cfg.caseSensitive
    if cmp > 0 then print .tranOnly .tran
    else if cmp < 0 then print .fsOnly .fs
    else
      match compareBoth cfg pr p tran with
      | .error e => .error e
      | .ok pr => .ok (pr, .both)

/-- An object of the file system as it is passed to `transcript`: what `radstat`
says about the path, what `readlink` gives for it, and whether its directory is to
be deleted. -/
structure FsEntry where
  path : CStr
  st : Stat
  type : FileType
  afinfo : List Byte
  target : CStr
  parentMinus : Bool
  deriving DecidableEq, Repr

/-- What a run changes. -/
structure Run where
  cursors : Cursors
  printer : Printer

/-- The record `pi` of `transcript` from its arguments. -/
def FsEntry.record (e : FsEntry) : PathInfo :=
  { piType := e.type, piMinus := false, piName := e.path, piLink := [], piStat := e.st
    piCksumB64 := [minus], piAfinfo := e.afinfo }

/-- The record of an object that is no further link to an inode seen before. -/
def FsEntry.named (e : FsEntry) : PathInfo :=
  if e.st.isLnk then { e.record with piLink := e.target } else e.record

/-- The record of a further link to the inode `linkpath` named first. -/
def FsEntry.further (e : FsEntry) (linkpath : CStr) : PathInfo :=
  { e.record with piType := .h, piLink := linkpath }

/-- The object may have other links. -/
def FsEntry.linked (e : FsEntry) : Bool := !e.st.isDir && 1 < e.st.stNlink

/-- The record `pi` of `transcript`, and the table of hard links with the object
in it. -/
def describe (devHead : List Devlist) (e : FsEntry) : List Devlist × PathInfo :=
  if e.linked then
    match hardlink devHead e.record with
    | (devHead, some linkpath) => (devHead, e.further linkpath)
    | (devHead, none) => (devHead, e.named)
  else (devHead, e.named)

/-- The loop of `transcript`.  It returns `enter`. -/
def compareLoop (cfg : DiffConfig) (fs : Option PathInfo) (enter : Nat) :
    Nat → Run → Except Exit (Run × Nat)
  | 0, _ => .error .outOfFuel
  | fuel + 1, r =>
    match transcriptSelect cfg.toSelectConfig r.cursors with
    | .error e => .error e
    | .ok (c, i) =>
      match c.tranHead[i]? with
      | none => .error .overrun
      | some tran =>
        match tCompare cfg r.printer fs tran.tEof (tran.tranLine i) with
        | .error e => .error e
        | .ok (pr, .fs) => .ok (⟨c, pr⟩, enter)
        | .ok (pr, .both) =>
          match advance cfg.toSelectConfig c i with
          | .error e => .error e
          | .ok c =>
            -- negative directories are not walked as usual
            .ok (⟨c, pr⟩,
              if tran.tType = .negative ∧ tran.tPinfo.piType = .d then 2 else enter)
        | .ok (pr, .tran) =>
          match advance cfg.toSelectConfig c i with
          | .error e => .error e
          | .ok c => compareLoop cfg fs enter fuel ⟨c, pr⟩

/-- The exclude check at the head of `transcript`. -/
def skips (cfg : DiffConfig) (e : FsEntry) : Bool :=
  cfg.tExclude e.path && !e.parentMinus && !cfg.isSpecial e.path

/-- `transcript`, with `none` for a NULL path. -/
def transcript (cfg : DiffConfig) (r : Run) (entry : Option FsEntry) : Except Exit (Run × Nat) :=
  let r := { r with printer := { r.printer with fsMinus := false } }
  match entry with
  | none => compareLoop cfg none 0 (r.cursors.unread + 1) r
  | some e =>
    if skips cfg e then
      let c := if cfg.excludeWarnings then
          { r.cursors with warned := r.cursors.warned ++ [e.path] } else r.cursors
      match transcriptSelect cfg.toSelectConfig c with
      | .error e => .error e
      | .ok (c, _) => .ok ({ r with cursors := c }, 0)
    else
      let (devHead, pi) := describe r.printer.devHead e
      compareLoop cfg (some pi) (if e.st.isDir then 1 else 0) (r.cursors.unread + 1)
        { r with printer := { r.printer with devHead := devHead } }

/-- The calls of a run: one for each object, in order, and one with NULL after
them. -/
def transcriptRun (cfg : DiffConfig) (r : Run) : List FsEntry → Except Exit Run
  | [] => (transcript cfg r none).map (·.1)
  | e :: F =>
    match transcript cfg r (some e) with
    | .error e => .error e
    | .ok (r, _) => transcriptRun cfg r F

end Radmind
