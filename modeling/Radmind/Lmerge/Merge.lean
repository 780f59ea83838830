import Radmind.CommandFile

/-!
# Merging transcripts

`lmerge` without `-f`.  Every transcript stands at a line, and each round of the merge looks
for the first one with the least path, moves the others that are at this path, writes its
line and moves it too.

`getnextline` returns 1 for a path that is too long or out of order, and not every caller
looks at that.
-/

namespace Radmind

/-- The options, and the transcript and files to be made.  `link` says whether a file gets
from one path to another. -/
structure LmergeConfig where
  caseSensitive : Bool
  noupload : Bool
  mergeTransOnly : Bool
  fileRoot : CStr
  tranName : CStr
  pid : CStr
  link : CStr → CStr → Bool

/-- What ends a run with `exit( 2 )`, or the message of a `getnextline` that returns 1. -/
inductive LmergeExit
  | usage
  | lineTooLong (name : CStr) (line : Nat)
  | pathTooLong (name : CStr) (line : Nat)
  | badSortOrder (name : CStr) (line : Nat)
  | longPath (path : CStr)
  | linkFailed (opath npath : CStr)
  | overrun
  | outOfFuel
  deriving DecidableEq, Repr

/-- `struct tran`.  `tFd` is what is left to read of the file. -/
structure Tran where
  tFd : List Byte
  tEof : Bool
  tLinenum : Nat
  tRemove : Bool
  tPrepath : CStr
  tFileRoot : CStr
  tTranName : CStr
  tLine : CStr
  tFilepath : CStr
  tArgv : List CStr
  deriving DecidableEq, Repr

/-- The part of `getnextline` behind the words of a line.  A second check of the length
never fires. -/
def takePath (cfg : LmergeConfig) (buf : List Byte) (tran : Tran) :
    Except LmergeExit (Tran × Option LmergeExit × List Byte) :=
  match tran.tArgv[1]? with
  | none => .error .overrun
  | some word =>
    match decode buf (word ++ [nul]) with
    | (none, buf) => .ok (tran, some (.pathTooLong tran.tTranName tran.tLinenum), buf)
    | (some path, buf) =>
      if path.length ≥ maxPathLen then
        .ok (tran, some (.pathTooLong tran.tTranName tran.tLinenum), buf)
      else
        let tran := { tran with tFilepath := path }
        if tran.tPrepath ≠ [] ∧ pathcasecmp path tran.tPrepath cfg.caseSensitive ≤ 0 then
          .ok (tran, some (.badSortOrder tran.tTranName tran.tLinenum), buf)
        else .ok ({ tran with tPrepath := path }, none, buf)

def getnextlineUpTo (cfg : LmergeConfig) : Nat → List Byte → Tran →
    Except LmergeExit (Tran × Option LmergeExit × List Byte)
  | 0, _, _ => .error .outOfFuel
  | fuel + 1, buf, tran =>
    match fgets maxPathLen tran.tFd with
    | none => .ok ({ tran with tEof := true }, none, buf)
    | some (line, rest) =>
      let tran := { tran with tFd := rest, tLinenum := tran.tLinenum + 1, tLine := cstr line }
      if cstr line = [] then .error .overrun
      else if (cstr line).getLast? ≠ some newline then
        .error (.lineTooLong tran.tTranName tran.tLinenum)
      else
        match lineWords line with
        | [] => getnextlineUpTo cfg fuel buf tran
        | word :: argv =>
          if word.head? = some hash then getnextlineUpTo cfg fuel buf tran
          else if word.head? = some minus then
            takePath cfg buf { tran with tRemove := true, tArgv := argv }
          else takePath cfg buf { tran with tRemove := false, tArgv := word :: argv }

/-- `getnextline`.  An error is a return of -1, which ends every run; a message in the
result is a return of 1. -/
def getnextline (cfg : LmergeConfig) (buf : List Byte) (tran : Tran) :
    Except LmergeExit (Tran × Option LmergeExit × List Byte) :=
  getnextlineUpTo cfg (tran.tFd.length + 1) buf tran

/-- The type of a line is 'f' or 'a'. -/
def isFileLine (argv : List CStr) : Bool :=
  let type := argv.head?.bind List.head?
  type = some 102 || type = some 97

def Tran.isFile (tran : Tran) : Bool := isFileLine tran.tArgv

/-- Whether the sizes and checksums of two lines are the same.  No result stands for a word
that is not there. -/
def sameFile (argv argv' : List CStr) : Option Bool :=
  match argv[6]?, argv'[6]? with
  | some size, some size' =>
    if size = size' then
      match argv[7]?, argv'[7]? with
      | some cksum, some cksum' => some (cksum = cksum')
      | _, _ => none
    else some false
  | _, _ => none

/-- The variables of the loop that compares the candidate to other transcripts.  `skipped`
is set on a `goto skipline`. -/
structure Compared where
  candidate : Nat
  fileloc : Nat
  matched : Bool
  skipped : Bool
  deriving DecidableEq, Repr

/-- The loop from transcript `j` on, where `cand` is the candidate. -/
def candidateLoop (cfg : LmergeConfig) : Tran → Compared → Nat → List Tran → List Byte →
    Except LmergeExit (List Tran × Compared × List Byte)
  | _, c, _, [], buf => .ok ([], c, buf)
  | cand, c, j, t :: rest, buf =>
    if t.tEof then
      match candidateLoop cfg cand c (j + 1) rest buf with
      | .error e => .error e
      | .ok (rest, c, buf) => .ok (t :: rest, c, buf)
    else
      let cmpval := pathcasecmp cand.tFilepath t.tFilepath cfg.caseSensitive
      if cmpval = 0 then
        -- with -n, which file is to be linked
        match (if cfg.noupload && cand.isFile then sameFile cand.tArgv t.tArgv else some true) with
        | none => .error .overrun
        | some false => .ok (t :: rest, { c with matched := true, skipped := true }, buf)
        | some true =>
          let c := { c with
            matched := true, fileloc := if cfg.noupload && cand.isFile then j else c.fileloc }
          -- a return of 1 goes unnoticed
          match getnextline cfg buf t with
          | .error e => .error e
          | .ok (t, _, buf) =>
            match candidateLoop cfg cand c (j + 1) rest buf with
            | .error e => .error e
            | .ok (rest, c, buf) => .ok (t :: rest, c, buf)
      else if cmpval > 0 then
        match candidateLoop cfg t { c with candidate := j, fileloc := j } (j + 1) rest buf with
        | .error e => .error e
        | .ok (rest, c, buf) => .ok (t :: rest, c, buf)
      else
        match candidateLoop cfg cand c (j + 1) rest buf with
        | .error e => .error e
        | .ok (rest, c, buf) => .ok (t :: rest, c, buf)

/-- The file of a line is linked, or copied, from `candRoot` and the transcript `locName`. -/
def placeFile (cfg : LmergeConfig) (candRoot locName filepath : CStr) : Except LmergeExit Unit :=
  let opath := candRoot ++ slash :: (locName ++ slash :: filepath)
  let npath := cfg.fileRoot ++ slash :: (cfg.tranName ++ dot :: (cfg.pid ++ slash :: filepath))
  if opath.length ≥ maxPathLen then .error (.longPath opath)
  else if npath.length ≥ maxPathLen then .error (.longPath npath)
  else if cfg.link opath npath then .ok ()
  else .error (.linkFailed opath npath)

/-- A line of the transcript that is written, with its path. -/
structure Written where
  tFilepath : CStr
  tLine : CStr
  deriving DecidableEq, Repr

def Tran.written (tran : Tran) : Written := ⟨tran.tFilepath, tran.tLine⟩

/-- What is written up to `skipline`. -/
def output (cfg : LmergeConfig) (c : Compared) (cand loc : Tran) :
    Except LmergeExit (List Written) :=
  if c.skipped then .ok []
  else if cand.tRemove || (cfg.noupload && (c.candidate = 0 && c.fileloc = 0)) then .ok []
  else if !cand.isFile || cfg.mergeTransOnly then .ok [cand.written]
  else
    match placeFile cfg cand.tFileRoot loc.tTranName cand.tFilepath with
    | .error e => .error e
    | .ok () => .ok [cand.written]

/-- An unmatched '-' line is written again. -/
def recreated (c : Compared) (cand : Tran) : List Written :=
  if cand.tRemove && !c.matched then [cand.written] else []

/-- The state of the merge: the loop is at transcript `i`, and `ofs` is what it wrote. -/
structure MergeState where
  i : Nat
  trans : List Tran
  buf : List Byte
  ofs : List Written
  deriving DecidableEq, Repr

/-- A round of the merge, from transcript `t` at `i`. -/
def mergeRound (cfg : LmergeConfig) (st : MergeState) (t : Tran) :
    Except LmergeExit MergeState :=
  match candidateLoop cfg t ⟨st.i, st.i, false, false⟩ (st.i + 1) (st.trans.drop (st.i + 1))
      st.buf with
  | .error e => .error e
  | .ok (rest, c, buf) =>
    let ts := st.trans.take (st.i + 1) ++ rest
    match ts[c.candidate]?, ts[c.fileloc]? with
    | some cand, some loc =>
      match output cfg c cand loc with
      | .error e => .error e
      | .ok lines =>
        match getnextline cfg buf cand with
        | .error e => .error e
        | .ok (_, some e, _) => .error e
        | .ok (cand', none, buf) =>
          .ok ⟨st.i, ts.set c.candidate cand', buf, st.ofs ++ lines ++ recreated c cand⟩
    | _, _ => .error .overrun

/-- A step of the two loops of the merge, `none` at their end. -/
def mergeStep (cfg : LmergeConfig) (st : MergeState) : Except LmergeExit (Option MergeState) :=
  match st.trans[st.i]? with
  | none => .ok none
  | some t =>
    if t.tEof then .ok (some { st with i := st.i + 1 })
    else (mergeRound cfg st t).map some

def mergeLoop (cfg : LmergeConfig) : Nat → MergeState → Except LmergeExit (List Written)
  | 0, _ => .error .outOfFuel
  | fuel + 1, st =>
    match mergeStep cfg st with
    | .error e => .error e
    | .ok none => .ok st.ofs
    | .ok (some st) => mergeLoop cfg fuel st

/-- The states of a run. -/
inductive MergeReaches (cfg : LmergeConfig) (start : MergeState) : MergeState → Prop
  | start : MergeReaches cfg start start
  | step {st st' : MergeState} : MergeReaches cfg start st → mergeStep cfg st = .ok (some st') →
      MergeReaches cfg start st'

/-- A transcript on the command line: the roots and the name from `get_root`, and the file. -/
structure LmergeInput where
  fileRoot : CStr
  tranName : CStr
  content : List Byte
  deriving DecidableEq, Repr

def LmergeInput.open (input : LmergeInput) : Tran :=
  ⟨input.content, false, 0, false, [], input.fileRoot, input.tranName, [], [], []⟩

/-- The transcripts are opened and moved to their first lines. -/
def openTrans (cfg : LmergeConfig) : List LmergeInput → List Byte →
    Except LmergeExit (List Tran × List Byte)
  | [], buf => .ok ([], buf)
  | input :: inputs, buf =>
    match getnextline cfg buf input.open with
    | .error e => .error e
    | .ok (t, _, buf) =>
      match openTrans cfg inputs buf with
      | .error e => .error e
      | .ok (ts, buf) => .ok (t :: ts, buf)

/-- What is left to do with a transcript. -/
def Tran.unread (tran : Tran) : Nat := tran.tFd.length + if tran.tEof then 0 else 1

/-- `lmerge` from its transcripts on: the lines of the transcript it makes. -/
def lmerge (cfg : LmergeConfig) (inputs : List LmergeInput) : Except LmergeExit (List Written) :=
  if cfg.noupload && inputs.length > 2 then .error .usage
  else if inputs.length < 2 then .error .usage
  else
    match openTrans cfg inputs [] with
    | .error e => .error e
    | .ok (ts, buf) => mergeLoop cfg ((ts.map Tran.unread).sum + ts.length + 1) ⟨0, ts, buf, []⟩

/-! ## What one call of `getnextline` does -/

/-- The line of the transcript was read and is in order. -/
def Tran.Accepted (tran : Tran) : Prop := tran.tPrepath = tran.tFilepath

/-- What stays as it is while a transcript is read. -/
def Tran.roots (tran : Tran) : CStr × CStr := (tran.tFileRoot, tran.tTranName)

inductive NextLine (cfg : LmergeConfig) (t t' : Tran) : Option LmergeExit → Prop
  | atEnd : t'.tEof = true → t'.tFd.length ≤ t.tFd.length → NextLine cfg t t' none
  | accepted : t'.tEof = t.tEof → t'.Accepted → NulFree t'.tFilepath →
      (t.tPrepath ≠ [] → 0 < pathcasecmp t'.tFilepath t.tPrepath cfg.caseSensitive) →
      t'.tFd.length < t.tFd.length → NextLine cfg t t' none
  | refused {e : LmergeExit} : (t.tPrepath = [] → t'.tFilepath = t.tFilepath) →
      NextLine cfg t t' (some e)

section

variable {cfg : LmergeConfig} {buf buf' : List Byte} {t t' : Tran} {r : Option LmergeExit}

theorem takePath_cases {s : Tran} (hs : s.tEof = t.tEof ∧ s.tPrepath = t.tPrepath ∧
      s.tFilepath = t.tFilepath ∧ s.roots = t.roots ∧ s.tFd.length < t.tFd.length)
    (h : takePath cfg buf s = .ok (t', r, buf')) : NextLine cfg t t' r ∧ t'.roots = t.roots := by
  obtain ⟨heof, hpre, hpath, hroots, hlen⟩ := hs
  unfold takePath at h
  split at h
  · exact absurd h (by simp)
  split at h
  · obtain ⟨rfl, hr⟩ := Prod.mk.inj (Except.ok.inj h)
    obtain ⟨rfl, -⟩ := Prod.mk.inj hr
    exact ⟨.refused fun _ => hpath, hroots⟩
  · next word path buf₁ hdecode =>
    simp only at h
    split_ifs at h with hlong hsort
    · obtain ⟨rfl, hr⟩ := Prod.mk.inj (Except.ok.inj h)
      obtain ⟨rfl, -⟩ := Prod.mk.inj hr
      exact ⟨.refused fun _ => hpath, hroots⟩
    · obtain ⟨rfl, hr⟩ := Prod.mk.inj (Except.ok.inj h)
      obtain ⟨rfl, -⟩ := Prod.mk.inj hr
      exact ⟨.refused fun hnil => absurd (hpre.trans hnil) hsort.1, hroots⟩
    · obtain ⟨rfl, hr⟩ := Prod.mk.inj (Except.ok.inj h)
      obtain ⟨rfl, -⟩ := Prod.mk.inj hr
      refine ⟨.accepted heof rfl (decode_nulFree hdecode) (fun hne => ?_) hlen, hroots⟩
      rw [← hpre] at hne ⊢
      exact not_le.mp fun hle => hsort ⟨hne, hle⟩

theorem getnextlineUpTo_cases {fuel : Nat} {s : Tran} (hs : s.tEof = t.tEof ∧
      s.tPrepath = t.tPrepath ∧ s.tFilepath = t.tFilepath ∧ s.roots = t.roots ∧
      s.tFd.length ≤ t.tFd.length)
    (h : getnextlineUpTo cfg fuel buf s = .ok (t', r, buf')) :
    NextLine cfg t t' r ∧ t'.roots = t.roots := by
  induction fuel generalizing s with
  | zero => exact absurd h (by simp [getnextlineUpTo])
  | succ fuel ih =>
    obtain ⟨heof, hpre, hpath, hroots, hlen⟩ := hs
    rw [getnextlineUpTo] at h
    split at h
    · obtain ⟨rfl, hr⟩ := Prod.mk.inj (Except.ok.inj h)
      obtain ⟨rfl, -⟩ := Prod.mk.inj hr
      exact ⟨.atEnd rfl hlen, hroots⟩
    next line rest hfgets =>
    have hless : rest.length < t.tFd.length :=
      (length_fgets_lt (by decide) hfgets).trans_le hlen
    simp only at h
    split_ifs at h
    split at h
    · refine ih ?_ h
      exact ⟨heof, hpre, hpath, hroots, hless.le⟩
    split_ifs at h
    · refine ih ?_ h
      exact ⟨heof, hpre, hpath, hroots, hless.le⟩
    · refine takePath_cases ?_ h
      exact ⟨heof, hpre, hpath, hroots, hless⟩
    · refine takePath_cases ?_ h
      exact ⟨heof, hpre, hpath, hroots, hless⟩

theorem getnextline_cases (h : getnextline cfg buf t = .ok (t', r, buf')) :
    NextLine cfg t t' r ∧ t'.roots = t.roots :=
  getnextlineUpTo_cases ⟨rfl, rfl, rfl, rfl, le_rfl⟩ h

end

end Radmind
