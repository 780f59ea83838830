import Radmind.CommandFile
import Radmind.Transcript.Compare

/-!
# The command files of `fsdiff`

`read_kfile` opens the transcripts the command files name, and collects the exclude
patterns and the special files.  A special file is compared whatever the patterns say,
if `transcript` finds its path on the list.
-/

namespace Radmind

/-- `skip` -/
structure SkipFlags where
  positive : Bool
  negative : Bool
  special : Bool
  excludes : Bool
  deriving DecidableEq, Repr

/-- `T_SKIP_ALL` -/
def SkipFlags.all : SkipFlags := ⟨true, true, true, true⟩

/-- `K_CLIENT` and `K_SERVER` -/
inductive Location
  | client | server
  deriving DecidableEq, Repr

/-- The settings of a reader of command files, and the files it may open. -/
structure KfileConfig extends ParseConfig where
  skip : SkipFlags
  location : Location
  applicable : Bool
  radmindPath : CStr
  fopen : CStr → Option (List Byte)

/-- What ends the reading. -/
inductive KfileExit
  | lineTooLong (kfile : CStr) (line : Nat)
  | wrongArguments (kfile : CStr) (line ac : Nat)
  | pathTooLong (kfile : CStr) (line : Nat)
  | minusCommand (kfile : CStr) (line : Nat)
  | loop (kfile : CStr) (line : Nat) (file : CStr)
  | invalid (kfile : CStr) (line : Nat) (word : CStr)
  | systemError (name : CStr)
  | specialTooLong (path : CStr)
  | transcript (e : Exit)
  | nullTranscript
  | overrun
  | outOfFuel
  deriving DecidableEq, Repr

/-- The variables of transcript.c, and the words of the 's' lines read so far. -/
structure KfileState where
  tranHead : List Transcript
  buf : List Byte
  kfileList : PathList
  specialList : PathList
  excludeList : PathList
  specialLines : List SpecialLine
  deriving DecidableEq, Repr

/-- `t_new` with the `fopen` before it. -/
def openTranscript (cfg : KfileConfig) (type : TType) (fullname shortname : CStr)
    (st : KfileState) : Except KfileExit KfileState :=
  match cfg.fopen fullname with
  | none => .error (.systemError fullname)
  | some content =>
    match tNew cfg.toParseConfig st.buf type fullname shortname content with
    | .error e => .error (.transcript e)
    | .ok (new, buf) => .ok { st with tranHead := new :: st.tranHead, buf := buf }

/-- `t_remove` -/
def tRemove (type : TType) (shortname : CStr) (tranHead : List Transcript) : List Transcript :=
  tranHead.filter fun cur => ¬ (cur.tType = type ∧ cur.tShortname = shortname)

/-- The cases 'n' and 'p' of `read_kfile`. -/
def kfileTranscript (cfg : KfileConfig) (type : TType) (isMinus : Bool) (fullpath file : CStr)
    (st : KfileState) : Except KfileExit KfileState :=
  if isMinus then .ok { st with tranHead := tRemove type file st.tranHead }
  else openTranscript cfg type fullpath file st

/-- The case 'x' of `read_kfile`. -/
def kfileExclude (cfg : KfileConfig) (isMinus : Bool) (kfile : CStr) (linenum : Nat)
    (word : CStr) (st : KfileState) : Except KfileExit KfileState :=
  match decode st.buf (word ++ [nul]) with
  -- the message about the decode buffer does not end the run
  | (none, _) => .error .overrun
  | (some pattern, buf) =>
    match convertPathType cfg.tranFormat pattern with
    | none => .error (.pathTooLong kfile linenum)
    | some pattern =>
      let st := { st with buf := buf }
      if isMinus then .ok { st with excludeList := listRemove st.excludeList pattern }
      else if listCheck st.excludeList pattern then .ok st
      else
        match listInsert st.excludeList pattern with
        | none => .error (.systemError (lit "list_insert"))
        | some excludeList => .ok { st with excludeList := excludeList }

/-- The case 's' of `read_kfile`. -/
def kfileSpecial (cfg : KfileConfig) (isMinus : Bool) (kfile : CStr) (linenum : Nat)
    (word : CStr) (st : KfileState) : Except KfileExit KfileState :=
  match convertPathType cfg.tranFormat word with
  | none => .error (.pathTooLong kfile linenum)
  | some path =>
    match specialLine true st.specialList ⟨isMinus, path⟩ with
    | none => .error (.systemError (lit "list_insert"))
    | some specialList =>
      .ok { st with
        specialList := specialList, specialLines := st.specialLines ++ [⟨isMinus, word⟩] }

/-- The case 'k' of `read_kfile`. -/
def kfileCommand (readKfile : CStr → KfileState → Except KfileExit KfileState) (isMinus : Bool)
    (kfile : CStr) (linenum : Nat) (fullpath file : CStr) (st : KfileState) :
    Except KfileExit KfileState :=
  if isMinus then .error (.minusCommand kfile linenum)
  else if listCheck st.kfileList fullpath then .error (.loop kfile linenum file)
  else
    match listInsert st.kfileList fullpath with
    | none => .error (.systemError (lit "list_insert"))
    | some kfileList => readKfile fullpath { st with kfileList := kfileList }

/-- `fullpath` -/
def kfileFullpath (cfg : KfileConfig) (kdir type file : CStr) : CStr :=
  match cfg.location with
  | .client => kdir ++ file
  | .server =>
    cfg.radmindPath ++ slash ::
      ((if type.head? = some 107 then lit "command" else lit "transcript") ++ slash :: file)

/-- The switch of `read_kfile`. -/
def kfileSwitch (cfg : KfileConfig) (kdir : CStr)
    (readKfile : CStr → KfileState → Except KfileExit KfileState) (kfile : CStr) (linenum : Nat)
    (isMinus : Bool) (type file : CStr) (st : KfileState) : Except KfileExit KfileState :=
  let fullpath := kfileFullpath cfg kdir type file
  if fullpath.length ≥ maxPathLen then .error (.pathTooLong kfile linenum)
  else
    match type.head? with
    | some 107 => kfileCommand readKfile isMinus kfile linenum fullpath file st
    | some 110 =>
      if cfg.skip.negative then .ok st
      else kfileTranscript cfg .negative isMinus fullpath file st
    | some 112 =>
      if cfg.skip.positive then .ok st
      else kfileTranscript cfg .positive isMinus fullpath file st
    | some 120 =>
      if cfg.skip.excludes then .ok st
      else kfileExclude cfg isMinus kfile linenum file st
    | some 115 =>
      if cfg.skip.special then
        .ok { st with specialLines := st.specialLines ++ [⟨isMinus, file⟩] }
      else kfileSpecial cfg isMinus kfile linenum file st
    | _ => .error (.invalid kfile linenum type)

/-- A line of a command file. -/
def kfileLine (cfg : KfileConfig) (kdir : CStr)
    (readKfile : CStr → KfileState → Except KfileExit KfileState) (kfile : CStr) (linenum : Nat)
    (line : List Byte) (st : KfileState) : Except KfileExit KfileState :=
  if cstr line = [] then .error .overrun
  else if (cstr line).getLast? ≠ some newline then .error (.lineTooLong kfile linenum)
  else
    match lineWords line with
    | [] => .ok st
    | word :: av =>
      if word.head? = some hash then .ok st
      else
        let isMinus := word.head? = some minus
        match (if isMinus then av else word :: av) with
        | [type, file] => kfileSwitch cfg kdir readKfile kfile linenum isMinus type file st
        | argv => .error (.wrongArguments kfile linenum argv.length)

def kfileLines (cfg : KfileConfig) (kdir : CStr)
    (readKfile : CStr → KfileState → Except KfileExit KfileState) (kfile : CStr) :
    Nat → List (List Byte) → KfileState → Except KfileExit KfileState
  | _, [], st => .ok st
  | linenum, line :: lines, st =>
    match kfileLine cfg kdir readKfile kfile (linenum + 1) line st with
    | .error e => .error e
    | .ok st => kfileLines cfg kdir readKfile kfile (linenum + 1) lines st

/-- `read_kfile` -/
def readKfile (cfg : KfileConfig) (kdir : CStr) :
    Nat → CStr → KfileState → Except KfileExit KfileState
  | 0, _, _ => .error .outOfFuel
  | fuel + 1, kfile, st =>
    match cfg.fopen kfile with
    | none => .error (.systemError kfile)
    | some content => kfileLines cfg kdir (readKfile cfg kdir fuel) kfile 0 (fileLines content) st

/-- `kdir`: what stands before the last '/' of `kfile`, with the '/'. -/
def kfileDir (kfile : CStr) : CStr :=
  if slash ∈ kfile then (kfile.reverse.dropWhile (· ≠ slash)).reverse else lit "./"

/-- The special transcript at the end of `transcript_init`. -/
def openSpecial (cfg : KfileConfig) (kdir : CStr) (st : KfileState) :
    Except KfileExit KfileState :=
  if !cfg.skip.special && !st.specialList.isEmpty && cfg.location = .client then
    if kdir.length + (lit "special.T").length + 2 > maxPathLen then .error (.specialTooLong kdir)
    else openTranscript cfg .special (kdir ++ lit "special.T") (lit "special.T") st
  else .ok st

/-- `transcript_init` -/
def transcriptInit (cfg : KfileConfig) (fuel : Nat) (kfile : CStr) :
    Except KfileExit KfileState :=
  let st : KfileState := ⟨[nullTranscript], [], [], [], [], []⟩
  if cfg.skip = .all then .ok st
  else
    let kdir := kfileDir kfile
    match listInsert st.kfileList kfile with
    | none => .error (.systemError (lit "list_insert"))
    | some kfileList =>
      match readKfile cfg kdir fuel kfile { st with kfileList := kfileList } with
      | .error e => .error e
      | .ok st =>
        match openSpecial cfg kdir st with
        | .error e => .error e
        | .ok st =>
          if (st.tranHead.head?.map (·.tType)) = some .null ∧ cfg.applicable then
            .error .nullTranscript
          else .ok st

/-- `t_exclude` on the list that was read. -/
def tExclude (wildcard : CStr → CStr → Bool → Bool) (caseSensitive : Bool) (excludeList : PathList)
    (path : CStr) : Bool :=
  excludeList.any fun cur => wildcard cur path caseSensitive

/-- The settings of a run with the lists that were read. -/
def KfileState.diffConfig (st : KfileState) (wildcard : CStr → CStr → Bool → Bool)
    (cfg : DiffConfig) : DiffConfig :=
  { cfg with
    tExclude := tExclude wildcard cfg.caseSensitive st.excludeList
    isSpecial := listCheck st.specialList }

/-! ## The list of special files -/

/-- The line as `read_kfile` enters it: the word in the form of the run, not decoded. -/
def SpecialLine.convert (format : TranFormat) (l : SpecialLine) : SpecialLine :=
  ⟨l.minus, (convertPathType format l.path).getD l.path⟩

/-- `special_list` is the list of the 's' lines, if they are read at all. -/
structure KfileState.Ok (cfg : KfileConfig) (st : KfileState) : Prop where
  special : cfg.skip.special = false →
    SpecialList true (st.specialLines.map (·.convert cfg.tranFormat)) st.specialList
  skipped : cfg.skip.special = true → st.specialList = []

section

variable {cfg : KfileConfig} {kdir : CStr} {st st' : KfileState}

/-- The parts of the state the special list is about stay as they are. -/
def SameSpecial (st st' : KfileState) : Prop :=
  st'.specialList = st.specialList ∧ st'.specialLines = st.specialLines

theorem SameSpecial.ok (h : SameSpecial st st') (hst : st.Ok cfg) : st'.Ok cfg := by
  obtain ⟨hlist, hlines⟩ := h
  exact ⟨by rw [hlist, hlines]; exact hst.special, by rw [hlist]; exact hst.skipped⟩

theorem openTranscript_same {type : TType} {fullname shortname : CStr}
    (h : openTranscript cfg type fullname shortname st = .ok st') : SameSpecial st st' := by
  unfold openTranscript at h
  split at h
  · exact absurd h (by simp)
  split at h
  · exact absurd h (by simp)
  · obtain rfl := Except.ok.inj h
    exact ⟨rfl, rfl⟩

theorem kfileTranscript_same {type : TType} {isMinus : Bool} {fullpath file : CStr}
    (h : kfileTranscript cfg type isMinus fullpath file st = .ok st') : SameSpecial st st' := by
  unfold kfileTranscript at h
  split at h
  · obtain rfl := Except.ok.inj h
    exact ⟨rfl, rfl⟩
  · exact openTranscript_same h

theorem kfileExclude_same {isMinus : Bool} {kfile word : CStr} {linenum : Nat}
    (h : kfileExclude cfg isMinus kfile linenum word st = .ok st') : SameSpecial st st' := by
  unfold kfileExclude at h
  split at h
  · exact absurd h (by simp)
  split at h
  · exact absurd h (by simp)
  simp only at h
  split_ifs at h
  · obtain rfl := Except.ok.inj h
    exact ⟨rfl, rfl⟩
  · obtain rfl := Except.ok.inj h
    exact ⟨rfl, rfl⟩
  · split at h
    · exact absurd h (by simp)
    · obtain rfl := Except.ok.inj h
      exact ⟨rfl, rfl⟩

theorem nulFree_convertPathType {format : TranFormat} {path path' : CStr} (hpath : NulFree path)
    (h : convertPathType format path = some path') : NulFree path' := by
  have hok : ∀ {p : CStr}, NulFree p → some p = some path' → NulFree path' := by
    intro p hp heq
    exact Option.some.inj heq ▸ hp
  unfold convertPathType at h
  split at h
  · split_ifs at h
    · exact hok (by decide) h
    · exact hok (by decide) h
    · exact hok hpath h
  · simp only at h
    split_ifs at h
    · exact hok (fun hm => hpath (List.mem_of_mem_tail hm)) h
    · exact hok (nulFree_cons.mpr ⟨by decide, hpath⟩) h
    · exact hok (nulFree_cons.mpr ⟨by decide, hpath⟩) h
    · exact hok hpath h

theorem kfileSpecial_ok {isMinus : Bool} {kfile word : CStr} {linenum : Nat} (hst : st.Ok cfg)
    (hskip : cfg.skip.special = false) (hword : NulFree word)
    (h : kfileSpecial cfg isMinus kfile linenum word st = .ok st') : st'.Ok cfg := by
  unfold kfileSpecial at h
  split at h
  · exact absurd h (by simp)
  next path hpath =>
  split at h
  · exact absurd h (by simp)
  next list hlist =>
  obtain rfl := Except.ok.inj h
  refine ⟨fun _ => ?_, fun hs => absurd hs (by simp [hskip])⟩
  have hconvert : SpecialLine.convert cfg.tranFormat ⟨isMinus, word⟩ =
      (⟨isMinus, path⟩ : SpecialLine) := by
    simp [SpecialLine.convert, hpath]
  show SpecialList true
    ((st.specialLines ++ ([⟨isMinus, word⟩] : List SpecialLine)).map
      (SpecialLine.convert cfg.tranFormat)) list
  rw [List.map_append, List.map_singleton, hconvert]
  exact SpecialList.snoc (hst.special hskip) (by exact nulFree_convertPathType hword hpath) hlist

theorem kfileSwitch_ok {read : CStr → KfileState → Except KfileExit KfileState} {kfile : CStr}
    {linenum : Nat} {isMinus : Bool} {type file : CStr}
    (hread : ∀ path st st', st.Ok cfg → read path st = .ok st' → st'.Ok cfg) (hst : st.Ok cfg)
    (hfile : NulFree file)
    (h : kfileSwitch cfg kdir read kfile linenum isMinus type file st = .ok st') :
    st'.Ok cfg := by
  unfold kfileSwitch at h
  simp only at h
  split at h
  · exact absurd h (by simp)
  split at h
  · unfold kfileCommand at h
    split_ifs at h
    split at h
    · exact absurd h (by simp)
    next list _ =>
    refine hread _ _ _ ?_ h
    exact SameSpecial.ok (show SameSpecial st _ from ⟨rfl, rfl⟩) hst
  · split at h
    · exact (Except.ok.inj h) ▸ hst
    · exact (kfileTranscript_same h).ok hst
  · split at h
    · exact (Except.ok.inj h) ▸ hst
    · exact (kfileTranscript_same h).ok hst
  · split at h
    · exact (Except.ok.inj h) ▸ hst
    · exact (kfileExclude_same h).ok hst
  · split at h
    · next hskip =>
      obtain rfl := Except.ok.inj h
      exact ⟨fun hs => absurd hskip (by simp [hs]), hst.skipped⟩
    · next hskip => exact kfileSpecial_ok hst (by simpa using hskip) hfile h
  · exact absurd h (by simp)

theorem kfileLine_ok {read : CStr → KfileState → Except KfileExit KfileState} {kfile : CStr}
    {linenum : Nat} {line : List Byte}
    (hread : ∀ path st st', st.Ok cfg → read path st = .ok st' → st'.Ok cfg) (hst : st.Ok cfg)
    (h : kfileLine cfg kdir read kfile linenum line st = .ok st') : st'.Ok cfg := by
  have hnul := fun word => @nulFree_of_mem_lineWords line word
  unfold kfileLine at h
  split_ifs at h
  split at h
  · exact (Except.ok.inj h) ▸ hst
  next word av hwords =>
  rw [hwords] at hnul
  split_ifs at h
  · exact (Except.ok.inj h) ▸ hst
  simp only at h
  split at h
  · next type file hargv =>
    have hmem : file ∈ (if word.head? = some minus then av else word :: av) := by
      rw [hargv]
      exact List.mem_cons_of_mem _ List.mem_cons_self
    refine kfileSwitch_ok hread hst (hnul file ?_) h
    split at hmem
    · exact List.mem_cons_of_mem _ hmem
    · exact hmem
  · exact absurd h (by simp)

theorem kfileLines_ok {read : CStr → KfileState → Except KfileExit KfileState} {kfile : CStr}
    (hread : ∀ path st st', st.Ok cfg → read path st = .ok st' → st'.Ok cfg) {linenum : Nat}
    {lines : List (List Byte)} (hst : st.Ok cfg)
    (h : kfileLines cfg kdir read kfile linenum lines st = .ok st') : st'.Ok cfg := by
  induction lines generalizing st linenum with
  | nil =>
    obtain rfl := Except.ok.inj h
    exact hst
  | cons line lines ih =>
    rw [kfileLines] at h
    split at h
    · exact absurd h (by simp)
    · next st₁ hst₁ => exact ih (kfileLine_ok hread hst hst₁) h

theorem readKfile_ok {fuel : Nat} {kfile : CStr} (hst : st.Ok cfg)
    (h : readKfile cfg kdir fuel kfile st = .ok st') : st'.Ok cfg := by
  induction fuel generalizing kfile st st' with
  | zero => exact absurd h (by simp [readKfile])
  | succ fuel ih =>
    rw [readKfile] at h
    split at h
    · exact absurd h (by simp)
    · exact kfileLines_ok (fun path st st' => ih) hst h

theorem openSpecial_same (h : openSpecial cfg kdir st = .ok st') : SameSpecial st st' := by
  unfold openSpecial at h
  split_ifs at h
  · exact openTranscript_same h
  · obtain rfl := Except.ok.inj h
    exact ⟨rfl, rfl⟩

theorem transcriptInit_ok {fuel : Nat} {kfile : CStr} (h : transcriptInit cfg fuel kfile = .ok st) :
    st.Ok cfg := by
  have hstart : ∀ list, KfileState.Ok cfg ⟨[nullTranscript], [], list, [], [], []⟩ :=
    fun list => ⟨fun _ => .nil, fun _ => rfl⟩
  unfold transcriptInit at h
  simp only at h
  split at h
  · obtain rfl := Except.ok.inj h
    exact hstart []
  split at h
  · exact absurd h (by simp)
  next list _ =>
  split at h
  · exact absurd h (by simp)
  next st₁ hst₁ =>
  split at h
  · exact absurd h (by simp)
  next st₂ hst₂ =>
  split at h
  · exact absurd h (by simp)
  · obtain rfl := Except.ok.inj h
    exact (openSpecial_same hst₂).ok (readKfile_ok (hstart list) hst₁)

end

/-! ## Special files and excludes -/

/-- An 's' line names the path as a transcript would, and no later minus line takes it
off the list again. -/
def NamedSpecial (cfg : KfileConfig) (st : KfileState) (path : CStr) : Prop :=
  ∃ word, (∃ b, encodeInternal b path = some word) ∧
    Listed (st.specialLines.map (·.convert cfg.tranFormat))
      ((convertPathType cfg.tranFormat word).getD word)

/-- The exclude check passes over a special file exactly where a line that is left,
undecoded, is its path. -/
theorem skips_iff_listed {cfg : KfileConfig} {fuel : Nat} {kfile : CStr} {st : KfileState}
    (hinit : transcriptInit cfg fuel kfile = .ok st) (wildcard : CStr → CStr → Bool → Bool)
    (dcfg : DiffConfig) {e : FsEntry} (he : NulFree e.path) :
    skips (st.diffConfig wildcard dcfg) e = false ↔
      tExclude wildcard dcfg.caseSensitive st.excludeList e.path = false ∨
        e.parentMinus = true ∨ cfg.skip.special = false ∧
          Listed (st.specialLines.map (·.convert cfg.tranFormat)) e.path := by
  have hst := transcriptInit_ok hinit
  have hlist : listCheck st.specialList e.path = true ↔ cfg.skip.special = false ∧
      Listed (st.specialLines.map (·.convert cfg.tranFormat)) e.path := by
    cases hskip : cfg.skip.special with
    | true =>
      rw [hst.skipped hskip]
      simp [listCheck]
    | false =>
      have hspecial := hst.special hskip
      rw [listCheck_iff hspecial.nulFree_mem he, hspecial.mem]
      simp
  have hskips : skips (st.diffConfig wildcard dcfg) e =
      (tExclude wildcard dcfg.caseSensitive st.excludeList e.path && !e.parentMinus &&
        !listCheck st.specialList e.path) := rfl
  rw [hskips, ← hlist]
  cases tExclude wildcard dcfg.caseSensitive st.excludeList e.path <;> cases e.parentMinus <;>
    cases listCheck st.specialList e.path <;> simp

/-! ### A special file with a space in its name -/

/-- `/a b` is special, and everything is excluded. -/
def spaceKfile : KfileConfig where
  caseSensitive := true
  tranFormat := .absolute
  cksum := false
  skip := ⟨false, false, false, false⟩
  location := .client
  applicable := false
  radmindPath := lit "/var/radmind"
  fopen path :=
    if path = lit "command.K" then some (lit "s /a\\bb\nx *\n")
    else if path = lit "./special.T" then some (lit "f /a\\bb 0444 0 0 0 0 x\n")
    else none

def spaceKfileState : KfileState where
  tranHead := [
    { nullTranscript with
      tPinfo := { PathInfo.zero with
        piType := .f
        piName := lit "/a b"
        piStat := { Stat.zero with stMode := 0o444 }
        piCksumB64 := lit "x" }
      tType := .special
      tFullname := lit "./special.T"
      tShortname := lit "special.T"
      tLinenum := 1
      tEof := false },
    nullTranscript]
  buf := lit "/a b" ++ [nul]
  kfileList := [lit "command.K"]
  specialList := [lit "/a\\bb"]
  excludeList := [lit "*"]
  specialLines := [⟨false, lit "/a\\bb"⟩]

set_option maxRecDepth 16000 in
theorem spaceKfileState_read :
    transcriptInit spaceKfile 1 (lit "command.K") = .ok spaceKfileState := by
  decide

/-- The file `/a b`. -/
def spaceEntry : FsEntry :=
  { path := lit "/a b", st := { Stat.zero with stMode := 0o100444 }, type := .f
    afinfo := List.replicate afinfoLen 0, target := [], parentMinus := false }

def spaceDiff : DiffConfig where
  toParseConfig := spaceKfile.toParseConfig
  pathPrefix := some (lit "/")
  tExclude _ := false
  excludeWarnings := false
  editPath := .creatable
  ignoreTimestamps := false
  shellEscapes := false
  apple := false
  haveLchown := true
  haveLchmod := false
  isSpecial _ := false
  doCksum _ := none
  doAcksum _ _ := none

/-- A pattern of one `*` matches everything, one without wildcards itself. -/
def starOnly (wild path : CStr) (_caseSensitive : Bool) : Bool := wild = lit "*" || wild = path

theorem skips_iff_listed_space :
    skips (spaceKfileState.diffConfig starOnly spaceDiff) spaceEntry = false ↔
      tExclude starOnly true spaceKfileState.excludeList (lit "/a b") = false ∨ false = true ∨
        false = false ∧ Listed (spaceKfileState.specialLines.map (·.convert .absolute))
          (lit "/a b") :=
  skips_iff_listed spaceKfileState_read starOnly spaceDiff (by decide)

/-- The 's' line names the path of the file, and the list does not have it. -/
theorem special_excluded :
    ¬ ∀ (cfg : KfileConfig) (fuel : Nat) (kfile : CStr) (st : KfileState)
      (wildcard : CStr → CStr → Bool → Bool) (dcfg : DiffConfig) (e : FsEntry),
      transcriptInit cfg fuel kfile = .ok st → dcfg.toParseConfig = cfg.toParseConfig →
      NulFree e.path → NamedSpecial cfg st e.path →
      skips (st.diffConfig wildcard dcfg) e = false := by
  intro h
  have hnamed : NamedSpecial spaceKfile spaceKfileState (lit "/a b") :=
    ⟨lit "/a\\bb", ⟨false, by decide⟩, [], [], by decide, by decide⟩
  have hskip := h spaceKfile 1 (lit "command.K") spaceKfileState starOnly spaceDiff spaceEntry
    spaceKfileState_read rfl (by decide) hnamed
  revert hskip
  decide

end Radmind
