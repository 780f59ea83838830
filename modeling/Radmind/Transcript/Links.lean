import Radmind.Lib.LinkedNodes
import Radmind.Transcript.Kfile

/-!
# The linked transcripts

`t_new` and `t_remove` on the nodes themselves, and `read_kfile` over them.  Reading the
command files this way refines `readKfile`, whose list of transcripts is what the
nodes stand for.  The entries the command files leave standing are told from their text.
-/

namespace Radmind

open LinkedNodes (Links)

/-- The answers of `malloc`, by the number of the call.  What it gives is not in use. -/
abbrev Malloc :=
  Nat → (nodes : Nat → Option (LinkedNodes.Node Transcript)) → Option { a : Nat // nodes a = none }

/-- `tran_head` with the nodes it leads to, the calls of `malloc` so far, and the other
variables of transcript.c. -/
structure LinkedState where
  links : Links Transcript
  mallocs : Nat
  others : KfileState

/-- What ends the reading.  `dangling` stands for a use of a link that leads nowhere. -/
inductive LinkExit
  | exit (e : KfileExit)
  | malloc
  | dangling

/-- `t_new` -/
def linkNew (cfg : KfileConfig) (malloc : Malloc) (type : TType) (fullname shortname : CStr)
    (st : LinkedState) : Except LinkExit LinkedState :=
  match malloc st.mallocs st.links.nodes with
  | none => .error .malloc
  | some a =>
    match cfg.fopen fullname with
    | none => .error (.exit (.systemError fullname))
    | some content =>
      match tNew cfg.toParseConfig st.others.buf type fullname shortname content with
      | .error e => .error (.exit (.transcript e))
      | .ok (new, buf) =>
        .ok ⟨st.links.push a new, st.mallocs + 1, { st.others with buf := buf }⟩

/-- `t_remove` -/
def linkRemove (type : TType) (shortname : CStr) (st : LinkedState) :
    Except LinkExit LinkedState :=
  match st.links.removeLoop (fun cur => cur.tType = .null)
      (fun cur => cur.tType = type ∧ cur.tShortname = shortname) (st.mallocs + 1)
      st.links.head with
  | none => .error .dangling
  | some links => .ok { st with links := links }

/-- The cases 'n' and 'p' of `read_kfile`. -/
def linkTranscript (cfg : KfileConfig) (malloc : Malloc) (type : TType) (isMinus : Bool)
    (fullpath file : CStr) (st : LinkedState) : Except LinkExit LinkedState :=
  if isMinus then linkRemove type file st else linkNew cfg malloc type fullpath file st

/-- The case 'k' of `read_kfile`. -/
def linkCommand (readKfile : CStr → LinkedState → Except LinkExit LinkedState) (isMinus : Bool)
    (kfile : CStr) (linenum : Nat) (fullpath file : CStr) (st : LinkedState) :
    Except LinkExit LinkedState :=
  if isMinus then .error (.exit (.minusCommand kfile linenum))
  else if listCheck st.others.kfileList fullpath then .error (.exit (.loop kfile linenum file))
  else
    match listInsert st.others.kfileList fullpath with
    | none => .error (.exit (.systemError (lit "list_insert")))
    | some kfileList =>
      readKfile fullpath { st with others := { st.others with kfileList := kfileList } }

/-- A case that does not touch the transcripts. -/
def linkOthers (run : KfileState → Except KfileExit KfileState) (st : LinkedState) :
    Except LinkExit LinkedState :=
  match run st.others with
  | .error e => .error (.exit e)
  | .ok others => .ok { st with others := others }

/-- The switch of `read_kfile`. -/
def linkSwitch (cfg : KfileConfig) (malloc : Malloc) (kdir : CStr)
    (readKfile : CStr → LinkedState → Except LinkExit LinkedState) (kfile : CStr) (linenum : Nat)
    (isMinus : Bool) (type file : CStr) (st : LinkedState) : Except LinkExit LinkedState :=
  let fullpath := kfileFullpath cfg kdir type file
  if fullpath.length ≥ maxPathLen then .error (.exit (.pathTooLong kfile linenum))
  else
    match type.head? with
    | some 107 => linkCommand readKfile isMinus kfile linenum fullpath file st
    | some 110 =>
      if cfg.skip.negative then .ok st
      else linkTranscript cfg malloc .negative isMinus fullpath file st
    | some 112 =>
      if cfg.skip.positive then .ok st
      else linkTranscript cfg malloc .positive isMinus fullpath file st
    | some 120 =>
      if cfg.skip.excludes then .ok st
      else linkOthers (kfileExclude cfg isMinus kfile linenum file) st
    | some 115 =>
      if cfg.skip.special then
        linkOthers (fun st => .ok { st with
          specialLines := st.specialLines ++ [⟨isMinus, file⟩] }) st
      else linkOthers (kfileSpecial cfg isMinus kfile linenum file) st
    | _ => .error (.exit (.invalid kfile linenum type))

/-- A line of a command file. -/
def linkLine (cfg : KfileConfig) (malloc : Malloc) (kdir : CStr)
    (readKfile : CStr → LinkedState → Except LinkExit LinkedState) (kfile : CStr) (linenum : Nat)
    (line : List Byte) (st : LinkedState) : Except LinkExit LinkedState :=
  if cstr line = [] then .error (.exit .overrun)
  else if (cstr line).getLast? ≠ some newline then .error (.exit (.lineTooLong kfile linenum))
  else
    match lineWords line with
    | [] => .ok st
    | word :: av =>
      if word.head? = some hash then .ok st
      else
        let isMinus := word.head? = some minus
        match (if isMinus then av else word :: av) with
        | [type, file] => linkSwitch cfg malloc kdir readKfile kfile linenum isMinus type file st
        | argv => .error (.exit (.wrongArguments kfile linenum argv.length))

def linkLines (cfg : KfileConfig) (malloc : Malloc) (kdir : CStr)
    (readKfile : CStr → LinkedState → Except LinkExit LinkedState) (kfile : CStr) :
    Nat → List (List Byte) → LinkedState → Except LinkExit LinkedState
  | _, [], st => .ok st
  | linenum, line :: lines, st =>
    match linkLine cfg malloc kdir readKfile kfile (linenum + 1) line st with
    | .error e => .error e
    | .ok st => linkLines cfg malloc kdir readKfile kfile (linenum + 1) lines st

/-- `read_kfile` -/
def linkReadKfile (cfg : KfileConfig) (malloc : Malloc) (kdir : CStr) :
    Nat → CStr → LinkedState → Except LinkExit LinkedState
  | 0, _, _ => .error (.exit .outOfFuel)
  | fuel + 1, kfile, st =>
    match cfg.fopen kfile with
    | none => .error (.exit (.systemError kfile))
    | some content =>
      linkLines cfg malloc kdir (linkReadKfile cfg malloc kdir fuel) kfile 0 (fileLines content) st

/-- The state `transcript_init` calls `read_kfile` in: the NULL transcript is at `a`. -/
def linkStart (a : Nat) (kfileList : PathList) : LinkedState where
  links := Links.empty.push a nullTranscript
  mallocs := 1
  others := ⟨[], [], kfileList, [], [], []⟩

/-! ## The entries of the text -/

/-- A 'p' or 'n' line. -/
structure KfileEntry where
  minus : Bool
  file : TranFile
  deriving DecidableEq, Repr

/-- The words of a line that is no comment, and whether a '-' stands before them. -/
def lineCommand (line : List Byte) : Option (Bool × CStr × CStr) :=
  match lineWords line with
  | [] => none
  | word :: av =>
    if word.head? = some hash then none
    else
      match (if word.head? = some minus then av else word :: av) with
      | [type, file] => some (word.head? = some minus, type, file)
      | _ => none

/-- The entries of a command: those of the file a 'k' includes. -/
def commandEntries (cfg : KfileConfig) (kdir : CStr) (included : CStr → List KfileEntry)
    (isMinus : Bool) (type file : CStr) : List KfileEntry :=
  let fullpath := kfileFullpath cfg kdir type file
  match type.head? with
  | some 107 => included fullpath
  | some 110 => if cfg.skip.negative then [] else [⟨isMinus, .negative, fullpath, file⟩]
  | some 112 => if cfg.skip.positive then [] else [⟨isMinus, .positive, fullpath, file⟩]
  | _ => []

/-- The entries of a line. -/
def lineEntries (cfg : KfileConfig) (kdir : CStr) (included : CStr → List KfileEntry)
    (line : List Byte) : List KfileEntry :=
  match lineCommand line with
  | none => []
  | some (isMinus, type, file) => commandEntries cfg kdir included isMinus type file

/-- The 'p' and 'n' lines of a command file and those it includes, depth first. -/
def kfileEntries (cfg : KfileConfig) (kdir : CStr) : Nat → CStr → List KfileEntry
  | 0, _ => []
  | fuel + 1, kfile =>
    match cfg.fopen kfile with
    | none => []
    | some content =>
      (fileLines content).flatMap (lineEntries cfg kdir (kfileEntries cfg kdir fuel))

/-- A minus line with the type and the name of the entry. -/
def KfileEntry.removes (m : KfileEntry) (file : TranFile) : Bool :=
  m.minus && (m.file.tType = file.tType && m.file.tShortname = file.tShortname)

/-- The entries that no later line removes. -/
def standing : List KfileEntry → List TranFile
  | [] => []
  | e :: es =>
    if e.minus || es.any (·.removes e.file) then standing es else e.file :: standing es

/-! ## The nodes stand for the list -/

/-- What the nodes stand for: the other variables with the list of their transcripts, the
NULL transcript at its end and nowhere else. -/
def LinkedState.Refines (st : LinkedState) (kst : KfileState) : Prop :=
  ∃ front z, LinkedNodes.Holds st.links (front ++ [z]) ∧ (∀ c ∈ front, c.2.tType ≠ .null) ∧
    z.2 = nullTranscript ∧ front.length < st.mallocs ∧
    kst = { st.others with tranHead := (front ++ [z]).map Prod.snd }

/-- The two readings agree, unless `malloc` fails. -/
inductive SameReading : Except LinkExit LinkedState → Except KfileExit KfileState → Prop
  | ok {st : LinkedState} {kst : KfileState} (h : st.Refines kst) : SameReading (.ok st) (.ok kst)
  | exit (e : KfileExit) : SameReading (.error (.exit e)) (.error e)
  | malloc (r : Except KfileExit KfileState) : SameReading (.error .malloc) r

theorem refines_start (a : Nat) (kfileList : PathList) :
    (linkStart a kfileList).Refines ⟨[nullTranscript], [], kfileList, [], [], []⟩ :=
  ⟨[], (a, nullTranscript), LinkedNodes.holds_empty.push rfl nullTranscript, by simp, rfl, Nat.one_pos, rfl⟩

section

variable {cfg : KfileConfig} {malloc : Malloc} {kdir : CStr} {st : LinkedState}
  {kst : KfileState}

theorem linkNew_same {type : TType} {fullname shortname : CStr} (h : st.Refines kst) :
    SameReading (linkNew cfg malloc type fullname shortname st)
      (openTranscript cfg type fullname shortname kst) := by
  obtain ⟨front, z, hholds, hfront, hz, hlen, hkst⟩ := h
  have hbuf : kst.buf = st.others.buf := by rw [hkst]
  unfold linkNew openTranscript
  rw [hbuf]
  cases malloc st.mallocs st.links.nodes with
  | none => exact .malloc _
  | some a =>
    cases cfg.fopen fullname with
    | none => exact .exit _
    | some content =>
      simp only
      cases hnew : tNew cfg.toParseConfig st.others.buf type fullname shortname content with
      | error e => exact .exit _
      | ok r =>
        obtain ⟨new, buf⟩ := r
        obtain ⟨hfile, hnull, -⟩ := transcriptParse_cases hnew
        have htype : new.tType ≠ .null := by
          have hsame : new.tType = type := congrArg TranFile.tType hfile
          rw [hsame]
          exact hnull
        refine .ok ⟨(a.1, new) :: front, z, ?_, ?_, hz, ?_, ?_⟩
        · exact hholds.push a.2 new
        · exact List.forall_mem_cons.mpr ⟨htype, hfront⟩
        · exact Nat.succ_lt_succ hlen
        · rw [hkst]
          rfl

/-- The walk of `t_remove` takes out what the filter leaves out. -/
theorem linkRemove_same {type : TType} {shortname : CStr} (htype : type ≠ .null)
    (h : st.Refines kst) : SameReading (linkRemove type shortname st)
      (.ok { kst with tranHead := tRemove type shortname kst.tranHead }) := by
  obtain ⟨front, z, hholds, hfront, hz, hlen, rfl⟩ := h
  have hstop : ∀ c ∈ front, decide (c.2.tType = TType.null) = false :=
    fun c hc => decide_eq_false (hfront c hc)
  obtain ⟨links, hlinks, hholds'⟩ := @LinkedNodes.Holds.removeLoop _ st.links
    (fun cur => cur.tType = .null) (fun cur => cur.tType = type ∧ cur.tShortname = shortname)
    [] front [] z hholds hstop (by rw [hz]; rfl) (st.mallocs + 1) (Nat.lt_succ_of_lt hlen)
  have hrun : linkRemove type shortname st = .ok { st with links := links } := by
    unfold linkRemove
    rw [hholds.head, hlinks]
  rw [hrun]
  refine .ok ⟨_, z, hholds', fun c hc => hfront c (List.mem_filter.mp hc).1, hz,
    lt_of_le_of_lt (List.length_filter_le _ _) hlen, ?_⟩
  have hkeep : ¬ (z.2.tType = type ∧ z.2.tShortname = shortname) := by
    rw [hz]
    exact fun hand => htype hand.1.symm
  have hlist : tRemove type shortname ((front ++ [z]).map Prod.snd) =
      (front.filter (fun c => !decide (c.2.tType = type ∧ c.2.tShortname = shortname)) ++
        [z]).map Prod.snd := by
    unfold tRemove
    rw [List.map_append, List.filter_append, List.map_append, List.filter_map]
    congr 1
    · congr 1
      exact List.filter_congr fun c _ => by simp [Function.comp]
    · simpa using not_and_or.mp hkeep
  rw [hlist]
  rfl

theorem linkTranscript_same {type : TType} {isMinus : Bool} {fullpath file : CStr}
    (htype : type ≠ .null) (h : st.Refines kst) :
    SameReading (linkTranscript cfg malloc type isMinus fullpath file st)
      (kfileTranscript cfg type isMinus fullpath file kst) := by
  cases isMinus with
  | true => exact linkRemove_same htype h
  | false => exact linkNew_same h

/-- A case that leaves the transcripts alone does the same whatever they are. -/
theorem linkOthers_same {run : KfileState → Except KfileExit KfileState}
    (hrun : ∀ st ts, run { st with tranHead := ts } =
      (run st).map fun st => { st with tranHead := ts })
    (h : st.Refines kst) : SameReading (linkOthers run st) (run kst) := by
  obtain ⟨front, z, hholds, hfront, hz, hlen, rfl⟩ := h
  rw [hrun]
  unfold linkOthers
  cases run st.others with
  | error e => exact .exit e
  | ok others => exact .ok ⟨front, z, hholds, hfront, hz, hlen, rfl⟩

theorem kfileExclude_tranHead {isMinus : Bool} {kfile word : CStr} {linenum : Nat}
    (st : KfileState) (ts : List Transcript) :
    kfileExclude cfg isMinus kfile linenum word { st with tranHead := ts } =
      (kfileExclude cfg isMinus kfile linenum word st).map
        fun st => { st with tranHead := ts } := by
  unfold kfileExclude
  simp only
  split
  · rfl
  split
  · rfl
  split_ifs
  · rfl
  · rfl
  · split
    · rfl
    · rfl

theorem kfileSpecial_tranHead {isMinus : Bool} {kfile word : CStr} {linenum : Nat}
    (st : KfileState) (ts : List Transcript) :
    kfileSpecial cfg isMinus kfile linenum word { st with tranHead := ts } =
      (kfileSpecial cfg isMinus kfile linenum word st).map
        fun st => { st with tranHead := ts } := by
  unfold kfileSpecial
  simp only
  split
  · rfl
  split
  · rfl
  · rfl

/-- The readings of included files agree. -/
def SameReadings (link : CStr → LinkedState → Except LinkExit LinkedState)
    (read : CStr → KfileState → Except KfileExit KfileState) : Prop :=
  ∀ path st kst, st.Refines kst → SameReading (link path st) (read path kst)

variable {link : CStr → LinkedState → Except LinkExit LinkedState}
  {read : CStr → KfileState → Except KfileExit KfileState} {kfile : CStr} {linenum : Nat}

theorem linkCommand_same {isMinus : Bool} {fullpath file : CStr} (hread : SameReadings link read)
    (h : st.Refines kst) :
    SameReading (linkCommand link isMinus kfile linenum fullpath file st)
      (kfileCommand read isMinus kfile linenum fullpath file kst) := by
  have hlist : kst.kfileList = st.others.kfileList := by
    obtain ⟨front, z, -, -, -, -, rfl⟩ := h
    rfl
  unfold linkCommand kfileCommand
  rw [hlist]
  split_ifs
  · exact .exit _
  · exact .exit _
  cases listInsert st.others.kfileList fullpath with
  | none => exact .exit _
  | some kfileList =>
    refine hread _ _ _ ?_
    obtain ⟨front, z, hholds, hfront, hz, hlen, rfl⟩ := h
    exact ⟨front, z, hholds, hfront, hz, hlen, rfl⟩

theorem linkSwitch_same {isMinus : Bool} {type file : CStr} (hread : SameReadings link read)
    (h : st.Refines kst) :
    SameReading (linkSwitch cfg malloc kdir link kfile linenum isMinus type file st)
      (kfileSwitch cfg kdir read kfile linenum isMinus type file kst) := by
  unfold linkSwitch kfileSwitch
  by_cases hlen : maxPathLen ≤ (kfileFullpath cfg kdir type file).length
  · simp only [ge_iff_le, if_pos hlen]
    exact .exit _
  simp only [ge_iff_le, if_neg hlen]
  by_cases h107 : type.head? = some 107
  · simp only [h107]
    exact linkCommand_same hread h
  by_cases h110 : type.head? = some 110
  · simp only [h110]
    by_cases hskip : cfg.skip.negative = true
    · simpa [hskip] using SameReading.ok h
    · simpa [hskip] using linkTranscript_same (by simp) h
  by_cases h112 : type.head? = some 112
  · simp only [h112]
    by_cases hskip : cfg.skip.positive = true
    · simpa [hskip] using SameReading.ok h
    · simpa [hskip] using linkTranscript_same (by simp) h
  by_cases h120 : type.head? = some 120
  · simp only [h120]
    by_cases hskip : cfg.skip.excludes = true
    · simpa [hskip] using SameReading.ok h
    · simpa [hskip] using linkOthers_same kfileExclude_tranHead h
  by_cases h115 : type.head? = some 115
  · simp only [h115]
    by_cases hskip : cfg.skip.special = true
    · have hcase := @linkOthers_same st kst (fun st => .ok { st with
        specialLines := st.specialLines ++ [⟨isMinus, file⟩] }) (fun _ _ => rfl) h
      simpa [hskip] using hcase
    · simpa [hskip] using linkOthers_same kfileSpecial_tranHead h
  -- no other letter is known to either
  cases hc : type.head? with
  | none => exact .exit _
  | some c =>
    simp only [hc, Option.some.injEq] at h107 h110 h112 h120 h115
    simp [h107, h110, h112, h120, h115]
    exact .exit _

theorem linkLine_same {line : List Byte} (hread : SameReadings link read) (h : st.Refines kst) :
    SameReading (linkLine cfg malloc kdir link kfile linenum line st)
      (kfileLine cfg kdir read kfile linenum line kst) := by
  unfold linkLine kfileLine
  split_ifs
  · exact .exit _
  · exact .exit _
  cases lineWords line with
  | nil => exact .ok h
  | cons word av =>
    simp only
    split_ifs
    · exact .ok h
    · rcases av with _ | ⟨type, _ | ⟨file, _ | ⟨third, av⟩⟩⟩
      · exact .exit _
      · exact .exit _
      · exact linkSwitch_same hread h
      · exact .exit _
    · rcases av with _ | ⟨file, _ | ⟨third, av⟩⟩
      · exact .exit _
      · exact linkSwitch_same hread h
      · exact .exit _

theorem linkLines_same {lines : List (List Byte)} (hread : SameReadings link read)
    (h : st.Refines kst) :
    SameReading (linkLines cfg malloc kdir link kfile linenum lines st)
      (kfileLines cfg kdir read kfile linenum lines kst) := by
  induction lines generalizing st kst linenum with
  | nil => exact .ok h
  | cons line lines ih =>
    have hline := @linkLine_same cfg malloc kdir st kst link read kfile (linenum + 1) line hread h
    rw [linkLines, kfileLines]
    generalize linkLine cfg malloc kdir link kfile (linenum + 1) line st = r at hline
    generalize kfileLine cfg kdir read kfile (linenum + 1) line kst = k at hline
    cases hline with
    | ok h' => exact ih h'
    | exit e => exact .exit e
    | malloc k => exact .malloc _

/-- Reading over the nodes refines reading into a list. -/
theorem linkReadKfile_same (fuel : Nat) :
    SameReadings (linkReadKfile cfg malloc kdir fuel) (readKfile cfg kdir fuel) := by
  induction fuel with
  | zero => exact fun kfile st kst h => .exit _
  | succ fuel ih =>
    intro kfile st kst h
    rw [linkReadKfile, readKfile]
    cases cfg.fopen kfile with
    | none => exact .exit _
    | some content => exact linkLines_same ih h

end

/-! ## What stands -/

theorem standing_plus (es : List KfileEntry) (file : TranFile) :
    standing (es ++ [⟨false, file⟩]) = standing es ++ [file] := by
  induction es with
  | nil => rfl
  | cons e es ih =>
    have hany : (es ++ [(⟨false, file⟩ : KfileEntry)]).any (·.removes e.file) =
        es.any (·.removes e.file) := by
      simp [KfileEntry.removes]
    rw [List.cons_append, standing, standing, hany, ih]
    split
    · rfl
    · rfl

theorem standing_minus (es : List KfileEntry) (file : TranFile) :
    standing (es ++ [⟨true, file⟩]) =
      (standing es).filter fun f => !KfileEntry.removes ⟨true, file⟩ f := by
  induction es with
  | nil => rfl
  | cons e es ih =>
    rw [List.cons_append, standing, standing, ih, List.any_append]
    cases e.minus with
    | true => rfl
    | false =>
      cases es.any (·.removes e.file) with
      | true => rfl
      | false =>
        cases hm : KfileEntry.removes ⟨true, file⟩ e.file with
        | true => simp [hm]
        | false => simp [hm]

/-- The list of transcripts after the entries. -/
def Stands (es : List KfileEntry) (ts : List Transcript) : Prop :=
  ts.map Transcript.file = (standing es).reverse ++ [nullTranscript.file]

theorem Stands.plus {es : List KfileEntry} {ts : List Transcript} (h : Stands es ts)
    {new : Transcript} : Stands (es ++ [⟨false, new.file⟩]) (new :: ts) := by
  unfold Stands at h ⊢
  rw [List.map_cons, h, standing_plus, List.reverse_append]
  rfl

theorem Stands.minus {es : List KfileEntry} {ts : List Transcript} (h : Stands es ts)
    {file : TranFile} (htype : file.tType ≠ .null) :
    Stands (es ++ [⟨true, file⟩]) (tRemove file.tType file.tShortname ts) := by
  unfold Stands at h ⊢
  have hmap : (tRemove file.tType file.tShortname ts).map Transcript.file =
      (ts.map Transcript.file).filter fun f => !KfileEntry.removes ⟨true, file⟩ f := by
    unfold tRemove
    rw [List.filter_map]
    congr 1
    refine List.filter_congr fun t _ => ?_
    grind [KfileEntry.removes, Transcript.file]
  have hnull : KfileEntry.removes ⟨true, file⟩ nullTranscript.file = false := by
    have hne : ¬ file.tType = nullTranscript.file.tType := htype
    simp [KfileEntry.removes, hne]
  rw [hmap, h, List.filter_append, standing_minus, List.filter_reverse]
  simp [hnull]

section

variable {cfg : KfileConfig} {kdir : CStr} {st st' : KfileState} {es : List KfileEntry}

/-- A case that does the same whatever the transcripts are leaves them as they are. -/
theorem tranHead_of_comm {run : KfileState → Except KfileExit KfileState}
    (hrun : ∀ st ts, run { st with tranHead := ts } =
      (run st).map fun st => { st with tranHead := ts })
    (h : run st = .ok st') : st'.tranHead = st.tranHead := by
  have hsame : (Except.ok st' : Except KfileExit KfileState) =
      (Except.ok st').map fun st' => { st' with tranHead := st.tranHead } := by
    rw [← h]
    exact hrun st st.tranHead
  have heq : st' = { st' with tranHead := st.tranHead } := Except.ok.inj hsame
  have hhead : st'.tranHead = ({ st' with tranHead := st.tranHead } : KfileState).tranHead :=
    congrArg KfileState.tranHead heq
  exact hhead

theorem openTranscript_stands {type : TType} {fullname shortname : CStr}
    (hst : Stands es st.tranHead) (h : openTranscript cfg type fullname shortname st = .ok st') :
    Stands (es ++ [⟨false, type, fullname, shortname⟩]) st'.tranHead := by
  unfold openTranscript at h
  split at h
  · exact absurd h (by simp)
  split at h
  · exact absurd h (by simp)
  next new buf hnew =>
  obtain rfl := Except.ok.inj h
  have hfile : new.file = ⟨type, fullname, shortname⟩ := (transcriptParse_cases hnew).1
  rw [← hfile]
  exact hst.plus

theorem kfileTranscript_stands {type : TType} {isMinus : Bool} {fullpath file : CStr}
    (htype : type ≠ .null) (hst : Stands es st.tranHead)
    (h : kfileTranscript cfg type isMinus fullpath file st = .ok st') :
    Stands (es ++ [⟨isMinus, type, fullpath, file⟩]) st'.tranHead := by
  cases isMinus with
  | true =>
    obtain rfl := Except.ok.inj h
    exact @Stands.minus _ _ hst ⟨type, fullpath, file⟩ htype
  | false => exact openTranscript_stands hst h

/-- An included file adds its entries. -/
def Includes (read : CStr → KfileState → Except KfileExit KfileState)
    (included : CStr → List KfileEntry) : Prop :=
  ∀ path es st st', Stands es st.tranHead → read path st = .ok st' →
    Stands (es ++ included path) st'.tranHead

variable {read : CStr → KfileState → Except KfileExit KfileState}
  {included : CStr → List KfileEntry} {kfile : CStr} {linenum : Nat}

theorem kfileCommand_stands {isMinus : Bool} {fullpath file : CStr}
    (hread : Includes read included) (hst : Stands es st.tranHead)
    (h : kfileCommand read isMinus kfile linenum fullpath file st = .ok st') :
    Stands (es ++ included fullpath) st'.tranHead := by
  unfold kfileCommand at h
  split_ifs at h
  split at h
  · exact absurd h (by simp)
  · next kfileList _ => exact hread _ _ { st with kfileList := kfileList } _ hst h

theorem kfileSwitch_stands {isMinus : Bool} {type file : CStr} (hread : Includes read included)
    (hst : Stands es st.tranHead)
    (h : kfileSwitch cfg kdir read kfile linenum isMinus type file st = .ok st') :
    Stands (es ++ commandEntries cfg kdir included isMinus type file) st'.tranHead := by
  unfold kfileSwitch at h
  unfold commandEntries
  simp only at h ⊢
  split at h
  · exact absurd h (by simp)
  split at h
  · next heq =>
    rw [heq]
    exact kfileCommand_stands hread hst h
  · next heq =>
    rw [heq]
    show Stands (es ++ if _ then _ else _) _
    split at h
    · next hskip =>
      rw [if_pos hskip, List.append_nil, ← Except.ok.inj h]
      exact hst
    · next hskip =>
      rw [if_neg hskip]
      exact kfileTranscript_stands (by simp) hst h
  · next heq =>
    rw [heq]
    show Stands (es ++ if _ then _ else _) _
    split at h
    · next hskip =>
      rw [if_pos hskip, List.append_nil, ← Except.ok.inj h]
      exact hst
    · next hskip =>
      rw [if_neg hskip]
      exact kfileTranscript_stands (by simp) hst h
  · next heq =>
    rw [heq]
    show Stands (es ++ []) _
    rw [List.append_nil]
    split at h
    · exact (Except.ok.inj h) ▸ hst
    · rw [tranHead_of_comm kfileExclude_tranHead h]
      exact hst
  · next heq =>
    rw [heq]
    show Stands (es ++ []) _
    rw [List.append_nil]
    split at h
    · exact (Except.ok.inj h) ▸ hst
    · rw [tranHead_of_comm kfileSpecial_tranHead h]
      exact hst
  · exact absurd h (by simp)

theorem kfileLine_stands {line : List Byte} (hread : Includes read included)
    (hst : Stands es st.tranHead) (h : kfileLine cfg kdir read kfile linenum line st = .ok st') :
    Stands (es ++ lineEntries cfg kdir included line) st'.tranHead := by
  have hnone : lineCommand line = none → .ok st = (.ok st' : Except KfileExit KfileState) →
      Stands (es ++ lineEntries cfg kdir included line) st'.tranHead := by
    intro hcommand heq
    rw [lineEntries, hcommand, List.append_nil, ← Except.ok.inj heq]
    exact hst
  unfold kfileLine at h
  split_ifs at h
  split at h
  · next hwords => exact hnone (by rw [lineCommand, hwords]) h
  next word av hwords =>
  split_ifs at h
  · next hcomment => exact hnone (by rw [lineCommand, hwords]; simp [hcomment]) h
  next hcomment =>
  simp only at h
  split at h
  · next type file hargv =>
    have hcommand : lineCommand line = some (decide (word.head? = some minus), type, file) := by
      unfold lineCommand
      rw [hwords]
      simp only [if_neg hcomment, hargv]
    rw [lineEntries, hcommand]
    exact kfileSwitch_stands hread hst h
  · exact absurd h (by simp)

theorem kfileLines_stands {lines : List (List Byte)} (hread : Includes read included)
    (hst : Stands es st.tranHead)
    (h : kfileLines cfg kdir read kfile linenum lines st = .ok st') :
    Stands (es ++ lines.flatMap (lineEntries cfg kdir included)) st'.tranHead := by
  induction lines generalizing st linenum es with
  | nil =>
    obtain rfl := Except.ok.inj h
    simpa using hst
  | cons line lines ih =>
    rw [kfileLines] at h
    split at h
    · exact absurd h (by simp)
    · next st₁ hst₁ =>
      rw [List.flatMap_cons, ← List.append_assoc]
      exact ih (kfileLine_stands hread hst hst₁) h

/-- The list holds what stands of the entries, the last one first. -/
theorem readKfile_stands (fuel : Nat) :
    Includes (readKfile cfg kdir fuel) (kfileEntries cfg kdir fuel) := by
  induction fuel with
  | zero => exact fun kfile es st st' _ h => absurd h (by simp [readKfile])
  | succ fuel ih =>
    intro kfile es st st' hst h
    rw [readKfile] at h
    rw [kfileEntries]
    cases hopen : cfg.fopen kfile with
    | none =>
      rw [hopen] at h
      cases h
    | some content =>
      rw [hopen] at h
      exact kfileLines_stands ih hst h

end

/-! ## After `read_kfile` -/

/-- The nodes hold what stands of the 'p' and 'n' lines, the last one first, and then the
NULL transcript.  No link that leads nowhere is used on the way. -/
theorem linkReadKfile_standing (cfg : KfileConfig) (malloc : Malloc) (kdir : CStr) (fuel : Nat)
    (kfile : CStr) (a : Nat) (kfileList : PathList) :
    (∀ st, linkReadKfile cfg malloc kdir fuel kfile (linkStart a kfileList) = .ok st →
      ∃ cells, LinkedNodes.Holds st.links cells ∧ cells.map (fun c => c.2.file) =
        (standing (kfileEntries cfg kdir fuel kfile)).reverse ++ [nullTranscript.file]) ∧
      linkReadKfile cfg malloc kdir fuel kfile (linkStart a kfileList) ≠ .error .dangling := by
  have hsame := @linkReadKfile_same cfg malloc kdir fuel kfile _ _ (refines_start a kfileList)
  generalize linkReadKfile cfg malloc kdir fuel kfile (linkStart a kfileList) = r at hsame
  generalize hread : readKfile cfg kdir fuel kfile _ = k at hsame
  refine ⟨fun st hr => ?_, fun hr => ?_⟩
  · subst hr
    cases hsame with
    | @ok _ kst h =>
      obtain ⟨front, z, hholds, -, -, -, rfl⟩ := h
      have hstart : Stands [] [nullTranscript] := rfl
      have hstands := readKfile_stands fuel kfile [] _ _ hstart hread
      refine ⟨front ++ [z], hholds, ?_⟩
      rw [List.nil_append] at hstands
      have hmap := hstands.symm
      rw [List.map_map] at hmap
      exact hmap.symm
  · subst hr
    cases hsame

/-- `a` is taken off the list again, from its middle. -/
def minusKfile : KfileConfig where
  caseSensitive := true
  tranFormat := .absolute
  cksum := false
  skip := ⟨false, false, false, false⟩
  location := .client
  applicable := false
  radmindPath := lit "/var/radmind"
  fopen path :=
    if path = lit "k" then some (lit "p a\np b\n- p a\n") else some []

/-- Addresses are given out in turn. -/
def bump : Malloc := fun n nodes => if h : nodes n = none then some ⟨n, h⟩ else none

theorem linkReadKfile_standing_middle :
    standing (kfileEntries minusKfile [] 1 (lit "k")) = [⟨.positive, lit "b", lit "b"⟩] ∧
      ∃ st, linkReadKfile minusKfile bump [] 1 (lit "k") (linkStart 0 [lit "k"]) = .ok st ∧
        ∃ cells, LinkedNodes.Holds st.links cells ∧ cells.map (fun c => c.2.file) =
          (standing (kfileEntries minusKfile [] 1 (lit "k"))).reverse ++
            [nullTranscript.file] := by
  have hok : (linkReadKfile minusKfile bump [] 1 (lit "k") (linkStart 0 [lit "k"])).isOk =
      true := by decide
  refine ⟨by decide, ?_⟩
  cases hrun : linkReadKfile minusKfile bump [] 1 (lit "k") (linkStart 0 [lit "k"]) with
  | error e =>
    rw [hrun] at hok
    cases hok
  | ok st => exact ⟨st, rfl, (linkReadKfile_standing minusKfile bump [] 1 (lit "k") 0
      [lit "k"]).1 st hrun⟩

end Radmind
