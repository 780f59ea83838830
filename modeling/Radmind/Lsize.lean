import Radmind.Transcript.Kfile

/-!
# `lsize`

`lsize` adds up the sizes of the files that a command file's transcripts name.  It has a
reader of command files of its own, which knows neither the exclude lines nor the minus
lines `read_kfile` takes.
-/

namespace Radmind

/-! ## The size of a transcript -/

/-- What stands in front of the digits of a number, and the number. -/
def signedDigits (s : CStr) : Bool × Nat :=
  match s.dropWhile isspace with
  | minus :: s => (true, strtolDigits 10 0 s)
  | plus :: s => (false, strtolDigits 10 0 s)
  | s => (false, strtolDigits 10 0 s)

/-- `strtoull( s, NULL, 10 )`, none for ERANGE.  A minus sign negates the result. -/
def strtoull (s : CStr) : Option (BitVec 64) :=
  let n := (signedDigits s).2
  if n ≥ 2 ^ 64 then none
  else some (if (signedDigits s).1 then -BitVec.ofNat 64 n else BitVec.ofNat 64 n)

/-- What ends `lsize`. -/
inductive LsizeExit
  | systemError (name : CStr)
  | range (line : Nat) (word : CStr)
  | lineTooLong (line : Nat)
  | wrongArguments (line ac : Nat)
  | pathTooLong (line : Nat)
  | loop (kfile : CStr) (line : Nat) (file : CStr)
  | negativeSize (file : CStr)
  | invalid (line : Nat) (word : CStr)
  | overrun
  | outOfFuel
  deriving DecidableEq, Repr

/-- The lines of a transcript, in the buffer of `lsize`. -/
def sizeLinesUpTo : Nat → List Byte → List (List Byte)
  | 0, _ => []
  | fuel + 1, input =>
    match fgets (maxPathLen * 2) input with
    | none => []
    | some (line, rest) => line :: sizeLinesUpTo fuel rest

def sizeLines (content : List Byte) : List (List Byte) := sizeLinesUpTo content.length content

/-- The size on the line of a file or an applefile. -/
def sizeWord (line : List Byte) : Option CStr :=
  match lineWords line with
  | [type, _, _, _, _, _, size, _] =>
    if type.head? = some 97 ∨ type.head? = some 102 then some size else none
  | _ => none

/-- The loop of `lsize`. -/
def lsizeLoop : Nat → BitVec 64 → List (List Byte) → Except LsizeExit (BitVec 64)
  | _, totalsize, [] => .ok totalsize
  | linenum, totalsize, line :: lines =>
    match sizeWord line with
    | none => lsizeLoop (linenum + 1) totalsize lines
    | some word =>
      match strtoull word with
      | none => .error (.range (linenum + 1) word)
      | some cursize => lsizeLoop (linenum + 1) (totalsize + cursize) lines

/-- `lsize` -/
def lsize (fopen : CStr → Option (List Byte)) (tpath : CStr) : Except LsizeExit (BitVec 64) :=
  match fopen tpath with
  | none => .error (.systemError tpath)
  | some content => lsizeLoop 1 0 (sizeLines content)

/-! ## The command files of `lsize` -/

/-- The total of `kfile_size` so far, and `kfile_list`. -/
abbrev SizeState := BitVec 64 × PathList

/-- The case 'k' of `kfile_size`. -/
def kfileSizeCommand (kfileSize : CStr → PathList → Except LsizeExit SizeState) (kfile : CStr)
    (linenum : Nat) (fullpath file : CStr) (st : SizeState) : Except LsizeExit SizeState :=
  if listCheck st.2 fullpath then .error (.loop kfile linenum file)
  else
    match listInsert st.2 fullpath with
    | none => .error (.systemError (lit "list_insert"))
    | some kfileList =>
      match kfileSize fullpath kfileList with
      | .error e => .error e
      | .ok (cursize, kfileList) =>
        if cursize.toInt < 0 then .error (.negativeSize fullpath)
        else .ok (st.1 + cursize, kfileList)

/-- The switch of `kfile_size`. -/
def kfileSizeSwitch (cfg : KfileConfig) (kdir : CStr)
    (kfileSize : CStr → PathList → Except LsizeExit SizeState) (kfile : CStr) (linenum : Nat)
    (type file : CStr) (st : SizeState) : Except LsizeExit SizeState :=
  let fullpath := kfileFullpath cfg kdir type file
  if fullpath.length ≥ maxPathLen then .error (.pathTooLong linenum)
  else
    match type.head? with
    | some 107 => kfileSizeCommand kfileSize kfile linenum fullpath file st
    | some 110 => .ok st
    | some 112 =>
      match lsize cfg.fopen fullpath with
      | .error e => .error e
      | .ok cursize => .ok (st.1 + cursize, st.2)
    | some 115 => .ok st
    | _ => .error (.invalid linenum type)

/-- A line of a command file in `kfile_size`. -/
def kfileSizeLine (cfg : KfileConfig) (kdir : CStr)
    (kfileSize : CStr → PathList → Except LsizeExit SizeState) (kfile : CStr) (linenum : Nat)
    (line : List Byte) (st : SizeState) : Except LsizeExit SizeState :=
  if cstr line = [] then .error .overrun
  else if (cstr line).getLast? ≠ some newline then .error (.lineTooLong linenum)
  else
    match lineWords line with
    | [] => .ok st
    | word :: av =>
      if word.head? = some hash then .ok st
      else
        match word :: av with
        | [type, file] => kfileSizeSwitch cfg kdir kfileSize kfile linenum type file st
        | argv => .error (.wrongArguments linenum argv.length)

def kfileSizeLines (cfg : KfileConfig) (kdir : CStr)
    (kfileSize : CStr → PathList → Except LsizeExit SizeState) (kfile : CStr) :
    Nat → List (List Byte) → SizeState → Except LsizeExit SizeState
  | _, [], st => .ok st
  | linenum, line :: lines, st =>
    match kfileSizeLine cfg kdir kfileSize kfile (linenum + 1) line st with
    | .error e => .error e
    | .ok st => kfileSizeLines cfg kdir kfileSize kfile (linenum + 1) lines st

/-- `kfile_size`, with the total it returns and the `kfile_list` it leaves. -/
def kfileSize (cfg : KfileConfig) (kdir : CStr) :
    Nat → CStr → PathList → Except LsizeExit SizeState
  | 0, _, _ => .error .outOfFuel
  | fuel + 1, kfile, kfileList =>
    match cfg.fopen kfile with
    | none => .error (.systemError kfile)
    | some content =>
      kfileSizeLines cfg kdir (kfileSize cfg kdir fuel) kfile 0 (fileLines content) (0, kfileList)

/-- `main` of `lsize` on a command file: what it divides by the factor and prints. -/
def lsizeKfile (cfg : KfileConfig) (fuel : Nat) (path : CStr) : Except LsizeExit (BitVec 64) :=
  match listInsert [] path with
  | none => .error (.systemError path)
  | some kfileList =>
    match kfileSize cfg (kfileDir path) fuel path kfileList with
    | .error e => .error e
    | .ok (totalsize, _) =>
      if totalsize.toInt < 0 then .error (.negativeSize path) else .ok totalsize

/-! ## The sizes that are left in the list -/

/-- A size in bytes, none for a number behind a minus sign. -/
def sizeOfWord (s : CStr) : Option Nat :=
  if (signedDigits s).1 then none else some (signedDigits s).2

/-- The sum of the sizes, if each of them is one. -/
def sumSizes : List CStr → Option Nat
  | [] => some 0
  | word :: words =>
    match sizeOfWord word, sumSizes words with
    | some n, some m => some (n + m)
    | _, _ => none

/-- The sizes of the files and applefiles of a transcript. -/
def transcriptSizes (fopen : CStr → Option (List Byte)) (fullname : CStr) : List CStr :=
  ((fopen fullname).elim [] sizeLines).filterMap sizeWord

/-- The sizes of the files and applefiles of the positive transcripts in the list, a
transcript's as often as it is in the list. -/
def remainingSizes (fopen : CStr → Option (List Byte)) (tranHead : List Transcript) : List CStr :=
  (tranHead.filter (·.tType = .positive)).flatMap fun tran => transcriptSizes fopen tran.tFullname

/-! ## The command files that are read -/

/-- A line that is neither an exclude line nor a minus line. -/
def PlainLine (line : List Byte) : Prop :=
  ∀ word av, lineWords line = word :: av → word.head? ≠ some minus ∧ word.head? ≠ some 120

/-- `kfile` has a 'k' line for `file`. -/
def IncludesFile (cfg : KfileConfig) (kdir kfile file : CStr) : Prop :=
  ∃ content, cfg.fopen kfile = some content ∧ ∃ line ∈ fileLines content, ∃ type name,
    lineWords line = [type, name] ∧ type.head? = some 107 ∧
      file = kfileFullpath cfg kdir type name

/-- No command file that is read has an exclude line or a minus line. -/
def PlainFiles (cfg : KfileConfig) (kdir kfile : CStr) : Prop :=
  ∀ file content, Relation.ReflTransGen (IncludesFile cfg kdir) kfile file →
    cfg.fopen file = some content → ∀ line ∈ fileLines content, PlainLine line

/-! ## What a sum of sizes is -/

theorem sumSizes_cons {word : CStr} {words : List CStr} {S : Nat}
    (h : sumSizes (word :: words) = some S) :
    ∃ n m, sizeOfWord word = some n ∧ sumSizes words = some m ∧ S = n + m := by
  rw [sumSizes] at h
  cases hn : sizeOfWord word with
  | none =>
    rw [hn] at h
    cases h
  | some n =>
    cases hm : sumSizes words with
    | none =>
      rw [hn, hm] at h
      cases h
    | some m =>
      rw [hn, hm] at h
      exact ⟨n, m, rfl, rfl, (Option.some.inj h).symm⟩

theorem sumSizes_append {words words' : List CStr} {S : Nat}
    (h : sumSizes (words ++ words') = some S) :
    ∃ n m, sumSizes words = some n ∧ sumSizes words' = some m ∧ S = n + m := by
  induction words generalizing S with
  | nil => exact ⟨0, S, rfl, h, (Nat.zero_add S).symm⟩
  | cons word words ih =>
    obtain ⟨k, l, hk, hl, rfl⟩ := sumSizes_cons h
    obtain ⟨n, m, hn, hm, rfl⟩ := ih hl
    refine ⟨k + n, m, ?_, hm, by omega⟩
    rw [sumSizes, hk, hn]

theorem strtoull_of_sizeOfWord {word : CStr} {n : Nat} (h : sizeOfWord word = some n)
    (hn : n < 2 ^ 63) : strtoull word = some (BitVec.ofNat 64 n) := by
  unfold sizeOfWord at h
  split at h
  · cases h
  · next hplain =>
    obtain rfl := Option.some.inj h
    simp only [strtoull]
    rw [if_neg (by omega), if_neg hplain]

theorem lsizeLoop_sum {lines : List (List Byte)} {linenum S : Nat} {totalsize : BitVec 64}
    (h : sumSizes (lines.filterMap sizeWord) = some S) (hS : S < 2 ^ 63) :
    lsizeLoop linenum totalsize lines = .ok (totalsize + BitVec.ofNat 64 S) := by
  induction lines generalizing linenum totalsize S with
  | nil =>
    obtain rfl := Option.some.inj h
    rw [lsizeLoop, BitVec.add_zero]
  | cons line lines ih =>
    rw [List.filterMap_cons] at h
    rw [lsizeLoop]
    cases hword : sizeWord line with
    | none =>
      rw [hword] at h
      exact ih h hS
    | some word =>
      rw [hword] at h
      obtain ⟨n, m, hn, hm, rfl⟩ := sumSizes_cons h
      have hcursize := strtoull_of_sizeOfWord hn (by omega)
      simp only [hcursize]
      rw [ih hm (by omega), BitVec.ofNat_add, BitVec.add_assoc]

theorem lsize_sum {fopen : CStr → Option (List Byte)} {tpath : CStr} {content : List Byte}
    {S : Nat} (hopen : fopen tpath = some content)
    (h : sumSizes (transcriptSizes fopen tpath) = some S) (hS : S < 2 ^ 63) :
    lsize fopen tpath = .ok (BitVec.ofNat 64 S) := by
  rw [transcriptSizes, hopen] at h
  change sumSizes ((sizeLines content).filterMap sizeWord) = some S at h
  simp only [lsize, hopen]
  rw [lsizeLoop_sum h hS]
  exact congrArg Except.ok (BitVec.zero_add _)

theorem remainingSizes_append (fopen : CStr → Option (List Byte)) (new old : List Transcript) :
    remainingSizes fopen (new ++ old) = remainingSizes fopen new ++ remainingSizes fopen old := by
  rw [remainingSizes, List.filter_append, List.flatMap_append]
  rfl

/-! ## The lines `kfile_size` takes -/

section

variable {cfg : KfileConfig} {kdir : CStr}
  {rec : CStr → PathList → Except LsizeExit SizeState}

theorem kfileSizeSwitch_ok {kfile type file : CStr} {linenum : Nat} {st st' : SizeState}
    (h : kfileSizeSwitch cfg kdir rec kfile linenum type file st = .ok st') :
    type.head? ≠ some minus ∧ type.head? ≠ some 120 ∧
      (type.head? = some 107 →
        ∃ list r, rec (kfileFullpath cfg kdir type file) list = .ok r) := by
  unfold kfileSizeSwitch at h
  simp only at h
  split at h
  · cases h
  split at h
  · next hk =>
    refine ⟨by rw [hk]; decide, by rw [hk]; decide, fun _ => ?_⟩
    unfold kfileSizeCommand at h
    split at h
    · cases h
    split at h
    · cases h
    next list _ =>
    split at h
    · cases h
    next cursize list' hrec => exact ⟨list, _, hrec⟩
  · next hn => rw [hn]; exact ⟨by decide, by decide, fun h => absurd h (by decide)⟩
  · next hp => rw [hp]; exact ⟨by decide, by decide, fun h => absurd h (by decide)⟩
  · next hs => rw [hs]; exact ⟨by decide, by decide, fun h => absurd h (by decide)⟩
  · cases h

theorem kfileSizeLine_ok {kfile : CStr} {line : List Byte} {linenum : Nat} {st st' : SizeState}
    (h : kfileSizeLine cfg kdir rec kfile linenum line st = .ok st') :
    PlainLine line ∧ ∀ type name, lineWords line = [type, name] → type.head? = some 107 →
      ∃ list r, rec (kfileFullpath cfg kdir type name) list = .ok r := by
  unfold kfileSizeLine at h
  split at h
  · cases h
  split at h
  · cases h
  split at h
  · next hwords =>
    refine ⟨fun word av heq => ?_, fun type name heq => ?_⟩ <;>
    · rw [hwords] at heq
      cases heq
  · next word av hwords =>
    split at h
    · next hhash =>
      refine ⟨fun word' av' heq => ?_, fun type name heq hk => ?_⟩
      · rw [hwords] at heq
        rw [← (List.cons.inj heq).1, hhash]
        exact ⟨by decide, by decide⟩
      · rw [hwords] at heq
        rw [← (List.cons.inj heq).1, hhash] at hk
        exact absurd hk (by decide)
    · split at h
      · next type name heq =>
        have hswitch := kfileSizeSwitch_ok h
        obtain ⟨rfl, rfl⟩ := List.cons.inj heq
        refine ⟨fun word' av' heq' => ?_, fun type' name' heq' hk => ?_⟩
        · rw [hwords] at heq'
          rw [← (List.cons.inj heq').1]
          exact ⟨hswitch.1, hswitch.2.1⟩
        · rw [hwords] at heq'
          cases heq'
          exact hswitch.2.2 hk
      · cases h

theorem kfileSizeLines_ok {kfile : CStr} {lines : List (List Byte)} {linenum : Nat}
    {st st' : SizeState}
    (h : kfileSizeLines cfg kdir rec kfile linenum lines st = .ok st') :
    ∀ line ∈ lines, PlainLine line ∧
      ∀ type name, lineWords line = [type, name] → type.head? = some 107 →
        ∃ list r, rec (kfileFullpath cfg kdir type name) list = .ok r := by
  induction lines generalizing linenum st with
  | nil => exact fun line hm => absurd hm List.not_mem_nil
  | cons line lines ih =>
    rw [kfileSizeLines] at h
    split at h
    · cases h
    next st₁ hline =>
    intro l hm
    rcases List.mem_cons.mp hm with rfl | hm
    · exact kfileSizeLine_ok hline
    · exact ih h l hm

/-- A command file `kfile_size` accepts is plain, and so is all it includes. -/
theorem plainFiles_of_kfileSize {fuel : Nat} {kfile : CStr} {list : PathList} {r : SizeState}
    (h : kfileSize cfg kdir fuel kfile list = .ok r) : PlainFiles cfg kdir kfile := by
  induction fuel generalizing kfile list r with
  | zero => cases h
  | succ fuel ih =>
    rw [kfileSize] at h
    split at h
    · cases h
    next content hopen =>
    have hlines := kfileSizeLines_ok h
    intro file content' hreach hopen' line hline
    cases hreach using Relation.ReflTransGen.head_induction_on with
    | refl =>
      rw [hopen] at hopen'
      obtain rfl := Option.some.inj hopen'
      exact (hlines line hline).1
    | head hincludes hrest =>
      obtain ⟨content₁, hopen₁, line₁, hline₁, type, name, hwords, hk, rfl⟩ := hincludes
      rw [hopen] at hopen₁
      obtain rfl := Option.some.inj hopen₁
      obtain ⟨list', r', hrec⟩ := (hlines line₁ hline₁).2 type name hwords hk
      exact ih hrec file content' hrest hopen' line hline

end

/-! ## The two readers side by side -/

section

variable {cfg : KfileConfig} {kdir : CStr}

/-- What a piece of the reading puts on the list of transcripts, `kfile_size` adds to its
total. -/
def CountsLine (cfg : KfileConfig) (st st' : KfileState)
    (run : SizeState → Except LsizeExit SizeState) : Prop :=
  ∃ new, st'.tranHead = new ++ st.tranHead ∧
    ∀ S total, sumSizes (remainingSizes cfg.fopen new) = some S → S < 2 ^ 63 →
      run (total, st.kfileList) = .ok (total + BitVec.ofNat 64 S, st'.kfileList)

/-- What the reading of a file puts on the list, `kfile_size` returns. -/
def CountsFile (cfg : KfileConfig) (st st' : KfileState)
    (run : PathList → Except LsizeExit SizeState) : Prop :=
  ∃ new, st'.tranHead = new ++ st.tranHead ∧
    ∀ S, sumSizes (remainingSizes cfg.fopen new) = some S → S < 2 ^ 63 →
      run st.kfileList = .ok (BitVec.ofNat 64 S, st'.kfileList)

theorem CountsLine.of_same {st st' : KfileState} (htran : st'.tranHead = st.tranHead)
    (hlist : st'.kfileList = st.kfileList) : CountsLine cfg st st' .ok := by
  refine ⟨[], htran, fun S total hS _ => ?_⟩
  obtain rfl := Option.some.inj hS
  rw [hlist, BitVec.add_zero]

theorem CountsLine.congr {st st' : KfileState} {run run' : SizeState → Except LsizeExit SizeState}
    (h : CountsLine cfg st st' run) (heq : ∀ s, run' s = run s) : CountsLine cfg st st' run' :=
  (funext heq : run' = run) ▸ h

theorem CountsLine.trans {st₁ st₂ st₃ : KfileState}
    {run run' : SizeState → Except LsizeExit SizeState} (h : CountsLine cfg st₁ st₂ run)
    (h' : CountsLine cfg st₂ st₃ run') :
    CountsLine cfg st₁ st₃ fun s => match run s with | .error e => .error e | .ok s => run' s := by
  obtain ⟨new, htran, hrun⟩ := h
  obtain ⟨new', htran', hrun'⟩ := h'
  refine ⟨new' ++ new, by rw [htran', htran, List.append_assoc], fun S total hS hlt => ?_⟩
  rw [remainingSizes_append] at hS
  obtain ⟨n, m, hn, hm, rfl⟩ := sumSizes_append hS
  simp only [hrun m total hm (by omega)]
  rw [hrun' n _ hn (by omega), Nat.add_comm n m, BitVec.ofNat_add, BitVec.add_assoc]

theorem kfileSpecial_lists {isMinus : Bool} {kfile word : CStr} {linenum : Nat}
    {st st' : KfileState} (h : kfileSpecial cfg isMinus kfile linenum word st = .ok st') :
    st'.tranHead = st.tranHead ∧ st'.kfileList = st.kfileList := by
  unfold kfileSpecial at h
  split at h
  · cases h
  split at h
  · cases h
  · obtain rfl := Except.ok.inj h
    exact ⟨rfl, rfl⟩

theorem openTranscript_new {type : TType} {fullname shortname : CStr} {st st' : KfileState}
    (h : openTranscript cfg type fullname shortname st = .ok st') :
    ∃ tran, tran.tType = type ∧ tran.tFullname = fullname ∧
      st'.tranHead = tran :: st.tranHead ∧ st'.kfileList = st.kfileList ∧
        ∃ content, cfg.fopen fullname = some content := by
  unfold openTranscript at h
  split at h
  · cases h
  next content hopen =>
  split at h
  · cases h
  next new buf hnew =>
  obtain rfl := Except.ok.inj h
  obtain ⟨hfile, -, -⟩ := transcriptParse_cases hnew
  have htype := congrArg TranFile.tType hfile
  have hname := congrArg TranFile.tFullname hfile
  exact ⟨new, htype, hname, rfl, rfl, content, hopen⟩

theorem toInt_ofNat {S : Nat} (hS : S < 2 ^ 63) : (BitVec.ofNat 64 S).toInt = S := by
  rw [BitVec.toInt_eq_toNat_of_lt] <;> rw [BitVec.toNat_ofNat, Nat.mod_eq_of_lt (by omega)]
  omega

theorem counts_positive {fullname shortname : CStr} {st st' : KfileState}
    (h : openTranscript cfg .positive fullname shortname st = .ok st') :
    CountsLine cfg st st' fun s =>
      match lsize cfg.fopen fullname with
      | .error e => .error e
      | .ok cursize => .ok (s.1 + cursize, s.2) := by
  obtain ⟨tran, htype, hname, htran, hlist, content, hopen⟩ := openTranscript_new h
  refine ⟨[tran], htran, fun S total hS hlt => ?_⟩
  have hsizes : remainingSizes cfg.fopen [tran] = transcriptSizes cfg.fopen fullname := by
    simp [remainingSizes, htype, hname]
  rw [hsizes] at hS
  simp only [lsize_sum hopen hS hlt, hlist]

theorem counts_negative {fullname shortname : CStr} {st st' : KfileState}
    (h : openTranscript cfg .negative fullname shortname st = .ok st') :
    CountsLine cfg st st' .ok := by
  obtain ⟨tran, htype, hname, htran, hlist, content, hopen⟩ := openTranscript_new h
  refine ⟨[tran], htran, fun S total hS hlt => ?_⟩
  have hsizes : remainingSizes cfg.fopen [tran] = [] := by
    simp [remainingSizes, htype]
  rw [hsizes] at hS
  obtain rfl := Option.some.inj hS
  rw [hlist, BitVec.add_zero]

variable {read : CStr → KfileState → Except KfileExit KfileState}
  {rec : CStr → PathList → Except LsizeExit SizeState}

theorem counts_command {kfile fullpath file : CStr} (kfile' : CStr) {linenum : Nat}
    {st st' : KfileState}
    (hrec : ∀ st st', read fullpath st = .ok st' → CountsFile cfg st st' (rec fullpath))
    (h : kfileCommand read false kfile linenum fullpath file st = .ok st') :
    CountsLine cfg st st' (kfileSizeCommand rec kfile' linenum fullpath file) := by
  unfold kfileCommand at h
  rw [if_neg (by decide)] at h
  split at h
  · cases h
  next hcheck =>
  split at h
  · cases h
  next list hinsert =>
  obtain ⟨new, htran, hrun⟩ := hrec _ _ h
  refine ⟨new, htran, fun S total hS hlt => ?_⟩
  have hnot : ¬ ((S : Int) < 0) := by omega
  unfold kfileSizeCommand
  simp only [if_neg hcheck, hinsert, hrun S hS hlt, toInt_ofNat hlt, if_neg hnot]

/-- The two switches on a line without a minus sign. -/
theorem counts_switch {kfile type file : CStr} (kfile' : CStr) {linenum : Nat}
    {st st' : KfileState}
    (hskip : cfg.skip = ⟨false, false, false, false⟩) (hx : type.head? ≠ some 120)
    (hrec : type.head? = some 107 → ∀ st st', read (kfileFullpath cfg kdir type file) st = .ok st' →
      CountsFile cfg st st' (rec (kfileFullpath cfg kdir type file)))
    (h : kfileSwitch cfg kdir read kfile linenum false type file st = .ok st') :
    CountsLine cfg st st' (kfileSizeSwitch cfg kdir rec kfile' linenum type file) := by
  unfold kfileSwitch at h
  simp only at h
  split at h
  · cases h
  next hlen =>
  have hrun : ∀ s, kfileSizeSwitch cfg kdir rec kfile' linenum type file s =
      match type.head? with
      | some 107 =>
        kfileSizeCommand rec kfile' linenum (kfileFullpath cfg kdir type file) file s
      | some 110 => .ok s
      | some 112 =>
        match lsize cfg.fopen (kfileFullpath cfg kdir type file) with
        | .error e => .error e
        | .ok cursize => .ok (s.1 + cursize, s.2)
      | some 115 => .ok s
      | _ => .error (.invalid linenum type) := fun s => if_neg hlen
  split at h
  · next hk =>
    rw [hk] at hrun
    exact (counts_command kfile' (hrec hk) h).congr hrun
  · next hn =>
    rw [hn] at hrun
    rw [hskip, if_neg (by decide)] at h
    exact (counts_negative h).congr hrun
  · next hp =>
    rw [hp] at hrun
    rw [hskip, if_neg (by decide)] at h
    exact (counts_positive h).congr hrun
  · next hx' => exact absurd hx' hx
  · next hs =>
    rw [hs] at hrun
    rw [hskip, if_neg (by decide)] at h
    have hsame := kfileSpecial_lists h
    exact (CountsLine.of_same hsame.1 hsame.2).congr hrun
  · cases h

/-- A plain line: `kfile_size` takes it, and counts what it adds to the list. -/
theorem counts_line {kfile : CStr} (kfile' : CStr) {linenum : Nat} {line : List Byte} {st st' : KfileState}
    (hskip : cfg.skip = ⟨false, false, false, false⟩) (hplain : PlainLine line)
    (hrec : ∀ type name, lineWords line = [type, name] → type.head? = some 107 → ∀ st st',
      read (kfileFullpath cfg kdir type name) st = .ok st' →
        CountsFile cfg st st' (rec (kfileFullpath cfg kdir type name)))
    (h : kfileLine cfg kdir read kfile linenum line st = .ok st') :
    CountsLine cfg st st' (kfileSizeLine cfg kdir rec kfile' linenum line) := by
  unfold kfileLine at h
  split at h
  · cases h
  next hempty =>
  split at h
  · cases h
  next hlast =>
  have hrun : ∀ s, kfileSizeLine cfg kdir rec kfile' linenum line s =
      match lineWords line with
      | [] => .ok s
      | word :: av =>
        if word.head? = some hash then .ok s
        else
          match word :: av with
          | [type, file] => kfileSizeSwitch cfg kdir rec kfile' linenum type file s
          | argv => .error (.wrongArguments linenum argv.length) :=
    fun s => (if_neg hempty).trans (if_neg hlast)
  split at h
  · next hwords =>
    rw [hwords] at hrun
    obtain rfl := Except.ok.inj h
    exact (CountsLine.of_same rfl rfl).congr hrun
  · next word av hwords =>
    rw [hwords] at hrun
    have hword := hplain word av hwords
    split at h
    · next hhash =>
      obtain rfl := Except.ok.inj h
      exact (CountsLine.of_same rfl rfl).congr fun s => (hrun s).trans (if_pos hhash)
    · next hhash =>
      have hminus : (decide (word.head? = some minus)) = false := decide_eq_false hword.1
      simp only [if_neg hword.1, hminus] at h
      split at h
      · next type file heq =>
        rw [heq] at hrun hwords
        obtain ⟨rfl, rfl⟩ := List.cons.inj heq
        refine (counts_switch kfile' hskip hword.2 (hrec _ _ hwords) h).congr fun s => ?_
        exact (hrun s).trans (if_neg hhash)
      · cases h

theorem counts_lines {kfile : CStr} (kfile' : CStr) {lines : List (List Byte)} {linenum : Nat}
    {st st' : KfileState} (hskip : cfg.skip = ⟨false, false, false, false⟩)
    (hplain : ∀ line ∈ lines, PlainLine line)
    (hrec : ∀ line ∈ lines, ∀ type name, lineWords line = [type, name] →
      type.head? = some 107 → ∀ st st', read (kfileFullpath cfg kdir type name) st = .ok st' →
        CountsFile cfg st st' (rec (kfileFullpath cfg kdir type name)))
    (h : kfileLines cfg kdir read kfile linenum lines st = .ok st') :
    CountsLine cfg st st' (kfileSizeLines cfg kdir rec kfile' linenum lines) := by
  induction lines generalizing linenum st with
  | nil =>
    obtain rfl := Except.ok.inj h
    exact CountsLine.of_same rfl rfl
  | cons line lines ih =>
    rw [kfileLines] at h
    split at h
    · cases h
    next st₁ hline =>
    have hfirst := counts_line kfile' hskip (hplain line List.mem_cons_self)
      (hrec line List.mem_cons_self) hline
    have hrest := ih (fun l hm => hplain l (List.mem_cons_of_mem _ hm))
      (fun l hm => hrec l (List.mem_cons_of_mem _ hm)) h
    exact hfirst.trans hrest

theorem countsFile_readKfile {fuel : Nat} {kfile : CStr} {st st' : KfileState}
    (hskip : cfg.skip = ⟨false, false, false, false⟩) (hplain : PlainFiles cfg kdir kfile)
    (h : readKfile cfg kdir fuel kfile st = .ok st') :
    CountsFile cfg st st' (kfileSize cfg kdir fuel kfile) := by
  induction fuel generalizing kfile st st' with
  | zero => cases h
  | succ fuel ih =>
    rw [readKfile] at h
    split at h
    · cases h
    next content hopen =>
    have hlines : CountsLine cfg st st' (kfileSizeLines cfg kdir (kfileSize cfg kdir fuel) kfile 0
        (fileLines content)) := by
      apply counts_lines kfile hskip (hplain kfile content .refl hopen) ?_ h
      intro line hm type name hwords hk st₁ st₂ hread
      have hincludes : IncludesFile cfg kdir kfile (kfileFullpath cfg kdir type name) :=
        ⟨content, hopen, line, hm, type, name, hwords, hk, rfl⟩
      exact ih (fun file content' hreach => hplain file content' (.head hincludes hreach)) hread
    obtain ⟨new, htran, hrun⟩ := hlines
    refine ⟨new, htran, fun S hS hlt => ?_⟩
    simp only [kfileSize, hopen]
    rw [hrun S 0 hS hlt]
    exact congrArg (fun total => Except.ok (total, st'.kfileList)) (BitVec.zero_add _)

theorem transcriptInit_server {fuel : Nat} {kfile : CStr} {st : KfileState}
    (hserver : cfg.location = .server) (hskip : cfg.skip = ⟨false, false, false, false⟩)
    (h : transcriptInit cfg fuel kfile = .ok st) :
    ∃ list, listInsert [] kfile = some list ∧
      readKfile cfg (kfileDir kfile) fuel kfile ⟨[nullTranscript], [], list, [], [], []⟩ =
        .ok st := by
  unfold transcriptInit at h
  simp only at h
  rw [if_neg (by rw [hskip]; decide)] at h
  split at h
  · cases h
  next list hinsert =>
  split at h
  · cases h
  next st₁ hread =>
  have hspecial : openSpecial cfg (kfileDir kfile) st₁ = .ok st₁ := by
    unfold openSpecial
    rw [hserver]
    exact if_neg (by simp)
  rw [hspecial] at h
  split at h
  · cases h
  next st₂ hst₂ =>
  obtain rfl := Except.ok.inj hst₂
  split at h
  · cases h
  · obtain rfl := Except.ok.inj h
    exact ⟨list, hinsert, hread⟩

end

/-! ## `lsize` and `fsdiff` on the same command files -/

/-- `lsize` accepts the command file, and finds the sum of the sizes that `read_kfile` left
in the list. -/
def FindsSizes (cfg : KfileConfig) (kfile : CStr) (st : KfileState) : Prop :=
  ∃ S fuel total, sumSizes (remainingSizes cfg.fopen st.tranHead) = some S ∧
    lsizeKfile cfg fuel kfile = .ok total ∧ total.toInt = S

theorem plainFiles_of_lsizeKfile {cfg : KfileConfig} {fuel : Nat} {kfile : CStr}
    {total : BitVec 64} (h : lsizeKfile cfg fuel kfile = .ok total) :
    PlainFiles cfg (kfileDir kfile) kfile := by
  unfold lsizeKfile at h
  split at h
  · cases h
  split at h
  · cases h
  next totalsize list hsize => exact plainFiles_of_kfileSize hsize

/-- Where `read_kfile` accepts the command files, `lsize` finds the sizes of the positive
transcripts that are left if there is no exclude line and no minus line in them, and the
sum fits an `off_t`. -/
theorem lsize_reads_iff (cfg : KfileConfig) (fuel : Nat) (kfile : CStr) (st : KfileState)
    (hserver : cfg.location = .server) (hskip : cfg.skip = ⟨false, false, false, false⟩)
    (h : transcriptInit cfg fuel kfile = .ok st) :
    FindsSizes cfg kfile st ↔ PlainFiles cfg (kfileDir kfile) kfile ∧
      ∃ S, sumSizes (remainingSizes cfg.fopen st.tranHead) = some S ∧ S < 2 ^ 63 := by
  constructor
  · intro ⟨S, fuel', total, hS, hrun, htotal⟩
    have hlt := BitVec.toInt_lt (x := total)
    exact ⟨plainFiles_of_lsizeKfile hrun, S, hS, by omega⟩
  · intro ⟨hplain, S, hS, hlt⟩
    obtain ⟨list, hinsert, hread⟩ := transcriptInit_server hserver hskip h
    obtain ⟨new, htran, hrun⟩ := countsFile_readKfile hskip hplain hread
    have hnew : remainingSizes cfg.fopen st.tranHead = remainingSizes cfg.fopen new := by
      rw [htran, remainingSizes_append]
      exact List.append_nil _
    rw [hnew] at hS
    have hnot : ¬ ((S : Int) < 0) := by omega
    refine ⟨S, fuel, BitVec.ofNat 64 S, by rw [hnew, hS], ?_, toInt_ofNat hlt⟩
    unfold lsizeKfile
    simp only [hinsert, hrun S hS hlt, toInt_ofNat hlt, if_neg hnot]

/-- A server with one command file and the positive transcript `t.T`. -/
def sizeServer (kfile : CStr) : KfileConfig where
  caseSensitive := true
  tranFormat := .relative
  cksum := false
  skip := ⟨false, false, false, false⟩
  location := .server
  applicable := false
  radmindPath := lit "/r"
  fopen path :=
    if path = lit "c.K" then some kfile
    else if path = lit "/r/transcript/t.T" then some (lit "f ./a 0444 0 0 0 5 -\n")
    else none

theorem lsize_reads_plain :
    ∃ st, transcriptInit (sizeServer (lit "p t.T\n")) 1 (lit "c.K") = .ok st ∧
      (FindsSizes (sizeServer (lit "p t.T\n")) (lit "c.K") st ↔
        PlainFiles (sizeServer (lit "p t.T\n")) (kfileDir (lit "c.K")) (lit "c.K") ∧
          ∃ S, sumSizes (remainingSizes (sizeServer (lit "p t.T\n")).fopen st.tranHead) = some S ∧
            S < 2 ^ 63) := by
  have hrun : ∃ st, transcriptInit (sizeServer (lit "p t.T\n")) 1 (lit "c.K") = .ok st := by
    cases hinit : transcriptInit (sizeServer (lit "p t.T\n")) 1 (lit "c.K") with
    | ok st => exact ⟨st, rfl⟩
    | error e =>
      have hok : (transcriptInit (sizeServer (lit "p t.T\n")) 1 (lit "c.K")).isOk = true := by
        decide +kernel
      rw [hinit] at hok
      cases hok
  obtain ⟨st, hst⟩ := hrun
  exact ⟨st, hst, lsize_reads_iff _ 1 _ st rfl rfl hst⟩

/-- An exclude line, which `fsdiff` reads and `lsize` refuses. -/
theorem not_lsize_reads :
    ¬ ∀ (cfg : KfileConfig) (fuel : Nat) (kfile : CStr) (st : KfileState),
      cfg.location = .server → cfg.skip = ⟨false, false, false, false⟩ →
      transcriptInit cfg fuel kfile = .ok st → FindsSizes cfg kfile st := by
  intro h
  cases hinit : transcriptInit (sizeServer (lit "p t.T\nx *\n")) 1 (lit "c.K") with
  | error e =>
    have hok : (transcriptInit (sizeServer (lit "p t.T\nx *\n")) 1 (lit "c.K")).isOk = true := by
      decide +kernel
    rw [hinit] at hok
    cases hok
  | ok st =>
    obtain ⟨S, fuel, total, -, hrun, -⟩ := h _ 1 _ st rfl rfl hinit
    have hplain := plainFiles_of_lsizeKfile hrun (lit "c.K") (lit "p t.T\nx *\n") .refl rfl
      (lit "x *\n") (by decide +kernel) (lit "x") [lit "*"] (by decide +kernel)
    exact hplain.2 rfl

end Radmind
