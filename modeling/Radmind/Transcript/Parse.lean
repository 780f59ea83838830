import Radmind.ArgcArgv
import Radmind.PathCmp
import Radmind.Transcript.Types

/-!
# Reading a transcript

`transcript_parse` moves a transcript to its next line, or to its end.  It stops
the run on a line it cannot read and on one that does not sort after the line
before it.
-/

namespace Radmind

/-- The settings `transcript_parse` reads. -/
structure ParseConfig where
  caseSensitive : Bool
  tranFormat : TranFormat
  cksum : Bool

/-- `fgets`: at most `n` bytes, up to and with the first newline. -/
def readBytes : Nat → List Byte → List Byte × List Byte
  | 0, input => ([], input)
  | _, [] => ([], [])
  | n + 1, c :: input =>
    if c = newline then ([c], input)
    else ((c :: (readBytes n input).1), (readBytes n input).2)

/-- `fgets( line, n, in )`, NULL at the end of the file. -/
def fgets (n : Nat) (input : List Byte) : Option (List Byte × List Byte) :=
  if input = [] then none else some (readBytes (n - 1) input)

/-- The words of the next line that is not blank and no comment, none at the end
of the file.  The bytes left bound the number of lines. -/
def readLine (file : CStr) : Nat → Nat → List Byte →
    Except Exit (Option (List (List Byte)) × Nat × List Byte)
  | 0, linenum, input => .ok (none, linenum, input)
  | fuel + 1, linenum, input =>
    match fgets maxPathLen input with
    | none => .ok (none, linenum, input)
    | some (line, rest) =>
      -- an empty string has no last character
      if cstr line = [] then .error .overrun
      else if (cstr line).getLast? ≠ some newline then .error (.lineTooLong file (linenum + 1))
      else
        match (acavParse (line ++ [nul])).2 with
        | [] => readLine file fuel (linenum + 1) rest
        | word :: argv =>
          if word.head? = some hash then readLine file fuel (linenum + 1) rest
          else .ok (some (word :: argv), linenum + 1, rest)

/-- `convert_path_type`, `none` where the result does not fit its buffer. -/
def convertPathType (format : TranFormat) (path : CStr) : Option CStr :=
  match path with
  | [c] =>
    if format = .absolute ∧ c = dot then some [slash]
    else if format = .relative ∧ c = slash then some [dot]
    else some path
  | _ =>
    if format = .absolute ∧ path.head? = some dot then
      let path := if path[1]? = some slash then path.tail else slash :: path
      if path.length ≥ maxPathLen then none else some path
    else if format = .relative ∧ path.head? = some slash then
      if (dot :: path).length ≥ maxPathLen then none else some (dot :: path)
    else some path

/-- A word decoded, with the run's exit where it is too long.  `none` is the NULL
that ends `argv`. -/
def decodeWord (tooLong : Exit) (buf : List Byte) (word : Option (List Byte)) :
    Except Exit (CStr × List Byte) :=
  match word with
  | none => .error .overrun
  | some mem =>
    match decode buf mem with
    | (none, _) => .error tooLong
    | (some path, buf) => .ok (path, buf)

/-- A word decoded and brought into the form of the run. -/
def decodePath (format : TranFormat) (tooLong pathTooLong : Exit) (buf : List Byte)
    (word : Option (List Byte)) : Except Exit (CStr × List Byte) :=
  match decodeWord tooLong buf word with
  | .error e => .error e
  | .ok (path, buf) =>
    match convertPathType format path with
    | none => .error pathTooLong
    | some path => .ok (path, buf)

/-- The mode, owner and group every line but that of a hard link has. -/
def parseOwner (st : Stat) (mode uid gid : List Byte) : Stat :=
  { st with
    stMode := BitVec.ofInt 32 (strtol 8 (cstr mode))
    stUid := atoi (cstr uid)
    stGid := atoi (cstr gid) }

/-- The Finder information of a directory line, decoded over `pi_afinfo`. -/
def parseFinfo (afinfo : List Byte) (word : List Byte) : Except Exit (List Byte) :=
  match base64D (cstr word) with
  | none => .error .overrun
  | some d => if d.length > afinfoLen then .error .overrun else .ok (d ++ afinfo.drop d.length)

/-- The switch of `transcript_parse`: the fields after the name. -/
def parseFields (cfg : ParseConfig) (buf file : List Byte) (linenum : Nat) (tType : TType)
    (pi : PathInfo) (type : FileType) (argv : List (List Byte)) :
    Except Exit (PathInfo × List Byte) :=
  let expected (ns : List Nat) : Except Exit (PathInfo × List Byte) :=
    .error (.wrongArguments file linenum ns argv.length)
  match type with
  | .d =>
    match argv with
    | [_, _, mode, uid, gid, finfo] =>
      match parseFinfo pi.piAfinfo finfo with
      | .error e => .error e
      | .ok afinfo =>
        .ok ({ pi with piStat := parseOwner pi.piStat mode uid gid, piAfinfo := afinfo }, buf)
    | [_, _, mode, uid, gid] =>
      .ok ({ pi with
        piStat := parseOwner pi.piStat mode uid gid
        piAfinfo := List.replicate finfoLen 0 ++ pi.piAfinfo.drop finfoLen }, buf)
    | _ => expected [5, 6]
  | .p | .D | .s =>
    match argv with
    | [_, _, mode, uid, gid] =>
      .ok ({ pi with piStat := parseOwner pi.piStat mode uid gid }, buf)
    | _ => expected [5]
  | .b | .c =>
    match argv with
    | [_, _, mode, uid, gid, maj, min] =>
      .ok ({ pi with
        piStat := { parseOwner pi.piStat mode uid gid with
          stRdev := makedev (atoi (cstr maj)) (atoi (cstr min)) } }, buf)
    | _ => expected [7]
  | .l =>
    match argv with
    | [_, _, target] =>
      match decodeWord (.targetTooLong file linenum) buf (some target) with
      | .error e => .error e
      | .ok (link, buf) =>
        .ok ({ pi with
          piStat := { pi.piStat with stMode := 0o777, stUid := 0, stGid := 0 }
          piLink := link }, buf)
    | [_, _, mode, uid, gid, target] =>
      match decodeWord (.targetTooLong file linenum) buf (some target) with
      | .error e => .error e
      | .ok (link, buf) =>
        .ok ({ pi with piStat := parseOwner pi.piStat mode uid gid, piLink := link }, buf)
    | _ => expected [3, 6]
  | .h =>
    match argv with
    | [_, _, target] =>
      match decodePath cfg.tranFormat (.targetTooLong file linenum) (.pathTooLong file linenum) buf
          (some target) with
      | .error e => .error e
      | .ok (link, buf) => .ok ({ pi with piLink := link }, buf)
    | _ => expected [3]
  | .a | .f =>
    match argv with
    | [_, _, mode, uid, gid, mtime, size, cksum] =>
      if tType ≠ .negative ∧ cfg.cksum ∧ cstr cksum = [minus] then
        .error (.noCksums file linenum)
      else
        .ok ({ pi with
          piStat := { parseOwner pi.piStat mode uid gid with
            stMtime := BitVec.ofInt 64 (strtol 10 (cstr mtime))
            stSize := BitVec.ofInt 64 (strtol 10 (cstr size)) }
          piCksumB64 := cstr cksum }, buf)
    | _ => expected [8]
  | .X | .unset => .error (.unknownFileType file linenum type.letter)

/-- A leading word of the one character `c` taken off. -/
def stripWord (c : Byte) (argv : List (List Byte)) : Bool × List (List Byte) :=
  match argv with
  | word :: rest => if word.head? = some c then (true, rest) else (false, argv)
  | [] => (false, [])

/-- `transcript_parse` on the words of a line. -/
def parseLine (cfg : ParseConfig) (buf file : List Byte) (linenum : Nat) (tType : TType)
    (pi : PathInfo) (argv : List (List Byte)) : Except Exit (PathInfo × List Byte) :=
  if argv.length < 3 then .error (.tooFewArguments file linenum argv.length)
  else if strlen (argv.headD []) ≠ 1 then .error (.typeTooLong file linenum (cstr (argv.headD [])))
  else
    let (isMinus, argv) := stripWord minus argv
    let (_, argv) := stripWord plus argv
    let letter := (argv.headD []).headD nul
    match decodePath cfg.tranFormat (.pathTooLong file linenum) (.pathTooLong file linenum) buf
        argv[1]? with
    | .error e => .error e
    | .ok (name, buf) =>
      if pathcasecmp name pi.piName cfg.caseSensitive ≤ 0 then .error (.badSortOrder file linenum)
      else
        match FileType.ofLetter letter with
        | none => .error (.unknownFileType file linenum letter)
        | some type =>
          parseFields cfg buf file linenum tType
            { pi with piMinus := isMinus, piType := type, piName := name } type argv

/-- `transcript_parse`, with the static buffer of `decode`.  The NULL transcript
has no file. -/
def transcriptParse (cfg : ParseConfig) (buf : List Byte) (tran : Transcript) :
    Except Exit (Transcript × List Byte) :=
  if tran.tType = .null then .error .overrun
  else
    match readLine tran.tFullname tran.tIn.length tran.tLinenum tran.tIn with
    | .error e => .error e
    | .ok (none, linenum, rest) =>
      .ok ({ tran with tEof := true, tLinenum := linenum, tIn := rest }, buf)
    | .ok (some argv, linenum, rest) =>
      match parseLine cfg buf tran.tFullname linenum tran.tType tran.tPinfo argv with
      | .error e => .error e
      | .ok (pi, buf) => .ok ({ tran with tPinfo := pi, tLinenum := linenum, tIn := rest }, buf)

/-- `t_new`: a transcript opened and moved to its first line. -/
def tNew (cfg : ParseConfig) (buf : List Byte) (type : TType) (fullname shortname : CStr)
    (content : List Byte) : Except Exit (Transcript × List Byte) :=
  transcriptParse cfg buf
    { tPinfo := .zero, tType := type, tFullname := fullname, tShortname := shortname,
      tLinenum := 0, tEof := false, tIn := content }

/-- The transcript that ends the list. -/
def nullTranscript : Transcript :=
  { tPinfo := .zero, tType := .null, tFullname := [], tShortname := [], tLinenum := 0,
    tEof := true, tIn := [] }

/-! ## What one call does -/

theorem length_readBytes_lt {n : Nat} (hn : 0 < n) {input : List Byte} (hne : input ≠ []) :
    (readBytes n input).2.length < input.length := by
  induction input generalizing n with
  | nil => exact absurd rfl hne
  | cons c input ih =>
    obtain ⟨n, rfl⟩ : ∃ m, n = m + 1 := ⟨n - 1, by omega⟩
    rw [readBytes]
    split
    · exact Nat.lt_succ_self _
    · cases n with
      | zero => simp [readBytes]
      | succ n =>
        cases input with
        | nil => simp [readBytes]
        | cons d input =>
          have := ih (n := n + 1) (by omega) (by simp)
          simp only [List.length_cons] at this ⊢
          omega

theorem length_fgets_lt {n : Nat} (hn : 1 < n) {input line rest : List Byte}
    (h : fgets n input = some (line, rest)) : rest.length < input.length := by
  unfold fgets at h
  split at h
  · exact absurd h (by simp)
  · next hne =>
    obtain rfl : (readBytes (n - 1) input).2 = rest := congrArg Prod.snd (Option.some.inj h)
    exact length_readBytes_lt (by omega) hne

/-- `readLine` ends with the file or uses up bytes of it. -/
theorem readLine_spec {file : CStr} {fuel linenum linenum' : Nat} {input rest : List Byte}
    {r : Option (List (List Byte))} (hfuel : input.length ≤ fuel)
    (h : readLine file fuel linenum input = .ok (r, linenum', rest)) :
    (r = none → rest = []) ∧ (∀ argv, r = some argv → rest.length < input.length) := by
  induction fuel generalizing linenum input with
  | zero =>
    have hnil : input = [] := List.length_eq_zero_iff.mp (by omega)
    simp only [readLine, Except.ok.injEq, Prod.mk.injEq] at h
    exact ⟨fun _ => by rw [← h.2.2, hnil], fun argv e => by simp [← h.1] at e⟩
  | succ fuel ih =>
    rw [readLine] at h
    cases hg : fgets maxPathLen input with
    | none =>
      have hnil : input = [] := by
        unfold fgets at hg
        split at hg
        · assumption
        · exact absurd hg (by simp)
      simp only [hg, Except.ok.injEq, Prod.mk.injEq] at h
      exact ⟨fun _ => by rw [← h.2.2, hnil], fun argv e => by simp [← h.1] at e⟩
    | some p =>
      obtain ⟨line, rest'⟩ := p
      have hlt := length_fgets_lt (by decide) hg
      simp only [hg] at h
      split at h
      · exact absurd h (by simp)
      split at h
      · exact absurd h (by simp)
      have hrec : ∀ {n}, readLine file fuel n rest' = .ok (r, linenum', rest) →
          (r = none → rest = []) ∧ (∀ argv, r = some argv → rest.length < input.length) :=
        fun h => ⟨(ih (by omega) h).1, fun argv e => by
          have := (ih (by omega) h).2 argv e
          omega⟩
      split at h
      · exact hrec h
      · split at h
        · exact hrec h
        · simp only [Except.ok.injEq, Prod.mk.injEq] at h
          exact ⟨fun e => by simp [← h.1] at e, fun argv e => by rw [← h.2.2]; exact hlt⟩

theorem readLine_nil (file : CStr) (linenum : Nat) :
    readLine file 0 linenum [] = .ok (none, linenum, []) := rfl

theorem decode_nulFree {buf mem path buf' : List Byte} (h : decode buf mem = (some path, buf')) :
    NulFree path := by
  unfold decode at h
  split at h
  · exact absurd h (by simp)
  · obtain ⟨line, -, rfl⟩ := Option.map_eq_some_iff.mp (congrArg Prod.fst h)
    exact nulFree_cstr line

theorem convertPathType_nulFree {format : TranFormat} {path path' : CStr} (hp : NulFree path)
    (h : convertPathType format path = some path') : NulFree path' := by
  unfold convertPathType at h
  split at h
  · split_ifs at h <;> (obtain rfl := Option.some.inj h; first | exact hp | decide)
  · simp only at h
    have htail : NulFree path.tail := fun hm => hp (List.mem_of_mem_tail hm)
    have hslash : NulFree (slash :: path) := nulFree_cons.mpr ⟨by decide, hp⟩
    have hdot : NulFree (dot :: path) := nulFree_cons.mpr ⟨by decide, hp⟩
    split_ifs at h <;> (obtain rfl := Option.some.inj h; assumption)

theorem decodePath_nulFree {format : TranFormat} {e e' : Exit} {buf buf' : List Byte}
    {word : Option (List Byte)} {path : CStr}
    (h : decodePath format e e' buf word = .ok (path, buf')) : NulFree path := by
  unfold decodePath decodeWord at h
  cases word with
  | none => exact absurd h (by simp)
  | some mem =>
    simp only at h
    cases hd : decode buf mem with
    | mk r buf₁ =>
      cases r with
      | none => simp [hd] at h
      | some p =>
        simp only [hd] at h
        split at h
        · exact absurd h (by simp)
        · next hc =>
          obtain ⟨rfl, rfl⟩ := Prod.mk.inj (Except.ok.inj h)
          exact convertPathType_nulFree (decode_nulFree hd) hc

/-- The fields after the name leave the name and the sign of the record. -/
theorem parseFields_name {cfg : ParseConfig} {buf file buf' : List Byte} {linenum : Nat}
    {tType : TType} {pi pi' : PathInfo} {type : FileType} {argv : List (List Byte)}
    (h : parseFields cfg buf file linenum tType pi type argv = .ok (pi', buf')) :
    pi'.piName = pi.piName ∧ pi'.piMinus = pi.piMinus ∧ pi'.piType = pi.piType := by
  unfold parseFields at h
  have hok : ∀ {q : PathInfo} {b : List Byte},
      (Except.ok (q, b) : Except Exit (PathInfo × List Byte)) = .ok (pi', buf') → q = pi' :=
    fun h => (Prod.mk.inj (Except.ok.inj h)).1
  -- every branch is an error or an update of the other fields
  cases type
  case X => simp at h
  case unset => simp at h
  all_goals
    simp only at h
    split at h
  all_goals try split at h
  all_goals first
    | exact hok h ▸ ⟨rfl, rfl, rfl⟩
    | simp at h

theorem parseLine_spec {cfg : ParseConfig} {buf file buf' : List Byte} {linenum : Nat}
    {tType : TType} {pi pi' : PathInfo} {argv : List (List Byte)}
    (h : parseLine cfg buf file linenum tType pi argv = .ok (pi', buf')) :
    NulFree pi'.piName ∧ 0 < pathcasecmp pi'.piName pi.piName cfg.caseSensitive := by
  unfold parseLine at h
  split at h
  · exact absurd h (by simp)
  split at h
  · exact absurd h (by simp)
  simp only at h
  split at h
  · exact absurd h (by simp)
  next name buf₁ hname =>
  split at h
  · exact absurd h (by simp)
  next hcmp =>
  split at h
  · exact absurd h (by simp)
  next type _ =>
  obtain ⟨hn, -, -⟩ := parseFields_name h
  rw [hn]
  exact ⟨decodePath_nulFree hname, by simpa using hcmp⟩

/-- A call reaches the end of the file, or a line that sorts after the last one. -/
theorem transcriptParse_cases {cfg : ParseConfig} {buf buf' : List Byte} {tran tran' : Transcript}
    (h : transcriptParse cfg buf tran = .ok (tran', buf')) :
    tran'.file = tran.file ∧ tran.tType ≠ .null ∧
      ((tran'.tEof = true ∧ tran'.tIn = [] ∧ tran'.tPinfo = tran.tPinfo ∧ buf' = buf) ∨
        (tran'.tEof = tran.tEof ∧ tran'.tIn.length < tran.tIn.length ∧
          NulFree tran'.tPinfo.piName ∧
          0 < pathcasecmp tran'.tPinfo.piName tran.tPinfo.piName cfg.caseSensitive)) := by
  unfold transcriptParse at h
  split at h
  · exact absurd h (by simp)
  next hnull =>
  split at h
  · exact absurd h (by simp)
  · next linenum rest hread =>
    obtain ⟨rfl, rfl⟩ := Prod.mk.inj (Except.ok.inj h)
    exact ⟨rfl, hnull, .inl ⟨rfl, (readLine_spec le_rfl hread).1 rfl, rfl, rfl⟩⟩
  · next argv linenum rest hread =>
    split at h
    · exact absurd h (by simp)
    · next pi buf₁ hline =>
      obtain ⟨rfl, rfl⟩ := Prod.mk.inj (Except.ok.inj h)
      exact ⟨rfl, hnull,
        .inr ⟨rfl, (readLine_spec le_rfl hread).2 argv rfl, parseLine_spec hline⟩⟩

/-- A transcript at its end stays as it is. -/
theorem transcriptParse_eof {cfg : ParseConfig} {tran : Transcript} (hnull : tran.tType ≠ .null)
    (heof : tran.tEof = true) (hin : tran.tIn = []) (buf : List Byte) :
    transcriptParse cfg buf tran = .ok (tran, buf) := by
  cases tran
  simp only at heof hin
  subst heof hin
  simp only [transcriptParse, if_neg hnull, List.length_nil, readLine_nil]

/-- No message of `transcript_parse` is the model's own mark for lack of fuel. -/
theorem readLine_ne_outOfFuel (file : CStr) (fuel linenum : Nat) (input : List Byte) :
    readLine file fuel linenum input ≠ .error .outOfFuel := by
  induction fuel generalizing linenum input with
  | zero => simp [readLine]
  | succ fuel ih =>
    rw [readLine]
    split
    · simp
    · split_ifs
      · simp
      · simp
      · split
        · exact ih _ _
        · split_ifs
          · exact ih _ _
          · simp

theorem decodeWord_error {e x : Exit} {buf : List Byte} {word : Option (List Byte)}
    (h : decodeWord e buf word = .error x) : x = .overrun ∨ x = e := by
  unfold decodeWord at h
  cases word with
  | none => exact .inl (Except.error.inj h).symm
  | some mem =>
    simp only at h
    split at h
    · exact .inr (Except.error.inj h).symm
    · simp at h

theorem decodePath_error {format : TranFormat} {e e' x : Exit} {buf : List Byte}
    {word : Option (List Byte)} (h : decodePath format e e' buf word = .error x) :
    x = .overrun ∨ x = e ∨ x = e' := by
  unfold decodePath at h
  split at h
  · next y hy =>
    obtain rfl := Except.error.inj h
    exact (decodeWord_error hy).imp_right .inl
  · split at h
    · exact .inr (.inr (Except.error.inj h).symm)
    · simp at h

theorem parseFinfo_error {afinfo word : List Byte} {x : Exit}
    (h : parseFinfo afinfo word = .error x) : x = .overrun := by
  unfold parseFinfo at h
  split at h
  · exact (Except.error.inj h).symm
  · split at h
    · exact (Except.error.inj h).symm
    · simp at h

/-- The errors of the switch are about the fields. -/
theorem parseFields_error {cfg : ParseConfig} {buf file : List Byte} {linenum : Nat}
    {tType : TType} {pi : PathInfo} {type : FileType} {argv : List (List Byte)} {x : Exit}
    (h : parseFields cfg buf file linenum tType pi type argv = .error x) :
    x ≠ .outOfFuel ∧ ∀ f n, x ≠ .badSortOrder f n := by
  unfold parseFields at h
  cases type
  case X => simp only [Except.error.injEq] at h; simp [← h]
  case unset => simp only [Except.error.injEq] at h; simp [← h]
  all_goals
    simp only at h
    split at h
  all_goals try split at h
  -- the two errors handed on come from decoding a link target or from base64
  all_goals first
    | simp at h; done
    | simp only [Except.error.injEq] at h; simp [← h]; done
    | next hx =>
      obtain rfl := Except.error.inj h
      first
      | (have hx := parseFinfo_error hx; simp [hx])
      | (have hx := decodeWord_error hx; rcases hx with hx | hx <;> simp [hx])
      | (have hx := decodePath_error hx; rcases hx with hx | hx | hx <;> simp [hx])

theorem parseFields_ne_outOfFuel (cfg : ParseConfig) (buf file : List Byte) (linenum : Nat)
    (tType : TType) (pi : PathInfo) (type : FileType) (argv : List (List Byte)) :
    parseFields cfg buf file linenum tType pi type argv ≠ .error .outOfFuel :=
  fun h => (parseFields_error h).1 rfl

theorem transcriptParse_ne_outOfFuel (cfg : ParseConfig) (buf : List Byte) (tran : Transcript) :
    transcriptParse cfg buf tran ≠ .error .outOfFuel := by
  intro h
  unfold transcriptParse at h
  split at h
  · simp at h
  split at h
  · next e hread =>
    obtain rfl := Except.error.inj h
    exact readLine_ne_outOfFuel _ _ _ _ hread
  · simp at h
  · split at h
    · next e hline =>
      obtain rfl := Except.error.inj h
      unfold parseLine at hline
      split at hline
      · simp at hline
      split at hline
      · simp at hline
      simp only at hline
      split at hline
      · next hname =>
        obtain rfl := Except.error.inj hline
        rcases decodePath_error hname with hx | hx | hx <;> simp at hx
      split at hline
      · simp at hline
      split at hline
      · simp at hline
      · exact parseFields_ne_outOfFuel _ _ _ _ _ _ _ _ hline
    · simp at h

end Radmind
