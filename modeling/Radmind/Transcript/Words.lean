import Radmind.Transcript.Parse

/-!
# Missing words in transcript_parse

The readers of transcripts check the number of words on a line, and take signs off it.  Here
each of them reads its words by number, as the source does, and a word at or beyond the end of
the line is an error of its own.
-/

namespace Radmind

/-- The word with this number.  The error `none` is for a word that is not there. -/
def arg {ε α : Type} {m : Type → Type} [Monad m] [MonadExcept (Option ε) m] (argv : List α)
    (i : Nat) : m α :=
  match argv[i]? with
  | some word => pure word
  | none => throw none

/-- `parseOwner` of the words 2, 3 and 4. -/
def parseOwnerW (st : Stat) (argv : List (List Byte)) : Except (Option Exit) Stat := do
  let mode ← arg argv 2
  let uid ← arg argv 3
  let gid ← arg argv 4
  return parseOwner st mode uid gid

/-- `parseFields` by numbers. -/
def parseFieldsW (cfg : ParseConfig) (buf file : List Byte) (linenum : Nat) (tType : TType)
    (pi : PathInfo) (type : FileType) (argv : List (List Byte)) :
    Except (Option Exit) (PathInfo × List Byte) :=
  let ac := argv.length
  let expected (ns : List Nat) : Except (Option Exit) (PathInfo × List Byte) :=
    .error (some (.wrongArguments file linenum ns ac))
  match type with
  | .d =>
    if ac ≠ 5 ∧ ac ≠ 6 then expected [5, 6]
    else do
      let st ← parseOwnerW pi.piStat argv
      if ac = 6 then
        let afinfo ← (parseFinfo pi.piAfinfo (← arg argv 5)).mapError some
        return ({ pi with piStat := st, piAfinfo := afinfo }, buf)
      else
        return ({ pi with
          piStat := st, piAfinfo := List.replicate finfoLen 0 ++ pi.piAfinfo.drop finfoLen }, buf)
  | .p | .D | .s =>
    if ac ≠ 5 then expected [5]
    else do
      let st ← parseOwnerW pi.piStat argv
      return ({ pi with piStat := st }, buf)
  | .b | .c =>
    if ac ≠ 7 then expected [7]
    else do
      let st ← parseOwnerW pi.piStat argv
      let maj ← arg argv 5
      let min ← arg argv 6
      return ({ pi with
        piStat := { st with stRdev := makedev (atoi (cstr maj)) (atoi (cstr min)) } }, buf)
  | .l =>
    if ac = 3 then do
      let target ← arg argv (ac - 1)
      let (link, buf) ←
        (decodeWord (.targetTooLong file linenum) buf (some target)).mapError some
      return ({ pi with
        piStat := { pi.piStat with stMode := 0o777, stUid := 0, stGid := 0 }, piLink := link }, buf)
    else if ac = 6 then do
      let st ← parseOwnerW pi.piStat argv
      let target ← arg argv (ac - 1)
      let (link, buf) ←
        (decodeWord (.targetTooLong file linenum) buf (some target)).mapError some
      return ({ pi with piStat := st, piLink := link }, buf)
    else expected [3, 6]
  | .h =>
    if ac ≠ 3 then expected [3]
    else do
      let target ← arg argv 2
      let (link, buf) ← (decodePath cfg.tranFormat (.targetTooLong file linenum)
        (.pathTooLong file linenum) buf (some target)).mapError some
      return ({ pi with piLink := link }, buf)
  | .a | .f =>
    if ac ≠ 8 then expected [8]
    else do
      let st ← parseOwnerW pi.piStat argv
      let mtime ← arg argv 5
      let size ← arg argv 6
      let cksum ← arg argv 7
      if tType ≠ .negative ∧ cfg.cksum ∧ cstr cksum = [minus] then
        throw (some (.noCksums file linenum))
      else
        return ({ pi with
          piStat := { st with
            stMtime := BitVec.ofInt 64 (strtol 10 (cstr mtime))
            stSize := BitVec.ofInt 64 (strtol 10 (cstr size)) }
          piCksumB64 := cstr cksum }, buf)
  | .X | .unset => .error (some (.unknownFileType file linenum type.letter))

/-- `stripWord` by numbers: `argv++` where the first word begins with the sign. -/
def stripWordW (c : Byte) (argv : List (List Byte)) :
    Except (Option Exit) (Bool × List (List Byte)) := do
  let word ← arg argv 0
  if word.head? = some c then return (true, argv.tail) else return (false, argv)

/-- The part of `parseLine` behind the signs, by numbers. -/
def parseNamedW (cfg : ParseConfig) (buf file : List Byte) (linenum : Nat) (tType : TType)
    (pi : PathInfo) (isMinus : Bool) (argv : List (List Byte)) :
    Except (Option Exit) (PathInfo × List Byte) := do
  let word ← arg argv 0
  let name ← arg argv 1
  let (name, buf) ← (decodePath cfg.tranFormat (.pathTooLong file linenum)
    (.pathTooLong file linenum) buf (some name)).mapError some
  if pathcasecmp name pi.piName cfg.caseSensitive ≤ 0 then throw (some (.badSortOrder file linenum))
  else
    match FileType.ofLetter (word.headD nul) with
    | none => throw (some (.unknownFileType file linenum (word.headD nul)))
    | some type =>
      parseFieldsW cfg buf file linenum tType
        { pi with piMinus := isMinus, piType := type, piName := name } type argv

/-- `parseLine` by numbers. -/
def parseLineW (cfg : ParseConfig) (buf file : List Byte) (linenum : Nat) (tType : TType)
    (pi : PathInfo) (argv : List (List Byte)) : Except (Option Exit) (PathInfo × List Byte) :=
  if argv.length < 3 then .error (some (.tooFewArguments file linenum argv.length))
  else do
    let word ← arg argv 0
    if strlen word ≠ 1 then throw (some (.typeTooLong file linenum (cstr word)))
    else
      let (isMinus, argv) ← stripWordW minus argv
      let (_, argv) ← stripWordW plus argv
      parseNamedW cfg buf file linenum tType pi isMinus argv

/-- Where the number of words is right for the type, every field is there. -/
theorem parseFieldsW_eq (cfg : ParseConfig) (buf file : List Byte) (linenum : Nat) (tType : TType)
    (pi : PathInfo) (type : FileType) (argv : List (List Byte)) :
    parseFieldsW cfg buf file linenum tType pi type argv =
      (parseFields cfg buf file linenum tType pi type argv).mapError some := by
  cases type with
  | d =>
    rcases argv with _ | ⟨_, _ | ⟨_, _ | ⟨mode, _ | ⟨uid, _ | ⟨gid, _ | ⟨finfo, _ | _⟩⟩⟩⟩⟩⟩
    iterate 6 rfl
    · change ((parseFinfo pi.piAfinfo finfo).mapError some >>= fun afinfo => _) = _
      simp only [parseFields]
      cases parseFinfo pi.piAfinfo finfo <;> rfl
    · simp [parseFieldsW, parseFields, Except.mapError]
  | p | D | s =>
    rcases argv with _ | ⟨_, _ | ⟨_, _ | ⟨_, _ | ⟨_, _ | ⟨_, _ | _⟩⟩⟩⟩⟩
    iterate 6 rfl
    simp [parseFieldsW, parseFields, Except.mapError]
  | b | c =>
    rcases argv with _ | ⟨_, _ | ⟨_, _ | ⟨_, _ | ⟨_, _ | ⟨_, _ | ⟨_, _ | ⟨_, _ | _⟩⟩⟩⟩⟩⟩⟩
    iterate 8 rfl
    simp [parseFieldsW, parseFields, Except.mapError]
  | l =>
    rcases argv with _ | ⟨_, _ | ⟨_, _ | ⟨target, _ | ⟨gid, _ | ⟨_, _ | ⟨target', _ | _⟩⟩⟩⟩⟩⟩
    iterate 3 rfl
    · change ((decodeWord (.targetTooLong file linenum) buf (some target)).mapError some >>= _) = _
      simp only [parseFields]
      cases decodeWord (.targetTooLong file linenum) buf (some target) <;> rfl
    iterate 2 rfl
    · change ((decodeWord (.targetTooLong file linenum) buf (some target')).mapError some >>= _) = _
      simp only [parseFields]
      cases decodeWord (.targetTooLong file linenum) buf (some target') <;> rfl
    · simp [parseFieldsW, parseFields, Except.mapError]
  | h =>
    rcases argv with _ | ⟨_, _ | ⟨_, _ | ⟨target, _ | _⟩⟩⟩
    iterate 3 rfl
    · change ((decodePath cfg.tranFormat (.targetTooLong file linenum)
        (.pathTooLong file linenum) buf (some target)).mapError some >>= _) = _
      simp only [parseFields]
      cases decodePath cfg.tranFormat (.targetTooLong file linenum)
        (.pathTooLong file linenum) buf (some target) <;> rfl
    · simp [parseFieldsW, parseFields, Except.mapError]
  | a | f =>
    rcases argv with _ | ⟨_, _ | ⟨_, _ | ⟨_, _ | ⟨_, _ | ⟨_, _ | ⟨_, _ | ⟨_, _ | ⟨cksum, _ | _⟩⟩⟩⟩⟩⟩⟩⟩
    iterate 8 rfl
    · by_cases h : tType ≠ .negative ∧ cfg.cksum ∧ cstr cksum = [minus]
      · simp only [parseFields, if_pos h]
        exact if_pos h
      · simp only [parseFields, if_neg h]
        exact if_neg h
    · simp [parseFieldsW, parseFields, Except.mapError]
  | X | unset => rfl

/-- Three words with two signs before them: the path is not there. -/
def ParseMisses (argv : List (List Byte)) : Prop :=
  ∃ sign next last, argv = [sign, next, last] ∧ strlen sign = 1 ∧ sign.head? = some minus ∧
    next.head? = some plus

section

variable (cfg : ParseConfig) (buf file : List Byte) (linenum : Nat) (tType : TType) (pi : PathInfo)
  (isMinus : Bool)

theorem mapError_some_ne {α : Type} (x : Except Exit α) : x.mapError some ≠ .error none := by
  cases x <;> simp [Except.mapError]

theorem mapError_getD {α : Type} (x : Except Exit α) :
    (x.mapError some).mapError (·.getD .overrun) = x := by
  cases x <;> rfl

/-- Behind the signs two words are needed, and then no more are missed. -/
theorem parseNamedW_misses (argv : List (List Byte)) :
    parseNamedW cfg buf file linenum tType pi isMinus argv = .error none ↔ argv.length < 2 := by
  match argv with
  | [] => exact ⟨fun _ => by decide, fun _ => rfl⟩
  | [_] => exact ⟨fun _ => Nat.lt_succ_self 1, fun _ => rfl⟩
  | word :: name :: rest =>
    refine ⟨fun h => absurd h ?_, fun h => absurd h (by simp)⟩
    change ((decodePath cfg.tranFormat (.pathTooLong file linenum) (.pathTooLong file linenum) buf
      (some name)).mapError some >>= _) ≠ _
    cases decodePath cfg.tranFormat (.pathTooLong file linenum) (.pathTooLong file linenum) buf
      (some name) with
    | error e => exact fun h => Option.some_ne_none e (Except.error.inj h)
    | ok r =>
      change (if pathcasecmp r.1 pi.piName cfg.caseSensitive ≤ 0 then _ else _) ≠ _
      split_ifs
      · exact fun h => Option.some_ne_none _ (Except.error.inj h)
      · cases FileType.ofLetter (word.headD nul) with
        | none => exact fun h => Option.some_ne_none _ (Except.error.inj h)
        | some type =>
          dsimp only
          rw [parseFieldsW_eq]
          exact mapError_some_ne _

theorem stripWordW_cons (c : Byte) (word : List Byte) (rest : List (List Byte)) :
    stripWordW c (word :: rest) = .ok (stripWord c (word :: rest)) := by
  by_cases h : word.head? = some c
  · simp only [stripWord, if_pos h]
    exact if_pos h
  · simp only [stripWord, if_neg h]
    exact if_neg h

theorem stripWord_length (c : Byte) (word : List Byte) (rest : List (List Byte)) :
    rest.length ≤ (stripWord c (word :: rest)).2.length := by
  simp only [stripWord]
  split_ifs <;> simp

/-- The words behind the signs of a line of three words or more. -/
theorem parseLineW_signs {word next last : List Byte} {rest : List (List Byte)}
    (hone : strlen word = 1) :
    parseLineW cfg buf file linenum tType pi (word :: next :: last :: rest) =
      parseNamedW cfg buf file linenum tType pi
        (stripWord minus (word :: next :: last :: rest)).1
        (stripWord plus (stripWord minus (word :: next :: last :: rest)).2).2 := by
  have hlen : ¬ (word :: next :: last :: rest).length < 3 := by simp
  rw [parseLineW, if_neg hlen]
  change (if strlen word ≠ 1 then _ else _) = _
  rw [if_neg (not_not.mpr hone), stripWordW_cons]
  by_cases hminus : word.head? = some minus
  · have hstrip : stripWord minus (word :: next :: last :: rest) = (true, next :: last :: rest) :=
      if_pos hminus
    rw [hstrip]
    change (stripWordW plus (next :: last :: rest) >>= _) = _
    rw [stripWordW_cons]
    rfl
  · have hstrip : stripWord minus (word :: next :: last :: rest) =
        (false, word :: next :: last :: rest) := if_neg hminus
    rw [hstrip]
    change (stripWordW plus (word :: next :: last :: rest) >>= _) = _
    rw [stripWordW_cons]
    rfl

/-- `transcript_parse` misses a word on three words with two signs only. -/
theorem parseLineW_misses (argv : List (List Byte)) :
    parseLineW cfg buf file linenum tType pi argv = .error none ↔ ParseMisses argv := by
  match argv with
  | [] | [_] | [_, _] =>
    refine ⟨fun h => absurd (Except.error.inj h) (Option.some_ne_none _), fun h => ?_⟩
    obtain ⟨_, _, _, h, -⟩ := h
    cases h
  | word :: next :: last :: rest =>
    by_cases hone : strlen word = 1
    · rw [parseLineW_signs cfg buf file linenum tType pi hone, parseNamedW_misses]
      constructor
      · intro h
        by_cases hminus : word.head? = some minus
        · by_cases hplus : next.head? = some plus
          · simp [stripWord, hminus, hplus] at h
            exact ⟨word, next, last, by rw [h], hone, hminus, hplus⟩
          · simp [stripWord, hminus, hplus] at h
        · have hle := stripWord_length plus word (next :: last :: rest)
          simp only [stripWord, if_neg hminus, List.length_cons] at h hle
          omega
      · rintro ⟨_, _, _, h, -, hminus, hplus⟩
        cases h
        simp [stripWord, hminus, hplus]
    · have hlong : parseLineW cfg buf file linenum tType pi (word :: next :: last :: rest) =
          .error (some (.typeTooLong file linenum (cstr word))) := if_pos hone
      rw [hlong]
      refine ⟨fun h => absurd (Except.error.inj h) (Option.some_ne_none _), fun h => ?_⟩
      obtain ⟨_, _, _, h, hsign, -⟩ := h
      exact absurd ((List.cons.inj h).1 ▸ hsign) hone

/-- What a line without an end of its words does behind the signs. -/
theorem parseNamedW_eq (argv : List (List Byte)) :
    (parseNamedW cfg buf file linenum tType pi isMinus argv).mapError (·.getD .overrun) =
      match decodePath cfg.tranFormat (.pathTooLong file linenum) (.pathTooLong file linenum) buf
        argv[1]? with
      | .error e => .error e
      | .ok (name, buf) =>
        if pathcasecmp name pi.piName cfg.caseSensitive ≤ 0 then .error (.badSortOrder file linenum)
        else
          match FileType.ofLetter ((argv.headD []).headD nul) with
          | none => .error (.unknownFileType file linenum ((argv.headD []).headD nul))
          | some type =>
            parseFields cfg buf file linenum tType
              { pi with piMinus := isMinus, piType := type, piName := name } type argv := by
  match argv with
  | [] | [_] => rfl
  | word :: name :: rest =>
    change Except.mapError _ ((decodePath cfg.tranFormat (.pathTooLong file linenum)
      (.pathTooLong file linenum) buf (some name)).mapError some >>= _) =
      match decodePath cfg.tranFormat (.pathTooLong file linenum) (.pathTooLong file linenum) buf
        (some name) with
      | .error e => .error e
      | .ok (name, buf) => _
    cases decodePath cfg.tranFormat (.pathTooLong file linenum) (.pathTooLong file linenum) buf
      (some name) with
    | error e => rfl
    | ok r =>
      change Except.mapError _ (if pathcasecmp r.1 pi.piName cfg.caseSensitive ≤ 0 then _ else _) =
        if pathcasecmp r.1 pi.piName cfg.caseSensitive ≤ 0 then _ else _
      split_ifs
      · rfl
      · cases hletter : FileType.ofLetter (word.headD nul) with
        | none => simp only [List.headD_cons, hletter]; rfl
        | some type =>
          simp only [List.headD_cons, hletter]
          rw [parseFieldsW_eq, mapError_getD]

/-- The reader by numbers is `parseLine`. -/
theorem parseLineW_eq (argv : List (List Byte)) :
    (parseLineW cfg buf file linenum tType pi argv).mapError (·.getD .overrun) =
      parseLine cfg buf file linenum tType pi argv := by
  match argv with
  | [] | [_] | [_, _] => rfl
  | word :: next :: last :: rest =>
    have hlen : ¬ (word :: next :: last :: rest).length < 3 := by simp
    by_cases hone : strlen word = 1
    · rw [parseLineW_signs cfg buf file linenum tType pi hone, parseNamedW_eq, parseLine,
        if_neg hlen]
      exact (if_neg (not_not.mpr hone)).symm
    · have hlong : parseLineW cfg buf file linenum tType pi (word :: next :: last :: rest) =
          .error (some (.typeTooLong file linenum (cstr word))) := if_pos hone
      rw [hlong, parseLine, if_neg hlen]
      exact (if_pos hone).symm

end

end Radmind
