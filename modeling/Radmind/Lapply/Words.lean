import Radmind.Lapply.Reach
import Radmind.Lmerge.Merge
import Radmind.Transcript.Words

/-!
# Missing words in lapply and lmerge

The loop of `lapply`, `do_line` and `getnextline` take a sign off a line and then read its
words, with other checks than `transcript_parse`.
-/

namespace Radmind

/-- The rest of a reader, which reads no words. -/
def wordless {σ α : Type} (x : Lapply σ α) : EStateM (Option Failure) (World σ) α :=
  EStateM.adaptExcept some x

/-- A reader as it is modelled elsewhere, where a missing word is an overrun. -/
def overrunning {σ α : Type} (x : EStateM (Option Failure) (World σ) α) : Lapply σ α :=
  EStateM.adaptExcept (·.getD .overrun) x

/-- The reader comes to a word that is not there. -/
def Misses {σ α : Type} (x : EStateM (Option Failure) (World σ) α) (w : World σ) : Prop :=
  ∃ w', x w = .error none w'

section

variable {σ α β : Type}

theorem overrunning_wordless (x : Lapply σ α) : overrunning (wordless x) = x := by
  funext w
  simp only [overrunning, wordless, EStateM.adaptExcept]
  cases x w <;> rfl

theorem overrunning_bind (x : EStateM (Option Failure) (World σ) α)
    (f : α → EStateM (Option Failure) (World σ) β) :
    overrunning (x >>= f) = overrunning x >>= fun a => overrunning (f a) := by
  funext w
  simp only [overrunning, EStateM.adaptExcept, bind, EStateM.bind]
  cases x w <;> rfl

theorem not_misses_wordless (x : Lapply σ α) (w : World σ) : ¬ Misses (wordless x) w := by
  rintro ⟨w', h⟩
  simp only [wordless, EStateM.adaptExcept] at h
  cases hx : x w with
  | ok a w'' =>
    rw [hx] at h
    cases h
  | error e w'' =>
    rw [hx] at h
    cases h

/-- Behind a part without words the rest misses a word where it is reached. -/
theorem misses_wordless_bind {x : Lapply σ α} {f : α → EStateM (Option Failure) (World σ) β}
    {w : World σ} :
    Misses (wordless x >>= f) w ↔ ∃ a w', x w = .ok a w' ∧ Misses (f a) w' := by
  simp only [Misses, wordless, bind, EStateM.bind, EStateM.adaptExcept]
  cases hx : x w with
  | ok a w' => simp
  | error e w' => simp

theorem misses_arg_bind {γ : Type} {argv : List γ} {i : Nat}
    {f : γ → EStateM (Option Failure) (World σ) β} {w : World σ} :
    Misses (arg argv i >>= f) w ↔
      argv.length ≤ i ∨ ∃ word, argv[i]? = some word ∧ Misses (f word) w := by
  unfold arg
  cases hword : argv[i]? with
  | none =>
    have hlen := List.getElem?_eq_none_iff.mp hword
    exact ⟨fun _ => .inl hlen, fun _ => ⟨w, rfl⟩⟩
  | some word =>
    have hlen : ¬ argv.length ≤ i := fun h => by
      rw [List.getElem?_eq_none_iff.mpr h] at hword
      cases hword
    simp only [hlen, false_or, Option.some.injEq, exists_eq_left']
    rfl

theorem arg_of_some {γ : Type} {argv : List γ} {i : Nat} {word : γ} (h : argv[i]? = some word) :
    (arg argv i : EStateM (Option Failure) (World σ) γ) = pure word := by
  unfold arg
  rw [h]

theorem arg_of_none {γ : Type} {argv : List γ} {i : Nat} (h : argv[i]? = none) :
    (arg argv i : EStateM (Option Failure) (World σ) γ) = throw none := by
  unfold arg
  rw [h]

end

/-! ## The loop of lapply -/

section

variable {σ : Type} (os : Os σ) (cfg : LapplyConfig)

/-- `wordsLine` by numbers.  The line has two words or more; the type is a word before the
path, and is read behind it. -/
def wordsLineW (tline : CStr) (targv : List (List Byte)) :
    EStateM (Option Failure) (World σ) Unit := do
  let word ← arg targv 0
  let targv ← wordless (takeSign word targv.tail)
  let w ← get
  if w.commandByte = plus && !w.network then return ()
  else
    let name ← arg targv 1
    let path ← wordless (decodeArg .decodeReturn (some name))
    wordless (checkOrder cfg path)
    let type ← arg targv 0
    wordless (pathLine os cfg tline path (type.headD nul))

/-- `mainLine` by numbers. -/
def mainLineW (line : List Byte) : EStateM (Option Failure) (World σ) Unit := do
  wordless countLine
  let tline := cstr line
  if tline = [] then wordless (throw .overrun)
  else if tline.getLast? ≠ some newline then
    wordless (do throw (.lineTooLong (← get).linenum))
  else
    let targv ← wordless (parseTargvline tline)
    if targv.length = 0 then return ()
    else
      let word ← arg targv 0
      -- skip blank lines and comments
      if word.head? = some hash then return ()
      else if targv.length = 1 then wordless (headerLine (cstr word))
      else wordsLineW os cfg tline targv

/-! ## do_line -/

/-- Only files and applefiles are downloaded. -/
def checkDownload (letter : Byte) : Lapply σ Unit := do
  let linenum ← currentLine
  runIf (letter ≠ 102 ∧ letter ≠ 97) (throw (.invalidDownload linenum letter))

/-- `download` by numbers. -/
def downloadW (line : Nat) (tran path : CStr) (present : Bool) (targv : List (List Byte)) :
    EStateM (Option Failure) (World σ) Unit := do
  let letter := (← arg targv 0).headD nul
  wordless (checkDownload letter)
  let cksum ← arg targv 7
  wordless (runIf (strlen cksum ≥ cksumSize) (throw .overrun))
  let name ← arg targv 1
  let desc ← wordless (requestDesc tran (cstr name))
  if letter = 97 then wordless (lostNetwork (.retrieve desc))
  else
    let size ← arg targv 6
    wordless (do
      match (← retr os cfg line desc path 0o600 (strtol 10 (cstr size)) (cstr cksum)) with
      | .lost => lostNetwork (.retrieve desc)
      | .refused => throw (.retrieve desc)
      | .file temppath => installFile os cfg temppath path present targv)

/-- `doLine` by numbers.  `update` looks at the number of words itself. -/
def doLineW (line : Nat) (tline tran : CStr) (present : Bool) :
    EStateM (Option Failure) (World σ) Unit := do
  let targv := (acavParse (tline ++ [nul])).2
  let word ← arg targv 0
  let signed : Bool := word.head? = some plus || word.head? = some minus
  let command := if signed then word.headD nul else nul
  let targv := if signed then targv.tail else targv
  let name ← arg targv 1
  let path ← wordless (decodeArg .decodeTooLong (some name))
  if command = plus then downloadW os cfg line tran path present targv
  else
    wordless (do
      runIf present (radstatOrFail os path)
      let _ ← update os cfg path present targv
      return ())

end

/-! ## Where lapply misses a word -/

section

variable {σ α β : Type}

theorem overrunning_pure (a : α) : overrunning (pure a : EStateM (Option Failure) (World σ) α) = pure a := rfl
theorem overrunning_get : overrunning (get : EStateM (Option Failure) (World σ) (World σ)) = get := rfl
theorem overrunning_missing : overrunning (throw none : EStateM (Option Failure) (World σ) α) = throw .overrun := rfl
theorem overrunning_ite (c : Prop) [Decidable c] (x y : EStateM (Option Failure) (World σ) α) :
    overrunning (if c then x else y) = if c then overrunning x else overrunning y := by
  split_ifs <;> rfl

theorem throw_overrun_bind (f : α → Lapply σ β) :
    ((throw .overrun : Lapply σ α) >>= f) = throw .overrun := rfl

variable (os : Os σ) (cfg : LapplyConfig)

theorem decodeArg_none (tooLong : Nat → Failure) :
    (decodeArg tooLong none : Lapply σ CStr) = throw .overrun := rfl

theorem wordsLineW_eq (tline : CStr) (word : List Byte) (targv : List (List Byte)) :
    overrunning (wordsLineW os cfg tline (word :: targv)) = wordsLine os cfg tline word targv := by
  rw [wordsLineW, arg_of_some (show (word :: targv)[0]? = some word from rfl), pure_bind, overrunning_bind, overrunning_wordless, wordsLine]
  refine bind_congr fun targv' => ?_
  rw [overrunning_bind, overrunning_get]
  refine bind_congr fun w => ?_
  rw [overrunning_ite]
  refine if_congr Iff.rfl rfl ?_
  match targv' with
  | [] | [_] => rfl
  | type :: name :: rest =>
    rw [arg_of_some (show (type :: name :: rest)[1]? = some name from rfl), pure_bind]
    simp only [arg_of_some (show (type :: name :: rest)[0]? = some type from rfl), pure_bind,
      overrunning_bind, overrunning_wordless]
    rfl

theorem mainLineW_eq (line : List Byte) : overrunning (mainLineW os cfg line) = mainLine os cfg line := by
  rw [mainLineW, mainLine, overrunning_bind, overrunning_wordless]
  refine bind_congr fun _ => ?_
  rw [overrunning_ite, overrunning_ite, overrunning_wordless, overrunning_wordless]
  refine if_congr Iff.rfl rfl (if_congr Iff.rfl rfl ?_)
  rw [overrunning_bind, overrunning_wordless]
  refine bind_congr fun targv => ?_
  match targv with
  | [] => rfl
  | word :: targv =>
    have hne : ¬ (word :: targv).length = 0 := Nat.succ_ne_zero _
    rw [if_neg hne, arg_of_some (show (word :: targv)[0]? = some word from rfl), pure_bind, overrunning_ite, overrunning_ite,
      overrunning_wordless, wordsLineW_eq]
    have hone : (word :: targv).length = 1 ↔ targv = [] := by simp
    exact if_congr Iff.rfl rfl (if_congr hone rfl rfl)

theorem downloadW_eq (line : Nat) (tran path : CStr) (present : Bool) (type name : List Byte)
    (rest : List (List Byte)) :
    overrunning (downloadW os cfg line tran path present (type :: name :: rest)) =
      download os cfg line tran path present (type :: name :: rest) := by
  rw [downloadW, download, arg_of_some (show (type :: name :: rest)[0]? = some type from rfl),
    pure_bind, overrunning_bind, overrunning_wordless]
  simp only [checkDownload, bind_assoc, List.headD_cons]
  refine bind_congr fun linenum => bind_congr fun _ => ?_
  cases hword : (type :: name :: rest)[7]? with
  | none =>
    rw [arg_of_none hword]
    rfl
  | some cksum =>
    have hlen : 7 < (type :: name :: rest).length := (List.getElem?_eq_some_iff.mp hword).1
    obtain ⟨size, hsize⟩ : ∃ size, (type :: name :: rest)[6]? = some size :=
      ⟨_, List.getElem?_eq_getElem (by omega)⟩
    have hcksum : (type :: name :: rest).getD 7 [] = cksum := by
      rw [List.getD_eq_getElem?_getD, hword, Option.getD_some]
    have hsizeD : (type :: name :: rest).getD 6 [] = size := by
      rw [List.getD_eq_getElem?_getD, hsize, Option.getD_some]
    have hname : (type :: name :: rest).getD 1 [] = name := rfl
    rw [arg_of_some hword, pure_bind, overrunning_bind, overrunning_wordless, hcksum, hsizeD, hname]
    refine bind_congr fun _ => ?_
    rw [arg_of_some (show (type :: name :: rest)[1]? = some name from rfl), pure_bind,
      overrunning_bind, overrunning_wordless]
    refine bind_congr fun desc => ?_
    rw [overrunning_ite, overrunning_wordless, arg_of_some hsize, pure_bind]
    exact if_congr Iff.rfl rfl (overrunning_wordless _)

/-- The part of `do_line` behind the sign. -/
theorem doWordsW_eq (line : Nat) (tran : CStr) (present : Bool) (command : Byte)
    (targv : List (List Byte)) :
    overrunning (do
        let name ← arg targv 1
        let path ← wordless (decodeArg .decodeTooLong (some name))
        if command = plus then downloadW os cfg line tran path present targv
        else
          wordless (do
            runIf present (radstatOrFail os path)
            let _ ← update os cfg path present targv
            return ())) =
      (do
        let path ← decodeArg .decodeTooLong targv[1]?
        if command = plus then download os cfg line tran path present targv
        else
          runIf present (radstatOrFail os path)
          let _ ← update os cfg path present targv
          return ()) := by
  match targv with
  | [] | [_] => rfl
  | type :: name :: rest =>
    rw [arg_of_some (show (type :: name :: rest)[1]? = some name from rfl), pure_bind,
      overrunning_bind, overrunning_wordless]
    refine bind_congr fun path => ?_
    rw [overrunning_ite, downloadW_eq]
    exact if_congr Iff.rfl rfl (overrunning_wordless _)

theorem doLineW_eq (line : Nat) (tline tran : CStr) (present : Bool) :
    overrunning (doLineW os cfg line tline tran present) = doLine os cfg line tline tran present := by
  rw [doLineW, doLine, signedWords]
  cases hwords : (acavParse (tline ++ [nul])).2 with
  | nil => rfl
  | cons word targv =>
    rw [arg_of_some (show (word :: targv)[0]? = some word from rfl), pure_bind]
    by_cases hsign : word.head? = some plus ∨ word.head? = some minus
    · have hsigned : (word.head? = some plus || word.head? = some minus : Bool) = true := by
        simpa using hsign
      simp only [if_pos hsign, hsigned, if_true, List.tail_cons]
      exact doWordsW_eq os cfg line tran present (word.headD nul) targv
    · have hsigned : (word.head? = some plus || word.head? = some minus : Bool) = false := by
        simpa using hsign
      simp only [if_neg hsign, hsigned, Bool.false_eq_true, if_false]
      exact doWordsW_eq os cfg line tran present nul (word :: targv)

variable {w : World σ}

theorem not_misses_pure (a : α) : ¬ Misses (pure a : EStateM (Option Failure) (World σ) α) w := by
  rintro ⟨w', h⟩
  cases h

/-- Behind the path no word is missed. -/
theorem not_misses_path (tline path : CStr) (type : List Byte) (rest : List (List Byte)) :
    ¬ Misses (do
      wordless (checkOrder cfg path)
      let type ← arg (type :: rest) 0
      wordless (pathLine os cfg tline path (type.headD nul))) w := by
  rw [misses_wordless_bind]
  rintro ⟨_, w', -, h⟩
  rw [misses_arg_bind] at h
  rcases h with h | ⟨_, -, h⟩
  · simp at h
  · exact not_misses_wordless _ w' h

/-- The words behind the sign of a line that is not skipped. -/
theorem misses_behind_sign (tline : CStr) (next : List Byte) (rest : List (List Byte)) :
    Misses (do
      let name ← arg (next :: rest) 1
      let path ← wordless (decodeArg .decodeReturn (some name))
      wordless (checkOrder cfg path)
      let type ← arg (next :: rest) 0
      wordless (pathLine os cfg tline path (type.headD nul))) w ↔ rest = [] := by
  rw [misses_arg_bind]
  constructor
  · rintro (h | ⟨name, -, h⟩)
    · exact List.eq_nil_of_length_eq_zero (by simpa using h)
    · rw [misses_wordless_bind] at h
      obtain ⟨path, w', -, h⟩ := h
      exact absurd h (not_misses_path os cfg tline path next rest)
  · rintro rfl
    exact .inl (Nat.le_refl 1)

/-- The sign of a line is one that is not passed over. -/
def TakesSign (w : World σ) (word : List Byte) : Prop :=
  word.head? = some minus ∨ word.head? = some plus ∧ w.transcript ≠ [] ∧ w.network = true

theorem wordsLineW_misses (tline : CStr) (word next : List Byte) (rest : List (List Byte))
    (hsuffix : word <:+ w.targvline) :
    Misses (wordsLineW os cfg tline (word :: next :: rest)) w ↔ rest = [] ∧ TakesSign w word := by
  rw [wordsLineW, arg_of_some (show (word :: next :: rest)[0]? = some word from rfl), pure_bind,
    misses_wordless_bind]
  by_cases hsign : word.head? = some plus ∨ word.head? = some minus
  · by_cases htran : word.head? = some plus ∧ w.transcript = []
    · have htake : takeSign word (next :: rest) w = .error (.noTranscript w.linenum) w := by
        simp [takeSign, htran]
      constructor
      · rintro ⟨_, _, h, -⟩
        rw [List.tail_cons, htake] at h
        cases h
      · rintro ⟨-, hminus | ⟨-, hne, -⟩⟩
        · rw [htran.1] at hminus
          exact absurd hminus (by decide)
        · exact absurd htran.2 hne
    · let w₁ : World σ := { w with command := some (w.targvline.length - word.length) }
      have htake : takeSign word (next :: rest) w = .ok (next :: rest) w₁ := by
        have hsign' : (word.head? = some plus || word.head? = some minus : Bool) = true := by
          simpa using hsign
        have htran' : (word.head? = some plus && w.transcript = [] : Bool) = false := by
          simpa using htran
        rw [takeSign, htran', hsign']
        rfl
      have hbyte : w₁.commandByte = word.headD nul := by
        obtain ⟨before, hbefore⟩ := hsuffix
        simp only [w₁, World.commandByte, ← hbefore, List.length_append, Nat.add_sub_cancel]
        cases word with
        | nil => simp at hsign
        | cons c word => simp
      have hcommand : w₁.commandByte = plus ↔ word.head? = some plus := by
        rw [hbyte]
        cases word with
        | nil => simp at hsign
        | cons c word => simp
      constructor
      · rintro ⟨targv, w₂, htake', h⟩
        rw [List.tail_cons, htake] at htake'
        cases htake'
        change Misses (if (w₁.commandByte = plus && !w₁.network : Bool) = true then _ else _) w₁ at h
        by_cases hskip : (w₁.commandByte = plus && !w₁.network : Bool) = true
        · rw [if_pos hskip] at h
          exact absurd h (not_misses_pure ())
        · rw [if_neg hskip] at h
          refine ⟨(misses_behind_sign os cfg tline next rest).mp h, ?_⟩
          rcases hsign with hplus | hminus
          · have hnet : w.network = true := by simpa [hcommand, hplus, w₁] using hskip
            exact .inr ⟨hplus, fun hnil => htran ⟨hplus, hnil⟩, hnet⟩
          · exact .inl hminus
      · rintro ⟨hrest, htakes⟩
        refine ⟨next :: rest, w₁, htake, ?_⟩
        change Misses (if (w₁.commandByte = plus && !w₁.network : Bool) = true then _ else _) w₁
        have hskip : ¬ (w₁.commandByte = plus && !w₁.network : Bool) = true := by
          rcases htakes with hminus | ⟨-, -, hnet⟩
          · simp [hcommand, hminus, plus, minus]
          · simp [w₁, hnet]
        rw [if_neg hskip]
        exact (misses_behind_sign os cfg tline next rest).mpr hrest
  · have htake : takeSign word (next :: rest) w = .ok (word :: next :: rest) w := by
      rw [not_or] at hsign
      simp [takeSign, hsign.1, hsign.2]
    constructor
    · rintro ⟨targv, w₂, htake', h⟩
      rw [List.tail_cons, htake] at htake'
      cases htake'
      change Misses (if (w.commandByte = plus && !w.network : Bool) = true then _ else _) w at h
      by_cases hskip : (w.commandByte = plus && !w.network : Bool) = true
      · rw [if_pos hskip] at h
        exact absurd h (not_misses_pure ())
      · rw [if_neg hskip] at h
        exact absurd ((misses_behind_sign os cfg tline word (next :: rest)).mp h)
          (List.cons_ne_nil _ _)
    · rintro ⟨-, hminus | ⟨hplus, -⟩⟩
      · exact absurd (.inr hminus) hsign
      · exact absurd (.inl hplus) hsign

/-- The words of a line that is split over an older one. -/
theorem lineWords_overwrite (mem line : List Byte) :
    lineWords (cstr line) = (acavParse (overwrite mem (cstr line))).2.map cstr := by
  obtain ⟨rest, hrest⟩ := acavParse_overwrite (nulFree_cstr line) mem
  rw [hrest, List.map_map, lineWords, words]
  refine List.map_congr_left fun m hm => ?_
  exact (cstr_append_of_mem (acavParse_word hm).2 rest).symm


theorem misses_wordless_ok {x : Lapply σ α} {f : α → EStateM (Option Failure) (World σ) β} {a : α}
    {w' : World σ} (h : x w = .ok a w') : Misses (wordless x >>= f) w ↔ Misses (f a) w' := by
  rw [misses_wordless_bind]
  constructor
  · rintro ⟨_, _, h', hm⟩
    rw [h] at h'
    cases h'
    exact hm
  · exact fun hm => ⟨a, w', h, hm⟩

/-- A word of a split line: it begins as its text does. -/
theorem head?_split {mem line word : List Byte}
    (h : word ∈ (acavParse (overwrite mem (cstr line))).2) : (cstr word).head? = word.head? := by
  have hcstr : cstr word ∈ lineWords (cstr line) :=
    lineWords_overwrite mem line ▸ List.mem_map_of_mem h
  obtain ⟨m, hm, heq⟩ := List.mem_map.mp hcstr
  exact head?_cstr (heq ▸ (acavParse_word hm).1)

/-- The line is complete, and has two words, the first with a sign that is not passed over. -/
def MainMisses (line : List Byte) (w : World σ) : Prop :=
  (cstr line).getLast? = some newline ∧
    ∃ word next, lineWords (cstr line) = [word, next] ∧ TakesSign w word

/-- The loop of `lapply` misses a word on two words with a sign only. -/
theorem mainLineW_misses (line : List Byte) :
    Misses (mainLineW os cfg line) w ↔ MainMisses line w := by
  have hcount : (countLine : Lapply σ Unit) w = .ok () { w with linenum := w.linenum + 1 } := rfl
  rw [mainLineW, misses_wordless_ok hcount]
  by_cases hempty : cstr line = []
  · rw [if_pos hempty]
    refine ⟨fun h => absurd h (not_misses_wordless _ _), fun h => ?_⟩
    have hlast := h.1
    rw [hempty] at hlast
    cases hlast
  by_cases hlast : (cstr line).getLast? ≠ some newline
  · rw [if_neg hempty, if_pos hlast]
    exact ⟨fun h => absurd h (not_misses_wordless _ _), fun h => absurd h.1 hlast⟩
  have hparse : parseTargvline (cstr line) { w with linenum := w.linenum + 1 } =
      .ok (acavParse (overwrite w.targvline (cstr line))).2 (afterSplit w (cstr line)) := rfl
  rw [if_neg hempty, if_neg hlast, misses_wordless_ok hparse]
  have hwords := lineWords_overwrite w.targvline line
  have hhead := fun word => @head?_split w.targvline line word
  have hsuffix := acavLoop_suffix [] false (overwrite w.targvline (cstr line))
  change ∀ word ∈ (acavParse (overwrite w.targvline (cstr line))).2,
    word <:+ (afterSplit w (cstr line)).targvline at hsuffix
  cases hargv : (acavParse (overwrite w.targvline (cstr line))).2 with
  | nil =>
    rw [hargv] at hwords
    refine ⟨fun h => absurd h (not_misses_pure ()), fun ⟨_, _, _, h, _⟩ => ?_⟩
    rw [hwords] at h
    cases h
  | cons word argv =>
    rw [hargv] at hwords hhead hsuffix
    have hword := hhead word List.mem_cons_self
    have hne : ¬ (word :: argv).length = 0 := Nat.succ_ne_zero _
    rw [if_neg hne, arg_of_some (show (word :: argv)[0]? = some word from rfl), pure_bind]
    by_cases hhash : word.head? = some hash
    · rw [if_pos hhash]
      refine ⟨fun h => absurd h (not_misses_pure ()), fun ⟨_, _, _, h, htakes⟩ => ?_⟩
      rw [hwords] at h
      obtain ⟨rfl, -⟩ := List.cons.inj h
      rw [TakesSign, hword, hhash] at htakes
      exact absurd htakes (by simp [hash, minus, plus])
    · rw [if_neg hhash]
      cases argv with
      | nil =>
        refine ⟨fun h => absurd h (not_misses_wordless _ _), fun ⟨_, _, _, h, _⟩ => ?_⟩
        rw [hwords] at h
        cases h
      | cons next rest =>
        rw [if_neg (by simp), wordsLineW_misses os cfg _ word next rest
          (hsuffix word List.mem_cons_self)]
        constructor
        · rintro ⟨rfl, htakes⟩
          refine ⟨not_not.mp hlast, cstr word, cstr next, hwords, ?_⟩
          rw [TakesSign, hword]
          exact htakes
        · rintro ⟨-, word', next', h, htakes⟩
          rw [hwords] at h
          have hfirst : cstr word = word' := (List.cons.inj h).1
          subst hfirst
          rw [TakesSign, hword] at htakes
          have hrest : rest.map cstr = [] := (List.cons.inj (List.cons.inj h).2).2
          exact ⟨List.map_eq_nil_iff.mp hrest, htakes⟩

/-- The line has fewer than two words behind its sign, or is one for a file or applefile with
fewer than eight, where the path can be decoded. -/
def DoLineMisses (buf : List Byte) (tline : CStr) : Prop :=
  (signedWords tline).2.length < 2 ∨
    (signedWords tline).1 = plus ∧ (signedWords tline).2.length < 8 ∧
      (((signedWords tline).2.headD []).headD nul = 102 ∨
        ((signedWords tline).2.headD []).headD nul = 97) ∧
      ∃ name, (signedWords tline).2[1]? = some name ∧ (decode buf name).1 ≠ none

theorem downloadW_misses (line : Nat) (tran path : CStr) (present : Bool) (type name : List Byte)
    (rest : List (List Byte)) :
    Misses (downloadW os cfg line tran path present (type :: name :: rest)) w ↔
      (type :: name :: rest).length < 8 ∧ (type.headD nul = 102 ∨ type.headD nul = 97) := by
  rw [downloadW, arg_of_some (show (type :: name :: rest)[0]? = some type from rfl), pure_bind]
  by_cases hletter : type.headD nul = 102 ∨ type.headD nul = 97
  · have hok : checkDownload (type.headD nul) w = .ok () w := by
      have hcond : decide (type.headD nul ≠ 102 ∧ type.headD nul ≠ 97) = false := by
        simpa [or_iff_not_imp_left] using hletter
      unfold checkDownload
      rw [hcond]
      rfl
    rw [misses_wordless_ok hok, misses_arg_bind]
    constructor
    · rintro (h | ⟨cksum, hcksum, h⟩)
      · exact ⟨Nat.lt_succ_of_le h, hletter⟩
      · have hlen : 7 < (type :: name :: rest).length := (List.getElem?_eq_some_iff.mp hcksum).1
        rw [misses_wordless_bind] at h
        obtain ⟨_, w₁, -, h⟩ := h
        rw [arg_of_some (show (type :: name :: rest)[1]? = some name from rfl), pure_bind,
          misses_wordless_bind] at h
        obtain ⟨desc, w₂, -, h⟩ := h
        split_ifs at h
        · exact absurd h (not_misses_wordless _ _)
        · rw [misses_arg_bind] at h
          rcases h with h | ⟨_, -, h⟩
          · omega
          · exact absurd h (not_misses_wordless _ _)
    · exact fun h => .inl (Nat.le_of_lt_succ h.1)
  · refine ⟨fun h => ?_, fun h => absurd h.2 hletter⟩
    rw [misses_wordless_bind] at h
    obtain ⟨_, _, h, -⟩ := h
    have hcond : decide (type.headD nul ≠ 102 ∧ type.headD nul ≠ 97) = true := by
      simpa [not_or] using hletter
    unfold checkDownload at h
    rw [hcond] at h
    cases h

theorem misses_behind_doLine (line : Nat) (tran : CStr) (present : Bool) (command : Byte)
    (targv : List (List Byte)) :
    Misses (do
        let name ← arg targv 1
        let path ← wordless (decodeArg .decodeTooLong (some name))
        if command = plus then downloadW os cfg line tran path present targv
        else
          wordless (do
            runIf present (radstatOrFail os path)
            let _ ← update os cfg path present targv
            return ())) w ↔
      targv.length < 2 ∨ command = plus ∧ targv.length < 8 ∧
        ((targv.headD []).headD nul = 102 ∨ (targv.headD []).headD nul = 97) ∧
        ∃ name, targv[1]? = some name ∧ (decode w.buf name).1 ≠ none := by
  match targv with
  | [] | [_] =>
    rw [misses_arg_bind]
    exact ⟨fun _ => .inl (by simp), fun _ => .inl (by simp)⟩
  | type :: name :: rest =>
    rw [arg_of_some (show (type :: name :: rest)[1]? = some name from rfl), pure_bind]
    have hlen : ¬ (type :: name :: rest).length < 2 := by simp
    simp only [hlen, false_or, List.headD_cons]
    cases hd : decode w.buf name with
    | mk r buf =>
      cases r with
      | none =>
        have hfails : decodeArg .decodeTooLong (some name) w =
            .error (.decodeTooLong w.linenum) { w with buf := buf } := by
          simp only [decodeArg, hd]
        rw [misses_wordless_bind]
        constructor
        · rintro ⟨_, _, h, -⟩
          rw [hfails] at h
          cases h
        · rintro ⟨-, -, -, name', hname, hne⟩
          cases hname
          rw [hd] at hne
          exact absurd rfl hne
      | some path =>
        have hok : decodeArg .decodeTooLong (some name) w = .ok path { w with buf := buf } := by
          simp only [decodeArg, hd]
        rw [misses_wordless_ok hok]
        by_cases hplus : command = plus
        · rw [if_pos hplus, downloadW_misses]
          constructor
          · exact fun h => ⟨hplus, h.1, h.2, name, rfl, by rw [hd]; exact Option.some_ne_none _⟩
          · exact fun h => ⟨h.2.1, h.2.2.1⟩
        · rw [if_neg hplus]
          exact ⟨fun h => absurd h (not_misses_wordless _ _), fun h => absurd h.1 hplus⟩

theorem doLineW_misses (line : Nat) (tline tran : CStr) (present : Bool) :
    Misses (doLineW os cfg line tline tran present) w ↔ DoLineMisses w.buf tline := by
  rw [doLineW, DoLineMisses, signedWords]
  cases hwords : (acavParse (tline ++ [nul])).2 with
  | nil => exact ⟨fun _ => .inl (by simp), fun _ => ⟨w, rfl⟩⟩
  | cons word targv =>
    rw [arg_of_some (show (word :: targv)[0]? = some word from rfl), pure_bind]
    by_cases hsign : word.head? = some plus ∨ word.head? = some minus
    · have hsigned : (word.head? = some plus || word.head? = some minus : Bool) = true := by
        simpa using hsign
      simp only [if_pos hsign, hsigned, if_true, List.tail_cons]
      exact misses_behind_doLine os cfg line tran present (word.headD nul) targv
    · have hsigned : (word.head? = some plus || word.head? = some minus : Bool) = false := by
        simpa using hsign
      simp only [if_neg hsign, hsigned, Bool.false_eq_true, if_false]
      exact misses_behind_doLine os cfg line tran present nul (word :: targv)

end

/-! ## getnextline -/

/-- `takePath` by numbers. -/
def takePathW (cfg : LmergeConfig) (buf : List Byte) (tran : Tran) :
    Except (Option LmergeExit) (Tran × Option LmergeExit × List Byte) := do
  let name ← arg tran.tArgv 1
  match decode buf (name ++ [nul]) with
  | (none, buf) => return (tran, some (.pathTooLong tran.tTranName tran.tLinenum), buf)
  | (some path, buf) =>
    if path.length ≥ maxPathLen then
      return (tran, some (.pathTooLong tran.tTranName tran.tLinenum), buf)
    else
      let tran := { tran with tFilepath := path }
      if tran.tPrepath ≠ [] ∧ pathcasecmp path tran.tPrepath cfg.caseSensitive ≤ 0 then
        return (tran, some (.badSortOrder tran.tTranName tran.tLinenum), buf)
      else return ({ tran with tPrepath := path }, none, buf)

/-- The words of a line of `lmerge`, by numbers, where the line is neither blank nor a
comment. -/
def takeWordsW (cfg : LmergeConfig) (buf : List Byte) (tran : Tran) (argv : List CStr) :
    Except (Option LmergeExit) (Tran × Option LmergeExit × List Byte) := do
  let word ← arg argv 0
  if word.head? = some minus then
    takePathW cfg buf { tran with tRemove := true, tArgv := argv.tail }
  else takePathW cfg buf { tran with tRemove := false, tArgv := argv }

/-- The words behind a '-'. -/
def unsignedWords (argv : List CStr) : List CStr :=
  if (argv.headD []).head? = some minus then argv.tail else argv

section

variable (cfg : LmergeConfig) (buf : List Byte) (tran : Tran)

theorem takePathW_eq : (takePathW cfg buf tran).mapError (·.getD .overrun) = takePath cfg buf tran := by
  rw [takePathW, takePath, arg]
  cases tran.tArgv[1]? with
  | none => rfl
  | some name =>
    rw [pure_bind]
    dsimp only
    rcases decode buf (name ++ [nul]) with ⟨_ | path, buf'⟩
    · rfl
    · dsimp only
      split_ifs <;> rfl

theorem takePathW_misses : takePathW cfg buf tran = .error none ↔ tran.tArgv.length < 2 := by
  rw [takePathW, arg]
  cases hname : tran.tArgv[1]? with
  | none => exact ⟨fun _ => Nat.lt_succ_of_le (List.getElem?_eq_none_iff.mp hname), fun _ => rfl⟩
  | some name =>
    have hlen : ¬ tran.tArgv.length < 2 := Nat.not_lt.mpr (List.getElem?_eq_some_iff.mp hname).1
    rw [pure_bind]
    have hpure (r : Tran × Option LmergeExit × List Byte) :
        (pure r : Except (Option LmergeExit) _) ≠ .error none := nofun
    refine ⟨fun h => absurd h ?_, fun h => absurd h hlen⟩
    rcases decode buf (name ++ [nul]) with ⟨_ | path, buf'⟩
    · exact hpure _
    · dsimp only
      split_ifs
      · exact hpure _
      · exact hpure _
      · exact hpure _

/-- The reader by numbers does what `getnextline` does with the words of a line. -/
theorem takeWordsW_eq (word : CStr) (argv : List CStr) :
    (takeWordsW cfg buf tran (word :: argv)).mapError (·.getD .overrun) =
      if word.head? = some minus then takePath cfg buf { tran with tRemove := true, tArgv := argv }
      else takePath cfg buf { tran with tRemove := false, tArgv := word :: argv } := by
  rw [← takePathW_eq, ← takePathW_eq, ← apply_ite (Except.mapError _)]
  rfl

/-- `getnextline` misses the path of a line with fewer than two words behind a '-'. -/
theorem takeWordsW_misses (argv : List CStr) :
    takeWordsW cfg buf tran argv = .error none ↔ (unsignedWords argv).length < 2 := by
  cases argv with
  | nil => exact ⟨fun _ => Nat.zero_lt_two, fun _ => rfl⟩
  | cons word argv =>
    change (if word.head? = some minus then takePathW cfg buf _ else takePathW cfg buf _) = _ ↔ _
    rw [unsignedWords, List.headD_cons]
    by_cases hminus : word.head? = some minus
    · rw [if_pos hminus, if_pos hminus, takePathW_misses, List.tail_cons]
    · rw [if_neg hminus, if_neg hminus, takePathW_misses]

end

/-! ## All readers -/

/-- On every line each reader comes to a missing word exactly in these cases. -/
theorem missing_word_iff {σ : Type} (os : Os σ) (buf : List Byte) (argv : List CStr) :
    (∀ cfg file linenum tType pi,
      parseLineW cfg buf file linenum tType pi argv ≠ .error none ↔ ¬ ParseMisses argv) ∧
    (∀ cfg line w, ¬ Misses (mainLineW os cfg line) w ↔ ¬ MainMisses line w) ∧
    (∀ cfg line tline tran present w,
      ¬ Misses (doLineW os cfg line tline tran present) w ↔ ¬ DoLineMisses w.buf tline) ∧
    (∀ cfg tran,
      takeWordsW cfg buf tran argv ≠ .error none ↔ 2 ≤ (unsignedWords argv).length) := by
  refine ⟨?_, ?_, ?_, ?_⟩
  · intro cfg file linenum tType pi
    exact not_congr (parseLineW_misses cfg buf file linenum tType pi argv)
  · intro cfg line w
    exact not_congr (mainLineW_misses os cfg line)
  · intro cfg line tline tran present w
    exact not_congr (doLineW_misses os cfg line tline tran present)
  · intro cfg tran
    exact (not_congr (takeWordsW_misses cfg buf tran argv)).trans Nat.not_lt

/-- A system where every call is answered in one way. -/
def silentOs : Os Unit where
  sys _ s := (.ok, s)
  lstat _ _ := .enoent
  stat _ _ := none
  request _ s := (.lost, s)
  digest _ := []
  trailer s := (true, s)
  fclose _ := true
  closesn _ := true

def plainMerge : LmergeConfig :=
  { caseSensitive := true, noupload := false, mergeTransOnly := false, fileRoot := []
    tranName := [], pid := [], link := fun _ _ => true }

/-- Two signs before one word, a '-' before a path without a type, a download line without
its sizes, and a line of one word. -/
theorem not_missing_word :
    ¬ (∀ cfg buf file linenum tType pi argv,
      parseLineW cfg buf file linenum tType pi argv ≠ .error none) ∧
    ¬ (∀ (σ : Type) (os : Os σ) cfg line w, ¬ Misses (mainLineW os cfg line) w) ∧
    ¬ (∀ (σ : Type) (os : Os σ) cfg line tline tran present w,
      ¬ Misses (doLineW os cfg line tline tran present) w) ∧
    ¬ ∀ cfg buf tran argv, takeWordsW cfg buf tran argv ≠ .error none := by
  refine ⟨?_, ?_, ?_, ?_⟩
  · intro h
    refine h ⟨true, .absolute, false⟩ [] [] 1 .positive .zero
      [lit "-" ++ [nul], lit "+" ++ [nul], lit "/a" ++ [nul]] ((parseLineW_misses _ _ _ _ _ _ _).mpr ?_)
    exact ⟨_, _, _, rfl, by decide, rfl, rfl⟩
  · intro h
    refine h Unit silentOs plainConfig (lit "- /a\n") (World.start () true)
      ((mainLineW_misses _ _ _).mpr ⟨by decide, lit "-", lit "/a", by decide +kernel, .inl rfl⟩)
  · intro h
    refine h Unit silentOs plainConfig 1 (lit "+ f /a\n") (lit "t.T") false (World.start () true)
      ((doLineW_misses _ _ _ _ _ _).mpr (.inr ?_))
    refine ⟨by decide +kernel, by decide +kernel, .inl (by decide +kernel), lit "/a" ++ [nul, nul],
      by decide +kernel, by decide +kernel⟩
  · intro h
    exact h plainMerge [] (LmergeInput.open ⟨[], [], []⟩) [lit "f"]
      ((takeWordsW_misses _ _ _ _).mpr (by decide))

end Radmind
