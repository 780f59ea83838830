import Radmind.Lapply.Reach

/-!
# The sign a line is judged by

`command` points into the buffer that every line is split in, at the place of the last
sign.  A line that has no sign is judged by the byte that stands there by then.
-/

namespace Radmind

open RunRelation

variable {σ : Type}

/-- What a line is taken for. -/
inductive Treatment
  | removal | download | update
  deriving DecidableEq, Repr

/-- The tests of `*command`. -/
def treatment (command : Byte) : Treatment :=
  if command = minus then .removal else if command = plus then .download else .update

theorem treatment_eq_removal (command : Byte) :
    treatment command = .removal ↔ command = minus := by
  unfold treatment
  split_ifs with hm
  · simp [hm]
  · simp [hm]
  · simp [hm]

theorem treatment_eq_download (command : Byte) :
    treatment command = .download ↔ command = plus := by
  unfold treatment
  split_ifs with hm hp
  · simp [hm, minus, plus]
  · simp [hp]
  · simp [hp]

theorem treatment_eq_update (command : Byte) :
    treatment command = .update ↔ command ≠ minus ∧ command ≠ plus := by
  unfold treatment
  split_ifs <;> simp [*]

/-! ## A line that is taken for something -/

section

variable (os : Os σ) (cfg : LapplyConfig) (t : Treatment)

/-- `pathLine` of a line that is taken for this. -/
def pathLineAs (tline path : CStr) (type : Byte) : Lapply σ Unit := do
  let fstype ← localType os path
  let w ← get
  record (.begin w.linenum path fstype)
  let present : Bool := fstype ≠ .X
  let differs : Bool := present && fstype.letter ≠ type
  if t = .removal || differs then
    if fstype = .d then
      let tline? := if differs then some tline else none
      dirchecklist os cfg ⟨w.linenum, path, tline?, if differs then w.transcript else []⟩
    else
      filechecklist os cfg w.linenum path
      runIf (t ≠ .removal) (applyLine os cfg w.linenum tline path false)
  else applyLine os cfg w.linenum tline path present

/-- `wordsLine` of a line that is taken for this. -/
def wordsLineAs (tline : CStr) (word : List Byte) (targv : List (List Byte)) : Lapply σ Unit := do
  let targv ← takeSign word targv
  let w ← get
  if t = .download && !w.network then return ()
  else
    let path ← decodeArg .decodeReturn targv[1]?
    checkOrder cfg path
    pathLineAs os cfg t tline path ((targv.headD []).headD nul)

/-- A round of the loop with a line that is taken for this. -/
def mainLineAs (line : List Byte) : Lapply σ Unit := do
  countLine
  let tline := cstr line
  if tline = [] then throw .overrun
  else if tline.getLast? ≠ some newline then throw (.lineTooLong (← get).linenum)
  else
    match (← parseTargvline tline) with
    | [] => return ()
    | word :: targv =>
      if word.head? = some hash then return ()
      else if targv = [] then headerLine (cstr word)
      else wordsLineAs os cfg t tline word targv

end

/-! ## Places in the buffer -/

instance (c : Byte) : Decidable (isSep c) := inferInstanceAs (Decidable (_ ∨ _))

/-- A line that is neither blank nor a comment nor a header. -/
def ActionLine (line : List Byte) : Prop :=
  ∃ word next words, lineWords (cstr line) = word :: next :: words ∧ word.head? ≠ some hash

/-- The first byte of a line behind its blanks. -/
def firstByte (line : List Byte) : Byte := ((lineWords (cstr line)).headD []).headD nul

/-- A line of this first byte has a sign. -/
def isSign (c : Byte) : Prop := c = plus ∨ c = minus

instance (c : Byte) : Decidable (isSign c) := inferInstanceAs (Decidable (_ ∨ _))

/-- Where the sign of a line stands: behind the blanks before it. -/
def signPlace (line : List Byte) : Option Nat :=
  if 2 ≤ (lineWords (cstr line)).length ∧ isSign (firstByte line) then
    some ((cstr line).takeWhile (isSep ·)).length
  else none

/-- The place of the last sign of the lines. -/
def lastSign (lines : List (List Byte)) : Option Nat := (lines.filterMap signPlace).getLast?

/-- `strcpy` and `acav_parse`: the buffer behind a line. -/
def splitOver (mem line : List Byte) : List Byte := (acavParse (overwrite mem (cstr line))).1

/-- The buffer behind the lines. -/
def splitBuffer (lines : List (List Byte)) : List Byte := lines.foldl splitOver []

/-- A line without a sign has a sign at the place of the last one: among its own bytes, or
left there by a longer line. -/
def Misled (before : List (List Byte)) (line : List Byte) : Prop :=
  signPlace line = none ∧
    ∃ place, lastSign before = some place ∧
      isSign ((splitBuffer (before ++ [line])).getD place nul)

theorem isBlank_eq_of_even {prev : List Byte} (hp : slashes prev % 2 = 0) (c : Byte) :
    isBlank prev c = decide (isSep c) := by
  by_cases hsep : isSep c
  · rw [isBlank_of_isSep hsep hp, decide_eq_true hsep]
  · rw [decide_eq_false hsep]
    rw [isSep, not_or, not_or] at hsep
    exact isBlank_plain hsep.1 hsep.2.1 hsep.2.2 prev

/-- The first word stands behind the blanks. -/
theorem acavLoop_head {prev : List Byte} (hp : slashes prev % 2 = 0) {line word : List Byte}
    {words : List (List Byte)} (h : (acavLoop prev false line).2 = word :: words) :
    word.length + (line.takeWhile (isSep ·)).length = line.length := by
  induction line generalizing prev with
  | nil => cases h
  | cons c line ih =>
    by_cases hnul : c = nul
    · rw [acavLoop, if_pos hnul] at h
      cases h
    rw [acavLoop, if_neg hnul] at h
    by_cases hsep : isSep c
    · rw [if_pos (isBlank_of_isSep hsep hp)] at h
      have hrest := ih (by rw [slashes_cons_plain (isSep_ne_bslash hsep)]) h
      rw [List.takeWhile_cons_of_pos (by simpa using hsep), List.length_cons, List.length_cons]
      omega
    · rw [if_neg (by rw [isBlank_eq_of_even hp]; simpa using hsep)] at h
      rw [List.takeWhile_cons_of_neg (by simpa using hsep), ← (List.cons.inj h).1, List.length_cons,
        acavLoop_length]
      rfl

theorem takeWhile_isSep_overwrite (mem : List Byte) (tline : CStr) :
    (overwrite mem tline).takeWhile (isSep ·) = tline.takeWhile (isSep ·) := by
  unfold overwrite
  generalize mem.drop (tline.length + 1) = rest
  induction tline with
  | nil => exact List.takeWhile_cons_of_neg (by decide)
  | cons c tline ih =>
    rw [List.cons_append]
    by_cases hc : isSep c
    · rw [List.takeWhile_cons_of_pos (by simpa using hc),
        List.takeWhile_cons_of_pos (by simpa using hc), ih]
    · rw [List.takeWhile_cons_of_neg (by simpa using hc),
        List.takeWhile_cons_of_neg (by simpa using hc)]

theorem isSign_headD (word : List Byte) :
    isSign (word.headD nul) ↔ word.head? = some plus ∨ word.head? = some minus := by
  cases word with
  | nil => exact ⟨fun h => absurd h (by decide), fun h => by simp at h⟩
  | cons c word => simp [isSign]

/-- A line as the program splits it over what the buffer held. -/
structure Splits (mem line word : List Byte) (targv : List (List Byte)) : Prop where
  words : (acavParse (overwrite mem (cstr line))).2 = word :: targv
  firstByte : firstByte line = word.headD nul
  signPlace : signPlace line = if targv ≠ [] ∧ isSign (word.headD nul) then
    some ((splitOver mem line).length - word.length) else none
  suffix : word <:+ splitOver mem line

theorem splits {mem line word : List Byte} {targv : List (List Byte)}
    (h : (acavParse (overwrite mem (cstr line))).2 = word :: targv) :
    Splits mem line word targv := by
  have hsplit := splitsTo (nulFree_cstr line) h
  obtain ⟨words, hwords, hone⟩ := hsplit.lineWords
  have hfirst : firstByte line = word.headD nul := by
    rw [firstByte, hwords, List.headD_cons, List.headD_eq_head?_getD, hsplit.head,
      List.headD_eq_head?_getD]
  have hplace : word.length + ((cstr line).takeWhile (isSep ·)).length =
      (splitOver mem line).length := by
    rw [← takeWhile_isSep_overwrite mem, splitOver, acavParse, acavLoop_length]
    exact acavLoop_head rfl h
  have htwo : 2 ≤ (lineWords (cstr line)).length ↔ targv ≠ [] := by
    rw [hwords, ← not_iff_not, not_not, ← hone, ← List.length_eq_zero_iff, List.length_cons]
    omega
  refine ⟨h, hfirst, ?_, acavLoop_suffix [] false _ word (by rw [← acavParse, h]; simp)⟩
  rw [Radmind.signPlace, hfirst]
  by_cases hsign : targv ≠ [] ∧ isSign (word.headD nul)
  · rw [if_pos ⟨htwo.mpr hsign.1, hsign.2⟩, if_pos hsign]
    exact congrArg some (by omega)
  · rw [if_neg (by rwa [htwo]), if_neg hsign]

theorem ActionLine.splits {line : List Byte} (h : ActionLine line) (mem : List Byte) :
    ∃ word targv, Splits mem line word targv ∧ targv ≠ [] ∧ word.head? ≠ some hash := by
  obtain ⟨first, next, words, hwords, hhash⟩ := h
  cases hsplit : (acavParse (overwrite mem (cstr line))).2 with
  | nil =>
    obtain ⟨rest, hrest⟩ := acavParse_overwrite (nulFree_cstr line) mem
    rw [hsplit, eq_comm, List.map_eq_nil_iff] at hrest
    rw [lineWords, Radmind.words, hrest] at hwords
    cases hwords
  | cons word targv =>
    have hto := splitsTo (nulFree_cstr line) hsplit
    obtain ⟨words', hwords', hone⟩ := hto.lineWords
    rw [hwords] at hwords'
    obtain ⟨rfl, rfl⟩ := List.cons.inj hwords'
    refine ⟨word, targv, Radmind.splits hsplit, fun h => ?_, ?_⟩
    · exact absurd (hone.mpr h) (by simp)
    · rwa [← hto.head]

/-! ## What leaves the buffer and the sign alone -/

structure SameSplit (w w' : World σ) : Prop where
  targvline : w'.targvline = w.targvline
  command : w'.command = w.command

instance : Std.Refl (SameSplit : World σ → World σ → Prop) := ⟨fun _ => ⟨rfl, rfl⟩⟩

instance : IsTrans (World σ) SameSplit :=
  ⟨fun _ _ _ h h' => ⟨h'.targvline.trans h.targvline, h'.command.trans h.command⟩⟩

theorem SameSplit.commandByte {w w' : World σ} (h : SameSplit w w') :
    w'.commandByte = w.commandByte := by
  rw [World.commandByte, World.commandByte, h.targvline, h.command]

theorem covers_sameSplit (os : Os σ) : Covers os SameSplit where
  set _ _ _ _ := ⟨rfl, rfl⟩
  call _ _ := ⟨rfl, rfl⟩
  trailer _ := ⟨rfl, rfl⟩

theorem record_same (ev : Action) : Keeps SameSplit (record ev : Lapply σ Unit) :=
  fun _ => ⟨rfl, rfl⟩

section

variable (os : Os σ) (cfg : LapplyConfig)

theorem runLine_same (line : Nat) (path tline tran : CStr) (present : Bool) :
    Keeps SameSplit (runLine os cfg line path tline tran present) := by
  apply (record_same _).bind
  intro _
  apply (doLine_keeps (covers_sameSplit os) cfg (fun _ _ => ⟨rfl, rfl⟩) present).bind
  intro _
  exact (record_same _).bind fun _ _ => ⟨rfl, rfl⟩

theorem removeHead_same (n : Node) (rest : List Node) :
    Keeps SameSplit (removeHead os cfg n rest) := by
  apply (sysOrFail_keeps (covers_sameSplit os).calls _ _).bind
  intro _
  apply (record_same _).bind
  intro _
  refine Keeps.bind (fun _ => ⟨rfl, rfl⟩) fun _ => ?_
  cases n.tline with
  | none => exact keeps_pure _
  | some tline => exact runLine_same os cfg _ _ _ _ _

theorem minimize_same (path : CStr) (head : List Node) :
    Keeps SameSplit (minimize os cfg path head) := by
  induction head with
  | nil => exact keeps_pure _
  | cons n rest ih =>
    refine Keeps.ite (keeps_pure _) ?_
    exact (removeHead_same os cfg n rest).bind fun _ => ih

theorem minimizeHead_same (path : CStr) : Keeps SameSplit (minimizeHead os cfg path) :=
  keeps_get.bind fun _ => minimize_same os cfg path _

theorem dirchecklist_same (n : Node) : Keeps SameSplit (dirchecklist os cfg n) := by
  apply (minimizeHead_same os cfg n.path).bind
  intro _
  apply (record_same _).bind
  intro _
  exact keeps_get.bind fun _ _ => ⟨rfl, rfl⟩

theorem filechecklist_same (line : Nat) (path : CStr) :
    Keeps SameSplit (filechecklist os cfg line path) := by
  apply (minimizeHead_same os cfg path).bind
  intro _
  apply (record_same _).bind
  intro _
  apply (sys_keeps (covers_sameSplit os).calls _).bind
  exact fun _ => keeps_runIf (keeps_throw _)

theorem applyLine_same (line : Nat) (tline path : CStr) (present : Bool) :
    Keeps SameSplit (applyLine os cfg line tline path present) := by
  apply (minimizeHead_same os cfg path).bind
  intro _
  exact keeps_get.bind fun _ => runLine_same os cfg _ _ _ _ _

theorem localType_same (path : CStr) : Keeps SameSplit (localType os path) := by
  apply (radstat_keeps (covers_sameSplit os) path).bind
  intro r
  cases r with
  | found type =>
    cases type with
    | none => exact keeps_throw _
    | some type => exact keeps_pure _
  | enoent => exact keeps_pure _
  | failed => exact keeps_throw _

theorem pathLine_same (tline path : CStr) (type : Byte) :
    Keeps SameSplit (pathLine os cfg tline path type) := by
  apply (localType_same os path).bind
  intro fstype
  refine keeps_get.bind fun w => ?_
  apply (record_same _).bind
  intro _
  refine Keeps.ite ?_ ?_
  · refine Keeps.ite (dirchecklist_same os cfg _) ?_
    apply (filechecklist_same os cfg _ _).bind
    exact fun _ => keeps_runIf (applyLine_same os cfg _ _ _ _)
  · exact applyLine_same os cfg _ _ _ _

theorem checkOrder_same (path : CStr) : Keeps (SameSplit : World σ → World σ → Prop) (checkOrder cfg path) := by
  intro w
  unfold checkOrder
  split_ifs
  · exact refl w
  · exact refl w
  · exact ⟨rfl, rfl⟩

end

/-! ## A line of a run -/

/-- The place in `command` behind the words of a line. -/
def takenPlace (w : World σ) (word : List Byte) : Option Nat :=
  if isSign (word.headD nul) then some (w.targvline.length - word.length) else w.command

theorem takeSign_ok {word : List Byte} {targv targv' : List (List Byte)} {w w' : World σ}
    (h : takeSign word targv w = .ok targv' w') :
    w' = { w with command := takenPlace w word } := by
  unfold takeSign at h
  unfold takenPlace
  by_cases hsign : isSign (word.headD nul)
  · have hhead := (isSign_headD word).mp hsign
    rw [if_pos hsign]
    split_ifs at h with h1 h2
    · injection h with _ hw
      exact hw.symm
    · exact absurd hhead (by simpa using h2)
  · have hhead := fun h => hsign ((isSign_headD word).mpr h)
    rw [if_neg hsign]
    split_ifs at h with h1 h2
    · exact absurd (by simpa using h2) hhead
    · injection h with _ hw
      exact hw.symm

section

variable (os : Os σ) (cfg : LapplyConfig)

theorem wordsLine_ok {tline : CStr} {word : List Byte} {targv : List (List Byte)} {w w' : World σ}
    (h : wordsLine os cfg tline word targv w = .ok () w') :
    SameSplit { w with command := takenPlace w word } w' := by
  unfold wordsLine at h
  cases hsign : takeSign word targv w with
  | error e w₁ =>
    rw [bind_error hsign] at h
    cases h
  | ok targv' w₁ =>
    rw [bind_ok hsign] at h
    obtain rfl := takeSign_ok hsign
    have hrest : Keeps SameSplit (do
        let w ← get
        if w.commandByte = plus && !w.network then return ()
        else
          let path ← decodeArg .decodeReturn targv'[1]?
          checkOrder cfg path
          pathLine os cfg tline path ((targv'.headD []).headD nul)) := by
      refine keeps_get.bind fun w => Keeps.ite (keeps_pure _) ?_
      apply (decodeArg_keeps (covers_sameSplit os) _ _).bind
      intro path
      exact (checkOrder_same cfg path).bind fun _ => pathLine_same os cfg _ _ _
    have hsame := hrest { w with command := takenPlace w word }
    rwa [h] at hsame

/-- A round of the loop leaves the buffer as the line was split in it, and the place of the
sign of the line if there is one. -/
theorem mainLine_ok {line : List Byte} {w w' : World σ} (h : mainLine os cfg line w = .ok () w') :
    w'.targvline = splitOver w.targvline line ∧
      w'.command = (signPlace line).or w.command := by
  rw [mainLine_eq] at h
  split_ifs at h
  cases hsplit : (acavParse (overwrite w.targvline (cstr line))).2 with
  | nil =>
    rw [hsplit] at h
    injection h with _ hw
    subst hw
    refine ⟨rfl, ?_⟩
    obtain ⟨rest, hrest⟩ := acavParse_overwrite (nulFree_cstr line) w.targvline
    rw [hsplit, eq_comm, List.map_eq_nil_iff] at hrest
    have hwords : lineWords (cstr line) = [] := by rw [lineWords, words, hrest]; rfl
    rw [signPlace, if_neg (by rw [hwords]; exact fun h => absurd h.1 (by decide))]
    rfl
  | cons word targv =>
    have hline := splits hsplit
    rw [hsplit] at h
    change (if word.head? = some hash then _ else if targv = [] then _ else _) = _ at h
    split_ifs at h with hhash hone
    · injection h with _ hw
      subst hw
      refine ⟨rfl, ?_⟩
      rw [hline.signPlace, if_neg]
      · rfl
      · rintro ⟨-, hsign⟩
        rcases (isSign_headD word).mp hsign with hsign | hsign <;>
          exact absurd (hhash.symm.trans hsign) (by decide)
    · unfold headerLine at h
      split_ifs at h
      injection h with _ hw
      subst hw
      refine ⟨rfl, ?_⟩
      rw [hline.signPlace, if_neg (fun h => h.1 hone)]
      rfl
    · have hsame := wordsLine_ok os cfg h
      refine ⟨hsame.targvline, hsame.command.trans ?_⟩
      rw [hline.signPlace]
      unfold takenPlace
      by_cases hsign : isSign (word.headD nul)
      · rw [if_pos hsign, if_pos ⟨hone, hsign⟩]
        rfl
      · rw [if_neg hsign, if_neg (fun h => hsign h.2)]
        rfl

/-- The buffer and the last sign behind a number of lines. -/
theorem mainLoop_ok {lines : List (List Byte)} {w w' : World σ}
    (h : mainLoop os cfg lines w = .ok () w') :
    w'.targvline = lines.foldl splitOver w.targvline ∧
      w'.command = (lastSign lines).or w.command := by
  induction lines generalizing w with
  | nil =>
    injection h with _ hw
    subst hw
    exact ⟨rfl, rfl⟩
  | cons line lines ih =>
    rw [mainLoop] at h
    cases hline : mainLine os cfg line w with
    | error e w₁ =>
      rw [bind_error hline] at h
      cases h
    | ok u w₁ =>
      rw [bind_ok hline] at h
      obtain ⟨hbuffer, hcommand⟩ := ih h
      obtain ⟨hbuffer₁, hcommand₁⟩ := mainLine_ok os cfg hline
      refine ⟨by rw [hbuffer, hbuffer₁]; rfl, ?_⟩
      rw [hcommand, hcommand₁, lastSign, lastSign, List.filterMap_cons]
      cases signPlace line with
      | none => rfl
      | some place =>
        rw [List.getLast?_cons]
        cases (lines.filterMap signPlace).getLast? <;> rfl

end

/-! ## What a line is taken for -/

/-- The byte a line is judged by. -/
def judgedBy (w : World σ) (line : List Byte) : Byte :=
  match (signPlace line).or w.command with
  | none => nul
  | some place => (splitOver w.targvline line).getD place nul

/-- What the program takes a line for in this state. -/
def takenFor (w : World σ) (line : List Byte) : Treatment := treatment (judgedBy w line)

section

variable (os : Os σ) (cfg : LapplyConfig)

theorem pathLine_as (tline path : CStr) (type : Byte) (w : World σ) :
    pathLine os cfg tline path type w =
      pathLineAs os cfg (treatment w.commandByte) tline path type w := by
  unfold pathLine pathLineAs
  refine bind_congr_at fun fstype w' hw' => ?_
  have hsame := localType_same os path w
  rw [hw'] at hsame
  have hbyte : w'.commandByte = w.commandByte := hsame.commandByte
  refine bind_congr_at fun v w'' hv => ?_
  obtain ⟨rfl, rfl⟩ : w' = v ∧ w' = w'' := by
    injection hv with h h'
    exact ⟨h, h'⟩
  have hremoval := propext (treatment_eq_removal w.commandByte)
  simp only [hbyte, hremoval, ne_eq]

theorem wordsLine_as (tline : CStr) (word : List Byte) (targv : List (List Byte)) (w : World σ) :
    wordsLine os cfg tline word targv w =
      wordsLineAs os cfg
        (treatment (World.commandByte { w with command := takenPlace w word })) tline word targv w := by
  unfold wordsLine wordsLineAs
  refine bind_congr_at fun targv' w' hw' => ?_
  obtain rfl := takeSign_ok hw'
  refine bind_congr_at fun v w'' hv => ?_
  obtain ⟨rfl, rfl⟩ : { w with command := takenPlace w word } = v ∧
      { w with command := takenPlace w word } = w'' := by
    injection hv with h h'
    exact ⟨h, h'⟩
  generalize ({ w with command := takenPlace w word } : World σ) = w
  have hdownload := propext (treatment_eq_download w.commandByte)
  simp only [hdownload]
  split_ifs
  · rfl
  refine bind_congr_at fun path w' hw' => ?_
  have hsame := decodeArg_keeps (covers_sameSplit os) .decodeReturn targv'[1]? w
  rw [hw'] at hsame
  rw [← SameSplit.commandByte hsame]
  refine bind_congr_at fun u w'' hw'' => ?_
  have hsame := checkOrder_same cfg path w'
  rw [hw''] at hsame
  show pathLine os cfg tline path _ w'' = pathLineAs os cfg (treatment w'.commandByte) tline path _ w''
  rw [← SameSplit.commandByte hsame]
  exact pathLine_as os cfg tline path _ w''

/-- `mainLine` acts on a line as on one that is taken for this. -/
theorem mainLine_as (line : List Byte) (w : World σ) :
    mainLine os cfg line w = mainLineAs os cfg (takenFor w line) line w := by
  unfold mainLine mainLineAs
  have hcount : countLine w = .ok () { w with linenum := w.linenum + 1 } := rfl
  rw [bind_ok hcount, bind_ok hcount]
  split_ifs
  · rfl
  · rfl
  have hparse : parseTargvline (cstr line) { w with linenum := w.linenum + 1 } =
    .ok (acavParse (overwrite w.targvline (cstr line))).2 (afterSplit w (cstr line)) := rfl
  rw [bind_ok hparse, bind_ok hparse]
  cases hsplit : (acavParse (overwrite w.targvline (cstr line))).2 with
  | nil => rfl
  | cons word targv =>
    show (if word.head? = some hash then _ else if targv = [] then _ else _ : Lapply σ Unit) _ =
      (if word.head? = some hash then _ else if targv = [] then _ else _ : Lapply σ Unit) _
    split_ifs with hhash hone
    · rfl
    · rfl
    · rw [wordsLine_as]
      have hplace : takenPlace (afterSplit w (cstr line)) word = (signPlace line).or w.command := by
        rw [(splits hsplit).signPlace]
        unfold takenPlace
        by_cases hsign : isSign (word.headD nul)
        · rw [if_pos hsign, if_pos ⟨hone, hsign⟩]
          rfl
        · rw [if_neg hsign, if_neg (fun h => hsign h.2)]
          rfl
      rw [takenFor, judgedBy, hplace]
      cases (signPlace line).or w.command <;> rfl

end

/-- The loop comes to this line behind these. -/
structure ComesTo (os : Os σ) (cfg : LapplyConfig) (network : Bool) (content : List Byte) (s : σ)
    (before : List (List Byte)) (line : List Byte) (w : World σ) : Prop where
  lines : ∃ after, fileLines content = before ++ line :: after
  run : mainLoop os cfg before (World.start s network) = .ok () w

theorem ComesTo.judgedBy {os : Os σ} {cfg : LapplyConfig} {network : Bool} {content : List Byte}
    {s : σ} {before : List (List Byte)} {line : List Byte} {w : World σ}
    (h : ComesTo os cfg network content s before line w) :
    judgedBy w line = match (signPlace line).or (lastSign before) with
      | none => nul
      | some place => (splitBuffer (before ++ [line])).getD place nul := by
  obtain ⟨hbuffer, hcommand⟩ := mainLoop_ok os cfg h.run
  have hcommand : w.command = lastSign before := by
    rw [hcommand]
    cases lastSign before <;> rfl
  have hbuffer : splitOver w.targvline line = splitBuffer (before ++ [line]) := by
    rw [splitBuffer, List.foldl_append, hbuffer]
    rfl
  rw [Radmind.judgedBy, hcommand, hbuffer]

/-- Behind its sign a line begins with it. -/
theorem byte_of_splits {mem line word : List Byte} {targv : List (List Byte)}
    (h : Splits mem line word targv) {place : Nat} (hplace : signPlace line = some place) :
    (splitOver mem line).getD place nul = firstByte line ∧ isSign (firstByte line) := by
  rw [h.signPlace] at hplace
  split_ifs at hplace with hsign
  obtain ⟨blanks, hblanks⟩ := h.suffix
  injection hplace with hplace
  rw [h.firstByte]
  refine ⟨?_, hsign.2⟩
  rw [← hplace, ← hblanks, List.length_append, Nat.add_sub_cancel]
  cases word with
  | nil => exact absurd hsign.2 (by decide)
  | cons c word => simp

/-- Two files, and no call fails. -/
def filesOs : Os Unit where
  sys _ s := (.ok, s)
  lstat _ path :=
    if path = lit "/a" ∨ path = lit "/b-c" then .found { Stat.zero with stMode := 0o100644 }
    else .enoent
  stat _ _ := none
  request _ s := (.lost, s)
  digest _ := []
  trailer s := (true, s)
  fclose _ := true
  closesn _ := true

/-- The sign stands behind blanks, and the file of the next line has a minus there. -/
def signThenMinus (blanks : List Byte) : List Byte :=
  blanks ++ lit "- f /a" ++ [newline] ++ lit "f /b-c 0644 0 0 0 0 -" ++ [newline]

/-- The state at the second of these lines. -/
def atMinus (blanks : List Byte) : World Unit :=
  endState (mainLoop filesOs plainConfig [blanks ++ lit "- f /a" ++ [newline]]
    (World.start () true))

theorem run_of_isOk {r : EStateM.Result Failure (World σ) Unit} (h : isOk r = true) :
    r = .ok () (endState r) := by
  cases r with
  | ok u w => rfl
  | error e w => cases h

set_option maxRecDepth 16000 in
theorem comesTo_minus (blanks : List Byte) (h : blanks = [] ∨ blanks = List.replicate 4 space) :
    ComesTo filesOs plainConfig true (signThenMinus blanks) ()
      [blanks ++ lit "- f /a" ++ [newline]] (lit "f /b-c 0644 0 0 0 0 -" ++ [newline])
      (atMinus blanks) := by
  refine ⟨⟨[], ?_⟩, run_of_isOk ?_⟩
  · rcases h with rfl | rfl
    · decide +kernel
    · decide +kernel
  · rcases h with rfl | rfl
    · decide +kernel
    · decide +kernel

theorem actionLine_minus : ActionLine (lit "f /b-c 0644 0 0 0 0 -" ++ [newline]) :=
  ⟨lit "f", lit "/b-c", [lit "0644", lit "0", lit "0", lit "0", lit "0", lit "-"],
    by decide +kernel, by decide⟩

end Radmind
