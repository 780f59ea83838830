import Radmind.Lcksum.Run
import Radmind.Transcript.Text

/-!
# What `lcksum` writes

A run that writes the transcript anew copies each line, or puts the size and the checksum of
the file into it.  What it has written is right, so that the next run finds it verified.
-/

namespace Radmind

/-! ## The lines of a transcript -/

/-- The text of some lines. -/
def linesText (ls : List (List Byte)) : List Byte := ls.flatMap fun l => l ++ [newline]

/-- A line that `fgets` reads whole. -/
structure LineText (l : List Byte) : Prop where
  nulFree : NulFree l
  newlineFree : newline ∉ l
  short : l.length + 1 < maxPathLen

theorem LineText.fgets {l : List Byte} (h : LineText l) (rest : List Byte) :
    fgets maxPathLen (l ++ newline :: rest) = some (l ++ [newline], rest) := by
  have hshort := h.short
  rw [Radmind.fgets, if_neg (by simp), readBytes_line h.newlineFree (by omega)]

theorem fileLines_linesText {ls : List (List Byte)} (h : ∀ l ∈ ls, LineText l) :
    fileLines (linesText ls) = ls.map (· ++ [newline]) := by
  induction ls with
  | nil => rfl
  | cons l ls ih =>
    obtain ⟨hl, hls⟩ := List.forall_mem_cons.mp h
    have hfgets := hl.fgets (linesText ls)
    rw [show l ++ newline :: linesText ls = linesText (l :: ls) by simp [linesText]] at hfgets
    rw [fileLines_some hfgets, ih hls]
    rfl

/-! ## The words of a line -/

/-- What a line is about: the words from the type on, with whether a '-' stands before them.
Blank lines and comments are about nothing. -/
def lineEntry (l : List Byte) : Option (Bool × List CStr) :=
  match lineWords (l ++ [newline]) with
  | [] => none
  | word :: ws =>
    if word.head? = some hash then none
    else if word.head? = some minus then some (true, ws)
    else some (false, word :: ws)

/-- The path a word stands for. -/
def wordPath (name : CStr) : CStr := cstr (decoded name)

theorem length_decodedOver (cells s : List Byte) : (decodedOver cells s).length = units s := by
  fun_induction decodedOver cells s <;> simp_all [units]

theorem length_wordPath_le (name : CStr) : (wordPath name).length ≤ name.length :=
  (length_cstr_le _).trans ((length_decodedOver [] name).le.trans (units_le_length name))

/-- A word in memory decodes to its path. -/
theorem decode_word {name mem : List Byte} (hname : Encoded name) (hmem : cstr mem = name)
    (hnul : nul ∈ mem) (hlen : name.length < maxPathLen) (buf : List Byte) :
    (decode buf mem).1 = some (wordPath name) := by
  obtain ⟨s, rest, rfl, hs⟩ := List.eq_append_cons_of_mem hnul
  rw [cstr_append_nul hs] at hmem
  subst hmem
  have hunits := units_le_length s
  exact decode_wellEscaped hs hname.wellEscaped (by omega) (by omega) buf rest

section

variable {cfg : LcksumConfig} {l : List Byte} {st : LcksumState}

theorem LineText.cstr (h : LineText l) : Radmind.cstr (l ++ [newline]) = l ++ [newline] :=
  cstr_of_nulFree (nulFree_append.mpr ⟨h.nulFree, by decide⟩)

/-- A word of a line is shorter than the line. -/
theorem acavParse_word_length {mem : List Byte} (h : mem ∈ (acavParse (l ++ [newline] ++ [nul])).2) :
    nul ∈ mem ∧ (Radmind.cstr mem).length ≤ l.length + 1 := by
  have hnul := (acavParse_word h).2
  have hsuffix := (acavLoop_suffix [] false _ mem h).length_le
  obtain ⟨s, rest, rfl, hs⟩ := List.eq_append_cons_of_mem hnul
  rw [cstr_append_nul hs]
  rw [acavLoop_length] at hsuffix
  simp at hsuffix
  exact ⟨hnul, by omega⟩

/-- The first byte of a word in memory is that of the word. -/
theorem head?_word {mem : List Byte} (h : mem ∈ (acavParse (l ++ [newline] ++ [nul])).2) :
    mem.head? = (Radmind.cstr mem).head? := by
  have hne := (acavParse_word h).1
  cases mem with
  | nil => rfl
  | cons c mem =>
    by_cases hc : c = nul
    · subst hc
      exact absurd rfl hne
    · rw [cstr_cons hc]
      rfl

/-- A blank line or a comment is copied. -/
theorem lcksumLine_comment (h : LineText l) (hentry : lineEntry l = none) :
    lcksumLine cfg st (l ++ [newline]) =
      (⟨[], .done⟩, { st with linenum := st.linenum + 1 }.copy cfg (l ++ [newline])) := by
  unfold lcksumLine
  simp only [h.cstr]
  rw [if_neg (by simp)]
  have hhead := @head?_word l
  unfold lineEntry lineWords words at hentry
  generalize (acavParse (l ++ [newline] ++ [nul])).2 = mems at hentry hhead
  cases mems with
  | nil => rfl
  | cons mem mems =>
    simp only [List.map_cons] at hentry
    rw [← hhead List.mem_cons_self] at hentry
    split_ifs at hentry with hhash
    simp only [if_pos hhash]

/-- Any other line that has a path is looked at from its type on. -/
theorem lcksumLine_entry (h : LineText l) {remove : Bool} {ws : List CStr}
    (hentry : lineEntry l = some (remove, ws)) (hpath : 2 ≤ ws.length) :
    ∃ targv, targv.map Radmind.cstr = ws ∧
      (∀ mem ∈ targv, nul ∈ mem ∧ (Radmind.cstr mem).length < maxPathLen) ∧
      lcksumLine cfg st (l ++ [newline]) =
        lcksumEntry cfg { st with linenum := st.linenum + 1 } (l ++ [newline]) remove targv := by
  unfold lcksumLine
  simp only [h.cstr]
  rw [if_neg (by simp)]
  have hhead := @head?_word l
  have hword : ∀ mem ∈ (acavParse (l ++ [newline] ++ [nul])).2,
      nul ∈ mem ∧ (Radmind.cstr mem).length < maxPathLen := by
    intro mem hmem
    have hshort := h.short
    have hlength := acavParse_word_length hmem
    exact ⟨hlength.1, by omega⟩
  unfold lineEntry lineWords words at hentry
  generalize (acavParse (l ++ [newline] ++ [nul])).2 = mems at hentry hhead hword
  cases mems with
  | nil => cases hentry
  | cons mem mems =>
    simp only [List.map_cons] at hentry
    rw [← hhead List.mem_cons_self] at hentry
    split_ifs at hentry with hhash hminus
    · obtain ⟨rfl, rfl⟩ := Prod.mk.inj (Option.some.inj hentry)
      refine ⟨mems, rfl, fun m hm => hword m (List.mem_cons_of_mem _ hm), ?_⟩
      have hne : mems ≠ [] := by
        intro hnil
        simp [hnil] at hpath
      simp only [if_neg hhash, if_neg hne, if_pos hminus]
    · obtain ⟨rfl, rfl⟩ := Prod.mk.inj (Option.some.inj hentry)
      refine ⟨mem :: mems, rfl, hword, ?_⟩
      have hne : mems ≠ [] := by
        intro hnil
        simp [hnil] at hpath
      simp only [if_neg hhash, if_neg hne, if_neg hminus]

end

/-! ## Lines that can be checked -/

/-- The words of a line that lists a file. -/
structure FileWords where
  type : CStr
  name : CStr
  mode : CStr
  uid : CStr
  gid : CStr
  mtime : CStr
  size : CStr
  cksum : CStr

def FileWords.list (w : FileWords) : List CStr :=
  [w.type, w.name, w.mode, w.uid, w.gid, w.mtime, w.size, w.cksum]

section

variable (cfg : LcksumConfig)

/-- The file of a line can be opened and read, and is a regular one: what `fstat` says is the
number of its bytes. -/
structure Available (w : FileWords) (file : ServerFile) (stMtime stSize : BitVec 64) : Prop where
  path_lt : (lcksumPath cfg (wordPath w.name)).length < maxPathLen
  server : cfg.server (lcksumPath cfg (wordPath w.name)) = some file
  stat : file.stat = some (stMtime, stSize)
  readable : file.readable = true
  closes : file.closes = true
  size : stSize.toInt = file.content.length
  apple : w.type.head? = some 97 → cfg.checkapplefile = true →
    file.seekable = true ∧ ckapplefile file.content = some stSize.toInt
  digest : cfg.digest file.content ≠ []

/-- A line that lists a file under the prefix, without a '-'. -/
structure FileLine (l : List Byte) (w : FileWords) (file : ServerFile)
    (stMtime stSize : BitVec 64) : Prop where
  entry : lineEntry l = some (false, w.list)
  inside : outsidePrefix cfg (wordPath w.name) = false
  lists : listsFile false w.type = true
  available : Available cfg w file stMtime stSize

/-- The size or the checksum that is listed differs from the file. -/
def Differs (w : FileWords) (file : ServerFile) : Prop :=
  (file.content.length : Int) ≠ strtol 10 w.size ∨ base64E (cfg.digest file.content) ≠ w.cksum

instance (w : FileWords) (file : ServerFile) : Decidable (Differs cfg w file) :=
  inferInstanceAs (Decidable (_ ∨ _))

/-- The line that is written for a file. -/
def FileWords.text (w : FileWords) (file : ServerFile) (stMtime stSize : BitVec 64) : CStr :=
  lcksumText w.type w.name w.mode w.uid w.gid w.mtime w.cksum stMtime stSize
    (base64E (cfg.digest file.content))

/-- The words of that line. -/
def FileWords.repaired (w : FileWords) (file : ServerFile) (stMtime stSize : BitVec 64) :
    FileWords :=
  { w with
    mtime := if w.cksum ≠ [minus] then printInt stMtime.toInt else w.mtime
    size := printInt stSize.toInt
    cksum := base64E (cfg.digest file.content) }

/-- The path of a line comes behind the one before it. -/
def Behind (prepath path : CStr) : Prop :=
  prepath = [] ∨ 0 < pathcasecmp path prepath cfg.caseSensitive

/-- A valid line behind `prepath`, with what `prepath` is behind it: a comment, a line outside of
the prefix, one that is not compared, or one whose file can be read.  The words are those the
tools write, and what is written fits the buffer. -/
inductive CheckableLine : CStr → List Byte → CStr → Prop
  | comment {p l} : lineEntry l = none → CheckableLine p l p
  | outside {p l remove type name rest} :
      lineEntry l = some (remove, type :: name :: rest) → Encoded name →
      outsidePrefix cfg (wordPath name) = true → CheckableLine p l p
  | other {p l remove type name rest} :
      lineEntry l = some (remove, type :: name :: rest) → Encoded name →
      outsidePrefix cfg (wordPath name) = false → Behind cfg p (wordPath name) →
      listsFile remove type = false → CheckableLine p l (wordPath name)
  | file {p l w file stMtime stSize} : FileLine cfg l w file stMtime stSize →
      (∀ v ∈ w.list, Encoded v) → Behind cfg p (wordPath w.name) →
      (Differs cfg w file → (w.text cfg file stMtime stSize).length < maxPathLen) →
      CheckableLine p l (wordPath w.name)

/-- A transcript of valid lines in order. -/
inductive CheckableLines : CStr → List (List Byte) → Prop
  | nil {p} : CheckableLines p []
  | cons {p p' l ls} : LineText l → CheckableLine cfg p l p' → CheckableLines p' ls → CheckableLines p (l :: ls)

/-- No file is listed that differs from the line. -/
def RightLine (l : List Byte) : Prop :=
  ∀ w file stMtime stSize, FileLine cfg l w file stMtime stSize → ¬ Differs cfg w file

/-- A line stays as it is, unless it lists a file under the prefix without a '-' and differs from
it: then it gets the size and the checksum of the file, and its time if it had a checksum. -/
inductive Repairs (l : List Byte) : List Byte → Prop
  | same : RightLine cfg l → Repairs l l
  | repaired {l' w file stMtime stSize} : FileLine cfg l w file stMtime stSize →
      Differs cfg w file →
      lineEntry l' = some (false, (w.repaired cfg file stMtime stSize).list) → Repairs l l'

end

/-! ## One line -/

section

variable {cfg : LcksumConfig} {l line : List Byte} {st : LcksumState}

theorem behind_iff {prepath path : CStr} : Behind cfg prepath path ↔
    ¬ (prepath ≠ [] ∧ pathcasecmp path prepath cfg.caseSensitive ≤ 0) := by
  rw [Behind, not_and_or, not_not, not_le]

/-- The work on a line from its type on, by its words. -/
theorem lcksumEntry_eq {remove : Bool} {targv : List (List Byte)} {type name : CStr}
    {rest : List CStr} (htargv : targv.map cstr = type :: name :: rest)
    (hmem : ∀ mem ∈ targv, nul ∈ mem ∧ (cstr mem).length < maxPathLen) (hname : Encoded name) :
    ∃ buf, (outsidePrefix cfg (wordPath name) = true →
        lcksumEntry cfg st line remove targv =
          (⟨[], .done⟩, { st with buf := buf }.copy cfg line)) ∧
      (outsidePrefix cfg (wordPath name) = false → Behind cfg st.prepath (wordPath name) →
        lcksumEntry cfg st line remove targv =
          let st := { st with
            buf := buf
            prefixfound := st.prefixfound || cfg.pathPrefix.isSome
            prepath := wordPath name }
          if !listsFile remove type then (⟨[], .done⟩, st.copy cfg line)
          else lcksumFile cfg st line (wordPath name) (type :: name :: rest)) := by
  obtain ⟨typeMem, targv, rfl⟩ : ∃ m ms, targv = m :: ms :=
    List.exists_cons_of_ne_nil fun h => by simp [h] at htargv
  obtain ⟨nameMem, targv, rfl⟩ : ∃ m ms, targv = m :: ms :=
    List.exists_cons_of_ne_nil fun h => by simp [h] at htargv
  simp only [List.map_cons, List.cons.injEq] at htargv
  obtain ⟨htype, hnameMem, hrest⟩ := htargv
  obtain ⟨hnul, hlen⟩ := hmem nameMem (by simp)
  rw [hnameMem] at hlen
  have hdecode := decode_word hname hnameMem hnul hlen st.buf
  have hpath := length_wordPath_le name
  refine ⟨(decode st.buf nameMem).2, fun hout => ?_, fun hin hbehind => ?_⟩
  · rw [lcksumEntry, show decode st.buf nameMem = (some (wordPath name),
      (decode st.buf nameMem).2) from Prod.ext hdecode rfl]
    simp only
    rw [if_neg (by omega), if_pos hout]
  · rw [lcksumEntry, show decode st.buf nameMem = (some (wordPath name),
      (decode st.buf nameMem).2) from Prod.ext hdecode rfl]
    simp only
    rw [if_neg (by omega), if_neg (by simp [hin]), if_neg (behind_iff.mp hbehind), htype]
    simp only [List.map_cons, htype, hnameMem, hrest]

theorem lcksumCompare_update (hupdate : cfg.updatetran = true) (wrong : Bool)
    (report update : LcksumReport) : lcksumCompare cfg wrong report update st =
      (if wrong then [update] else [], { st with ucount := st.ucount + wrong.toNat }) := by
  cases wrong <;> simp [lcksumCompare, hupdate]

/-- The work on a file that is available. -/
theorem lcksumFile_update (hupdate : cfg.updatetran = true) {w : FileWords} {file : ServerFile}
    {stMtime stSize : BitVec 64} (h : Available cfg w file stMtime stSize) :
    ∃ reports n, lcksumFile cfg st line (wordPath w.name) w.list = (⟨reports, .done⟩,
        { st with
          ucount := st.ucount + n
          ufs := st.ufs ++ if Differs cfg w file then w.text cfg file stMtime stSize else line }) ∧
      (n = 0 ↔ ¬ Differs cfg w file) := by
  have hpath := h.path_lt
  have hopened : lcksumFile cfg st line (wordPath w.name) w.list =
      lcksumOpened cfg st line (wordPath w.name) file stMtime stSize file.content.length
        (base64E (cfg.digest file.content)) w.type w.name w.mode w.uid w.gid w.mtime w.size
        w.cksum := by
    rw [FileWords.list, lcksumFile, if_neg (by omega)]
    simp only [h.server, h.stat, doFcksum, h.readable, if_true]
  -- neither `lseek` nor `ckapplefile` fails
  have hseek : ¬ ((decide (w.type.head? = some 97) && cfg.checkapplefile) && !file.seekable) =
      true := by
    simp only [Bool.and_eq_true, decide_eq_true_eq, Bool.not_eq_true']
    intro ⟨⟨htype, happle⟩, hseek⟩
    rw [(h.apple htype happle).1] at hseek
    cases hseek
  have happle : ¬ ((decide (w.type.head? = some 97) && cfg.checkapplefile) &&
      ckapplefile file.content ≠ some stSize.toInt) = true := by
    simp only [Bool.and_eq_true, decide_eq_true_eq]
    intro ⟨⟨htype, happle⟩, hsize⟩
    exact hsize (h.apple htype happle).2
  rw [hopened, lcksumOpened]
  simp only [lcksumCompare_update hupdate]
  rw [if_neg hseek, if_neg happle, if_neg (by simp [h.closes])]
  have hiff : Differs cfg w file ↔ (decide ((file.content.length : Int) ≠ strtol 10 w.size) ||
      decide (base64E (cfg.digest file.content) ≠ w.cksum)) = true := by
    simp [Differs]
  generalize decide ((file.content.length : Int) ≠ strtol 10 w.size) = sizeBad at hiff ⊢
  generalize decide (base64E (cfg.digest file.content) ≠ w.cksum) = cksumBad at hiff ⊢
  refine ⟨(if sizeBad then [.sizeUpdated (wordPath w.name)] else []) ++
    (if cksumBad then [.checksumUpdated (wordPath w.name)] else []),
    sizeBad.toNat + cksumBad.toNat, ?_, ?_⟩
  · by_cases hdiffers : Differs cfg w file
    · rw [if_pos (hiff.mp hdiffers), if_pos hdiffers]
      simp only [LcksumState.copy, hupdate, if_true, FileWords.text, Nat.add_assoc]
    · rw [if_neg (hiff.not.mp hdiffers), if_neg hdiffers]
      simp only [LcksumState.copy, hupdate, if_true, Nat.add_assoc]
  · rw [hiff]
    cases sizeBad <;> cases cksumBad <;> simp

end

/-! ## The line that is written -/

section

variable {cfg : LcksumConfig} {l : List Byte} {w : FileWords} {file : ServerFile}
  {stMtime stSize : BitVec 64}

/-- Words have bytes. -/
theorem lineEntry_ne_nil {remove : Bool} {ws : List CStr} (h : lineEntry l = some (remove, ws)) :
    ∀ v ∈ ws, v ≠ [] := by
  have hwords : ∀ v ∈ lineWords (l ++ [newline]), v ≠ [] := by
    intro v hv
    obtain ⟨mem, hmem, rfl⟩ := List.mem_map.mp hv
    exact (acavParse_word hmem).1
  unfold lineEntry at h
  generalize lineWords (l ++ [newline]) = words at h hwords
  cases words with
  | nil => cases h
  | cons word words =>
    simp only at h
    split_ifs at h
    · obtain ⟨-, rfl⟩ := Prod.mk.inj (Option.some.inj h)
      exact fun v hv => hwords v (List.mem_cons_of_mem _ hv)
    · obtain ⟨-, rfl⟩ := Prod.mk.inj (Option.some.inj h)
      exact hwords

/-- A word in a column, after a space. -/
def wordColumn (width : Nat) (v : List Byte) : List Byte × List Byte :=
  (space :: List.replicate (width - v.length) space, v)

/-- The words behind the type, with the blanks before them. -/
def FileWords.row (w : FileWords) : List (List Byte × List Byte) :=
  [([space], w.name),
    (List.replicate (37 - w.name.length) space ++ (wordColumn 4 w.mode).1, w.mode),
    wordColumn 5 w.uid, wordColumn 5 w.gid, wordColumn 9 w.mtime, wordColumn 7 w.size,
    ([space], w.cksum)]

theorem FileWords.text_eq : w.text cfg file stMtime stSize =
    lineText w.type (w.repaired cfg file stMtime stSize).row := by
  simp only [FileWords.text, lcksumText, padLeft, padRight, lineText, FileWords.row,
    FileWords.repaired, wordColumn, List.flatMap_cons, List.flatMap_nil, List.append_assoc,
    List.cons_append, List.nil_append, List.append_nil]

theorem isGap_replicate (n : Nat) : ∀ c ∈ List.replicate n space, isGap c :=
  fun _ hc => .inl (List.eq_of_mem_replicate hc)

theorem isGap_wordColumn (width : Nat) (v : List Byte) : ∀ c ∈ (wordColumn width v).1, isGap c :=
  List.forall_mem_cons.mpr ⟨.inl rfl, isGap_replicate _⟩

/-- The words of a file line are a row of it. -/
theorem FileWords.row_ok (hencoded : ∀ v ∈ w.list, Encoded v) (hne : ∀ v ∈ w.list, v ≠ []) :
    Row w.type w.row := by
  simp only [FileWords.list, List.forall_mem_cons] at hencoded hne
  obtain ⟨e1, e2, e3, e4, e5, e6, e7, e8, -⟩ := hencoded
  obtain ⟨n1, n2, n3, n4, n5, n6, n7, n8, -⟩ := hne
  have hspace : ∀ c ∈ [space], isGap c := isGap_replicate 1
  have hname : ∀ c ∈ List.replicate (37 - w.name.length) space ++ (wordColumn 4 w.mode).1,
      isGap c := by
    intro c hc
    rcases List.mem_append.mp hc with hc | hc
    · exact isGap_replicate _ c hc
    · exact isGap_wordColumn _ _ c hc
  refine .more e1 n1 (by simp) hspace (.more e2 n2 (by simp [wordColumn]) hname ?_)
  refine .more e3 n3 (by simp) (isGap_wordColumn 5 w.uid) ?_
  refine .more e4 n4 (by simp) (isGap_wordColumn 5 w.gid) ?_
  refine .more e5 n5 (by simp) (isGap_wordColumn 9 w.mtime) ?_
  refine .more e6 n6 (by simp) (isGap_wordColumn 7 w.size) ?_
  exact .more e7 n7 (by simp) hspace (.last (e8.solid rfl) n8)

/-- The words of the file are as the tools write them. -/
theorem FileWords.repaired_ok (h : Available cfg w file stMtime stSize)
    (hencoded : ∀ v ∈ w.list, Encoded v) (hne : ∀ v ∈ w.list, v ≠ []) :
    (∀ v ∈ (w.repaired cfg file stMtime stSize).list, Encoded v) ∧
      ∀ v ∈ (w.repaired cfg file stMtime stSize).list, v ≠ [] := by
  have hsize := encoded_printInt stSize.toInt
  have hmtime := encoded_printInt stMtime.toInt
  simp only [FileWords.list, FileWords.repaired, List.forall_mem_cons] at hencoded hne ⊢
  obtain ⟨e1, e2, e3, e4, e5, e6, -, -, -⟩ := hencoded
  obtain ⟨n1, n2, n3, n4, n5, n6, -, -, -⟩ := hne
  have hnil : ∀ {P : CStr → Prop}, ∀ v ∈ ([] : List CStr), P v :=
    fun _ hv => absurd hv List.not_mem_nil
  constructor
  · refine ⟨e1, e2, e3, e4, e5, ?_, hsize.1, encoded_base64E _, hnil⟩
    split_ifs
    · exact hmtime.1
    · exact e6
  · refine ⟨n1, n2, n3, n4, n5, ?_, hsize.2, base64E_ne_nil h.digest, hnil⟩
    split_ifs
    · exact hmtime.2
    · exact n6

/-- What is listed then is right. -/
theorem FileWords.repaired_right (h : Available cfg w file stMtime stSize) :
    ¬ Differs cfg (w.repaired cfg file stMtime stSize) file := by
  have hlo := stSize.le_toInt
  have hhi := stSize.toInt_lt
  refine not_or.mpr ⟨?_, ?_⟩
  · rw [not_not, FileWords.repaired]
    rw [strtol_printInt (by omega) (by omega), h.size]
  · rw [not_not, FileWords.repaired]

/-- The line that is written lists the same file, and is right. -/
theorem FileLine.rewritten (h : FileLine cfg l w file stMtime stSize)
    (hencoded : ∀ v ∈ w.list, Encoded v)
    (hfits : (w.text cfg file stMtime stSize).length < maxPathLen) :
    ∃ l', w.text cfg file stMtime stSize = l' ++ [newline] ∧ LineText l' ∧
      FileLine cfg l' (w.repaired cfg file stMtime stSize) file stMtime stSize ∧
      ∀ v ∈ (w.repaired cfg file stMtime stSize).list, Encoded v := by
  obtain ⟨hencoded', hne'⟩ := FileWords.repaired_ok h.available hencoded (lineEntry_ne_nil h.entry)
  have hrow := FileWords.row_ok hencoded' hne'
  obtain ⟨l', hl', hnul, hnl⟩ := hrow.line
  have htext : w.text cfg file stMtime stSize = l' ++ [newline] := by
    rw [FileWords.text_eq, ← hl']
    rfl
  have hwords : lineWords (l' ++ [newline]) = (w.repaired cfg file stMtime stSize).list := by
    rw [← hl']
    exact lineWords_row hrow fun v hv => (hencoded' v hv).nulFree
  have htype : w.type.head? = some 102 ∨ w.type.head? = some 97 := by
    simpa [listsFile] using h.lists
  refine ⟨l', htext, ⟨hnul, hnl, ?_⟩, ⟨?_, h.inside, h.lists, ?_⟩, hencoded'⟩
  · rw [htext, List.length_append] at hfits
    exact hfits
  · rw [lineEntry, hwords]
    show (if w.type.head? = some hash then none
      else if w.type.head? = some minus then _ else _) = _
    rw [if_neg (by rcases htype with h | h <;> rw [h] <;> decide),
      if_neg (by rcases htype with h | h <;> rw [h] <;> decide)]
    rfl
  · exact { h.available with }

end

/-! ## The lines of a run -/

/-- What a valid line comes to: the line that is written for it, and how often it is counted. -/
structure LcksumWritten (cfg : LcksumConfig) (p : CStr) (l : List Byte) (p' : CStr) (l' : List Byte)
    (n : Nat) : Prop where
  repairs : Repairs cfg l l'
  text : LineText l'
  checkable : CheckableLine cfg p l' p'
  right : RightLine cfg l'
  same : n = 0 ↔ RightLine cfg l
  kept : n = 0 → l' = l

section

variable {cfg : LcksumConfig} {l : List Byte} {p p' : CStr} {st : LcksumState}

/-- A line that lists no file is right. -/
theorem written_same (htext : LineText l) (h : CheckableLine cfg p l p') (hright : RightLine cfg l) :
    LcksumWritten cfg p l p' l 0 :=
  ⟨.same hright, htext, h, hright, by simp [hright], fun _ => rfl⟩

theorem FileLine.unique {w w' : FileWords} {file file' : ServerFile}
    {stMtime stSize stMtime' stSize' : BitVec 64} (h : FileLine cfg l w file stMtime stSize)
    (h' : FileLine cfg l w' file' stMtime' stSize') : w = w' ∧ file = file' := by
  have hlist : w.list = w'.list := (Prod.mk.inj (Option.some.inj (h.entry.symm.trans h'.entry))).2
  have hw : w = w' := by
    obtain ⟨_, _, _, _, _, _, _, _⟩ := w
    obtain ⟨_, _, _, _, _, _, _, _⟩ := w'
    simpa [FileWords.list] using hlist
  subst hw
  exact ⟨rfl, Option.some.inj (h.available.server.symm.trans h'.available.server)⟩

/-- One line of a run that writes the transcript. -/
theorem lcksumLine_written (hupdate : cfg.updatetran = true) (htext : LineText l)
    (h : CheckableLine cfg p l p') (hst : st.prepath = p) :
    ∃ l' n reports st', lcksumLine cfg st (l ++ [newline]) = (⟨reports, .done⟩, st') ∧
      st'.prepath = p' ∧ st'.exitval = st.exitval ∧ st'.ufs = st.ufs ++ (l' ++ [newline]) ∧
      st'.ucount = st.ucount + n ∧ LcksumWritten cfg p l p' l' n := by
  have hcopy : ∀ st : LcksumState, st.copy cfg (l ++ [newline]) =
      { st with ufs := st.ufs ++ (l ++ [newline]) } := by
    intro st
    rw [LcksumState.copy, if_pos hupdate]
  cases h with
  | comment hentry =>
    refine ⟨l, 0, [], _, lcksumLine_comment htext hentry, ?_⟩
    rw [hcopy]
    refine ⟨hst, rfl, rfl, rfl, written_same htext (.comment hentry) ?_⟩
    intro w file stMtime stSize hfile
    have hnone := hentry.symm.trans hfile.entry
    cases hnone
  | @outside remove type name rest hentry hname hout =>
    obtain ⟨targv, htargv, hmem, hline⟩ := @lcksumLine_entry cfg l st htext _ _ hentry (by simp)
    obtain ⟨buf, hcopied, -⟩ := @lcksumEntry_eq cfg (l ++ [newline])
      { st with linenum := st.linenum + 1 } remove targv type name rest htargv hmem hname
    refine ⟨l, 0, [], _, hline.trans (hcopied hout), ?_⟩
    rw [hcopy]
    refine ⟨hst, rfl, rfl, rfl, written_same htext (.outside hentry hname hout) ?_⟩
    intro w file stMtime stSize hfile
    obtain ⟨-, hlist⟩ := Prod.mk.inj (Option.some.inj (hentry.symm.trans hfile.entry))
    simp only [FileWords.list, List.cons.injEq] at hlist
    rw [hlist.2.1, hfile.inside] at hout
    cases hout
  | @other remove type name rest hentry hname hin hbehind hlists =>
    obtain ⟨targv, htargv, hmem, hline⟩ := @lcksumLine_entry cfg l st htext _ _ hentry (by simp)
    obtain ⟨buf, -, hentered⟩ := @lcksumEntry_eq cfg (l ++ [newline])
      { st with linenum := st.linenum + 1 } remove targv type name rest htargv hmem hname
    have hrun := hentered hin (hst ▸ hbehind)
    simp only [hlists, Bool.not_false, if_true] at hrun
    refine ⟨l, 0, [], _, hline.trans hrun, ?_⟩
    rw [hcopy]
    refine ⟨rfl, rfl, rfl, rfl, written_same htext (.other hentry hname hin hbehind hlists) ?_⟩
    intro w file stMtime stSize hfile
    obtain ⟨hremove, hlist⟩ := Prod.mk.inj (Option.some.inj (hentry.symm.trans hfile.entry))
    simp only [FileWords.list, List.cons.injEq] at hlist
    rw [hremove, hlist.1, hfile.lists] at hlists
    cases hlists
  | @file w file stMtime stSize hfile hencoded hbehind hfits =>
    obtain ⟨targv, htargv, hmem, hline⟩ :=
      @lcksumLine_entry cfg l st htext _ _ hfile.entry (by simp [FileWords.list])
    obtain ⟨buf, -, hentered⟩ := @lcksumEntry_eq cfg (l ++ [newline])
      { st with linenum := st.linenum + 1 } false targv w.type w.name _ htargv hmem
      (hencoded w.name (by simp [FileWords.list]))
    have hrun := hentered hfile.inside (hst ▸ hbehind)
    simp only [hfile.lists, Bool.not_true, Bool.false_eq_true, if_false] at hrun
    obtain ⟨reports, n, hchecked, hn⟩ := @lcksumFile_update cfg (l ++ [newline])
      { st with
        linenum := st.linenum + 1
        buf := buf
        prefixfound := st.prefixfound || cfg.pathPrefix.isSome
        prepath := wordPath w.name } hupdate w file stMtime stSize hfile.available
    have hright : RightLine cfg l ↔ ¬ Differs cfg w file := by
      refine ⟨fun h => h _ _ _ _ hfile, fun h w' file' _ _ hfile' => ?_⟩
      obtain ⟨rfl, rfl⟩ := hfile.unique hfile'
      exact h
    have hsteps := hline.trans (hrun.trans hchecked)
    by_cases hdiffers : Differs cfg w file
    · obtain ⟨l', htext', hlt', hfile', hencoded'⟩ :=
        hfile.rewritten hencoded (hfits hdiffers)
      have hrepaired := FileWords.repaired_right hfile.available
      rw [if_pos hdiffers, htext'] at hsteps
      refine ⟨l', n, reports, _, hsteps, rfl, rfl, rfl, rfl,
        .repaired hfile hdiffers hfile'.entry, hlt', ?_, ?_, hn.trans hright.symm, ?_⟩
      · exact @CheckableLine.file cfg p l' (w.repaired cfg file stMtime stSize) file stMtime stSize
          hfile' hencoded' hbehind fun h => absurd h hrepaired
      · intro w' file' _ _ hfile''
        obtain ⟨rfl, rfl⟩ := hfile'.unique hfile''
        exact hrepaired
      · exact fun hzero => absurd hdiffers (hn.mp hzero)
    · rw [if_neg hdiffers] at hsteps
      obtain rfl := hn.mpr hdiffers
      exact ⟨l, 0, reports, _, hsteps, rfl, rfl, rfl, rfl,
        written_same htext (.file hfile hencoded hbehind hfits) (hright.mpr hdiffers)⟩

/-- All lines of a run that writes the transcript: they are written one after the other, and can
be checked again. -/
theorem lcksumLoop_written (hupdate : cfg.updatetran = true) {ls : List (List Byte)}
    (h : CheckableLines cfg p ls) (hst : st.prepath = p) (hexit : st.exitval = false) :
    ∃ ls' n reports st', lcksumLoop cfg (ls.map (· ++ [newline])) st = (reports, some (st', false)) ∧
      st'.ufs = st.ufs ++ linesText ls' ∧ st'.ucount = st.ucount + n ∧
      List.Forall₂ (Repairs cfg) ls ls' ∧ CheckableLines cfg p ls' ∧
      (∀ l ∈ ls', RightLine cfg l) ∧ (n = 0 ↔ ∀ l ∈ ls, RightLine cfg l) ∧ (n = 0 → ls' = ls) := by
  induction h generalizing st with
  | nil => exact ⟨[], 0, [], st, rfl, by simp [linesText], rfl, .nil, .nil, by simp, by simp, by simp⟩
  | @cons p p' l ls htext hl _ ih =>
    obtain ⟨l', n, reports, st₁, hline, hst₁, hexit₁, hufs₁, hucount₁, hw⟩ :=
      lcksumLine_written hupdate htext hl hst
    obtain ⟨ls', m, reports', st', hloop, hufs, hucount, hrepairs, hcheck, hright, hm, hkept⟩ :=
      ih hst₁ (hexit₁.trans hexit)
    refine ⟨l' :: ls', n + m, ⟨reports, .done⟩ :: reports', st', ?_, ?_, ?_,
      .cons hw.repairs hrepairs, .cons hw.text hw.checkable hcheck,
      List.forall_mem_cons.mpr ⟨hw.right, hright⟩, ?_, ?_⟩
    · rw [List.map_cons, lcksumLoop, hline]
      simp only [hexit₁, hexit, Bool.and_false, Bool.false_eq_true, if_false, hloop]
    · rw [hufs, hufs₁]
      simp [linesText]
    · rw [hucount, hucount₁, Nat.add_assoc]
    · rw [List.forall_mem_cons, ← hw.same, ← hm, Nat.add_eq_zero_iff]
    · intro hzero
      obtain ⟨hn, hm⟩ := Nat.add_eq_zero_iff.mp hzero
      rw [hw.kept hn, hkept hm]

end

theorem CheckableLines.text {cfg : LcksumConfig} {p : CStr} {ls : List (List Byte)}
    (h : CheckableLines cfg p ls) : ∀ l ∈ ls, LineText l := by
  induction h with
  | nil => simp
  | cons htext _ _ ih => exact List.forall_mem_cons.mpr ⟨htext, ih⟩

/-- What `lcksum` does to a transcript of valid lines: only files that differ from their line
are put right, and another run finds the transcript verified. -/
def OnlyRepairs (cfg : LcksumConfig) (ls : List (List Byte)) : Prop :=
  ∃ ls', (doLcksum cfg (linesText ls)).2.transcript (linesText ls) = linesText ls' ∧
    List.Forall₂ (Repairs cfg) ls ls' ∧
    (doLcksum cfg (linesText ls)).2 ≠ .failed ∧
    (doLcksum cfg (linesText ls')).2 = .verified

/-- `lcksum` only repairs, and once is enough. -/
theorem lcksum_onlyRepairs {cfg : LcksumConfig} (hupdate : cfg.updatetran = true)
    {ls : List (List Byte)} (h : CheckableLines cfg [] ls) : OnlyRepairs cfg ls := by
  obtain ⟨ls', n, reports, st, hloop, hufs, hucount, hrepairs, hcheck, hright, hn, hkept⟩ :=
    @lcksumLoop_written cfg [] .start hupdate ls h rfl rfl
  obtain ⟨ls'', m, reports', st', hloop', -, hucount', -, -, -, hm, -⟩ :=
    @lcksumLoop_written cfg [] .start hupdate ls' hcheck rfl rfl
  have hrun : (doLcksum cfg (linesText ls)).2 =
      if n ≠ 0 then .updated (linesText ls') else .verified := by
    rw [doLcksum, fileLines_linesText h.text, hloop]
    simp only [Bool.false_and, Bool.false_eq_true, if_false, hupdate, if_true, hucount, hufs]
    simp [LcksumState.start]
  have hagain : (doLcksum cfg (linesText ls')).2 = .verified := by
    rw [doLcksum, fileLines_linesText hcheck.text, hloop']
    simp only [Bool.false_and, Bool.false_eq_true, if_false, hupdate, if_true, hucount',
      hm.mpr hright]
    rfl
  refine ⟨ls', ?_, hrepairs, ?_, hagain⟩
  · rw [hrun]
    by_cases hzero : n = 0
    · rw [if_neg (not_not.mpr hzero), hkept hzero]
      rfl
    · rw [if_pos hzero]
      rfl
  · rw [hrun]
    split_ifs <;> simp

/-! ### A file that differs -/

/-- A file of one byte. -/
def oneByteFile : ServerFile where
  stat := some (7, 1)
  content := [65]
  readable := true
  seekable := true
  closes := true

/-- `lcksum` where every file is this one. -/
def updateConfig : LcksumConfig where
  caseSensitive := true
  checkall := false
  checkapplefile := false
  updatetran := true
  pathPrefix := none
  fileRoot := lit "/var/radmind/file"
  tranName := lit "base.T"
  digest content := content
  server _ := some oneByteFile
  recloses := false

/-- A line that lists another size and no checksum. -/
def wrongLine : List Byte := lit "f /a 0644 0 0 1 2 -"

def wrongWords : FileWords :=
  ⟨lit "f", lit "/a", lit "0644", lit "0", lit "0", lit "1", lit "2", lit "-"⟩

theorem wrongLine_checkable : CheckableLines updateConfig [] [wrongLine] := by
  have hencoded : ∀ v ∈ wrongWords.list, Encoded v := by
    have hplain : ∀ v ∈ wrongWords.list, NulFree v ∧ v.flatMap (encodeByte false) = v := by
      decide +kernel
    exact fun v hv => encoded_of_flatMap (hplain v hv).1 (hplain v hv).2
  have havailable : Available updateConfig wrongWords oneByteFile 7 1 :=
    ⟨by decide +kernel, rfl, rfl, rfl, rfl, by decide, by decide +kernel, by decide⟩
  have hfile : FileLine updateConfig wrongLine wrongWords oneByteFile 7 1 :=
    ⟨by decide +kernel, rfl, by decide +kernel, havailable⟩
  refine .cons ⟨by decide +kernel, by decide +kernel, by decide +kernel⟩
    (.file hfile hencoded (.inl rfl) fun _ => ?_) .nil
  decide +kernel

theorem lcksum_onlyRepairs_wrong : OnlyRepairs updateConfig [wrongLine] :=
  lcksum_onlyRepairs rfl wrongLine_checkable

end Radmind
