import Radmind.Transcript.Spurious

/-!
# Reading back what was printed

The line `t_print` writes for a record is one `transcript_parse` reads, and what it
reads has the name and the fields of the record.
-/

namespace Radmind

/-! ## A line as its words -/

section

variable (cfg : PrintConfig)

/-- A name or a link as it stands on a line. -/
def encoded (s : CStr) : List Byte := s.flatMap (encodeByte cfg.shellEscapes)

/-- The blanks between the name and the field after it. -/
def nameGap (pi : PathInfo) : List Byte :=
  List.replicate (37 - (encoded cfg pi.piName).length) space ++ [tab]

/-- A number in a column, after a space. -/
def column (width : Nat) (z : Int) : List Byte × List Byte :=
  (space :: List.replicate (width - (printInt z).length) space, printInt z)

def ownerRow (pi : PathInfo) : List (List Byte × List Byte) :=
  [(nameGap cfg pi, printMode (tMode &&& pi.piStat.stMode)), column 5 pi.piStat.stUid.toInt,
    column 5 pi.piStat.stGid.toInt]

/-- The words behind the name, with the blanks before them. -/
def fieldRow (pi : PathInfo) : List (List Byte × List Byte) :=
  match pi.piType with
  | .l => ownerRow cfg pi ++ [([space], encoded cfg pi.piLink)]
  | .h => [(nameGap cfg pi, encoded cfg pi.piLink)]
  | .a | .f => ownerRow cfg pi ++ [column 9 pi.piStat.stMtime.toInt,
      column 7 pi.piStat.stSize.toInt, ([space], pi.piCksumB64)]
  | .b | .c => ownerRow cfg pi ++ [column 5 (major pi.piStat.stRdev).toInt,
      column 5 (minor pi.piStat.stRdev).toInt]
  | _ => ownerRow cfg pi

def nameRow (pi : PathInfo) : List (List Byte × List Byte) :=
  ([space], encoded cfg pi.piName) :: fieldRow cfg pi

/-- The line of a record, with a '-' and a '+' or without. -/
def recordText (isMinus isPlus : Bool) (pi : PathInfo) : List Byte :=
  let row := ([space], [pi.piType.letter]) :: nameRow cfg pi
  match isMinus, isPlus with
  | false, false => lineText [pi.piType.letter] (nameRow cfg pi)
  | false, true => lineText [plus] row
  | true, false => lineText [minus] row
  | true, true => lineText [minus] (([space], [plus]) :: row)

theorem text_eq_recordText (happle : cfg.apple = false) (isMinus isPlus : Bool) (pi : PathInfo) :
    (OutLine.object isMinus isPlus pi).text cfg = recordText cfg isMinus isPlus pi := by
  have hfields : nameText cfg.shellEscapes pi ++ fieldsText cfg pi ++ [newline] =
      lineText [pi.piType.letter] (nameRow cfg pi) := by
    cases htype : pi.piType <;>
      simp [nameText, fieldsText, lineText, nameRow, fieldRow, htype, happle, padRight, padLeft,
        column, ← encoded.eq_def, nameGap, ownerRow, ownerText]
  have hflag : ∀ c, lineText [c] (([space], [pi.piType.letter]) :: nameRow cfg pi) =
      c :: space :: lineText [pi.piType.letter] (nameRow cfg pi) := fun c => by simp [lineText]
  have hflags : lineText [minus] (([space], [plus]) :: ([space], [pi.piType.letter]) ::
      nameRow cfg pi) = minus :: space :: plus :: space ::
        lineText [pi.piType.letter] (nameRow cfg pi) := by simp [lineText]
  cases isMinus <;> cases isPlus <;>
    simp only [OutLine.text, recordText, hflag, hflags, ← hfields] <;> simp

/-! ## Records that can be read back -/

/-- A record in the form of the run: it has a name, a link where it is one, and a
checksum the run allows in a transcript of the type. -/
structure InForm (pcfg : ParseConfig) (tType : TType) (pi : PathInfo) : Prop where
  name_nulFree : NulFree pi.piName
  name_ne_nil : pi.piName ≠ []
  name_form : convertPathType pcfg.tranFormat pi.piName = some pi.piName
  link : pi.piType = .l ∨ pi.piType = .h → NulFree pi.piLink ∧ pi.piLink ≠ []
  link_form : pi.piType = .h → convertPathType pcfg.tranFormat pi.piLink = some pi.piLink
  cksum : pi.piType.isFile = true → Solid [] pi.piCksumB64 ∧ pi.piCksumB64 ≠ [] ∧
    (tType ≠ .negative → pcfg.cksum = true → pi.piCksumB64 ≠ [minus])

/-- A record whose line `transcript_parse` accepts in a transcript of the type. -/
structure Rereadable (pcfg : ParseConfig) (tType : TType) (pi : PathInfo) : Prop
    extends InForm pcfg tType pi where
  known : pi.piType ∉ [.X, .unset]
  name_le : pi.piName.length ≤ maxPathLen
  link_le : pi.piType = .l ∨ pi.piType = .h → pi.piLink.length ≤ maxPathLen

/-- The fields of a line agree. -/
def SameFields (p q : PathInfo) : Prop :=
  match p.piType with
  | .a | .f => SameOwner p q ∧ p.piStat.stMtime = q.piStat.stMtime ∧
      p.piStat.stSize = q.piStat.stSize ∧ p.piCksumB64 = q.piCksumB64
  | .b | .c => SameOwner p q ∧ p.piStat.stRdev = q.piStat.stRdev
  | .l => SameOwner p q ∧ p.piLink = q.piLink
  | .h => p.piLink = q.piLink
  | .d | .D | .p | .s => SameOwner p q
  | .X | .unset => True

/-- `q` is what reading the line of `p` gives. -/
structure Reread (isMinus : Bool) (p q : PathInfo) : Prop where
  name : q.piName = p.piName
  minus : q.piMinus = isMinus
  type : q.piType = p.piType
  fields : SameFields p q

theorem encoded_of_digits {w : List Byte} (h : ∀ c ∈ w, IsDigit c) : Encoded w := by
  induction w with
  | nil => exact .nil
  | cons c w ih =>
    obtain ⟨hc, hw⟩ := List.forall_mem_cons.mp h
    have hne : ∀ d : Byte, d.toNat < 48 ∨ 58 ≤ d.toNat → c ≠ d := by
      intro d hd heq
      subst heq
      have := hc.1
      have := hc.2
      omega
    exact .plain (hne _ (by decide)) (hne _ (by decide)) (hne _ (by decide)) (hne _ (by decide))
      (hne _ (by decide)) (ih hw)

set_option maxRecDepth 4000 in
theorem encoded_base64E (d : List Byte) : Encoded (base64E d) := by
  have hplain : ∀ c ∈ (61 : Byte) :: b64Alphabet,
      c ≠ nul ∧ c ≠ bslash ∧ c ≠ space ∧ c ≠ tab ∧ c ≠ newline := by decide
  have hmem := mem_base64E (d := d)
  generalize base64E d = s at hmem
  induction s with
  | nil => exact .nil
  | cons c s ih =>
    obtain ⟨hc, hs⟩ := List.forall_mem_cons.mp hmem
    obtain ⟨h1, h2, h3, h4, h5⟩ := hplain c (List.mem_cons.mpr hc.symm)
    exact .plain h1 h2 h3 h4 h5 (ih hs)

set_option maxRecDepth 4000 in
theorem base64E_ne_minus (d : List Byte) : base64E d ≠ [minus] := by
  intro h
  have hminus : minus ∉ (61 : Byte) :: b64Alphabet := by decide
  exact hminus (List.mem_cons.mpr (mem_base64E (d := d) minus (by simp [h])).symm)

theorem encoded_printInt (z : Int) : Encoded (printInt z) ∧ printInt z ≠ [] := by
  have hdigits : ∀ n, Encoded (printNat 10 n) := fun n =>
    encoded_of_digits (isDigit_of_mem_printNat (by omega) le_rfl)
  unfold printInt
  split
  · exact ⟨.plain (by decide) (by decide) (by decide) (by decide) (by decide) (hdigits _),
      by simp⟩
  · exact ⟨hdigits _, printNat_ne_nil _ _⟩

theorem encoded_printMode (mode : BitVec 32) : Encoded (printMode mode) ∧ printMode mode ≠ [] := by
  refine ⟨encoded_of_digits fun c hc => ?_, ?_⟩
  · rcases List.mem_append.mp hc with hc | hc
    · rw [List.eq_of_mem_replicate hc]
      exact isDigit_digitByte (by omega)
    · exact isDigit_of_mem_printNat (by omega) (by omega) c hc
  · simp [printMode, padLeft, printNat_ne_nil]

theorem encoded_name {s : CStr} (hs : NulFree s) (hne : s ≠ []) :
    Encoded (encoded cfg s) ∧ encoded cfg s ≠ [] :=
  ⟨encoded_encode _ hs, flatMap_encodeByte_ne_nil _ hne⟩

theorem encoded_letter (type : FileType) (h : type ≠ .unset) :
    Encoded [type.letter] ∧ type.letter ≠ minus ∧ type.letter ≠ plus ∧ type.letter ≠ hash := by
  have hplain : ∀ c : Byte, c ≠ nul ∧ c ≠ bslash ∧ c ≠ space ∧ c ≠ tab ∧ c ≠ newline →
      Encoded [c] := fun c hc => .plain hc.1 hc.2.1 hc.2.2.1 hc.2.2.2.1 hc.2.2.2.2 .nil
  cases type with
  | unset => exact absurd rfl h
  | _ => exact ⟨hplain _ (by decide), by decide, by decide, by decide⟩

/-! ## The words of a line -/

theorem isGap_column (width : Nat) (z : Int) : ∀ c ∈ (column width z).1, isGap c := by
  intro c hc
  rcases List.mem_cons.mp hc with rfl | hc
  · exact .inl rfl
  · exact .inl (List.eq_of_mem_replicate hc)

theorem isGap_nameGap (pi : PathInfo) : ∀ c ∈ nameGap cfg pi, isGap c := by
  intro c hc
  rcases List.mem_append.mp hc with hc | hc
  · exact .inl (List.eq_of_mem_replicate hc)
  · exact .inr (List.mem_singleton.mp hc)

theorem isGap_space : ∀ c ∈ [space], isGap c := fun _ hc => .inl (List.mem_singleton.mp hc)

/-- A number stands before the rest of a row. -/
theorem Row.column {w : List Byte} {ws : List (List Byte × List Byte)} (width : Nat) (z : Int)
    (hw : Encoded w) (hne : w ≠ []) (hws : Row (printInt z) ws) :
    Row w (Radmind.column width z :: ws) :=
  .more hw hne (List.cons_ne_nil _ _) (isGap_column width z) hws

theorem Row.number (z : Int) : Row (printInt z) [] :=
  .last ((encoded_printInt z).1.solid rfl) (encoded_printInt z).2

variable {cfg} {pcfg : ParseConfig} {tType : TType} {pi : PathInfo}

theorem Row.owner {w : List Byte} {ws : List (List Byte × List Byte)} (hw : Encoded w)
    (hne : w ≠ []) (hws : Row (printInt pi.piStat.stGid.toInt) ws) :
    Row w (ownerRow cfg pi ++ ws) := by
  have hmode := encoded_printMode (tMode &&& pi.piStat.stMode)
  have huid := encoded_printInt pi.piStat.stUid.toInt
  refine .more hw hne (by simp [nameGap]) (isGap_nameGap cfg pi) ?_
  exact .column _ _ hmode.1 hmode.2 (.column _ _ huid.1 huid.2 hws)

theorem Rereadable.row (h : Rereadable pcfg tType pi) :
    Row (encoded cfg pi.piName) (fieldRow cfg pi) := by
  obtain ⟨hname, hne⟩ := encoded_name cfg h.name_nulFree h.name_ne_nil
  have hgid := encoded_printInt pi.piStat.stGid.toInt
  have hlink : pi.piType = .l ∨ pi.piType = .h → Row (encoded cfg pi.piLink) [] := by
    intro htype
    obtain ⟨hl, hlne⟩ := encoded_name cfg (h.link htype).1 (h.link htype).2
    exact .last (hl.solid rfl) hlne
  unfold fieldRow
  cases htype : pi.piType with
  | l =>
    exact .owner hname hne (.more hgid.1 hgid.2 (by simp) isGap_space (hlink (.inl htype)))
  | h => exact .more hname hne (by simp [nameGap]) (isGap_nameGap cfg pi) (hlink (.inr htype))
  | a | f =>
    obtain ⟨hck, hckne, -⟩ := h.cksum (by simp [FileType.isFile, htype])
    have hmtime := encoded_printInt pi.piStat.stMtime.toInt
    have hsize := encoded_printInt pi.piStat.stSize.toInt
    refine .owner hname hne (.column _ _ hgid.1 hgid.2 (.column _ _ hmtime.1 hmtime.2 ?_))
    exact .more hsize.1 hsize.2 (by simp) isGap_space (.last hck hckne)
  | b | c =>
    have hmajor := encoded_printInt (major pi.piStat.stRdev).toInt
    exact .owner hname hne (.column _ _ hgid.1 hgid.2 (.column _ _ hmajor.1 hmajor.2 (.number _)))
  | d | D | p | s | X | unset =>
    rw [← List.append_nil (ownerRow cfg pi)]
    exact .owner hname hne (.number _)

/-- The words of the line of a record. -/
def recordWords (cfg : PrintConfig) (isMinus isPlus : Bool) (pi : PathInfo) : List (List Byte) :=
  (if isMinus then [[minus]] else []) ++ (if isPlus then [[plus]] else []) ++
    [pi.piType.letter] :: encoded cfg pi.piName :: (fieldRow cfg pi).map (·.2)

variable (cfg) in
/-- The line of a record as a row of words. -/
theorem Rereadable.line (h : Rereadable pcfg tType pi) (isMinus isPlus : Bool) :
    ∃ w ws, Row w ws ∧ w.head? ≠ some hash ∧ recordText cfg isMinus isPlus pi = lineText w ws ∧
      recordWords cfg isMinus isPlus pi = w :: ws.map (·.2) := by
  have hunset : pi.piType ≠ .unset := fun hc => h.known (by simp [hc])
  obtain ⟨hletter, -, -, hhash⟩ := encoded_letter pi.piType hunset
  have hrow : Row [pi.piType.letter] (nameRow cfg pi) :=
    .more hletter (by simp) (by simp) isGap_space h.row
  have hminus : Encoded [minus] :=
    .plain (by decide) (by decide) (by decide) (by decide) (by decide) .nil
  have hplus : Encoded [plus] :=
    .plain (by decide) (by decide) (by decide) (by decide) (by decide) .nil
  cases isMinus with
  | false =>
    cases isPlus with
    | false => exact ⟨_, _, hrow, by simpa using hhash, rfl, rfl⟩
    | true =>
      exact ⟨_, _, .more hplus (by simp) (by simp) isGap_space hrow, by decide, rfl, rfl⟩
  | true =>
    cases isPlus with
    | false =>
      exact ⟨_, _, .more hminus (by simp) (by simp) isGap_space hrow, by decide, rfl, rfl⟩
    | true =>
      refine ⟨_, _, .more hminus (by simp) (by simp) isGap_space ?_, by decide, rfl, rfl⟩
      exact .more hplus (by simp) (by simp) isGap_space hrow

/-! ## Reading the line -/

/-- A word of a line in memory. -/
def Word (v mem : List Byte) : Prop := ∃ rest, mem = v ++ nul :: rest

theorem Word.cstr {v mem : List Byte} (h : Word v mem) (hv : NulFree v) : cstr mem = v := by
  obtain ⟨rest, rfl⟩ := h
  exact cstr_append_nul hv rest

theorem readBytes_line {body : List Byte} (hbody : newline ∉ body) {n : Nat}
    (hn : body.length < n) (rest : List Byte) :
    readBytes n (body ++ newline :: rest) = (body ++ [newline], rest) := by
  induction body generalizing n with
  | nil =>
    obtain ⟨n, rfl⟩ : ∃ m, n = m + 1 := ⟨n - 1, by simp only [List.length_nil] at hn; omega⟩
    simp [readBytes]
  | cons c body ih =>
    obtain ⟨n, rfl⟩ : ∃ m, n = m + 1 := ⟨n - 1, by simp only [List.length_cons] at hn; omega⟩
    have hc : c ≠ newline := fun h => hbody (by simp [h])
    have := ih (fun h => hbody (List.mem_cons_of_mem _ h)) (n := n) (by simpa using hn)
    simp [readBytes, hc, this]

/-- A line of a file that is short enough is read whole. -/
theorem readLine_row {w : List Byte} {ws : List (List Byte × List Byte)} (h : Row w ws)
    (hhash : w.head? ≠ some hash) (hlen : (lineText w ws).length < maxPathLen) (file : CStr)
    (fuel linenum : Nat) (rest : List Byte) :
    ∃ argv, List.Forall₂ Word (w :: ws.map (·.2)) argv ∧
      readLine file (fuel + 1) linenum (lineText w ws ++ rest) =
        .ok (some argv, linenum + 1, rest) := by
  have hwords := h.acavLoop (show slashes [] % 2 = 0 from rfl)
  obtain ⟨body, hbody, hnul, hline⟩ := h.line
  have hfgets : fgets maxPathLen (lineText w ws ++ rest) = some (lineText w ws, rest) := by
    have hn : body.length < maxPathLen - 1 := by
      rw [hbody, List.length_append, List.length_singleton] at hlen
      omega
    rw [fgets, if_neg (by simp [hbody]), hbody, List.append_assoc, List.singleton_append,
      readBytes_line hline hn]
  have hcstr : cstr (lineText w ws) = lineText w ws := by
    rw [hbody]
    exact cstr_of_nulFree (nulFree_append.mpr ⟨hnul, by decide⟩)
  refine ⟨_, hwords, ?_⟩
  rw [readLine, hfgets]
  simp only [hcstr]
  rw [if_neg (by simp [hbody]), if_neg (by simp [hbody])]
  cases hargv : (acavParse (lineText w ws ++ [nul])).2 with
  | nil =>
    rw [acavParse] at hargv
    rw [hargv] at hwords
    exact absurd hwords (by simp)
  | cons word argv =>
    have hsplit : (acavLoop [] false (lineText w ws ++ [nul])).2 = word :: argv := hargv
    rw [hsplit] at hwords ⊢
    obtain ⟨⟨tl, rfl⟩, -⟩ := List.forall₂_cons.mp hwords
    have hhead : (w ++ nul :: tl).head? ≠ some hash := by
      cases w with
      | nil =>
        have hne : nul ≠ hash := by decide
        simpa using hne
      | cons c w => simpa using hhash
    simp only [if_neg hhead]

theorem decodeWord_word {e : CStr} (tooLong : Exit) {s mem : List Byte} (hs : NulFree s)
    (hlen : s.length ≤ maxPathLen) (he : e = encoded cfg s) (hmem : Word e mem)
    (buf : List Byte) : ∃ buf', decodeWord tooLong buf (some mem) = .ok (s, buf') := by
  obtain ⟨rest, rfl⟩ := hmem
  have henc : encodeInternal cfg.shellEscapes s = some e := by
    rw [encodeInternal, if_neg (by omega), he, encoded]
  have hdec := decode_encodeInternal hs henc buf rest
  refine ⟨(decode buf (e ++ nul :: rest)).2, ?_⟩
  rw [decodeWord, show decode buf (e ++ nul :: rest) = (some s, _) from Prod.ext hdec rfl]

theorem decodePath_word (tooLong pathTooLong : Exit) {s mem : List Byte} (hs : NulFree s)
    (hlen : s.length ≤ maxPathLen) (hform : convertPathType pcfg.tranFormat s = some s)
    (hmem : Word (encoded cfg s) mem) (buf : List Byte) :
    ∃ buf', decodePath pcfg.tranFormat tooLong pathTooLong buf (some mem) = .ok (s, buf') := by
  obtain ⟨buf', h⟩ := decodeWord_word tooLong hs hlen rfl hmem buf
  exact ⟨buf', by simp only [decodePath, h, hform]⟩

theorem sameOwner_parseOwner (st : Stat) {q : PathInfo} {mode uid gid : List Byte}
    (hq : q.piStat.stMode = (parseOwner st mode uid gid).stMode ∧
      q.piStat.stUid = (parseOwner st mode uid gid).stUid ∧
      q.piStat.stGid = (parseOwner st mode uid gid).stGid)
    (hmode : Word (printMode (tMode &&& pi.piStat.stMode)) mode)
    (huid : Word (printInt pi.piStat.stUid.toInt) uid)
    (hgid : Word (printInt pi.piStat.stGid.toInt) gid) : SameOwner pi q := by
  obtain ⟨hm, hu, hg⟩ := hq
  have hmode' := hmode.cstr (encoded_printMode _).1.nulFree
  have huid' := huid.cstr (encoded_printInt _).1.nulFree
  have hgid' := hgid.cstr (encoded_printInt _).1.nulFree
  refine ⟨?_, ?_, ?_⟩
  · rw [hu, parseOwner, huid', atoi_printInt]
  · rw [hg, parseOwner, hgid', atoi_printInt]
  · rw [hm, parseOwner, hmode', strtol_printMode, BitVec.ofInt_natCast, BitVec.ofNat_toNat,
      BitVec.setWidth_eq, ← BitVec.and_assoc, BitVec.and_self]

/-- The switch of `transcript_parse` reads the fields of the record. -/
theorem Rereadable.parseFields (h : Rereadable pcfg tType pi) {argv : List (List Byte)}
    (hargv : List.Forall₂ Word ((fieldRow cfg pi).map (·.2)) argv) (letter name file : List Byte)
    (linenum : Nat) (p : PathInfo) :
    ∃ q, (∀ buf, ∃ buf', parseFields pcfg buf file linenum tType p pi.piType
      (letter :: name :: argv) = .ok (q, buf')) ∧ SameFields pi q := by
  have hint : ∀ {z : Int} {mem : List Byte}, Word (printInt z) mem → cstr mem = printInt z :=
    fun hw => hw.cstr (encoded_printInt _).1.nulFree
  have hwords := hargv
  unfold fieldRow at hwords
  cases htype : pi.piType with
  | X | unset => exact absurd h.known (by simp [htype])
  | d | D | p | s =>
    simp only [htype, ownerRow, column, List.map_cons, List.map_nil] at hwords
    obtain _ | ⟨hmode, _ | ⟨huid, _ | ⟨hgid, _ | _⟩⟩⟩ := hwords
    refine ⟨_, fun buf => ⟨buf, rfl⟩, ?_⟩
    rw [SameFields, htype]
    exact sameOwner_parseOwner p.piStat ⟨rfl, rfl, rfl⟩ hmode huid hgid
  | b | c =>
    simp only [htype, ownerRow, column, List.map_cons, List.map_nil, List.cons_append,
      List.nil_append] at hwords
    obtain _ | ⟨hmode, _ | ⟨huid, _ | ⟨hgid, _ | ⟨hmajor, _ | ⟨hminor, _ | _⟩⟩⟩⟩⟩ := hwords
    refine ⟨_, fun buf => ⟨buf, rfl⟩, ?_⟩
    rw [SameFields, htype]
    refine ⟨sameOwner_parseOwner p.piStat ⟨rfl, rfl, rfl⟩ hmode huid hgid, ?_⟩
    show _ = makedev _ _
    rw [hint hmajor, hint hminor, atoi_printInt, atoi_printInt, makedev_major_minor]
  | l =>
    simp only [htype, ownerRow, column, List.map_cons, List.map_nil, List.cons_append,
      List.nil_append] at hwords
    obtain _ | @⟨_, mode, _, _, hmode, _ | @⟨_, uid, _, _, huid, _ | @⟨_, gid, _, _, hgid,
      _ | ⟨hlink, _ | _⟩⟩⟩⟩ := hwords
    obtain ⟨hl, -⟩ := h.link (.inl htype)
    have hlen := h.link_le (.inl htype)
    refine ⟨{ p with piStat := parseOwner p.piStat mode uid gid, piLink := pi.piLink },
      fun buf => ?_, ?_⟩
    · obtain ⟨buf', hdec⟩ := decodeWord_word (.targetTooLong file linenum) hl hlen rfl
        hlink buf
      exact ⟨buf', by simp only [Radmind.parseFields, hdec]⟩
    · rw [SameFields, htype]
      exact ⟨sameOwner_parseOwner p.piStat ⟨rfl, rfl, rfl⟩ hmode huid hgid, rfl⟩
  | h =>
    simp only [htype, List.map_cons, List.map_nil] at hwords
    obtain _ | ⟨hlink, _ | _⟩ := hwords
    obtain ⟨hl, -⟩ := h.link (.inr htype)
    have hlen := h.link_le (.inr htype)
    refine ⟨{ p with piLink := pi.piLink }, fun buf => ?_, ?_⟩
    · obtain ⟨buf', hdec⟩ := decodePath_word (.targetTooLong file linenum)
        (.pathTooLong file linenum) hl hlen (h.link_form htype) hlink buf
      exact ⟨buf', by simp only [Radmind.parseFields, hdec]⟩
    · rw [SameFields, htype]
  | a | f =>
    simp only [htype, ownerRow, column, List.map_cons, List.map_nil, List.cons_append,
      List.nil_append] at hwords
    obtain _ | ⟨hmode, _ | ⟨huid, _ | ⟨hgid, _ | ⟨hmtime, _ | ⟨hsize, _ | ⟨hck, _ | _⟩⟩⟩⟩⟩⟩ :=
      hwords
    obtain ⟨hsolid, -, hminus⟩ := h.cksum (by simp [FileType.isFile, htype])
    have hcksum := hck.cstr hsolid.nulFree
    refine ⟨_, fun buf => ⟨buf,
      if_neg fun hc => hminus hc.1 hc.2.1 (hcksum.symm.trans hc.2.2)⟩, ?_⟩
    rw [SameFields, htype]
    refine ⟨sameOwner_parseOwner p.piStat ⟨rfl, rfl, rfl⟩ hmode huid hgid, ?_, ?_, hcksum.symm⟩
    · show _ = BitVec.ofInt 64 (strtol 10 _)
      rw [hint hmtime, ofInt_strtol_printInt]
    · show _ = BitVec.ofInt 64 (strtol 10 _)
      rw [hint hsize, ofInt_strtol_printInt]

theorem ofLetter_letter (type : FileType) (h : type ∉ [.X, .unset]) :
    FileType.ofLetter type.letter = some type := by
  cases type with
  | X | unset => exact absurd h (by simp)
  | _ => rfl

/-- The words from the type on, behind the signs. -/
theorem stripWord_recordWords (hknown : pi.piType ∉ [.X, .unset]) {isMinus isPlus : Bool}
    {argv : List (List Byte)} (hargv : List.Forall₂ Word (recordWords cfg isMinus isPlus pi) argv) :
    ∃ letter name fields, 3 ≤ argv.length ∧ strlen (argv.headD []) = 1 ∧
      stripWord plus (stripWord minus argv).2 = (isPlus, letter :: name :: fields) ∧
      (stripWord minus argv).1 = isMinus ∧ Word [pi.piType.letter] letter ∧
      Word (encoded cfg pi.piName) name ∧
      List.Forall₂ Word ((fieldRow cfg pi).map (·.2)) fields := by
  have hunset : pi.piType ≠ .unset := fun hc => hknown (by simp [hc])
  obtain ⟨hletter, hminus, hplus, -⟩ := encoded_letter pi.piType hunset
  have hone : ∀ {c : Byte} {mem : List Byte}, c ≠ nul → Word [c] mem → strlen mem = 1 :=
    fun hc hw => by rw [strlen, hw.cstr (nulFree_cons.mpr ⟨hc, nulFree_nil⟩)]; rfl
  have hnul : pi.piType.letter ≠ nul := (nulFree_cons.mp hletter.nulFree).1
  obtain ⟨v, vs, hvs⟩ : ∃ v vs, (fieldRow cfg pi).map (·.2) = v :: vs := by
    unfold fieldRow ownerRow
    cases pi.piType <;> exact ⟨_, _, rfl⟩
  -- a line has a field behind the name at least
  have hlen : ∀ {fields : List (List Byte)},
      List.Forall₂ Word ((fieldRow cfg pi).map (·.2)) fields → 1 ≤ fields.length := by
    intro fields hf
    rw [← hf.length_eq, hvs]
    simp
  have hkeep : ∀ {c : Byte} {mem : List Byte} {rest : List (List Byte)},
      pi.piType.letter ≠ c → Word [pi.piType.letter] mem →
      stripWord c (mem :: rest) = (false, mem :: rest) := by
    intro c mem rest hc hw
    obtain ⟨tl, rfl⟩ := hw
    simp [stripWord, hc]
  have htake : ∀ {c : Byte} {mem : List Byte} {rest : List (List Byte)}, Word [c] mem →
      stripWord c (mem :: rest) = (true, rest) := by
    intro c mem rest hw
    obtain ⟨tl, rfl⟩ := hw
    simp [stripWord]
  have hpm : ∀ {mem : List Byte} {rest : List (List Byte)}, Word [plus] mem →
      stripWord minus (mem :: rest) = (false, mem :: rest) := by
    intro mem rest hw
    obtain ⟨tl, rfl⟩ := hw
    rfl
  cases isMinus with
  | false =>
    cases isPlus with
    | false =>
      obtain _ | ⟨hl, _ | ⟨hn, hf⟩⟩ := hargv
      refine ⟨_, _, _, ?_, hone hnul hl, ?_, ?_, hl, hn, hf⟩
      · have := hlen hf
        simp only [List.length_cons]
        omega
      · rw [hkeep hminus hl, hkeep hplus hl]
      · rw [hkeep hminus hl]
    | true =>
      obtain _ | ⟨hp, _ | ⟨hl, _ | ⟨hn, hf⟩⟩⟩ := hargv
      refine ⟨_, _, _, by simp, hone (by decide) hp, ?_, ?_, hl, hn, hf⟩
      · rw [hpm hp, htake hp]
      · rw [hpm hp]
  | true =>
    cases isPlus with
    | false =>
      obtain _ | ⟨hm, _ | ⟨hl, _ | ⟨hn, hf⟩⟩⟩ := hargv
      refine ⟨_, _, _, by simp, hone (by decide) hm, ?_, ?_, hl, hn, hf⟩
      · rw [htake hm, hkeep hplus hl]
      · rw [htake hm]
    | true =>
      obtain _ | ⟨hm, _ | ⟨hp, _ | ⟨hl, _ | ⟨hn, hf⟩⟩⟩⟩ := hargv
      refine ⟨_, _, _, by simp, hone (by decide) hm, ?_, ?_, hl, hn, hf⟩
      · rw [htake hm, htake hp]
      · rw [htake hm]

/-- `transcript_parse` on the words of the line of a record. -/
theorem Rereadable.parseLine (h : Rereadable pcfg tType pi) {isMinus isPlus : Bool}
    {argv : List (List Byte)} (hargv : List.Forall₂ Word (recordWords cfg isMinus isPlus pi) argv)
    (file : List Byte) (linenum : Nat) {p : PathInfo}
    (hcmp : 0 < pathcasecmp pi.piName p.piName pcfg.caseSensitive) :
    ∃ q, (∀ buf, ∃ buf', parseLine pcfg buf file linenum tType p argv = .ok (q, buf')) ∧
      Reread isMinus pi q := by
  obtain ⟨letter, name, fields, hlen, hhead, hstrip, hsign, hletter, hname, hfields⟩ :=
    stripWord_recordWords h.known hargv
  obtain ⟨q, hparse, hsame⟩ := h.parseFields hfields letter name file linenum
    { p with piMinus := isMinus, piType := pi.piType, piName := pi.piName }
  obtain ⟨tl, rfl⟩ := hletter
  have hrun : ∀ buf, ∃ buf', Radmind.parseLine pcfg buf file linenum tType p argv =
      .ok (q, buf') := by
    intro buf
    obtain ⟨buf₁, hdec⟩ := decodePath_word (.pathTooLong file linenum)
      (.pathTooLong file linenum) h.name_nulFree h.name_le h.name_form hname buf
    obtain ⟨buf', hfields'⟩ := hparse buf₁
    refine ⟨buf', ?_⟩
    rw [Radmind.parseLine, if_neg (by omega), if_neg (not_not_intro hhead)]
    simp only [hstrip, hsign, List.getElem?_cons_succ, List.getElem?_cons_zero, hdec]
    rw [if_neg (by omega)]
    simp only [List.headD_cons, List.cons_append, ofLetter_letter _ h.known]
    exact hfields'
  obtain ⟨buf', hok⟩ := hrun []
  obtain ⟨buf₁, hfields'⟩ := hparse []
  obtain ⟨hn, hm, ht⟩ := parseFields_name hfields'
  exact ⟨q, hrun, hn, hm, ht, hsame⟩

/-- `transcript_parse` on a transcript whose next line is that of a record. -/
theorem Rereadable.transcriptParse {t : Transcript} (h : Rereadable pcfg t.tType pi)
    {isMinus isPlus : Bool} (hshort : (recordText cfg isMinus isPlus pi).length < maxPathLen)
    (hnull : t.tType ≠ .null) {rest : List Byte}
    (hin : t.tIn = recordText cfg isMinus isPlus pi ++ rest)
    (hcmp : 0 < pathcasecmp pi.piName t.tPinfo.piName pcfg.caseSensitive) :
    ∃ q, (∀ buf, ∃ buf', transcriptParse pcfg buf t =
      .ok ({ t with tPinfo := q, tLinenum := t.tLinenum + 1, tIn := rest }, buf')) ∧
      Reread isMinus pi q := by
  obtain ⟨w, ws, hrow, hhash, htext, hwords⟩ := h.line cfg isMinus isPlus
  rw [htext] at hin hshort
  obtain ⟨n, hn⟩ : ∃ n, t.tIn.length = n + 1 := by
    obtain ⟨body, hbody, -⟩ := hrow.line
    refine ⟨t.tIn.length - 1, ?_⟩
    rw [hin, hbody]
    simp only [List.length_append, List.length_singleton]
    omega
  obtain ⟨argv, hargv, hread⟩ := readLine_row hrow hhash hshort t.tFullname n t.tLinenum rest
  obtain ⟨q, hparse, hreread⟩ := h.parseLine (hwords ▸ hargv) t.tFullname (t.tLinenum + 1) hcmp
  refine ⟨q, fun buf => ?_, hreread⟩
  obtain ⟨buf', hline⟩ := hparse buf
  refine ⟨buf', ?_⟩
  rw [Radmind.transcriptParse, if_neg hnull, hn, hin, hread]
  simp only [hline]

/-- The lines of a file of records. -/
def recordsText (cfg : PrintConfig) (ls : List (Bool × PathInfo)) : List Byte :=
  ls.flatMap fun l => recordText cfg l.1 false l.2

/-- A transcript of printed records is read to its end, record by record. -/
theorem reread_lists {ls : List (Bool × PathInfo)} {t : Transcript}
    (hls : ∀ l ∈ ls, Rereadable pcfg t.tType l.2)
    (hshort : ∀ l ∈ ls, (recordText cfg l.1 false l.2).length < maxPathLen)
    (hnull : t.tType ≠ .null) (heof : t.tEof = false) (hin : t.tIn = recordsText cfg ls)
    (hranked : ∀ l ∈ ls, Ranked pcfg.caseSensitive l.2.piName)
    (ht : Ranked pcfg.caseSensitive t.tPinfo.piName)
    (hasc : (t.tPinfo :: ls.map (·.2)).Pairwise fun p q =>
      p.key pcfg.caseSensitive < q.key pcfg.caseSensitive) :
    ∃ t' es, (∀ buf, ∃ buf', transcriptParse pcfg buf t = .ok (t', buf')) ∧
      Lists pcfg t' es ∧ List.Forall₂ (fun l q => Reread l.1 l.2 q) ls es ∧ t'.file = t.file := by
  induction ls generalizing t with
  | nil =>
    have hin : t.tIn = [] := hin
    refine ⟨{ t with tEof := true }, [], fun buf => ⟨buf, ?_⟩, .eof rfl hin, .nil, rfl⟩
    simp only [transcriptParse, if_neg hnull, hin, List.length_nil, readLine_nil]
  | cons l ls ih =>
    obtain ⟨hl, hls⟩ := List.forall_mem_cons.mp hls
    obtain ⟨hs, hshort⟩ := List.forall_mem_cons.mp hshort
    obtain ⟨hr, hranked⟩ := List.forall_mem_cons.mp hranked
    obtain ⟨hlt, hasc⟩ := List.pairwise_cons.mp hasc
    have hcmp : 0 < pathcasecmp l.2.piName t.tPinfo.piName pcfg.caseSensitive :=
      (pathcasecmp_pos hr ht).mpr (hlt _ (by simp))
    have hin : t.tIn = recordText cfg l.1 false l.2 ++ recordsText cfg ls := hin
    obtain ⟨q, hparse, hreread⟩ := hl.transcriptParse hs hnull hin hcmp
    have hkey : q.key pcfg.caseSensitive = l.2.key pcfg.caseSensitive := by
      rw [PathInfo.key, hreread.name, PathInfo.key]
    -- the transcript at the record of the line
    let u : Transcript := { t with
      tPinfo := q, tLinenum := t.tLinenum + 1, tIn := recordsText cfg ls }
    have huasc : (u.tPinfo :: ls.map (·.2)).Pairwise fun p q =>
        p.key pcfg.caseSensitive < q.key pcfg.caseSensitive := by
      obtain ⟨hq, hasc⟩ := List.pairwise_cons.mp hasc
      exact List.pairwise_cons.mpr ⟨fun p hp => hkey.trans_lt (hq p hp), hasc⟩
    have huname : Ranked pcfg.caseSensitive u.tPinfo.piName := by
      rw [hreread.name]
      exact hr
    obtain ⟨t', es, hnext, hlists, hes, -⟩ := ih (t := u) hls hshort hnull heof rfl hranked huname
      huasc
    exact ⟨u, q :: es, hparse, .line heof hnext hlists, .cons hreread hes, rfl⟩

end

/-! ## The line of `t_print` -/

section

variable {cfg : PrintConfig} {pr pr' : Printer} {fs : Option PathInfo} {tran : TranLine}
  {flag : PrFlag}

/-- A record has a line where it is printed. -/
theorem printRecord_lengths {isMinus : Bool} {cur record : PathInfo} (hflag : flag ≠ .statusNeg)
    (h : printRecord cfg fs isMinus flag cur = .ok record) :
    Carries cur record ∧ record.piType ∉ [.X, .unset] ∧ record.piName.length ≤ maxPathLen ∧
      (record.piType = .l ∨ record.piType = .h → record.piLink.length ≤ maxPathLen) := by
  have hlen : ∀ {s : CStr}, encodeInternal cfg.shellEscapes s ≠ none → s.length ≤ maxPathLen := by
    intro s hs
    by_contra hc
    exact hs (if_pos (by omega))
  obtain ⟨hname, htype, hrecord⟩ := printRecord_inv h
  have hcarries : Carries cur record := by
    have := hrecord hflag
    split at this
    · exact (printCksum_inv this).1
    · exact this ▸ .refl cur
  have hlink : record.piLink = cur.piLink := by rw [hcarries.1]
  refine ⟨hcarries, ?_, ?_, ?_⟩
  · intro hmem
    rw [htype] at hmem
    unfold printRecord at h
    split at h
    · exact absurd h (by simp)
    · rcases List.mem_pair.mp hmem with hc | hc <;> simp [hc] at h
  · rw [hname]
    refine hlen fun hc => ?_
    simp [printRecord, hc] at h
  · intro hl
    rw [htype] at hl
    rw [hlink]
    refine hlen fun hc => ?_
    unfold printRecord at h
    split at h
    · exact absurd h (by simp)
    · rcases hl with hl | hl <;> simp [hl] at h

/-- A call of `t_print` adds the line of one record. -/
theorem tPrint_line (h : tPrint cfg pr fs tran flag = .ok pr') :
    ∃ cur record isMinus isPlus, printCur cfg fs tran flag = some cur ∧
      printRecord cfg fs (printMinus cfg fs flag) flag cur = .ok record ∧
      pr'.outtran = (printHeader cfg pr tran flag).outtran ++
        [.object isMinus isPlus record] := by
  unfold tPrint at h
  split at h
  · exact absurd h (by simp)
  next marked hmark =>
  rw [markLinks_fields hmark] at h
  simp only [printHeader_devHead] at h
  split at h
  · exact absurd h (by simp)
  next cur hcur =>
  split at h
  · exact absurd h (by simp)
  next record hrecord =>
  obtain rfl := Except.ok.inj h
  exact ⟨cur, record, _, _, hcur, hrecord, rfl⟩

/-- The line of the record is read back by `transcript_parse`, in any transcript whose
line before it sorts before it. -/
def ReadsBack (cfg : PrintConfig) (isMinus isPlus : Bool) (record : PathInfo) : Prop :=
  ∀ (pcfg : ParseConfig) (t : Transcript) (rest : List Byte), t.tType ≠ .null →
    InForm pcfg t.tType record →
    ((OutLine.object isMinus isPlus record).text cfg).length < maxPathLen →
    t.tIn = (OutLine.object isMinus isPlus record).text cfg ++ rest →
    0 < pathcasecmp record.piName t.tPinfo.piName pcfg.caseSensitive →
    ∃ q, (∀ buf, ∃ buf', transcriptParse pcfg buf t =
      .ok ({ t with tPinfo := q, tLinenum := t.tLinenum + 1, tIn := rest }, buf')) ∧
      Reread isMinus record q

/-- The line `t_print` writes for a record is read back. -/
theorem tPrint_reread (happle : cfg.apple = false) (hflag : flag ≠ .statusNeg)
    (h : tPrint cfg pr fs tran flag = .ok pr') :
    ∃ cur record isMinus isPlus, printCur cfg fs tran flag = some cur ∧ Carries cur record ∧
      pr'.outtran = (printHeader cfg pr tran flag).outtran ++ [.object isMinus isPlus record] ∧
      ReadsBack cfg isMinus isPlus record := by
  obtain ⟨cur, record, isMinus, isPlus, hcur, hrecord, hout⟩ := tPrint_line h
  obtain ⟨hcarries, hknown, hname, hlink⟩ := printRecord_lengths hflag hrecord
  refine ⟨cur, record, isMinus, isPlus, hcur, hcarries, hout, ?_⟩
  intro pcfg t rest hnull hform hshort hin hcmp
  rw [text_eq_recordText cfg happle] at hshort hin
  have hre : Rereadable pcfg t.tType record := ⟨hform, hknown, hname, hlink⟩
  exact hre.transcriptParse hshort hnull hin hcmp

end

/-- The printer after the line of the directory `/a`. -/
def dirPrinter : Printer :=
  { Printer.start with outtran := [.object false false (dirEntry (lit "/a")).named] }

theorem tPrint_reread_dir :
    ∃ cur record isMinus isPlus,
      printCur { twoDiff.print with editPath := .creatable } (some (dirEntry (lit "/a")).named)
        noLine .fsOnly = some cur ∧ Carries cur record ∧
      dirPrinter.outtran = (printHeader { twoDiff.print with editPath := .creatable } .start noLine
        .fsOnly).outtran ++ [.object isMinus isPlus record] ∧
      ReadsBack { twoDiff.print with editPath := .creatable } isMinus isPlus record :=
  tPrint_reread rfl (by decide) rfl

end Radmind
