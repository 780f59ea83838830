import Radmind.Ktcheck

/-!
# The order of the special transcript

The list is in the order of the paths as they are spelled on the 's' lines.  A reader
of `special.T` decodes them first.
-/

namespace Radmind

/-! ## Comparing spellings and paths -/

theorem pathcasecmp_eq_zero_iff {cs : Bool} {p q : CStr} (hp : NulFree p) (hq : NulFree q) :
    pathcasecmp p q cs = 0 ↔ p.map (loopWeight cs) = q.map (loopWeight cs) := by
  induction p generalizing q with
  | nil =>
    cases q with
    | nil => simp [pathcasecmp]
    | cons b q =>
      have hb := (loopWeight_eq cs b).2.1.not.mpr (nulFree_cons.mp hq).1
      have hne := (pathcasecmp_of_ne cs [] (b :: q) (by
        show loopWeight cs nul ≠ loopWeight cs b
        rw [(loopWeight_eq cs nul).2.1.mpr rfl]
        exact Ne.symm hb)).2
      simp [hne]
  | cons a p ih =>
    have ha := nulFree_cons.mp hp
    cases q with
    | nil =>
      have hw := (loopWeight_eq cs a).2.1.not.mpr ha.1
      have hne := (pathcasecmp_of_ne cs (a :: p) [] (by
        show loopWeight cs a ≠ loopWeight cs nul
        rw [(loopWeight_eq cs nul).2.1.mpr rfl]
        exact hw)).2
      simp [hne]
    | cons b q =>
      have hb := nulFree_cons.mp hq
      by_cases hab : loopWeight cs a = loopWeight cs b
      · have hdiff : byteDiff cs a b = 0 := by rw [byteDiff_eq_sub, hab, sub_self]
        rw [pathcasecmp, if_neg (by simp [hdiff]), ih ha.2 hb.2]
        simp [hab]
      · have hne := (pathcasecmp_of_ne cs (a :: p) (b :: q) hab).2
        simp [hne, hab]

/-- No two letters of escapes differ in case only. -/
theorem loopWeight_escape {cs : Bool} {e e' : Byte} (he : isEscape e = true)
    (he' : isEscape e' = true) (h : loopWeight cs e = loopWeight cs e') : e = e' := by
  simp only [isEscape, decide_eq_true_eq] at he he'
  rcases he with rfl | rfl | rfl | rfl | rfl | rfl <;>
    rcases he' with rfl | rfl | rfl | rfl | rfl | rfl <;> revert h <;> cases cs <;> decide

theorem loopWeight_bslash {cs : Bool} {c : Byte} (h : loopWeight cs c = loopWeight cs bslash) :
    c = bslash := by
  have hlt : c.toNat < 256 := c.toNat_lt
  have hb : c = bslash ↔ c.toNat = 92 := UInt8.toNat_inj.symm
  rw [hb]
  cases cs with
  | true =>
    have hw : loopWeight true bslash = 92 := rfl
    rw [hw] at h
    simp only [loopWeight, if_true] at h
    omega
  | false =>
    have hw : loopWeight false bslash = 92 := rfl
    have h65 : (65 : Byte).toNat = 65 := rfl
    have h90 : (90 : Byte).toNat = 90 := rfl
    have h128 : (128 : Byte).toNat = 128 := rfl
    rw [hw] at h
    simp only [loopWeight, Bool.false_eq_true, if_false, tolowerChar, schar,
      UInt8.le_iff_toNat_le, UInt8.lt_iff_toNat_lt, h65, h90, h128] at h
    split_ifs at h <;> omega

/-- Spellings that compare equal are of paths that compare equal. -/
theorem weights_of_encoded {cs b b' : Bool} {p q : CStr}
    (h : (p.flatMap (encodeByte b)).map (loopWeight cs) =
      (q.flatMap (encodeByte b')).map (loopWeight cs)) :
    p.map (loopWeight cs) = q.map (loopWeight cs) := by
  induction p generalizing q with
  | nil =>
    cases q with
    | nil => rfl
    | cons d q =>
      rcases encodeByte_cases b' d with ⟨e, hd, -⟩ | ⟨hd, -⟩ <;> simp [hd] at h
  | cons c p ih =>
    cases q with
    | nil => rcases encodeByte_cases b c with ⟨e, hc, -⟩ | ⟨hc, -⟩ <;> simp [hc] at h
    | cons d q =>
      rw [List.flatMap_cons, List.flatMap_cons] at h
      rcases encodeByte_cases b c with ⟨e, hc, hesc, hun⟩ | ⟨hc, hplain, -⟩ <;>
        rcases encodeByte_cases b' d with ⟨e', hd, hesc', hun'⟩ | ⟨hd, hplain', -⟩ <;>
        rw [hc, hd] at h
      · obtain ⟨hw, hrest⟩ : loopWeight cs e = loopWeight cs e' ∧ _ := by simpa using h
        obtain rfl := loopWeight_escape hesc hesc' hw
        rw [List.map_cons, List.map_cons, ih hrest, ← hun nul, ← hun' nul]
      · obtain ⟨hw, -⟩ : loopWeight cs bslash = loopWeight cs d ∧ _ := by simpa using h
        exact absurd (loopWeight_bslash hw.symm) hplain'
      · obtain ⟨hw, -⟩ : loopWeight cs c = loopWeight cs bslash ∧ _ := by simpa using h
        exact absurd (loopWeight_bslash hw) hplain
      · obtain ⟨hw, hrest⟩ : loopWeight cs c = loopWeight cs d ∧ _ := by simpa using h
        rw [List.map_cons, List.map_cons, ih hrest, hw]

/-- The word stands for the path on an 's' line, or on a line of a transcript. -/
def Spells (word path : CStr) : Prop :=
  NulFree path ∧ path ≠ [] ∧ ∃ shellSpaces, encodeInternal shellSpaces path = some word

theorem Spells.eq_flatMap {word path : CStr} (h : Spells word path) :
    ∃ b, word = path.flatMap (encodeByte b) ∧ path.length ≤ maxPathLen := by
  obtain ⟨-, -, b, h⟩ := h
  unfold encodeInternal at h
  split at h
  · exact absurd h (by simp)
  · exact ⟨b, (Option.some.inj h).symm, by omega⟩

theorem Spells.encoded {word path : CStr} (h : Spells word path) : Encoded word := by
  obtain ⟨b, rfl, -⟩ := h.eq_flatMap
  exact encoded_encode b h.1

theorem Spells.decoded {word path : CStr} (h : Spells word path) : decoded word = path := by
  obtain ⟨b, rfl, -⟩ := h.eq_flatMap
  exact decodedOver_encode b [] path

theorem Spells.ne_nil {word path : CStr} (h : Spells word path) : word ≠ [] := by
  obtain ⟨b, rfl, -⟩ := h.eq_flatMap
  obtain ⟨c, path, rfl⟩ := List.exists_cons_of_ne_nil h.2.1
  rcases encodeByte_cases b c with ⟨e, hc, -⟩ | ⟨hc, -⟩ <;> simp [hc]

theorem Spells.compare_eq {cs : Bool} {u v p q : CStr} (hu : Spells u p) (hv : Spells v q)
    (h : pathcasecmp u v cs = 0) : pathcasecmp p q cs = 0 := by
  rw [pathcasecmp_eq_zero_iff hu.encoded.nulFree hv.encoded.nulFree] at h
  rw [pathcasecmp_eq_zero_iff hu.1 hv.1]
  obtain ⟨b, rfl, -⟩ := hu.eq_flatMap
  obtain ⟨b', rfl, -⟩ := hv.eq_flatMap
  exact weights_of_encoded h

/-! ## The lines of special.T -/

/-- The path of a line of a transcript: its second word, decoded. -/
def linePath (line : CStr) : CStr := decoded ((lineWords (line ++ [newline])).getD 1 [])

/-- The paths of the lines strictly ascend. -/
def SpecialAscending (caseSensitive : Bool) (lines : List CStr) : Prop :=
  (lines.map linePath).Pairwise fun p q => pathcasecmp p q caseSensitive < 0

/-- The server answers with a line of a transcript for the path it was asked for. -/
def Echoes (getstat : CStr → Option CStr) (path : CStr) : Prop :=
  ∃ (type : FileType) (fields : List (List Byte × List Byte)) (stats : CStr),
    type.isFile = true ∧ Row [type.letter] (([space], path) :: fields) ∧
      getstat (lit "SPECIAL " ++ path) = some stats ∧
      stats ++ [newline] = lineText [type.letter] (([space], path) :: fields)

/-- The spellings left on the list are in the order of their paths. -/
def KeepsOrder (caseSensitive : Bool) (ls : List SpecialLine) : Prop :=
  ∀ u v, Listed ls u → Listed ls v → u ≠ v → pathcasecmp u v caseSensitive ≤ 0 →
    pathcasecmp (decoded u) (decoded v) caseSensitive < 0

theorem Row.nulFree {w : List Byte} {ws : List (List Byte × List Byte)} (h : Row w ws) :
    ∀ v ∈ w :: ws.map (·.2), NulFree v := by
  induction h with
  | last hw _ =>
    intro v hv
    exact (List.mem_singleton.mp hv) ▸ hw.nulFree
  | more hw _ _ _ _ ih =>
    intro v hv
    rcases List.mem_cons.mp hv with rfl | hv
    · exact hw.nulFree
    · exact ih v hv

theorem Echoes.linePath {getstat : CStr → Option CStr} {path stats : CStr}
    (h : Echoes getstat path) (hstats : getstat (lit "SPECIAL " ++ path) = some stats) :
    linePath stats = decoded path := by
  obtain ⟨type, fields, stats', -, hrow, hget, hline⟩ := h
  obtain rfl := Option.some.inj (hstats.symm.trans hget)
  rw [Radmind.linePath, hline, lineWords_row hrow hrow.nulFree]
  rfl

theorem createspecial_cons {getstat : CStr → Option CStr} {node : CStr} {list : PathList}
    {lines : List CStr} (h : createspecial getstat (node :: list) = some lines) :
    ∃ stats rest, getstat (lit "SPECIAL " ++ node) = some stats ∧ stats.length < maxPathLen ∧
      createspecial getstat list = some rest ∧ lines = stats :: rest := by
  rw [createspecial] at h
  split at h
  · exact absurd h (by simp)
  split at h
  · exact absurd h (by simp)
  next stats hstats =>
  split at h
  · exact absurd h (by simp)
  next hlen =>
  obtain ⟨rest, hrest, rfl⟩ := Option.map_eq_some_iff.mp h
  exact ⟨stats, rest, hstats, by omega, hrest, rfl⟩

theorem createspecial_paths {getstat : CStr → Option CStr} {list : PathList} {lines : List CStr}
    (h : createspecial getstat list = some lines) (hecho : ∀ path ∈ list, Echoes getstat path) :
    lines.map linePath = list.map decoded := by
  induction list generalizing lines with
  | nil =>
    obtain rfl := Option.some.inj h
    rfl
  | cons node list ih =>
    obtain ⟨stats, rest, hstats, -, hrest, rfl⟩ := createspecial_cons h
    rw [List.map_cons, List.map_cons, (hecho node List.mem_cons_self).linePath hstats,
      ih hrest fun path hm => hecho path (List.mem_cons_of_mem _ hm)]

/-- The list is in order if and only if its paths are. -/
theorem SpecialList.ascending_iff {cs : Bool} {ls : List SpecialLine} {list : PathList}
    (h : SpecialList cs ls list) (hsorted : PathSorted cs list)
    (hspell : ∀ u, Listed ls u → ∃ p, Spells u p) :
    ((list.map decoded).Pairwise fun p q => pathcasecmp p q cs < 0) ↔ KeepsOrder cs ls := by
  rw [List.pairwise_map]
  constructor
  · intro hasc u v hu hv hne hle
    have hboth := hasc.and hsorted
    rw [List.pairwise_iff_getElem] at hboth
    obtain ⟨i, hi, hiu⟩ := List.mem_iff_getElem.mp ((h.mem u).mpr hu)
    obtain ⟨j, hj, hjv⟩ := List.mem_iff_getElem.mp ((h.mem v).mpr hv)
    rcases lt_trichotomy i j with hij | rfl | hji
    · exact hiu ▸ hjv ▸ (hboth i j hi hj hij).1
    · exact absurd (hiu.symm.trans hjv) hne
    · -- the other way round the spellings compare equal, and so do the paths
      obtain ⟨hlt, hge⟩ := hboth j i hj hi hji
      rw [hiu, hjv] at hlt hge
      obtain ⟨p, hp⟩ := hspell _ hu
      obtain ⟨q, hq⟩ := hspell _ hv
      have hswap := pathcasecmp_swap cs hp.encoded.nulFree hq.encoded.nulFree
      have htie : pathcasecmp u v cs = 0 := by omega
      have heq := hp.compare_eq hq htie
      have hback := (pathcasecmp_swap cs hp.1 hq.1).2.mp heq
      rw [hp.decoded, hq.decoded] at hlt
      omega
  · intro hkeep
    refine (hsorted.and h.nodup).imp_of_mem fun {u v} hu hv huv => ?_
    exact hkeep u v ((h.mem u).mp hu) ((h.mem v).mp hv) huv.2 huv.1

/-! ## Reading special.T -/

/-- `special.T` opened. -/
def specialOpened (fullpath : CStr) (content : List Byte) : Transcript :=
  { tPinfo := .zero, tType := .special, tFullname := fullpath, tShortname := lit "special.T",
    tLinenum := 0, tEof := false, tIn := content }

/-- What calls of `transcript_parse` make of a transcript. -/
inductive ReadTo (cfg : ParseConfig) (tran : Transcript) : Transcript → Prop
  | refl : ReadTo cfg tran tran
  | step {t t' : Transcript} {buf buf' : List Byte} : ReadTo cfg tran t →
      transcriptParse cfg buf t = .ok (t', buf') → ReadTo cfg tran t'

/-- A line of `special.T`. -/
def StatsLine (stats : CStr) : Prop :=
  ∃ (type : FileType) (path p : CStr) (fields : List (List Byte × List Byte)),
    type.isFile = true ∧ Spells path p ∧ Row [type.letter] (([space], path) :: fields) ∧
      stats ++ [newline] = lineText [type.letter] (([space], path) :: fields)

theorem readBytes_long {body : List Byte} (hbody : newline ∉ body) {n : Nat} (hn : n ≤ body.length)
    (rest : List Byte) : (readBytes n (body ++ rest)).1 = body.take n := by
  induction body generalizing n with
  | nil =>
    obtain rfl : n = 0 := by simpa using hn
    simp [readBytes]
  | cons c body ih =>
    cases n with
    | zero => simp [readBytes]
    | succ n =>
      have hc : c ≠ newline := fun h => hbody (by simp [h])
      have hrest := @ih (fun h => hbody (List.mem_cons_of_mem _ h)) n (by simpa using hn)
      simp [readBytes, hc, hrest]

theorem readLine_long {body : List Byte} (hbody : newline ∉ body) (hnul : NulFree body)
    (hlen : maxPathLen ≤ body.length + 1) (file : CStr) (fuel linenum : Nat) (rest : List Byte) :
    readLine file (fuel + 1) linenum (body ++ rest) = .error (.lineTooLong file (linenum + 1)) := by
  have hmax : maxPathLen = 4096 := rfl
  have htake := readBytes_long hbody (show maxPathLen - 1 ≤ body.length by omega) rest
  have hsub : ∀ c ∈ body.take (maxPathLen - 1), c ∈ body := fun c => List.mem_of_mem_take
  have hcstr : cstr (body.take (maxPathLen - 1)) = body.take (maxPathLen - 1) :=
    cstr_of_nulFree fun h => hnul (hsub _ h)
  have hne : body.take (maxPathLen - 1) ≠ [] := by
    intro h
    have := congrArg List.length h
    rw [List.length_take, List.length_nil] at this
    omega
  rw [readLine, fgets, if_neg (by intro h; simp at h; simp [h.1] at hne)]
  simp only [htake, hcstr]
  rw [if_neg hne, if_pos]
  intro h
  exact hbody (hsub _ (List.mem_of_getLast? h))

theorem isFile_letter {type : FileType} (h : type.isFile = true) :
    type.letter ≠ minus ∧ type.letter ≠ plus ∧ type.letter ≠ hash ∧ type.letter ≠ nul := by
  cases type <;> simp [FileType.isFile] at h <;> decide

/-- A line that sorts behind the line before it is not rejected for its place. -/
theorem parseLine_stats {pcfg : ParseConfig} {buf file : List Byte} {linenum : Nat} {tType : TType}
    {pi : PathInfo} {argv : List (List Byte)} {type : FileType} {path p : CStr}
    {fields : List (List Byte)} (htype : type.isFile = true) (hspell : Spells path p)
    (hform : convertPathType pcfg.tranFormat p = some p)
    (hcmp : 0 < pathcasecmp p pi.piName pcfg.caseSensitive)
    (hargv : List.Forall₂ Word ([type.letter] :: path :: fields) argv) :
    (∀ f n, parseLine pcfg buf file linenum tType pi argv ≠ .error (.badSortOrder f n)) ∧
      ∀ q buf', parseLine pcfg buf file linenum tType pi argv = .ok (q, buf') → q.piName = p := by
  obtain ⟨m₀, tail₀, ⟨r₀, rfl⟩, htail, rfl⟩ := List.forall₂_cons_left_iff.mp hargv
  obtain ⟨m₁, tail₁, ⟨r₁, rfl⟩, -, rfl⟩ := List.forall₂_cons_left_iff.mp htail
  obtain ⟨hminus, hplus, -, -⟩ := isFile_letter htype
  have hpath : ∀ e e', ∃ buf', decodePath pcfg.tranFormat e e' buf (some (path ++ nul :: r₁)) =
      .ok (p, buf') := by
    intro e e'
    obtain ⟨hnul, -, b, henc⟩ := hspell
    have hdec := decode_encodeInternal hnul henc buf r₁
    refine ⟨(decode buf (path ++ nul :: r₁)).2, ?_⟩
    rw [decodePath, decodeWord, show decode buf (path ++ nul :: r₁) = (some p, _) from
      Prod.ext hdec rfl]
    simp only [hform]
  have hstrip : ∀ c, c ≠ type.letter → ∀ rest, stripWord c (([type.letter] ++ nul :: r₀) :: rest) =
      (false, ([type.letter] ++ nul :: r₀) :: rest) := by
    intro c hc rest
    rw [stripWord, if_neg]
    simpa using Ne.symm hc
  unfold parseLine
  split
  · exact ⟨by simp, by simp⟩
  split
  · exact ⟨by simp, by simp⟩
  rw [hstrip minus (Ne.symm hminus)]
  simp only
  rw [hstrip plus (Ne.symm hplus)]
  simp only [List.getElem?_cons_succ, List.getElem?_cons_zero]
  obtain ⟨buf', hok⟩ := hpath (.pathTooLong file linenum) (.pathTooLong file linenum)
  rw [hok]
  simp only
  rw [if_neg (by omega)]
  split
  · exact ⟨by simp, by simp⟩
  · constructor
    · intro f n h
      exact (parseFields_error h).2 f n rfl
    · intro q buf' h
      exact (parseFields_name h).1

/-- The lines left to read sort behind the line read last. -/
structure ReadsOn (cs : Bool) (lines : List CStr) (t : Transcript) : Prop where
  type : t.tType = .special
  rest : ∃ rest, rest <:+ lines ∧ t.tIn = specialText rest ∧
    ∀ stats ∈ rest, 0 < pathcasecmp (linePath stats) t.tPinfo.piName cs

theorem StatsLine.linePath_eq {stats : CStr} {type : FileType} {path p : CStr}
    {fields : List (List Byte × List Byte)} (hspell : Spells path p)
    (hrow : Row [type.letter] (([space], path) :: fields))
    (hline : stats ++ [newline] = lineText [type.letter] (([space], path) :: fields)) :
    linePath stats = p := by
  rw [linePath, hline, lineWords_row hrow hrow.nulFree]
  exact hspell.decoded

theorem ReadsOn.parse {pcfg : ParseConfig} {lines : List CStr} {t : Transcript} {buf : List Byte}
    (h : ReadsOn pcfg.caseSensitive lines t)
    (hasc : SpecialAscending pcfg.caseSensitive lines) (hstats : ∀ stats ∈ lines, StatsLine stats)
    (hform : ∀ stats ∈ lines, convertPathType pcfg.tranFormat (linePath stats) =
      some (linePath stats)) :
    (∀ f n, transcriptParse pcfg buf t ≠ .error (.badSortOrder f n)) ∧
      ∀ t' buf', transcriptParse pcfg buf t = .ok (t', buf') →
        ReadsOn pcfg.caseSensitive lines t' := by
  obtain ⟨htype, rest, hsuffix, hin, hcmp⟩ := h
  unfold transcriptParse
  rw [if_neg (by simp [htype])]
  cases rest with
  | nil =>
    have hnil : t.tIn = [] := by rw [hin]; rfl
    rw [hnil, List.length_nil, readLine_nil]
    refine ⟨by simp, fun t' buf' h => ?_⟩
    obtain ⟨rfl, -⟩ := Prod.mk.inj (Except.ok.inj h)
    exact ⟨htype, [], List.nil_suffix, rfl, by simp⟩
  | cons stats rest =>
    have hmem : stats ∈ lines := hsuffix.subset List.mem_cons_self
    obtain ⟨type, path, p, fields, hfile, hspell, hrow, hline⟩ := hstats stats hmem
    have hpath := StatsLine.linePath_eq hspell hrow hline
    have htext : t.tIn = lineText [type.letter] (([space], path) :: fields) ++ specialText rest := by
      rw [hin, ← hline]
      rfl
    obtain ⟨fuel, hfuel⟩ : ∃ fuel, t.tIn.length = fuel + 1 := by
      refine ⟨t.tIn.length - 1, ?_⟩
      rw [htext, ← hline, List.length_append, List.length_append, List.length_singleton]
      omega
    rw [hfuel, htext]
    have hnext := hcmp stats List.mem_cons_self
    rw [hpath] at hnext
    have hpform := hform stats hmem
    rw [hpath] at hpform
    by_cases hlen : (lineText [type.letter] (([space], path) :: fields)).length < maxPathLen
    · obtain ⟨argv, hargv, hread⟩ := readLine_row hrow
        (by simpa using (isFile_letter hfile).2.2.1) hlen t.tFullname fuel t.tLinenum
        (specialText rest)
      rw [hread]
      have hparse := @parseLine_stats pcfg buf t.tFullname (t.tLinenum + 1) t.tType t.tPinfo argv
        type path p (fields.map fun x : List Byte × List Byte => x.2) hfile hspell hpform hnext
        (by exact hargv)
      simp only
      split
      · next e he =>
        exact ⟨fun f n heq => hparse.1 f n (by rw [he, Except.error.inj heq]), by simp⟩
      · next q buf₁ hq =>
        refine ⟨by simp, fun t' buf' h => ?_⟩
        obtain ⟨rfl, -⟩ := Prod.mk.inj (Except.ok.inj h)
        refine ⟨htype, rest, (List.suffix_cons stats rest).trans hsuffix, rfl, fun y hy => ?_⟩
        -- the line just read comes before the rest
        have hpair := hasc.sublist ((hsuffix.sublist).map linePath)
        have hlt := List.rel_of_pairwise_cons hpair (List.mem_map_of_mem hy)
        show 0 < pathcasecmp (linePath y) q.piName pcfg.caseSensitive
        rw [hparse.2 q buf₁ hq, ← hpath]
        obtain ⟨_, _, _, _, -, hspelly, hrowy, hliney⟩ :=
          hstats y (hsuffix.subset (List.mem_cons_of_mem _ hy))
        have hpathy := StatsLine.linePath_eq hspelly hrowy hliney
        rw [hpathy, hpath] at hlt ⊢
        exact (pathcasecmp_swap _ hspell.1 hspelly.1).1.mp hlt
    · obtain ⟨body, hbody, hnul, hnl⟩ := hrow.line
      rw [hbody, List.length_append, List.length_singleton] at hlen
      rw [hbody, List.append_assoc, readLine_long hnl hnul (by omega)]
      exact ⟨by simp, by simp⟩

theorem readTo_readsOn {pcfg : ParseConfig} {lines : List CStr} {fullpath : CStr} {t : Transcript}
    (hasc : SpecialAscending pcfg.caseSensitive lines) (hstats : ∀ stats ∈ lines, StatsLine stats)
    (hform : ∀ stats ∈ lines, convertPathType pcfg.tranFormat (linePath stats) =
      some (linePath stats) ∧ 0 < pathcasecmp (linePath stats) [] pcfg.caseSensitive)
    (h : ReadTo pcfg (specialOpened fullpath (specialText lines)) t) :
    ReadsOn pcfg.caseSensitive lines t := by
  induction h with
  | refl =>
    exact ⟨rfl, lines, List.suffix_rfl, rfl, fun stats hm => (hform stats hm).2⟩
  | step _ hparse ih =>
    exact (ih.parse hasc hstats fun stats hm => (hform stats hm).1).2 _ _ hparse

theorem createspecial_statsLine {getstat : CStr → Option CStr} {list : PathList}
    {lines : List CStr} (h : createspecial getstat list = some lines)
    (hecho : ∀ path ∈ list, Echoes getstat path) (hspell : ∀ path ∈ list, ∃ p, Spells path p) :
    ∀ stats ∈ lines, StatsLine stats := by
  induction list generalizing lines with
  | nil =>
    obtain rfl := Option.some.inj h
    simp
  | cons node list ih =>
    obtain ⟨stats, rest, hstats, -, hrest, rfl⟩ := createspecial_cons h
    intro y hy
    rcases List.mem_cons.mp hy with rfl | hy
    · obtain ⟨type, fields, stats', hfile, hrow, hget, hline⟩ := hecho node List.mem_cons_self
      obtain ⟨p, hp⟩ := hspell node List.mem_cons_self
      obtain rfl := Option.some.inj (hstats.symm.trans hget)
      exact ⟨type, node, p, fields, hfile, hp, hrow, hline⟩
    · exact ih hrest (fun path hm => hecho path (List.mem_cons_of_mem _ hm))
        (fun path hm => hspell path (List.mem_cons_of_mem _ hm)) y hy

/-- The special files `/aXb` and `/a b`. -/
def spaceConfig : KtConfig where
  caseSensitive := true
  update := true
  kdir := lit "/var/"
  kfile _ path := if path = lit "/var/command.K" then some (lit "s /aXb\ns /a\\bb\n") else none
  check _ _ _ := .current

/-- A server that has all files. -/
def echoStat (filedesc : CStr) : Option CStr :=
  some (lit "f " ++ filedesc.drop 8 ++ lit " 0444 0 0 0 0 x")

def spaceState : KtState where
  specialList := [lit "/aXb", lit "/a\\bb"]
  kfileSeen := []
  linenum := 2
  change := false
  checks := 1
  specialLines := [⟨false, lit "/aXb"⟩, ⟨false, lit "/a\\bb"⟩]

def spaceLines : List CStr := [lit "f /aXb 0444 0 0 0 0 x", lit "f /a\\bb 0444 0 0 0 0 x"]

set_option maxRecDepth 16000 in
theorem spaceState_read : ktRead spaceConfig 1 (lit "/var/command.K") = .ok spaceState := by
  decide

theorem spaceLines_created : createspecial echoStat spaceState.specialList = some spaceLines := by
  decide

/-- A line of `echoStat` as a row of words. -/
theorem echoStat_row {path : CStr} (h : Encoded path) (hne : path ≠ []) :
    Row [FileType.f.letter] (([space], path) ::
      [lit "0444", lit "0", lit "0", lit "0", lit "0", lit "x"].map ([space], ·)) := by
  have hgap : ∀ c ∈ [space], isGap c := fun _ hc => .inl (List.mem_singleton.mp hc)
  have hzero : Encoded (lit "0") := encoded_of_flatMap (by decide) (by decide)
  have hmore : ∀ {w v : List Byte} {ws : List (List Byte × List Byte)}, Encoded w → w ≠ [] →
      Row v ws → Row w (([space], v) :: ws) := fun hw hne hrow => .more hw hne (by simp) hgap hrow
  refine hmore (encoded_of_flatMap (by decide) (by decide)) (by simp) ?_
  refine hmore h hne (hmore (encoded_of_flatMap (by decide) (by decide)) (by decide) ?_)
  refine hmore hzero (by decide) (hmore hzero (by decide) (hmore hzero (by decide) ?_))
  refine hmore hzero (by decide) (.last (Encoded.solid ?_ rfl) (by decide))
  exact encoded_of_flatMap (by decide) (by decide)

theorem spaceSpells : ∀ l ∈ spaceState.specialLines, ∃ p, Spells l.path p := by
  intro l hl
  obtain rfl | rfl : l = ⟨false, lit "/aXb"⟩ ∨ l = ⟨false, lit "/a\\bb"⟩ := by
    simpa [spaceState] using hl
  · exact ⟨lit "/aXb", by decide, by decide, false, by decide⟩
  · exact ⟨lit "/a b", by decide, by decide, false, by decide⟩

theorem spaceEchoes : ∀ path ∈ spaceState.specialList, Echoes echoStat path := by
  intro path hpath
  obtain rfl | rfl : path = lit "/aXb" ∨ path = lit "/a\\bb" := by simpa [spaceState] using hpath
  · obtain ⟨p, hp⟩ := spaceSpells ⟨false, lit "/aXb"⟩ (by decide)
    exact ⟨.f, _, _, rfl, echoStat_row hp.encoded hp.ne_nil, rfl, by decide⟩
  · obtain ⟨p, hp⟩ := spaceSpells ⟨false, lit "/a\\bb"⟩ (by decide)
    exact ⟨.f, _, _, rfl, echoStat_row hp.encoded hp.ne_nil, rfl, by decide⟩

end Radmind
