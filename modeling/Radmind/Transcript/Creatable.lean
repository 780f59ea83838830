import Radmind.Transcript.Text

/-!
# The lines in creatable mode

In creatable mode a run prints the objects themselves, and with a '-' the lines of
the merge that are not on the file system.  All of them can be read back.
-/

namespace Radmind

open SortedJoin

/-! ## Records that were read -/

theorem unescape_eq_nul {c stale : Byte} (h : unescape c stale = nul) : stale = nul := by
  by_cases hc : isEscape c = true
  · exact absurd h (unescape_ne_nul hc)
  · rwa [unescape_of_not_isEscape (by simpa using hc)] at h

/-- The first byte of a string that is not empty is written first. -/
theorem decodeLoop_first {c : Byte} (hc : c ≠ nul) (room : Nat) (mem cells : List Byte) :
    ∃ a n d, decodeLoop (room + 1) (c :: mem) cells = Decoded.push a n d ∧
      (a = nul → cells.headD nul = nul) := by
  by_cases hb : c = bslash
  · subst hb
    cases mem with
    | nil => exact ⟨_, _, _, by rw [decodeLoop, if_neg hc, if_pos rfl], unescape_eq_nul⟩
    | cons e mem => exact ⟨_, _, _, decodeLoop_escape room e mem cells, unescape_eq_nul⟩
  · exact ⟨c, _, _, decodeLoop_plain hc hb room mem cells, fun h => absurd h hc⟩

/-- Only over a buffer that starts with a NUL does a word decode to nothing, and a
buffer never starts with one after a word that decoded to something. -/
theorem decode_first {buf buf' mem s : List Byte} (h : decode buf mem = (some s, buf')) :
    (s = [] → cstr mem ≠ [] → buf.headD nul = nul) ∧ (s ≠ [] → buf'.headD nul ≠ nul) := by
  unfold decode at h
  split at h
  · exact absurd h (by simp)
  obtain ⟨r, hr, rfl⟩ := Option.map_eq_some_iff.mp (congrArg Prod.fst h)
  have hbuf : (decodeLoop maxPathLen mem buf).buf = buf' := congrArg Prod.snd h
  by_cases hmem : cstr mem = []
  · refine ⟨fun _ hne => absurd hmem hne, fun hne => absurd ?_ hne⟩
    cases mem with
    | nil =>
      obtain rfl : [] = r := by simpa [decodeLoop] using hr
      rfl
    | cons c mem =>
      obtain rfl : c = nul := by
        by_contra hc
        rw [cstr_cons hc] at hmem
        exact absurd hmem (by simp)
      rw [decodeLoop_nul] at hr
      obtain rfl := Option.some.inj hr
      rfl
  · cases mem with
    | nil => exact absurd rfl hmem
    | cons c mem =>
      have hc : c ≠ nul := fun hc => hmem (by rw [hc]; rfl)
      obtain ⟨a, n, d, hloop, ha⟩ := decodeLoop_first hc 4095 mem buf
      rw [show maxPathLen = 4095 + 1 from rfl, hloop] at hr hbuf
      obtain ⟨r', -, rfl⟩ := Option.map_eq_some_iff.mp hr
      refine ⟨fun hnil _ => ha ?_, fun hne hhead => hne ?_⟩
      · by_contra hne
        rw [cstr_cons hne] at hnil
        exact absurd hnil (by simp)
      · rw [← hbuf] at hhead
        have ha : a = nul := hhead
        rw [ha]
        rfl

theorem convertPathType_cons (format : TranFormat) (c d : Byte) (path : CStr) :
    convertPathType format (c :: d :: path) =
      if format = .absolute ∧ c = dot then
        let path' := if d = slash then d :: path else slash :: c :: d :: path
        if path'.length ≥ maxPathLen then none else some path'
      else if format = .relative ∧ c = slash then
        if (dot :: c :: d :: path).length ≥ maxPathLen then none else some (dot :: c :: d :: path)
      else some (c :: d :: path) := by
  simp [convertPathType]

theorem convertPathType_eq_nil {format : TranFormat} {path : CStr}
    (h : convertPathType format path = some []) : path = [] := by
  rcases path with _ | ⟨c, _ | ⟨d, path⟩⟩
  · rfl
  · simp only [convertPathType] at h
    split_ifs at h <;> simp at h
  · rw [convertPathType_cons] at h
    simp only at h
    split_ifs at h <;> simp at h

/-- A path that was brought into the form of the run is in that form. -/
theorem convertPathType_idem {format : TranFormat} {path path' : CStr}
    (h : convertPathType format path = some path') :
    convertPathType format path' = some path' := by
  have hds : dot ≠ slash := by decide
  rcases path with _ | ⟨c, _ | ⟨d, path⟩⟩
  · cases format <;> simp_all [convertPathType]
  · simp only [convertPathType] at h
    split_ifs at h with h1 h2
    · obtain rfl := Option.some.inj h
      simp [convertPathType, h1, hds.symm]
    · obtain rfl := Option.some.inj h
      simp [convertPathType, h2, hds]
    · obtain rfl := Option.some.inj h
      simp [convertPathType, h1, h2]
  · rw [convertPathType_cons] at h
    simp only at h
    split_ifs at h with h1 h2 h3 h4 h5
    · obtain rfl := Option.some.inj h
      cases path with
      | nil => simp [convertPathType, h1, h2, hds.symm]
      | cons e path => simp [convertPathType_cons, h1, h2, hds.symm]
    · obtain rfl := Option.some.inj h
      simp [convertPathType_cons, h1, hds.symm]
    · obtain rfl := Option.some.inj h
      simp [convertPathType_cons, h5, hds]
    · obtain rfl := Option.some.inj h
      rw [convertPathType_cons, if_neg h1, if_neg h5]

theorem name_ne_nil_of_pos {name prev : CStr} (h : 0 < pathcasecmp name prev true) :
    name ≠ [] := by
  intro hnil
  subst hnil
  cases prev with
  | nil => simp [pathcasecmp] at h
  | cons c prev =>
    have hle : byteVerdict nul c (byteDiff true nul c) ≤ 0 := by
      unfold byteVerdict byteDiff
      split_ifs <;> simp_all
    exact absurd h (not_lt.mpr hle)

theorem decodeWord_inv {e : Exit} {buf buf' : List Byte} {word : Option (List Byte)} {path : CStr}
    (h : decodeWord e buf word = .ok (path, buf')) :
    ∃ mem, word = some mem ∧ decode buf mem = (some path, buf') := by
  cases word with
  | none => exact absurd h (by simp [decodeWord])
  | some mem =>
    refine ⟨mem, rfl, ?_⟩
    simp only [decodeWord] at h
    split at h
    · exact absurd h (by simp)
    · next path₁ buf₁ hd =>
      obtain ⟨rfl, rfl⟩ := Prod.mk.inj (Except.ok.inj h)
      exact hd

theorem decodePath_inv {format : TranFormat} {e e' : Exit} {buf buf' : List Byte}
    {word : Option (List Byte)} {path : CStr}
    (h : decodePath format e e' buf word = .ok (path, buf')) :
    ∃ raw, decodeWord e buf word = .ok (raw, buf') ∧ convertPathType format raw = some path := by
  unfold decodePath at h
  split at h
  · exact absurd h (by simp)
  next raw buf₁ hd =>
  split at h
  · exact absurd h (by simp)
  next hc =>
  obtain ⟨rfl, rfl⟩ := Prod.mk.inj (Except.ok.inj h)
  exact ⟨raw, hd, hc⟩

/-- A word of a line, as `acav_parse` returns it. -/
def LineWord (mem : List Byte) : Prop := cstr mem ≠ [] ∧ Solid [] (cstr mem)

/-- The last fields of a record that was read can stand on a line again. -/
structure FieldsRead (pcfg : ParseConfig) (q : PathInfo) : Prop where
  link : q.piType = .l ∨ q.piType = .h → NulFree q.piLink ∧ q.piLink ≠ []
  link_form : q.piType = .h → convertPathType pcfg.tranFormat q.piLink = some q.piLink
  cksum : q.piType.isFile = true → Solid [] q.piCksumB64 ∧ q.piCksumB64 ≠ [] ∧
    (pcfg.cksum = true → q.piCksumB64 ≠ [minus])

section

variable {pcfg : ParseConfig} {buf buf' file : List Byte} {linenum : Nat} {tType : TType}
  {p q : PathInfo}

theorem decodeWord_ne_nil {e : Exit} {mem : List Byte} {path : CStr}
    (h : decodeWord e buf (some mem) = .ok (path, buf')) (hmem : cstr mem ≠ [])
    (hbuf : buf.headD nul ≠ nul) : NulFree path ∧ path ≠ [] := by
  obtain ⟨mem', hmem', hd⟩ := decodeWord_inv h
  obtain rfl := Option.some.inj hmem'
  refine ⟨decode_nulFree hd, fun hnil => hbuf ?_⟩
  subst hnil
  exact (decode_first hd).1 rfl hmem

theorem parseFields_read {type : FileType} {argv : List (List Byte)}
    (h : parseFields pcfg buf file linenum tType p type argv = .ok (q, buf'))
    (hp : p.piType = type) (htran : tType ≠ .negative) (hargv : ∀ mem ∈ argv, LineWord mem)
    (hbuf : buf.headD nul ≠ nul) : FieldsRead pcfg q := by
  obtain ⟨-, -, htype⟩ := parseFields_name h
  rw [hp] at htype
  have hplain : type ∉ [.l, .h, .a, .f] → FieldsRead pcfg q := by
    intro hne
    simp only [List.mem_cons, List.not_mem_nil, or_false, not_or] at hne
    refine ⟨fun hl => ?_, fun hh => ?_, fun hf => ?_⟩
    · rw [htype] at hl
      exact absurd hl (by simp [hne])
    · exact absurd (htype.symm.trans hh) hne.2.1
    · rw [htype] at hf
      simp [FileType.isFile, hne] at hf
  have hlink : ∀ {path : CStr} {st : Stat}, type = .l → NulFree path ∧ path ≠ [] →
      q = { p with piStat := st, piLink := path } → FieldsRead pcfg q := by
    intro path st hl hpath hq
    subst hq
    refine ⟨fun _ => hpath, fun hh => ?_, fun hf => ?_⟩
    · simp [hp, hl] at hh
    · simp [hp, hl, FileType.isFile] at hf
  unfold parseFields at h
  cases type with
  | X | unset => simp at h
  | d | p | D | s | b | c => exact hplain (by simp)
  | a | f =>
    simp only at h
    split at h
    · next l n mode uid gid mtime size cksum =>
      obtain ⟨hne, hsolid⟩ := hargv cksum (by simp)
      split at h
      · simp at h
      · next hck =>
        obtain ⟨rfl, -⟩ := Prod.mk.inj (Except.ok.inj h)
        refine ⟨fun hl => ?_, fun hh => ?_, fun _ => ⟨hsolid, hne, fun hc hm => ?_⟩⟩
        · simp [hp] at hl
        · simp [hp] at hh
        · exact hck ⟨htran, hc, hm⟩
    · simp at h
  | l =>
    simp only at h
    split at h
    · next l n target =>
      obtain ⟨hne, -⟩ := hargv target (by simp)
      split at h
      · simp at h
      · next hd =>
        obtain ⟨rfl, -⟩ := Prod.mk.inj (Except.ok.inj h)
        exact hlink rfl (decodeWord_ne_nil hd hne hbuf) rfl
    · next l n mode uid gid target =>
      obtain ⟨hne, -⟩ := hargv target (by simp)
      split at h
      · simp at h
      · next hd =>
        obtain ⟨rfl, -⟩ := Prod.mk.inj (Except.ok.inj h)
        exact hlink rfl (decodeWord_ne_nil hd hne hbuf) rfl
    · simp at h
  | h =>
    simp only at h
    split at h
    · next l n target =>
      obtain ⟨hne, -⟩ := hargv target (by simp)
      split at h
      · simp at h
      · next link buf₁ hd =>
        obtain ⟨rfl, -⟩ := Prod.mk.inj (Except.ok.inj h)
        obtain ⟨raw, hraw, hconv⟩ := decodePath_inv hd
        have hrawne := (decodeWord_ne_nil hraw hne hbuf).2
        refine ⟨fun _ => ⟨decodePath_nulFree hd, fun hnil => hrawne ?_⟩,
          fun _ => convertPathType_idem hconv, fun hf => ?_⟩
        · obtain rfl : link = [] := hnil
          exact convertPathType_eq_nil hconv
        · simp [hp, FileType.isFile] at hf
    · simp at h

theorem stripWord_mem {c : Byte} {argv : List (List Byte)} :
    ∀ mem ∈ (stripWord c argv).2, mem ∈ argv := by
  intro mem hmem
  unfold stripWord at hmem
  cases argv with
  | nil => exact hmem
  | cons word rest =>
    simp only at hmem
    split at hmem
    · exact List.mem_cons_of_mem _ hmem
    · exact hmem

/-- What a line gave can be put on a line again. -/
theorem parseLine_rereadable (hcs : pcfg.caseSensitive = true) {argv : List (List Byte)}
    (h : parseLine pcfg buf file linenum tType p argv = .ok (q, buf')) (htran : tType ≠ .negative)
    (hlink : p.piLink.length ≤ maxPathLen) (hargv : ∀ mem ∈ argv, LineWord mem) :
    Rereadable pcfg tType q := by
  have hprint := parseLine_printable hlink h
  have hspec := parseLine_spec h
  rw [hcs] at hspec
  unfold parseLine at h
  split at h
  · exact absurd h (by simp)
  split at h
  · exact absurd h (by simp)
  simp only at h
  split at h
  · exact absurd h (by simp)
  next name buf₁ hname =>
  split at h
  · exact absurd h (by simp)
  split at h
  · exact absurd h (by simp)
  next type htype =>
  obtain ⟨hn, -, ht⟩ := parseFields_name h
  have hne := name_ne_nil_of_pos hspec.2
  obtain ⟨raw, hraw, hconv⟩ := decodePath_inv hname
  obtain ⟨mem, -, hd⟩ := decodeWord_inv hraw
  -- the link is decoded over what the name left in the buffer
  have hbuf : buf₁.headD nul ≠ nul := by
    refine (decode_first hd).2 fun hnil => hne ?_
    have hsome : some ([] : CStr) = some name := by
      rw [← hconv, hnil]
      cases pcfg.tranFormat <;> rfl
    rw [hn]
    exact (Option.some.inj hsome).symm
  obtain ⟨hl, hform, hck⟩ := parseFields_read h rfl htran
    (fun mem hmem => hargv mem (stripWord_mem mem (stripWord_mem mem hmem))) hbuf
  have hname' : convertPathType pcfg.tranFormat q.piName = some q.piName :=
    hn ▸ convertPathType_idem hconv
  exact ⟨⟨hspec.1, hne, hname', hl, hform,
    fun hf => ⟨(hck hf).1, (hck hf).2.1, fun _ => (hck hf).2.2⟩⟩, hprint.known, hprint.name_le,
    fun _ => hprint.link_le⟩

theorem readLine_words {fuel linenum' : Nat} {input rest : List Byte} {argv : List (List Byte)}
    (h : readLine file fuel linenum input = .ok (some argv, linenum', rest)) :
    ∀ mem ∈ argv, LineWord mem := by
  induction fuel generalizing linenum input with
  | zero => simp [readLine] at h
  | succ fuel ih =>
    rw [readLine] at h
    split at h
    · simp at h
    next line rest₁ _ =>
    split_ifs at h
    split at h
    · exact ih h
    next word words hwords =>
    split_ifs at h with hhash
    · exact ih h
    · obtain rfl := Option.some.inj (Prod.mk.inj (Except.ok.inj h)).1
      intro mem hmem
      have hall := fun mem => @acavLoop_words [] (line ++ [nul]) false (fun _ => rfl) mem
      exact hall mem (hwords ▸ hmem)

end

theorem transcriptParse_rereadable {pcfg : ParseConfig} (hcs : pcfg.caseSensitive = true)
    {buf buf' : List Byte} {t t' : Transcript} (htran : t.tType ≠ .negative)
    (hlink : t.tPinfo.piLink.length ≤ maxPathLen)
    (h : transcriptParse pcfg buf t = .ok (t', buf')) :
    t'.tEof = false → Rereadable pcfg t.tType t'.tPinfo := by
  unfold transcriptParse at h
  split at h
  · exact absurd h (by simp)
  split at h
  · exact absurd h (by simp)
  · obtain ⟨rfl, -⟩ := Prod.mk.inj (Except.ok.inj h)
    exact fun heof => absurd heof (by simp)
  · next argv linenum rest hread =>
    split at h
    · exact absurd h (by simp)
    next hline =>
    obtain ⟨rfl, -⟩ := Prod.mk.inj (Except.ok.inj h)
    exact fun _ => parseLine_rereadable hcs hline htran hlink (readLine_words hread)

theorem Lists.rereadable {pcfg : ParseConfig} (hcs : pcfg.caseSensitive = true) {t : Transcript}
    {es : List PathInfo} (h : Lists pcfg t es) (htran : t.tType ≠ .negative)
    (ht : t.tEof = false → Rereadable pcfg t.tType t.tPinfo)
    (hlink : t.tPinfo.piLink.length ≤ maxPathLen) : ∀ e ∈ es, Rereadable pcfg t.tType e := by
  induction h with
  | eof => exact fun e he => absurd he List.not_mem_nil
  | @line t t' es heof hp _ ih =>
    intro e he
    rcases List.mem_cons.mp he with rfl | he
    · exact ht heof
    · obtain ⟨buf', hparse⟩ := hp []
      obtain ⟨hfile, -, hcases⟩ := transcriptParse_cases hparse
      have htype : t'.tType = t.tType := congrArg TranFile.tType hfile
      have hlink' : t'.tPinfo.piLink.length ≤ maxPathLen := by
        rcases hcases with ⟨-, -, hsame, -⟩ | ⟨heof', -⟩
        · exact hsame ▸ hlink
        · exact (transcriptParse_printable hlink hparse (heof'.trans heof)).link_le
      rw [← htype] at htran ⊢
      exact ih htran (htype ▸ transcriptParse_rereadable hcs (htype ▸ htran) hlink hparse) hlink'
        e he

/-- The records of a list of transcripts can be put on lines again. -/
theorem Transcripts.rereadable {cfg : SelectConfig} (hcs : cfg.caseSensitive = true) {c : Cursors}
    {M : List (Nat × PathInfo)} (h : Transcripts cfg c M) (hpos : c.Positive) :
    ∀ x ∈ M, Rereadable cfg.toParseConfig .positive x.2 := by
  obtain ⟨ess, hready, -, hM⟩ := h.holds
  obtain ⟨ts, hc, hopened⟩ := h.opened
  intro x hx
  obtain ⟨⟨es, hes, hmem⟩, -⟩ := ((hM.mem_iff x.1 x.2).mp hx).1
  obtain ⟨t, ht, hlists⟩ := Lists.get' hready.lists hes
  have htmem := List.mem_of_getElem? ht
  have hpos := hpos t htmem
  rw [hc] at htmem
  rcases List.mem_append.mp htmem with htmem | htmem
  · have htype := hpos.resolve_right (hopened t htmem).type_ne
    obtain ⟨buf, buf', type, fullname, shortname, content, hnew⟩ := hopened t htmem
    have hsame : t.tType = type := congrArg TranFile.tType (transcriptParse_cases hnew).1
    have hneg : type ≠ .negative := by simp [← hsame, htype]
    have hzero : PathInfo.zero.piLink.length ≤ maxPathLen := by decide
    have hfirst := transcriptParse_rereadable hcs hneg hzero hnew
    rw [← htype]
    refine hlists.rereadable hcs (hsame ▸ hneg) (hsame ▸ hfirst) ?_ x.2 hmem
    rcases (transcriptParse_cases hnew).2.2 with ⟨-, -, hsame, -⟩ | ⟨heof', -⟩
    · exact hsame ▸ hzero
    · exact (transcriptParse_printable hzero hnew heof').link_le
  · obtain rfl := List.mem_singleton.mp htmem
    rw [(hlists.eof_inv rfl).1] at hmem
    exact absurd hmem List.not_mem_nil

/-! ## The lines of a run -/

/-- The record on the line of an object: a file has its checksum, where the run
calculates them. -/
def Final (cfg : DiffConfig) (p record : PathInfo) : Prop :=
  if p.piType.isFile = true ∧ cfg.cksum = true then sumFile cfg p = .ok record else record = p

/-- The lines of an event in creatable mode. -/
inductive Created (cfg : DiffConfig) : DiffEvent → List ObjectLine → Prop
  | left {p record : PathInfo} {h : Option CStr} :
      Final cfg p record → Created cfg (.left p) [⟨h, false, false, record⟩]
  | right {next : Option PathInfo} {t : TranLine} {h : Option CStr} :
      Created cfg (.right next t) [⟨h, true, false, t.pinfo⟩]
  | changed {p record : PathInfo} {t : TranLine} {h : Option CStr} :
      Final cfg p record → Created cfg (.both p t) [⟨h, false, false, record⟩]
  | quiet {p : PathInfo} {t : TranLine} : Matches cfg p t.pinfo → Created cfg (.both p t) []

section

variable {cfg : DiffConfig} {F : List FsEntry} {files : List TranFile}

theorem sumFile_fields {p fs : PathInfo} (h : sumFile cfg p = .ok fs) :
    fs = { p with piCksumB64 := fs.piCksumB64 } := by
  unfold sumFile at h
  split at h
  · exact absurd h (by simp)
  · obtain rfl := Except.ok.inj h
    rfl

theorem Final.fields {p record : PathInfo} (h : Final cfg p record) :
    record = { p with piCksumB64 := record.piCksumB64 } := by
  unfold Final at h
  split at h
  · exact sumFile_fields h
  · rw [h]

theorem printCksum_minus {p : PathInfo} (hck : cfg.cksum = true)
    (hp : p.piCksumB64.head? = some minus) : printCksum cfg.print false p = sumFile cfg p := by
  have hck' : cfg.print.cksum = true := hck
  rw [printCksum, if_pos ⟨hp, hck', rfl⟩, sumFile]
  rfl

/-- Calculating a checksum does not depend on the one there was. -/
theorem sumFile_again {p fs : PathInfo} (h : sumFile cfg p = .ok fs) :
    sumFile cfg fs = sumFile cfg p := by
  rw [sumFile_fields h]
  rfl

/-- Whether or not `t_compare` has calculated the checksum of an object, it is on the
line of the object. -/
theorem final_of_printRecord {p fs record : PathInfo} {next : Option PathInfo} {flag : PrFlag}
    (hsummed : Summed cfg p fs) (hnone : p.piCksumB64 = [minus]) (hflag : flag ≠ .statusNeg)
    (h : printRecord cfg.print next false flag fs = .ok record) : Final cfg p record := by
  have hrec := (printRecord_inv h).2.2 hflag
  rw [hsummed.type.1] at hrec
  by_cases hf : p.piType.isFile = true
  · rw [if_pos hf] at hrec
    cases hck : cfg.cksum with
    | false =>
      have hfs : fs = p := hsummed.resolve_right fun hc => by simp [hck] at hc
      rw [Final, if_neg (by simp [hck]), (printCksum_inv hrec).2 (.inr hck), hfs]
    | true =>
      rw [Final, if_pos ⟨hf, hck⟩]
      rcases hsummed with rfl | ⟨-, -, hsum⟩
      · rwa [printCksum_minus hck (by simp [hnone])] at hrec
      · by_cases hhead : fs.piCksumB64.head? = some minus
        · rwa [printCksum_minus hck hhead, sumFile_again hsum] at hrec
        · rwa [(printCksum_inv hrec).1.2 hhead]
  · rw [if_neg hf] at hrec
    have hfs : fs = p := hsummed.resolve_right fun hc => hf (by
      rcases hc.1 with ht | ht <;> simp [FileType.isFile, ht])
    rw [Final, if_neg fun hc => hf hc.1, hrec, hfs]

/-- An object of a run in creatable mode: no type X, and no checksum yet. -/
def ObjectOk (p : PathInfo) : Prop := p.piType ≠ .X ∧ p.piCksumB64 = [minus]

/-- The events of a run in creatable mode on positive transcripts. -/
def CreatableOk : DiffEvent → Prop
  | .left p => ObjectOk p
  | .right next t => (∀ p, next = some p → ObjectOk p) ∧ t.file.tType ≠ .negative
  | .both p t => ObjectOk p ∧ t.file.tType ≠ .negative

theorem printMinus_creatable (hcre : cfg.editPath = .creatable) {fs : Option PathInfo}
    (hfs : ∀ p, fs = some p → p.piType ≠ .X) (flag : PrFlag) :
    printMinus cfg.print fs flag = decide (flag = .tranOnly) := by
  have hcre' : cfg.print.editPath = .creatable := hcre
  have hX : fs.map (·.piType) ≠ some .X := by
    intro hc
    obtain ⟨p, hp, htype⟩ := Option.map_eq_some_iff.mp hc
    exact hfs p hp htype
  simp [printMinus, hcre', hX]

theorem printCur_creatable (hcre : cfg.editPath = .creatable) {fs : Option PathInfo}
    (hfs : ∀ p, fs = some p → p.piType ≠ .X) (t : TranLine) (flag : PrFlag) :
    printCur cfg.print fs t flag = if flag = .tranOnly then some t.pinfo else fs := by
  have hcre' : cfg.print.editPath = .creatable := hcre
  rw [printCur, hcre']
  simp only [printMinus_creatable hcre hfs]
  by_cases hflag : flag = .tranOnly <;> simp [hflag]

/-- In creatable mode a line of the output is that of an object, with no '+'. -/
theorem PrintedAs.created {pr pr' : Printer} {fs : Option PathInfo} {t : TranLine} {flag : PrFlag}
    {record : PathInfo} (hcre : cfg.editPath = .creatable)
    (h : PrintedAs cfg.print pr fs t flag record pr') :
    pr'.outtran = pr.outtran ++ [.object (printMinus cfg.print fs flag) false record] := by
  have hcre' : cfg.print.editPath ≠ .applicable := by
    show cfg.editPath ≠ .applicable
    simp [hcre]
  have hheader : printHeader cfg.print pr t flag = pr := if_neg fun hc => hcre' hc.1
  rw [h.outtran, hheader, decide_eq_false hcre']
  simp

theorem Outcome.created (hcre : cfg.editPath = .creatable) {pre : List DiffEvent}
    {pr pr' : Printer} {ev : DiffEvent} (hev : EventOk cfg files ev) (hok : CreatableOk ev)
    (h : Outcome cfg F pre pr ev pr') (hhead : HeaderOk files pr) :
    HeaderOk files pr' ∧ ∃ ls,
      objectLines none pr'.outtran = objectLines none pr.outtran ++ ls ∧ Created cfg ev ls ∧
        OneLine cfg ev ls := by
  have hcre' : cfg.print.editPath = .creatable := hcre
  cases h with
  | @left p record _ hp =>
    obtain ⟨hhead', header, isPlus, hlines, hplus, -⟩ := hp.objectLines (by simp) hhead
    have hX : ∀ q, some p = some q → q.piType ≠ .X := fun q hq => Option.some.inj hq ▸ hok.1
    obtain ⟨cur, hcur, hrecord⟩ := hp.source
    rw [printCur_creatable hcre hX, if_neg (by simp)] at hcur
    obtain rfl := Option.some.inj hcur
    rw [printMinus_creatable hcre hX] at hrecord hlines
    have hfinal := final_of_printRecord (.inl rfl) hok.2 (by simp) hrecord
    obtain rfl : isPlus = false := by simp [hplus, hcre']
    refine ⟨hhead', _, hlines, .left hfinal, .inr ⟨_, rfl, ?_⟩⟩
    rw [hfinal.fields]
    rfl
  | @right next t record _ hp =>
    obtain ⟨hhead', header, isPlus, hlines, hplus, -⟩ := hp.objectLines (fun _ => hev) hhead
    have hX : ∀ q, next = some q → q.piType ≠ .X := fun q hq => (hok.1 q hq).1
    obtain ⟨cur, hcur, hrecord⟩ := hp.source
    rw [printCur_creatable hcre hX, if_pos rfl] at hcur
    obtain rfl := Option.some.inj hcur
    rw [printMinus_creatable hcre hX] at hrecord hlines
    obtain rfl : isPlus = false := by simp [hplus, hcre']
    -- no checksum is calculated for a line with a '-'
    have heq : record = t.pinfo := by
      have := (printRecord_inv hrecord).2.2 (by simp)
      split at this
      · exact (printCksum_inv this).2 (.inl (by simp))
      · exact this
    subst heq
    exact ⟨hhead', _, hlines, .right, .inr ⟨_, rfl, rfl⟩⟩
  | @changed p fs t flag record _ hshows hsummed hflag hp =>
    have hflag' : flag = .download ∨ flag = .status :=
      hflag.imp_right fun hc => hc.resolve_right fun hn => by simp [hcre] at hn
    have hfs : flag ≠ .fsOnly ∧ flag ≠ .tranOnly ∧ flag ≠ .statusNeg := by
      rcases hflag' with rfl | rfl <;> simp
    obtain ⟨hhead', header, isPlus, hlines, hplus, -⟩ := hp.objectLines (fun _ => hev.1) hhead
    have hX : ∀ q, some fs = some q → q.piType ≠ .X := fun q hq =>
      Option.some.inj hq ▸ hsummed.type.1 ▸ hok.1.1
    obtain ⟨cur, hcur, hrecord⟩ := hp.source
    rw [printCur_creatable hcre hX, if_neg hfs.2.1] at hcur
    obtain rfl := Option.some.inj hcur
    rw [printMinus_creatable hcre hX, decide_eq_false hfs.2.1] at hrecord hlines
    obtain rfl : isPlus = false := by simp [hplus, hcre']
    have hfinal := final_of_printRecord hsummed hok.1.2 hfs.2.2 hrecord
    refine ⟨hhead', _, hlines, .changed hfinal, .inr ⟨_, rfl, ?_⟩⟩
    rw [hfinal.fields]
    rfl
  | @quiet p t _ hshows hcompared hprev hout =>
    refine ⟨fun j hj => ?_, [], by rw [hout, List.append_nil], .quiet ?_, .inl rfl⟩
    · rw [hout]
      exact hhead j (hprev ▸ hj)
    · have hdiff : differs cfg p t = false := by
        by_contra hc
        exact hshows (.inl (by simpa using hc))
      have htype : p.piType = t.pinfo.piType := by
        by_contra hne
        exact absurd hdiff (by simp [differs, hne])
      by_cases hh : p.piType = .h
      · refine ⟨htype, ?_⟩
        simpa [differs, hh, ← htype] using hdiff
      · exact (matches_iff hok.2 hh).mpr ⟨htype, hcompared hh⟩

/-- The output of a run in creatable mode has no headers. -/
theorem Steps.created (hcre : cfg.editPath = .creatable) {evs : List DiffEvent} {pr : Printer}
    (h : Steps cfg F evs pr) : pr.outtran =
      (objectLines none pr.outtran).map fun l => .object l.isMinus false l.pinfo := by
  have hsnoc : ∀ {out : List OutLine} (m : Bool) (record : PathInfo),
      out = (objectLines none out).map (fun l => OutLine.object l.isMinus false l.pinfo) →
      out ++ [.object m false record] = (objectLines none (out ++ [.object m false record])).map
        fun l => OutLine.object l.isMinus false l.pinfo := by
    intro out m record hout
    rw [objectLines_append, List.map_append, ← hout]
    rfl
  induction h with
  | start _ hout => rw [hout]; rfl
  | @step pre pr pr' ev _ hout ih =>
    cases hout with
    | left hp => exact hp.created hcre ▸ hsnoc _ _ ih
    | right hp => exact hp.created hcre ▸ hsnoc _ _ ih
    | changed _ _ _ hp => exact hp.created hcre ▸ hsnoc _ _ ih
    | quiet _ _ _ hout => rw [hout]; exact ih
  | pass _ _ hout ih => rw [hout]; exact ih

end

end Radmind
