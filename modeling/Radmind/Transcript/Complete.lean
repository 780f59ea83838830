import Radmind.Transcript.Lines

/-!
# The output is a complete join

In applicable mode every path of the file system and of the merge has the lines it
should have, in the order of the paths, and a line that fetches a file stands under
the name of its transcript.
-/

namespace Radmind

open PrecedenceMerge SortedJoin

/-! ## The transcripts of a run -/

/-- The cursors at the start of a run: transcripts as `transcript_init` lists them,
which can be read to their ends and merge to `M`.  Without regard to case the order
is one on ASCII names only. -/
structure Transcripts (cfg : SelectConfig) (c : Cursors) (M : List (Nat × PathInfo)) : Prop where
  opened : ∃ ts, c.tranHead = ts ++ [nullTranscript] ∧ ∀ t ∈ ts, Opened cfg.toParseConfig t
  lists : ∃ ess, List.Forall₂ (Lists cfg.toParseConfig) c.tranHead ess ∧
    (cfg.caseSensitive = false → ∀ es ∈ ess, ∀ e ∈ es, NameOk cfg.caseSensitive e)
  merged : ∃ c', drain cfg c = .ok (M, c')

/-- The transcripts of the list. -/
def Cursors.files (c : Cursors) : List TranFile := c.tranHead.map Transcript.file

theorem Opened.type_ne {cfg : ParseConfig} {t : Transcript} (h : Opened cfg t) :
    t.tType ≠ .null := by
  obtain ⟨buf, buf', type, fullname, shortname, content, hnew⟩ := h
  obtain ⟨hfile, hnull, -⟩ := transcriptParse_cases hnew
  exact fun h => hnull ((congrArg TranFile.tType hfile).symm.trans h)

theorem Transcripts.ready {cfg : SelectConfig} {c : Cursors} {M : List (Nat × PathInfo)}
    (h : Transcripts cfg c M) : ∃ ess, Ready cfg c ess := by
  obtain ⟨ts, hc, hopen⟩ := h.opened
  obtain ⟨ess, hlists, hnames⟩ := h.lists
  cases hcs : cfg.caseSensitive with
  | true => exact ⟨ess, ready_of_opened hcs hc hopen hlists⟩
  | false =>
    refine ⟨ess, hlists, fun t ht hnull => ?_, hnames hcs, by simp [hc]⟩
    rw [hc] at ht
    rcases List.mem_append.mp ht with ht | ht
    · exact absurd hnull (hopen t ht).type_ne
    · obtain rfl := List.mem_singleton.mp ht
      rfl

theorem Transcripts.holds {cfg : SelectConfig} {c : Cursors} {M : List (Nat × PathInfo)}
    (h : Transcripts cfg c M) : Holds cfg c.files c M := by
  obtain ⟨ess, hready⟩ := h.ready
  obtain ⟨M', hholds, -⟩ := hready.holds rfl
  obtain ⟨c', hdrain⟩ := h.merged
  obtain ⟨c'', hdrain'⟩ := drainLoop_holds hholds (Nat.lt_succ_self _)
  obtain ⟨rfl, -⟩ := Prod.mk.inj (Except.ok.inj (hdrain.symm.trans hdrain'))
  exact hholds

/-! ### Lines that were read can be printed -/

theorem length_decodeLoop_le {room : Nat} {line cells r : List Byte}
    (h : (decodeLoop room line cells).result = some r) : r.length ≤ room := by
  have hpush : ∀ {c : Byte} {n m : Nat} {d : Decoded} {r : List Byte},
      (∀ {r}, d.result = some r → r.length ≤ m) → (d.push c n).result = some r →
      r.length ≤ m + 1 := by
    intro c n m d r hd h
    obtain ⟨r', hr', rfl⟩ := Option.map_eq_some_iff.mp h
    exact Nat.succ_le_succ (hd hr')
  have hnil : ∀ {r : List Byte} {m : Nat} {b : List Byte} {n : Nat},
      (⟨some [], b, n⟩ : Decoded).result = some r → r.length ≤ m := by
    intro r m b n h
    obtain rfl := Option.some.inj h
    exact Nat.zero_le m
  fun_induction decodeLoop room line cells generalizing r with
  | case1 => exact hnil h
  | case2 => exact hnil h
  | case3 => exact absurd h (by simp)
  | case4 => exact hnil h
  | case5 _ _ _ ih => exact hpush (fun {_} => ih) h
  | case6 _ _ _ _ _ ih => exact hpush (fun {_} => ih) h
  | case7 => exact hnil h
  | case8 _ _ _ _ _ ih => exact hpush (fun {_} => ih) h
  | case9 _ _ _ _ _ _ _ ih => exact hpush (fun {_} => ih) h

theorem length_cstr_le (mem : List Byte) : (cstr mem).length ≤ mem.length := by
  unfold cstr
  exact (List.takeWhile_prefix _).length_le

theorem length_decode_le {buf buf' mem path : List Byte}
    (h : decode buf mem = (some path, buf')) : path.length ≤ maxPathLen := by
  unfold decode at h
  split at h
  · exact absurd h (by simp)
  · obtain ⟨line, hline, rfl⟩ := Option.map_eq_some_iff.mp (congrArg Prod.fst h)
    exact (length_cstr_le line).trans (length_decodeLoop_le hline)

theorem length_convertPathType_le {format : TranFormat} {path path' : CStr}
    (hp : path.length ≤ maxPathLen) (h : convertPathType format path = some path') :
    path'.length ≤ maxPathLen := by
  unfold convertPathType at h
  split at h
  · split_ifs at h <;> (obtain rfl := Option.some.inj h; exact hp)
  · simp only at h
    split_ifs at h <;> (obtain rfl := Option.some.inj h; first | exact hp | omega)

theorem length_decodeWord_le {e : Exit} {buf buf' : List Byte} {word : Option (List Byte)}
    {path : CStr} (h : decodeWord e buf word = .ok (path, buf')) : path.length ≤ maxPathLen := by
  unfold decodeWord at h
  cases word with
  | none => exact absurd h (by simp)
  | some mem =>
    simp only at h
    split at h
    · exact absurd h (by simp)
    next hd =>
    obtain ⟨rfl, -⟩ := Prod.mk.inj (Except.ok.inj h)
    exact length_decode_le hd

theorem length_decodePath_le {format : TranFormat} {e e' : Exit} {buf buf' : List Byte}
    {word : Option (List Byte)} {path : CStr}
    (h : decodePath format e e' buf word = .ok (path, buf')) : path.length ≤ maxPathLen := by
  unfold decodePath at h
  split at h
  · exact absurd h (by simp)
  next hw =>
  split at h
  · exact absurd h (by simp)
  next hc =>
  obtain ⟨rfl, -⟩ := Prod.mk.inj (Except.ok.inj h)
  exact length_convertPathType_le (length_decodeWord_le hw) hc

theorem length_parseFields_link {cfg : ParseConfig} {buf file buf' : List Byte} {linenum : Nat}
    {tType : TType} {pi pi' : PathInfo} {type : FileType} {argv : List (List Byte)}
    (hlink : pi.piLink.length ≤ maxPathLen)
    (h : parseFields cfg buf file linenum tType pi type argv = .ok (pi', buf')) :
    pi'.piLink.length ≤ maxPathLen := by
  unfold parseFields at h
  have hok : ∀ {q : PathInfo} {b : List Byte},
      (Except.ok (q, b) : Except Exit (PathInfo × List Byte)) = .ok (pi', buf') →
      q.piLink.length ≤ maxPathLen → pi'.piLink.length ≤ maxPathLen :=
    fun h hq => (Prod.mk.inj (Except.ok.inj h)).1 ▸ hq
  cases type with
  | X | unset => simp at h
  | p | D | s | b | c =>
    simp only at h
    split at h
    · exact hok h hlink
    · simp at h
  | a | f =>
    simp only at h
    split at h
    · split at h
      · simp at h
      · exact hok h hlink
    · simp at h
  | d =>
    simp only at h
    split at h
    · split at h
      · simp at h
      · exact hok h hlink
    · exact hok h hlink
    · simp at h
  | l =>
    simp only at h
    split at h
    · split at h
      · simp at h
      · next hd => exact hok h (length_decodeWord_le hd)
    · split at h
      · simp at h
      · next hd => exact hok h (length_decodeWord_le hd)
    · simp at h
  | h =>
    simp only at h
    split at h
    · split at h
      · simp at h
      · next hd => exact hok h (length_decodePath_le hd)
    · simp at h

theorem FileType.ofLetter_known {letter : Byte} {type : FileType}
    (h : FileType.ofLetter letter = some type) : type ∉ [.X, .unset] := by
  have := List.mem_of_find?_eq_some h
  revert this
  cases type <;> decide

theorem parseLine_printable {cfg : ParseConfig} {buf file buf' : List Byte} {linenum : Nat}
    {tType : TType} {pi pi' : PathInfo} {argv : List (List Byte)}
    (hlink : pi.piLink.length ≤ maxPathLen)
    (h : parseLine cfg buf file linenum tType pi argv = .ok (pi', buf')) : Printable pi' := by
  unfold parseLine at h
  split at h
  · exact absurd h (by simp)
  split at h
  · exact absurd h (by simp)
  simp only at h
  split at h
  · exact absurd h (by simp)
  next name buf₁ hname =>
  split at h
  · exact absurd h (by simp)
  split at h
  · exact absurd h (by simp)
  next type htype =>
  obtain ⟨hn, -, ht⟩ := parseFields_name h
  exact ⟨hn ▸ length_decodePath_le hname, length_parseFields_link (by exact hlink) h,
    ht ▸ FileType.ofLetter_known htype⟩

theorem transcriptParse_printable {cfg : ParseConfig} {buf buf' : List Byte}
    {tran tran' : Transcript} (hlink : tran.tPinfo.piLink.length ≤ maxPathLen)
    (h : transcriptParse cfg buf tran = .ok (tran', buf')) :
    tran'.tEof = false → Printable tran'.tPinfo := by
  unfold transcriptParse at h
  split at h
  · exact absurd h (by simp)
  split at h
  · exact absurd h (by simp)
  · obtain ⟨rfl, -⟩ := Prod.mk.inj (Except.ok.inj h)
    exact fun heof => absurd heof (by simp)
  · split at h
    · exact absurd h (by simp)
    next hline =>
    obtain ⟨rfl, -⟩ := Prod.mk.inj (Except.ok.inj h)
    exact fun _ => parseLine_printable hlink hline

theorem Lists.printable {cfg : ParseConfig} {t : Transcript} {es : List PathInfo}
    (h : Lists cfg t es) (ht : t.tEof = false → Printable t.tPinfo) : ∀ e ∈ es, Printable e := by
  induction h with
  | eof => exact fun e he => absurd he List.not_mem_nil
  | @line t t' es heof hp _ ih =>
    intro e he
    rcases List.mem_cons.mp he with rfl | he
    · exact ht heof
    · obtain ⟨buf', hparse⟩ := hp []
      exact ih (transcriptParse_printable (ht heof).link_le hparse) e he

/-- The records of a merge can be printed. -/
theorem Transcripts.printable {cfg : SelectConfig} {c : Cursors} {M : List (Nat × PathInfo)}
    (h : Transcripts cfg c M) : ∀ x ∈ M, Printable x.2 := by
  obtain ⟨ts, hc, hopen⟩ := h.opened
  obtain ⟨ess, hready, -, hmerge⟩ := h.holds
  intro x hx
  obtain ⟨⟨⟨es, hes, hmem⟩, -⟩, -⟩ := (hmerge.mem_iff x.1 x.2).mp hx
  obtain ⟨t, ht, hlists⟩ := Lists.get' hready.lists hes
  refine hlists.printable (fun heof => ?_) x.2 hmem
  rw [hc] at ht
  rcases List.mem_append.mp (List.mem_of_getElem? ht) with ht | ht
  · obtain ⟨buf, buf', type, fullname, shortname, content, hnew⟩ := hopen t ht
    exact transcriptParse_printable (Nat.zero_le _) hnew heof
  · obtain rfl := List.mem_singleton.mp ht
    simp [nullTranscript] at heof

/-! ## The objects of a run -/

/-- The objects in the order `fs_walk` passes them.  Without regard to case the order
is one on ASCII names only. -/
structure FsWalk (cfg : DiffConfig) (F : List FsEntry) : Prop where
  valid : ∀ e ∈ F, e.Valid
  ascending : F.Pairwise fun e e' => pathcasecmp e.path e'.path cfg.caseSensitive < 0
  ascii : cfg.caseSensitive = false → ∀ e ∈ F, Ranked cfg.caseSensitive e.path

section

variable {cfg : DiffConfig} {F : List FsEntry} {files : List TranFile} {c : Cursors}
  {M : List (Nat × PathInfo)}

theorem FsWalk.ranked (h : FsWalk cfg F) : ∀ e ∈ F, Ranked cfg.caseSensitive e.path := by
  intro e he
  cases hcs : cfg.caseSensitive with
  | true => exact ranked_of_nulFree (h.valid e he).nulFree
  | false => exact hcs ▸ h.ascii hcs e he

theorem FsWalk.keys (h : FsWalk cfg F) : F.Pairwise fun e e' =>
    pathKey cfg.caseSensitive e.path < pathKey cfg.caseSensitive e'.path :=
  h.ascending.imp_of_mem fun he he' hlt => (pathcasecmp_neg (h.ranked _ he) (h.ranked _ he')).mp hlt

theorem linkRecords_ascending (h : FsWalk cfg F) : (linkRecords [] (walked cfg F)).Pairwise
    fun p q => p.key cfg.caseSensitive < q.key cfg.caseSensitive := by
  have hnames : ((walked cfg F).map (·.path)).Pairwise fun p q =>
      pathKey cfg.caseSensitive p < pathKey cfg.caseSensitive q :=
    List.pairwise_map.mpr (h.keys.filter _)
  rw [← linkRecords_names [], List.pairwise_map] at hnames
  exact hnames

theorem Holds.lines_ascending (h : Holds cfg.toSelectConfig files c M) :
    (tranLines files M).Pairwise fun t u =>
      t.key cfg.caseSensitive < u.key cfg.caseSensitive := by
  obtain ⟨ess, -, -, hmerge⟩ := h
  exact List.pairwise_map.mpr hmerge.ascending

/-- The events of a run come in the order of their paths. -/
theorem runEvents_ascending (hF : FsWalk cfg F) (h : Holds cfg.toSelectConfig files c M) :
    (runEvents cfg F (tranLines files M)).Pairwise fun ev ev' =>
      eventKey cfg ev < eventKey cfg ev' :=
  pairwise_join (linkRecords_ascending hF) h.lines_ascending

/-- The line of an event knows its transcript and is of the event's path. -/
def EventOk (cfg : DiffConfig) (files : List TranFile) : DiffEvent → Prop
  | .left _ => True
  | .right _ t => t.Of files
  | .both p t => t.Of files ∧ t.key cfg.caseSensitive = p.key cfg.caseSensitive

theorem runEvents_ok (hF : FsWalk cfg F) (h : Holds cfg.toSelectConfig files c M) :
    ∀ ev ∈ runEvents cfg F (tranLines files M), EventOk cfg files ev := by
  have hof : ∀ t ∈ tranLines files M, t.Of files := by
    intro t ht
    obtain ⟨x, -, rfl⟩ := List.mem_map.mp ht
    rfl
  intro ev hev
  cases ev with
  | left p => trivial
  | right next t =>
    exact hof t ((mem_join_right (linkRecords_ascending hF) h.lines_ascending).mp hev).1
  | both p t =>
    obtain ⟨-, ht, hkey⟩ := (mem_join_both (linkRecords_ascending hF) h.lines_ascending).mp hev
    exact ⟨hof t ht, hkey⟩

end

/-! ## The lines in applicable mode -/

/-- The lines of an event in applicable mode. -/
inductive Applied (cfg : DiffConfig) (F : List FsEntry) (pre : List DiffEvent) :
    DiffEvent → List ObjectLine → Prop
  | left {p : PathInfo} {h : Option CStr} : Applied cfg F pre (.left p) [⟨h, true, false, p⟩]
  | right {next : Option PathInfo} {t : TranLine} {h : Option CStr} {record : PathInfo} :
      Carries t.pinfo record → (t.pinfo.piType.isFile = true → h = some t.file.tShortname) →
      Applied cfg F pre (.right next t) [⟨h, false, t.pinfo.piType.isFile, record⟩]
  | changed {p : PathInfo} {t : TranLine} {h : Option CStr} {isPlus : Bool} {record : PathInfo} :
      Shows cfg F pre (.both p t) → record.piName = t.pinfo.piName →
      (isPlus = true → h = some t.file.tShortname) →
      Applied cfg F pre (.both p t) [⟨h, false, isPlus, record⟩]
  | quiet {p : PathInfo} {t : TranLine} : ¬ Shows cfg F pre (.both p t) →
      (p.piType ≠ .h → ∃ fs, compareFields cfg [] p t = .ok (fs, none)) →
      Applied cfg F pre (.both p t) []

section

variable {cfg : DiffConfig} {F : List FsEntry} {files : List TranFile}

theorem printMinus_applicable (happ : cfg.editPath = .applicable) (fs : Option PathInfo)
    (flag : PrFlag) : printMinus cfg.print fs flag = decide (flag = .fsOnly) := by
  simp [printMinus, DiffConfig.print, happ]

theorem printCur_applicable (happ : cfg.editPath = .applicable) (fs : Option PathInfo)
    (t : TranLine) (flag : PrFlag) :
    printCur cfg.print fs t flag = if flag = .fsOnly then fs else some t.pinfo := by
  simp [printCur, DiffConfig.print, happ]

theorem Outcome.applied (happ : cfg.editPath = .applicable) {pre : List DiffEvent}
    {pr pr' : Printer} {ev : DiffEvent} (hev : EventOk cfg files ev)
    (h : Outcome cfg F pre pr ev pr') (hok : HeaderOk files pr) :
    HeaderOk files pr' ∧ ∃ ls,
      objectLines none pr'.outtran = objectLines none pr.outtran ++ ls ∧ Applied cfg F pre ev ls ∧
        OneLine cfg ev ls := by
  have happ' : cfg.print.editPath = .applicable := happ
  cases h with
  | @left p record _ hp =>
    obtain ⟨hok', header, isPlus, hlines, hplus, -⟩ := hp.objectLines (by simp) hok
    obtain ⟨cur, hcur, hrecord⟩ := hp.source
    rw [printCur_applicable happ, if_pos rfl] at hcur
    obtain rfl := Option.some.inj hcur
    rw [printMinus_applicable happ] at hrecord hlines
    -- no checksum is calculated for a line with a '-'
    have heq : record = p := by
      have := (printRecord_inv hrecord).2.2 (by simp)
      split at this
      · exact (printCksum_inv this).2 (.inl rfl)
      · exact this
    subst heq
    refine ⟨hok', _, hlines, ?_, .inr ⟨_, rfl, rfl⟩⟩
    have hfalse : isPlus = false := by simp [hplus]
    rw [hfalse]
    exact .left
  | @right next t record _ hp =>
    obtain ⟨hok', header, isPlus, hlines, hplus, hheader⟩ := hp.objectLines (fun _ => hev) hok
    obtain ⟨cur, hcur, hrecord⟩ := hp.source
    rw [printCur_applicable happ, if_neg (by simp)] at hcur
    obtain rfl := Option.some.inj hcur
    rw [printMinus_applicable happ] at hrecord hlines
    obtain ⟨hname, htype, hcarries⟩ := printRecord_inv hrecord
    have hcarries : Carries t.pinfo record := by
      have := hcarries (by simp)
      split at this
      · exact (printCksum_inv this).1
      · exact this ▸ .refl t.pinfo
    have hplus' : isPlus = t.pinfo.piType.isFile := by simp [hplus, htype, happ']
    rw [hplus'] at hlines hheader
    exact ⟨hok', _, hlines, .right hcarries hheader,
      .inr ⟨_, rfl, by rw [PathInfo.key, hname]; rfl⟩⟩
  | @changed p fs t flag record _ hshows hsummed hflag hp =>
    have hfs : flag ≠ .fsOnly := by rcases hflag with rfl | rfl | ⟨rfl, -⟩ <;> simp
    obtain ⟨hok', header, isPlus, hlines, -, hheader⟩ := hp.objectLines (fun _ => hev.1) hok
    obtain ⟨cur, hcur, hrecord⟩ := hp.source
    rw [printCur_applicable happ, if_neg hfs] at hcur
    obtain rfl := Option.some.inj hcur
    rw [printMinus_applicable happ, decide_eq_false hfs] at hlines
    obtain ⟨hname, -, -⟩ := printRecord_inv hrecord
    refine ⟨hok', _, hlines, .changed hshows hname hheader, .inr ⟨_, rfl, ?_⟩⟩
    rw [PathInfo.key, hname]
    exact hev.2
  | quiet hshows hcompared hprev hout =>
    refine ⟨fun j hj => ?_, [], by rw [hout, List.append_nil], .quiet hshows hcompared, .inl rfl⟩
    rw [hout]
    exact hok j (hprev ▸ hj)

/-- The lines of a run in applicable mode. -/
theorem transcriptRun_applied (happ : cfg.editPath = .applicable) {c : Cursors}
    {M : List (Nat × PathInfo)} (hT : Transcripts cfg.toSelectConfig c M) (hF : FsWalk cfg F)
    {r : Run} (hr : transcriptRun cfg ⟨c, .start⟩ F = .ok r) :
    LinesOf cfg (Applied cfg (walked cfg F)) (runEvents cfg F (tranLines c.files M))
      (objectLines none r.printer.outtran) := by
  have hholds := hT.holds
  have hpaths : F.Pairwise fun e e' => e.path ≠ e'.path :=
    hF.keys.imp fun hlt heq => by simp [heq] at hlt
  have hsteps := (transcriptRun_steps hholds hF.valid hF.ranked (by simp [happ]) hpaths).1 r hr
  refine (hsteps.linesOf c.files (runEvents_ascending hF hholds) ?_).2
  exact fun ev hev hout hok => hout.applied happ (runEvents_ok hF hholds ev hev) hok

end

/-! ## Completeness -/

/-- The lines of one path. -/
def linesAt (out : List OutLine) (path : CStr) : List ObjectLine :=
  (objectLines none out).filter fun l => l.pinfo.piName = path

/-- The output `out` of a diff of the objects `F` with the merge `M`. -/
structure Complete (cfg : DiffConfig) (files : List TranFile) (F : List FsEntry)
    (M : List (Nat × PathInfo)) (out : List OutLine) : Prop where
  ascending : (objectLines none out).Pairwise fun l l' => pathcmp l.pinfo.piName l'.pinfo.piName < 0
  fsOnly : ∀ e ∈ F, cfg.tExclude e.path = false → (∀ x ∈ M, x.2.piName ≠ e.path) →
    ∃ l, linesAt out e.path = [l] ∧ l.isMinus = true ∧ l.isPlus = false
  tranOnly : ∀ x ∈ M, (∀ e ∈ F, e.path ≠ x.2.piName) →
    ∃ l, linesAt out x.2.piName = [l] ∧ l.isMinus = false ∧ Carries x.2 l.pinfo ∧
      (l.isPlus = true ↔ x.2.piType = .f ∨ x.2.piType = .a)
  both : ∀ e ∈ F, (∃ x ∈ M, x.2.piName = e.path) →
    (linesAt out e.path).length ≤ 1 ∧ ∀ l ∈ linesAt out e.path, l.isMinus = false
  excluded : ∀ e ∈ F, cfg.tExclude e.path = true → linesAt out e.path = []
  headers : ∀ l ∈ objectLines none out, l.isPlus = true →
    ∃ x ∈ M, x.2.piName = l.pinfo.piName ∧
      l.header = some (files.getD x.1 ⟨.null, [], []⟩).tShortname

section

variable {cfg : DiffConfig} {F : List FsEntry} {c : Cursors} {M : List (Nat × PathInfo)}

theorem Transcripts.names (h : Transcripts cfg.toSelectConfig c M) :
    ∀ x ∈ M, NameOk cfg.caseSensitive x.2 := h.holds.names

/-- The name on the line of an event. -/
def eventName : DiffEvent → CStr
  | .left p => p.piName
  | .right _ t => t.pinfo.piName
  | .both _ t => t.pinfo.piName

theorem Applied.name {pre : List DiffEvent} {ev : DiffEvent} {ls : List ObjectLine}
    (h : Applied cfg F pre ev ls) : ∀ l ∈ ls, l.pinfo.piName = eventName ev := by
  cases h with
  | left => simp [eventName]
  | right hc => simpa [eventName] using hc.name
  | changed _ hname => simpa [eventName] using hname
  | quiet => simp

theorem linkRecord_mem {p : PathInfo} {seen : List FsEntry} (h : p ∈ linkRecords seen F) :
    ∃ e ∈ F, e.path = p.piName := by
  have : p.piName ∈ (linkRecords seen F).map (·.piName) := List.mem_map_of_mem h
  rw [linkRecords_names] at this
  exact List.mem_map.mp this

theorem exists_linkRecord {e : FsEntry} (seen : List FsEntry) (h : e ∈ F) :
    ∃ p ∈ linkRecords seen F, p.piName = e.path := by
  have : e.path ∈ F.map (·.path) := List.mem_map_of_mem h
  rw [← linkRecords_names seen] at this
  exact List.mem_map.mp this

variable (hcs : cfg.caseSensitive = true) (happ : cfg.editPath = .applicable)
  (hT : Transcripts cfg.toSelectConfig c M) (hF : FsWalk cfg F) {r : Run}
  (hr : transcriptRun cfg ⟨c, .start⟩ F = .ok r)

include hcs happ hT hF hr

omit hcs in
theorem nulFree_lines : ∀ l ∈ objectLines none r.printer.outtran, NulFree l.pinfo.piName := by
  have hlines := transcriptRun_applied happ hT hF hr
  intro l hl
  obtain ⟨ev, hev, hkey⟩ := hlines.only l hl
  obtain ⟨pre, post, hsplit⟩ := List.append_of_mem hev
  have hmem : l ∈ (objectLines none r.printer.outtran).filter fun l =>
      l.pinfo.key cfg.caseSensitive = eventKey cfg ev :=
    List.mem_filter.mpr ⟨hl, by simpa using hkey.symm⟩
  have hname := (hlines.each pre ev post hsplit).name l hmem
  have htran : ∀ t ∈ tranLines c.files M, NulFree t.pinfo.piName := by
    intro t ht
    obtain ⟨x, hx, rfl⟩ := List.mem_map.mp ht
    exact (hT.names x hx).1.nulFree
  have hP := linkRecords_ascending hF
  have hL := hT.holds.lines_ascending
  cases ev with
  | left p =>
    obtain ⟨e, he, hpath⟩ := linkRecord_mem ((mem_join_left hP hL).mp hev).1
    rw [hname, eventName, ← hpath]
    exact (hF.valid e (List.mem_filter.mp he).1).nulFree
  | right next t =>
    rw [hname]
    exact htran t ((mem_join_right hP hL).mp hev).1
  | both p t =>
    rw [hname]
    exact htran t ((mem_join_both hP hL).mp hev).2.1

/-- The lines of the path of an event are the lines of the event. -/
theorem applied_linesAt {ev : DiffEvent} (hev : ev ∈ runEvents cfg F (tranLines c.files M))
    {path : CStr} (hpath : NulFree path) (hkey : eventKey cfg ev = pathKey true path) :
    ∃ pre, Applied cfg (walked cfg F) pre ev (linesAt r.printer.outtran path) := by
  obtain ⟨pre, post, hsplit⟩ := List.append_of_mem hev
  have heach := (transcriptRun_applied happ hT hF hr).each pre ev post hsplit
  refine ⟨pre, ?_⟩
  have hfilter : linesAt r.printer.outtran path =
      (objectLines none r.printer.outtran).filter fun l =>
        l.pinfo.key cfg.caseSensitive = eventKey cfg ev := by
    refine List.filter_congr fun l hl => decide_eq_decide.mpr ?_
    rw [hkey, hcs]
    exact ⟨fun h => by rw [PathInfo.key, h],
      fun h => pathKey_injective (nulFree_lines happ hT hF hr l hl) hpath h⟩
  rwa [hfilter]

/-- The path of no event has no line. -/
theorem linesAt_eq_nil {path : CStr}
    (hne : ∀ ev ∈ runEvents cfg F (tranLines c.files M), eventKey cfg ev ≠ pathKey true path) :
    linesAt r.printer.outtran path = [] := by
  refine List.filter_eq_nil_iff.mpr fun l hl => ?_
  obtain ⟨ev, hev, hkey⟩ := (transcriptRun_applied happ hT hF hr).only l hl
  have := hne ev hev
  simp only [decide_eq_true_eq]
  exact fun h => this (by rw [hkey, PathInfo.key, hcs, h])

omit hcs in
/-- A line with a '+' is that of a line of the merge, under its transcript. -/
theorem applied_header {l : ObjectLine} (hl : l ∈ objectLines none r.printer.outtran)
    (hplus : l.isPlus = true) : ∃ t ∈ tranLines c.files M,
      t.pinfo.piName = l.pinfo.piName ∧ l.header = some t.file.tShortname := by
  have hlines := transcriptRun_applied happ hT hF hr
  obtain ⟨ev, hev, hkey⟩ := hlines.only l hl
  obtain ⟨pre, post, hsplit⟩ := List.append_of_mem hev
  have hmem : l ∈ (objectLines none r.printer.outtran).filter fun l =>
      l.pinfo.key cfg.caseSensitive = eventKey cfg ev :=
    List.mem_filter.mpr ⟨hl, by simpa using hkey.symm⟩
  have happlied := hlines.each pre ev post hsplit
  have hname := happlied.name l hmem
  have hP := linkRecords_ascending hF
  have hL := hT.holds.lines_ascending
  revert happlied hmem
  generalize (objectLines none r.printer.outtran).filter _ = ls
  intro hmem happlied
  cases happlied with
  | left =>
    obtain rfl := List.mem_singleton.mp hmem
    simp at hplus
  | quiet => exact absurd hmem List.not_mem_nil
  | right hcarries hheader =>
    obtain rfl := List.mem_singleton.mp hmem
    exact ⟨_, ((mem_join_right hP hL).mp hev).1, hname.symm, hheader hplus⟩
  | changed _ _ hheader =>
    obtain rfl := List.mem_singleton.mp hmem
    exact ⟨_, ((mem_join_both hP hL).mp hev).2.1, hname.symm, hheader hplus⟩

end

/-- The objects are deleted on their own account, and no path is both excluded and
special. -/
structure NoSpecialCase (cfg : DiffConfig) (F : List FsEntry) (M : List (Nat × PathInfo)) :
    Prop where
  parent : ∀ e ∈ F, e.parentMinus = false
  special : ∀ e ∈ F, cfg.tExclude e.path = true →
    cfg.isSpecial e.path = false ∧ ∀ x ∈ M, x.2.piName ≠ e.path

section

variable {cfg : DiffConfig} {F : List FsEntry} {c : Cursors} {M : List (Nat × PathInfo)}

/-- The line of an entry of the merge. -/
def lineOf (c : Cursors) (x : Nat × PathInfo) : TranLine :=
  ⟨x.1, c.files.getD x.1 ⟨.null, [], []⟩, x.2⟩

theorem mem_tranLines {t : TranLine} : t ∈ tranLines c.files M ↔ ∃ x ∈ M, lineOf c x = t :=
  List.mem_map

/-- An object that is not excluded has a record. -/
theorem record_of_object (hcs : cfg.caseSensitive = true) {e : FsEntry} (he : e ∈ F)
    (hexcl : cfg.tExclude e.path = false) : ∃ p ∈ linkRecords [] (walked cfg F),
      p.key cfg.caseSensitive = pathKey true e.path := by
  have hmem : e ∈ walked cfg F := List.mem_filter.mpr ⟨he, by simp [skips, hexcl]⟩
  obtain ⟨p, hp, hpath⟩ := exists_linkRecord [] hmem
  exact ⟨p, hp, by rw [PathInfo.key, hpath, hcs]⟩

/-- A record is that of an object that is not excluded. -/
theorem object_of_record (hS : NoSpecialCase cfg F M) {p : PathInfo}
    (hp : p ∈ linkRecords [] (walked cfg F)) :
    ∃ e ∈ F, e.path = p.piName ∧ cfg.tExclude e.path = false := by
  obtain ⟨e, he, hpath⟩ := linkRecord_mem hp
  obtain ⟨he, hskip⟩ := List.mem_filter.mp he
  refine ⟨e, he, hpath, ?_⟩
  by_contra hexcl
  have hexcl : cfg.tExclude e.path = true := by simpa using hexcl
  simp [skips, hexcl, hS.parent e he, (hS.special e he hexcl).1] at hskip

variable (hcs : cfg.caseSensitive = true) (happ : cfg.editPath = .applicable)
  (hT : Transcripts cfg.toSelectConfig c M) (hF : FsWalk cfg F) {r : Run}
  (hr : transcriptRun cfg ⟨c, .start⟩ F = .ok r)

include hT hF in
/-- Paths are equal where their keys are. -/
theorem name_eq_of_key {e : FsEntry} (he : e ∈ F) {x : Nat × PathInfo} (hx : x ∈ M)
    (h : pathKey true x.2.piName = pathKey true e.path) : x.2.piName = e.path :=
  pathKey_injective (hT.names x hx).1.nulFree (hF.valid e he).nulFree h

include hcs happ hT hF hr

theorem linesAt_fsOnly {e : FsEntry} (he : e ∈ F) (hexcl : cfg.tExclude e.path = false)
    (hM : ∀ x ∈ M, x.2.piName ≠ e.path) :
    ∃ l, linesAt r.printer.outtran e.path = [l] ∧ l.isMinus = true ∧ l.isPlus = false := by
  obtain ⟨p, hp, hkey⟩ := record_of_object hcs he hexcl
  have hev : .left p ∈ runEvents cfg F (tranLines c.files M) := by
    refine (mem_join_left (linkRecords_ascending hF) hT.holds.lines_ascending).mpr
      ⟨hp, fun t ht heq => ?_⟩
    obtain ⟨x, hx, rfl⟩ := mem_tranLines.mp ht
    refine hM x hx (name_eq_of_key hT hF he hx ?_)
    rw [← hkey, ← heq, hcs]
    rfl
  obtain ⟨pre, happlied⟩ := applied_linesAt hcs happ hT hF hr hev (hF.valid e he).nulFree hkey
  generalize linesAt r.printer.outtran e.path = ls at happlied ⊢
  cases happlied
  exact ⟨_, rfl, rfl, rfl⟩

theorem linesAt_tranOnly (hS : NoSpecialCase cfg F M) {x : Nat × PathInfo} (hx : x ∈ M)
    (hfs : ∀ e ∈ F, e.path ≠ x.2.piName) :
    ∃ l, linesAt r.printer.outtran x.2.piName = [l] ∧ l.isMinus = false ∧ Carries x.2 l.pinfo ∧
      (l.isPlus = true ↔ x.2.piType = .f ∨ x.2.piType = .a) := by
  obtain ⟨next, hev⟩ : ∃ next, .right next (lineOf c x) ∈
      runEvents cfg F (tranLines c.files M) := by
    refine ⟨_, (mem_join_right (linkRecords_ascending hF) hT.holds.lines_ascending).mpr
      ⟨mem_tranLines.mpr ⟨x, hx, rfl⟩, fun p hp heq => ?_, rfl⟩⟩
    obtain ⟨e, he, hpath, -⟩ := object_of_record hS hp
    refine hfs e he (name_eq_of_key hT hF he hx ?_).symm
    rw [hpath, ← hcs]
    exact heq
  obtain ⟨pre, happlied⟩ := applied_linesAt hcs happ hT hF hr hev (hT.names x hx).1.nulFree
    (by rw [← hcs]; rfl)
  generalize linesAt r.printer.outtran x.2.piName = ls at happlied ⊢
  cases happlied with
  | right hcarries hheader =>
    refine ⟨_, rfl, rfl, hcarries, ?_⟩
    simp [FileType.isFile, lineOf, or_comm]

theorem linesAt_both {e : FsEntry} (he : e ∈ F) (hexcl : cfg.tExclude e.path = false)
    {x : Nat × PathInfo} (hx : x ∈ M) (hpath : x.2.piName = e.path) :
    (linesAt r.printer.outtran e.path).length ≤ 1 ∧
      ∀ l ∈ linesAt r.printer.outtran e.path, l.isMinus = false := by
  obtain ⟨p, hp, hkey⟩ := record_of_object hcs he hexcl
  have hev : .both p (lineOf c x) ∈ runEvents cfg F (tranLines c.files M) := by
    refine (mem_join_both (linkRecords_ascending hF) hT.holds.lines_ascending).mpr
      ⟨hp, mem_tranLines.mpr ⟨x, hx, rfl⟩, ?_⟩
    rw [hkey, ← hpath, ← hcs]
    rfl
  obtain ⟨pre, happlied⟩ := applied_linesAt hcs happ hT hF hr hev (hF.valid e he).nulFree hkey
  generalize linesAt r.printer.outtran e.path = ls at happlied ⊢
  cases happlied with
  | changed => simp
  | quiet => simp

theorem linesAt_excluded (hS : NoSpecialCase cfg F M) {e : FsEntry} (he : e ∈ F)
    (hexcl : cfg.tExclude e.path = true) : linesAt r.printer.outtran e.path = [] := by
  have hP := linkRecords_ascending hF
  have hL := hT.holds.lines_ascending
  refine linesAt_eq_nil hcs happ hT hF hr fun ev hev hkey => ?_
  -- the path has no record and no line
  have hnorecord : ∀ p ∈ linkRecords [] (walked cfg F),
      p.key cfg.caseSensitive ≠ pathKey true e.path := by
    intro p hp heq
    obtain ⟨e', he', hpath, hexcl'⟩ := object_of_record hS hp
    rw [PathInfo.key, hcs, ← hpath] at heq
    rw [pathKey_injective (hF.valid e' he').nulFree (hF.valid e he).nulFree heq, hexcl] at hexcl'
    exact absurd hexcl' (by simp)
  cases ev with
  | left p => exact hnorecord p ((mem_join_left hP hL).mp hev).1 hkey
  | both p t => exact hnorecord p ((mem_join_both hP hL).mp hev).1 hkey
  | right next t =>
    obtain ⟨x, hx, rfl⟩ := mem_tranLines.mp ((mem_join_right hP hL).mp hev).1
    refine (hS.special e he hexcl).2 x hx (name_eq_of_key hT hF he hx ?_)
    rw [← hkey, ← hcs]
    rfl

end

/-- A whole diff in applicable mode, with regard to case, prints a complete join, and
comes to its end unless a checksum fails. -/
theorem transcriptRun_complete {cfg : DiffConfig} (hcs : cfg.caseSensitive = true)
    (happ : cfg.editPath = .applicable) {c : Cursors} {M : List (Nat × PathInfo)}
    (hT : Transcripts cfg.toSelectConfig c M) {F : List FsEntry} (hF : FsWalk cfg F)
    (hS : NoSpecialCase cfg F M) :
    (∀ r, transcriptRun cfg ⟨c, .start⟩ F = .ok r → Complete cfg c.files F M r.printer.outtran) ∧
      (SumsWork cfg.print → (∀ e ∈ F, e.type ≠ .X) →
        ∃ r, transcriptRun cfg ⟨c, .start⟩ F = .ok r) := by
  have hpaths : F.Pairwise fun e e' => e.path ≠ e'.path :=
    hF.keys.imp fun hlt heq => by simp [heq] at hlt
  refine ⟨fun r hr => ?_, fun hsum hX => (transcriptRun_steps hT.holds hF.valid hF.ranked
    (by simp [happ]) hpaths).2 hsum hX hT.printable⟩
  constructor
  case ascending =>
    have hnul := nulFree_lines happ hT hF hr
    refine (transcriptRun_applied happ hT hF hr).ascending.imp_of_mem fun {l l'} hl hl' hlt => ?_
    rw [hcs] at hlt
    exact (pathcmp_neg (hnul l hl) (hnul l' hl')).mpr hlt
  case fsOnly => exact fun e he hexcl => linesAt_fsOnly hcs happ hT hF hr he hexcl
  case tranOnly => exact fun x hx => linesAt_tranOnly hcs happ hT hF hr hS hx
  case both =>
    rintro e he ⟨x, hx, hpath⟩
    have hexcl : cfg.tExclude e.path = false := by
      by_contra hexcl
      exact (hS.special e he (by simpa using hexcl)).2 x hx hpath
    exact linesAt_both hcs happ hT hF hr he hexcl hx hpath
  case excluded => exact fun e he => linesAt_excluded hcs happ hT hF hr hS he
  case headers =>
    intro l hl hplus
    obtain ⟨t, ht, hname, hheader⟩ := applied_header happ hT hF hr hl hplus
    obtain ⟨x, hx, rfl⟩ := mem_tranLines.mp ht
    exact ⟨x, hx, hname, hheader⟩

/-! ### A directory of the transcripts and one of its own -/

def twoDiff : DiffConfig :=
  { twoConfig with
    editPath := .applicable, ignoreTimestamps := false, shellEscapes := false, apple := false
    haveLchown := true, haveLchmod := false, isSpecial := fun _ => false
    doCksum := fun _ => none, doAcksum := fun _ _ => none }

def twoMerge : List (Nat × PathInfo) :=
  match drain twoConfig twoCursors with
  | .ok (M, _) => M
  | .error _ => []

set_option maxRecDepth 8000 in
theorem twoTranscripts : Transcripts twoConfig twoCursors twoMerge :=
  ⟨⟨_, rfl, twoOpened⟩, ⟨_, twoLists, fun h => absurd h (by decide)⟩, ⟨_, rfl⟩⟩

def dirStat : Stat := { Stat.zero with stMode := 0o40755, stNlink := 2 }

/-- A directory with mode 0755. -/
def dirEntry (path : CStr) : FsEntry :=
  { path := path, st := dirStat, type := .d, afinfo := [], target := [], parentMinus := false }

def twoObjects : List FsEntry := [dirEntry (lit "/a"), dirEntry (lit "/b")]

theorem dirStat_isDir : dirStat.isDir = true := by decide

theorem dirEntry_valid {path : CStr} (hp : NulFree path) (hlen : path.length < maxPathLen) :
    (dirEntry path).Valid :=
  ⟨hp, hlen, nulFree_nil, maxPathLen_pos, ⟨fun _ => dirStat_isDir, fun _ => rfl⟩,
    by simp [dirEntry]⟩

theorem twoWalk : FsWalk twoDiff twoObjects := by
  refine ⟨fun e he => ?_, by decide, fun h => absurd h (by decide)⟩
  rcases List.mem_pair.mp he with rfl | rfl
  · exact dirEntry_valid (by decide) (by decide)
  · exact dirEntry_valid (by decide) (by decide)

theorem transcriptRun_complete_two :
    (∀ r, transcriptRun twoDiff ⟨twoCursors, .start⟩ twoObjects = .ok r →
        Complete twoDiff twoCursors.files twoObjects twoMerge r.printer.outtran) ∧
      (SumsWork twoDiff.print → (∀ e ∈ twoObjects, e.type ≠ .X) →
        ∃ r, transcriptRun twoDiff ⟨twoCursors, .start⟩ twoObjects = .ok r) :=
  transcriptRun_complete rfl rfl twoTranscripts twoWalk
    ⟨by decide, fun _ _ h => absurd h (by simp [twoDiff, twoConfig])⟩

set_option maxRecDepth 16000 in
example : (transcriptRun twoDiff ⟨twoCursors, .start⟩ twoObjects).map (fun r =>
      (objectLines none r.printer.outtran).map fun l => (l.header, l.isMinus, l.pinfo.piName)) =
    .ok [(none, true, lit "/b"), (some (lit "T"), false, lit "/c")] := by
  decide

end Radmind
