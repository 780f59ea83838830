import Radmind.Transcript.Creatable

/-!
# Overlays

The output of a run in creatable mode, put in front of the transcripts of the run,
describes the objects of the run as they are: another run has nothing to print.
-/

namespace Radmind

open PrecedenceMerge SortedJoin

/-! ## The objects -/

/-- The objects as `fs_walk` finds them: below the initial path and in the form of
the run. -/
structure Walkable (cfg : DiffConfig) (F : List FsEntry) : Prop where
  known : ∀ e ∈ F, e.type ≠ .X
  nonempty : ∀ e ∈ F, e.path ≠ []
  below : ∀ e ∈ F, ischildcase e.path cfg.pathPrefix cfg.caseSensitive = true
  form : ∀ e ∈ F, convertPathType cfg.tranFormat e.path = some e.path
  link : ∀ e ∈ F, e.type = .l → e.st.isLnk = true ∧ e.target ≠ []

/-- A checksum is the text of a digest. -/
structure Digests (cfg : DiffConfig) : Prop where
  file : ∀ path s, cfg.doCksum path = some s → ∃ d, d ≠ [] ∧ s = base64E d
  apple : ∀ path afinfo s, cfg.doAcksum path afinfo = some s → ∃ d, d ≠ [] ∧ s = base64E d

section

variable {cfg : DiffConfig} {F : List FsEntry}

variable (cfg) in
theorem walked_mem {e : FsEntry} (h : e ∈ walked cfg F) : e ∈ F := (List.mem_filter.mp h).1

theorem Walkable.objectOk (hW : Walkable cfg F) :
    ∀ p ∈ linkRecords [] (walked cfg F), ObjectOk p := by
  intro p hp
  obtain ⟨pre, e, post, hsplit, rfl⟩ := mem_linkRecords.mp hp
  have he : e ∈ F := walked_mem cfg (by simp [hsplit])
  rcases linkRecord_cases ([] ++ pre) e with ⟨h, -⟩ | ⟨g, -, -, h⟩
  · rw [h]
    refine ⟨(named_name e).2 ▸ hW.known e he, ?_⟩
    unfold FsEntry.named
    split <;> rfl
  · rw [h]
    exact ⟨by simp [FsEntry.further], rfl⟩

theorem encoded_minus : Encoded [minus] :=
  .plain (by decide) (by decide) (by decide) (by decide) (by decide) .nil

theorem Digests.sumFile (hD : Digests cfg) {p record : PathInfo}
    (h : sumFile cfg p = .ok record) : ∃ d, d ≠ [] ∧ record.piCksumB64 = base64E d := by
  unfold Radmind.sumFile at h
  split at h
  · exact absurd h (by simp)
  next cksum hsum =>
  obtain rfl := Except.ok.inj h
  split at hsum
  · exact hD.file _ _ hsum
  · exact hD.apple _ _ _ hsum

/-- The line of an object can be read back. -/
theorem Final.rereadable (hD : Digests cfg) (hF : FsWalk cfg F) (hW : Walkable cfg F)
    {p record : PathInfo} (hp : p ∈ linkRecords [] (walked cfg F)) (h : Final cfg p record) :
    Rereadable cfg.toParseConfig .positive record := by
  obtain ⟨hX, hminus⟩ := hW.objectOk p hp
  obtain ⟨pre, e, post, hsplit, hrec⟩ := mem_linkRecords.mp hp
  have hmem : ∀ g ∈ pre ++ [e], g ∈ F := fun g hg =>
    walked_mem cfg (hsplit ▸ by
      rcases List.mem_append.mp hg with hg | hg
      · exact List.mem_append_left _ hg
      · obtain rfl := List.mem_singleton.mp hg
        simp)
  have he := hmem e (by simp)
  have hv := hF.valid e he
  have hname : p.piName = e.path := hrec ▸ linkRecord_name _ e
  -- the type and the link, which the checksum leaves alone
  have hlink : p.piType ≠ .unset ∧
      (p.piType = .l ∨ p.piType = .h → (NulFree p.piLink ∧ p.piLink ≠ []) ∧
        p.piLink.length ≤ maxPathLen) ∧
      (p.piType = .h → convertPathType cfg.tranFormat p.piLink = some p.piLink) := by
    rcases linkRecord_cases ([] ++ pre) e with ⟨hn, -⟩ | ⟨g, -, hg, hn⟩
    · have htype : p.piType = e.type := by rw [hrec, hn, (named_name e).2]
      have hh : e.type ≠ .h := fun hc => hv.known (by simp [hc])
      refine ⟨fun hc => hv.known (by simp [← htype, hc]), fun hl => ?_, fun hc =>
        absurd (htype.symm.trans hc) hh⟩
      rw [htype] at hl
      obtain ⟨hlnk, hne⟩ := hW.link e he (hl.resolve_right hh)
      have hpl : p.piLink = e.target := by rw [hrec, hn, FsEntry.named, if_pos hlnk]
      exact ⟨⟨hpl ▸ hv.target_nulFree, hpl ▸ hne⟩, hpl ▸ hv.target_lt.le⟩
    · have hgF := hmem g (List.mem_append_left _ (firstLink_spec hg).1)
      have hpl : p.piLink = g.path := by rw [hrec, hn]; rfl
      have htype : p.piType = .h := by rw [hrec, hn]; rfl
      have hgv := hF.valid g hgF
      exact ⟨by simp [htype], fun _ => ⟨⟨hpl ▸ hgv.nulFree, hpl ▸ hW.nonempty g hgF⟩,
        hpl ▸ hgv.path_lt.le⟩, fun _ => hpl ▸ hW.form g hgF⟩
  have hcksum : p.piType.isFile = true → Solid [] record.piCksumB64 ∧ record.piCksumB64 ≠ [] ∧
      (cfg.cksum = true → record.piCksumB64 ≠ [minus]) := by
    intro hf
    unfold Final at h
    cases hck : cfg.cksum with
    | true =>
      rw [if_pos ⟨hf, hck⟩] at h
      obtain ⟨d, hd, hsum⟩ := hD.sumFile h
      rw [hsum]
      exact ⟨(encoded_base64E d).solid rfl, base64E_ne_nil hd, fun _ => base64E_ne_minus d⟩
    | false =>
      rw [if_neg (by simp [hck])] at h
      rw [h, hminus]
      exact ⟨encoded_minus.solid rfl, by simp, by simp⟩
  rw [h.fields] at hcksum ⊢
  refine ⟨⟨?_, ?_, ?_, fun htype => (hlink.2.1 htype).1, hlink.2.2,
    fun hf => ⟨(hcksum hf).1, (hcksum hf).2.1, fun _ => (hcksum hf).2.2⟩⟩, ?_, ?_,
    fun htype => (hlink.2.1 htype).2⟩
  · exact hname ▸ hv.nulFree
  · exact hname ▸ hW.nonempty e he
  · exact hname ▸ hW.form e he
  · simp [hX, hlink.1]
  · exact hname ▸ hv.path_lt.le

/-- What is read back matches the object. -/
theorem Final.matches (happle : cfg.apple = false) {p record q : PathInfo}
    (h : Final cfg p record) (hq : Reread false record q) : Matches cfg p q := by
  obtain ⟨-, -, htype, hfields⟩ := hq
  have hsame := hfields
  have hfinal := h
  rw [h.fields] at htype hfields
  refine ⟨htype.symm, ?_⟩
  unfold SameFields at hfields
  have happle' : ¬ cfg.apple = true := by simp [happle]
  cases hp : p.piType with
  | X | unset => trivial
  | d => simp only [hp] at hfields; exact ⟨hfields, fun ha => absurd ha happle'⟩
  | D | p | s => simp only [hp] at hfields; exact hfields
  | h => simp only [hp] at hfields; exact hfields
  | l =>
    simp only [hp] at hfields
    obtain ⟨⟨hu, hg, hm⟩, hl⟩ := hfields
    exact ⟨hl, fun _ => ⟨hu, hg⟩, fun _ => hm⟩
  | b | c => simp only [hp] at hfields; exact ⟨hfields.2, hfields.1⟩
  | a | f =>
    simp only [hp] at hfields
    obtain ⟨howner, hmtime, hsize, hck⟩ := hfields
    refine ⟨hsize, fun hc => ⟨record, ?_, ?_⟩, fun _ => hmtime, howner⟩
    · rwa [Final, if_pos ⟨by simp [FileType.isFile, hp], hc⟩] at hfinal
    · exact hck

/-! ## A run with nothing to print -/

/-- An event on which nothing is printed while no inode is marked. -/
def Silent (cfg : DiffConfig) (ev : DiffEvent) : Prop :=
  ∃ p t, ev = .both p t ∧ Matches cfg p t.pinfo ∧ t.file.tType ≠ .negative

theorem compareBoth_silent {seen : List FsEntry} {e : FsEntry} (pr : Printer) {t : TranLine}
    (he : e.Valid) (htable : Table (seen ++ [e]) (fun _ => False) pr.devHead)
    (hmatch : Matches cfg (linkRecord seen e) t.pinfo) (hpos : t.file.tType ≠ .negative) :
    compareBoth cfg pr (linkRecord seen e) t = .ok pr := by
  rw [compareBoth, if_neg (not_not_intro hmatch.1)]
  by_cases hh : (linkRecord seen e).piType = .h
  · rcases linkRecord_cases seen e with ⟨hn, -⟩ | ⟨g, -, hg, hn⟩
    · rw [hn, (named_name e).2] at hh
      exact absurd hh fun hc => he.known (by simp [hc])
    · have hlink : (linkRecord seen e).piLink = t.pinfo.piLink := by
        have := hmatch.2
        rwa [hh] at this
      have hfirst : firstLink (seen ++ [e]) (linkRecord seen e).piStat = some g := by
        rw [linkRecord_stat, firstLink_append, hg]
        rfl
      obtain ⟨i, hi, -, hflag⟩ := htable.present _ g hfirst
      obtain ⟨devHead, hch, -⟩ := hardlinkChanged_spec hi false
      have hfalse : i.iFlag = false := by simpa using hflag
      rw [compareFields, hh]
      simp only [hlink, ne_eq, not_true_eq_false, if_false, hch, hfalse]
      rfl
  · obtain ⟨-, fs, hfs⟩ := (matches_iff hpos hh).mp hmatch
    rw [compareFields_devHead hh, hfs]

/-- A run whose events are all silent prints nothing. -/
theorem joinRun_silent (seen : List FsEntry) (pr : Printer) {F' : List FsEntry} {L : List TranLine}
    (hvalid : ∀ e ∈ F', e.Valid) (htable : Table seen (fun _ => False) pr.devHead)
    (hL : L.Pairwise fun t u => t.key cfg.caseSensitive < u.key cfg.caseSensitive)
    (hsilent : ∀ ev ∈ join (PathInfo.key cfg.caseSensitive) (TranLine.key cfg.caseSensitive)
      (linkRecords seen (walked cfg F')) L, Silent cfg ev) :
    ∃ pr', joinRun cfg pr F' L = .ok pr' ∧ pr'.outtran = pr.outtran := by
  induction F' generalizing seen pr L with
  | nil =>
    cases L with
    | nil => exact ⟨_, rfl, rfl⟩
    | cons t L =>
      obtain ⟨p, u, hev, -⟩ := hsilent (.right none t) (by simp [walked, linkRecords, join])
      exact absurd hev (by simp)
  | cons e F' ih =>
    have hvalid' : ∀ e ∈ F', e.Valid := fun e he => hvalid e (List.mem_cons_of_mem _ he)
    rw [joinRun]
    by_cases hskip : skips cfg e = true
    · rw [if_pos hskip]
      have hwalked : walked cfg (e :: F') = walked cfg F' := by simp [walked, hskip]
      rw [hwalked] at hsilent
      exact ih seen { pr with fsMinus := false } hvalid' htable hL hsilent
    · rw [if_neg hskip]
      have hwalked : walked cfg (e :: F') = e :: walked cfg F' := by simp [walked, hskip]
      rw [hwalked, linkRecords, join] at hsilent
      obtain ⟨hrecord, htable'⟩ := htable.describe (e := e) (fun h => h)
      obtain ⟨pre, mid, rest, hsplit, -, -, -, hsnd, hfst⟩ := meet_spec
        (f := PathInfo.key cfg.caseSensitive) (linkRecord seen e) hL
      -- the line of the object comes first
      have hpre : pre = [] := by
        cases pre with
        | nil => rfl
        | cons t pre =>
          obtain ⟨p, u, hev, -⟩ := hsilent (.right (some (linkRecord seen e)) t) (by
            rcases hfst with ⟨-, h⟩ | ⟨b, -, h⟩ <;> simp [h])
          exact absurd hev (by simp)
      subst hpre
      rcases hfst with ⟨-, hfst⟩ | ⟨t, -, hfst⟩
      · obtain ⟨p, u, hev, -⟩ := hsilent (.left (linkRecord seen e)) (by simp [hfst])
        exact absurd hev (by simp)
      · obtain ⟨p, u, hev, hmatch, hpos⟩ := hsilent (.both (linkRecord seen e) t) (by simp [hfst])
        obtain ⟨rfl, rfl⟩ := Event.both.inj hev
        let pr₁ : Printer := { pr with fsMinus := false, devHead := (describe pr.devHead e).1 }
        have hboth := compareBoth_silent pr₁ (hvalid e List.mem_cons_self) htable' hmatch hpos
        obtain ⟨pr', hrun, hout⟩ := ih (seen ++ [e]) pr₁ hvalid' htable'
          (List.pairwise_append.mp (List.pairwise_append.mp (hsplit ▸ hL)).2.1).2.1
          (fun ev hev => hsilent ev (List.mem_append_right _ (hsnd ▸ hev)))
        refine ⟨pr', ?_, hout⟩
        simp only [hrecord, meetLines, hfst, hsnd, List.map_nil, List.nil_append, onEvents, onEvent]
        rw [show compareBoth cfg _ (linkRecord seen e) t = .ok pr₁ from hboth]
        exact hrun

end

/-! ## The lines of a run -/

theorem forall₂_mem {α β : Type} {R : α → β → Prop} {l : List α} {l' : List β}
    (h : List.Forall₂ R l l') {a : α} (ha : a ∈ l) : ∃ b ∈ l', R a b := by
  induction h with
  | nil => exact absurd ha List.not_mem_nil
  | cons hab _ ih =>
    rcases List.mem_cons.mp ha with rfl | ha
    · exact ⟨_, List.mem_cons_self, hab⟩
    · obtain ⟨b, hb, hr⟩ := ih ha
      exact ⟨b, List.mem_cons_of_mem _ hb, hr⟩

section

variable {cfg : DiffConfig} {F : List FsEntry} {c : Cursors} {M : List (Nat × PathInfo)}

theorem creatableOk_events (hW : Walkable cfg F) (hpos : c.Positive)
    (hT : Transcripts cfg.toSelectConfig c M) (hF : FsWalk cfg F) :
    ∀ ev ∈ runEvents cfg F (tranLines c.files M), CreatableOk ev := by
  have hP := linkRecords_ascending hF
  have hL := hT.holds.lines_ascending
  have hline : ∀ t ∈ tranLines c.files M, t.file.tType ≠ .negative := by
    intro t ht
    obtain ⟨x, -, rfl⟩ := mem_tranLines.mp ht
    exact hpos.type_ne x
  intro ev hev
  cases ev with
  | left p => exact hW.objectOk p ((mem_join_left hP hL).mp hev).1
  | right next t =>
    obtain ⟨ht, -, hnext⟩ := (mem_join_right hP hL).mp hev
    refine ⟨fun p hp => hW.objectOk p ?_, hline t ht⟩
    exact List.mem_of_find?_eq_some (hnext.symm.trans hp)
  | both p t =>
    obtain ⟨hp, ht, -⟩ := (mem_join_both hP hL).mp hev
    exact ⟨hW.objectOk p hp, hline t ht⟩

/-- The output of a run in creatable mode. -/
theorem transcriptRun_created (hcre : cfg.editPath = .creatable) (hW : Walkable cfg F)
    (hpos : c.Positive) (hT : Transcripts cfg.toSelectConfig c M) (hF : FsWalk cfg F) {r : Run}
    (hr : transcriptRun cfg ⟨c, .start⟩ F = .ok r) :
    LinesOf cfg (fun _ => Created cfg) (runEvents cfg F (tranLines c.files M))
      (objectLines none r.printer.outtran) ∧
    r.printer.outtran = (objectLines none r.printer.outtran).map
      fun l => .object l.isMinus false l.pinfo := by
  have hholds := hT.holds
  have hpaths : F.Pairwise fun e e' => e.path ≠ e'.path :=
    hF.keys.imp fun hlt heq => by simp [heq] at hlt
  have hsteps := (transcriptRun_steps hholds hF.valid hF.ranked (fun _ => hW.known) hpaths).1 r hr
  refine ⟨(hsteps.linesOf c.files (runEvents_ascending hF hholds) ?_).2, hsteps.created hcre⟩
  exact fun ev hev hout hok => hout.created hcre (runEvents_ok hF hholds ev hev)
    (creatableOk_events hW hpos hT hF ev hev) hok

variable {lines : List ObjectLine} (hF : FsWalk cfg F) (hT : Transcripts cfg.toSelectConfig c M)
  (hlines : LinesOf cfg (fun _ => Created cfg) (runEvents cfg F (tranLines c.files M)) lines)

include hF hT hlines

/-- An object has its line, or matches a line of the merge. -/
theorem created_object {p : PathInfo} (hp : p ∈ linkRecords [] (walked cfg F)) :
    (∃ l ∈ lines, l.isMinus = false ∧ l.pinfo.key cfg.caseSensitive = p.key cfg.caseSensitive) ∨
      (∀ l ∈ lines, l.pinfo.key cfg.caseSensitive ≠ p.key cfg.caseSensitive) ∧
        ∃ x ∈ M, x.2.key cfg.caseSensitive = p.key cfg.caseSensitive ∧ Matches cfg p x.2 := by
  have hP := linkRecords_ascending hF
  have hL := hT.holds.lines_ascending
  have hline : ∀ {l : ObjectLine}, [l] = lines.filter (fun l =>
      l.pinfo.key cfg.caseSensitive = p.key cfg.caseSensitive) → l.isMinus = false →
      ∃ l ∈ lines, l.isMinus = false ∧
        l.pinfo.key cfg.caseSensitive = p.key cfg.caseSensitive := by
    intro l hl hminus
    have hmem : l ∈ lines.filter _ := hl ▸ List.mem_singleton_self l
    obtain ⟨hmem, hkey⟩ := List.mem_filter.mp hmem
    exact ⟨l, hmem, hminus, of_decide_eq_true hkey⟩
  by_cases hboth : ∃ t ∈ tranLines c.files M, t.key cfg.caseSensitive = p.key cfg.caseSensitive
  · obtain ⟨t, ht, hkey⟩ := hboth
    obtain ⟨pre, post, hsplit⟩ := List.append_of_mem ((mem_join_both hP hL).mpr ⟨hp, ht, hkey⟩)
    have heach := hlines.each pre _ post hsplit
    generalize hls : lines.filter _ = ls at heach
    cases heach with
    | changed _ => exact .inl (hline hls.symm rfl)
    | quiet hmatch =>
      obtain ⟨x, hx, rfl⟩ := mem_tranLines.mp ht
      refine .inr ⟨fun l hl hkey' => ?_, x, hx, hkey, hmatch⟩
      exact List.filter_eq_nil_iff.mp hls l hl (decide_eq_true hkey')
  · have hleft : .left p ∈ runEvents cfg F (tranLines c.files M) :=
      (mem_join_left hP hL).mpr ⟨hp, fun t ht hkey => hboth ⟨t, ht, hkey⟩⟩
    obtain ⟨pre, post, hsplit⟩ := List.append_of_mem hleft
    have heach := hlines.each pre _ post hsplit
    generalize hls : lines.filter _ = ls at heach
    cases heach with
    | left _ => exact .inl (hline hls.symm rfl)

/-- A line of the merge that is not on the file system is printed with a '-'. -/
theorem created_missing {x : Nat × PathInfo} (hx : x ∈ M)
    (hno : ∀ p ∈ linkRecords [] (walked cfg F),
      x.2.key cfg.caseSensitive ≠ p.key cfg.caseSensitive) :
    ∃ l ∈ lines, l.pinfo = x.2 := by
  have hP := linkRecords_ascending hF
  have hL := hT.holds.lines_ascending
  have hright := (mem_join_right hP hL).mpr ⟨mem_tranLines.mpr ⟨x, hx, rfl⟩, hno, rfl⟩
  obtain ⟨pre, post, hsplit⟩ := List.append_of_mem hright
  have heach := hlines.each pre _ post hsplit
  generalize hls : lines.filter _ = ls at heach
  cases heach with
  | @right _ _ h =>
    have hmem : _ ∈ lines.filter _ := hls ▸ List.mem_singleton_self (⟨h, true, false, x.2⟩ : ObjectLine)
    exact ⟨_, (List.mem_filter.mp hmem).1, rfl⟩

/-- A line is that of an object, or with a '-' that of a line of the merge. -/
theorem created_line {l : ObjectLine} (hl : l ∈ lines) :
    (l.isMinus = false ∧ ∃ p ∈ linkRecords [] (walked cfg F),
      l.pinfo.key cfg.caseSensitive = p.key cfg.caseSensitive ∧ Final cfg p l.pinfo) ∨
      l.isMinus = true ∧ ∃ x ∈ M, l.pinfo = x.2 := by
  have hP := linkRecords_ascending hF
  have hL := hT.holds.lines_ascending
  obtain ⟨ev, hev, hkey⟩ := hlines.only l hl
  obtain ⟨pre, post, hsplit⟩ := List.append_of_mem hev
  have heach := hlines.each pre _ post hsplit
  have hmem : l ∈ lines.filter fun l => l.pinfo.key cfg.caseSensitive = eventKey cfg ev :=
    List.mem_filter.mpr ⟨hl, by simpa using hkey.symm⟩
  generalize lines.filter _ = ls at heach hmem
  cases heach with
  | left hfinal =>
    obtain rfl := List.mem_singleton.mp hmem
    exact .inl ⟨rfl, _, ((mem_join_left hP hL).mp hev).1, hkey.symm, hfinal⟩
  | changed hfinal =>
    obtain rfl := List.mem_singleton.mp hmem
    exact .inl ⟨rfl, _, ((mem_join_both hP hL).mp hev).1, hkey.symm, hfinal⟩
  | right =>
    obtain rfl := List.mem_singleton.mp hmem
    obtain ⟨x, hx, rfl⟩ := mem_tranLines.mp ((mem_join_right hP hL).mp hev).1
    exact .inr ⟨rfl, x, hx, rfl⟩
  | quiet _ => exact absurd hmem List.not_mem_nil

/-- With its lines in front of the transcripts every event of another run is silent. -/
theorem overlay_silent (happle : cfg.apple = false) (hexcl : ∀ path, cfg.tExclude path = false)
    (hW : Walkable cfg F) {es : List PathInfo}
    (hes : List.Forall₂ (fun l q => Reread l.isMinus l.pinfo q) lines es)
    {ess : List (List PathInfo)} (hready : Ready cfg.toSelectConfig c ess)
    (hM : IsMerge (PathInfo.key cfg.caseSensitive) (keep cfg.toSelectConfig c.files) ess M)
    {c' : Cursors} (t : Transcript) (hc' : c'.tranHead = t :: c.tranHead) (hpos : c'.Positive)
    {M' : List (Nat × PathInfo)} (hholds : Holds cfg.toSelectConfig c'.files c' M')
    (hM' : IsMerge (PathInfo.key cfg.caseSensitive) (keep cfg.toSelectConfig c'.files)
      (es :: ess) M') :
    ∀ ev ∈ runEvents cfg F (tranLines c'.files M'), Silent cfg ev := by
  have hP := linkRecords_ascending hF
  have hL := hholds.lines_ascending
  have hcons : c'.files = t.file :: c.files := by rw [Cursors.files, hc']; rfl
  -- the lines and the records they were read as
  have hread : ∀ l ∈ lines, ∃ q ∈ es, Reread l.isMinus l.pinfo q := fun l hl => forall₂_mem hes hl
  have hline : ∀ q ∈ es, ∃ l ∈ lines, Reread l.isMinus l.pinfo q :=
    fun q hq => forall₂_mem hes.flip hq
  have hkey : ∀ {l : ObjectLine} {q : PathInfo}, Reread l.isMinus l.pinfo q →
      q.key cfg.caseSensitive = l.pinfo.key cfg.caseSensitive := fun h => by
    rw [PathInfo.key, h.name, PathInfo.key]
  -- an entry of the old merge that no line is about is in the new one
  have hkeep : ∀ x ∈ M, (∀ l ∈ lines,
      l.pinfo.key cfg.caseSensitive ≠ x.2.key cfg.caseSensitive) → (x.1 + 1, x.2) ∈ M' := by
    intro x hx hno
    obtain ⟨hwins, hkeep⟩ := (hM.mem_iff x.1 x.2).mp hx
    refine (hM'.mem_iff _ _).mpr ⟨wins_cons_succ.mpr ⟨hwins, fun q hq hq' => ?_⟩, ?_⟩
    · obtain ⟨l, hl, hre⟩ := hline q hq
      exact hno l hl ((hkey hre).symm.trans hq')
    · rw [hcons]
      exact hkeep
  -- the record of an object is that of its line
  have hobject : ∀ p ∈ linkRecords [] (walked cfg F), ∀ l ∈ lines, l.isMinus = false →
      l.pinfo.key cfg.caseSensitive = p.key cfg.caseSensitive → Final cfg p l.pinfo := by
    intro p hp l hl hminus hkey'
    rcases created_line hF hT hlines hl with ⟨-, q, hq, hqkey, hfinal⟩ | ⟨hm, -⟩
    · have hasc : Ascending (PathInfo.key cfg.caseSensitive) (linkRecords [] (walked cfg F)) := hP
      exact hasc.eq_of_key_eq hq hp (hqkey.symm.trans hkey') ▸ hfinal
    · simp [hminus] at hm
  intro ev hev
  cases ev with
  | left p =>
    obtain ⟨hp, hno⟩ := (mem_join_left hP hL).mp hev
    exfalso
    rcases created_object hF hT hlines hp with ⟨l, hl, hminus, hlkey⟩ | ⟨hnone, x, hx, hxkey, -⟩
    · obtain ⟨q, hq, hre⟩ := hread l hl
      obtain ⟨pre, e, post, hsplit, hrec⟩ := mem_linkRecords.mp hp
      have he : e ∈ F := walked_mem cfg (by simp [hsplit])
      have hname : q.piName = e.path := by
        rw [hre.name, (hobject p hp l hl hminus hlkey).fields, hrec]
        exact linkRecord_name _ e
      have hmem : (0, q) ∈ M' := by
        refine (hM'.mem_iff 0 q).mpr ⟨wins_cons_zero.mpr hq, hre.minus.trans hminus, ?_,
          .inr (hexcl _)⟩
        rw [hname]
        exact hW.below e he
      exact hno _ (mem_tranLines.mpr ⟨(0, q), hmem, rfl⟩) ((hkey hre).trans hlkey)
    · have hmem := hkeep x hx fun l hl hlkey => hnone l hl (hlkey.trans hxkey)
      exact hno _ (mem_tranLines.mpr ⟨_, hmem, rfl⟩) hxkey
  | right next t =>
    obtain ⟨ht, hno, -⟩ := (mem_join_right hP hL).mp hev
    obtain ⟨⟨i, e⟩, hx, rfl⟩ := mem_tranLines.mp ht
    obtain ⟨hwins, hkept⟩ := (hM'.mem_iff _ _).mp hx
    exfalso
    cases i with
    | zero =>
      obtain ⟨l, hl, hre⟩ := hline e (wins_cons_zero.mp hwins)
      have hminus : l.isMinus = false := hre.minus.symm.trans hkept.1
      rcases created_line hF hT hlines hl with ⟨-, p, hp, hpkey, -⟩ | ⟨hm, -⟩
      · exact hno p hp ((hkey hre).trans hpkey)
      · simp [hminus] at hm
    | succ i =>
      obtain ⟨hwins, hes'⟩ := wins_cons_succ.mp hwins
      rw [hcons] at hkept
      have hx : (i, e) ∈ M := (hM.mem_iff i e).mpr ⟨hwins, hkept⟩
      obtain ⟨l, hl, hpinfo⟩ := created_missing hF hT hlines hx hno
      obtain ⟨q, hq, hre⟩ := hread l hl
      exact hes' q hq ((hkey hre).trans (by rw [hpinfo]))
  | both p t =>
    obtain ⟨hp, ht, htkey⟩ := (mem_join_both hP hL).mp hev
    obtain ⟨⟨i, e⟩, hx, rfl⟩ := mem_tranLines.mp ht
    obtain ⟨hwins, hkept⟩ := (hM'.mem_iff _ _).mp hx
    refine ⟨p, _, rfl, ?_, hpos.type_ne _⟩
    cases i with
    | zero =>
      obtain ⟨l, hl, hre⟩ := hline e (wins_cons_zero.mp hwins)
      have hminus : l.isMinus = false := hre.minus.symm.trans hkept.1
      rw [hminus] at hre
      have hlkey : l.pinfo.key cfg.caseSensitive = p.key cfg.caseSensitive := by
        rw [PathInfo.key, ← hre.name]
        exact htkey
      exact (hobject p hp l hl hminus hlkey).matches happle hre
    | succ i =>
      obtain ⟨hwins, hes'⟩ := wins_cons_succ.mp hwins
      rw [hcons] at hkept
      have hx : (i, e) ∈ M := (hM.mem_iff i e).mpr ⟨hwins, hkept⟩
      rcases created_object hF hT hlines hp with ⟨l, hl, -, hlkey⟩ | ⟨-, y, hy, hykey, hmatch⟩
      · obtain ⟨q, hq, hre⟩ := hread l hl
        exact absurd ((hkey hre).trans (hlkey.trans htkey.symm)) (hes' q hq)
      · obtain ⟨hywins, -⟩ := (hM.mem_iff y.1 y.2).mp hy
        have hasc : ∀ es ∈ ess, Ascending (PathInfo.key cfg.caseSensitive) es := hready.ascending
        have hye := (hywins.unique hasc hwins (hykey.trans htkey.symm)).2
        exact hye ▸ hmatch

end

/-- The output of a run in creatable mode is a transcript, and with it in front of the
others a run on the same objects prints nothing, in either mode. -/
theorem creatable_overlay_exact {cfg : DiffConfig} (hcre : cfg.editPath = .creatable)
    (hcs : cfg.caseSensitive = true) (happle : cfg.apple = false)
    (hexcl : ∀ path, cfg.tExclude path = false) (hD : Digests cfg) {c : Cursors}
    {M : List (Nat × PathInfo)} (hT : Transcripts cfg.toSelectConfig c M) (hpos : c.Positive)
    {F : List FsEntry} (hF : FsWalk cfg F) (hW : Walkable cfg F) {r : Run}
    (hr : transcriptRun cfg ⟨c, .start⟩ F = .ok r)
    (hshort : ∀ l ∈ r.printer.outtran, (l.text cfg.print).length < maxPathLen)
    (fullname shortname : CStr) :
    ∃ t es, (∀ buf, ∃ buf', tNew cfg.toParseConfig buf .positive fullname shortname
        (printed cfg.print r.printer.outtran) = .ok (t, buf')) ∧
      Lists cfg.toParseConfig t es ∧ es.length = r.printer.outtran.length ∧
      ∀ (editPath : EditPath) (buf : List Byte) (warned : List CStr), ∃ r',
        transcriptRun { cfg with editPath := editPath }
          ⟨{ tranHead := t :: c.tranHead, buf := buf, warned := warned }, .start⟩ F = .ok r' ∧
          r'.printer.outtran = [] := by
  have happle' : cfg.print.apple = false := happle
  obtain ⟨hlines, hout⟩ := transcriptRun_created hcre hW hpos hT hF hr
  set lines := objectLines none r.printer.outtran
  let ls := lines.map fun l => (l.isMinus, l.pinfo)
  have hmem : ∀ l ∈ ls, ∃ o ∈ lines, l = (o.isMinus, o.pinfo) := fun l hl => by
    obtain ⟨o, ho, rfl⟩ := List.mem_map.mp hl
    exact ⟨o, ho, rfl⟩
  have hre : ∀ l ∈ ls, Rereadable cfg.toParseConfig .positive l.2 := by
    intro l hl
    obtain ⟨o, ho, rfl⟩ := hmem l hl
    rcases created_line hF hT hlines ho with ⟨-, p, hp, -, hfinal⟩ | ⟨-, x, hx, hpinfo⟩
    · exact hfinal.rereadable hD hF hW hp
    · show Rereadable cfg.toParseConfig .positive o.pinfo
      exact hpinfo ▸ hT.rereadable hcs hpos x hx
  have htext : printed cfg.print r.printer.outtran = recordsText cfg.print ls := by
    rw [hout, printed, recordsText, List.flatMap_map, List.flatMap_map]
    exact List.flatMap_congr fun l _ => text_eq_recordText cfg.print happle' l.isMinus false l.pinfo
  have hshort' : ∀ l ∈ ls, (recordText cfg.print l.1 false l.2).length < maxPathLen := by
    intro l hl
    obtain ⟨o, ho, rfl⟩ := hmem l hl
    rw [← text_eq_recordText cfg.print happle']
    refine hshort _ ?_
    rw [hout]
    exact List.mem_map.mpr ⟨o, ho, rfl⟩
  have hranked : ∀ l ∈ ls, Ranked cfg.caseSensitive l.2.piName := fun l hl => by
    rw [hcs]
    exact ranked_of_nulFree (hre l hl).name_nulFree
  -- the first line is read over a record of zeros
  let t₀ : Transcript :=
    { tPinfo := .zero, tType := .positive, tFullname := fullname, tShortname := shortname
      tLinenum := 0, tEof := false, tIn := recordsText cfg.print ls }
  have hasc : (t₀.tPinfo :: ls.map (·.2)).Pairwise fun p q =>
      p.key cfg.caseSensitive < q.key cfg.caseSensitive := by
    refine List.pairwise_cons.mpr ⟨fun p hp => ?_, ?_⟩
    · obtain ⟨l, hl, rfl⟩ := List.mem_map.mp hp
      have hne := (hre l hl).name_ne_nil
      show ([] : List Nat) < pathKey cfg.caseSensitive l.2.piName
      unfold pathKey
      cases hname : l.2.piName with
      | nil => exact absurd hname hne
      | cons c p => exact List.nil_lt_cons _ _
    · rw [List.map_map]
      exact List.pairwise_map.mpr hlines.ascending
  obtain ⟨t, es, hparse, hlists, hes, hfile⟩ := reread_lists (t := t₀) hre hshort' (by simp [t₀])
    rfl rfl hranked (fun _ h => absurd h List.not_mem_nil) hasc
  have hes' : List.Forall₂ (fun l q => Reread l.isMinus l.pinfo q) lines es :=
    List.forall₂_map_left_iff.mp hes
  have hnew : ∀ buf, ∃ buf', tNew cfg.toParseConfig buf .positive fullname shortname
      (printed cfg.print r.printer.outtran) = .ok (t, buf') := fun buf => htext ▸ hparse buf
  refine ⟨t, es, hnew, hlists, ?_, fun editPath buf warned => ?_⟩
  · rw [← hes'.length_eq]
    exact (congrArg List.length hout).trans (List.length_map _) |>.symm
  -- the cursors of the second run
  let c' : Cursors := { tranHead := t :: c.tranHead, buf := buf, warned := warned }
  obtain ⟨ess, hready, -, hM⟩ := hT.holds
  obtain ⟨ts, hc, hopened⟩ := hT.opened
  have hc' : c'.tranHead = (t :: ts) ++ [nullTranscript] := by
    show t :: c.tranHead = _
    rw [hc]
    rfl
  have hopened' : ∀ u ∈ t :: ts, Opened cfg.toParseConfig u := by
    intro u hu
    rcases List.mem_cons.mp hu with rfl | hu
    · obtain ⟨buf', h⟩ := hnew []
      exact ⟨_, _, _, _, _, _, h⟩
    · exact hopened u hu
  have hready' : Ready cfg.toSelectConfig c' (es :: ess) :=
    ready_of_opened hcs hc' hopened' (.cons hlists hready.lists)
  obtain ⟨M', hholds, hM'⟩ := hready'.holds rfl
  have hpos' : c'.Positive := by
    intro u hu
    rcases List.mem_cons.mp hu with rfl | hu
    · exact .inl (congrArg TranFile.tType hfile)
    · exact hpos u hu
  have hsilent := overlay_silent hF hT hlines happle hexcl hW hes' hready hM t rfl hpos'
    hholds hM'
  -- the mode of the second run makes no difference to records that match
  let cfg' : DiffConfig := { cfg with editPath := editPath }
  obtain ⟨pr', hrun, hquiet⟩ := @joinRun_silent cfg' [] .start F _ hF.valid Table.nil
    hholds.lines_ascending hsilent
  have hjoin := @transcriptRun_join cfg' _ c' _ .start F
    (fun e he => ⟨hF.ranked e he, fun _ => hW.known e he⟩) hholds
  rw [hrun] at hjoin
  cases hrun' : transcriptRun { cfg with editPath := editPath } ⟨c', .start⟩ F with
  | error e => exact absurd (hrun' ▸ hjoin) (by simp [Except.map])
  | ok r' =>
    rw [hrun'] at hjoin
    refine ⟨r', rfl, ?_⟩
    rw [show r'.printer = pr' from Except.ok.inj hjoin, hquiet]
    rfl

/-! ### A directory of the transcripts and one of its own -/

def overlayDiff : DiffConfig := { twoDiff with editPath := .creatable }

def overlayRun : Run :=
  match transcriptRun overlayDiff ⟨twoCursors, .start⟩ twoObjects with
  | .ok r => r
  | .error _ => ⟨twoCursors, .start⟩

theorem twoPositive : twoCursors.Positive := by
  unfold Cursors.Positive
  decide

theorem twoWalkable : Walkable overlayDiff twoObjects := by
  constructor <;> decide

theorem twoDigests : Digests overlayDiff :=
  ⟨fun _ _ h => by simp [overlayDiff, twoDiff] at h,
    fun _ _ _ h => by simp [overlayDiff, twoDiff] at h⟩

set_option maxRecDepth 16000 in
theorem creatable_overlay_exact_two :
    ∃ t es, (∀ buf, ∃ buf', tNew overlayDiff.toParseConfig buf .positive (lit "/C") (lit "C")
        (printed overlayDiff.print overlayRun.printer.outtran) = .ok (t, buf')) ∧
      Lists overlayDiff.toParseConfig t es ∧ es.length = overlayRun.printer.outtran.length ∧
      ∀ (editPath : EditPath) (buf : List Byte) (warned : List CStr), ∃ r',
        transcriptRun { overlayDiff with editPath := editPath }
          ⟨{ tranHead := t :: twoCursors.tranHead, buf := buf, warned := warned }, .start⟩
            twoObjects = .ok r' ∧
          r'.printer.outtran = [] :=
  creatable_overlay_exact rfl rfl rfl (fun _ => rfl) twoDigests twoTranscripts twoPositive
    ⟨twoWalk.valid, twoWalk.ascending, twoWalk.ascii⟩ twoWalkable (r := overlayRun) rfl (by decide) (lit "/C") (lit "C")

end Radmind
