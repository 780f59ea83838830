import Radmind.Transcript.Outcome

/-!
# The events of a run

A run prints the outcomes of the events of one join, of the records of the objects
with the lines of the merge.  `Steps` follows the lines it prints, event by event.
-/

namespace Radmind

open SortedJoin

/-- The printer after a sequence of events of the objects `F`.  The fields that no
line shows may change between the events. -/
inductive Steps (cfg : DiffConfig) (F : List FsEntry) : List DiffEvent → Printer → Prop
  | start {pr : Printer} : pr.prevTran = none → pr.outtran = [] → Steps cfg F [] pr
  | step {pre : List DiffEvent} {pr pr' : Printer} {ev : DiffEvent} : Steps cfg F pre pr →
      Outcome cfg F pre pr ev pr' → Steps cfg F (pre ++ [ev]) pr'
  | pass {pre : List DiffEvent} {pr pr' : Printer} : Steps cfg F pre pr →
      pr'.prevTran = pr.prevTran → pr'.outtran = pr.outtran → Steps cfg F pre pr'

theorem Steps.reset {cfg : DiffConfig} {F : List FsEntry} {pre : List DiffEvent} {pr : Printer}
    (h : Steps cfg F pre pr) (fsMinus : Bool) (devHead : List Devlist) :
    Steps cfg F pre { pr with fsMinus := fsMinus, devHead := devHead } := h.pass rfl rfl

/-- The records of a sequence of objects after the objects `seen`. -/
def linkRecords (seen : List FsEntry) : List FsEntry → List PathInfo
  | [] => []
  | e :: F => linkRecord seen e :: linkRecords (seen ++ [e]) F

/-- The objects a run does not skip. -/
def walked (cfg : DiffConfig) (F : List FsEntry) : List FsEntry := F.filter (!skips cfg ·)

/-- The events of a run. -/
def runEvents (cfg : DiffConfig) (F : List FsEntry) (L : List TranLine) : List DiffEvent :=
  join (PathInfo.key cfg.caseSensitive) (TranLine.key cfg.caseSensitive)
    (linkRecords [] (walked cfg F)) L

theorem mem_linkRecords {seen F : List FsEntry} {p : PathInfo} :
    p ∈ linkRecords seen F ↔ ∃ pre e post, F = pre ++ e :: post ∧ p = linkRecord (seen ++ pre) e := by
  induction F generalizing seen with
  | nil => simp [linkRecords]
  | cons e F ih =>
    rw [linkRecords, List.mem_cons, ih]
    constructor
    · rintro (rfl | ⟨pre, e', post, rfl, rfl⟩)
      · exact ⟨[], e, F, rfl, by simp⟩
      · exact ⟨e :: pre, e', post, rfl, by simp⟩
    · rintro ⟨pre, e', post, hF, rfl⟩
      cases pre with
      | nil =>
        obtain ⟨rfl, rfl⟩ := List.cons.inj hF
        exact .inl (by simp)
      | cons d pre =>
        obtain ⟨rfl, rfl⟩ := List.cons.inj hF
        exact .inr ⟨pre, e', post, rfl, by simp⟩

theorem linkRecords_names (seen F : List FsEntry) :
    (linkRecords seen F).map (·.piName) = F.map (·.path) := by
  induction F generalizing seen with
  | nil => rfl
  | cons e F ih => rw [linkRecords, List.map_cons, List.map_cons, linkRecord_name, ih]

/-- The events of one object are about it. -/
theorem meetLines_about (cfg : DiffConfig) (seen : List FsEntry) (e : FsEntry) (L : List TranLine) :
    ∀ ev ∈ (meetLines cfg (linkRecord seen e) L).1, About seen e ev := by
  induction L with
  | nil => simp [meetLines, meet, About]
  | cons t L ih =>
    rw [meetLines, meet]
    split_ifs
    · intro ev hev
      rcases List.mem_cons.mp hev with rfl | hev
      · exact rfl
      · exact ih ev hev
    · simp [About]
    · simp [About]

section

variable {cfg : DiffConfig} {F seen rest : List FsEntry} {e : FsEntry} {pre : List DiffEvent}
  {pr pr' : Printer} {L : List TranLine}

theorem onEvents_inv (hF : F = seen ++ e :: rest) (he : e.Valid)
    (hnew : ∀ g ∈ seen, g.path ≠ e.path) {evs : List DiffEvent} (habout : ∀ ev ∈ evs, About seen e ev)
    (hsteps : Steps cfg F pre pr) (htable : Table (seen ++ [e]) (Marked cfg pre) pr.devHead)
    (h : onEvents cfg pr evs = .ok pr') :
    Steps cfg F (pre ++ evs) pr' ∧ Table (seen ++ [e]) (Marked cfg (pre ++ evs)) pr'.devHead := by
  induction evs generalizing pre pr with
  | nil =>
    obtain rfl := Except.ok.inj h
    rw [List.append_nil]
    exact ⟨hsteps, htable⟩
  | cons ev evs ih =>
    rw [onEvents] at h
    split at h
    · exact absurd h (by simp)
    next pr₁ hev =>
    obtain ⟨hout, htable'⟩ := onEvent_inv hF he hnew htable (habout ev List.mem_cons_self) hev
    have := ih (fun ev' hev' => habout ev' (List.mem_cons_of_mem _ hev')) (hsteps.step hout)
      htable' h
    rwa [List.append_assoc, List.singleton_append] at this

theorem onEvents_none (hsteps : Steps cfg F pre pr)
    (h : onEvents cfg pr (L.map (.right none)) = .ok pr') :
    Steps cfg F (pre ++ L.map (.right none)) pr' := by
  induction L generalizing pre pr with
  | nil =>
    obtain rfl := Except.ok.inj h
    rwa [List.map_nil, List.append_nil]
  | cons t L ih =>
    rw [List.map_cons, onEvents] at h
    split at h
    · exact absurd h (by simp)
    next pr₁ hev =>
    rw [onEvent] at hev
    obtain ⟨⟨record, hprinted⟩, -⟩ := tPrint_inv (by simp) hev
    have := ih (hsteps.step (.right hprinted)) h
    rwa [List.append_assoc, List.singleton_append, ← List.map_cons] at this

/-- The events so far touch objects seen only. -/
def Within (cfg : DiffConfig) (seen : List FsEntry) (pre : List DiffEvent) : Prop :=
  ∀ ev ∈ pre, ∀ q, Touches cfg q ev → ∃ g ∈ seen, g.path = q

theorem Within.append (h : Within cfg seen pre) {evs : List DiffEvent}
    (habout : ∀ ev ∈ evs, About seen e ev) : Within cfg (seen ++ [e]) (pre ++ evs) := by
  intro ev hev q hq
  rcases List.mem_append.mp hev with hev | hev
  · obtain ⟨g, hg, hpath⟩ := h ev hev q hq
    exact ⟨g, List.mem_append_left _ hg, hpath⟩
  · exact ⟨e, by simp, ((habout ev hev).touches hq).symm⟩

theorem Table.enter {devHead : List Devlist} (htable : Table seen (Marked cfg pre) devHead)
    (hwithin : Within cfg seen pre) (hnew : ∀ g ∈ seen, g.path ≠ e.path) :
    (Radmind.describe devHead e).2 = linkRecord seen e ∧
      Table (seen ++ [e]) (Marked cfg pre) (Radmind.describe devHead e).1 := by
  refine htable.describe ?_
  rintro ⟨-, ev, hev, hq⟩
  obtain ⟨g, hg, hpath⟩ := hwithin ev hev e.path hq
  exact hnew g hg hpath

/-- What a run leaves of the join is a sequence of steps. -/
theorem joinRun_steps {F' : List FsEntry} (hvalid : ∀ e ∈ F', e.Valid)
    (hnodup : (seen ++ walked cfg F').Pairwise fun e e' => e.path ≠ e'.path)
    (hwithin : Within cfg seen pre) (hsteps : Steps cfg (seen ++ walked cfg F') pre pr)
    (htable : Table seen (Marked cfg pre) pr.devHead) (h : joinRun cfg pr F' L = .ok pr') :
    Steps cfg (seen ++ walked cfg F') (pre ++ join (PathInfo.key cfg.caseSensitive)
      (TranLine.key cfg.caseSensitive) (linkRecords seen (walked cfg F')) L) pr' := by
  induction F' generalizing seen pre pr L with
  | nil => exact onEvents_none (hsteps.reset false pr.devHead) h
  | cons e F' ih =>
    rw [joinRun] at h
    have hvalid' : ∀ e ∈ F', e.Valid := fun e he => hvalid e (List.mem_cons_of_mem _ he)
    by_cases hskip : skips cfg e = true
    · rw [if_pos hskip] at h
      have hwalked : walked cfg (e :: F') = walked cfg F' := by simp [walked, hskip]
      rw [hwalked] at hnodup hsteps ⊢
      exact ih hvalid' hnodup hwithin (hsteps.reset false pr.devHead) htable h
    · rw [if_neg hskip] at h
      have hwalked : walked cfg (e :: F') = e :: walked cfg F' := by simp [walked, hskip]
      rw [hwalked] at hnodup hsteps ⊢
      have hnew : ∀ g ∈ seen, g.path ≠ e.path := fun g hg =>
        (List.pairwise_append.mp hnodup).2.2 g hg e List.mem_cons_self
      obtain ⟨hrecord, hentered⟩ := htable.enter hwithin hnew
      simp only [hrecord] at h
      split at h
      · exact absurd h (by simp)
      next pr₁ hevs =>
      have habout := meetLines_about cfg seen e L
      obtain ⟨hsteps', htable'⟩ := onEvents_inv rfl (hvalid e List.mem_cons_self) hnew habout
        (hsteps.reset false _) hentered hevs
      have hassoc : seen ++ e :: walked cfg F' = (seen ++ [e]) ++ walked cfg F' := by simp
      rw [hassoc] at hnodup hsteps' ⊢
      have := ih hvalid' hnodup (hwithin.append habout) hsteps' htable' h
      rwa [List.append_assoc pre] at this

/-! ## Runs that end well -/

/-- The line of an event can be printed. -/
def LineOk : DiffEvent → Prop
  | .left _ => True
  | .right _ t => Printable t.pinfo
  | .both _ t => Printable t.pinfo

theorem compareFile_isOk (hsum : SumsWork cfg.print) (p : PathInfo) (t : TranLine) :
    ∃ r, compareFile cfg p t = .ok r := by
  unfold compareFile
  simp only
  split
  · exact ⟨_, rfl⟩
  split
  · exact ⟨_, rfl⟩
  split
  · next hck =>
    obtain ⟨hf, ha⟩ := hsum hck
    have hsome : (if p.piType = .f then cfg.doCksum p.piName
        else cfg.doAcksum p.piName p.piAfinfo).isSome := by
      split
      · exact hf _
      · exact ha _ _
    obtain ⟨cksum, hcksum⟩ := Option.isSome_iff_exists.mp hsome
    simp only [sumFile, hcksum]
    split
    · exact ⟨_, rfl⟩
    split <;> exact ⟨_, rfl⟩
  · split <;> exact ⟨_, rfl⟩

theorem compareFields_isOk (hsum : SumsWork cfg.print) (he : e.Valid)
    (htable : Table (seen ++ [e]) (Marked cfg pre) pr.devHead) (t : TranLine) :
    ∃ r, compareFields cfg pr.devHead (linkRecord seen e) t = .ok r := by
  unfold compareFields
  cases htype : (linkRecord seen e).piType with
  | a | f => exact compareFile_isOk hsum _ t
  | h =>
    simp only
    split
    · exact ⟨_, rfl⟩
    rcases linkRecord_cases seen e with ⟨hn, -⟩ | ⟨g, -, hg, -⟩
    · rw [hn, (named_name e).2] at htype
      exact absurd htype fun hh => he.known (by simp [hh])
    have hfirst : firstLink (seen ++ [e]) (linkRecord seen e).piStat = some g := by
      rw [linkRecord_stat, firstLink_append, hg, Option.some_or]
    obtain ⟨i, hi, -, -⟩ := htable.present _ g hfirst
    obtain ⟨devHead, hchanged, -⟩ := hardlinkChanged_spec hi false
    simp only [hchanged]
    exact ⟨_, rfl⟩
  | d | D | p | s | l | c | b | X | unset => exact ⟨_, rfl⟩

theorem onEvent_isOk (hsum : SumsWork cfg.print) (hseen : ∀ g ∈ seen, g.Valid) (he : e.Valid)
    (hX : e.type ≠ .X) (htable : Table (seen ++ [e]) (Marked cfg pre) pr.devHead) {ev : DiffEvent}
    (habout : About seen e ev) (hline : LineOk ev) : ∃ pr', onEvent cfg pr ev = .ok pr' := by
  have hprintable := linkRecord_printable hseen he hX
  have hprint : ∀ {fs : PathInfo} {t : TranLine} {flag : PrFlag},
      Summed cfg (linkRecord seen e) fs → (flag ≠ .fsOnly → Printable t.pinfo) →
      ∃ pr', tPrint cfg.print pr (some fs) t flag = .ok pr' := by
    intro fs t flag hfs ht
    obtain ⟨devHead, hmark, -⟩ := markLinks_ok cfg he htable hfs.type.1 hfs.type.2.1
    refine tPrint_isOk hsum flag hmark (fun p hp => ?_) (by simp) ht
    obtain rfl := Option.some.inj hp
    exact hfs.printable hprintable
  cases ev with
  | left p =>
    have hp : p = linkRecord seen e := habout
    subst hp
    exact hprint (.inl rfl) (by simp)
  | right next t =>
    have hnext : next = some (linkRecord seen e) := habout
    subst hnext
    exact hprint (.inl rfl) fun _ => hline
  | both p t =>
    have hp : p = linkRecord seen e := habout
    subst hp
    rw [onEvent, compareBoth]
    split
    · exact hprint (.inl rfl) fun _ => hline
    · obtain ⟨⟨fs, flag⟩, hfields⟩ := compareFields_isOk hsum he htable t
      simp only [hfields]
      cases flag with
      | none => exact ⟨_, rfl⟩
      | some flag => exact hprint (compareFields_inv hfields).1 fun _ => hline

theorem onEvents_isOk (hsum : SumsWork cfg.print) (hF : F = seen ++ e :: rest)
    (hseen : ∀ g ∈ seen, g.Valid) (he : e.Valid) (hX : e.type ≠ .X)
    (hnew : ∀ g ∈ seen, g.path ≠ e.path) {evs : List DiffEvent}
    (habout : ∀ ev ∈ evs, About seen e ev) (hlines : ∀ ev ∈ evs, LineOk ev)
    (hsteps : Steps cfg F pre pr) (htable : Table (seen ++ [e]) (Marked cfg pre) pr.devHead) :
    ∃ pr', onEvents cfg pr evs = .ok pr' := by
  induction evs generalizing pre pr with
  | nil => exact ⟨pr, rfl⟩
  | cons ev evs ih =>
    obtain ⟨pr₁, hev⟩ := onEvent_isOk hsum hseen he hX htable (habout ev List.mem_cons_self)
      (hlines ev List.mem_cons_self)
    obtain ⟨hout, htable'⟩ := onEvent_inv hF he hnew htable (habout ev List.mem_cons_self) hev
    simp only [onEvents, hev]
    exact ih (fun ev' h => habout ev' (List.mem_cons_of_mem _ h))
      (fun ev' h => hlines ev' (List.mem_cons_of_mem _ h)) (hsteps.step hout) htable'

theorem onEvents_none_isOk (hsum : SumsWork cfg.print) (hL : ∀ t ∈ L, Printable t.pinfo) :
    ∃ pr', onEvents cfg pr (L.map (.right none)) = .ok pr' := by
  induction L generalizing pr with
  | nil => exact ⟨pr, rfl⟩
  | cons t L ih =>
    have hmark : markLinks cfg.print pr none = .ok pr := rfl
    obtain ⟨pr₁, hev⟩ := tPrint_isOk hsum .tranOnly hmark (by simp) (fun _ => rfl)
      fun _ => hL t List.mem_cons_self
    simp only [List.map_cons, onEvents, onEvent, hev]
    exact ih fun t' h => hL t' (List.mem_cons_of_mem _ h)

variable (cfg) in
theorem meetLines_lineOk (p : PathInfo) (hL : ∀ t ∈ L, Printable t.pinfo) :
    (∀ ev ∈ (meetLines cfg p L).1, LineOk ev) ∧ ∀ t ∈ (meetLines cfg p L).2, Printable t.pinfo := by
  induction L with
  | nil => simp [meetLines, meet, LineOk]
  | cons t L ih =>
    have ht := hL t List.mem_cons_self
    have hrest := fun t' h => hL t' (List.mem_cons_of_mem t h)
    obtain ⟨ihe, ihl⟩ := ih hrest
    rw [meetLines, meet]
    split_ifs
    · refine ⟨fun ev hev => ?_, ihl⟩
      rcases List.mem_cons.mp hev with rfl | hev
      · exact ht
      · exact ihe ev hev
    · simpa [LineOk] using ⟨ht, hrest⟩
    · simpa [LineOk] using ⟨ht, hrest⟩

theorem joinRun_isOk (hsum : SumsWork cfg.print) {F' : List FsEntry} (hseen : ∀ g ∈ seen, g.Valid)
    (hvalid : ∀ e ∈ F', e.Valid) (hX : ∀ e ∈ F', e.type ≠ .X)
    (hnodup : (seen ++ walked cfg F').Pairwise fun e e' => e.path ≠ e'.path)
    (hwithin : Within cfg seen pre) (hsteps : Steps cfg (seen ++ walked cfg F') pre pr)
    (htable : Table seen (Marked cfg pre) pr.devHead) (hL : ∀ t ∈ L, Printable t.pinfo) :
    ∃ pr', joinRun cfg pr F' L = .ok pr' := by
  induction F' generalizing seen pre pr L with
  | nil => exact onEvents_none_isOk hsum hL
  | cons e F' ih =>
    rw [joinRun]
    have hvalid' : ∀ e ∈ F', e.Valid := fun e he => hvalid e (List.mem_cons_of_mem _ he)
    have hX' : ∀ e ∈ F', e.type ≠ .X := fun e he => hX e (List.mem_cons_of_mem _ he)
    by_cases hskip : skips cfg e = true
    · rw [if_pos hskip]
      have hwalked : walked cfg (e :: F') = walked cfg F' := by simp [walked, hskip]
      rw [hwalked] at hnodup hsteps
      exact ih hseen hvalid' hX' hnodup hwithin (hsteps.reset false pr.devHead) htable hL
    · rw [if_neg hskip]
      have hwalked : walked cfg (e :: F') = e :: walked cfg F' := by simp [walked, hskip]
      rw [hwalked] at hnodup hsteps
      have he := hvalid e List.mem_cons_self
      have hnew : ∀ g ∈ seen, g.path ≠ e.path := fun g hg =>
        (List.pairwise_append.mp hnodup).2.2 g hg e List.mem_cons_self
      obtain ⟨hrecord, hentered⟩ := htable.enter hwithin hnew
      have habout := meetLines_about cfg seen e L
      obtain ⟨hlines, hrest⟩ := meetLines_lineOk cfg (linkRecord seen e) hL
      have hreset := hsteps.reset false (describe pr.devHead e).1
      obtain ⟨pr₁, hevs⟩ := onEvents_isOk hsum rfl hseen he (hX e List.mem_cons_self) hnew habout
        hlines hreset hentered
      obtain ⟨hsteps', htable'⟩ := onEvents_inv rfl he hnew habout hreset hentered hevs
      simp only [hrecord, hevs]
      have hassoc : seen ++ e :: walked cfg F' = (seen ++ [e]) ++ walked cfg F' := by simp
      rw [hassoc] at hnodup hsteps'
      refine ih (fun g hg => ?_) hvalid' hX' hnodup (hwithin.append habout) hsteps' htable' hrest
      rcases List.mem_append.mp hg with hg | hg
      · exact hseen g hg
      · exact (List.mem_singleton.mp hg) ▸ he

end

/-! ## The run -/

/-- A printer that has printed nothing. -/
def Printer.start : Printer := ⟨none, false, [], []⟩

/-- A run of `transcript` prints the outcomes of the join of the objects with the
merge, and comes to its end unless a checksum fails. -/
theorem transcriptRun_steps {cfg : DiffConfig} {files : List TranFile} {c : Cursors}
    {M : List (Nat × PathInfo)} (h : Holds cfg.toSelectConfig files c M) {F : List FsEntry}
    (hvalid : ∀ e ∈ F, e.Valid)
    (hranked : ∀ e ∈ F, Ranked cfg.caseSensitive e.path)
    (hX : cfg.editPath = .creatable → ∀ e ∈ F, e.type ≠ .X)
    (hnodup : F.Pairwise fun e e' => e.path ≠ e'.path) :
    (∀ r, transcriptRun cfg ⟨c, .start⟩ F = .ok r →
      Steps cfg (walked cfg F) (runEvents cfg F (tranLines files M)) r.printer) ∧
      (SumsWork cfg.print → (∀ e ∈ F, e.type ≠ .X) → (∀ x ∈ M, Printable x.2) →
        ∃ r, transcriptRun cfg ⟨c, .start⟩ F = .ok r) := by
  have hjoin := transcriptRun_join .start
    (fun e he => ⟨hranked e he, fun hc => hX hc e he⟩) h
  have hnodup' : ([] ++ walked cfg F).Pairwise fun e e' : FsEntry => e.path ≠ e'.path :=
    hnodup.filter _
  have hstart : Steps cfg ([] ++ walked cfg F) [] .start := .start rfl rfl
  have htable : Table [] (Marked cfg []) Printer.start.devHead :=
    Table.nil.congr fun g hg => by simp [firstLink] at hg
  have hwithin : Within cfg [] [] := fun ev hev => absurd hev List.not_mem_nil
  refine ⟨fun r hr => ?_, fun hsum hknown hM => ?_⟩
  · rw [hr] at hjoin
    exact joinRun_steps hvalid hnodup' hwithin hstart htable hjoin.symm
  · have hlines : ∀ t ∈ tranLines files M, Printable t.pinfo := by
      intro t ht
      obtain ⟨x, hx, rfl⟩ := List.mem_map.mp ht
      exact hM x hx
    obtain ⟨pr', hpr'⟩ := joinRun_isOk hsum (by simp) hvalid hknown hnodup' hwithin hstart htable
      hlines
    rw [hpr'] at hjoin
    cases hrun : transcriptRun cfg ⟨c, .start⟩ F with
    | error e => exact absurd (hrun ▸ hjoin) (by simp [Except.map])
    | ok r => exact ⟨r, rfl⟩

end Radmind
