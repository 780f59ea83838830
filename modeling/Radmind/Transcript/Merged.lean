import Radmind.Transcript.Select

/-!
# The merged transcripts

The invariant of the cursors and what `transcript_select` does to it: every call
returns the head of the merge, and reading the transcript it returns drops the
head.
-/

namespace Radmind

open PrecedenceMerge

/-- The lines the run is about: positive, under the initial path, and special or
not excluded. -/
def keep (cfg : SelectConfig) (files : List TranFile) (i : Nat) (e : PathInfo) : Prop :=
  e.piMinus = false ∧ ischildcase e.piName cfg.pathPrefix cfg.caseSensitive = true ∧
    (files[i]?.map (·.tType) = some .special ∨ cfg.tExclude e.piName = false)

/-- Every cursor stands before its list of lines. -/
structure Ready (cfg : SelectConfig) (c : Cursors) (ess : List (List PathInfo)) : Prop where
  lists : List.Forall₂ (Lists cfg.toParseConfig) c.tranHead ess
  nulls : ∀ t ∈ c.tranHead, t.tType = .null → t.tPinfo.piName = []
  names : ∀ es ∈ ess, ∀ e ∈ es, NameOk cfg.caseSensitive e
  nonempty : c.tranHead ≠ []

/-- The cursors into the files stand for the merge `M`. -/
def Holds (cfg : SelectConfig) (files : List TranFile) (c : Cursors)
    (M : List (Nat × PathInfo)) : Prop :=
  ∃ ess, Ready cfg c ess ∧ c.tranHead.map Transcript.file = files ∧
    IsMerge (PathInfo.key cfg.caseSensitive) (keep cfg files) ess M

section

variable {cfg : SelectConfig} {files : List TranFile} {c : Cursors} {ess : List (List PathInfo)}
  {M : List (Nat × PathInfo)}

theorem hides_iff {i : Nat} {t : Transcript} (hfiles : c.tranHead.map Transcript.file = files)
    (ht : c.tranHead[i]? = some t) : hides cfg t = false ↔ keep cfg files i t.tPinfo := by
  have htype : files[i]?.map (·.tType) = some t.tType := by
    rw [← hfiles, List.getElem?_map, ht]
    rfl
  simp only [hides, excluded, keep, htype, Bool.or_eq_false_iff, Bool.and_eq_false_iff,
    Bool.not_eq_false', decide_eq_false_iff_not, Option.some.injEq, not_not, ne_eq]
  tauto

theorem Lists.get {ts : List Transcript} (h : List.Forall₂ (Lists cfg.toParseConfig) ts ess)
    {i : Nat} {t : Transcript} (ht : ts[i]? = some t) :
    ∃ es, ess[i]? = some es ∧ Lists cfg.toParseConfig t es := by
  induction h generalizing i with
  | nil => simp at ht
  | @cons u fs ts ess hu _ ih =>
    cases i with
    | zero => exact ⟨fs, rfl, Option.some.inj ht ▸ hu⟩
    | succ i => exact ih ht

theorem Lists.get' {ts : List Transcript} (h : List.Forall₂ (Lists cfg.toParseConfig) ts ess)
    {i : Nat} {es : List PathInfo} (hes : ess[i]? = some es) :
    ∃ t, ts[i]? = some t ∧ Lists cfg.toParseConfig t es := by
  induction h generalizing i with
  | nil => simp at hes
  | @cons u fs ts ess hu _ ih =>
    cases i with
    | zero => exact ⟨u, rfl, Option.some.inj hes ▸ hu⟩
    | succ i => exact ih hes

theorem Ready.ascending (h : Ready cfg c ess) :
    ∀ es ∈ ess, Ascending (PathInfo.key cfg.caseSensitive) es := by
  intro es hes
  obtain ⟨i, hi⟩ := List.mem_iff_getElem?.mp hes
  obtain ⟨t, -, hl⟩ := Lists.get' h.lists hi
  exact hl.ascending (h.names es hes)

theorem Ready.rankedNames (h : Ready cfg c ess) : RankedNames cfg.caseSensitive c.tranHead := by
  intro t ht heof
  obtain ⟨i, hi⟩ := List.mem_iff_getElem?.mp ht
  obtain ⟨es, hes, hl⟩ := Lists.get h.lists hi
  obtain ⟨-, es', rfl, -⟩ := hl.cons_inv heof
  exact (h.names _ (List.mem_of_getElem? hes) _ List.mem_cons_self).1

/-! ## The least line -/

/-- Where the first loop ends at a transcript that is not at its end, this one owns
the least line. -/
theorem Begins.isLeast (h : Ready cfg c ess) {i : Nat} {t : Transcript}
    (hb : Begins cfg.caseSensitive c.tranHead i t) (heof : t.tEof = false) :
    IsLeast (PathInfo.key cfg.caseSensitive) ess i t.tPinfo := by
  obtain ⟨es, hes, hl⟩ := Lists.get h.lists hb.get
  obtain ⟨-, es', rfl, -⟩ := hl.cons_inv heof
  -- every line of a transcript is at or after its current one
  have hcur : ∀ (j : Nat) fs, ess[j]? = some fs → ∀ f ∈ fs, ∃ u, c.tranHead[j]? = some u ∧
      u.tEof = false ∧ u.tPinfo.key cfg.caseSensitive ≤ f.key cfg.caseSensitive := by
    intro j fs hfs f hf
    obtain ⟨u, hu, hlu⟩ := Lists.get' h.lists hfs
    cases hueof : u.tEof with
    | true =>
      rw [(hlu.eof_inv hueof).1] at hf
      exact absurd hf List.not_mem_nil
    | false =>
      have hasc := h.ascending fs (List.mem_of_getElem? hfs)
      obtain ⟨-, fs', rfl, -⟩ := hlu.cons_inv hueof
      refine ⟨u, hu, hueof, ?_⟩
      rcases List.mem_cons.mp hf with rfl | hf
      · exact le_rfl
      · exact ((List.pairwise_cons.mp hasc).1 f hf).le
  refine ⟨⟨es', hes⟩, fun fs hfs f hf => ?_, fun j hj fs hfs f hf => ?_⟩
  · obtain ⟨j, hj⟩ := List.mem_iff_getElem?.mp hfs
    obtain ⟨u, hu, hueof, hle⟩ := hcur j fs hj f hf
    exact (not_lt.mp (hb.least heof u (List.mem_of_getElem? hu) hueof)).trans hle
  · obtain ⟨u, hu, hueof, hle⟩ := hcur j fs hfs f hf
    exact ((hb.first heof j hj u hu hueof).trans_le hle).ne'

theorem begins_of_isLeast (h : Ready cfg c ess) {i : Nat} {t : Transcript}
    (ht : c.tranHead[i]? = some t) (heof : t.tEof = false)
    (hl : IsLeast (PathInfo.key cfg.caseSensitive) ess i t.tPinfo) :
    Begins cfg.caseSensitive c.tranHead i t := by
  have hcur : ∀ (j : Nat) u, c.tranHead[j]? = some u → u.tEof = false →
      ∃ fs, ess[j]? = some fs ∧ u.tPinfo ∈ fs := by
    intro j u hu hueof
    obtain ⟨fs, hfs, hlu⟩ := Lists.get h.lists hu
    obtain ⟨-, fs', rfl, -⟩ := hlu.cons_inv hueof
    exact ⟨_, hfs, List.mem_cons_self⟩
  refine ⟨ht, fun h => by simp [heof] at h, fun _ u hu hueof => ?_, fun _ j hj u hu hueof => ?_⟩
  · obtain ⟨j, hj⟩ := List.mem_iff_getElem?.mp hu
    obtain ⟨fs, hfs, hmem⟩ := hcur j u hj hueof
    exact not_lt.mpr (hl.least fs (List.mem_of_getElem? hfs) _ hmem)
  · obtain ⟨fs, hfs, hmem⟩ := hcur j u hu hueof
    exact lt_of_le_of_ne (hl.least fs (List.mem_of_getElem? hfs) _ hmem)
      (hl.first j hj fs hfs _ hmem).symm

/-! ## The second loop -/

/-- The second loop drops the least line from the transcripts it is run on. -/
theorem moveAhead_lists {name : CStr} (hname : Ranked cfg.caseSensitive name) (hne : name ≠ [])
    {ts : List Transcript} (hl : List.Forall₂ (Lists cfg.toParseConfig) ts ess)
    (hnulls : ∀ t ∈ ts, t.tType = .null → t.tPinfo.piName = [])
    (hnames : ∀ es ∈ ess, ∀ e ∈ es, NameOk cfg.caseSensitive e) (buf : List Byte) :
    ∃ ts' buf', moveAhead cfg.toParseConfig name buf ts = .ok (ts', buf') ∧
      List.Forall₂ (Lists cfg.toParseConfig) ts'
        (ess.map (dropKey (PathInfo.key cfg.caseSensitive) (pathKey cfg.caseSensitive name))) ∧
      ts'.map Transcript.file = ts.map Transcript.file ∧
      ∀ t ∈ ts', t.tType = .null → t.tPinfo.piName = [] := by
  induction hl generalizing buf with
  | nil => exact ⟨[], buf, rfl, .nil, rfl, hnulls⟩
  | @cons t es ts ess ht hl ih =>
    have ih := ih (fun t ht => hnulls t (List.mem_cons_of_mem _ ht))
      (fun es hes => hnames es (List.mem_cons_of_mem _ hes))
    -- one transcript
    have hone : ∃ t' buf', (if pathcasecmp name t.tPinfo.piName cfg.caseSensitive = 0 then
          transcriptParse cfg.toParseConfig buf t else .ok (t, buf)) = .ok (t', buf') ∧
        Lists cfg.toParseConfig t' (dropKey (PathInfo.key cfg.caseSensitive)
          (pathKey cfg.caseSensitive name) es) ∧ t'.file = t.file ∧
        (t'.tType = .null → t'.tPinfo.piName = []) := by
      have hnull := hnulls t List.mem_cons_self
      cases heof : t.tEof with
      | true =>
        obtain ⟨rfl, hin⟩ := ht.eof_inv heof
        refine ⟨t, buf, ?_, ht, rfl, hnull⟩
        split
        · next hcmp =>
          refine transcriptParse_eof (fun htype => hne ?_) heof hin buf
          rw [hnull htype] at hcmp
          simpa [pathKey] using (pathcasecmp_eq_zero hname ranked_nil).mp hcmp
        · rfl
      | false =>
        obtain ⟨t', es', rfl, hparse, hl'⟩ := ht.cons_inv heof
        have hrank := (hnames _ List.mem_cons_self _ List.mem_cons_self).1
        have hiff : pathcasecmp name t.tPinfo.piName cfg.caseSensitive = 0 ↔
            t.tPinfo.key cfg.caseSensitive = pathKey cfg.caseSensitive name :=
          (pathcasecmp_eq_zero hname hrank).trans eq_comm
        by_cases hcmp : pathcasecmp name t.tPinfo.piName cfg.caseSensitive = 0
        · obtain ⟨buf', hp⟩ := hparse buf
          obtain ⟨hfile, htype, -⟩ := transcriptParse_cases hp
          refine ⟨t', buf', by rw [if_pos hcmp, hp], ?_, hfile, fun h => ?_⟩
          · rw [dropKey, if_pos (hiff.mp hcmp)]
            exact hl'
          · exact absurd ((congrArg TranFile.tType hfile).symm.trans h) htype
        · refine ⟨t, buf, by rw [if_neg hcmp], ?_, rfl, hnull⟩
          rw [dropKey, if_neg fun h => hcmp (hiff.mpr h)]
          exact ht
    obtain ⟨t', buf₁, hstep, hlt, hfile, hnull⟩ := hone
    obtain ⟨ts', buf₂, hrest, hlts, hfiles, hnulls'⟩ := ih buf₁
    refine ⟨t' :: ts', buf₂, ?_, .cons hlt hlts, by rw [List.map_cons, hfile, hfiles]; rfl, ?_⟩
    · rw [moveAhead, hstep]
      simp only
      rw [hrest]
    · intro u hu
      rcases List.mem_cons.mp hu with rfl | hu
      · exact hnull
      · exact hnulls' u hu

/-- Where no name matches the second loop does nothing. -/
theorem moveAhead_idle {name : CStr} (hname : Ranked cfg.caseSensitive name) (hne : name ≠ [])
    {ts : List Transcript} (hl : List.Forall₂ (Lists cfg.toParseConfig) ts ess)
    (hnulls : ∀ t ∈ ts, t.tType = .null → t.tPinfo.piName = [])
    (hnames : ∀ es ∈ ess, ∀ e ∈ es, NameOk cfg.caseSensitive e)
    (hother : ∀ es ∈ ess, ∀ e ∈ es,
      PathInfo.key cfg.caseSensitive e ≠ pathKey cfg.caseSensitive name) (buf : List Byte) :
    moveAhead cfg.toParseConfig name buf ts = .ok (ts, buf) := by
  induction hl with
  | nil => rfl
  | @cons t es ts ess ht hl ih =>
    have ih := ih (fun t ht => hnulls t (List.mem_cons_of_mem _ ht))
      (fun es hes => hnames es (List.mem_cons_of_mem _ hes))
      (fun es hes => hother es (List.mem_cons_of_mem _ hes))
    have hone : (if pathcasecmp name t.tPinfo.piName cfg.caseSensitive = 0 then
        transcriptParse cfg.toParseConfig buf t else .ok (t, buf)) = .ok (t, buf) := by
      split
      · next hcmp =>
        cases heof : t.tEof with
        | true =>
          refine transcriptParse_eof (fun htype => hne ?_) heof (ht.eof_inv heof).2 buf
          rw [hnulls t List.mem_cons_self htype] at hcmp
          simpa [pathKey] using (pathcasecmp_eq_zero hname ranked_nil).mp hcmp
        | false =>
          obtain ⟨-, es', rfl, -⟩ := ht.cons_inv heof
          have hrank := (hnames _ List.mem_cons_self _ List.mem_cons_self).1
          exact absurd ((pathcasecmp_eq_zero hname hrank).mp hcmp).symm
            (hother _ List.mem_cons_self _ List.mem_cons_self)
      · rfl
    rw [moveAhead, hone]
    simp only [ih]

/-! ## One round -/

theorem Ready.scan (h : Ready cfg c ess) :
    ∃ head rest, c.tranHead = head :: rest ∧
      Begins cfg.caseSensitive c.tranHead (scan cfg.caseSensitive (0, head) 1 rest).1
        (scan cfg.caseSensitive (0, head) 1 rest).2 := by
  obtain ⟨head, rest, hc⟩ := List.exists_cons_of_ne_nil h.nonempty
  refine ⟨head, rest, hc, ?_⟩
  have hnames := h.rankedNames
  rw [hc, ← List.singleton_append] at hnames ⊢
  exact begins_scan (begins_head head) hnames

/-- The choice of the first loop, as the list determines it. -/
theorem Ready.selectPass_eq (h : Ready cfg c ess) {i : Nat} {t : Transcript}
    (hb : Begins cfg.caseSensitive c.tranHead i t) :
    selectPass cfg c =
      match moveAhead cfg.toParseConfig t.tPinfo.piName c.buf (c.tranHead.drop (i + 1)) with
      | .error e => .error e
      | .ok (moved, buf) =>
        .ok ({ c with tranHead := c.tranHead.take (i + 1) ++ moved, buf := buf }, i, t) := by
  obtain ⟨head, rest, hc, hscan⟩ := h.scan
  obtain ⟨hi, ht⟩ := hscan.unique hb
  unfold selectPass
  rw [hc]
  simp only [hi, ht] <;> rfl

/-- A round after the transcripts have all reached their end. -/
theorem Ready.selectPass_eof (h : Ready cfg c ess) {i : Nat} {t : Transcript}
    (hb : Begins cfg.caseSensitive c.tranHead i t) (heof : t.tEof = true) :
    selectPass cfg c = .ok (c, i, t) := by
  have hlen := (hb.atEnd heof).2
  rw [h.selectPass_eq hb, List.drop_eq_nil_of_le (by omega)]
  simp only [moveAhead, List.append_nil]
  rw [List.take_of_length_le (by omega)]

theorem Ready.empty (h : Ready cfg c ess) {i : Nat} {t : Transcript}
    (hb : Begins cfg.caseSensitive c.tranHead i t) (heof : t.tEof = true) :
    ∀ es ∈ ess, es = [] := by
  intro es hes
  obtain ⟨j, hj⟩ := List.mem_iff_getElem?.mp hes
  obtain ⟨u, hu, hl⟩ := Lists.get' h.lists hj
  exact (hl.eof_inv ((hb.atEnd heof).1 u (List.mem_of_getElem? hu))).1

/-- A round before that drops the shadows of the least line, and a second one
changes nothing. -/
theorem Ready.selectPass_least (h : Ready cfg c ess) {i : Nat} {t : Transcript}
    (hb : Begins cfg.caseSensitive c.tranHead i t) (heof : t.tEof = false) :
    ∃ c', selectPass cfg c = .ok (c', i, t) ∧ selectPass cfg c' = .ok (c', i, t) ∧
      Ready cfg c' (dropAfter (PathInfo.key cfg.caseSensitive) i
        (t.tPinfo.key cfg.caseSensitive) ess) ∧
      c'.tranHead[i]? = some t ∧
      c'.tranHead.map Transcript.file = c.tranHead.map Transcript.file := by
  have hleast := hb.isLeast h heof
  have hlt : i < c.tranHead.length := (List.getElem?_eq_some_iff.mp hb.get).1
  obtain ⟨es, hes, hlt'⟩ := Lists.get h.lists hb.get
  obtain ⟨-, es', rfl, -⟩ := hlt'.cons_inv heof
  have hname := h.names _ (List.mem_of_getElem? hes) _ List.mem_cons_self
  have hdrop : ∀ {P : Transcript → Prop}, (∀ u ∈ c.tranHead, P u) →
      ∀ u ∈ c.tranHead.drop (i + 1), P u := fun h u hu => h u (List.mem_of_mem_drop hu)
  obtain ⟨moved, buf, hmove, hl, hfiles, hnulls⟩ := moveAhead_lists hname.1 hname.2
    (List.forall₂_drop (i + 1) h.lists) (hdrop h.nulls)
    (fun fs hfs => h.names fs (List.mem_of_mem_drop hfs)) c.buf
  have htake : (c.tranHead.take (i + 1)).length = i + 1 := by
    rw [List.length_take]
    omega
  have hget : (c.tranHead.take (i + 1) ++ moved)[i]? = some t := by
    rw [List.getElem?_append_left (by omega), List.getElem?_take, if_pos (by omega), hb.get]
  have hready : Ready cfg { c with tranHead := c.tranHead.take (i + 1) ++ moved, buf := buf }
      (dropAfter (PathInfo.key cfg.caseSensitive) i (t.tPinfo.key cfg.caseSensitive) ess) := by
    refine ⟨List.rel_append (List.forall₂_take (i + 1) h.lists) hl, ?_, ?_, ?_⟩
    · intro u hu
      rcases List.mem_append.mp hu with hu | hu
      · exact h.nulls u (List.mem_of_mem_take hu)
      · exact hnulls u hu
    · intro fs hfs f hf
      rcases List.mem_append.mp hfs with hfs | hfs
      · exact h.names fs (List.mem_of_mem_take hfs) f hf
      · obtain ⟨gs, hgs, rfl⟩ := List.mem_map.mp hfs
        have hgs := List.mem_of_mem_drop hgs
        exact h.names gs hgs f ((mem_dropKey (h.ascending gs hgs) (hleast.least gs hgs) f).mp hf).1
    · intro hnil
      have := congrArg List.length hnil
      simp only [List.length_append, htake, List.length_nil] at this
      omega
  refine ⟨_, by rw [h.selectPass_eq hb, hmove], ?_, hready, hget, ?_⟩
  · have hb' := begins_of_isLeast hready hget heof hleast.dropAfter
    have hdrop' : (c.tranHead.take (i + 1) ++ moved).drop (i + 1) = moved := by
      rw [List.drop_append_of_le_length (by omega), List.drop_eq_nil_of_le (by omega),
        List.nil_append]
    have hidle := moveAhead_idle hname.1 hname.2 hl hnulls
      (fun fs hfs => hready.names fs (List.mem_append_right _ hfs)) (fun fs hfs f hf => ?_) buf
    · rw [hready.selectPass_eq hb']
      simp only [hdrop', hidle]
      rw [List.take_append_of_le_length (by omega), List.take_take, min_self]
    · obtain ⟨gs, hgs, rfl⟩ := List.mem_map.mp hfs
      have hgs := List.mem_of_mem_drop hgs
      exact ((mem_dropKey (h.ascending gs hgs) (hleast.least gs hgs) f).mp hf).2
  · simp only [List.map_append, hfiles, List.map_drop, List.map_take, List.take_append_drop]

/-- Reading a transcript drops its current line. -/
theorem Ready.advance (h : Ready cfg c ess) {i : Nat} {e : PathInfo} {es : List PathInfo}
    (hes : ess[i]? = some (e :: es)) :
    ∃ c', advance cfg c i = .ok c' ∧ Ready cfg c' (ess.set i es) ∧
      c'.tranHead.map Transcript.file = c.tranHead.map Transcript.file := by
  obtain ⟨t, hget, hl⟩ := Lists.get' h.lists hes
  have heof : t.tEof = false := by
    by_contra heof
    exact absurd (hl.eof_inv (by simpa using heof)).1 (List.cons_ne_nil _ _)
  obtain ⟨t', es', heq, hparse, hl'⟩ := hl.cons_inv heof
  obtain ⟨rfl, rfl⟩ := List.cons.inj heq
  obtain ⟨buf, hp⟩ := hparse c.buf
  obtain ⟨hfile, htype, -⟩ := transcriptParse_cases hp
  have hlt := (List.getElem?_eq_some_iff.mp hget).1
  refine ⟨{ c with tranHead := c.tranHead.set i t', buf := buf }, ?_, ⟨?_, ?_, ?_, ?_⟩, ?_⟩
  · rw [Radmind.advance, hget]
    simp only [hp]
  · refine List.forall₂_iff_get.mpr ⟨by simpa using h.lists.length_eq, fun j hj hj' => ?_⟩
    simp only [List.get_eq_getElem, List.getElem_set]
    split
    · exact hl'
    · exact List.Forall₂.get h.lists (by simpa using hj) (by simpa using hj')
  · intro u hu hnull
    rcases List.mem_or_eq_of_mem_set hu with hu | rfl
    · exact h.nulls u hu hnull
    · exact absurd ((congrArg TranFile.tType hfile).symm.trans hnull) htype
  · intro fs hfs f hf
    rcases List.mem_or_eq_of_mem_set hfs with hfs | rfl
    · exact h.names fs hfs f hf
    · exact h.names _ (List.mem_of_getElem? hes) f (List.mem_cons_of_mem _ hf)
  · simpa using h.nonempty
  · refine List.ext_getElem? fun j => ?_
    simp only [List.getElem?_map, List.getElem?_set]
    split_ifs with hij
    · subst hij
      rw [hget, Option.map_some, Option.map_some, hfile]
    · rfl

theorem Ready.warn (h : Ready cfg c ess) (t : Transcript) : Ready cfg (warn cfg t c) ess :=
  ⟨by simpa using h.lists, by simpa using h.nulls, h.names, by simpa using h.nonempty⟩

/-! ## transcript_select -/

/-- What a call leaves: the merge as it was, its head current in the transcript
returned, and nothing to do for a second call. -/
structure Selected (cfg : SelectConfig) (files : List TranFile) (M : List (Nat × PathInfo))
    (c : Cursors) (i : Nat) : Prop where
  holds : Holds cfg files c M
  again : transcriptSelect cfg c = .ok (c, i)
  front : (∃ t, c.tranHead[i]? = some t ∧ t.tEof = true ∧ M = []) ∨
    ∃ t M' c', c.tranHead[i]? = some t ∧ t.tEof = false ∧ M = (i, t.tPinfo) :: M' ∧
      Radmind.advance cfg c i = .ok c' ∧ Holds cfg files c' M'

theorem selectLoop_holds (h : Holds cfg files c M) {fuel : Nat} (hfuel : c.unread < fuel) :
    ∃ c' i, selectLoop cfg fuel c = .ok (c', i) ∧ Selected cfg files M c' i := by
  induction fuel generalizing c with
  | zero => omega
  | succ fuel ih =>
    obtain ⟨ess, hready, hfiles, hM⟩ := h
    obtain ⟨head, rest, hc, hb⟩ := hready.scan
    generalize (Radmind.scan cfg.caseSensitive (0, head) 1 rest).1 = i at hb
    generalize (Radmind.scan cfg.caseSensitive (0, head) 1 rest).2 = t at hb
    cases heof : t.tEof with
    | true =>
      have hpass := hready.selectPass_eof hb heof
      have hstop : ∀ n, selectLoop cfg (n + 1) c = .ok (c, i) := fun n => by
        rw [selectLoop, hpass]
        simp [heof]
      obtain rfl := (isMerge_of_empty (hready.empty hb heof)).mp hM
      exact ⟨c, i, hstop fuel, ⟨ess, hready, hfiles, hM⟩, hstop _, .inl ⟨t, hb.get, heof, rfl⟩⟩
    | false =>
      have hleast := hb.isLeast hready heof
      obtain ⟨es, hes⟩ := hleast.head
      obtain ⟨c', hpass, hpass', hready', hget, hfiles'⟩ := hready.selectPass_least hb heof
      rw [hfiles] at hfiles'
      have hM' := hM.dropAfter hready.ascending hleast
      have hhead : (dropAfter (PathInfo.key cfg.caseSensitive) i
          (t.tPinfo.key cfg.caseSensitive) ess)[i]? = some (t.tPinfo :: es) := by
        rw [getElem?_dropAfter_le le_rfl, hes]
      cases hhide : hides cfg t with
      | true =>
        -- the line is read over, and the loop goes on without it
        have hskip : ¬ keep cfg files i t.tPinfo := fun hk => by
          simp [(hides_iff hfiles' hget).mpr hk] at hhide
        obtain ⟨c'', hadv, hready'', hfiles''⟩ := (hready'.warn t).advance hhead
        rw [set_dropAfter hleast hes] at hready''
        rw [warn_tranHead, hfiles'] at hfiles''
        have hlt := advance_unread_lt (c := warn cfg t c') (by simpa using hget) heof hadv
        have hle := (selectPass_spec hpass).2.2
        rw [warn_unread] at hlt
        obtain ⟨d, j, hloop, hsel⟩ := ih
          ⟨_, hready'', hfiles'', hM.skip hready.ascending hleast hskip⟩ (by omega)
        refine ⟨d, j, ?_, hsel⟩
        rw [selectLoop, hpass]
        simp only [heof, hhide, Bool.not_true, Bool.or_self, Bool.false_eq_true, if_false, hadv,
          hloop]
      | false =>
        have hstop : ∀ n d, selectPass cfg d = .ok (c', i, t) →
            selectLoop cfg (n + 1) d = .ok (c', i) := fun n d hd => by
          rw [selectLoop, hd]
          simp [hhide]
        obtain ⟨M', rfl, hrest⟩ := hM.take hready.ascending hleast
          ((hides_iff hfiles' hget).mp hhide)
        obtain ⟨c'', hadv, hready'', hfiles''⟩ := hready'.advance hhead
        rw [set_dropAfter hleast hes] at hready''
        refine ⟨c', i, hstop fuel c hpass, ⟨_, hready', hfiles', hM'⟩, hstop _ c' hpass', .inr ?_⟩
        exact ⟨t, M', c'', hget, heof, rfl, hadv, _, hready'', hfiles''.trans hfiles', hrest⟩

/-- A call on cursors that stand for a merge returns the head of the merge. -/
theorem Holds.select (h : Holds cfg files c M) :
    ∃ c' i, transcriptSelect cfg c = .ok (c', i) ∧ Selected cfg files M c' i :=
  selectLoop_holds h (Nat.lt_succ_self _)

theorem Ready.holds (h : Ready cfg c ess) (hfiles : c.tranHead.map Transcript.file = files) :
    ∃ M, Holds cfg files c M ∧
      IsMerge (PathInfo.key cfg.caseSensitive) (keep cfg files) ess M := by
  obtain ⟨M, hM⟩ := exists_isMerge (keep cfg files) h.ascending
  exact ⟨M, ⟨ess, h, hfiles, hM⟩, hM⟩

end

/-! ## Draining the transcripts -/

/-- The calls of `transcript_select` and `transcript_parse` in turn, until the
transcript returned is at its end. -/
def drainLoop (cfg : SelectConfig) : Nat → Cursors → Except Exit (List (Nat × PathInfo) × Cursors)
  | 0, _ => .error .outOfFuel
  | fuel + 1, c =>
    match transcriptSelect cfg c with
    | .error e => .error e
    | .ok (c, i) =>
      match c.tranHead[i]? with
      | none => .error .overrun
      | some tran =>
        if tran.tEof then .ok ([], c)
        else
          match advance cfg c i with
          | .error e => .error e
          | .ok c' =>
            match drainLoop cfg fuel c' with
            | .error e => .error e
            | .ok (M, c') => .ok ((i, tran.tPinfo) :: M, c')

def drain (cfg : SelectConfig) (c : Cursors) : Except Exit (List (Nat × PathInfo) × Cursors) :=
  drainLoop cfg (c.unread + 1) c

/-- The states between the calls of `drain`. -/
inductive Drains (cfg : SelectConfig) (c : Cursors) : Cursors → Prop
  | start : Drains cfg c c
  | next {c₁ c₂ c₃ : Cursors} {i : Nat} {t : Transcript} : Drains cfg c c₁ →
      transcriptSelect cfg c₁ = .ok (c₂, i) → c₂.tranHead[i]? = some t → t.tEof = false →
      advance cfg c₂ i = .ok c₃ → Drains cfg c c₃

theorem selectLoop_unread_le {cfg : SelectConfig} {fuel : Nat} {c c' : Cursors} {i : Nat}
    (h : selectLoop cfg fuel c = .ok (c', i)) : c'.unread ≤ c.unread := by
  induction fuel generalizing c with
  | zero => simp [selectLoop] at h
  | succ fuel ih =>
    rw [selectLoop] at h
    split at h
    · simp at h
    next d j t hpass =>
    obtain ⟨-, hget, hle⟩ := selectPass_spec hpass
    split at h
    · obtain ⟨rfl, -⟩ := Prod.mk.inj (Except.ok.inj h)
      exact hle
    next hstop =>
    split at h
    · simp at h
    next d' hadv =>
    have heof : t.tEof = false := by
      cases ht : t.tEof with
      | false => rfl
      | true => simp [ht] at hstop
    have hlt := advance_unread_lt (by simpa using hget) heof hadv
    rw [warn_unread] at hlt
    have := ih h
    omega

theorem drainLoop_holds {cfg : SelectConfig} {files : List TranFile} {c : Cursors}
    {M : List (Nat × PathInfo)} (h : Holds cfg files c M) {fuel : Nat} (hfuel : c.unread < fuel) :
    ∃ c', drainLoop cfg fuel c = .ok (M, c') := by
  induction fuel generalizing c M with
  | zero => omega
  | succ fuel ih =>
    obtain ⟨d, i, hsel, -, -, ⟨t, hget, heof, rfl⟩ | ⟨t, M', d', hget, heof, rfl, hadv, hrest⟩⟩ :=
      h.select
    · exact ⟨d, by rw [drainLoop, hsel]; simp [hget, heof]⟩
    · have hle := selectLoop_unread_le hsel
      have hlt := advance_unread_lt hget heof hadv
      obtain ⟨c', hloop⟩ := ih hrest (by omega)
      exact ⟨c', by rw [drainLoop, hsel]; simp [hget, heof, hadv, hloop]⟩

theorem Drains.holds {cfg : SelectConfig} {files : List TranFile} {c c' : Cursors}
    {M : List (Nat × PathInfo)} (h : Holds cfg files c M) (hd : Drains cfg c c') :
    ∃ M', Holds cfg files c' M' := by
  induction hd with
  | start => exact ⟨M, h⟩
  | @next c₁ c₂ c₃ i t _ hsel hget heof hadv ih =>
    obtain ⟨M₁, h₁⟩ := ih
    obtain ⟨d, j, hsel', hs⟩ := h₁.select
    obtain ⟨rfl, rfl⟩ := Prod.mk.inj (Except.ok.inj (hsel'.symm.trans hsel))
    obtain ⟨u, hget', heof', -⟩ | ⟨u, M', d', -, -, -, hadv', hrest⟩ := hs.front
    · obtain rfl := Option.some.inj (hget'.symm.trans hget)
      simp [heof] at heof'
    · obtain rfl := Except.ok.inj (hadv'.symm.trans hadv)
      exact ⟨M', hrest⟩

/-- A transcript as `t_new` puts it on the list. -/
def Opened (cfg : ParseConfig) (t : Transcript) : Prop :=
  ∃ buf buf' type fullname shortname content,
    tNew cfg buf type fullname shortname content = .ok (t, buf')

/-- The entries of the merge by path: for each path the line of the first
transcript that lists it, if that line is to be seen. -/
structure Merged (cfg : SelectConfig) (files : List TranFile) (ess : List (List PathInfo))
    (M : List (Nat × PathInfo)) : Prop where
  ascending : M.Pairwise fun a b => pathcmp a.2.piName b.2.piName < 0
  mem_iff : ∀ i e, (i, e) ∈ M ↔
    (∃ es, ess[i]? = some es ∧ e ∈ es) ∧
      (∀ j < i, ∀ fs, ess[j]? = some fs → ∀ f ∈ fs, f.piName ≠ e.piName) ∧
      e.piMinus = false ∧ ischild e.piName cfg.pathPrefix = true ∧
      (files[i]?.map (·.tType) = some .special ∨ cfg.tExclude e.piName = false)

theorem nameOk_of_pos {p q : CStr} (hp : NulFree p) (hq : NulFree q)
    (h : 0 < pathcasecmp p q true) : p ≠ [] := by
  rintro rfl
  have := (pathcasecmp_pos (ranked_of_nulFree hp) (ranked_of_nulFree hq)).mp h
  exact List.not_lt_nil _ this

theorem Lists.names {cfg : ParseConfig} (hcs : cfg.caseSensitive = true) {t : Transcript}
    {es : List PathInfo} (h : Lists cfg t es) (ht : t.tEof = false → NameOk true t.tPinfo) :
    ∀ e ∈ es, NameOk true e := by
  induction h with
  | eof => exact fun e he => absurd he List.not_mem_nil
  | @line t t' es heof hp hl ih =>
    intro e he
    rcases List.mem_cons.mp he with rfl | he
    · exact ht heof
    · refine ih (fun heof' => ?_) e he
      obtain ⟨buf', hparse⟩ := hp []
      obtain ⟨-, -, ⟨heof'', -⟩ | ⟨-, -, hnul, hpos⟩⟩ := transcriptParse_cases hparse
      · simp [heof'] at heof''
      · rw [hcs] at hpos
        exact ⟨ranked_of_nulFree hnul, nameOk_of_pos hnul (ht heof).1.nulFree hpos⟩

theorem Opened.spec {cfg : ParseConfig} (hcs : cfg.caseSensitive = true) {t : Transcript}
    (h : Opened cfg t) : t.tType ≠ .null ∧ (t.tEof = false → NameOk true t.tPinfo) := by
  obtain ⟨buf, buf', type, fullname, shortname, content, hnew⟩ := h
  obtain ⟨hfile, hnull, hcases⟩ := transcriptParse_cases hnew
  refine ⟨fun h => hnull ((congrArg TranFile.tType hfile).symm.trans h), fun heof => ?_⟩
  obtain ⟨heof', -⟩ | ⟨-, -, hnul, hpos⟩ := hcases
  · simp [heof] at heof'
  · rw [hcs] at hpos
    exact ⟨ranked_of_nulFree hnul, nameOk_of_pos hnul nulFree_nil hpos⟩

/-- The list `transcript_init` builds is ready to be read. -/
theorem ready_of_opened {cfg : SelectConfig} (hcs : cfg.caseSensitive = true) {c : Cursors}
    {ts : List Transcript} (hc : c.tranHead = ts ++ [nullTranscript])
    (hopen : ∀ t ∈ ts, Opened cfg.toParseConfig t) {ess : List (List PathInfo)}
    (hlists : List.Forall₂ (Lists cfg.toParseConfig) c.tranHead ess) : Ready cfg c ess := by
  have htran : ∀ t ∈ c.tranHead, (t.tType = .null → t.tPinfo.piName = []) ∧
      (t.tEof = false → NameOk true t.tPinfo) := by
    intro t ht
    rw [hc] at ht
    rcases List.mem_append.mp ht with ht | ht
    · exact ⟨fun h => absurd h ((hopen t ht).spec hcs).1, ((hopen t ht).spec hcs).2⟩
    · obtain rfl := List.mem_singleton.mp ht
      exact ⟨fun _ => rfl, fun h => by simp [nullTranscript] at h⟩
  refine ⟨hlists, fun t ht => (htran t ht).1, fun es hes => ?_, by simp [hc]⟩
  obtain ⟨i, hi⟩ := List.mem_iff_getElem?.mp hes
  obtain ⟨t, ht, hl⟩ := Lists.get' hlists hi
  rw [hcs]
  exact hl.names hcs (htran t (List.mem_of_getElem? ht)).2

theorem merged_of_isMerge {cfg : SelectConfig} (hcs : cfg.caseSensitive = true)
    {files : List TranFile} {ess : List (List PathInfo)} {M : List (Nat × PathInfo)}
    (hnames : ∀ es ∈ ess, ∀ e ∈ es, NameOk true e)
    (h : IsMerge (PathInfo.key cfg.caseSensitive) (keep cfg files) ess M) :
    Merged cfg files ess M := by
  rw [hcs] at h
  have hnul : ∀ {i : Nat} {es e}, ess[i]? = some es → e ∈ es → NulFree e.piName :=
    fun hes he => (hnames _ (List.mem_of_getElem? hes) _ he).1.nulFree
  constructor
  · refine h.ascending.imp_of_mem fun {a b} ha hb hlt => ?_
    obtain ⟨⟨es, hes, ha⟩, -⟩ := ((h.mem_iff a.1 a.2).mp ha).1
    obtain ⟨⟨fs, hfs, hb⟩, -⟩ := ((h.mem_iff b.1 b.2).mp hb).1
    exact (pathcmp_neg (hnul hes ha) (hnul hfs hb)).mpr hlt
  · intro i e
    rw [h.mem_iff]
    simp only [keep, hcs]
    constructor
    · rintro ⟨⟨hmem, hfirst⟩, hminus, hchild, hexcl⟩
      refine ⟨hmem, fun j hj fs hfs f hf hname => hfirst j hj fs hfs f hf ?_, hminus, hchild, hexcl⟩
      rw [PathInfo.key, hname]
      rfl
    · rintro ⟨⟨es, hes, he⟩, hfirst, hminus, hchild, hexcl⟩
      refine ⟨⟨⟨es, hes, he⟩, fun j hj fs hfs f hf hkey => hfirst j hj fs hfs f hf ?_⟩, hminus,
        hchild, hexcl⟩
      exact pathKey_injective (hnul hfs hf) (hnul hes he) hkey

/-- The whole run over the transcripts yields their merge by precedence.  In every
state of it a second `transcript_select` returns the same transcript and changes
nothing. -/
theorem drain_merged {cfg : SelectConfig} (hcs : cfg.caseSensitive = true) {c : Cursors}
    {ts : List Transcript} (hc : c.tranHead = ts ++ [nullTranscript])
    (hopen : ∀ t ∈ ts, Opened cfg.toParseConfig t) {ess : List (List PathInfo)}
    (hlists : List.Forall₂ (Lists cfg.toParseConfig) c.tranHead ess) :
    (∃ M c', drain cfg c = .ok (M, c') ∧
        Merged cfg (c.tranHead.map Transcript.file) ess M) ∧
      ∀ c', Drains cfg c c' → ∃ c'' i,
        transcriptSelect cfg c' = .ok (c'', i) ∧ transcriptSelect cfg c'' = .ok (c'', i) := by
  have hready := ready_of_opened hcs hc hopen hlists
  obtain ⟨M, hholds, hmerge⟩ := hready.holds rfl
  refine ⟨?_, fun c' hd => ?_⟩
  · obtain ⟨c', hdrain⟩ := drainLoop_holds hholds (Nat.lt_succ_self _)
    exact ⟨M, c', hdrain, merged_of_isMerge hcs (fun es hes => hcs ▸ hready.names es hes) hmerge⟩
  · obtain ⟨M', h'⟩ := hd.holds hholds
    obtain ⟨c'', i, hsel, hs⟩ := h'.select
    exact ⟨c'', i, hsel, hs.again⟩

/-! ### Two transcripts

The first one lists `/a` and takes `/b` away from the second one. -/

def twoConfig : SelectConfig :=
  { caseSensitive := true, tranFormat := .absolute, cksum := false
    pathPrefix := some (lit "/"), tExclude := fun _ => false, excludeWarnings := false }

def opened (content : String) : Transcript :=
  match tNew twoConfig.toParseConfig [] .positive (lit "/T") (lit "T") (lit content) with
  | .ok (t, _) => t
  | .error _ => nullTranscript

def parsed (t : Transcript) : Transcript :=
  match transcriptParse twoConfig.toParseConfig [] t with
  | .ok (t, _) => t
  | .error _ => nullTranscript

def twoFirst : Transcript := opened "d /a 0755 0 0\n- d /b 0755 0 0\n"

def twoSecond : Transcript := opened "d /a 0700 0 0\nd /b 0755 0 0\nd /c 0755 0 0\n"

def twoCursors : Cursors :=
  { tranHead := [twoFirst, twoSecond] ++ [nullTranscript], buf := [], warned := [] }

def twoLines : List (List PathInfo) :=
  [[twoFirst.tPinfo, (parsed twoFirst).tPinfo],
    [twoSecond.tPinfo, (parsed twoSecond).tPinfo, (parsed (parsed twoSecond)).tPinfo], []]

theorem twoOpened : ∀ t ∈ [twoFirst, twoSecond], Opened twoConfig.toParseConfig t := by
  intro t ht
  rcases List.mem_pair.mp ht with rfl | rfl
  · exact ⟨[], _, .positive, lit "/T", lit "T", lit "d /a 0755 0 0\n- d /b 0755 0 0\n", rfl⟩
  · exact ⟨[], _, .positive, lit "/T", lit "T",
      lit "d /a 0700 0 0\nd /b 0755 0 0\nd /c 0755 0 0\n", rfl⟩

set_option maxRecDepth 8000 in
theorem twoLists :
    List.Forall₂ (Lists twoConfig.toParseConfig) twoCursors.tranHead twoLines := by
  refine .cons ?_ (.cons ?_ (.cons (.eof rfl rfl) .nil))
  · exact @Lists.line _ _ (parsed twoFirst) _ rfl (fun buf => ⟨_, rfl⟩)
      (@Lists.line _ _ (parsed (parsed twoFirst)) _ rfl (fun buf => ⟨_, rfl⟩) (.eof rfl rfl))
  · exact @Lists.line _ _ (parsed twoSecond) _ rfl (fun buf => ⟨_, rfl⟩)
      (@Lists.line _ _ (parsed (parsed twoSecond)) _ rfl (fun buf => ⟨_, rfl⟩)
        (@Lists.line _ _ (parsed (parsed (parsed twoSecond))) _ rfl (fun buf => ⟨_, rfl⟩)
          (.eof rfl rfl)))

theorem drain_merged_two :
    (∃ M c', drain twoConfig twoCursors = .ok (M, c') ∧
        Merged twoConfig (twoCursors.tranHead.map Transcript.file) twoLines M) ∧
      ∀ c', Drains twoConfig twoCursors c' → ∃ c'' i,
        transcriptSelect twoConfig c' = .ok (c'', i) ∧
          transcriptSelect twoConfig c'' = .ok (c'', i) :=
  drain_merged rfl rfl twoOpened twoLists

set_option maxRecDepth 8000 in
example : (drain twoConfig twoCursors).map (fun r => r.1.map fun x => (x.1, x.2.piName)) =
    .ok [(0, lit "/a"), (1, lit "/c")] := by decide
end Radmind
