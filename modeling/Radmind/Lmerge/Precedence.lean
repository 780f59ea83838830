import Radmind.Lmerge.Lines

/-!
# Which line of a path is kept

The merged transcript has for every path the line of the transcript of the highest precedence.
Whether a '-' line stays depends on a mark that any transcript moved in the same round sets, so it
is right exactly where that mark is.
-/

namespace Radmind

open PrecedenceMerge

/-- Some transcript after transcript `i` lists a path. -/
def ListedBelow (ess : List (List LmergeEntry)) (i : Nat) (k : List Nat) : Prop :=
  ∃ j > i, ∃ fs, ess[j]? = some fs ∧ ∃ f ∈ fs, f.key = k

/-- What is to be in the merged transcript: in the order of their paths the lines that win,
less the '-' lines whose path is listed again. -/
def MergedLines (ess : List (List LmergeEntry)) (dest : List Written) : Prop :=
  ∃ M, IsMerge LmergeEntry.key (fun i e => e.tRemove = false ∨ ¬ ListedBelow ess i e.key) ess M ∧
    dest = M.map fun x => x.2.written

/-- The '-' lines that win are marked exactly where their paths are listed again. -/
def MarksTrue (ess : List (List LmergeEntry)) : Prop :=
  ∀ i e, Wins LmergeEntry.key ess i e → e.tRemove = true →
    (MovesAt LmergeEntry.key ess e.key ↔ ListedBelow ess i e.key)

/-- With files, every one that is listed gets to its place. -/
def Placeable (cfg : LmergeConfig) (inputs : List LmergeInput) (ess : List (List LmergeEntry)) :
    Prop :=
  cfg.mergeTransOnly = false → ∀ a ∈ inputs, ∀ b ∈ inputs, ∀ es ∈ ess, ∀ e ∈ es,
    isFileLine e.tArgv = true → placeFile cfg a.fileRoot b.tranName e.tFilepath = .ok ()

/-- The transcripts stand where everything up to a bound is merged. -/
structure StandsAt (cfg : LmergeConfig) (inputs : List LmergeInput)
    (ess : List (List LmergeEntry)) (u : WithBot (List Nat)) (st : MergeState) : Prop where
  lines : List.Forall₂ (LmergeLines cfg) st.trans (along (current LmergeEntry.key u) [] ess)
  roots : st.trans.map Tran.roots = inputs.map fun i => (i.fileRoot, i.tranName)
  before : ∀ t ∈ st.trans.take st.i, t.tEof = true

section

variable {cfg : LmergeConfig} {inputs : List LmergeInput} {ess : List (List LmergeEntry)}

/-- A '-' line is written unless it is marked, if its file gets to its place. -/
theorem output_eq (hup : cfg.noupload = false) {c : Compared} {cand loc : Tran}
    (hskip : c.skipped = false) :
    (∃ lines, output cfg c cand loc = .ok lines ∧ lines ++ recreated c cand =
      if cand.tRemove = true ∧ c.matched = true then [] else [cand.written]) ∨
    (∃ x, output cfg c cand loc = .error x) ∧ cfg.mergeTransOnly = false ∧
      isFileLine cand.tArgv = true ∧
      placeFile cfg cand.tFileRoot loc.tTranName cand.tFilepath ≠ .ok () := by
  cases hr : cand.tRemove with
  | true =>
    refine .inl ⟨[], by simp [output, hskip, hr], ?_⟩
    cases hm : c.matched with
    | true => simp [recreated, hr, hm]
    | false => simp [recreated, hr, hm]
  | false =>
    unfold output
    simp only [hskip, hr, hup, Bool.false_eq_true, if_false, Bool.false_and, Bool.or_self]
    by_cases hfile : (!cand.isFile || cfg.mergeTransOnly) = true
    · rw [if_pos hfile]
      exact .inl ⟨_, rfl, by simp [recreated, hr]⟩
    · rw [if_neg hfile]
      simp only [Bool.or_eq_true, Bool.not_eq_true', not_or, Bool.not_eq_true,
        Bool.not_eq_false] at hfile
      cases hplace : placeFile cfg cand.tFileRoot loc.tTranName cand.tFilepath with
      | ok _ => exact .inl ⟨_, rfl, by simp [recreated, hr]⟩
      | error x => exact .inr ⟨⟨x, rfl⟩, hfile.2, hfile.1, by simp⟩

theorem forall₂_getElem? {α β : Type} {R : α → β → Prop} {as : List α} {bs : List β}
    (h : List.Forall₂ R as bs) {n : Nat} {b : β} (hb : bs[n]? = some b) :
    ∃ a, as[n]? = some a ∧ R a b := by
  induction h generalizing n with
  | nil => simp at hb
  | @cons a b' as bs hab _ ih =>
    cases n with
    | zero => exact ⟨a, rfl, Option.some.inj hb ▸ hab⟩
    | succ n => exact ih hb

theorem forall₂_set {α β : Type} {R : α → β → Prop} {as : List α} {bs : List β}
    (h : List.Forall₂ R as bs) {a : α} {b : β} (hab : R a b) (n : Nat) :
    List.Forall₂ R (as.set n a) (bs.set n b) := by
  induction h generalizing n with
  | nil => exact .nil
  | @cons a' b' as bs hab' h ih =>
    cases n with
    | zero => exact .cons hab h
    | succ n => exact .cons hab' (ih n)

/-- The transcripts before the one the loop is at have no lines left. -/
theorem LmergeLines.front {front : List Tran} {curs : List (List LmergeEntry)}
    (h : List.Forall₂ (LmergeLines cfg) front curs) (hfront : ∀ t ∈ front, t.tEof = true) :
    ∀ es ∈ curs, es = [] := by
  induction h with
  | nil => exact fun es hes => absurd hes List.not_mem_nil
  | @cons t es front curs ht _ ih =>
    obtain ⟨heof, hrest⟩ := List.forall_mem_cons.mp hfront
    exact List.forall_mem_cons.mpr ⟨ht.eof_inv heof, ih hrest⟩

theorem mem_along_current {u : WithBot (List Nat)} {pre : List (List LmergeEntry)}
    {cur : List LmergeEntry} (h : cur ∈ along (current LmergeEntry.key u) pre ess) :
    ∃ es ∈ ess, ∀ e ∈ cur, e ∈ es := by
  induction ess generalizing pre with
  | nil => exact absurd h List.not_mem_nil
  | cons es ess ih =>
    rcases List.mem_cons.mp h with rfl | h
    · refine ⟨es, List.mem_cons_self, fun e he => ?_⟩
      unfold current at he
      split at he
      · exact (mem_above.mp (List.mem_of_mem_tail he)).1
      · exact (mem_above.mp he).1
    · obtain ⟨fs, hfs, hsub⟩ := ih h
      exact ⟨fs, List.mem_cons_of_mem _ hfs, hsub⟩

theorem forall₂_append_inv {α β : Type} {R : α → β → Prop} {as as' : List α} {bs : List β}
    (h : List.Forall₂ R (as ++ as') bs) :
    ∃ bs₁ bs₂, bs = bs₁ ++ bs₂ ∧ List.Forall₂ R as bs₁ ∧ List.Forall₂ R as' bs₂ := by
  induction as generalizing bs with
  | nil => exact ⟨[], bs, rfl, .nil, h⟩
  | cons a as ih =>
    cases h with
    | @cons _ b _ bs hab h =>
      obtain ⟨bs₁, bs₂, rfl, h₁, h₂⟩ := ih h
      exact ⟨b :: bs₁, bs₂, rfl, .cons hab h₁, h₂⟩

theorem forall₂_append {α β : Type} {R : α → β → Prop} {as as' : List α} {bs bs' : List β}
    (h : List.Forall₂ R as bs) (h' : List.Forall₂ R as' bs') :
    List.Forall₂ R (as ++ as') (bs ++ bs') := by
  induction h with
  | nil => exact h'
  | cons hab _ ih => exact .cons hab ih

theorem sum_set_lt {ts : List Tran} {w : Nat} {t t' : Tran} (ht : ts[w]? = some t)
    (hlt : t'.unread < t.unread) :
    ((ts.set w t').map Tran.unread).sum < (ts.map Tran.unread).sum := by
  induction ts generalizing w with
  | nil => simp at ht
  | cons a ts ih =>
    cases w with
    | zero =>
      obtain rfl := Option.some.inj ht
      simpa using hlt
    | succ w => simpa using ih ht

theorem map_roots_set {ts : List Tran} {w : Nat} {t t' : Tran} (ht : ts[w]? = some t)
    (hroots : t'.roots = t.roots) : (ts.set w t').map Tran.roots = ts.map Tran.roots := by
  induction ts generalizing w with
  | nil => rfl
  | cons a ts ih =>
    cases w with
    | zero =>
      obtain rfl := Option.some.inj ht
      simp [hroots]
    | succ w => simpa using ih ht

/-- A round merges the next path, unless a file does not get to its place. -/
theorem mergeRound_merges (hcs : cfg.caseSensitive = true) (hup : cfg.noupload = false)
    (hasc : ∀ es ∈ ess, Ascending LmergeEntry.key es)
    (hnul : ∀ es ∈ ess, ∀ e ∈ es, NulFree e.tFilepath) {u : WithBot (List Nat)}
    (hu : Reached LmergeEntry.key ess u) {st : MergeState} (hst : StandsAt cfg inputs ess u st)
    {t : Tran} (ht : st.trans[st.i]? = some t) (heof : t.tEof = false) :
    ∃ w e, Leads LmergeEntry.key u ess (some (w, e)) ∧
      ((∃ st', mergeRound cfg st t = .ok st' ∧
        StandsAt cfg inputs ess (e.key : WithBot (List Nat)) st' ∧ st'.i = st.i ∧
        (st'.ofs = st.ofs ∧ e.tRemove = true ∧ MovesAt LmergeEntry.key ess e.key ∨
          st'.ofs = st.ofs ++ [e.written] ∧
            ¬ (e.tRemove = true ∧ MovesAt LmergeEntry.key ess e.key)) ∧
        (st'.trans.map Tran.unread).sum < (st.trans.map Tran.unread).sum ∧
        st'.trans.length = st.trans.length) ∨
      (∃ x, mergeRound cfg st t = .error x) ∧ ¬ Placeable cfg inputs ess) := by
  obtain ⟨i, ts, buf, ofs⟩ := st
  obtain ⟨front, rest, rfl, rfl⟩ := exists_split ht
  obtain ⟨hlines, hroots, hbefore⟩ := hst
  simp only at hlines hroots hbefore
  rw [List.take_append_of_le_length le_rfl, List.take_length] at hbefore
  obtain ⟨cf, crest, hcurs, hfront, hlines⟩ := forall₂_append_inv hlines
  cases hlines with
  | @cons _ ct _ cr htl hrest =>
  obtain ⟨t', es', rfl, -, -⟩ := htl.cons_inv heof
  have hcf := LmergeLines.front hfront hbefore
  have hlen : cf.length = front.length := hfront.length_eq.symm
  have hcurnul : ∀ es ∈ (t.entry :: es') :: cr, ∀ e ∈ es, NulFree e.tFilepath := by
    intro es hes e he
    obtain ⟨fs, hfs, hsub⟩ := mem_along_current (hcurs ▸ List.mem_append_right cf hes)
    exact hnul fs hfs e (hsub e he)
  have htnul : NulFree t.tFilepath := hcurnul _ List.mem_cons_self t.entry List.mem_cons_self
  obtain ⟨rest', c, buf₁, hrun, hsources, hlead, hmatched, hskip, hloc, hroots', hunread⟩ :=
    @candidateLoop_walk cfg hcs hup t ⟨front.length, front.length, false, false⟩
      (front.length + 1) rest cr htnul hrest
      (fun es hes => hcurnul es (List.mem_cons_of_mem _ hes)) rfl rfl buf
  -- the whole walk, from the first transcript on
  obtain ⟨hsettled, hleads, hmoves⟩ := @walk_current _ _ _ LmergeEntry.key u [] ess hasc none
    (fun k ⟨es, hes, _⟩ => absurd hes List.not_mem_nil)
  rw [hcurs, List.length_nil, walk_front hcf, Nat.zero_add, hlen, walk] at hsettled hleads hmoves
  simp only [Walked.keep, List.nil_append] at hsettled hleads hmoves
  generalize hw : walk LmergeEntry.key (front.length + 1) (some (front.length, t.entry)) cr = walked
    at hsources hlead hmatched hsettled hleads hmoves
  obtain ⟨w, e, hwlead⟩ : ∃ w e, walked.lead = some (w, e) := by
    cases h : walked.lead with
    | none => rw [h] at hlead; cases hlead
    | some we => exact ⟨we.1, we.2, rfl⟩
  rw [hwlead] at hlead hleads
  obtain rfl : w = c.candidate := Option.some.inj hlead
  obtain ⟨es'', hget, hset⟩ := hleads.next hasc
  rw [← hsettled] at hget hset
  have hall : List.Forall₂ (LmergeLines cfg) (front ++ t :: rest')
      (cf ++ (t.entry :: es') :: walked.sources) := forall₂_append hfront (.cons htl hsources)
  obtain ⟨cand, hcand, hcandl⟩ := forall₂_getElem? hall hget
  obtain ⟨hceof, hentry⟩ := hcandl.of_cons
  obtain ⟨cand', es₃, hes₃, hnext, hcandl'⟩ := hcandl.cons_inv hceof
  obtain rfl : es'' = es₃ := (List.cons.inj hes₃).2
  obtain ⟨buf₂, hnext⟩ := hnext buf₁
  have hindex : front.length ≤ c.candidate := by
    by_contra hlt
    rw [List.getElem?_append_left (by omega)] at hget
    have := hcf _ (List.mem_of_getElem? hget)
    cases this
  have hallroots : (front ++ t :: rest').map Tran.roots =
      inputs.map fun i => (i.fileRoot, i.tranName) := by
    rw [← hroots, List.map_append, List.map_append, List.map_cons, List.map_cons, hroots']
  have hmatch : c.matched = true ↔ MovesAt LmergeEntry.key ess e.key := by
    rw [hleads.movesAt_iff hu, ← hmoves, hmatched, Bool.false_or]
  have hremove : cand.tRemove = e.tRemove := hentry ▸ rfl
  have hline : cand.written = e.written := hentry ▸ rfl
  refine ⟨c.candidate, e, hleads, ?_⟩
  rcases @output_eq cfg hup c cand cand hskip with
    ⟨lines, hout, hwritten⟩ | ⟨⟨x, hout⟩, honly, hfile, hplace⟩
  · left
    refine ⟨_, mergeRound_iff.mpr ⟨rest', c, cand, cand',
      ⟨buf₁, cand, lines, buf₂, hrun, hloc ▸ hcand, hout, hnext, rfl⟩, hcand⟩, ?_, rfl, ?_, ?_, ?_⟩
    · refine ⟨?_, ?_, ?_⟩
      · rw [← hset]
        exact forall₂_set hall hcandl' _
      · exact (map_roots_set hcand (getnextline_cases hnext).2).trans hallroots
      · show ∀ u ∈ ((front ++ t :: rest').set c.candidate cand').take front.length, u.tEof = true
        rwa [List.take_set_of_le hindex, List.take_append_of_le_length le_rfl, List.take_length]
    · show ofs ++ (lines ++ recreated c cand) = ofs ∧ _ ∨
        ofs ++ (lines ++ recreated c cand) = ofs ++ [e.written] ∧ _
      rw [hremove, hline] at hwritten
      by_cases hmarked : e.tRemove = true ∧ c.matched = true
      · rw [hwritten, if_pos hmarked, List.append_nil]
        exact .inl ⟨rfl, hmarked.1, hmatch.mp hmarked.2⟩
      · rw [hwritten, if_neg hmarked]
        exact .inr ⟨rfl, fun h => hmarked ⟨h.1, hmatch.mpr h.2⟩⟩
    · have hlt := sum_set_lt hcand (unread_next hceof hnext)
      have hsum : ((front ++ t :: rest').map Tran.unread).sum ≤
          ((front ++ t :: rest).map Tran.unread).sum := by
        simp only [List.map_append, List.map_cons, List.sum_append, List.sum_cons]
        omega
      exact hlt.trans_le hsum
    · have hlen' : rest'.length = rest.length := by
        simpa using congrArg List.length hroots'
      simp [hlen']
  · right
    have herror : mergeRound cfg ⟨front.length, front ++ t :: rest, buf, ofs⟩ t = .error x := by
      have htake : (front ++ t :: rest).take (front.length + 1) = front ++ [t] := by
        rw [List.take_append, List.take_of_length_le (Nat.le_succ _)]
        simp
      have hdrop : (front ++ t :: rest).drop (front.length + 1) = rest := by
        rw [List.drop_append, List.drop_of_length_le (Nat.le_succ _)]
        simp
      have hassoc : front ++ [t] ++ rest' = front ++ t :: rest' := by simp
      unfold mergeRound
      simp only [hdrop, hrun, htake, hassoc, hloc, hcand, hout]
    refine ⟨⟨x, herror⟩, fun hplaceable => hplace ?_⟩
    -- the candidate is one of the inputs, and its line is one of theirs
    have hmem : cand.roots ∈ inputs.map fun i => (i.fileRoot, i.tranName) :=
      hallroots ▸ List.mem_map_of_mem (List.mem_of_getElem? hcand)
    obtain ⟨a, ha, hroots⟩ := List.mem_map.mp hmem
    obtain ⟨hroot, hname⟩ := Prod.mk.inj hroots
    obtain ⟨-, ⟨es, hes, he⟩, -⟩ := hleads
    have hargv : cand.tArgv = e.tArgv := hentry ▸ rfl
    have hpath : cand.tFilepath = e.tFilepath := hentry ▸ rfl
    have := hplaceable honly a ha a ha es (List.mem_of_getElem? hes) e he (hargv ▸ hfile)
    rwa [hroot, hname, ← hpath] at this

/-- The line stays where the code marks '-' lines. -/
def Unmarked (ess : List (List LmergeEntry)) (_ : Nat) (e : LmergeEntry) : Prop :=
  e.tRemove = false ∨ ¬ MovesAt LmergeEntry.key ess e.key

/-- Transcripts that are all at their end have nothing above the bound. -/
theorem StandsAt.at_end (hasc : ∀ es ∈ ess, Ascending LmergeEntry.key es)
    {u : WithBot (List Nat)} {st : MergeState} (hst : StandsAt cfg inputs ess u st)
    (hend : st.trans[st.i]? = none) : ∀ es ∈ ess.map (above LmergeEntry.key u), es = [] := by
  have hall : ∀ t ∈ st.trans, t.tEof = true := by
    have hbefore := hst.before
    rwa [List.take_of_length_le (List.getElem?_eq_none_iff.mp hend)] at hbefore
  have hempty := LmergeLines.front hst.lines hall
  obtain ⟨-, hleads, -⟩ := @walk_current _ _ _ LmergeEntry.key u [] ess hasc none
    (fun k ⟨es, hes, _⟩ => absurd hes List.not_mem_nil)
  have hwalk := @walk_front _ _ _ LmergeEntry.key _ [] hempty 0 none
  rw [List.append_nil, walk] at hwalk
  rw [List.length_nil, hwalk] at hleads
  intro es hes
  obtain ⟨fs, hfs, rfl⟩ := List.mem_map.mp hes
  exact Leads.above_eq_nil hleads fs hfs

theorem mergeLoop_merges (hcs : cfg.caseSensitive = true) (hup : cfg.noupload = false)
    (hasc : ∀ es ∈ ess, Ascending LmergeEntry.key es)
    (hnul : ∀ es ∈ ess, ∀ e ∈ es, NulFree e.tFilepath) {fuel : Nat} {u : WithBot (List Nat)}
    (hu : Reached LmergeEntry.key ess u) {st : MergeState} (hst : StandsAt cfg inputs ess u st)
    (hfuel : (st.trans.map Tran.unread).sum + (st.trans.length - st.i) < fuel) :
    (∃ M, IsMerge LmergeEntry.key (Unmarked ess) (ess.map (above LmergeEntry.key u)) M ∧
      mergeLoop cfg fuel st = .ok (st.ofs ++ M.map fun x => x.2.written)) ∨
    ¬ Placeable cfg inputs ess ∧ ∃ x, mergeLoop cfg fuel st = .error x := by
  induction fuel generalizing u st with
  | zero => omega
  | succ fuel ih =>
    have habove : ∀ es ∈ ess.map (above LmergeEntry.key u), Ascending LmergeEntry.key es := by
      intro es hes
      obtain ⟨fs, hfs, rfl⟩ := List.mem_map.mp hes
      exact (hasc fs hfs).above
    rw [mergeLoop]
    unfold mergeStep
    cases ht : st.trans[st.i]? with
    | none => exact .inl ⟨[], (isMerge_of_empty (hst.at_end hasc ht)).mpr rfl, by simp⟩
    | some t =>
      have hi : st.i < st.trans.length := (List.getElem?_eq_some_iff.mp ht).1
      cases heof : t.tEof with
      | true =>
        have hnext : StandsAt cfg inputs ess u { st with i := st.i + 1 } := by
          refine ⟨hst.lines, hst.roots, fun v hv => ?_⟩
          rw [List.take_succ_eq_append_getElem hi] at hv
          rcases List.mem_append.mp hv with hv | hv
          · exact hst.before v hv
          · rw [List.mem_singleton.mp hv, (List.getElem?_eq_some_iff.mp ht).2, heof]
        simp only [heof, if_true]
        refine ih hu hnext ?_
        show (st.trans.map Tran.unread).sum + (st.trans.length - (st.i + 1)) < fuel
        omega
      | false =>
        simp only [heof, Bool.false_eq_true, if_false]
        obtain ⟨w, e, hleads, hround⟩ := mergeRound_merges hcs hup hasc hnul hu hst ht heof
        have hleast := hleads.isLeast hasc
        have hdrop := hleads.dropKey hasc
        rcases hround with ⟨st', hround, hst', hi', hofs, hless, hlen⟩ | ⟨⟨x, hround⟩, hplace⟩
        · rw [hround]
          simp only [Except.map]
          rcases ih hleads.reached hst' (by omega) with ⟨M, hM, hrun⟩ | hfail
          · rw [← hdrop] at hM
            rcases hofs with ⟨hofs, hmarked⟩ | ⟨hofs, hmarked⟩
            · have hhide : ¬ Unmarked ess w e :=
                fun h => h.elim (by simp [hmarked.1]) fun h => h hmarked.2
              exact .inl ⟨M, hM.hide habove hleast hhide, hofs ▸ hrun⟩
            · have hkeep : Unmarked ess w e := by
                cases hr : e.tRemove with
                | false => exact .inl hr
                | true => exact .inr fun h => hmarked ⟨hr, h⟩
              refine .inl ⟨(w, e) :: M, .cons habove hleast hkeep hM, ?_⟩
              rw [hrun, hofs, List.append_assoc]
              rfl
          · exact .inr hfail
        · rw [hround]
          exact .inr ⟨hplace, x, rfl⟩

/-- Merges that make the same lines keep the same winners. -/
theorem keep_of_written {keep keep' : Nat → LmergeEntry → Prop}
    (hasc : ∀ es ∈ ess, Ascending LmergeEntry.key es) {M M' : List (Nat × LmergeEntry)}
    (hM : IsMerge LmergeEntry.key keep ess M) (hM' : IsMerge LmergeEntry.key keep' ess M')
    (heq : (M.map fun x => x.2.written) = M'.map fun x => x.2.written) {i : Nat} {e : LmergeEntry}
    (hwins : Wins LmergeEntry.key ess i e) (hkeep : keep i e) : keep' i e := by
  have hmem : e.written ∈ M'.map fun x => x.2.written :=
    heq ▸ List.mem_map.mpr ⟨(i, e), (hM.mem_iff i e).mpr ⟨hwins, hkeep⟩, rfl⟩
  obtain ⟨⟨j, f⟩, hf, hwritten⟩ := List.mem_map.mp hmem
  obtain ⟨hfwins, hfkeep⟩ := (hM'.mem_iff j f).mp hf
  have hpath : f.tFilepath = e.tFilepath := congrArg Written.tFilepath hwritten
  have hkey : f.key = e.key := by
    unfold LmergeEntry.key
    rw [hpath]
  obtain ⟨rfl, rfl⟩ := hfwins.unique hasc hwins hkey
  exact hfkeep

theorem isMerge_congr {keep keep' : Nat → LmergeEntry → Prop} {M : List (Nat × LmergeEntry)}
    (hM : IsMerge LmergeEntry.key keep ess M)
    (h : ∀ i e, Wins LmergeEntry.key ess i e → (keep i e ↔ keep' i e)) :
    IsMerge LmergeEntry.key keep' ess M := by
  refine ⟨hM.ascending, fun i e => (hM.mem_iff i e).trans ⟨fun ⟨hw, hk⟩ => ?_, fun ⟨hw, hk⟩ => ?_⟩⟩
  · exact ⟨hw, (h i e hw).mp hk⟩
  · exact ⟨hw, (h i e hw).mpr hk⟩

/-- The lines that are kept are the right ones exactly where the marks are. -/
theorem marksTrue_iff : MarksTrue ess ↔ ∀ i e, Wins LmergeEntry.key ess i e →
    (Unmarked ess i e ↔ (e.tRemove = false ∨ ¬ ListedBelow ess i e.key)) := by
  constructor
  · intro h i e hwins
    cases hr : e.tRemove with
    | false => simp [Unmarked, hr]
    | true =>
      have hmark := h i e hwins hr
      simp [Unmarked, hr, hmark]
  · intro h i e hwins hr
    have hkeep := h i e hwins
    simp only [Unmarked, hr, Bool.true_eq_false, false_or] at hkeep
    exact not_iff_not.mp hkeep

/-- A merge makes the lines of the highest precedence exactly where its marks are right, and it
gets through where files get to their places. -/
theorem lmerge_mergedLines (hcs : cfg.caseSensitive = true) (hup : cfg.noupload = false)
    (hcount : 2 ≤ inputs.length) (hopens : List.Forall₂ (Opens cfg) inputs ess)
    (hasc : ∀ es ∈ ess, Ascending LmergeEntry.key es) :
    (∀ dest, lmerge cfg inputs = .ok dest → (MergedLines ess dest ↔ MarksTrue ess)) ∧
      (Placeable cfg inputs ess → ∃ dest, lmerge cfg inputs = .ok dest) := by
  obtain ⟨ts, buf, hopen, hlines, hroots⟩ := openTrans_lines hopens []
  have hnul : ∀ es ∈ ess, ∀ e ∈ es, NulFree e.tFilepath := by
    intro es hes
    obtain ⟨k, hk⟩ := List.mem_iff_getElem?.mp hes
    obtain ⟨input, -, hinput⟩ := forall₂_getElem? hopens hk
    exact hinput.nulFree
  have hstart : StandsAt cfg inputs ess ⊥ ⟨0, ts, buf, []⟩ := by
    refine ⟨?_, hroots, fun t ht => absurd ht (by simp)⟩
    rwa [along_bot]
  have hrun : lmerge cfg inputs =
      mergeLoop cfg ((ts.map Tran.unread).sum + ts.length + 1) ⟨0, ts, buf, []⟩ := by
    unfold lmerge
    rw [hup, Bool.false_and, if_neg (by simp), if_neg (by omega), hopen]
  have hbot : ess.map (above LmergeEntry.key ⊥) = ess := by
    conv_rhs => rw [← List.map_id ess]
    exact List.map_congr_left fun es _ => above_bot
  have hfuel : (ts.map Tran.unread).sum + (ts.length - 0) <
      (ts.map Tran.unread).sum + ts.length + 1 := by omega
  have hend := mergeLoop_merges hcs hup hasc hnul (.inl rfl) hstart hfuel
  rw [hbot, ← hrun] at hend
  rcases hend with ⟨M, hM, hok⟩ | ⟨hplace, x, herror⟩
  · refine ⟨fun dest hdest => ?_, fun _ => ⟨_, hok⟩⟩
    obtain rfl := Except.ok.inj (hok.symm.trans hdest)
    rw [marksTrue_iff]
    constructor
    · intro ⟨M', hM', heq⟩ i e hwins
      rw [List.nil_append] at heq
      exact ⟨keep_of_written hasc hM hM' heq hwins, keep_of_written hasc hM' hM heq.symm hwins⟩
    · intro hkeep
      exact ⟨M, isMerge_congr hM hkeep, rfl⟩
  · refine ⟨fun dest hdest => ?_, fun h => absurd h hplace⟩
    rw [hdest] at herror
    cases herror

end

/-! ### A '-' line whose path the second transcript lists again -/

def lmergeEntryOf (remove : Bool) (path line : String) (argv : List String) : LmergeEntry :=
  ⟨remove, lit path, lit line, argv.map lit⟩

/-- The lines of `/m` in all transcripts, and one of `/a` in the last. -/
def removedEntries : List (List LmergeEntry) :=
  [[lmergeEntryOf true "/m" "- d /m 0755 0 0\n" ["d", "/m", "0755", "0", "0"]],
   [lmergeEntryOf false "/m" "d /m 0755 0 0\n" ["d", "/m", "0755", "0", "0"]],
   [lmergeEntryOf false "/a" "d /a 0755 0 0\n" ["d", "/a", "0755", "0", "0"]]]

def removedInputs : List LmergeInput :=
  [inputOf "- d /m 0755 0 0\n", inputOf "d /m 0755 0 0\n", inputOf "d /a 0755 0 0\n"]

set_option maxRecDepth 8000 in
theorem removedInputs_open : List.Forall₂ (Opens sortedConfig) removedInputs removedEntries := by
  refine .cons ?_ (.cons ?_ (.cons ?_ .nil))
  all_goals exact ⟨_, fun _ => ⟨_, rfl⟩, .line rfl (fun _ => ⟨_, rfl⟩) (.atEnd rfl)⟩

theorem removedEntries_ascend : ∀ es ∈ removedEntries, Ascending LmergeEntry.key es := by
  intro es hes
  fin_cases hes
  all_goals exact List.pairwise_singleton _ _

theorem lmerge_mergedLines_removed :
    (∀ dest, lmerge sortedConfig removedInputs = .ok dest →
      (MergedLines removedEntries dest ↔ MarksTrue removedEntries)) ∧
    (Placeable sortedConfig removedInputs removedEntries →
      ∃ dest, lmerge sortedConfig removedInputs = .ok dest) :=
  lmerge_mergedLines rfl rfl (by decide) removedInputs_open removedEntries_ascend

set_option maxRecDepth 8000 in
/-- The mark of `/m` is gone when its turn comes after that of `/a`. -/
theorem not_lmerge_mergedLines :
    ¬ ∀ (cfg : LmergeConfig) (inputs : List LmergeInput) (ess : List (List LmergeEntry)),
      cfg.caseSensitive = true → cfg.noupload = false → 2 ≤ inputs.length →
      List.Forall₂ (Opens cfg) inputs ess → (∀ es ∈ ess, Ascending LmergeEntry.key es) →
      ∀ dest, lmerge cfg inputs = .ok dest → MergedLines ess dest := by
  intro h
  have hrun : lmerge sortedConfig removedInputs = .ok
      [⟨lit "/a", lit "d /a 0755 0 0\n"⟩, ⟨lit "/m", lit "- d /m 0755 0 0\n"⟩] := by decide
  obtain ⟨M, hM, heq⟩ :=
    h _ _ _ rfl rfl (by decide) removedInputs_open removedEntries_ascend _ hrun
  -- the line of `/m` in the destination is the '-' line of the first transcript
  have hmem : (⟨lit "/m", lit "- d /m 0755 0 0\n"⟩ : Written) ∈ M.map fun x => x.2.written := by
    rw [← heq]
    exact List.mem_cons_of_mem _ List.mem_cons_self
  obtain ⟨⟨i, e⟩, he, hwritten⟩ := List.mem_map.mp hmem
  obtain ⟨⟨⟨es, hes, hmem⟩, hfirst⟩, hkeep⟩ := (hM.mem_iff i e).mp he
  have hline : e.tLine = lit "- d /m 0755 0 0\n" := congrArg Written.tLine hwritten
  match i, hes with
  | 0, hes =>
    obtain rfl := Option.some.inj hes
    obtain rfl := List.mem_singleton.mp hmem
    refine hkeep.elim (by decide) fun hnot => hnot ⟨1, by decide, _, rfl, _, List.mem_cons_self, ?_⟩
    rfl
  | 1, hes =>
    obtain rfl := Option.some.inj hes
    obtain rfl := List.mem_singleton.mp hmem
    exact absurd hline (by decide)
  | 2, hes =>
    obtain rfl := Option.some.inj hes
    obtain rfl := List.mem_singleton.mp hmem
    exact absurd hline (by decide)
  | i + 3, hes => exact absurd hes (by simp [removedEntries])

end Radmind
