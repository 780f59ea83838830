import Radmind.Lib.SortedJoin
import Radmind.Transcript.Compare
import Radmind.Transcript.Merged

/-!
# The diff as a join

Seen from the merged transcripts, a run of `transcript` is the join of two sorted
sequences, the objects of the file system and the lines of the merge.  Each event
of the join is one call of `t_compare`.
-/

namespace Radmind

open PrecedenceMerge SortedJoin

/-- The lines of a merge with the transcripts they come from. -/
def tranLines (files : List TranFile) (M : List (Nat × PathInfo)) : List TranLine :=
  M.map fun x => ⟨x.1, files.getD x.1 ⟨.null, [], []⟩, x.2⟩

abbrev DiffEvent := Event PathInfo TranLine

def TranLine.key (caseSensitive : Bool) (t : TranLine) : List Nat := t.pinfo.key caseSensitive

/-- The transcript at its end, of which a line that is only on the file system
shows nothing. -/
def noLine : TranLine := ⟨0, ⟨.null, [], []⟩, .zero⟩

/-- `t_compare` on an event of the join. -/
def onEvent (cfg : DiffConfig) (pr : Printer) : DiffEvent → Except Exit Printer
  | .left p => tPrint cfg.print pr (some p) noLine .fsOnly
  | .right next t => tPrint cfg.print pr next t .tranOnly
  | .both p t => compareBoth cfg pr p t

def onEvents (cfg : DiffConfig) : Printer → List DiffEvent → Except Exit Printer
  | pr, [] => .ok pr
  | pr, ev :: evs =>
    match onEvent cfg pr ev with
    | .error e => .error e
    | .ok pr => onEvents cfg pr evs

/-- The events of one object, and the lines left after it. -/
def meetLines (cfg : DiffConfig) (p : PathInfo) (L : List TranLine) :
    List DiffEvent × List TranLine :=
  meet (PathInfo.key cfg.caseSensitive) (TranLine.key cfg.caseSensitive) p L

/-- A run of `transcript` on the lines of the merge. -/
def joinRun (cfg : DiffConfig) : Printer → List FsEntry → List TranLine → Except Exit Printer
  | pr, [], L => onEvents cfg { pr with fsMinus := false } (L.map (.right none))
  | pr, e :: F, L =>
    if skips cfg e then joinRun cfg { pr with fsMinus := false } F L
    else
      let d := describe pr.devHead e
      match onEvents cfg { pr with fsMinus := false, devHead := d.1 } (meetLines cfg d.2 L).1 with
      | .error e => .error e
      | .ok pr => joinRun cfg pr F (meetLines cfg d.2 L).2

/-! ## The run refines the join -/

/-- A call ends as the join does, with cursors that stand for the lines `L`. -/
inductive Follows (cfg : DiffConfig) (files : List TranFile) (L : List TranLine) :
    Except Exit (Run × Nat) → Except Exit Printer → Prop
  | error (e : Exit) : Follows cfg files L (.error e) (.error e)
  | ok {c : Cursors} {pr : Printer} {enter : Nat} {M : List (Nat × PathInfo)} :
      Holds cfg.toSelectConfig files c M → tranLines files M = L →
      Follows cfg files L (.ok (⟨c, pr⟩, enter)) (.ok pr)

section

variable {cfg : DiffConfig} {files : List TranFile} {c : Cursors} {M : List (Nat × PathInfo)}

theorem Holds.names (h : Holds cfg.toSelectConfig files c M) :
    ∀ x ∈ M, NameOk cfg.caseSensitive x.2 := by
  obtain ⟨ess, hready, -, hM⟩ := h
  intro x hx
  obtain ⟨⟨⟨es, hes, hmem⟩, -⟩, -⟩ := (hM.mem_iff x.1 x.2).mp hx
  exact hready.names es (List.mem_of_getElem? hes) x.2 hmem

theorem Holds.tranLine (h : Holds cfg.toSelectConfig files c M) {i : Nat} {t : Transcript}
    (ht : c.tranHead[i]? = some t) :
    t.tranLine i = ⟨i, files.getD i ⟨.null, [], []⟩, t.tPinfo⟩ := by
  obtain ⟨-, -, hfiles, -⟩ := h
  rw [← hfiles, List.getD_eq_getElem?_getD, List.getElem?_map, ht]
  rfl

/-- The line of an object that is on the file system only does not depend on the
transcript. -/
theorem tPrint_fsOnly {pcfg : PrintConfig} {p : PathInfo}
    (hX : pcfg.editPath = .creatable → p.piType ≠ .X) (pr : Printer) (t t' : TranLine) :
    tPrint pcfg pr (some p) t .fsOnly = tPrint pcfg pr (some p) t' .fsOnly := by
  have hheader : ∀ (pr : Printer) (t : TranLine), printHeader pcfg pr t .fsOnly = pr := by
    intro pr t
    simp [printHeader]
  have hcur : ∀ t, printCur pcfg (some p) t .fsOnly = some p := by
    intro t
    cases he : pcfg.editPath with
    | applicable => simp [printCur, he]
    | creatable => simp [printCur, printMinus, he, hX he]
  simp only [tPrint, hheader, hcur]

theorem tCompare_eof {fs : Option PathInfo} (pr : Printer) (t : TranLine) :
    tCompare cfg pr fs true t =
      if fs = none then .ok (pr, .fs) else (tPrint cfg.print pr fs t .fsOnly).map (·, .fs) := by
  cases fs with
  | none => rfl
  | some p =>
    rw [if_neg (by simp)]
    unfold tCompare
    simp only [if_true, show ¬ (-1 : Int) > 0 by decide, show (-1 : Int) < 0 by decide, if_false]
    cases tPrint cfg.print pr (some p) t .fsOnly <;> rfl

theorem tCompare_none (pr : Printer) (t : TranLine) :
    tCompare cfg pr none false t = (tPrint cfg.print pr none t .tranOnly).map (·, .tran) := by
  unfold tCompare
  simp only [Bool.false_eq_true, if_false]
  cases tPrint cfg.print pr none t .tranOnly <;> rfl

/-- The three ways `t_compare` goes on an object and a line. -/
theorem tCompare_some {p : PathInfo} {t : TranLine} (pr : Printer)
    (hp : Ranked cfg.caseSensitive p.piName) (ht : Ranked cfg.caseSensitive t.pinfo.piName) :
    (t.key cfg.caseSensitive < p.key cfg.caseSensitive → tCompare cfg pr (some p) false t =
      (tPrint cfg.print pr (some p) t .tranOnly).map (·, .tran)) ∧
    (p.key cfg.caseSensitive < t.key cfg.caseSensitive → tCompare cfg pr (some p) false t =
      (tPrint cfg.print pr (some p) t .fsOnly).map (·, .fs)) ∧
    (p.key cfg.caseSensitive = t.key cfg.caseSensitive → tCompare cfg pr (some p) false t =
      (compareBoth cfg pr p t).map (·, .both)) := by
  have hneg := pathcasecmp_neg hp ht
  have hpos := pathcasecmp_pos hp ht
  have heq := pathcasecmp_eq_zero hp ht
  unfold tCompare
  simp only [Bool.false_eq_true, if_false]
  refine ⟨fun h => ?_, fun h => ?_, fun h => ?_⟩
  · rw [if_pos (show pathcasecmp p.piName t.pinfo.piName cfg.caseSensitive > 0 from hpos.mpr h)]
    cases tPrint cfg.print pr (some p) t .tranOnly <;> rfl
  · have hlt := hneg.mpr h
    rw [if_neg (by omega), if_pos hlt]
    cases tPrint cfg.print pr (some p) t .fsOnly <;> rfl
  · have hzero := heq.mpr h
    rw [if_neg (by omega), if_neg (by omega)]
    cases compareBoth cfg pr p t <;> rfl

/-- The loop of `transcript` on an object runs through the events of the object. -/
theorem compareLoop_some {p : PathInfo} (hp : Ranked cfg.caseSensitive p.piName)
    (hX : cfg.editPath = .creatable → p.piType ≠ .X) (enter : Nat) {fuel : Nat} (pr : Printer)
    (h : Holds cfg.toSelectConfig files c M) (hfuel : c.unread < fuel) :
    Follows cfg files (meetLines cfg p (tranLines files M)).2
      (compareLoop cfg (some p) enter fuel ⟨c, pr⟩)
      (onEvents cfg pr (meetLines cfg p (tranLines files M)).1) := by
  induction fuel generalizing c M pr with
  | zero => omega
  | succ fuel ih =>
    obtain ⟨d, i, hsel, hholds, -, hfront⟩ := h.select
    rw [compareLoop]
    simp only [hsel]
    obtain ⟨t, hget, heof, rfl⟩ | ⟨t, M', d', hget, heof, rfl, hadv, hrest⟩ := hfront
    · -- all transcripts are at their end
      simp only [hget, heof, tCompare_eof, tranLines, List.map_nil, meetLines, meet, onEvents,
        onEvent]
      rw [if_neg (by simp), tPrint_fsOnly hX pr (t.tranLine i) noLine]
      cases tPrint cfg.print pr (some p) noLine .fsOnly with
      | error e => exact .error e
      | ok pr => exact .ok hholds rfl
    · have hline := hholds.tranLine hget
      have hlines : tranLines files ((i, t.tPinfo) :: M') =
          t.tranLine i :: tranLines files M' := by
        rw [hline]
        rfl
      have hname : Ranked cfg.caseSensitive (t.tranLine i).pinfo.piName :=
        (hholds.names _ List.mem_cons_self).1
      obtain ⟨hgt, hlt, heq⟩ := tCompare_some pr hp hname
      simp only [hget, heof]
      rw [hlines, meetLines, meet]
      by_cases hless : (t.tranLine i).key cfg.caseSensitive < p.key cfg.caseSensitive
      · -- the line is in the transcript only
        rw [if_pos hless, hgt hless]
        simp only [onEvents, onEvent]
        cases tPrint cfg.print pr (some p) (t.tranLine i) .tranOnly with
        | error e => exact .error e
        | ok pr' =>
          simp only [Except.map, hadv]
          have hle := selectLoop_unread_le hsel
          have hunread := advance_unread_lt hget heof hadv
          exact ih _ hrest (by omega)
      · rw [if_neg hless]
        by_cases hmore : p.key cfg.caseSensitive < (t.tranLine i).key cfg.caseSensitive
        · -- the object is on the file system only
          rw [if_pos hmore, hlt hmore, tPrint_fsOnly hX pr (t.tranLine i) noLine]
          simp only [onEvents, onEvent]
          cases tPrint cfg.print pr (some p) noLine .fsOnly with
          | error e => exact .error e
          | ok pr' => exact .ok hholds hlines
        · rw [if_neg hmore, heq (le_antisymm (not_lt.mp hless) (not_lt.mp hmore))]
          simp only [onEvents, onEvent]
          cases compareBoth cfg pr p (t.tranLine i) with
          | error e => exact .error e
          | ok pr' =>
            simp only [Except.map, hadv]
            exact .ok hrest rfl

/-- After the objects the loop prints the lines that are left. -/
theorem compareLoop_none (enter : Nat) {fuel : Nat} (pr : Printer)
    (h : Holds cfg.toSelectConfig files c M) (hfuel : c.unread < fuel) :
    Follows cfg files [] (compareLoop cfg none enter fuel ⟨c, pr⟩)
      (onEvents cfg pr ((tranLines files M).map (.right none))) := by
  induction fuel generalizing c M pr with
  | zero => omega
  | succ fuel ih =>
    obtain ⟨d, i, hsel, hholds, -, hfront⟩ := h.select
    rw [compareLoop]
    simp only [hsel]
    obtain ⟨t, hget, heof, rfl⟩ | ⟨t, M', d', hget, heof, rfl, hadv, hrest⟩ := hfront
    · simp only [hget, heof, tCompare_eof, tranLines, List.map_nil, onEvents]
      exact .ok hholds rfl
    · have hline := hholds.tranLine hget
      have hlines : tranLines files ((i, t.tPinfo) :: M') =
          t.tranLine i :: tranLines files M' := by
        rw [hline]
        rfl
      simp only [hget, heof, tCompare_none]
      rw [hlines, List.map_cons]
      simp only [onEvents, onEvent]
      cases tPrint cfg.print pr none (t.tranLine i) .tranOnly with
      | error e => exact .error e
      | ok pr' =>
        simp only [Except.map, hadv]
        have hle := selectLoop_unread_le hsel
        have hlt := advance_unread_lt hget heof hadv
        exact ih _ hrest (by omega)

theorem Holds.of_tranHead (h : Holds cfg.toSelectConfig files c M) {c' : Cursors}
    (hc : c'.tranHead = c.tranHead) : Holds cfg.toSelectConfig files c' M := by
  obtain ⟨ess, hready, hfiles, hM⟩ := h
  exact ⟨ess, ⟨hc ▸ hready.lists, hc ▸ hready.nulls, hready.names, hc ▸ hready.nonempty⟩,
    hc ▸ hfiles, hM⟩

theorem named_name (e : FsEntry) : e.named.piName = e.path ∧ e.named.piType = e.type := by
  unfold FsEntry.named
  split <;> exact ⟨rfl, rfl⟩

/-- The record of an object: of its own type, or a hard link. -/
theorem describe_cases (devHead : List Devlist) (e : FsEntry) :
    (describe devHead e).2 = e.named ∨
      ∃ linkpath, (describe devHead e).2 = e.further linkpath := by
  unfold describe
  by_cases hl : e.linked
  · rw [if_pos hl]
    split
    · next linkpath _ => exact .inr ⟨linkpath, rfl⟩
    · exact .inl rfl
  · rw [if_neg hl]
    exact .inl rfl

theorem describe_name (devHead : List Devlist) (e : FsEntry) :
    (describe devHead e).2.piName = e.path := by
  rcases describe_cases devHead e with h | ⟨linkpath, h⟩
  · rw [h, (named_name e).1]
  · rw [h]
    rfl

theorem describe_type (devHead : List Devlist) (e : FsEntry) :
    (describe devHead e).2.piType = e.type ∨ (describe devHead e).2.piType = .h := by
  rcases describe_cases devHead e with h | ⟨linkpath, h⟩
  · exact .inl (by rw [h, (named_name e).2])
  · exact .inr (by rw [h]; rfl)

/-- A whole run of `transcript` prints what the join of the objects with the merge
prints. -/
theorem transcriptRun_join (pr : Printer) {F : List FsEntry}
    (hF : ∀ e ∈ F, Ranked cfg.caseSensitive e.path ∧ (cfg.editPath = .creatable → e.type ≠ .X))
    (h : Holds cfg.toSelectConfig files c M) :
    (transcriptRun cfg ⟨c, pr⟩ F).map (·.printer) = joinRun cfg pr F (tranLines files M) := by
  induction F generalizing c pr M with
  | nil =>
    rw [transcriptRun, joinRun, transcript]
    have := compareLoop_none 0 { pr with fsMinus := false } h (Nat.lt_succ_self _)
    revert this
    generalize compareLoop cfg _ _ _ _ = x
    generalize onEvents cfg _ _ = y
    rintro (e | ⟨hc, hL⟩)
    · rfl
    · rfl
  | cons e F ih =>
    have hF' := fun e he => hF e (List.mem_cons_of_mem _ he)
    rw [transcriptRun, joinRun, transcript]
    simp only
    by_cases hskip : skips cfg e = true
    · rw [if_pos hskip, if_pos hskip]
      have hwarn : Holds cfg.toSelectConfig files
          (if cfg.excludeWarnings then { c with warned := c.warned ++ [e.path] } else c) M :=
        h.of_tranHead (by split <;> rfl)
      obtain ⟨c', i, hsel, hs⟩ := hwarn.select
      simp only [hsel]
      exact ih _ hF' hs.holds
    · rw [if_neg hskip, if_neg hskip]
      have hp : Ranked cfg.caseSensitive (describe pr.devHead e).2.piName := by
        rw [describe_name]
        exact (hF e List.mem_cons_self).1
      have hX : cfg.editPath = .creatable → (describe pr.devHead e).2.piType ≠ .X := by
        intro hc
        rcases describe_type pr.devHead e with ht | ht
        · rw [ht]
          exact (hF e List.mem_cons_self).2 hc
        · rw [ht]
          decide
      have := compareLoop_some hp hX (if e.st.isDir then 1 else 0)
        { pr with fsMinus := false, devHead := (describe pr.devHead e).1 } h (Nat.lt_succ_self _)
      revert this
      generalize compareLoop cfg _ _ _ _ = x
      generalize onEvents cfg _ _ = y
      rintro (e | ⟨hc, hL⟩)
      · rfl
      · exact hL ▸ ih _ hF' hc

end

end Radmind
