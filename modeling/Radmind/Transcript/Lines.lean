import Radmind.Transcript.Steps

/-!
# The lines of a run

The object lines of the output, each with the header it stands under, and how they
follow the events of the run.
-/

namespace Radmind

open SortedJoin

/-- A line of an object with the last header above it. -/
structure ObjectLine where
  header : Option CStr
  isMinus : Bool
  isPlus : Bool
  pinfo : PathInfo
  deriving DecidableEq, Repr

/-- The object lines of an output after the header `h`. -/
def objectLines : Option CStr → List OutLine → List ObjectLine
  | _, [] => []
  | _, .header shortname :: ls => objectLines (some shortname) ls
  | h, .object isMinus isPlus pinfo :: ls => ⟨h, isMinus, isPlus, pinfo⟩ :: objectLines h ls

def lastHeader : Option CStr → List OutLine → Option CStr
  | h, [] => h
  | _, .header shortname :: ls => lastHeader (some shortname) ls
  | h, .object _ _ _ :: ls => lastHeader h ls

theorem objectLines_append (h : Option CStr) (out out' : List OutLine) :
    objectLines h (out ++ out') = objectLines h out ++ objectLines (lastHeader h out) out' := by
  induction out generalizing h with
  | nil => rfl
  | cons l out ih =>
    cases l with
    | header shortname => exact ih (some shortname)
    | object isMinus isPlus pinfo => exact congrArg (_ :: ·) (ih h)

theorem lastHeader_append (h : Option CStr) (out out' : List OutLine) :
    lastHeader h (out ++ out') = lastHeader (lastHeader h out) out' := by
  induction out generalizing h with
  | nil => rfl
  | cons l out ih =>
    cases l with
    | header shortname => exact ih (some shortname)
    | object isMinus isPlus pinfo => exact ih h

/-- `prev_tran` is the transcript of the last header. -/
def HeaderOk (files : List TranFile) (pr : Printer) : Prop :=
  ∀ j, pr.prevTran = some j →
    lastHeader none pr.outtran = some (files.getD j ⟨.null, [], []⟩).tShortname

/-- A line of the merge knows its transcript. -/
def TranLine.Of (files : List TranFile) (t : TranLine) : Prop :=
  t.file = files.getD t.index ⟨.null, [], []⟩

/-- A call of `t_print` adds one object line, under the header of its transcript
where the flag asks for one. -/
theorem PrintedAs.objectLines {cfg : PrintConfig} {files : List TranFile} {pr pr' : Printer}
    {fs : Option PathInfo} {t : TranLine} {flag : PrFlag} {record : PathInfo}
    (h : PrintedAs cfg pr fs t flag record pr') (ht : flag ≠ .fsOnly → t.Of files)
    (hok : HeaderOk files pr) : HeaderOk files pr' ∧ ∃ header isPlus,
      objectLines none pr'.outtran = objectLines none pr.outtran ++
        [⟨header, printMinus cfg fs flag, isPlus, record⟩] ∧
      isPlus = (record.piType.isFile && cfg.editPath = .applicable &&
        (flag = .tranOnly || flag = .download)) ∧
      (isPlus = true → header = some t.file.tShortname) := by
  obtain ⟨-, hprev, hout⟩ := h
  -- the state after the header
  have hheader : HeaderOk files (printHeader cfg pr t flag) ∧
      Radmind.objectLines none (printHeader cfg pr t flag).outtran =
        Radmind.objectLines none pr.outtran ∧
      (cfg.editPath = .applicable → flag = .tranOnly ∨ flag = .download →
        lastHeader none (printHeader cfg pr t flag).outtran = some t.file.tShortname) := by
    unfold printHeader
    split
    · next hc =>
      have hfs : flag ≠ .fsOnly := by
        rcases hc.2.1 with rfl | rfl | rfl <;> simp
      have hlast : lastHeader none (pr.outtran ++ [.header t.file.tShortname]) =
          some t.file.tShortname := by
        rw [lastHeader_append]
        rfl
      refine ⟨fun j hj => ?_, ?_, fun _ _ => hlast⟩
      · obtain rfl := Option.some.inj hj
        rw [hlast, ht hfs]
      · rw [objectLines_append]
        exact List.append_nil _
    · next hc =>
      refine ⟨hok, rfl, fun happ hflag => ?_⟩
      have hprev : pr.prevTran = some t.index := by
        by_contra hne
        exact hc ⟨happ, hflag.imp_right .inl, hne⟩
      have hfs : flag ≠ .fsOnly := by
        rcases hflag with rfl | rfl <;> simp
      rw [hok _ hprev, ht hfs]
  obtain ⟨hheaderOk, hlines, hname⟩ := hheader
  refine ⟨fun j hj => ?_, lastHeader none (printHeader cfg pr t flag).outtran, _, ?_, rfl,
    fun hplus => ?_⟩
  · rw [hout, lastHeader_append]
    exact hheaderOk j (hprev ▸ hj)
  · rw [hout, objectLines_append, hlines]
    rfl
  · simp only [Bool.and_eq_true, Bool.or_eq_true, decide_eq_true_eq] at hplus
    exact hname hplus.1.2 hplus.2

/-! ## The lines of the events -/

/-- What orders the events of a run. -/
abbrev eventKey (cfg : DiffConfig) (ev : DiffEvent) : List Nat :=
  ev.key (PathInfo.key cfg.caseSensitive) (TranLine.key cfg.caseSensitive)

/-- At most one line, and of the event's path. -/
def OneLine (cfg : DiffConfig) (ev : DiffEvent) (ls : List ObjectLine) : Prop :=
  ls = [] ∨ ∃ l, ls = [l] ∧ l.pinfo.key cfg.caseSensitive = eventKey cfg ev

/-- The lines are those of the events, in their order, where `R` says which lines an
event has after the events before it. -/
structure LinesOf (cfg : DiffConfig) (R : List DiffEvent → DiffEvent → List ObjectLine → Prop)
    (evs : List DiffEvent) (lines : List ObjectLine) : Prop where
  each : ∀ pre ev post, evs = pre ++ ev :: post →
    R pre ev (lines.filter fun l => l.pinfo.key cfg.caseSensitive = eventKey cfg ev)
  only : ∀ l ∈ lines, ∃ ev ∈ evs, eventKey cfg ev = l.pinfo.key cfg.caseSensitive
  ascending : lines.Pairwise fun l l' =>
    l.pinfo.key cfg.caseSensitive < l'.pinfo.key cfg.caseSensitive

section

variable {cfg : DiffConfig} {R : List DiffEvent → DiffEvent → List ObjectLine → Prop}
  {pre : List DiffEvent} {ev : DiffEvent}

theorem LinesOf.nil : LinesOf cfg R [] [] :=
  ⟨fun pre ev post h => by simp at h, fun l hl => absurd hl List.not_mem_nil, List.Pairwise.nil⟩

theorem LinesOf.snoc {lines ls : List ObjectLine} (h : LinesOf cfg R pre lines)
    (hlast : ∀ ev' ∈ pre, eventKey cfg ev' < eventKey cfg ev) (hls : R pre ev ls)
    (hone : OneLine cfg ev ls) : LinesOf cfg R (pre ++ [ev]) (lines ++ ls) := by
  have hbefore : ∀ l ∈ lines, l.pinfo.key cfg.caseSensitive < eventKey cfg ev := by
    intro l hl
    obtain ⟨ev', hev', hkey⟩ := h.only l hl
    exact hkey ▸ hlast ev' hev'
  have hkeys : ∀ l ∈ ls, l.pinfo.key cfg.caseSensitive = eventKey cfg ev := by
    intro l hl
    rcases hone with rfl | ⟨l', rfl, hkey⟩
    · exact absurd hl List.not_mem_nil
    · exact List.mem_singleton.mp hl ▸ hkey
  constructor
  · intro pre' ev' post hsplit
    rw [List.filter_append]
    rcases List.eq_nil_or_concat post with rfl | ⟨post, x, rfl⟩
    · -- the new event
      obtain ⟨rfl, hev⟩ := List.append_inj' hsplit rfl
      obtain rfl := List.singleton_inj.mp hev
      have hold : (lines.filter fun l => l.pinfo.key cfg.caseSensitive = eventKey cfg ev) = [] :=
        List.filter_eq_nil_iff.mpr fun l hl => by simpa using (hbefore l hl).ne
      have hnew : (ls.filter fun l => l.pinfo.key cfg.caseSensitive = eventKey cfg ev) = ls :=
        List.filter_eq_self.mpr fun l hl => by simpa using hkeys l hl
      rwa [hold, hnew, List.nil_append]
    · -- an earlier one
      have hsplit' : pre ++ [ev] = (pre' ++ ev' :: post) ++ [x] := by simpa using hsplit
      obtain ⟨rfl, -⟩ := List.append_inj' hsplit' rfl
      have hnew : (ls.filter fun l => l.pinfo.key cfg.caseSensitive = eventKey cfg ev') = [] := by
        refine List.filter_eq_nil_iff.mpr fun l hl => ?_
        have := hlast ev' (by simp)
        simpa [hkeys l hl] using this.ne'
      rw [hnew, List.append_nil]
      exact h.each pre' ev' post rfl
  · intro l hl
    rcases List.mem_append.mp hl with hl | hl
    · obtain ⟨ev', hev', hkey⟩ := h.only l hl
      exact ⟨ev', List.mem_append_left _ hev', hkey⟩
    · exact ⟨ev, by simp, (hkeys l hl).symm⟩
  · refine List.pairwise_append.mpr ⟨h.ascending, ?_, fun l hl l' hl' => ?_⟩
    · rcases hone with rfl | ⟨l, rfl, -⟩
      · exact List.Pairwise.nil
      · exact List.pairwise_singleton _ _
    · exact (hkeys l' hl').symm ▸ hbefore l hl

/-- What an event prints after any steps is what a run of events in order prints. -/
theorem Steps.linesOf {F : List FsEntry} {evs : List DiffEvent} {pr : Printer}
    (h : Steps cfg F evs pr) (files : List TranFile)
    (hasc : evs.Pairwise fun ev ev' => eventKey cfg ev < eventKey cfg ev')
    (hstep : ∀ {pre : List DiffEvent} {pr pr' : Printer}, ∀ ev ∈ evs, Outcome cfg F pre pr ev pr' →
      HeaderOk files pr → HeaderOk files pr' ∧ ∃ ls,
        objectLines none pr'.outtran = objectLines none pr.outtran ++ ls ∧ R pre ev ls ∧
          OneLine cfg ev ls) :
    HeaderOk files pr ∧ LinesOf cfg R evs (objectLines none pr.outtran) := by
  induction h with
  | start hprev hout =>
    refine ⟨fun j hj => by simp [hprev] at hj, ?_⟩
    rw [hout]
    exact .nil
  | @step pre pr pr' ev hpre hout ih =>
    obtain ⟨hascpre, -, hlast⟩ := List.pairwise_append.mp hasc
    obtain ⟨hok, hlines⟩ := ih hascpre fun ev' hev' =>
      hstep ev' (List.mem_append_left _ hev')
    obtain ⟨hok', ls, hls, hR, hone⟩ := hstep ev (by simp) hout hok
    rw [hls]
    exact ⟨hok', hlines.snoc (fun ev' hev' => hlast ev' hev' ev (by simp)) hR hone⟩
  | pass hpre hprev hout ih =>
    obtain ⟨hok, hlines⟩ := ih hasc hstep
    rw [HeaderOk, hprev, hout]
    exact ⟨hok, hlines⟩

end

end Radmind
