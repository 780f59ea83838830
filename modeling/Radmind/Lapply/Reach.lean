import Radmind.Lapply.Frame
import Radmind.Lapply.Main

/-!
# The steps of a run

`Reach` says which states a run goes through, with the place in `main` it is at.  Each
rule is one step, and every run is made of them.
-/

namespace Radmind

open RunRelation

variable {σ : Type}

/-! ## Lines -/

/-- The name that a header line gives the transcript. -/
def headerOf (line : List Byte) : Option CStr :=
  match lineWords (cstr line) with
  | [word] => if word.head? = some hash then none else some word.dropLast
  | _ => none

/-- The header nearest above the lines behind the first `n`. -/
def headerAbove (lines : List (List Byte)) (n : Nat) : CStr :=
  ((lines.take n).filterMap headerOf).getLast?.getD []

/-- The sign of a line, and NUL for a line that has none. -/
def lineSign (tline : CStr) : Byte := (signedWords tline).1

/-- The text of a line, by its number. -/
def textOf (lines : List (List Byte)) (n : Nat) : CStr := cstr (lines.getD (n - 1) [])

theorem textOf_eq {lines : List (List Byte)} {n : Nat} {line : List Byte}
    (h : lines[n]? = some line) : textOf lines (n + 1) = cstr line := by
  rw [textOf, Nat.add_sub_cancel, List.getD_eq_getElem?_getD, h]
  rfl

/-- The first byte of the type of a line. -/
def lineType (tline : CStr) : Byte := ((signedWords tline).2.headD []).headD nul

/-! ## Places -/

/-- A line that acts: its path and text, what was found at the path, and `*command`. -/
structure Acting where
  path : CStr
  tline : CStr
  found : FileType
  command : Byte

/-- `present && fstype != *targv[ 0 ]` -/
def Acting.differs (a : Acting) : Bool := a.found ≠ .X && a.found.letter ≠ lineType a.tline

/-- What is there has to go before the line is carried out. -/
def Acting.removes (a : Acting) : Bool := a.command = minus || a.differs

/-- The line is the one with this number, and its sign is in `*command`. -/
structure Acting.Of (a : Acting) (lines : List (List Byte)) (n : Nat) : Prop where
  nulFree : NulFree a.path
  line : ∃ line, lines[n - 1]? = some line ∧ a.tline = cstr line
  command : lineSign a.tline ≠ nul → a.command = lineSign a.tline

theorem Acting.Of.text {a : Acting} {lines : List (List Byte)} {n : Nat} (h : a.Of lines n) :
    a.tline = textOf lines n := by
  obtain ⟨line, hline, htline⟩ := h.line
  rw [htline, textOf, List.getD_eq_getElem?_getD, hline]
  rfl

/-- Places in `main`: between two lines, behind a line that was read, at one that acts and
at one that has removed what was there, behind the last line, and behind an error.  The
others are inside of a removal and of `do_line`, and know where to go on. -/
inductive Place
  | idle
  | read
  | live (a : Acting)
  | cleared (a : Acting)
  | ended
  | failed
  | popped (n : Node) (back : Place)
  | running (line : Nat) (path tline tran : CStr) (back : Place)

/-- Where the head of the list is removed: at a line outside of it, and at the end. -/
def Place.Leaves (cs : Bool) (n : Node) : Place → Prop
  | live a | cleared a => ischildcase a.path (some n.path) cs = false
  | ended => True
  | _ => False

/-- The path is below the head of the list, or the list is empty. -/
def OnTop (cs : Bool) (path : CStr) (head : List Node) : Prop :=
  ∀ n ∈ head.head?, ischildcase path (some n.path) cs = true

/-- What `lstat` says about a path. -/
def Found (os : Os σ) (s : σ) (path : CStr) (found : FileType) : Prop :=
  (∃ st, os.lstat s path = .found st ∧ st.fileType = some found) ∨
    os.lstat s path = .enoent ∧ found = .X

/-- The node for a line whose path a directory occupies. -/
def waiting (a : Acting) (w : World σ) : Node :=
  { line := w.linenum, path := a.path, tline := if a.differs then some a.tline else none
    tran := if a.differs then w.transcript else [] }

/-! ## Steps -/

/-- The states that a run for the lines goes through. -/
inductive Reach (os : Os σ) (cs force : Bool) (lines : List (List Byte)) (init : σ) :
    Place → World σ → Prop
  | start (network : Bool) : Reach os cs force lines init .idle (World.start init network)
  | quiet {at_ : Place} {w w' : World σ} : Reach os cs force lines init at_ w →
      Frame os (fun _ _ _ => False) w w' → Reach os cs force lines init at_ w'
  | header {w : World σ} {line : List Byte} {name : CStr} : Reach os cs force lines init .idle w →
      lines[w.linenum]? = some line → headerOf line = some name →
      Reach os cs force lines init .idle
        { w with linenum := w.linenum + 1, transcript := name, special := name = lit "special.T" }
  | badHeader {w : World σ} {word : CStr} : Reach os cs force lines init .idle w →
      Reach os cs force lines init .failed { w with linenum := w.linenum + 1, transcript := word }
  | read {w : World σ} {line : List Byte} : Reach os cs force lines init .idle w →
      lines[w.linenum]? = some line → headerOf line = none →
      Reach os cs force lines init .read { w with linenum := w.linenum + 1 }
  | skip {w : World σ} : Reach os cs force lines init .read w →
      lineSign (textOf lines w.linenum) ≠ minus → Reach os cs force lines init .idle w
  | begin {w : World σ} {a : Acting} : Reach os cs force lines init .read w → a.Of lines w.linenum →
      Found os w.os a.path a.found →
      Reach os cs force lines init (.live a)
        { w with trace := w.trace ++ [.begin w.linenum a.path a.found] }
  | pop {at_ : Place} {w : World σ} {n : Node} {rest : List Node} :
      Reach os cs force lines init at_ w → w.head = n :: rest → at_.Leaves cs n →
      (os.sys (.rmdir n.path) w.os).1 = .ok →
      Reach os cs force lines init (.popped n at_)
        { w with os := (os.sys (.rmdir n.path) w.os).2, head := rest
                 trace := w.trace ++ [.call (.rmdir n.path) .ok] ++ [.rmdir n] }
  | removed {at_ : Place} {w : World σ} {n : Node} : Reach os cs force lines init (.popped n at_) w →
      n.tline = none → Reach os cs force lines init at_ w
  | runNode {at_ : Place} {w : World σ} {n : Node} {tline : CStr} :
      Reach os cs force lines init (.popped n at_) w → n.tline = some tline →
      Reach os cs force lines init (.running n.line n.path tline n.tran at_)
        { w with trace := w.trace ++ [.doLine n.line n.path] }
  | push {w : World σ} {a : Acting} : Reach os cs force lines init (.live a) w →
      OnTop cs a.path w.head → a.removes = true → a.found = .d →
      Reach os cs force lines init .idle
        { w with head := waiting a w :: w.head, trace := w.trace ++ [.push (waiting a w)] }
  | unlink {w : World σ} {a : Acting} {r : SysResult} : Reach os cs force lines init (.live a) w →
      OnTop cs a.path w.head → a.removes = true → a.found ≠ .d →
      (os.sys (.unlink a.path) w.os).1 = r → (r = .ok ∨ force = true ∧ r = .enoent) →
      Reach os cs force lines init (if a.command = minus then .idle else .cleared a)
        { w with os := (os.sys (.unlink a.path) w.os).2
                 trace := w.trace ++ [.unlink w.linenum a.path] ++ [.call (.unlink a.path) r] }
  | runLine {at_ : Place} {w : World σ} {a : Acting} : Reach os cs force lines init at_ w →
      (at_ = .live a ∧ a.removes = false ∨ at_ = .cleared a) → OnTop cs a.path w.head →
      Reach os cs force lines init (.running w.linenum a.path a.tline w.transcript .idle)
        { w with trace := w.trace ++ [.doLine w.linenum a.path] }
  | work {line : Nat} {path tline tran : CStr} {at_ : Place} {w w' : World σ} :
      Reach os cs force lines init (.running line path tline tran at_) w →
      Frame os (LineEvent line tran tline) w w' →
      Reach os cs force lines init (.running line path tline tran at_) w'
  | done {line : Nat} {path tline tran : CStr} {at_ : Place} {w : World σ} :
      Reach os cs force lines init (.running line path tline tran at_) w →
      Reach os cs force lines init at_
        { w with trace := w.trace ++ [.done line path], change := true }
  | finish {w : World σ} : Reach os cs force lines init .idle w → w.linenum = lines.length →
      Reach os cs force lines init .ended w
  /-- A call of `main` that fails ends the run. -/
  | fail {at_ : Place} {w : World σ} {c : SysCall} (evs : List Action) :
      Reach os cs force lines init at_ w → (os.sys c w.os).1 ≠ .ok →
      (evs = [] ∨ ∃ path, evs = [.unlink w.linenum path]) →
      Reach os cs force lines init .failed
        { w with os := (os.sys c w.os).2
                 trace := w.trace ++ evs ++ [.call c (os.sys c w.os).1] }

/-- A place to go on at behind a removal or `do_line`. -/
def Place.Plain : Place → Prop
  | idle | live _ | cleared _ | ended => True
  | _ => False

/-- The place to go on at is a plain one, and a line that was read has a number. -/
def Place.Nested (linenum : Nat) : Place → Prop
  | popped _ back | running _ _ _ _ back => back.Plain
  | read => 0 < linenum
  | _ => True

theorem Place.Plain.nested {at_ : Place} (h : at_.Plain) (linenum : Nat) :
    at_.Nested linenum := by
  cases at_ with
  | popped n back => exact h.elim
  | running line path tline tran back => exact h.elim
  | read => exact h.elim
  | _ => trivial

theorem Place.Plain.ne_failed {at_ : Place} (h : at_.Plain) : at_ ≠ .failed := by
  rintro rfl
  exact h

theorem Place.Leaves.plain {cs : Bool} {n : Node} {at_ : Place} (h : at_.Leaves cs n) :
    at_.Plain := by
  cases at_ with
  | live a => trivial
  | cleared a => trivial
  | ended => trivial
  | _ => exact h.elim

theorem Reach.nested {os : Os σ} {cs force : Bool} {lines : List (List Byte)} {init : σ}
    {at_ : Place} {w : World σ} (h : Reach os cs force lines init at_ w) :
    at_.Nested w.linenum := by
  induction h with
  | quiet _ hf ih =>
    rw [hf.linenum]
    exact ih
  | work _ hf ih =>
    rw [hf.linenum]
    exact ih
  | read _ _ _ _ => exact Nat.succ_pos _
  | pop _ _ hleaves _ _ => exact hleaves.plain
  | @removed at_ w n _ _ ih => exact Place.Plain.nested ih w.linenum
  | @done line path tline tran at_ w _ ih => exact Place.Plain.nested ih w.linenum
  | runNode _ _ ih => exact ih
  | unlink _ _ _ _ _ _ _ =>
    split_ifs
    · trivial
    · trivial
  | _ => trivial

/-! ## Every run is made of these steps -/

section

variable (os : Os σ) (cfg : LapplyConfig) (lines : List (List Byte)) (init : σ)

/-- What an error leaves. -/
def Stopped (w : World σ) : Prop :=
  ∃ at_, Reach os cfg.caseSensitive cfg.force lines init at_ w

/-- A place that was reached, with some of the variables there. -/
structure At (at_ : Place) (head : List Node) (linenum : Nat) (transcript : CStr) (w : World σ) :
    Prop where
  reach : Reach os cfg.caseSensitive cfg.force lines init at_ w
  head : w.head = head
  linenum : w.linenum = linenum
  transcript : w.transcript = transcript

variable {os cfg lines init} {at_ : Place} {head : List Node} {linenum : Nat} {transcript : CStr}

theorem At.stopped {w : World σ} (h : At os cfg lines init at_ head linenum transcript w) :
    Stopped os cfg lines init w := ⟨at_, h.reach⟩

/-- Reading the system, or one of the variables no one else reads. -/
theorem At.quiet {w w' : World σ} (h : At os cfg lines init at_ head linenum transcript w)
    (hf : Frame os (fun _ _ _ => False) w w') :
    At os cfg lines init at_ head linenum transcript w' :=
  { reach := h.reach.quiet hf, head := hf.head.trans h.head
    linenum := hf.linenum.trans h.linenum, transcript := hf.transcript.trans h.transcript }

theorem quiet_at {α : Type} {x : Lapply σ α} (hx : Keeps (Frame os fun _ _ _ => False) x) :
    Triple (At os cfg lines init at_ head linenum transcript) x
      (fun _ => At os cfg lines init at_ head linenum transcript) (Stopped os cfg lines init) :=
  (hx.triple fun _ _ h hf => h.quiet hf).mono (fun _ h => h) (fun _ _ h => h) fun _ h => h.stopped

theorem triple_sys {P E : World σ → Prop} (c : SysCall) :
    Triple P (sys os c) (fun r w' => ∃ w, P w ∧ r = (os.sys c w.os).1 ∧
      w' = { w with os := (os.sys c w.os).2, trace := w.trace ++ [.call c r] }) E :=
  fun w hw => ⟨w, hw, rfl, rfl⟩

theorem triple_record {Q E : World σ → Prop} (ev : Action) :
    Triple (fun w => Q { w with trace := w.trace ++ [ev] }) (record ev) (fun _ => Q) E :=
  fun _ hw => hw

theorem triple_setHead {Q E : World σ → Prop} (head : List Node) :
    Triple (fun w => Q { w with head := head }) (setHead head) (fun _ => Q) E :=
  fun _ hw => hw

theorem triple_runIf {P Q E : World σ → Prop} {c : Bool} {x : Lapply σ Unit}
    (h : c = true → Triple P x (fun _ => Q) E) (h' : c = false → ∀ w, P w → Q w) :
    Triple P (runIf c x) (fun _ => Q) E :=
  Triple.ite h fun hc => triple_pure (h' (by simpa using hc))

/-- A call of `main` that has to succeed. -/
theorem sysOrFail_at {c : SysCall} {path : CStr} {Q : World σ → Prop}
    (hok : ∀ w, At os cfg lines init at_ head linenum transcript w → (os.sys c w.os).1 = .ok →
      Q { w with os := (os.sys c w.os).2, trace := w.trace ++ [.call c .ok] }) :
    Triple (At os cfg lines init at_ head linenum transcript) (sysOrFail os c path) (fun _ => Q)
      (Stopped os cfg lines init) := by
  refine (triple_sys c).bind fun r => triple_runIf (fun hr => triple_throw ?_) fun hr => ?_
  · intro w' hw'
    obtain ⟨w, hw, rfl, rfl⟩ := hw'
    have hfail := Reach.fail [] hw.reach (by simpa using hr) (.inl rfl)
    rw [List.append_nil] at hfail
    exact ⟨.failed, hfail⟩
  · intro w' hw'
    obtain ⟨w, hw, hrw, rfl⟩ := hw'
    obtain rfl : r = .ok := by simpa using hr
    exact hok w hw hrw.symm

/-- A line is carried out and counts as a change. -/
theorem runLine_at {line : Nat} {path tline tran : CStr} (present : Bool) {P : World σ → Prop}
    (hP : ∀ w, P w → At os cfg lines init (.running line path tline tran at_) head linenum transcript
      { w with trace := w.trace ++ [.doLine line path] }) :
    Triple P (runLine os cfg line path tline tran present)
      (fun _ => At os cfg lines init at_ head linenum transcript) (Stopped os cfg lines init) := by
  refine Triple.bind (M := fun _ => At os cfg lines init (.running line path tline tran at_) head
    linenum transcript) (fun w hw => hP w hw) fun _ => ?_
  refine Triple.bind (M := fun _ => At os cfg lines init (.running line path tline tran at_) head
    linenum transcript) ?_ fun _ => ?_
  · refine ((doLine_frame os cfg line tline tran present).triple fun w w' hw hf => ?_).mono
      (fun _ h => h) (fun _ _ h => h) fun _ h => h.stopped
    exact { reach := hw.reach.work hf, head := hf.head.trans hw.head
            linenum := hf.linenum.trans hw.linenum
            transcript := hf.transcript.trans hw.transcript }
  · intro w hw
    exact { reach := hw.reach.done, head := hw.head, linenum := hw.linenum
            transcript := hw.transcript }

theorem removeHead_at {n : Node} {rest : List Node} (hleaves : at_.Leaves cfg.caseSensitive n) :
    Triple (At os cfg lines init at_ (n :: rest) linenum transcript) (removeHead os cfg n rest)
      (fun _ => At os cfg lines init at_ rest linenum transcript) (Stopped os cfg lines init) := by
  have hafter : Triple (At os cfg lines init at_ (n :: rest) linenum transcript)
      (sysOrFail os (.rmdir n.path) n.path)
      (fun _ w => At os cfg lines init (.popped n at_) rest linenum transcript
        { w with head := rest, trace := w.trace ++ [.rmdir n] }) (Stopped os cfg lines init) := by
    refine sysOrFail_at fun w hw hr => ?_
    exact { reach := hw.reach.pop hw.head hleaves hr, head := rfl, linenum := hw.linenum
            transcript := hw.transcript }
  refine hafter.bind fun _ => Triple.bind (triple_record (Q := fun w =>
    At os cfg lines init (.popped n at_) rest linenum transcript { w with head := rest }) _) fun _ => ?_
  refine (triple_setHead rest).bind fun _ => ?_
  cases htline : n.tline with
  | none =>
    intro w hw
    exact { hw with reach := hw.reach.removed htline }
  | some tline =>
    refine runLine_at false fun w hw => ?_
    exact { hw with reach := hw.reach.runNode htline }

/-- The heads that are removed before a line at a path. -/
theorem minimize_at {path : CStr}
    (hleaves : ∀ n : Node, ischildcase path (some n.path) cfg.caseSensitive = false →
      at_.Leaves cfg.caseSensitive n) (head : List Node) :
    Triple (At os cfg lines init at_ head linenum transcript) (minimize os cfg path head)
      (fun _ w => At os cfg lines init at_ w.head linenum transcript w ∧
        OnTop cfg.caseSensitive path w.head) (Stopped os cfg lines init) := by
  induction head with
  | nil =>
    intro w hw
    refine ⟨{ hw with head := rfl }, ?_⟩
    rw [hw.head]
    intro n hn
    cases hn
  | cons n rest ih =>
    refine Triple.ite (fun hchild => ?_) fun hchild => ?_
    · intro w hw
      refine ⟨{ hw with head := rfl }, ?_⟩
      rw [hw.head]
      intro m hm
      obtain rfl : n = m := Option.some.inj hm
      exact hchild
    · exact (removeHead_at (hleaves n (by simpa using hchild))).bind fun _ => ih

theorem minimizeHead_at {path : CStr}
    (hleaves : ∀ n : Node, ischildcase path (some n.path) cfg.caseSensitive = false →
      at_.Leaves cfg.caseSensitive n) :
    Triple (At os cfg lines init at_ head linenum transcript) (minimizeHead os cfg path)
      (fun _ w => At os cfg lines init at_ w.head linenum transcript w ∧
        OnTop cfg.caseSensitive path w.head) (Stopped os cfg lines init) := by
  intro w hw
  have h := minimize_at hleaves head w hw
  rw [← hw.head] at h
  exact h

theorem clearList_at (head : List Node) :
    Triple (At os cfg lines init .ended head linenum transcript) (clearList os cfg head)
      (fun _ => At os cfg lines init .ended [] linenum transcript) (Stopped os cfg lines init) := by
  induction head with
  | nil => exact triple_pure fun _ h => h
  | cons n rest ih =>
    have hleaves : Place.Leaves cfg.caseSensitive n .ended := trivial
    exact (removeHead_at hleaves).bind fun _ => ih

/-! ### A line -/

/-- Between two lines again. -/
def Idle (os : Os σ) (cfg : LapplyConfig) (lines : List (List Byte)) (init : σ)
    (linenum : Nat) (w : World σ) : Prop :=
  Reach os cfg.caseSensitive cfg.force lines init .idle w ∧ w.linenum = linenum

theorem dirchecklist_at {a : Acting} (hremoves : a.removes = true) (hfound : a.found = .d)
    {n : Node} (hn : n = { line := linenum, path := a.path
                           tline := if a.differs then some a.tline else none
                           tran := if a.differs then transcript else [] }) :
    Triple (At os cfg lines init (.live a) head linenum transcript) (dirchecklist os cfg n)
      (fun _ => Idle os cfg lines init linenum) (Stopped os cfg lines init) := by
  have hpath : n.path = a.path := by rw [hn]
  rw [dirchecklist, hpath]
  have hleaves : ∀ n : Node, ischildcase a.path (some n.path) cfg.caseSensitive = false →
      (Place.live a).Leaves cfg.caseSensitive n := fun n h => h
  refine (minimizeHead_at hleaves).bind fun _ => ?_
  intro w hw
  obtain ⟨hat, htop⟩ := hw
  have hwait : n = waiting a w := by rw [hn, waiting, hat.linenum, hat.transcript]
  rw [hwait]
  exact ⟨hat.reach.push htop hremoves hfound, hat.linenum⟩

theorem filechecklist_at {a : Acting} (hremoves : a.removes = true) (hfound : a.found ≠ .d) :
    Triple (At os cfg lines init (.live a) head linenum transcript)
      (filechecklist os cfg linenum a.path)
      (fun _ w => ∃ head', At os cfg lines init (if a.command = minus then .idle else .cleared a)
        head' linenum transcript w) (Stopped os cfg lines init) := by
  have hleaves : ∀ n : Node, ischildcase a.path (some n.path) cfg.caseSensitive = false →
      (Place.live a).Leaves cfg.caseSensitive n := fun n h => h
  refine (minimizeHead_at hleaves).bind fun _ => ?_
  refine Triple.bind (M := fun _ w' => ∃ w, At os cfg lines init (.live a) w.head linenum transcript w ∧
    OnTop cfg.caseSensitive a.path w.head ∧
    w' = { w with trace := w.trace ++ [.unlink w.linenum a.path] }) ?_ fun _ => ?_
  · intro w hw
    obtain ⟨hat, htop⟩ := hw
    refine ⟨w, hat, htop, ?_⟩
    rw [hat.linenum]
  refine (triple_sys _).bind fun r => triple_runIf (fun hr => triple_throw ?_) fun hr => ?_
  · intro w' hw'
    obtain ⟨-, ⟨w, hat, -, rfl⟩, hrw, rfl⟩ := hw'
    have hne : (os.sys (.unlink a.path) w.os).1 ≠ .ok := by
      rw [← hrw]
      simp only [Bool.and_eq_true, decide_eq_true_eq] at hr
      exact hr.1
    have hfail := Reach.fail _ hat.reach hne (.inr ⟨a.path, rfl⟩)
    rw [← hrw] at hfail
    exact ⟨.failed, hfail⟩
  · intro w' hw'
    obtain ⟨-, ⟨w, hat, htop, rfl⟩, hrw, rfl⟩ := hw'
    have hres : r = .ok ∨ cfg.force = true ∧ r = .enoent := by
      clear hrw
      cases r with
      | ok => exact .inl rfl
      | enoent => exact .inr ⟨by simpa using hr, rfl⟩
      | failed => simp at hr
    refine ⟨w.head, ?_⟩
    exact { reach := hat.reach.unlink htop hremoves hfound hrw.symm hres
            head := rfl, linenum := hat.linenum, transcript := hat.transcript }

theorem applyLine_at {a : Acting} (h : at_ = .live a ∧ a.removes = false ∨ at_ = .cleared a)
    (present : Bool) :
    Triple (At os cfg lines init at_ head linenum transcript)
      (applyLine os cfg linenum a.tline a.path present)
      (fun _ => Idle os cfg lines init linenum) (Stopped os cfg lines init) := by
  have hleaves : ∀ n : Node, ischildcase a.path (some n.path) cfg.caseSensitive = false →
      at_.Leaves cfg.caseSensitive n := by
    intro n hn
    rcases h with ⟨rfl, -⟩ | rfl
    · exact hn
    · exact hn
  refine (minimizeHead_at hleaves).bind fun _ => triple_get.bind fun w => ?_
  intro w' hw'
  obtain ⟨rfl, hat, htop⟩ := hw'
  obtain rfl := hat.linenum
  have hrun : Triple (· = w) (runLine os cfg w.linenum a.path a.tline w.transcript present)
      (fun _ => At os cfg lines init .idle w.head w.linenum transcript) (Stopped os cfg lines init) := by
    refine runLine_at present fun w' hw' => ?_
    subst hw'
    exact { reach := hat.reach.runLine h htop, head := rfl, linenum := rfl
            transcript := hat.transcript }
  exact (hrun.mono (fun _ h => h) (fun _ _ h => ⟨h.reach, h.linenum⟩) fun _ h => h) w rfl

/-! ### The words of a line -/

/-- What stands in memory behind the line belongs to the last bytes of each word. -/
theorem acavParse_overwrite {tline : CStr} (h : NulFree tline) (mem : List Byte) :
    ∃ rest, (acavParse (overwrite mem tline)).2 =
      (acavParse (tline ++ [nul])).2.map (· ++ rest) := by
  refine ⟨mem.drop (tline.length + 1), ?_⟩
  rw [overwrite, acavParse, acavLoop_append_nul _ h]
  rfl

theorem head?_append_of_cstr {mem : List Byte} (h : cstr mem ≠ []) (rest : List Byte) :
    (mem ++ rest).head? = mem.head? := by
  cases mem with
  | nil => exact absurd rfl h
  | cons c mem => rfl

/-- A line as `main` splits it, and as its text alone says. -/
structure SplitsTo (tline : CStr) (word : List Byte) (targv : List (List Byte)) : Prop where
  sign : lineSign tline =
    if word.head? = some plus ∨ word.head? = some minus then word.headD nul else nul
  type : lineType tline =
    ((if word.head? = some plus ∨ word.head? = some minus then targv
      else word :: targv).headD []).headD nul
  lineWords : ∃ words, lineWords tline = cstr word :: words ∧ (words = [] ↔ targv = [])
  head : (cstr word).head? = word.head?

theorem splitsTo {tline : CStr} (h : NulFree tline) {mem word : List Byte}
    {targv : List (List Byte)} (hw : (acavParse (overwrite mem tline)).2 = word :: targv) :
    SplitsTo tline word targv := by
  obtain ⟨rest, hrest⟩ := acavParse_overwrite h mem
  rw [hw] at hrest
  cases hwords : (acavParse (tline ++ [nul])).2 with
  | nil =>
    rw [hwords] at hrest
    cases hrest
  | cons word' targv' =>
    have hmem : ∀ m ∈ word' :: targv', cstr m ≠ [] ∧ nul ∈ m := by
      rw [← hwords]
      exact fun m hm => acavParse_word hm
    rw [hwords] at hrest
    obtain ⟨rfl, rfl⟩ := List.cons.inj hrest
    have hword := hmem word' List.mem_cons_self
    have hhead := head?_append_of_cstr hword.1 rest
    refine ⟨?_, ?_, ⟨targv'.map cstr, ?_, by simp⟩, ?_⟩
    · rw [lineSign, signedWords, hwords]
      simp only [hhead, List.headD_eq_head?_getD]
      split_ifs <;> rfl
    · rw [lineType, signedWords, hwords]
      simp only [hhead, List.headD_eq_head?_getD]
      split_ifs
      · cases targv' with
        | nil => rfl
        | cons m targv' =>
          have hm := (hmem m (by simp)).1
          simp [head?_append_of_cstr hm]
      · simp [hhead]
    · rw [lineWords, words, hwords, List.map_cons, cstr_append_of_mem hword.2]
    · rw [cstr_append_of_mem hword.2, hhead, head?_cstr hword.1]

/-! ### The loop -/

/-- Looking at a path changes `st` only. -/
theorem localType_spec (path : CStr) (w : World σ) :
    match localType os path w with
    | .ok found w' => Found os w.os path found ∧ ∃ st, w' = { w with st := st }
    | .error _ w' => ∃ st, w' = { w with st := st } := by
  unfold localType
  cases hl : os.lstat w.os path with
  | found st =>
    have hr : radstat os path w = .ok (.found st.fileType) { w with st := st } := by
      simp only [radstat, hl]
    rw [bind_ok hr]
    cases hft : st.fileType with
    | none => exact ⟨st, rfl⟩
    | some found => exact ⟨.inl ⟨st, hl, hft⟩, st, rfl⟩
  | enoent =>
    have hr : radstat os path w = .ok .enoent { w with st := Stat.zero } := by
      simp only [radstat, hl]
    rw [bind_ok hr]
    exact ⟨.inr ⟨hl, rfl⟩, Stat.zero, rfl⟩
  | enotdir =>
    have hr : radstat os path w = .ok .failed { w with st := Stat.zero } := by
      simp only [radstat, hl]
    rw [bind_ok hr]
    exact ⟨Stat.zero, rfl⟩
  | failed =>
    have hr : radstat os path w = .ok .failed w := by
      simp only [radstat, hl]
    rw [bind_ok hr]
    exact ⟨w.st, rfl⟩

/-- A line that begins to act, up to its end. -/
theorem acting_at {a : Acting} (type : Byte) (htype : type = lineType a.tline) (w : World σ) :
    Triple (At os cfg lines init (.live a) head w.linenum w.transcript)
      (let present : Bool := a.found ≠ .X
       let differs : Bool := present && a.found.letter ≠ type
       if a.command = minus || differs then
         if a.found = .d then
           let tline? := if differs then some a.tline else none
           dirchecklist os cfg
             ⟨w.linenum, a.path, tline?, if differs then w.transcript else []⟩
         else do
           filechecklist os cfg w.linenum a.path
           runIf (a.command ≠ minus) (applyLine os cfg w.linenum a.tline a.path false)
       else applyLine os cfg w.linenum a.tline a.path present)
      (fun _ => Idle os cfg lines init w.linenum) (Stopped os cfg lines init) := by
  subst htype
  refine Triple.ite (fun hremoves => Triple.ite (fun hfound => ?_) fun hfound => ?_) fun hkeeps => ?_
  · exact dirchecklist_at hremoves hfound rfl
  · refine (filechecklist_at hremoves hfound).bind fun _ => triple_runIf (fun hc => ?_) fun hc => ?_
    · have hne : a.command ≠ minus := by simpa using hc
      intro w' hw'
      obtain ⟨head', hat⟩ := hw'
      rw [if_neg hne] at hat
      exact applyLine_at (.inr rfl) false w' hat
    · intro w' hw'
      obtain ⟨head', hat⟩ := hw'
      rw [if_pos (by simpa using hc)] at hat
      exact ⟨hat.reach, hat.linenum⟩
  · exact applyLine_at (.inl ⟨rfl, by simpa [Acting.removes, Acting.differs] using hkeeps⟩) _

/-- A line was read, and its sign is in `*command`. -/
def AtWords (os : Os σ) (cfg : LapplyConfig) (lines : List (List Byte)) (init : σ)
    (tline : CStr) (head : List Node) (linenum : Nat) (transcript : CStr) (w : World σ) : Prop :=
  At os cfg lines init .read head linenum transcript w ∧
    (lineSign tline ≠ nul → w.commandByte = lineSign tline)

theorem decodeArg_atWords {tline : CStr} (tooLong : Nat → Failure) (word : Option (List Byte)) :
    Triple (AtWords os cfg lines init tline head linenum transcript) (decodeArg tooLong word)
      (fun path w => NulFree path ∧ AtWords os cfg lines init tline head linenum transcript w)
      (Stopped os cfg lines init) := by
  intro w hw
  have hat := fun buf => hw.1.quiet (frame_set w buf w.network w.st)
  cases word with
  | none => exact hw.1.stopped
  | some mem =>
    unfold decodeArg
    rcases hd : decode w.buf mem with ⟨_ | path, buf⟩
    · simp only [hd]
      exact (hat buf).stopped
    · simp only [hd]
      exact ⟨nulFree_of_decode (congrArg Prod.fst hd), hat buf, hw.2⟩

theorem checkOrder_atWords {tline : CStr} (path : CStr) :
    Triple (AtWords os cfg lines init tline head linenum transcript) (checkOrder cfg path)
      (fun _ => AtWords os cfg lines init tline head linenum transcript) (Stopped os cfg lines init) := by
  intro w hw
  unfold checkOrder
  split_ifs
  · exact hw.1.stopped
  · exact hw.1.stopped
  · exact ⟨hw.1.quiet ⟨rfl, rfl, rfl, rfl, rfl, [], by simp, rfl, by simp⟩, hw.2⟩

theorem pathLine_at {tline path : CStr} {type : Byte} (hpath : NulFree path) (htype : type = lineType tline)
    (hline : ∃ line, lines[linenum - 1]? = some line ∧ tline = cstr line) :
    Triple (AtWords os cfg lines init tline head linenum transcript) (pathLine os cfg tline path type)
      (fun _ => Idle os cfg lines init linenum) (Stopped os cfg lines init) := by
  intro w hw
  obtain ⟨hat, hsign⟩ := hw
  have hspec := @localType_spec σ os path w
  unfold pathLine
  cases hl : localType os path w with
  | error e w' =>
    rw [hl] at hspec
    obtain ⟨st, rfl⟩ := hspec
    rw [bind_error hl]
    exact (hat.quiet (frame_set w w.buf w.network st)).stopped
  | ok found w' =>
    rw [hl] at hspec
    obtain ⟨hfound, st, rfl⟩ := hspec
    rw [bind_ok hl]
    have hat := hat.quiet (frame_set w w.buf w.network st)
    obtain ⟨rfl, rfl⟩ := And.intro hat.linenum hat.transcript
    let a : Acting := ⟨path, tline, found, w.commandByte⟩
    have hbegin := hat.reach.begin (a := a) ⟨hpath, hline, hsign⟩ hfound
    exact acting_at (a := a) type htype { w with st := st } _
      { reach := hbegin, head := hat.head, linenum := rfl, transcript := rfl }

theorem wordsLine_at {tline : CStr} {word : List Byte} {targv : List (List Byte)}
    (hsplit : SplitsTo tline word targv)
    (hline : ∃ line, lines[linenum - 1]? = some line ∧ tline = cstr line) :
    Triple (fun w => At os cfg lines init .read head linenum transcript w ∧ word <:+ w.targvline)
      (wordsLine os cfg tline word targv)
      (fun _ => Idle os cfg lines init linenum) (Stopped os cfg lines init) := by
  -- the words behind the sign, and `*command`
  refine Triple.bind (M := fun targv' w => (targv'.headD []).headD nul = lineType tline ∧
    AtWords os cfg lines init tline head linenum transcript w) ?_ fun targv' => ?_
  · intro w hw
    obtain ⟨hat, hsuffix⟩ := hw
    have hsign := hsplit.sign
    have htype := hsplit.type
    unfold takeSign
    by_cases hs : word.head? = some plus ∨ word.head? = some minus
    · rw [if_pos hs] at hsign htype
      have hs' : (word.head? = some plus || word.head? = some minus : Bool) = true := by
        simpa using hs
      rw [if_pos hs']
      split_ifs
      · exact hat.stopped
      · refine ⟨htype.symm, hat.quiet ⟨rfl, rfl, rfl, rfl, rfl, [], by simp, rfl, by simp⟩,
          fun _ => ?_⟩
        rw [hsign]
        obtain ⟨before, hbefore⟩ := hsuffix
        simp only [World.commandByte, ← hbefore, List.length_append, Nat.add_sub_cancel]
        cases word with
        | nil => simp at hs
        | cons c word => simp
    · rw [if_neg hs] at hsign htype
      rw [not_or] at hs
      simp only [hs.1, hs.2, decide_false, Bool.false_and, Bool.false_eq_true, if_false,
        Bool.or_self]
      exact ⟨htype.symm, hat, fun h => absurd hsign h⟩
  · refine triple_get.bind fun w => ?_
    intro w' hw'
    obtain ⟨rfl, htype, hready⟩ := hw'
    split_ifs with hskip
    · refine ⟨hready.1.reach.skip fun hminus => ?_, hready.1.linenum⟩
      -- only a '+' line is skipped here
      obtain ⟨line, hline, rfl⟩ := hline
      rw [hready.1.linenum, textOf, List.getD_eq_getElem?_getD, hline, Option.getD_some] at hminus
      have hcommand := hready.2 (by rw [hminus]; decide)
      rw [hminus] at hcommand
      rw [hcommand] at hskip
      exact absurd hskip (by simp [minus, plus])
    · refine Triple.bind (decodeArg_atWords _ _) (fun path => ?_) w hready
      intro w' hw'
      exact (checkOrder_atWords path).bind (fun _ => pathLine_at hw'.1 htype hline) w' hw'.2

/-! ### The loop -/

/-- The variables of `main` when a line has been split. -/
def afterSplit (w : World σ) (tline : CStr) : World σ :=
  { w with linenum := w.linenum + 1, targvline := (acavParse (overwrite w.targvline tline)).1 }

theorem mainLine_eq (line : List Byte) (w : World σ) :
    mainLine os cfg line w =
      if cstr line = [] then .error .overrun { w with linenum := w.linenum + 1 }
      else if (cstr line).getLast? ≠ some newline then
        .error (.lineTooLong (w.linenum + 1)) { w with linenum := w.linenum + 1 }
      else
        match (acavParse (overwrite w.targvline (cstr line))).2 with
        | [] => .ok () (afterSplit w (cstr line))
        | word :: targv =>
          if word.head? = some hash then .ok () (afterSplit w (cstr line))
          else if targv = [] then headerLine (cstr word) (afterSplit w (cstr line))
          else wordsLine os cfg (cstr line) word targv (afterSplit w (cstr line)) := by
  unfold mainLine
  rw [bind_ok (show countLine w = .ok () { w with linenum := w.linenum + 1 } from rfl)]
  split_ifs with hempty hlast
  · rfl
  · rfl
  · rw [bind_ok (show parseTargvline (cstr line) { w with linenum := w.linenum + 1 } =
      .ok (acavParse (overwrite w.targvline (cstr line))).2 (afterSplit w (cstr line)) from rfl)]
    cases (acavParse (overwrite w.targvline (cstr line))).2 with
    | nil => rfl
    | cons word targv =>
      show (if word.head? = some hash then (pure () : Lapply σ Unit)
        else if targv = [] then headerLine (cstr word)
        else wordsLine os cfg (cstr line) word targv) (afterSplit w (cstr line)) =
          if word.head? = some hash then _ else if targv = [] then _ else _
      split_ifs <;> rfl

/-- A line that makes no header is read. -/
theorem wordsLine_reach {line word : List Byte} {targv : List (List Byte)} {w : World σ}
    (hline : lines[w.linenum]? = some line) (hnone : headerOf line = none)
    (hw : Reach os cfg.caseSensitive cfg.force lines init .idle w)
    (hwords : (acavParse (overwrite w.targvline (cstr line))).2 = word :: targv) :
    Ends (fun _ => Idle os cfg lines init (w.linenum + 1)) (Stopped os cfg lines init)
      (wordsLine os cfg (cstr line) word targv (afterSplit w (cstr line))) := by
  have hat : At os cfg lines init .read w.head (w.linenum + 1) w.transcript
      (afterSplit w (cstr line)) :=
    { reach := (hw.read hline hnone).quiet ⟨rfl, rfl, rfl, rfl, rfl, [], by simp [afterSplit],
        rfl, by simp⟩
      head := rfl, linenum := rfl, transcript := rfl }
  have hsuffix : word <:+ (afterSplit w (cstr line)).targvline :=
    acavLoop_suffix _ _ _ word (by
      show word ∈ (acavParse (overwrite w.targvline (cstr line))).2
      rw [hwords]
      exact List.mem_cons_self)
  exact wordsLine_at (splitsTo (nulFree_cstr line) hwords) ⟨line, hline, rfl⟩ _ ⟨hat, hsuffix⟩

theorem headerLine_reach {line word : List Byte} {w : World σ}
    (hline : lines[w.linenum]? = some line)
    (hname : headerOf line = some (cstr word).dropLast)
    (hw : Reach os cfg.caseSensitive cfg.force lines init .idle w) :
    Ends (fun _ => Idle os cfg lines init (w.linenum + 1)) (Stopped os cfg lines init)
      (headerLine (cstr word) (afterSplit w (cstr line))) := by
  -- the line is split before it is counted here
  have hquiet : Reach os cfg.caseSensitive cfg.force lines init .idle
      { w with targvline := (acavParse (overwrite w.targvline (cstr line))).1 } :=
    hw.quiet ⟨rfl, rfl, rfl, rfl, rfl, [], by simp, rfl, by simp⟩
  unfold headerLine
  split_ifs
  · exact ⟨hquiet.header hline hname, rfl⟩
  · exact ⟨.failed, hquiet.badHeader⟩

/-- One line, from between two lines to there again. -/
theorem mainLine_reach {line : List Byte} {w : World σ} (hline : lines[w.linenum]? = some line)
    (hw : Reach os cfg.caseSensitive cfg.force lines init .idle w) :
    Ends (fun _ => Idle os cfg lines init (w.linenum + 1)) (Stopped os cfg lines init)
      (mainLine os cfg line w) := by
  rw [mainLine_eq]
  have hstop : Stopped os cfg lines init { w with linenum := w.linenum + 1 } :=
    ⟨.failed, hw.badHeader⟩
  have hskip : headerOf line = none → lineSign (cstr line) ≠ minus →
      Idle os cfg lines init (w.linenum + 1) (afterSplit w (cstr line)) := by
    intro hnone hsign
    rw [← textOf_eq hline] at hsign
    exact ⟨((hw.read hline hnone).skip hsign).quiet ⟨rfl, rfl, rfl, rfl, rfl, [],
      by simp [afterSplit], rfl, by simp⟩, rfl⟩
  split_ifs
  · exact hstop
  · exact hstop
  · cases hwords : (acavParse (overwrite w.targvline (cstr line))).2 with
    | nil =>
      obtain ⟨rest, hrest⟩ := acavParse_overwrite (nulFree_cstr line) w.targvline
      rw [hwords, eq_comm, List.map_eq_nil_iff] at hrest
      refine hskip ?_ ?_
      · rw [headerOf, Radmind.lineWords, words, hrest]
        rfl
      · rw [lineSign, signedWords, hrest]
        simp [minus, nul]
    | cons word targv =>
      have hsplit := splitsTo (nulFree_cstr line) hwords
      obtain ⟨rest, hlineWords, hrest⟩ := hsplit.lineWords
      have hheader : headerOf line = match cstr word :: rest with
          | [word] => if word.head? = some hash then none else some word.dropLast
          | _ => none := by
        rw [headerOf, hlineWords]
      show Ends _ _ (if word.head? = some hash then _ else if targv = [] then _ else _)
      split_ifs with hhash htargv
      · refine hskip ?_ ?_
        · rw [hheader]
          cases rest with
          | nil => simp [hsplit.head, hhash]
          | cons v rest => rfl
        · rw [hsplit.sign, hhash, if_neg (by decide)]
          decide
      · obtain rfl := hrest.mpr htargv
        refine headerLine_reach hline ?_ hw
        simp [hheader, hsplit.head, hhash]
      · refine wordsLine_reach hline ?_ hw hwords
        rw [hheader]
        cases rest with
        | nil => exact absurd (hrest.mp rfl) htargv
        | cons v rest => rfl

/-- All lines, from the first one that is left on. -/
theorem mainLoop_reach {rest : List (List Byte)} {w : World σ}
    (hrest : lines.drop w.linenum = rest)
    (hw : Reach os cfg.caseSensitive cfg.force lines init .idle w) (hle : w.linenum ≤ lines.length) :
    Ends (fun _ => Idle os cfg lines init lines.length) (Stopped os cfg lines init)
      (mainLoop os cfg rest w) := by
  induction rest generalizing w with
  | nil =>
    refine ⟨hw, ?_⟩
    rw [List.drop_eq_nil_iff] at hrest
    omega
  | cons line rest ih =>
    have hline : lines[w.linenum]? = some line := by
      rw [← List.head?_drop, hrest]
      rfl
    have hlt : w.linenum < lines.length := by
      by_contra hge
      rw [List.drop_eq_nil_of_le (by omega)] at hrest
      cases hrest
    have hstep := mainLine_reach hline hw
    rw [mainLoop]
    cases hr : mainLine os cfg line w with
    | error e w' =>
      rw [hr] at hstep
      rw [bind_error hr]
      exact hstep
    | ok a w' =>
      rw [hr] at hstep
      rw [bind_ok hr]
      obtain ⟨hreach, hlinenum⟩ := hstep
      refine ih ?_ hreach (by omega)
      rw [hlinenum, ← List.drop_drop, hrest]
      rfl

/-- Every run ends in a state that was reached, one without an error behind the last line
and with an empty list. -/
theorem lapply_reach (os : Os σ) (cfg : LapplyConfig) (network : Bool) (content : List Byte)
    (s : σ) :
    Ends (fun _ w => Reach os cfg.caseSensitive cfg.force (fileLines content) s .ended w ∧
        w.head = [] ∧ w.linenum = (fileLines content).length)
      (Stopped os cfg (fileLines content) s) (lapply os cfg network content s) := by
  have hloop : Ends (fun _ => Idle os cfg (fileLines content) s (fileLines content).length)
      (Stopped os cfg (fileLines content) s)
      (mainLoop os cfg (fileLines content) (World.start s network)) :=
    mainLoop_reach rfl (.start network) (Nat.zero_le _)
  rw [lapply, applyTranscript]
  cases hr : mainLoop os cfg (fileLines content) (World.start s network) with
  | error e w =>
    rw [hr] at hloop
    rw [bind_error hr]
    exact hloop
  | ok a w =>
    rw [hr] at hloop
    rw [bind_ok hr]
    obtain ⟨hreach, hlinenum⟩ := hloop
    have hclear : Ends (fun _ => At os cfg (fileLines content) s .ended []
        (fileLines content).length w.transcript) (Stopped os cfg (fileLines content) s)
        (clearList os cfg w.head w) :=
      clearList_at w.head w
        { reach := hreach.finish hlinenum, head := rfl, linenum := hlinenum, transcript := rfl }
    show Ends _ _ (clearList os cfg w.head w)
    cases hr : clearList os cfg w.head w with
    | error e w' =>
      rw [hr] at hclear
      exact hclear
    | ok a w' =>
      rw [hr] at hclear
      exact ⟨hclear.reach, hclear.head, hclear.linenum⟩

end

end Radmind
