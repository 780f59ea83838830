import Radmind.Command.Contained
import Radmind.Command.Stages

/-!
# Uploads of many sessions

Any number of sessions store files under `tmp` at the same time.  A directory and a file are
each created in one step, if there is nothing of the name; the steps of the sessions come in
any order.
-/

namespace Radmind
namespace Server

open Interaction LabelledRun

/-! ## What a trace tells of its stores -/

/-- The last word that was put into a path, with what it decoded to. -/
def lastSplice (trace : Trace) : Option (Key × CStr × CStr) :=
  (trace.filterMap fun e => match e.call with
    | .splice key word name => some (key, word, name)
    | _ => none).getLast?

/-- The bytes that were read for a file. -/
def readBytes (trace : Trace) : List Byte :=
  trace.flatMap fun e => match e with
    | ⟨.read _, some bytes⟩ => bytes.val
    | _ => []

def isCreate (e : Event Answer) : Bool :=
  match e.call with
  | .create _ => true
  | _ => false

/-- The last file that was created, and the data that was read behind it. -/
def StoredBy (trace : Trace) (upload : CStr) (data : List Byte) : Prop :=
  ∃ before fd after, trace = before ++ ⟨.create upload, .ok fd⟩ :: after ∧
    (∀ e ∈ after, isCreate e = false) ∧ readBytes after = data

/-- A directory was made for this transcript. -/
def Makes (name : CStr) (trace : Trace) : Prop :=
  ∃ before word r after, trace = before ++
    ⟨.splice .transcript word name, ()⟩ :: ⟨.mkdir (xscriptDir name), .ok r⟩ :: after

/-- The last transcript whose directory was made. -/
def LastMade (trace : Trace) (name : CStr) : Prop :=
  ∃ before word r after, trace = before ++
      ⟨.splice .transcript word name, ()⟩ :: ⟨.mkdir (xscriptDir name), .ok r⟩ :: after ∧
    ∀ name', ¬ Makes name' after

theorem lastSplice_concat (trace : Trace) (e : Event Answer) :
    lastSplice (trace ++ [e]) = match e.call with
      | .splice key word name => some (key, word, name)
      | _ => lastSplice trace := by
  obtain ⟨c, a⟩ := e
  unfold lastSplice
  rw [List.filterMap_append]
  cases c <;> simp

/-- The last splice is one of the trace. -/
theorem mem_of_lastSplice {trace : Trace} {key : Key} {word name : CStr}
    (h : lastSplice trace = some (key, word, name)) : ⟨.splice key word name, ()⟩ ∈ trace := by
  obtain ⟨e, he, hsplice⟩ := List.mem_filterMap.mp (List.mem_of_getLast? h)
  obtain ⟨c, a⟩ := e
  cases c with
  | splice key' word' name' =>
    cases hsplice
    exact he
  | _ => cases hsplice

theorem readBytes_concat (trace : Trace) (e : Event Answer) :
    readBytes (trace ++ [e]) = readBytes trace ++ readBytes [e] := List.flatMap_append

theorem readBytes_of_ne_read {e : Event Answer} (h : ∀ max, e.call ≠ .read max) :
    readBytes [e] = [] := by
  obtain ⟨c, a⟩ := e
  cases c with
  | read max => exact absurd rfl (h max)
  | _ => rfl

theorem StoredBy.snoc {trace : Trace} {upload : CStr} {data : List Byte}
    (h : StoredBy trace upload data) {e : Event Answer} (he : isCreate e = false) :
    StoredBy (trace ++ [e]) upload (data ++ readBytes [e]) := by
  obtain ⟨before, fd, after, rfl, hnone, rfl⟩ := h
  refine ⟨before, fd, after ++ [e], by simp, fun e' he' => ?_, readBytes_concat after e⟩
  rcases List.mem_append.mp he' with hmem | hmem
  · exact hnone e' hmem
  · rw [List.mem_singleton.mp hmem]
    exact he

/-- An event that reads nothing and creates nothing. -/
theorem StoredBy.keep {trace : Trace} {upload : CStr} {data : List Byte}
    (h : StoredBy trace upload data) {e : Event Answer} (he : isCreate e = false)
    (hread : ∀ max, e.call ≠ .read max) : StoredBy (trace ++ [e]) upload data := by
  have hsnoc := h.snoc he
  rwa [readBytes_of_ne_read hread, List.append_nil] at hsnoc

theorem storedBy_create (trace : Trace) (upload : CStr) (fd : Nat) :
    StoredBy (trace ++ [⟨.create upload, .ok fd⟩]) upload [] :=
  ⟨trace, fd, [], rfl, (fun e he => by cases he), rfl⟩

/-- What the stage says of the trace. -/
def Stage.Means (xscript : Option (CStr × CStr)) : Stage → Trace → Prop
  | .named word name, trace => ∃ before, trace = before ++ [⟨.splice .transcript word name, ()⟩]
  | .fileNamed word tran, trace => xscript.map Prod.fst = some word ∧
      ⟨.splice .file word tran, ()⟩ ∈ trace
  | .making false upload, trace | .created false upload _, trace =>
      ∃ word name, lastSplice trace = some (.transcript, word, name) ∧ xscript = some (word, name) ∧
        upload = lit "tmp/transcript/" ++ name
  | .making true upload, trace | .created true upload _, trace =>
      ∃ word tran word' path, lastSplice trace = some (.file, word', path) ∧
        xscript.map Prod.fst = some word ∧ ⟨.splice .file word tran, ()⟩ ∈ trace ∧
          upload = fileUpload tran path
  | _, _ => True

/-- What has been stored. -/
def Stage.Stores : Stage → Trace → Prop
  | .created _ upload _, trace => StoredBy trace upload []
  | .storing upload _ data pending, trace => StoredBy trace upload (data ++ pending.getD [])
  | .closed upload data, trace | .agreed upload data, trace => StoredBy trace upload data
  | _, _ => True

/-- What the progress of a session says of its trace. -/
structure Meaning (p : Progress) (trace : Trace) : Prop where
  means : p.stage.Means p.xscript trace
  stores : p.stage.Stores trace
  last : ∀ before word name, trace = before ++ [⟨.splice .transcript word name, ()⟩] →
    p.stage = .named word name
  made : ∀ word name, p.xscript = some (word, name) → LastMade trace name ∧
    ⟨.splice .transcript word name, ()⟩ ∈ trace

theorem eq_of_concat {α : Type} {before before' : List α} {e e' : α}
    (h : before ++ [e] = before' ++ [e']) : before = before' ∧ e = e' := by
  obtain ⟨hbefore, he⟩ := List.append_inj' h rfl
  exact ⟨hbefore, (List.cons.inj he).1⟩

/-- No directory for a transcript is made by an event that does not end such a pair. -/
theorem LastMade.snoc {trace : Trace} {name : CStr} (h : LastMade trace name) {e : Event Answer}
    (hpair : ∀ before word name', trace = before ++ [⟨.splice .transcript word name', ()⟩] →
      ∀ r, e ≠ ⟨.mkdir (xscriptDir name'), .ok r⟩) : LastMade (trace ++ [e]) name := by
  obtain ⟨before, word, r, after, rfl, hlast⟩ := h
  refine ⟨before, word, r, after ++ [e], by simp, fun name' hmakes => ?_⟩
  obtain ⟨before', word', r', after', heq⟩ := hmakes
  cases after' using List.reverseRecOn with
  | nil =>
    -- the pair ends with `e`
    have hsplit : after ++ [e] = (before' ++ [⟨.splice .transcript word' name', ()⟩]) ++
        [⟨.mkdir (xscriptDir name'), .ok r'⟩] := by rw [heq]; simp
    obtain ⟨hafter, he⟩ := eq_of_concat hsplit
    refine hpair (before ++ ⟨.splice .transcript word name, ()⟩ ::
      ⟨.mkdir (xscriptDir name), .ok r⟩ :: before') word' name' ?_ r' he
    rw [hafter]
    simp
  | append_singleton after' e' =>
    have hsplit : after ++ [e] = (before' ++ ⟨.splice .transcript word' name', ()⟩ ::
        ⟨.mkdir (xscriptDir name'), .ok r'⟩ :: after') ++ [e'] := by rw [heq]; simp
    exact hlast name' ⟨before', word', r', after', (eq_of_concat hsplit).1⟩

/-- What the last splice says stays, while nothing is spliced. -/
theorem Stage.Means.making {xscript : Option (CStr × CStr)} {file : Bool} {upload : CStr}
    {trace : Trace} (h : (Stage.making file upload).Means xscript trace) {e : Event Answer}
    (he : ∀ key word name, e.call ≠ .splice key word name) :
    (Stage.making file upload).Means xscript (trace ++ [e]) := by
  have hlast : lastSplice (trace ++ [e]) = lastSplice trace := by
    obtain ⟨c, a⟩ := e
    rw [lastSplice_concat]
    cases c with
    | splice key word name => exact absurd rfl (he key word name)
    | _ => rfl
  cases file with
  | false =>
    obtain ⟨word, name, hsplice, hxscript, hupload⟩ := h
    exact ⟨word, name, hlast.trans hsplice, hxscript, hupload⟩
  | true =>
    obtain ⟨word, tran, word', path, hsplice, hxscript, hmem, hupload⟩ := h
    exact ⟨word, tran, word', path, hlast.trans hsplice, hxscript, List.mem_append_left _ hmem,
      hupload⟩

theorem Stage.Means.created {xscript : Option (CStr × CStr)} {file : Bool} {upload : CStr} {fd : Nat}
    {trace : Trace} (h : (Stage.making file upload).Means xscript trace) :
    (Stage.created file upload fd).Means xscript trace := by
  cases file with
  | false => exact h
  | true => exact h

section

variable {xscript : Option (CStr × CStr)} {stage stage' : Stage} {trace : Trace} {c : Call}
  {a : Answer c}

/-- A step that makes no directory for a transcript. -/
theorem Meaning.step (h : Meaning ⟨xscript, stage⟩ trace)
    (hmeans : stage'.Means xscript (trace ++ [⟨c, a⟩])) (hstores : stage'.Stores (trace ++ [⟨c, a⟩]))
    (hlast : ∀ word name, c = .splice .transcript word name → stage' = .named word name)
    (hpair : ∀ word name r, stage = .named word name →
      (⟨c, a⟩ : Event Answer) ≠ ⟨.mkdir (xscriptDir name), .ok r⟩) :
    Meaning ⟨xscript, stage'⟩ (trace ++ [⟨c, a⟩]) where
  means := hmeans
  stores := hstores
  last before word name heq := hlast word name (congrArg Event.call (eq_of_concat heq).2)
  made word name hx := by
    obtain ⟨hmade, hmem⟩ := h.made word name hx
    exact ⟨hmade.snoc fun before word' name' heq r => hpair word' name' r (h.last before word' name' heq),
      List.mem_append_left _ hmem⟩

/-- Behind the splice of a transcript its directory is made. -/
theorem Meaning.makes {word name : CStr} (h : Meaning ⟨xscript, .named word name⟩ trace) (r : Unit) :
    Meaning ⟨some (word, name), .making false (lit "tmp/transcript/" ++ name)⟩
      (trace ++ [⟨.mkdir (xscriptDir name), .ok r⟩]) := by
  obtain ⟨before, rfl⟩ : ∃ before : Trace,
      trace = before ++ [(⟨.splice .transcript word name, ()⟩ : Event Answer)] := h.means
  have hlast : lastSplice (before ++ [⟨.splice .transcript word name, ()⟩] ++
      [⟨.mkdir (xscriptDir name), .ok r⟩]) = some (.transcript, word, name) := by
    rw [lastSplice_concat, lastSplice_concat]
  refine ⟨⟨word, name, hlast, rfl, rfl⟩, trivial, fun before' word' name' heq => ?_, ?_⟩
  · have hcall := congrArg Event.call (eq_of_concat heq).2
    cases hcall
  · intro word' name' hx
    obtain ⟨rfl, rfl⟩ := Prod.mk.inj (Option.some.inj hx)
    refine ⟨⟨before, word, r, [], by simp, fun name' hmakes => ?_⟩, by simp⟩
    obtain ⟨before', word', r', after', heq⟩ := hmakes
    have hlength := congrArg List.length heq
    rw [List.length_append] at hlength
    simp at hlength

/-- A step of a session keeps the meaning of its stage. -/
theorem Meaning.moves {p' : Progress} (h : Meaning ⟨xscript, stage⟩ trace)
    (hmoves : Moves xscript stage c a p') : Meaning p' (trace ++ [⟨c, a⟩]) := by
  cases hmoves with
  | delay => exact h.step trivial trivial nofun nofun
  | transcript =>
    refine h.step ⟨trace, rfl⟩ trivial (fun word name heq => ?_) nofun
    cases heq
    rfl
  | file hword => exact h.step ⟨hword, by simp⟩ trivial nofun nofun
  | @path word tran word' name a =>
    obtain ⟨hword, hmem⟩ : xscript.map Prod.fst = some word ∧ _ := h.means
    refine h.step ?_ trivial nofun nofun
    exact ⟨word, tran, word', name, lastSplice_concat _ _, hword, List.mem_append_left _ hmem, rfl⟩
  | made => exact h.makes _
  | notMade => exact h.step trivial trivial nofun fun word name r _ heq => by cases heq
  | above => exact h.step (Stage.Means.making h.means fun _ _ _ h => by cases h) trivial nofun nofun
  | created =>
    refine h.step (Stage.Means.created (Stage.Means.making h.means fun _ _ _ h => by cases h)) ?_
      nofun nofun
    exact storedBy_create _ _ _
  | notCreated =>
    exact h.step (Stage.Means.making h.means fun _ _ _ h => by cases h) trivial nofun nofun
  | storing => exact h.step trivial (h.stores.keep rfl nofun) nofun nofun
  | sized => exact h.step trivial (h.stores.keep rfl nofun) nofun nofun
  | @read upload fd data max bytes =>
    refine h.step trivial ?_ nofun nofun
    have hsnoc : StoredBy (trace ++ [⟨.read max, bytes⟩]) upload
        (data ++ [] ++ readBytes [⟨.read max, bytes⟩]) := StoredBy.snoc h.stores rfl
    rw [List.append_nil] at hsnoc
    cases bytes with
    | none => exact hsnoc
    | some bytes =>
      have hbytes : readBytes [⟨.read max, some bytes⟩] = bytes.val := List.append_nil _
      rw [hbytes] at hsnoc
      exact hsnoc
  | @wrote upload fd data bytes a =>
    have hkeep : StoredBy (trace ++ [⟨.write fd bytes, .ok a⟩]) upload (data ++ bytes) :=
      StoredBy.keep h.stores rfl nofun
    refine h.step trivial ?_ nofun nofun
    show StoredBy _ upload (data ++ bytes ++ [])
    rwa [List.append_nil]
  | notWritten => exact h.step trivial trivial nofun nofun
  | @closed upload fd data a =>
    have hkeep : StoredBy (trace ++ [⟨.close fd, .ok a⟩]) upload (data ++ []) :=
      StoredBy.keep h.stores rfl nofun
    rw [List.append_nil] at hkeep
    exact h.step trivial hkeep nofun nofun
  | notClosed => exact h.step trivial trivial nofun nofun
  | noLine => exact h.step trivial (h.stores.keep rfl nofun) nofun nofun
  | agreed => exact h.step trivial (h.stores.keep rfl nofun) nofun nofun
  | unmatched => exact h.step trivial trivial nofun nofun
  | stored => exact h.step trivial trivial nofun nofun
  | mismatch => exact h.step trivial trivial nofun nofun
  | unlinked => exact h.step trivial trivial nofun nofun
  | error hrefuses _ => exact h.step trivial trivial nofun fun word name r _ heq => by cases heq

end

theorem meaning_start : Meaning .start [] where
  means := trivial
  stores := trivial
  last before word name heq := by simp at heq
  made word name hx := by cases hx

/-- The stage of a session tells what its trace was. -/
theorem At.meaning {p : Progress} {trace : Trace} (h : At p trace) : Meaning p trace := by
  induction trace using List.reverseRecOn generalizing p with
  | nil => exact Option.some.inj h ▸ meaning_start
  | append_singleton trace e ih =>
    unfold At at h
    rw [progress_concat] at h
    obtain ⟨p₀, hat, hnext⟩ := Option.bind_eq_some_iff.mp h
    exact (ih hat).moves (moves_of_next hnext)

/-! ## What the names of a session are -/

section

variable {ok : Call → Prop} {cfg : ServerConfig}

theorem keeps_fStor (hok : Allows ok) (av : List (List Byte)) : Keeps ok (fStor cfg av) :=
  quiet_fStor hok.permits (fun _ _ c _ hc => hok.other c (by rw [hc]; decide)) av

theorem keeps_stores (hok : Allows ok) (lines : List (CStr × (Session → Session))) :
    Keeps ok (stores cfg lines) := by
  induction lines with
  | nil => exact quiet_pure _
  | cons x lines ih =>
    refine (keeps_fStor hok _).bind fun rc => Meets.ite (fun _ => ?_) fun _ => ?_
    · exact keeps_reply hok _ _
    · exact Quiet.bind (keeps_modify _) fun _ => ih

/-- What a run of STORs puts into a path is what it decoded from a word. -/
theorem spliced_of_runs {lines : List (CStr × (Session → Session))} {trace : Trace}
    {r : Option (Unit × Session)} (hrun : Runs (stores cfg lines .start) trace r) {key : Key}
    {word name : CStr} (h : ⟨.splice key word name, ()⟩ ∈ trace) : Spliced key word name := by
  obtain ⟨before, after, rfl⟩ := List.append_of_mem h
  exact ((keeps_stores allows_spliced lines .start [] trivial).run hrun).1 before _ after rfl key
    word name rfl

end

/-- A word with known escapes stands for one name. -/
theorem Spliced.unique {key key' : Key} {word name name' : CStr} (h : Spliced key word name)
    (h' : Spliced key' word name') (hw : wellEscaped word = true) : name = name' := by
  obtain ⟨buf, mem, hmem, hname⟩ := h.decodes
  obtain ⟨buf', mem', hmem', hname'⟩ := h'.decodes
  rw [← hmem] at hw
  rw [decode_spelled_eq hw hname]
  rw [hmem, ← hmem'] at hw
  rw [decode_spelled_eq hw hname', hmem, hmem']
  rw [hmem'] at hw
  rw [decodedOver_eq_decoded hw, decodedOver_eq_decoded hw]

end Server
end Radmind
