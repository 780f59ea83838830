import Radmind.Command.Quiet
import Radmind.Lib.LabelledRun

/-!
# The stages of a store

What `f_stor` may do next is told by what it has done.  A session that makes one STOR after
the other goes from stage to stage, and leaves a store only by its end or by an error.
-/

namespace Radmind
namespace Server

open Interaction LabelledRun

/-! ## Stages -/

/-- `xscriptdir` -/
def xscriptDir (tran : CStr) : CStr := lit "tmp/file/" ++ tran

def fileUpload (tran path : CStr) : CStr :=
  xscriptDir tran ++ if path.head? = some slash then path else slash :: path

/-- The code of a reply that refuses something. -/
def IsError (code : Nat) : Prop := 400 ≤ code ∧ code < 600

instance (code : Nat) : Decidable (IsError code) := inferInstanceAs (Decidable (_ ∧ _))

/-- How far a STOR is, with the path of the file and what has been read for it. -/
inductive Stage
  | idle
  | named (word name : CStr)
  | fileNamed (word name : CStr)
  | making (file : Bool) (upload : CStr)
  | created (file : Bool) (upload : CStr) (fd : Nat)
  /-- `pending` is what was read and is not yet written. -/
  | storing (upload : CStr) (fd : Nat) (data : List Byte) (pending : Option (List Byte))
  | closed (upload : CStr) (data : List Byte)
  | agreed (upload : CStr) (data : List Byte)
  | unmatched (upload : CStr)
  | refused (upload : CStr)
  | failing
  deriving DecidableEq, Repr

/-- The stage, and the word and the name of the last transcript whose directory was made. -/
structure Progress where
  xscript : Option (CStr × CStr)
  stage : Stage
  deriving DecidableEq, Repr

namespace Progress

def start : Progress := { xscript := none, stage := .idle }

variable (p : Progress)

def onSplice (key : Key) (word name : CStr) : Option Progress :=
  match p.stage, key with
  | .idle, .transcript => some { p with stage := .named word name }
  | .idle, .file =>
    if p.xscript.map Prod.fst = some word then some { p with stage := .fileNamed word name }
    else none
  | .fileNamed _ tran, .file =>
    some { p with stage := .making true (fileUpload tran name) }
  | _, _ => none

def onMkdir (dir : CStr) (made : Bool) : Option Progress :=
  match p.stage with
  | .named word name =>
    if dir = xscriptDir name then
      if made then
        some { xscript := some (word, name), stage := .making false (lit "tmp/transcript/" ++ name) }
      else some { p with stage := .failing }
    else none
  | .making _ _ => some p
  | _ => none

def onCreate (path : CStr) (fd : Option Nat) : Option Progress :=
  match p.stage with
  | .making file upload =>
    if path = upload then
      match fd with
      | some fd => some { p with stage := .created file upload fd }
      | none => some p
    else none
  | _ => none

def onRead (bytes : Option (List Byte)) : Option Progress :=
  match p.stage with
  | .storing upload fd data none => some { p with stage := .storing upload fd data bytes }
  | _ => none

def onWrite (fd : Nat) (bytes : List Byte) (done : Bool) : Option Progress :=
  match p.stage with
  | .storing upload fd' data (some pending) =>
    if fd = fd' ∧ bytes = pending then
      if done then some { p with stage := .storing upload fd' (data ++ pending) none }
      else some { p with stage := .failing }
    else none
  | _ => none

def onClose (fd : Nat) (done : Bool) : Option Progress :=
  match p.stage with
  | .storing upload fd' data none =>
    if fd = fd' then
      if done then some { p with stage := .closed upload data } else some { p with stage := .failing }
    else none
  | _ => none

def onGetline (line : Option CStr) : Option Progress :=
  match p.stage, line with
  | .storing _ _ _ none, _ => some p
  | .closed _ _, none => some p
  | .closed upload data, some line =>
    if line = lit "." then some { p with stage := .agreed upload data }
    else some { p with stage := .unmatched upload }
  | _, _ => none

def onUnlink (path : CStr) : Option Progress :=
  match p.stage with
  | .refused upload => if path = upload then some { p with stage := .idle } else none
  | _ => none

/-- A reply is the one of its stage, or an error. -/
def onReply (code : Nat) : Option Progress :=
  match p.stage with
  | .created _ upload fd =>
    if code = 350 then some { p with stage := .storing upload fd [] none } else none
  | .agreed _ _ => if code = 250 then some { p with stage := .idle } else none
  | .unmatched upload =>
    if IsError code then some { p with stage := .refused upload } else none
  | _ => if IsError code then some { p with stage := .idle } else none

def next : (c : Call) → Answer c → Option Progress
  | .delay, _ => if p.stage = .idle then some p else none
  | .splice key word name, _ => p.onSplice key word name
  | .mkdir dir, .ok _ => p.onMkdir dir true
  | .mkdir dir, .error _ => p.onMkdir dir false
  | .create path, .ok fd => p.onCreate path (some fd)
  | .create path, .error _ => p.onCreate path none
  | .read _, none => p.onRead none
  | .read _, some bytes => p.onRead (some bytes.val)
  | .write fd bytes, .ok _ => p.onWrite fd bytes true
  | .write fd bytes, .error _ => p.onWrite fd bytes false
  | .close fd, .ok _ => p.onClose fd true
  | .close fd, .error _ => p.onClose fd false
  | .getline, none => p.onGetline none
  | .getline, some line => p.onGetline (some (cstr line))
  | .unlink path, _ => p.onUnlink path
  | .reply code _, _ => p.onReply code
  | _, _ => none

end Progress

/-- An error that ends the request. -/
def Stage.Refuses : Stage → Prop
  | .created _ _ _ | .agreed _ _ | .unmatched _ => False
  | _ => True

/-- All that can happen at a stage. -/
inductive Moves (xscript : Option (CStr × CStr)) :
    Stage → (c : Call) → Answer c → Progress → Prop
  | delay {a} : Moves xscript .idle .delay a ⟨xscript, .idle⟩
  | transcript {word name a} :
    Moves xscript .idle (.splice .transcript word name) a ⟨xscript, .named word name⟩
  | file {word name a} : xscript.map Prod.fst = some word →
    Moves xscript .idle (.splice .file word name) a ⟨xscript, .fileNamed word name⟩
  | path {word tran word' name a} : Moves xscript (.fileNamed word tran) (.splice .file word' name) a
    ⟨xscript, .making true (fileUpload tran name)⟩
  | made {word name a} : Moves xscript (.named word name) (.mkdir (xscriptDir name)) (.ok a)
    ⟨some (word, name), .making false (lit "tmp/transcript/" ++ name)⟩
  | notMade {word name e} : Moves xscript (.named word name) (.mkdir (xscriptDir name)) (.error e)
    ⟨xscript, .failing⟩
  | above {file upload dir r} :
    Moves xscript (.making file upload) (.mkdir dir) r ⟨xscript, .making file upload⟩
  | created {file upload fd} : Moves xscript (.making file upload) (.create upload) (.ok fd)
    ⟨xscript, .created file upload fd⟩
  | notCreated {file upload e} : Moves xscript (.making file upload) (.create upload) (.error e)
    ⟨xscript, .making file upload⟩
  | storing {file upload fd text a} : Moves xscript (.created file upload fd) (.reply 350 text) a
    ⟨xscript, .storing upload fd [] none⟩
  | sized {upload fd data line} : Moves xscript (.storing upload fd data none) .getline line
    ⟨xscript, .storing upload fd data none⟩
  | read {upload fd data max bytes} : Moves xscript (.storing upload fd data none) (.read max) bytes
    ⟨xscript, .storing upload fd data (bytes.map Subtype.val)⟩
  | wrote {upload fd data bytes a} :
    Moves xscript (.storing upload fd data (some bytes)) (.write fd bytes) (.ok a)
      ⟨xscript, .storing upload fd (data ++ bytes) none⟩
  | notWritten {upload fd data bytes e} :
    Moves xscript (.storing upload fd data (some bytes)) (.write fd bytes) (.error e)
      ⟨xscript, .failing⟩
  | closed {upload fd data a} : Moves xscript (.storing upload fd data none) (.close fd) (.ok a)
    ⟨xscript, .closed upload data⟩
  | notClosed {upload fd data e} :
    Moves xscript (.storing upload fd data none) (.close fd) (.error e) ⟨xscript, .failing⟩
  | noLine {upload data} :
    Moves xscript (.closed upload data) .getline none ⟨xscript, .closed upload data⟩
  | agreed {upload data line} : cstr line = lit "." →
    Moves xscript (.closed upload data) .getline (some line) ⟨xscript, .agreed upload data⟩
  | unmatched {upload data line} : cstr line ≠ lit "." →
    Moves xscript (.closed upload data) .getline (some line) ⟨xscript, .unmatched upload⟩
  | stored {upload data text a} :
    Moves xscript (.agreed upload data) (.reply 250 text) a ⟨xscript, .idle⟩
  | mismatch {upload code text a} : IsError code →
    Moves xscript (.unmatched upload) (.reply code text) a ⟨xscript, .refused upload⟩
  | unlinked {upload a} : Moves xscript (.refused upload) (.unlink upload) a ⟨xscript, .idle⟩
  | error {stage code text a} : stage.Refuses → IsError code →
    Moves xscript stage (.reply code text) a ⟨xscript, .idle⟩

/-! ## What happens at a stage -/

section

variable {xscript : Option (CStr × CStr)} {stage : Stage} {p' : Progress}

theorem moves_splice {key : Key} {word name : CStr} {a : Unit}
    (h : (⟨xscript, stage⟩ : Progress).onSplice key word name = some p') :
    Moves xscript stage (.splice key word name) a p' := by
  unfold Progress.onSplice at h
  cases stage with
  | idle =>
    cases key with
    | transcript => exact Option.some.inj h ▸ .transcript
    | file =>
      obtain ⟨hword, rfl⟩ := of_guard h
      exact .file hword
    | _ => cases h
  | fileNamed word tran =>
    cases key with
    | file => exact Option.some.inj h ▸ .path
    | _ => cases h
  | _ => cases h

theorem moves_mkdir {dir : CStr} {r : Except Errno Unit}
    (h : (⟨xscript, stage⟩ : Progress).onMkdir dir r.isOk = some p') :
    Moves xscript stage (.mkdir dir) r p' := by
  unfold Progress.onMkdir at h
  cases stage with
  | named word name =>
    dsimp only at h
    by_cases hdir : dir = xscriptDir name
    · rw [if_pos hdir] at h
      subst hdir
      cases r with
      | ok a => exact Option.some.inj h ▸ .made
      | error e => exact Option.some.inj h ▸ .notMade
    · rw [if_neg hdir] at h
      cases h
  | making file upload => exact Option.some.inj h ▸ .above
  | _ => cases h

theorem moves_create {path : CStr} {r : Except Errno Nat}
    (h : (⟨xscript, stage⟩ : Progress).onCreate path r.toOption = some p') :
    Moves xscript stage (.create path) r p' := by
  unfold Progress.onCreate at h
  cases stage with
  | making file upload =>
    dsimp only at h
    by_cases hpath : path = upload
    · rw [if_pos hpath] at h
      subst hpath
      cases r with
      | ok fd => exact Option.some.inj h ▸ .created
      | error e => exact Option.some.inj h ▸ .notCreated
    · rw [if_neg hpath] at h
      cases h
  | _ => cases h

theorem moves_read {max : Nat} {bytes : Answer (.read max)}
    (h : (⟨xscript, stage⟩ : Progress).onRead (bytes.map Subtype.val) = some p') :
    Moves xscript stage (.read max) bytes p' := by
  unfold Progress.onRead at h
  cases stage with
  | storing upload fd data pending =>
    cases pending with
    | none => exact Option.some.inj h ▸ .read
    | some _ => cases h
  | _ => cases h

theorem moves_write {fd : Nat} {bytes : List Byte} {r : Except Errno Unit}
    (h : (⟨xscript, stage⟩ : Progress).onWrite fd bytes r.isOk = some p') :
    Moves xscript stage (.write fd bytes) r p' := by
  unfold Progress.onWrite at h
  cases stage with
  | storing upload fd' data pending =>
    cases pending with
    | none => cases h
    | some pending =>
      dsimp only at h
      by_cases hsame : fd = fd' ∧ bytes = pending
      · rw [if_pos hsame] at h
        obtain ⟨rfl, rfl⟩ := hsame
        cases r with
        | ok a => exact Option.some.inj h ▸ .wrote
        | error e => exact Option.some.inj h ▸ .notWritten
      · rw [if_neg hsame] at h
        cases h
  | _ => cases h

theorem moves_close {fd : Nat} {r : Except Errno Unit}
    (h : (⟨xscript, stage⟩ : Progress).onClose fd r.isOk = some p') :
    Moves xscript stage (.close fd) r p' := by
  unfold Progress.onClose at h
  cases stage with
  | storing upload fd' data pending =>
    cases pending with
    | some _ => cases h
    | none =>
      dsimp only at h
      by_cases hsame : fd = fd'
      · rw [if_pos hsame] at h
        subst hsame
        cases r with
        | ok a => exact Option.some.inj h ▸ .closed
        | error e => exact Option.some.inj h ▸ .notClosed
      · rw [if_neg hsame] at h
        cases h
  | _ => cases h

theorem moves_getline {line : Option (List Byte)}
    (h : (⟨xscript, stage⟩ : Progress).onGetline (line.map cstr) = some p') :
    Moves xscript stage .getline line p' := by
  unfold Progress.onGetline at h
  cases stage with
  | storing upload fd data pending =>
    cases pending with
    | none => exact Option.some.inj h ▸ .sized
    | some _ => cases line <;> cases h
  | closed upload data =>
    cases line with
    | none => exact Option.some.inj h ▸ .noLine
    | some line =>
      dsimp only [Option.map_some] at h
      by_cases hdot : cstr line = lit "."
      · rw [if_pos hdot] at h
        exact Option.some.inj h ▸ .agreed hdot
      · rw [if_neg hdot] at h
        exact Option.some.inj h ▸ .unmatched hdot
  | _ => cases line <;> cases h

theorem moves_unlink {path : CStr} {a : Bool}
    (h : (⟨xscript, stage⟩ : Progress).onUnlink path = some p') :
    Moves xscript stage (.unlink path) a p' := by
  unfold Progress.onUnlink at h
  cases stage with
  | refused upload =>
    obtain ⟨rfl, rfl⟩ := of_guard h
    exact .unlinked
  | _ => cases h

theorem moves_reply {code : Nat} {text : CStr} {a : Unit}
    (h : (⟨xscript, stage⟩ : Progress).onReply code = some p') :
    Moves xscript stage (.reply code text) a p' := by
  unfold Progress.onReply at h
  cases stage with
  | created file upload fd =>
    obtain ⟨rfl, rfl⟩ := of_guard h
    exact .storing
  | agreed upload data =>
    obtain ⟨rfl, rfl⟩ := of_guard h
    exact .stored
  | unmatched upload =>
    obtain ⟨hcode, rfl⟩ := of_guard h
    exact .mismatch hcode
  | _ =>
    obtain ⟨hcode, rfl⟩ := of_guard h
    exact .error trivial hcode

/-- What happens at a stage is one of these. -/
theorem moves_of_next {c : Call} {a : Answer c}
    (h : (⟨xscript, stage⟩ : Progress).next c a = some p') : Moves xscript stage c a p' := by
  cases c with
  | delay =>
    obtain ⟨hstage, rfl⟩ := of_guard h
    obtain rfl : stage = .idle := hstage
    exact .delay
  | splice key word name => exact moves_splice h
  | mkdir dir =>
    cases a with
    | ok _ => exact moves_mkdir h
    | error _ => exact moves_mkdir h
  | create path =>
    cases a with
    | ok _ => exact moves_create h
    | error _ => exact moves_create h
  | read max =>
    cases a with
    | none => exact moves_read h
    | some _ => exact moves_read h
  | write fd bytes =>
    cases a with
    | ok _ => exact moves_write h
    | error _ => exact moves_write h
  | close fd =>
    cases a with
    | ok _ => exact moves_close h
    | error _ => exact moves_close h
  | getline =>
    cases a with
    | none => exact moves_getline h
    | some _ => exact moves_getline h
  | unlink path => exact moves_unlink h
  | reply code text => exact moves_reply h
  | _ => cases h

end

/-! ## Traces -/

/-- How far a session is behind its trace, if it kept to the stages. -/
def progress (trace : Trace) : Option Progress :=
  trace.foldlM (fun p e => p.next e.call e.answer) .start

def At (p : Progress) (trace : Trace) : Prop := progress trace = some p

/-- A call that the stage allows, whatever its answer is. -/
def Staged (trace : Trace) (c : Call) : Prop :=
  ∀ a : Answer c, (progress (trace ++ [⟨c, a⟩])).isSome

theorem progress_concat (trace : Trace) (e : Event Answer) :
    progress (trace ++ [e]) = (progress trace).bind fun p => p.next e.call e.answer := by
  unfold progress
  rw [List.foldlM_append]
  simp

theorem At.snoc {p p' : Progress} {trace : Trace} (h : At p trace) {c : Call} {a : Answer c}
    (hnext : p.next c a = some p') : At p' (trace ++ [⟨c, a⟩]) := by
  unfold At at h ⊢
  rw [progress_concat, h]
  exact hnext

/-! ## A session of stores -/

/-- The STORs of a session, one after the other.  Other requests may set the other variables
between two of them. -/
def stores (cfg : ServerConfig) : List (CStr × (Session → Session)) → Serve Unit
  | [] => return ()
  | (line, others) :: lines => do
    let rc ← fStor cfg (acavParse (line ++ [nul])).2
    if rc < 0 then reply 444 (lit "Server closing connection")
    else do
      modify fun s => { others s with uploadXscript := s.uploadXscript }
      stores cfg lines

/-- `upload_xscript` is the word of the last transcript whose directory was made. -/
def Linked (xscript : Option (CStr × CStr)) (uploadXscript : CStr) : Prop :=
  uploadXscript = (xscript.map Prod.fst).getD []

/-- A session at a stage. -/
def In (stage : Stage) (s : Session) (trace : Trace) : Prop :=
  ∃ xscript, At ⟨xscript, stage⟩ trace ∧ Linked xscript s.uploadXscript

theorem in_start : In .idle .start [] := ⟨none, rfl, rfl⟩

/-- A program that leads from a stage to one that its value tells. -/
abbrev Proceeds {α : Type} (stage : Stage) (x : Serve α) (post : α → Stage → Prop) : Prop :=
  Meets Staged (In stage) x fun a s trace => ∃ stage', post a stage' ∧ In stage' s trace

section

variable {α β : Type} {stage : Stage} {x : Serve α} {post post' : α → Stage → Prop}

theorem Proceeds.bind {f : α → Serve β} {final : β → Stage → Prop}
    (h : Proceeds stage x post)
    (hf : ∀ a stage', post a stage' → Proceeds stage' (f a) final) :
    Proceeds stage (x >>= f) final := by
  refine Meets.bind h fun a s trace hs => ?_
  obtain ⟨stage', hpost, hin⟩ := hs
  exact hf a stage' hpost s trace hin

theorem Proceeds.mono (h : Proceeds stage x post)
    (hpost : ∀ a stage', post a stage' → post' a stage') : Proceeds stage x post' := by
  refine Meets.mono h (fun _ _ hs => hs) fun a s trace hs => ?_
  obtain ⟨stage', ha, hin⟩ := hs
  exact ⟨stage', hpost a stage' ha, hin⟩

theorem proceeds_pure {a : α} (h : post a stage) : Proceeds stage (pure a) post :=
  meets_pure fun _ _ hs => ⟨stage, h, hs⟩

/-- A call that does not touch the transcript. -/
theorem proceeds_call {c : Call} (after : Answer c → Stage)
    (h : ∀ xscript a, (⟨xscript, stage⟩ : Progress).next c a = some ⟨xscript, after a⟩) :
    Proceeds stage (call c) fun a stage' => stage' = after a := by
  refine meets_perform (fun s trace hs a => ?_) fun s trace a hs => ?_
  · obtain ⟨xscript, hat, -⟩ := hs
    rw [hat.snoc (h xscript a)]
    rfl
  · obtain ⟨xscript, hat, hlinked⟩ := hs
    exact ⟨after a, rfl, xscript, hat.snoc (h xscript a), hlinked⟩

theorem proceeds_exit (status : Nat) : Proceeds stage (exit status : Serve α) post :=
  fun _ _ _ => ⟨fun a => a.elim, fun a => a.elim⟩

theorem proceeds_overrun : Proceeds stage (overrun : Serve α) post :=
  fun _ _ _ => ⟨fun a => a.elim, fun a => a.elim⟩

/-- The state is asked for. -/
theorem proceeds_get {f : Session → Serve α}
    (h : ∀ s trace, In stage s trace → Safe Staged
      (fun r trace => ∃ stage', post r.1 stage' ∧ In stage' r.2 trace) (f s s) trace) :
    Proceeds stage (get >>= f) post := fun s trace hs => h s trace hs

/-- The other variables are set. -/
theorem proceeds_modify {f : Session → Session}
    (hf : ∀ s, (f s).uploadXscript = s.uploadXscript) :
    Proceeds stage (modify f) fun _ stage' => stage' = stage :=
  meets_modify fun s trace hs => by
    obtain ⟨xscript, hat, hlinked⟩ := hs
    refine ⟨stage, rfl, xscript, hat, ?_⟩
    rw [hf s]
    exact hlinked

theorem proceeds_arg (av : List (List Byte)) (i : Nat) :
    Proceeds stage (arg av i) fun mem stage' => stage' = stage ∧ av[i]? = some mem := by
  unfold arg
  split
  · next mem hmem => exact proceeds_pure ⟨rfl, hmem⟩
  · exact proceeds_overrun

theorem proceeds_decodeArg (mem : List Byte) :
    Proceeds stage (decodeArg mem) fun r stage' => stage' = stage ∧
      ∀ name, r = some name → Reads mem name := by
  intro s trace hs
  exact ⟨stage, ⟨rfl, fun name hname => ⟨s.buf, hname⟩⟩, hs⟩

theorem next_refuse (hstage : stage.Refuses) {code : Nat} (hcode : IsError code)
    (xscript : Option (CStr × CStr)) (text : CStr) (a : Unit) :
    (⟨xscript, stage⟩ : Progress).next (.reply code text) a = some ⟨xscript, .idle⟩ := by
  show (⟨xscript, stage⟩ : Progress).onReply code = _
  unfold Progress.onReply
  cases stage with
  | created _ _ _ => exact hstage.elim
  | agreed _ _ => exact hstage.elim
  | unmatched _ => exact hstage.elim
  | _ => exact if_pos hcode

theorem proceeds_error (hstage : stage.Refuses) {code : Nat} (hcode : IsError code) (text : CStr) :
    Proceeds stage (reply code text) fun _ stage' => stage' = .idle :=
  proceeds_call (fun _ => .idle) fun xscript a => next_refuse hstage hcode xscript text a

/-- An error, and the end of the process. -/
theorem meets_leave {pre : Session → Trace → Prop} {final : α → Session → Trace → Prop}
    (hpre : ∀ s trace, pre s trace → ∃ xscript, At ⟨xscript, stage⟩ trace)
    (hstage : stage.Refuses) {code : Nat} (hcode : IsError code) (text : CStr) (status : Nat) :
    Meets Staged pre (do reply code text; exit status : Serve α) final := by
  intro s trace hs
  obtain ⟨xscript, hat⟩ := hpre s trace hs
  refine ⟨fun a => ?_, fun _ => ⟨fun a => a.elim, fun a => a.elim⟩⟩
  rw [hat.snoc (next_refuse hstage hcode xscript text a)]
  rfl

theorem proceeds_leave (hstage : stage.Refuses) {code : Nat} (hcode : IsError code) (text : CStr)
    (status : Nat) : Proceeds stage (do reply code text; exit status : Serve α) post :=
  meets_leave (fun _ _ hs => hs.imp fun _ h => h.1) hstage hcode text status

/-! ## f_stor -/

/-- The path of the file is chosen, or the request was refused. -/
def Chosen : Except Int CStr → Stage → Prop
  | .ok upload, stage => ∃ file, stage = .making file upload
  | .error _, stage => stage = .idle

theorem proceeds_refuse (hstage : stage.Refuses) {code : Nat} (hcode : IsError code) (text : CStr) :
    Proceeds stage (refuse code text) Chosen := by
  refine (proceeds_error hstage hcode text).bind fun _ stage' hidle => ?_
  exact proceeds_pure hidle

theorem proceeds_checkPath {file : Bool} {upload : CStr} :
    Proceeds (.making file upload) (checkPath upload) Chosen := by
  unfold checkPath
  split_ifs
  · exact proceeds_refuse (by trivial) (by decide) _
  · exact proceeds_pure ⟨file, rfl⟩

theorem proceeds_decodeName (mem : List Byte) :
    Proceeds .idle (decodeName mem) fun r stage' => stage' = .idle ∧ IfOk (Reads mem) r := by
  refine (proceeds_decodeArg mem).bind fun r stage' h => ?_
  obtain ⟨rfl, hname⟩ := h
  cases r with
  | none =>
    refine Proceeds.bind (proceeds_error (by trivial) (by decide) _) fun _ stage' hidle => ?_
    exact proceeds_pure ⟨hidle, fun name hok => by cases hok⟩
  | some name =>
    refine proceeds_pure ⟨rfl, fun name' hok => ?_⟩
    rw [← Except.ok.inj hok]
    exact hname name rfl

theorem proceeds_storTranscript {av : List (List Byte)} {tran : List Byte} (name : CStr)
    (htran : av[2]? = some tran) : Proceeds .idle (storTranscript av tran name) Chosen := by
  unfold storTranscript
  refine (proceeds_call (fun _ => .named (cstr tran) name) fun _ _ => rfl).bind
    fun _ stage' hnamed => ?_
  subst hnamed
  refine (proceeds_arg av 2).bind fun mem stage' h => ?_
  obtain ⟨rfl, hmem⟩ := h
  obtain rfl : tran = mem := Option.some.inj (htran.symm.trans hmem)
  refine Meets.ite (fun _ => proceeds_refuse (by trivial) (by decide) _) fun _ => ?_
  -- from here to the answer of `mkdir` the variable is ahead of the stage
  have hmodify : Meets Staged (In (.named (cstr tran) name))
      (modify fun s => { s with uploadXscript := cstr tran })
      fun _ s trace => ∃ xscript, At ⟨xscript, .named (cstr tran) name⟩ trace ∧
        s.uploadXscript = cstr tran :=
    meets_modify fun s trace hs => hs.imp fun xscript h => ⟨h.1, rfl⟩
  refine Meets.bind hmodify fun _ => ?_
  have hmkdir : ∀ xscript (r : Except Errno Unit), (⟨xscript, .named (cstr tran) name⟩ :
      Progress).next (.mkdir (xscriptDir name)) r =
        match r with
        | .ok _ => some ⟨some (cstr tran, name), .making false (lit "tmp/transcript/" ++ name)⟩
        | .error _ => some ⟨xscript, .failing⟩ := by
    intro xscript r
    cases r with
    | ok _ => exact if_pos rfl
    | error _ => exact if_pos rfl
  have hcall : Meets Staged (fun s trace => ∃ xscript,
        At ⟨xscript, .named (cstr tran) name⟩ trace ∧ s.uploadXscript = cstr tran)
      (call (.mkdir (xscriptDir name)))
      fun (r : Except Errno Unit) s trace => match r with
        | .ok _ => In (.making false (lit "tmp/transcript/" ++ name)) s trace
        | .error _ => ∃ xscript, At ⟨xscript, .failing⟩ trace := by
    refine meets_perform (fun s trace hs r => ?_) fun s trace r hs => ?_
    · obtain ⟨xscript, hat, -⟩ := hs
      have hnext := hmkdir xscript r
      cases r with
      | ok _ => rw [hat.snoc hnext]; rfl
      | error _ => rw [hat.snoc hnext]; rfl
    · obtain ⟨xscript, hat, hword⟩ := hs
      have hnext := hmkdir xscript r
      cases r with
      | ok _ => exact ⟨some (cstr tran, name), hat.snoc hnext, hword⟩
      | error _ => exact ⟨xscript, hat.snoc hnext⟩
  refine Meets.bind hcall fun r => ?_
  · have hfail : ∀ code text, IsError code → Meets Staged
        (fun _ trace => ∃ xscript, At ⟨xscript, .failing⟩ trace)
        (do reply code text; exit 1 : Serve (Except Int CStr))
        fun a s trace => ∃ stage', Chosen a stage' ∧ In stage' s trace := fun code text hcode =>
      meets_leave (fun _ _ h => h) (by trivial) hcode text 1
    match r with
    | .ok _ => exact proceeds_pure ⟨false, rfl⟩
    | .error .eexist => exact hfail _ _ (by decide)
    | .error .enoent => exact hfail _ _ (by decide)
    | .error .einval => exact hfail _ _ (by decide)
    | .error (.other text) => exact hfail _ _ (by decide)

/-- Between STORs, with a known `upload_xscript`. -/
def Held (word : CStr) (s : Session) (trace : Trace) : Prop :=
  In .idle s trace ∧ s.uploadXscript = word

theorem held_arg (word : CStr) (av : List (List Byte)) (i : Nat) :
    Meets Staged (Held word) (arg av i) fun _ => Held word := by
  unfold arg
  split
  · exact meets_pure fun _ _ hs => hs
  · exact fun _ _ _ => ⟨fun a => a.elim, fun a => a.elim⟩

/-- The name of the file is decoded while the transcript stays the same. -/
theorem held_decodeName (word : CStr) (mem : List Byte) :
    Meets Staged (Held word) (decodeName mem) fun r s trace => match r with
      | .ok _ => Held word s trace
      | .error _ => In .idle s trace := by
  intro s trace hs
  rw [decodeName_eq]
  cases (decode s.buf mem).1 with
  | some name => exact hs
  | none =>
    have hin : In .idle { s with buf := (decode s.buf mem).2 } trace := hs.1
    refine Safe.bind (proceeds_error (by trivial) (by decide) (lit "Line too long") _ trace hin)
      fun r trace' hr => ?_
    obtain ⟨_, rfl, hin'⟩ := hr
    exact hin'

/-- The transcript of a file is the last one whose directory was made. -/
theorem held_splice {word : CStr} (hne : word ≠ []) {tran : List Byte} (htran : cstr tran = word)
    (name : CStr) :
    Meets Staged (Held word) (splice .file tran name) fun _ => In (.fileNamed word name) := by
  have hnext : ∀ xscript, Linked xscript word →
      (⟨xscript, .idle⟩ : Progress).next (.splice .file (cstr tran) name) () =
        some ⟨xscript, .fileNamed word name⟩ := by
    intro xscript hlinked
    have hword : xscript.map Prod.fst = some word := by
      cases xscript with
      | none => exact absurd hlinked hne
      | some x => exact congrArg some hlinked.symm
    rw [htran]
    exact if_pos hword
  refine meets_perform (fun s trace hs a => ?_) fun s trace a hs => ?_
  · obtain ⟨⟨xscript, hat, hlinked⟩, hword⟩ := hs
    rw [hat.snoc (hnext xscript (hword ▸ hlinked))]
    rfl
  · obtain ⟨⟨xscript, hat, hlinked⟩, hword⟩ := hs
    exact ⟨xscript, hat.snoc (hnext xscript (hword ▸ hlinked)), hlinked⟩

theorem proceeds_storFile {av : List (List Byte)} {tran : List Byte} (name : CStr)
    (htran : av[2]? = some tran) (hne : cstr tran ≠ []) :
    Proceeds .idle (storFile av tran name) Chosen := by
  unfold storFile
  refine (proceeds_arg av 2).bind fun mem stage' h => ?_
  obtain ⟨rfl, hmem⟩ := h
  obtain rfl : tran = mem := Option.some.inj (htran.symm.trans hmem)
  refine proceeds_get fun s trace hs => ?_
  show Safe Staged _ ((if s.uploadXscript ≠ cstr tran then _ else _ : Serve (Except Int CStr)) s)
    trace
  split_ifs with hother
  · exact proceeds_leave (by trivial) (by decide) _ 1 s trace hs
  have hheld : Held (cstr tran) s trace := ⟨hs, not_not.mp hother⟩
  refine (Meets.bind (held_arg (cstr tran) av 3) fun file => ?_ :
    Meets Staged (Held (cstr tran)) _ fun a s trace => ∃ stage', Chosen a stage' ∧ In stage' s trace)
      s trace hheld
  refine Meets.bind (held_decodeName (cstr tran) file) fun r => ?_
  cases r with
  | error rc => exact meets_pure fun s trace hin => ⟨.idle, rfl, hin⟩
  | ok path =>
    refine Meets.bind (held_splice hne rfl name) fun _ => ?_
    refine Proceeds.bind (proceeds_call (fun _ => .making true (fileUpload name path))
      fun _ _ => rfl) fun _ stage' hmaking => ?_
    subst hmaking
    unfold fileUpload xscriptDir
    refine Meets.ite (fun hslash => ?_) fun hslash => ?_
    · rw [if_pos hslash]
      exact proceeds_checkPath
    · rw [if_neg hslash]
      exact proceeds_checkPath

/-- `mkdirs` stays where it was called. -/
theorem proceeds_mkdirsUp {file : Bool} {upload : CStr} (dirs missing : List CStr) :
    Proceeds (.making file upload) (mkdirsUp dirs missing)
      fun _ stage' => stage' = .making file upload := by
  induction dirs generalizing missing with
  | nil => exact proceeds_pure rfl
  | cons dir dirs ih =>
    refine (proceeds_call (fun _ => .making file upload) fun _ r => by cases r <;> rfl).bind
      fun r stage' h => ?_
    subst h
    match r with
    | .ok _ => exact proceeds_pure rfl
    | .error .eexist => exact proceeds_pure rfl
    | .error .enoent => exact ih _
    | .error .einval => exact proceeds_pure rfl
    | .error (.other text) => exact proceeds_pure rfl

theorem proceeds_mkdirsDown {file : Bool} {upload : CStr} (dirs : List CStr) :
    Proceeds (.making file upload) (mkdirsDown dirs)
      fun _ stage' => stage' = .making file upload := by
  induction dirs with
  | nil => exact proceeds_pure rfl
  | cons dir dirs ih =>
    refine (proceeds_call (fun _ => .making file upload) fun _ r => by cases r <;> rfl).bind
      fun r stage' h => ?_
    subst h
    match r with
    | .ok _ => exact ih
    | .error .eexist => exact ih
    | .error .enoent => exact proceeds_pure rfl
    | .error .einval => exact proceeds_pure rfl
    | .error (.other text) => exact proceeds_pure rfl

theorem proceeds_mkdirs {file : Bool} {upload : CStr} (path : CStr) :
    Proceeds (.making file upload) (mkdirs path) fun _ stage' => stage' = .making file upload := by
  refine (proceeds_mkdirsUp _ _).bind fun r stage' h => ?_
  subst h
  cases r with
  | error e => exact proceeds_pure rfl
  | ok missing => exact proceeds_mkdirsDown missing

theorem proceeds_create {file : Bool} {upload : CStr} :
    Proceeds (.making file upload) (call (.create upload)) fun (r : Except Errno Nat) stage' =>
      stage' = match r with
        | .ok fd => .created file upload fd
        | .error _ => .making file upload :=
  proceeds_call (c := .create upload) (fun (r : Except Errno Nat) => match r with
    | .ok fd => .created file upload fd
    | .error _ => .making file upload) fun _ r => by
      cases r with
      | ok fd => exact if_pos rfl
      | error e => exact if_pos rfl

theorem proceeds_createFile {file : Bool} {upload : CStr} :
    Proceeds (.making file upload) (createFile upload)
      fun fd stage' => stage' = .created file upload fd := by
  unfold createFile
  refine proceeds_create.bind fun r stage' h => ?_
  subst h
  cases r with
  | ok fd => exact proceeds_pure rfl
  | error e =>
    refine (proceeds_mkdirs upload).bind fun r stage' h => ?_
    subst h
    cases r with
    | error e => exact proceeds_leave (by trivial) (by decide) _ 1
    | ok _ =>
      refine proceeds_create.bind fun r stage' h => ?_
      subst h
      cases r with
      | ok fd => exact proceeds_pure rfl
      | error e => exact proceeds_leave (by trivial) (by decide) _ 1

/-- The data is read and written; the loop ends early where the client does. -/
theorem proceeds_storData {upload : CStr} {fd fuel len : Nat} {data : List Byte} :
    Proceeds (.storing upload fd data none) (storData upload fd fuel len)
      fun _ stage' => ∃ data', stage' = .storing upload fd data' none := by
  induction fuel generalizing len data with
  | zero =>
    cases len with
    | zero => exact proceeds_pure ⟨data, rfl⟩
    | succ len => exact proceeds_pure ⟨data, rfl⟩
  | succ fuel ih =>
    cases len with
    | zero => exact proceeds_pure ⟨data, rfl⟩
    | succ len =>
      refine (proceeds_call (c := .read (min (len + 1) 8192)) (fun bytes =>
        .storing upload fd data (bytes.map Subtype.val)) fun _ bytes => by
          cases bytes <;> rfl).bind fun bytes stage' h => ?_
      subst h
      cases bytes with
      | none => exact proceeds_pure ⟨data, rfl⟩
      | some bytes =>
        refine (proceeds_call (c := .write fd bytes.val) (fun (r : Except Errno Unit) => match r with
          | .ok _ => .storing upload fd (data ++ bytes.val) none
          | .error _ => .failing) fun _ r => by
            cases r with
            | ok _ => exact if_pos ⟨rfl, rfl⟩
            | error _ => exact if_pos ⟨rfl, rfl⟩).bind fun r stage' h => ?_
        subst h
        cases r with
        | error e => exact proceeds_leave (by trivial) (by decide) _ 1
        | ok _ => exact ih

/-- What is left of a STOR behind its end. -/
def Over (rc : Int) (stage : Stage) : Prop := 0 ≤ rc → stage = .idle

/-- The stage behind the line that follows the data. -/
def Stage.ofLine (upload : CStr) (data : List Byte) : Option (List Byte) → Stage
  | none => .closed upload data
  | some line => if cstr line = lit "." then .agreed upload data else .unmatched upload

theorem proceeds_storEnd {upload : CStr} {fd : Nat} {data : List Byte} :
    Proceeds (.storing upload fd data none) (storEnd upload fd)
      fun rc stage' => Over rc stage' ∧ stage'.Refuses := by
  unfold storEnd
  refine (proceeds_call (c := .close fd) (fun (r : Except Errno Unit) => match r with
    | .ok _ => .closed upload data
    | .error _ => .failing) fun _ r => by
      cases r with
      | ok _ => exact if_pos rfl
      | error _ => exact if_pos rfl).bind fun r stage' h => ?_
  subst h
  cases r with
  | error e => exact proceeds_leave (by trivial) (by decide) _ 1
  | ok _ =>
    refine (proceeds_call (c := .getline) (Stage.ofLine upload data)
      fun xscript line => ?_).bind fun line stage' h => ?_
    · cases line with
      | none => rfl
      | some line =>
        show (⟨xscript, .closed upload data⟩ : Progress).onGetline (some (cstr line)) = _
        unfold Progress.onGetline
        by_cases hdot : cstr line = lit "."
        · simp only [Stage.ofLine, hdot, if_true]
        · simp only [Stage.ofLine, hdot, if_false]
    subst h
    cases line with
    | none => exact proceeds_pure ⟨fun h => by omega, trivial⟩
    | some line =>
      refine Meets.ite (fun hdot => ?_) fun hdot => ?_
      · rw [Stage.ofLine, if_neg hdot]
        refine (proceeds_call (c := .reply 555 _) (fun _ => .refused upload)
          fun _ _ => rfl).bind fun _ stage' h => ?_
        subst h
        refine (proceeds_call (c := .unlink upload) (fun _ => .idle)
          fun xscript _ => ?_).bind fun _ _ _ => proceeds_exit 1
        show (⟨xscript, .refused upload⟩ : Progress).onUnlink upload = _
        exact if_pos rfl
      · rw [Stage.ofLine, if_pos (not_not.mp hdot)]
        refine (proceeds_call (c := .reply 250 _) (fun _ => .idle)
          fun _ _ => rfl).bind fun _ stage' h => ?_
        exact proceeds_pure ⟨fun _ => h, by rw [h]; trivial⟩

theorem proceeds_storeFile {file : Bool} {upload : CStr} :
    Proceeds (.making file upload) (storeFile upload)
      fun rc stage' => Over rc stage' ∧ stage'.Refuses := by
  unfold storeFile
  refine proceeds_createFile.bind fun fd stage' h => ?_
  subst h
  refine (proceeds_call (c := .reply 350 _) (fun _ => .storing upload fd [] none)
    fun _ _ => rfl).bind fun _ stage' h => ?_
  subst h
  refine (proceeds_call (c := .getline) (fun _ => .storing upload fd [] none)
    fun _ line => by cases line <;> rfl).bind fun sizebuf stage' h => ?_
  subst h
  cases sizebuf with
  | none => exact proceeds_pure ⟨fun h => by omega, trivial⟩
  | some sizebuf =>
    refine Meets.ite (fun _ => proceeds_leave (by trivial) (by decide) _ 1) fun _ => ?_
    refine proceeds_storData.bind fun done stage' h => ?_
    obtain ⟨data, rfl⟩ := h
    refine Meets.ite (fun _ => proceeds_storEnd) fun _ => ?_
    exact proceeds_pure ⟨fun h => by omega, trivial⟩

theorem proceeds_storRequest {cfg : ServerConfig} {av : List (List Byte)}
    (hav : ∀ mem ∈ av, cstr mem ≠ []) :
    Proceeds .idle (storRequest cfg av) fun rc stage' => Over rc stage' ∧ stage'.Refuses := by
  unfold storRequest
  refine (proceeds_arg av 2).bind fun tran stage' h => ?_
  obtain ⟨rfl, htran⟩ := h
  have hne := hav tran (List.mem_of_getElem? htran)
  refine (proceeds_decodeName tran).bind fun r stage' h => ?_
  obtain ⟨rfl, -⟩ := h
  cases r with
  | error rc => exact proceeds_pure ⟨fun _ => rfl, trivial⟩
  | ok name =>
    have hkey : Proceeds .idle (requestKey cfg av) fun _ stage' => stage' = .idle :=
      proceeds_get fun s trace hs => ⟨.idle, rfl, hs⟩
    refine hkey.bind fun key stage' h => ?_
    subst h
    have hpath : Proceeds .idle (storPath key av tran name) Chosen := by
      unfold storPath
      match key with
      | some .transcript => exact proceeds_storTranscript name htran
      | some .file => exact proceeds_storFile name htran hne
      | some .command => exact proceeds_leave (by trivial) (by decide) _ 1
      | some .special => exact proceeds_leave (by trivial) (by decide) _ 1
      | none => exact proceeds_leave (by trivial) (by decide) _ 1
    refine hpath.bind fun upload stage' h => ?_
    cases upload with
    | error rc =>
      obtain rfl : stage' = .idle := h
      exact proceeds_pure ⟨fun _ => rfl, trivial⟩
    | ok upload =>
      obtain ⟨file, rfl⟩ := h
      exact proceeds_storeFile

theorem proceeds_prepareStore : Proceeds .idle prepareStore fun _ stage' => stage' = .idle := by
  unfold prepareStore
  have hget : Proceeds .idle get fun _ stage' => stage' = .idle :=
    meets_get fun s trace hs => ⟨.idle, rfl, hs⟩
  refine hget.bind fun s stage' h => ?_
  subst h
  refine Meets.ite (fun _ => proceeds_pure rfl) fun _ => ?_
  refine (proceeds_call (c := .delay) (fun _ => .idle) fun _ _ => if_pos rfl).bind
    fun done stage' h => ?_
  subst h
  refine Meets.ite (fun _ => ?_) fun _ => proceeds_pure rfl
  refine Proceeds.bind (proceeds_modify (f := fun s => { s with prevstor := true }) fun _ => rfl)
    fun _ stage' h => ?_
  exact proceeds_pure h

/-- A STOR keeps to the stages, and where the session goes on it is over. -/
theorem proceeds_fStor {cfg : ServerConfig} {av : List (List Byte)}
    (hav : ∀ mem ∈ av, cstr mem ≠ []) :
    Proceeds .idle (fStor cfg av) fun rc stage' => Over rc stage' ∧ stage'.Refuses := by
  unfold fStor
  refine proceeds_prepareStore.bind fun prepared stage' h => ?_
  subst h
  refine Meets.ite (fun _ => proceeds_pure ⟨fun h => by omega, trivial⟩) fun _ => ?_
  refine proceeds_get fun s trace hs => ?_
  show Safe Staged _ ((if cfg.checkuser && !s.authorized then _ else _ : Serve Int) s) trace
  split_ifs with hauth
  · have hcode : IsError 551 := by decide
    have hleave : Proceeds .idle (do reply 551 (lit "Not logged in"); exit 1 : Serve Int)
        fun rc stage' => Over rc stage' ∧ stage'.Refuses := proceeds_leave (by trivial) hcode _ 1
    exact hleave s trace hs
  · exact proceeds_storRequest hav s trace hs

theorem proceeds_stores (cfg : ServerConfig) (lines : List (CStr × (Session → Session))) :
    Proceeds .idle (stores cfg lines) fun _ _ => True := by
  induction lines with
  | nil => exact proceeds_pure trivial
  | cons x lines ih =>
    obtain ⟨line, others⟩ := x
    refine (proceeds_fStor fun mem hmem => (acavParse_word hmem).1).bind fun rc stage' h => ?_
    obtain ⟨hover, hrefuses⟩ := h
    refine Meets.ite (fun _ => ?_) fun hpos => ?_
    · have hcode : IsError 444 := by decide
      exact (proceeds_error hrefuses hcode _).mono fun _ _ _ => trivial
    · obtain rfl := hover (by omega)
      refine Proceeds.bind (proceeds_modify fun _ => rfl) fun _ stage' h => ?_
      subst h
      exact ih

end

/-- Behind every part of a run of STORs there is a stage. -/
theorem exists_at {cfg : ServerConfig} {lines : List (CStr × (Session → Session))} {trace : Trace}
    {r : Option (Unit × Session)} (hrun : Runs (stores cfg lines .start) trace r) :
    ∃ p, At p trace := by
  obtain ⟨hcalls, -⟩ := (proceeds_stores cfg lines .start [] in_start).run hrun
  induction trace using List.reverseRecOn with
  | nil => exact ⟨.start, rfl⟩
  | append_singleton before e _ =>
    have hstaged := hcalls before e [] rfl e.answer
    exact Option.isSome_iff_exists.mp hstaged

end Server
end Radmind
