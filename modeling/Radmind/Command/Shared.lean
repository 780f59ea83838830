import Radmind.Command.Uploads
import Radmind.Lib.ExclusiveTree

/-!
# Sessions that share a tree

The sessions store side by side, in any order of their steps.  What a stage holds of the tree
is nobody else's, up to the reply that says that the file is stored; and from then on nobody
touches it.
-/

namespace Radmind
namespace Server

open Interaction LabelledRun ExclusiveTree

variable {ι L : Type}

/-- A step of one session.  Of a write that fails, `part` bytes are written. -/
structure Move (ι : Type) where
  session : ι
  event : Event Answer
  part : Nat

section

variable [DecidableEq ι]

/-- What one session did. -/
def traceOf (i : ι) (moves : List (Move ι)) : Trace :=
  (moves.filter fun m => m.session = i).map Move.event

theorem traceOf_concat (i : ι) (moves : List (Move ι)) (m : Move ι) :
    traceOf i (moves ++ [m]) = traceOf i moves ++ if m.session = i then [m.event] else [] := by
  unfold traceOf
  rw [List.filter_append, List.map_append]
  by_cases hi : m.session = i
  · simp [hi]
  · simp [hi]

theorem traceOf_self (moves : List (Move ι)) (m : Move ι) :
    traceOf m.session (moves ++ [m]) = traceOf m.session moves ++ [m.event] := by
  rw [traceOf_concat, if_pos rfl]

theorem traceOf_other {i : ι} (moves : List (Move ι)) {m : Move ι} (hi : i ≠ m.session) :
    traceOf i (moves ++ [m]) = traceOf i moves := by
  rw [traceOf_concat, if_neg hi.symm, List.append_nil]

/-- The tree behind a step, if the system can answer so. -/
def act [DecidableEq L] (loc : CStr → L) (t : Tree ι L Byte) (m : Move ι) :
    Option (Tree ι L Byte) :=
  match m.event with
  | ⟨.mkdir dir, .ok _⟩ => t.mkdir (loc dir)
  | ⟨.create path, .ok fd⟩ => t.create m.session (loc path) fd
  | ⟨.write fd bytes, .ok _⟩ => t.append m.session fd bytes
  | ⟨.write fd bytes, .error _⟩ => some ((t.append m.session fd (bytes.take m.part)).getD t)
  | ⟨.close fd, _⟩ => some (t.close m.session fd)
  | ⟨.unlink path, true⟩ => t.unlink (loc path)
  | _ => some t

/-! ## What a session has of the tree -/

/-- The file of a stage. -/
def Stage.holding (loc : CStr → L) : Stage → Option (Holding L Byte)
  | .created _ upload fd => some ⟨loc upload, some fd, some []⟩
  | .storing upload fd data _ => some ⟨loc upload, some fd, some data⟩
  | .closed upload data | .agreed upload data => some ⟨loc upload, none, some data⟩
  | .unmatched upload | .refused upload => some ⟨loc upload, none, none⟩
  | _ => none

/-- The directory of a transcript whose file is not yet announced. -/
def Progress.claim (loc : CStr → L) (p : Progress) : Option L :=
  match p.stage with
  | .making false _ | .created false _ _ => p.xscript.map fun x => loc (xscriptDir x.2)
  | _ => none

def heldBy (loc : CStr → L) (moves : List (Move ι)) (i : ι) : Option (Holding L Byte) :=
  (progress (traceOf i moves)).bind fun p => p.stage.holding loc

def claimedBy (loc : CStr → L) (moves : List (Move ι)) (i : ι) : Option L :=
  (progress (traceOf i moves)).bind fun p => p.claim loc

/-- The session told its client that the file is stored. -/
def Acknowledges (moves : List (Move ι)) (m : Move ι) (upload : CStr) (data : List Byte) : Prop :=
  ∃ xscript text, m.event = ⟨.reply 250 text, ()⟩ ∧
    At ⟨xscript, .agreed upload data⟩ (traceOf m.session moves)

/-- The session told its client to send the transcript. -/
def Announces (moves : List (Move ι)) (m : Move ι) (word name : CStr) : Prop :=
  ∃ upload fd text, m.event = ⟨.reply 350 text, ()⟩ ∧
    At ⟨some (word, name), .created false upload fd⟩ (traceOf m.session moves)

def Acknowledged (loc : CStr → L) (moves : List (Move ι)) (l : L) (data : List Byte) : Prop :=
  ∃ before m after upload, moves = before ++ m :: after ∧ Acknowledges before m upload data ∧
    l = loc upload

def Announced (loc : CStr → L) (moves : List (Move ι)) (l : L) : Prop :=
  ∃ before m after word name, moves = before ++ m :: after ∧ Announces before m word name ∧
    l = loc (xscriptDir name)

/-- A split of a list at an element is one of its first part, or the element is the last. -/
theorem split_concat {α : Type} {list before after : List α} {x y : α}
    (h : list ++ [x] = before ++ y :: after) :
    (before = list ∧ y = x ∧ after = []) ∨ ∃ after', list = before ++ y :: after' := by
  cases after using List.reverseRecOn with
  | nil =>
    obtain ⟨hlist, hx⟩ := eq_of_concat h
    exact .inl ⟨hlist.symm, hx.symm, rfl⟩
  | append_singleton after z =>
    have hsplit : list ++ [x] = (before ++ y :: after) ++ [z] := by rw [h]; simp
    exact .inr ⟨after, (eq_of_concat hsplit).1⟩

theorem Acknowledged.of_concat {loc : CStr → L} {moves : List (Move ι)} {m : Move ι} {l : L}
    {data : List Byte} (h : Acknowledged loc (moves ++ [m]) l data) :
    Acknowledged loc moves l data ∨
      ∃ upload, Acknowledges moves m upload data ∧ l = loc upload := by
  obtain ⟨before, m', after, upload, heq, hack, hl⟩ := h
  rcases split_concat heq with ⟨rfl, rfl, -⟩ | ⟨after', rfl⟩
  · exact .inr ⟨upload, hack, hl⟩
  · exact .inl ⟨before, m', after', upload, rfl, hack, hl⟩

theorem Announced.of_concat {loc : CStr → L} {moves : List (Move ι)} {m : Move ι} {l : L}
    (h : Announced loc (moves ++ [m]) l) :
    Announced loc moves l ∨ ∃ word name, Announces moves m word name ∧ l = loc (xscriptDir name) := by
  obtain ⟨before, m', after, word, name, heq, htold, hl⟩ := h
  rcases split_concat heq with ⟨rfl, rfl, -⟩ | ⟨after', rfl⟩
  · exact .inr ⟨word, name, htold, hl⟩
  · exact .inl ⟨before, m', after', word, name, rfl, htold, hl⟩

end

/-! ## The invariant -/

/-- The tree keeps what the sessions have of it.  The files up to the number `n` are older
than the sessions. -/
structure Shares [DecidableEq ι] (loc : CStr → L) (n : Nat) (moves : List (Move ι))
    (t : Tree ι L Byte) : Prop where
  files : Sound t n (heldBy loc moves) (Acknowledged loc moves)
  dirs : Claimed t (claimedBy loc moves) (Announced loc moves)

section

variable [DecidableEq ι] {loc : CStr → L} {n : Nat} {moves : List (Move ι)}
  {t t' : Tree ι L Byte}

theorem shares_start (hstart : ∀ l k, t.file l = some k → k < t.next) :
    Shares loc t.next [] t := by
  have hnone : ∀ l data, ¬ Acknowledged loc ([] : List (Move ι)) l data := by
    intro l data h
    obtain ⟨before, m, after, upload, heq, -⟩ := h
    simp at heq
  have hnone' : ∀ l, ¬ Announced loc ([] : List (Move ι)) l := by
    intro l h
    obtain ⟨before, m, after, word, name, heq, -⟩ := h
    simp at heq
  refine ⟨⟨le_rfl, hstart, fun l l' k hn hl _ => ?_, nofun, nofun,
    fun l data h => (hnone l data h).elim, nofun⟩,
    ⟨nofun, fun l h => (hnone' l h).elim, nofun, nofun⟩⟩
  exact absurd (hstart l k hl) (Nat.not_lt.mpr hn)

variable {m : Move ι} {p p' : Progress}

/-- Only the session of a step goes on. -/
theorem heldBy_concat (hat' : At p' (traceOf m.session (moves ++ [m]))) :
    heldBy loc (moves ++ [m]) =
      Function.update (heldBy loc moves) m.session (p'.stage.holding loc) := by
  funext j
  by_cases hj : j = m.session
  · subst hj
    rw [Function.update_self]
    unfold heldBy
    rw [show progress (traceOf m.session (moves ++ [m])) = some p' from hat']
    rfl
  · rw [Function.update_of_ne hj]
    unfold heldBy
    rw [traceOf_other moves hj]

theorem claimedBy_concat (hat' : At p' (traceOf m.session (moves ++ [m]))) :
    claimedBy loc (moves ++ [m]) =
      Function.update (claimedBy loc moves) m.session (p'.claim loc) := by
  funext j
  by_cases hj : j = m.session
  · subst hj
    rw [Function.update_self]
    unfold claimedBy
    rw [show progress (traceOf m.session (moves ++ [m])) = some p' from hat']
    rfl
  · rw [Function.update_of_ne hj]
    unfold claimedBy
    rw [traceOf_other moves hj]

theorem heldBy_at {i : ι} (hat : At p (traceOf i moves)) :
    heldBy loc moves i = p.stage.holding loc := by
  unfold heldBy
  rw [show progress (traceOf i moves) = some p from hat]
  rfl

theorem claimedBy_at {i : ι} (hat : At p (traceOf i moves)) :
    claimedBy loc moves i = p.claim loc := by
  unfold claimedBy
  rw [show progress (traceOf i moves) = some p from hat]
  rfl

theorem At.unique {p₁ p₂ : Progress} {trace : Trace} (h₁ : At p₁ trace) (h₂ : At p₂ trace) :
    p₁ = p₂ := Option.some.inj (h₁.symm.trans h₂)

/-- A file is acknowledged only at the end of its store. -/
theorem acknowledged_step (hat : At p (traceOf m.session moves)) {l : L} {data : List Byte}
    (h : Acknowledged loc (moves ++ [m]) l data) :
    Acknowledged loc moves l data ∨ ∃ upload, p.stage = .agreed upload data ∧ l = loc upload := by
  refine h.of_concat.imp_right fun hack => ?_
  obtain ⟨upload, ⟨xscript, text, -, hagreed⟩, hl⟩ := hack
  exact ⟨upload, congrArg Progress.stage (hat.unique hagreed), hl⟩

/-- A transcript is announced only when its file is there. -/
theorem announced_step (hat : At p (traceOf m.session moves)) {l : L}
    (h : Announced loc (moves ++ [m]) l) :
    Announced loc moves l ∨ ∃ word name upload fd,
      p = ⟨some (word, name), .created false upload fd⟩ ∧ l = loc (xscriptDir name) := by
  refine h.of_concat.imp_right fun htold => ?_
  obtain ⟨word, name, ⟨upload, fd, text, -, hcreated⟩, hl⟩ := htold
  exact ⟨word, name, upload, fd, hat.unique hcreated, hl⟩

variable [DecidableEq L]

/-- Directories stay. -/
theorem act_dirs (h : act loc t m = some t') {l : L} (hl : t.dirs l = true) : t'.dirs l = true := by
  have hcreate : ∀ path fd, t.create m.session (loc path) fd = some t' → t'.dirs l = true := by
    intro path fd h
    unfold Tree.create at h
    split_ifs at h
    obtain rfl := Option.some.inj h
    exact hl
  have happend : ∀ fd bytes t', t.append m.session fd bytes = some t' → t'.dirs l = true := by
    intro fd bytes t' h
    obtain ⟨k, -, rfl⟩ := Option.map_eq_some_iff.mp h
    exact hl
  unfold act at h
  split at h
  · exact (Tree.dirs_mkdir h).2.2 _ hl
  · exact hcreate _ _ h
  · exact happend _ _ _ h
  · obtain rfl := Option.some.inj h
    cases hwritten : t.append m.session _ _ with
    | none => exact hl
    | some t' => exact happend _ _ t' hwritten
  · obtain rfl := Option.some.inj h
    exact hl
  · unfold Tree.unlink at h
    split_ifs at h
    obtain rfl := Option.some.inj h
    exact hl
  · exact Option.some.inj h ▸ hl

/-- What a step does to the files. -/
theorem Shares.step_files (h : Shares loc n moves t) {i : ι} {c : Call} {a : Answer c} {part : Nat}
    {xscript : Option (CStr × CStr)} {stage : Stage}
    (hact : act loc t ⟨i, ⟨c, a⟩, part⟩ = some t') (hat : At ⟨xscript, stage⟩ (traceOf i moves))
    (hmoves : Moves xscript stage c a p') :
    Sound t' n (Function.update (heldBy loc moves) i (p'.stage.holding loc))
      (Acknowledged loc (moves ++ [⟨i, ⟨c, a⟩, part⟩])) := by
  have hheld : heldBy loc moves i = stage.holding loc := heldBy_at hat
  have hack : ∀ l data, Acknowledged loc (moves ++ [⟨i, ⟨c, a⟩, part⟩]) l data →
      Acknowledged loc moves l data ∨ ∃ upload, stage = .agreed upload data ∧ l = loc upload :=
    fun l data => acknowledged_step (m := ⟨i, ⟨c, a⟩, part⟩) hat
  -- but for the reply that ends a store, nothing is acknowledged
  have hold : (∀ upload data, stage ≠ .agreed upload data) → ∀ l data,
      Acknowledged loc (moves ++ [⟨i, ⟨c, a⟩, part⟩]) l data → Acknowledged loc moves l data := by
    intro hstage l data hl
    rcases hack l data hl with hl | ⟨upload, hagreed, -⟩
    · exact hl
    · exact absurd hagreed (hstage upload data)
  have hdrop := h.files.drop (i := i)
  have hsame : ∀ x, x = heldBy loc moves i →
      Sound t n (Function.update (heldBy loc moves) i x) (Acknowledged loc moves) := by
    intro x hx
    rw [hx, Function.update_eq_self]
    exact h.files
  cases hmoves with
  | delay => exact Option.some.inj hact ▸ hdrop.fewer (hold nofun)
  | transcript => exact Option.some.inj hact ▸ hdrop.fewer (hold nofun)
  | file _ => exact Option.some.inj hact ▸ hdrop.fewer (hold nofun)
  | path => exact Option.some.inj hact ▸ hdrop.fewer (hold nofun)
  | made => exact (Sound.mkdir hdrop hact).fewer (hold nofun)
  | notMade => exact Option.some.inj hact ▸ hdrop.fewer (hold nofun)
  | @above _ _ dir r =>
    cases r with
    | ok r => exact (Sound.mkdir hdrop hact).fewer (hold nofun)
    | error e => exact Option.some.inj hact ▸ hdrop.fewer (hold nofun)
  | created => exact (h.files.create hact).fewer (hold nofun)
  | notCreated => exact Option.some.inj hact ▸ hdrop.fewer (hold nofun)
  | storing => exact Option.some.inj hact ▸ (hsame _ hheld.symm).fewer (hold nofun)
  | sized => exact Option.some.inj hact ▸ (hsame _ hheld.symm).fewer (hold nofun)
  | read => exact Option.some.inj hact ▸ (hsame _ hheld.symm).fewer (hold nofun)
  | wrote => exact (h.files.append hheld hact).fewer (hold nofun)
  | @notWritten upload fd data bytes e =>
    have hact' : (t.append i fd (bytes.take part)).getD t = t' := Option.some.inj hact
    cases hwritten : t.append i fd (bytes.take part) with
    | none =>
      rw [hwritten, Option.getD_none] at hact'
      exact hact' ▸ hdrop.fewer (hold nofun)
    | some t₁ =>
      rw [hwritten, Option.getD_some] at hact'
      have hwrote := (h.files.append hheld hwritten).drop (i := i)
      rw [Function.update_idem] at hwrote
      exact hact' ▸ hwrote.fewer (hold nofun)
  | @closed upload fd data a =>
    exact Option.some.inj hact ▸ (h.files.close hheld fd).fewer (hold nofun)
  | @notClosed upload fd data e =>
    have hclosed := (h.files.close hheld fd).drop (i := i)
    rw [Function.update_idem] at hclosed
    exact Option.some.inj hact ▸ hclosed.fewer (hold nofun)
  | noLine => exact Option.some.inj hact ▸ (hsame _ hheld.symm).fewer (hold nofun)
  | agreed _ => exact Option.some.inj hact ▸ (hsame _ hheld.symm).fewer (hold nofun)
  | @unmatched upload data line _ =>
    have hless := h.files.weaken (i := i) (x := some ⟨loc upload, none, none⟩) fun own hown => by
      obtain rfl := Option.some.inj hown
      exact ⟨_, hheld, rfl, nofun, nofun⟩
    exact Option.some.inj hact ▸ hless.fewer (hold nofun)
  | @stored upload data text a =>
    refine Option.some.inj hact ▸ h.files.finish hheld rfl fun l d hl => ?_
    refine (hack l d hl).imp_right fun hagreed => ?_
    obtain ⟨upload', hstage, rfl⟩ := hagreed
    cases hstage
    exact ⟨rfl, rfl⟩
  | mismatch _ => exact Option.some.inj hact ▸ (hsame _ hheld.symm).fewer (hold nofun)
  | @unlinked upload a =>
    cases a with
    | true => exact (h.files.unlink hheld hact).fewer (hold nofun)
    | false => exact Option.some.inj hact ▸ hdrop.fewer (hold nofun)
  | error hrefuses _ =>
    refine Option.some.inj hact ▸ hdrop.fewer (hold fun upload data hstage => ?_)
    rw [hstage] at hrefuses
    exact hrefuses

/-- What a step does to the directories. -/
theorem Shares.step_dirs (h : Shares loc n moves t) {i : ι} {c : Call} {a : Answer c} {part : Nat}
    {xscript : Option (CStr × CStr)} {stage : Stage}
    (hact : act loc t ⟨i, ⟨c, a⟩, part⟩ = some t') (hat : At ⟨xscript, stage⟩ (traceOf i moves))
    (hmoves : Moves xscript stage c a p') :
    Claimed t' (Function.update (claimedBy loc moves) i (p'.claim loc))
      (Announced loc (moves ++ [⟨i, ⟨c, a⟩, part⟩])) := by
  have hclaim : claimedBy loc moves i = (⟨xscript, stage⟩ : Progress).claim loc := claimedBy_at hat
  have htold : ∀ l, Announced loc (moves ++ [⟨i, ⟨c, a⟩, part⟩]) l → Announced loc moves l ∨
      ∃ word name upload fd, (⟨xscript, stage⟩ : Progress) =
        ⟨some (word, name), .created false upload fd⟩ ∧ l = loc (xscriptDir name) :=
    fun l => announced_step (m := ⟨i, ⟨c, a⟩, part⟩) hat
  -- but for the reply that asks for the file, nothing is announced
  have hold : (∀ upload fd, stage ≠ .created false upload fd) → ∀ l,
      Announced loc (moves ++ [⟨i, ⟨c, a⟩, part⟩]) l → Announced loc moves l := by
    intro hstage l hl
    rcases htold l hl with hl | ⟨word, name, upload, fd, hcreated, -⟩
    · exact hl
    · exact absurd (congrArg Progress.stage hcreated) (hstage upload fd)
  have hgrow : Claimed t' (claimedBy loc moves) (Announced loc moves) :=
    h.dirs.grow fun l hl => act_dirs hact hl
  have hdrop := hgrow.drop (i := i)
  have hsame : ∀ x, x = claimedBy loc moves i →
      Claimed t' (Function.update (claimedBy loc moves) i x) (Announced loc moves) := by
    intro x hx
    rw [hx, Function.update_eq_self]
    exact hgrow
  cases hmoves with
  | made => exact (h.dirs.mkdir hact).fewer (hold nofun)
  | @above file upload dir r =>
    cases file with
    | false => exact (hsame _ hclaim.symm).fewer (hold nofun)
    | true => exact (hsame _ hclaim.symm).fewer (hold nofun)
  | @created file upload fd =>
    cases file with
    | false => exact (hsame _ hclaim.symm).fewer (hold nofun)
    | true => exact (hsame _ hclaim.symm).fewer (hold nofun)
  | @notCreated file upload e =>
    cases file with
    | false => exact (hsame _ hclaim.symm).fewer (hold nofun)
    | true => exact (hsame _ hclaim.symm).fewer (hold nofun)
  | @storing file upload fd text a =>
    cases file with
    | true => exact hdrop.fewer (hold nofun)
    | false =>
      obtain ⟨word, name, -, hxscript, -⟩ := hat.meaning.means
      obtain rfl : xscript = some (word, name) := hxscript
      refine hgrow.tell hclaim fun l hl => (htold l hl).imp_right fun hcreated => ?_
      obtain ⟨word', name', upload', fd', heq, rfl⟩ := hcreated
      obtain ⟨hx, -⟩ := Progress.mk.inj heq
      rw [(Prod.mk.inj (Option.some.inj hx)).2]
  | error hrefuses _ =>
    refine hdrop.fewer (hold fun upload fd hstage => ?_)
    rw [hstage] at hrefuses
    exact hrefuses
  | _ => exact hdrop.fewer (hold nofun)

/-- A step of a session keeps the invariant. -/
theorem Shares.step (h : Shares loc n moves t) (hact : act loc t m = some t')
    (hkeeps : (progress (traceOf m.session (moves ++ [m]))).isSome) :
    Shares loc n (moves ++ [m]) t' := by
  obtain ⟨p', hat'⟩ := Option.isSome_iff_exists.mp hkeeps
  have hprogress := hat'
  rw [traceOf_self, progress_concat] at hprogress
  obtain ⟨p, hat, hnext⟩ := Option.bind_eq_some_iff.mp hprogress
  have hmoves := moves_of_next hnext
  refine ⟨?_, ?_⟩
  · rw [heldBy_concat hat']
    exact h.step_files hact hat hmoves
  · rw [claimedBy_concat hat']
    exact h.step_dirs hact hat hmoves

/-- Behind all runs of sessions that keep to the stages the invariant holds. -/
theorem shares_run {start : Tree ι L Byte} (hstart : ∀ l k, start.file l = some k → k < start.next)
    (hrun : run (act loc) start moves = some t) (hkeeps : ∀ i, (progress (traceOf i moves)).isSome) :
    Shares loc start.next moves t := by
  refine run_invariant (P := fun moves t =>
    (∀ i, (progress (traceOf i moves)).isSome) → Shares loc start.next moves t)
    (fun _ => shares_start hstart) (fun moves t m t' ih hact hkeeps => ?_) hrun hkeeps
  refine (ih fun i => ?_).step hact (hkeeps m.session)
  have hlast := hkeeps i
  rw [traceOf_concat] at hlast
  by_cases hi : m.session = i
  · rw [if_pos hi, progress_concat] at hlast
    exact Option.isSome_of_isSome_bind hlast
  · rwa [if_neg hi, List.append_nil] at hlast

end

/-! ## Every order of steps -/

section

variable [DecidableEq ι]

/-- The client of a session is told to send the file of a transcript. -/
def TellsTranscript (moves : List (Move ι)) (m : Move ι) (word name : CStr) : Prop :=
  (∃ text, m.event = ⟨.reply 350 text, ()⟩) ∧
    lastSplice (traceOf m.session moves) = some (.transcript, word, name)

/-- No transcript is asked for twice, and the directory for its files stays. -/
structure TranscriptsApart (loc : CStr → L) (moves : List (Move ι)) (t : Tree ι L Byte) : Prop where
  apart : ∀ before m middle m' after word name word' name',
    moves = before ++ m :: middle ++ m' :: after → TellsTranscript before m word name →
      TellsTranscript (before ++ m :: middle) m' word' name' →
        word ≠ word' ∧ loc (xscriptDir name) ≠ loc (xscriptDir name')
  stays : ∀ before m after word name, moves = before ++ m :: after →
    TellsTranscript before m word name → t.dirs (loc (xscriptDir name)) = true

/-- A file that was acknowledged holds what its session read for it. -/
def UploadsKept (loc : CStr → L) (moves : List (Move ι)) (t : Tree ι L Byte) : Prop :=
  ∀ before m after text, moves = before ++ m :: after → m.event = ⟨.reply 250 text, ()⟩ →
    ∃ upload data k, StoredBy (traceOf m.session before) upload data ∧
      t.file (loc upload) = some k ∧ t.content k = data

/-- A session creates files only for the last transcript it made. -/
def OwnTranscript (moves : List (Move ι)) : Prop :=
  ∀ before m after upload fd, moves = before ++ m :: after →
    m.event = ⟨.create upload, .ok fd⟩ → ∃ name, LastMade (traceOf m.session before) name ∧
      (upload = lit "tmp/transcript/" ++ name ∨ ∃ path, Contained path ∧ upload = fileUpload name path)

variable {loc : CStr → L} {moves moves' : List (Move ι)} {t start : Tree ι L Byte} {m : Move ι}

theorem traceOf_append (i : ι) (moves moves' : List (Move ι)) :
    traceOf i (moves ++ moves') = traceOf i moves ++ traceOf i moves' := by
  unfold traceOf
  rw [List.filter_append, List.map_append]

theorem progress_of_append {trace trace' : Trace} (h : (progress (trace ++ trace')).isSome) :
    (progress trace).isSome := by
  unfold progress at h ⊢
  rw [List.foldlM_append] at h
  exact Option.isSome_of_isSome_bind h

/-- A session that made a step was at a stage where it could. -/
theorem moves_of_keeps {after : List (Move ι)}
    (hkeeps : (progress (traceOf m.session (moves ++ m :: after))).isSome) :
    ∃ xscript stage p', At ⟨xscript, stage⟩ (traceOf m.session moves) ∧
      Moves xscript stage m.event.call m.event.answer p' := by
  have hsplit : moves ++ m :: after = (moves ++ [m]) ++ after := by simp
  rw [hsplit, traceOf_append, traceOf_self] at hkeeps
  obtain ⟨p', hprogress⟩ := Option.isSome_iff_exists.mp (progress_of_append hkeeps)
  rw [progress_concat] at hprogress
  obtain ⟨p, hat, hnext⟩ := Option.bind_eq_some_iff.mp hprogress
  exact ⟨p.xscript, p.stage, p', hat, moves_of_next hnext⟩

theorem TellsTranscript.announces {after : List (Move ι)} {word name : CStr}
    (h : TellsTranscript moves m word name)
    (hkeeps : (progress (traceOf m.session (moves ++ m :: after))).isSome) :
    Announces moves m word name := by
  obtain ⟨⟨text, hevent⟩, hlast⟩ := h
  obtain ⟨xscript, stage, p', hat, hmoves⟩ := moves_of_keeps hkeeps
  rw [hevent] at hmoves
  cases hmoves with
  | @storing file upload fd text a =>
    cases file with
    | true =>
      obtain ⟨_, _, _, _, hfile, -⟩ := hat.meaning.means
      rw [hlast] at hfile
      cases hfile
    | false =>
      obtain ⟨word', name', htranscript, hxscript, -⟩ := hat.meaning.means
      rw [hlast] at htranscript
      cases htranscript
      obtain rfl : xscript = some (word, name) := hxscript
      exact ⟨upload, fd, text, hevent, hat⟩
  | mismatch hcode => exact absurd hcode (by decide)
  | error _ hcode => exact absurd hcode (by decide)

theorem acknowledges_of_keeps {after : List (Move ι)} {text : CStr}
    (hevent : m.event = ⟨.reply 250 text, ()⟩)
    (hkeeps : (progress (traceOf m.session (moves ++ m :: after))).isSome) :
    ∃ upload data, Acknowledges moves m upload data ∧
      StoredBy (traceOf m.session moves) upload data := by
  obtain ⟨xscript, stage, p', hat, hmoves⟩ := moves_of_keeps hkeeps
  rw [hevent] at hmoves
  cases hmoves with
  | @stored upload data text a =>
    exact ⟨upload, data, ⟨xscript, text, hevent, hat⟩, hat.meaning.stores⟩
  | mismatch hcode => exact absurd hcode (by decide)
  | error _ hcode => exact absurd hcode (by decide)

/-- The sessions of a run each make STORs. -/
structure Uploading (cfg : ι → ServerConfig) (moves : List (Move ι)) : Prop where
  sessions : ∀ i, ∃ lines r, Runs (stores (cfg i) lines .start) (traceOf i moves) r
  known : ∀ i, KnownEscapes (traceOf i moves)

variable {cfg : ι → ServerConfig}

theorem Uploading.keeps (h : Uploading cfg moves) (i : ι) :
    (progress (traceOf i moves)).isSome := by
  obtain ⟨lines, r, hrun⟩ := h.sessions i
  obtain ⟨p, hat⟩ := exists_at hrun
  exact Option.isSome_iff_exists.mpr ⟨p, hat⟩

theorem Uploading.spliced (h : Uploading cfg (moves ++ moves')) {i : ι} {key : Key}
    {word name : CStr} (hmem : ⟨.splice key word name, ()⟩ ∈ traceOf i moves) :
    Spliced key word name := by
  obtain ⟨lines, r, hrun⟩ := h.sessions i
  rw [traceOf_append] at hrun
  exact spliced_of_runs hrun (List.mem_append_left _ hmem)

theorem Uploading.escaped (h : Uploading cfg (moves ++ moves')) {i : ι} {key : Key}
    {word name : CStr} (hmem : ⟨.splice key word name, ()⟩ ∈ traceOf i moves)
    (hkey : key ≠ .command) : wellEscaped word = true := by
  have hspliced : (Call.splice key word name).spliced = some (word, name) := by
    cases key with
    | command => exact absurd rfl hkey
    | _ => rfl
  have hmem' : ⟨.splice key word name, ()⟩ ∈ traceOf i (moves ++ moves') := by
    rw [traceOf_append]
    exact List.mem_append_left _ hmem
  exact h.known i (word, name) (List.mem_filterMap.mpr ⟨_, hmem', hspliced⟩)

theorem Uploading.ownTranscript (h : Uploading cfg moves) : OwnTranscript moves := by
  intro before m after upload fd heq hevent
  subst heq
  obtain ⟨xscript, stage, p', hat, hmoves⟩ := moves_of_keeps (h.keeps m.session)
  rw [hevent] at hmoves
  cases hmoves with
  | @created file upload fd =>
    cases file with
    | false =>
      obtain ⟨word, name, -, hxscript, hupload⟩ := hat.meaning.means
      exact ⟨name, (hat.meaning.made word name hxscript).1, .inl hupload⟩
    | true =>
      obtain ⟨word, tran, word', path, hlast, hxscript, hmem, hupload⟩ := hat.meaning.means
      obtain ⟨⟨word₁, name⟩, hx, rfl⟩ := Option.map_eq_some_iff.mp hxscript
      obtain ⟨hmade, hmade'⟩ := hat.meaning.made word₁ name hx
      have hword := h.escaped hmem (by decide)
      have hname : name = tran := (h.spliced hmade').unique (h.spliced hmem) hword
      have hpath := mem_of_lastSplice hlast
      refine ⟨name, hmade, .inr ⟨path, ?_, hname ▸ hupload⟩⟩
      exact (h.spliced hpath).contained (by decide) (h.escaped hpath (by decide))

variable [DecidableEq L]

theorem Uploading.shares (h : Uploading cfg (moves ++ moves'))
    (hstart : ∀ l k, start.file l = some k → k < start.next)
    (hrun : run (act loc) start (moves ++ moves') = some t) :
    ∃ t₁, Shares loc start.next moves t₁ := by
  rw [run_append] at hrun
  obtain ⟨t₁, hrun₁, -⟩ := Option.bind_eq_some_iff.mp hrun
  refine ⟨t₁, shares_run hstart hrun₁ fun i => ?_⟩
  have hkeeps := h.keeps i
  rw [traceOf_append] at hkeeps
  exact progress_of_append hkeeps

theorem Uploading.transcriptsApart (h : Uploading cfg moves)
    (hstart : ∀ l k, start.file l = some k → k < start.next)
    (hrun : run (act loc) start moves = some t) : TranscriptsApart loc moves t := by
  have hends := shares_run hstart hrun h.keeps
  refine ⟨fun before m middle m' after word name word' name' heq htold htold' => ?_,
    fun before m after word name heq htold => ?_⟩
  · subst heq
    have hkeeps : (progress (traceOf m.session (before ++ m :: (middle ++ m' :: after)))).isSome := by
      have hall := h.keeps m.session
      rwa [List.append_assoc, List.cons_append] at hall
    have hannounced : Announced loc (before ++ m :: middle) (loc (xscriptDir name)) :=
      ⟨before, m, middle, word, name, rfl, htold.announces hkeeps, rfl⟩
    have hclaims := htold'.announces (h.keeps m'.session)
    obtain ⟨upload, fd, text, -, hat⟩ := hclaims
    obtain ⟨t₁, hshares⟩ := h.shares hstart hrun
    have hne : loc (xscriptDir name) ≠ loc (xscriptDir name') := by
      intro heq
      rw [heq] at hannounced
      exact hshares.dirs.apart m'.session _ (claimedBy_at hat) hannounced
    refine ⟨fun hword => hne ?_, hne⟩
    -- one word is one name
    subst hword
    have hmem' := mem_of_lastSplice htold'.2
    have hmem : ⟨.splice .transcript word name, ()⟩ ∈ traceOf m.session (before ++ m :: middle) := by
      rw [traceOf_append]
      exact List.mem_append_left _ (mem_of_lastSplice htold.2)
    rw [(h.spliced hmem).unique (h.spliced hmem') (h.escaped hmem' (by decide))]
  · subst heq
    exact hends.dirs.ofTold _
      ⟨before, m, after, word, name, rfl, htold.announces (h.keeps m.session), rfl⟩

theorem Uploading.uploadsKept (h : Uploading cfg moves)
    (hstart : ∀ l k, start.file l = some k → k < start.next)
    (hrun : run (act loc) start moves = some t) : UploadsKept loc moves t := by
  have hends := shares_run hstart hrun h.keeps
  intro before m after text heq hevent
  subst heq
  obtain ⟨upload, data, hack, hstored⟩ := acknowledges_of_keeps hevent (h.keeps m.session)
  obtain ⟨k, -, hfile, hcontent⟩ := hends.files.ofKept (loc upload) data
    ⟨before, m, after, upload, rfl, hack, rfl⟩
  exact ⟨upload, data, k, hstored, hfile, hcontent⟩

/-- In every order of the steps of the sessions, no transcript is asked for twice, what was
acknowledged stays as it was stored, and a session stores for its own transcript. -/
theorem uploads_kept (loc : CStr → L) (cfg : ι → ServerConfig) (moves : List (Move ι))
    (start t : Tree ι L Byte) (h : Uploading cfg moves)
    (hstart : ∀ l k, start.file l = some k → k < start.next)
    (hrun : run (act loc) start moves = some t) :
    TranscriptsApart loc moves t ∧ UploadsKept loc moves t ∧ OwnTranscript moves :=
  ⟨h.transcriptsApart hstart hrun, h.uploadsKept hstart hrun, h.ownTranscript⟩

end

/-! ## Two sessions -/

def emptyTree : Tree Bool CStr Byte :=
  { dirs := fun _ => false, file := fun _ => none, content := fun _ => [], fds := fun _ _ => none
    next := 0 }

/-- The client sends a byte for every read. -/
def oneByte (lines : List CStr) (history : Trace) : (c : Call) → Option (Answer c)
  | .read max => some (if h : 0 < max then some ⟨[120], Nat.one_pos, h⟩ else none)
  | c => obliging lines (fun _ => none) [] history c

/-- There is a directory already. -/
def occupied (history : Trace) : (c : Call) → Option (Answer c)
  | .mkdir _ => some (.error .eexist)
  | c => obliging [] (fun _ => none) [] history c

def storSession : Serve Unit := stores openConfig [(lit "STOR TRANSCRIPT a", id)]

def storedTrace : Trace := (storSession .start).trace (oneByte [lit "1", lit "."]) []

def refusedTrace : Trace := (storSession .start).trace occupied []

def movesOf (i : Bool) (trace : Trace) : List (Move Bool) := trace.map fun e => ⟨i, e, 0⟩

/-- The second session comes between the data of the first and its end. -/
def betweenMoves : List (Move Bool) :=
  movesOf false (storedTrace.take 8) ++ movesOf true refusedTrace ++
    movesOf false (storedTrace.drop 8)

theorem traceOf_movesOf (i j : Bool) (trace : Trace) :
    traceOf i (movesOf j trace) = if j = i then trace else [] := by
  unfold traceOf movesOf
  by_cases hj : j = i
  · simp [hj, List.filter_map, Function.comp_def]
  · simp [hj, List.filter_map, Function.comp_def]

theorem traceOf_between (i : Bool) :
    traceOf i betweenMoves = if i then refusedTrace else storedTrace := by
  unfold betweenMoves
  rw [traceOf_append, traceOf_append, traceOf_movesOf, traceOf_movesOf, traceOf_movesOf]
  cases i with
  | false => simp
  | true => simp

theorem uploading_between : Uploading (fun _ => openConfig) betweenMoves where
  sessions i := by
    refine ⟨[(lit "STOR TRANSCRIPT a", id)], ?_⟩
    rw [traceOf_between]
    cases i with
    | false => exact Prog.runs_trace _ _ _
    | true => exact Prog.runs_trace _ _ _
  known i := by
    rw [traceOf_between]
    revert i
    decide +kernel

theorem uploads_kept_between : ∃ t, run (act id) emptyTree betweenMoves = some t ∧
    TranscriptsApart id betweenMoves t ∧ UploadsKept id betweenMoves t ∧
      OwnTranscript betweenMoves := by
  have hsome : (run (act id) emptyTree betweenMoves).isSome = true := by decide +kernel
  obtain ⟨t, hrun⟩ := Option.isSome_iff_exists.mp hsome
  exact ⟨t, hrun, uploads_kept id (fun _ => openConfig) betweenMoves emptyTree t uploading_between
    nofun hrun⟩

end Server
end Radmind
