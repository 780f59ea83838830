import Radmind.Ktcheck
import Radmind.Mkdirs
import Radmind.Retr

/-!
# The check of one file

`check` of ktcheck makes the directories above a file, removes what is in its way, asks the server
about the file, and downloads it where the answer is another one than the file on the disk.
-/

namespace Radmind
namespace Ktcheck

open FailingState (Act Meets)

/-- What `stat` says of a path. -/
inductive StatResult
  | missing
  | error
  | found (isDir : Bool) (size mtime : Int)

/-- The calls of the system that `check` makes, on a state of the file system.  `content` is what a
regular file holds.  The calls give whether they succeed. -/
structure Os (σ : Type) where
  stat : σ → CStr → StatResult
  content : σ → CStr → Option (List Byte)
  mkdir : CStr → σ → Bool × σ
  unlink : CStr → σ → Bool × σ
  rmdirs : CStr → σ → Bool × σ
  utime : CStr → σ → Bool × σ
  rename : CStr → CStr → σ → Bool × σ
  putFile : CStr → Option (List Byte) → σ → σ
  /-- What stands above a regular file is a directory. -/
  parents : ∀ s u w c, u ≠ [] → content s (u ++ slash :: w) = some c →
    ∃ size mtime, stat s u = .found true size mtime
  unlink_failed : ∀ s path, (unlink path s).1 = false → content (unlink path s).2 = content s
  unlinked : ∀ s path, (unlink path s).1 = true → content (unlink path s).2 path = none

/-- The settings of a run. -/
structure Settings where
  update : Bool
  cksum : Bool
  kdir : CStr
  baseKfile : CStr
  pid : BitVec 32
  /-- `do_cksum`, on what the file holds -/
  digest : List Byte → CStr
  kdir_ne_nil : kdir ≠ []

/-- The answer to STAT: none, a refusal, or a line. -/
inductive StatAnswer
  | lost
  | refused
  | stats (line : CStr)

/-- The answer to RETR. -/
structure RetrAnswer where
  answers : Temp.Answers
  sizeLine : CStr
  stream : List Byte

structure Answer where
  stat : StatAnswer
  retr : RetrAnswer

/-- How `check` is left before its end. -/
inductive CheckEnd
  | returned (c : Checked)
  | exited
  deriving DecidableEq

variable {σ : Type} (os : Os σ) (cfg : Settings) (answer : Answer)

def failed : CheckEnd := .returned .failed

/-- A call, and whether it succeeds. -/
def sys (call : σ → Bool × σ) : Act CheckEnd σ Bool := fun s => (.ok (call s).1, (call s).2)

/-- A call that has to succeed. -/
def need (call : σ → Bool × σ) : Act CheckEnd σ Unit := do
  let ok ← sys call
  FailingState.check ok failed

/-- One directory above the file is made, or made anew where something else is there. -/
def checkDir (tempfile : CStr) : Act CheckEnd σ Unit := do
  FailingState.check (tempfile.length < maxPathLen) failed
  let s ← get
  match os.stat s tempfile with
  | .missing => need (os.mkdir tempfile)
  | .error => throw failed
  | .found isDir _ _ =>
    if isDir then pure ()
    else do
      need (os.unlink tempfile)
      need (os.mkdir tempfile)

def checkDirs : List CStr → Act CheckEnd σ Unit
  | [] => pure ()
  | tempfile :: tempfiles => do
    checkDir os tempfile
    checkDirs tempfiles

/-- A directory in the place of the file is removed. -/
def clearPath (path : CStr) : Act CheckEnd σ Unit := do
  let s ← get
  match os.stat s path with
  | .missing => pure ()
  | .error => throw failed
  | .found isDir _ _ => if isDir then need (os.rmdirs path) else pure ()

def Settings.path : Option CStr → CStr
  | none => cfg.baseKfile
  | some file => cfg.kdir ++ file

def pathdesc (type : CStr) : Option CStr → CStr
  | none => type
  | some file => type ++ space :: file

/-- The part of `check` before the request. -/
def prepare (type : CStr) (file : Option CStr) : Act CheckEnd σ Unit := do
  FailingState.check ((pathdesc type file).length < 2 * maxPathLen) failed
  FailingState.check ((cfg.path file).length < maxPathLen) failed
  match file with
  | none => pure ()
  | some file => do
    checkDirs os ((Mkdirs.cuts file).map (cfg.kdir ++ ·))
    clearPath os (cfg.kdir ++ file)

/-- `getstat` -/
def getstat : Act CheckEnd σ CStr :=
  match answer.stat with
  | .lost => throw failed
  | .refused => throw .exited
  | .stats line => do
    FailingState.check (line.length < maxPathLen) failed
    pure line

/-- The arguments of `retr`, for the words of the answer to STAT. -/
def retrArgs (path : CStr) (targv : List CStr) : Temp.Args where
  path := path
  pid := cfg.pid
  transize := strtol 10 (targv.getD 6 [])
  cksum := cfg.cksum
  trancksum := targv.getD 7 []
  createPrefix := false
  digest := cfg.digest

def tempfileOf (path : CStr) : CStr := path ++ lit ".radmind." ++ printInt cfg.pid.toInt

/-- `retr`, on the file of the temporary name. -/
def retrieve (path : CStr) (targv : List CStr) : Act CheckEnd σ Unit := do
  let s ← get
  let call := (retrArgs cfg path targv).call answer.retr.answers
  let prior := os.content s (tempfileOf cfg path)
  let (r, st) := (Temp.retr call answer.retr.sizeLine).result (Temp.start prior answer.retr.stream)
  if st.opened then set (os.putFile (tempfileOf cfg path) st.file s)
  match r with
  | .ok _ => pure ()
  | .error _ => throw failed

/-- The download, and the new file put in its place. -/
def download (path : CStr) (targv : List CStr) : Act CheckEnd σ Checked := do
  retrieve os cfg answer path targv
  if (← sys (os.utime (tempfileOf cfg path))) then
    need (os.rename (tempfileOf cfg path) path)
    pure .changed
  else pure .changed

/-- Whether the file is another one than the answer says. -/
def needUpdate (path : CStr) (targv : List CStr) (size mtime : Int) : Act CheckEnd σ Bool := do
  if strtol 10 (targv.getD 6 []) ≠ size then pure true
  else if cfg.cksum then do
    let s ← get
    match os.content s path with
    | none => throw failed
    | some c => pure (targv.getD 7 [] ≠ cfg.digest c)
  else pure (strtol 10 (targv.getD 5 []) ≠ mtime)

/-- `check` -/
def check (type : CStr) (file : Option CStr) : Act CheckEnd σ Checked := do
  prepare os cfg type file
  let stats ← getstat answer
  let targv := lineWords stats
  FailingState.check (targv.length = 8) failed
  let s ← get
  match os.stat s (cfg.path file) with
  | .error => throw failed
  | .missing =>
    if cfg.update then download os cfg answer (cfg.path file) targv else pure .changed
  | .found _ size mtime => do
    if (← needUpdate os cfg (cfg.path file) targv size mtime) then
      if cfg.update then do
        need (os.unlink (cfg.path file))
        download os cfg answer (cfg.path file) targv
      else pure .changed
    else pure .current

/-- Where `check` returns 2 the file holds what it held. -/
def KeepsOld (type : CStr) (file : Option CStr) (s : σ) (old : List Byte) : Prop :=
  Meets (check os cfg answer type file) s
    (fun c s' => c = .failed → os.content s' (cfg.path file) = some old)
    (fun e s' => e = failed → os.content s' (cfg.path file) = some old)

/-- The names are not too long for their buffers. -/
def Fits (type : CStr) (file : Option CStr) : Prop :=
  (pathdesc type file).length < 2 * maxPathLen ∧ (cfg.path file).length < maxPathLen

/-- The words tell of another file. -/
def Differs (targv : List CStr) (size mtime : Int) (old : List Byte) : Prop :=
  strtol 10 (targv.getD 6 []) ≠ size ∨
    if cfg.cksum then targv.getD 7 [] ≠ cfg.digest old else strtol 10 (targv.getD 5 []) ≠ mtime

/-- The answer to STAT is complete and tells of another file. -/
def CallsForUpdate (stat : StatAnswer) (size mtime : Int) (old : List Byte) : Prop :=
  ∃ line, stat = .stats line ∧ line.length < maxPathLen ∧ (lineWords line).length = 8 ∧
    Differs cfg (lineWords line) size mtime old

section

variable {os cfg answer} {type path : CStr} {file : Option CStr} {s : σ} {old : List Byte}
  {size mtime : Int} {targv : List CStr}

theorem meets_sys {call : σ → Bool × σ} {post : Bool → σ → Prop} {fail : CheckEnd → σ → Prop} :
    Meets (sys call) s post fail ↔ post (call s).1 (call s).2 := Iff.rfl

theorem meets_need {call : σ → Bool × σ} {post : Unit → σ → Prop} {fail : CheckEnd → σ → Prop} :
    Meets (need call) s post fail ↔
      if (call s).1 then post () (call s).2 else fail failed (call s).2 := by
  rw [need, FailingState.meets_bind, meets_sys, FailingState.meets_check]

/-- Directories that are there stay as they are. -/
theorem meets_checkDirs {tempfiles : List CStr}
    (h : ∀ t ∈ tempfiles, t.length < maxPathLen ∧ ∃ size mtime, os.stat s t = .found true size mtime) :
    Meets (checkDirs os tempfiles) s (fun _ s' => s' = s) (fun _ _ => False) := by
  induction tempfiles with
  | nil => exact rfl
  | cons t tempfiles ih =>
    obtain ⟨⟨hlen, size, mtime, hdir⟩, hrest⟩ := List.forall_mem_cons.mp h
    rw [checkDirs, FailingState.meets_bind, checkDir, FailingState.meets_check_bind,
      if_pos (decide_eq_true hlen), FailingState.meets_bind, FailingState.meets_get, hdir]
    exact ih hrest

/-- Before a file that is there nothing is made and nothing removed. -/
theorem meets_prepare (hfile : os.content s (cfg.path file) = some old)
    (hstat : os.stat s (cfg.path file) = .found false size mtime) :
    Meets (prepare os cfg type file) s (fun _ s' => s' = s ∧ Fits cfg type file)
      (fun e s' => e = failed ∧ s' = s ∧ ¬ Fits cfg type file) := by
  unfold prepare
  refine FailingState.Meets.checked (fun hno => ?_) fun hdesc => ?_
  · exact ⟨rfl, rfl, fun hfits => of_decide_eq_false hno hfits.1⟩
  refine FailingState.Meets.checked (fun hno => ?_) fun hlen => ?_
  · exact ⟨rfl, rfl, fun hfits => of_decide_eq_false hno hfits.2⟩
  have hfits : Fits cfg type file := ⟨of_decide_eq_true hdesc, of_decide_eq_true hlen⟩
  cases file with
  | none => exact ⟨rfl, hfits⟩
  | some file =>
    have hlen : (cfg.kdir ++ file).length < maxPathLen := hfits.2
    have hdirs : ∀ t ∈ (Mkdirs.cuts file).map (cfg.kdir ++ ·), t.length < maxPathLen ∧
        ∃ size mtime, os.stat s t = .found true size mtime := by
      intro t ht
      obtain ⟨cut, hcut, rfl⟩ := List.mem_map.mp ht
      obtain ⟨w, rfl⟩ := Mkdirs.mem_cuts hcut
      have hassoc : cfg.path (some (cut ++ slash :: w)) = (cfg.kdir ++ cut) ++ slash :: w :=
        (List.append_assoc _ _ _).symm
      rw [hassoc] at hfile
      refine ⟨?_, os.parents s _ w old (by simp [cfg.kdir_ne_nil]) hfile⟩
      simp only [List.length_append, List.length_cons] at hlen ⊢
      omega
    show Meets (checkDirs os _ >>= fun _ => clearPath os _) s _ _
    rw [FailingState.meets_bind]
    refine (meets_checkDirs hdirs).mono ?_ fun _ _ h => h.elim
    rintro _ s' rfl
    have hpath : os.stat s' (cfg.kdir ++ file) = .found false size mtime := hstat
    rw [clearPath, FailingState.meets_bind, FailingState.meets_get, hpath]
    exact ⟨rfl, hfits⟩

theorem meets_needUpdate (hfile : os.content s path = some old) :
    Meets (needUpdate os cfg path targv size mtime) s
      (fun b s' => s' = s ∧ (b = true ↔ Differs cfg targv size mtime old)) (fun _ _ => False) := by
  unfold needUpdate Differs
  by_cases hsize : strtol 10 (targv.getD 6 []) ≠ size
  · rw [if_pos hsize]
    exact ⟨rfl, iff_of_true rfl (Or.inl hsize)⟩
  · rw [if_neg hsize]
    by_cases hcksum : cfg.cksum = true
    · rw [if_pos hcksum, if_pos hcksum, FailingState.meets_bind, FailingState.meets_get, hfile]
      refine ⟨rfl, ?_⟩
      rw [decide_eq_true_iff]
      exact ⟨Or.inr, fun h => h.resolve_left hsize⟩
    · rw [if_neg hcksum, if_neg hcksum]
      refine ⟨rfl, ?_⟩
      rw [decide_eq_true_iff]
      exact ⟨Or.inr, fun h => h.resolve_left hsize⟩

/-- A request that cannot be written opens no file. -/
theorem meets_retr_unsent {call : RetrCall} (hcall : call.succeeds .writeRetr = false)
    (sizeLine : CStr) (prior : Option (List Byte)) (stream : List Byte) :
    Meets (Temp.retr call sizeLine) (Temp.start prior stream) (fun _ _ => False)
      (fun _ st => st.opened = false) := by
  unfold Temp.retr
  refine FailingState.Meets.check_bind rfl fun _ => ?_
  refine FailingState.Meets.check_bind rfl fun hsent => ?_
  rw [hcall] at hsent
  cases hsent

theorem meets_retrieve_unsent {retr : RetrAnswer} {stat : StatAnswer}
    (hanswer : retr.answers.succeeds .writeRetr = false) :
    Meets (retrieve os cfg ⟨stat, retr⟩ path targv) s (fun _ _ => False)
      (fun e s' => e = failed ∧ s' = s) := by
  unfold retrieve
  rw [FailingState.meets_bind, FailingState.meets_get]
  have hrun := @meets_retr_unsent ((retrArgs cfg path targv).call retr.answers) hanswer
    retr.sizeLine (os.content s (tempfileOf cfg path)) retr.stream
  obtain ⟨hok, herror⟩ := FailingState.meets_iff.mp hrun
  rcases hres : (Temp.retr ((retrArgs cfg path targv).call retr.answers) retr.sizeLine).result
    (Temp.start (os.content s (tempfileOf cfg path)) retr.stream) with ⟨rc | _, st⟩
  · have hopened := herror rc st hres
    simp only [hres, hopened]
    exact ⟨rfl, rfl⟩
  · exact (hok _ st hres).elim

end

/-- Whatever RETR brings, a check that returns 2 leaves an old file as it was just where the answer
to STAT does not make it remove the file first. -/
theorem check_keeps_iff (stat : StatAnswer) (type : CStr) (file : Option CStr) {s : σ}
    {old : List Byte} {size mtime : Int} (hfile : os.content s (cfg.path file) = some old)
    (hstat : os.stat s (cfg.path file) = .found false size mtime) :
    (∀ retr, KeepsOld os cfg ⟨stat, retr⟩ type file s old) ↔
      ¬ (cfg.update = true ∧ Fits cfg type file ∧ CallsForUpdate cfg stat size mtime old ∧
        (os.unlink (cfg.path file) s).1 = true) := by
  constructor
  · rintro hkeeps ⟨hupdate, hfits, ⟨line, rfl, hlen, hwords, hdiffers⟩, hunlink⟩
    let retr : RetrAnswer := ⟨⟨none, fun _ => 0, fun _ => false, false, fun _ => none⟩, [], []⟩
    have hlost : Meets (check os cfg ⟨.stats line, retr⟩ type file) s (fun _ _ => False)
        (fun e s' => e = failed ∧ os.content s' (cfg.path file) = none) := by
      unfold check
      rw [FailingState.meets_bind]
      refine (meets_prepare hfile hstat).mono ?_ fun _ _ h => absurd hfits h.2.2
      rintro _ s' ⟨rfl, -⟩
      rw [getstat, FailingState.meets_bind, FailingState.meets_check_bind,
        if_pos (decide_eq_true hlen), FailingState.meets_pure, FailingState.meets_check_bind,
        if_pos (decide_eq_true hwords), FailingState.meets_bind, FailingState.meets_get, hstat]
      simp only
      rw [FailingState.meets_bind]
      refine (meets_needUpdate hfile).mono ?_ fun _ _ h => h.elim
      rintro b s₁ ⟨rfl, hb⟩
      rw [if_pos (hb.mpr hdiffers), if_pos hupdate, FailingState.meets_bind, meets_need,
        if_pos hunlink, download, FailingState.meets_bind]
      refine (meets_retrieve_unsent rfl).mono (fun _ _ h => h.elim) ?_
      rintro e s₂ ⟨rfl, rfl⟩
      exact ⟨rfl, os.unlinked s₁ _ hunlink⟩
    obtain ⟨hok, herror⟩ := FailingState.meets_iff.mp ((hkeeps retr).and hlost)
    rcases hres : (check os cfg ⟨.stats line, retr⟩ type file).result s with ⟨e | c, s'⟩
    · obtain ⟨hsame, rfl, hgone⟩ := herror e s' hres
      exact absurd ((hsame rfl).symm.trans hgone) (by simp)
    · exact (hok c s' hres).2
  · intro hnot retr
    unfold KeepsOld check
    rw [FailingState.meets_bind]
    refine (meets_prepare hfile hstat).mono ?_ ?_
    swap
    · rintro e s' ⟨-, rfl, -⟩ -
      exact hfile
    rintro _ s' ⟨rfl, hfits⟩
    rw [FailingState.meets_bind]
    cases stat with
    | lost => exact fun _ => hfile
    | refused => exact fun _ => hfile
    | stats line =>
      refine FailingState.Meets.checked (fun _ _ => hfile) fun hlen => ?_
      rw [FailingState.meets_pure]
      refine FailingState.Meets.checked (fun _ _ => hfile) fun hwords => ?_
      rw [FailingState.meets_bind, FailingState.meets_get, hstat]
      simp only
      rw [FailingState.meets_bind]
      refine (meets_needUpdate hfile).mono ?_ fun _ _ h => h.elim
      rintro b s₁ ⟨rfl, hb⟩
      split
      · next hb' =>
        split
        · next hupdate =>
          rw [FailingState.meets_bind, meets_need]
          split
          · next hunlink =>
            refine absurd ⟨hupdate, hfits, ⟨line, rfl, of_decide_eq_true hlen,
              of_decide_eq_true hwords, hb.mp hb'⟩, hunlink⟩ hnot
          · next hunlink =>
            intro _
            rw [os.unlink_failed s₁ _ (Bool.eq_false_of_not_eq_true hunlink)]
            exact hfile
        · exact fun h => by cases h
      · exact fun h => by cases h

/-- A file system with one regular file, which can only be removed.  What stands above it is a
directory. -/
def oneFile (path : CStr) : Os (Option (List Byte)) where
  stat s p :=
    if p = path then
      match s with
      | none => .missing
      | some c => .found false c.length 0
    else .found true 0 0
  content s p := if p = path then s else none
  mkdir _ s := (false, s)
  unlink p s := if p = path ∧ s.isSome then (true, none) else (false, s)
  rmdirs _ s := (false, s)
  utime _ s := (false, s)
  rename _ _ s := (false, s)
  putFile _ _ s := s
  parents s u w c _ h := by
    have hne : u ≠ path := by
      rintro rfl
      rw [if_neg (by simp)] at h
      cases h
    exact ⟨0, 0, if_neg hne⟩
  unlink_failed s p h := by
    split at h
    · cases h
    · next hno => rw [if_neg hno]
  unlinked s p h := by
    split at h
    · next hyes =>
      rw [if_pos hyes]
      exact ite_self none
    · cases h

def plainSettings (update : Bool) : Settings :=
  ⟨update, false, lit "./", lit "./k", 1, fun _ => [], by decide⟩

/-- An answer of another size. -/
def otherSize : StatAnswer := .stats (lit "f ./k 0644 0 0 7 5 -")

theorem check_keeps_dry :
    (∀ retr, KeepsOld (oneFile (lit "./k")) (plainSettings false) ⟨otherSize, retr⟩ (lit "COMMAND")
      none (some (lit "old")) (lit "old")) ↔
      ¬ ((plainSettings false).update = true ∧ Fits (plainSettings false) (lit "COMMAND") none ∧
        CallsForUpdate (plainSettings false) otherSize 3 0 (lit "old") ∧
        ((oneFile (lit "./k")).unlink ((plainSettings false).path none) (some (lit "old"))).1 = true) :=
  check_keeps_iff (oneFile (lit "./k")) (plainSettings false) otherSize (lit "COMMAND") none rfl rfl

/-- The file is removed, and the connection is lost before the new one comes. -/
theorem not_check_keeps :
    ¬ ∀ (σ : Type) (os : Os σ) (cfg : Settings) (answer : Answer) (type : CStr) (file : Option CStr)
      (s : σ) (old : List Byte) (size mtime : Int), os.content s (cfg.path file) = some old →
        os.stat s (cfg.path file) = .found false size mtime →
          KeepsOld os cfg answer type file s old := by
  intro h
  have hkeeps := h _ (oneFile (lit "./k")) (plainSettings true)
    ⟨otherSize, ⟨none, fun _ => 0, fun _ => false, false, fun _ => none⟩, [], []⟩ (lit "COMMAND")
    none (some (lit "old")) (lit "old") 3 0 rfl rfl
  have hstate : ((check (oneFile (lit "./k")) (plainSettings true)
      ⟨otherSize, ⟨none, fun _ => 0, fun _ => false, false, fun _ => none⟩, [], []⟩ (lit "COMMAND")
      none).result (some (lit "old"))).2 = none := by decide +kernel
  have hend : (match ((check (oneFile (lit "./k")) (plainSettings true)
      ⟨otherSize, ⟨none, fun _ => 0, fun _ => false, false, fun _ => none⟩, [], []⟩ (lit "COMMAND")
      none).result (some (lit "old"))).1 with
      | .error e => decide (e = failed)
      | .ok _ => false) = true := by decide +kernel
  obtain ⟨-, herror⟩ := FailingState.meets_iff.mp hkeeps
  rcases hres : (check (oneFile (lit "./k")) (plainSettings true)
    ⟨otherSize, ⟨none, fun _ => 0, fun _ => false, false, fun _ => none⟩, [], []⟩ (lit "COMMAND")
    none).result (some (lit "old")) with ⟨e | c, s'⟩
  · rw [hres] at hend hstate
    have hkept := herror e s' hres (of_decide_eq_true hend)
    subst hstate
    exact absurd hkept (by decide)
  · rw [hres] at hend
    cases hend

end Ktcheck
end Radmind
