import Radmind.Command.Quiet

/-!
# The words of a request

`keyword` checks the number of words of RETR, STAT and STOR, and the other handlers check it
themselves.  `f_stor` decodes a word before it calls `keyword`.
-/

namespace Radmind
namespace Server

open Interaction

/-! ## Words that are there -/

/-- A program that does not come to a word that is not there. -/
abbrev Fed {α : Type} (x : Serve α) : Prop :=
  Quiet (fun _ c => c ≠ .overrun) (fun _ _ => True) x

section

variable {α : Type} {cfg : ServerConfig} {av : List (List Byte)}

theorem fed_call {c : Call} (hc : c ≠ .overrun) : Fed (call c) :=
  meets_perform (fun _ _ _ => hc) fun _ _ _ _ => trivial

theorem fed_reply (code : Nat) (text : CStr) : Fed (reply code text) := fed_call (by nofun)

theorem fed_exit (status : Nat) : Fed (exit status : Serve α) :=
  fun _ _ _ => ⟨nofun, fun e => e.elim⟩

theorem fed_modify (f : Session → Session) : Fed (modify f) := meets_modify fun _ _ _ => trivial

theorem fed_decodeArg (mem : List Byte) : Fed (decodeArg mem) := fun _ _ _ => trivial

theorem fed_arg {i : Nat} (h : i < av.length) : Fed (arg av i) := by
  rw [arg, List.getElem?_eq_getElem h]
  exact quiet_pure _

theorem fed_refuse (code : Nat) (text : CStr) : Fed (refuse code text : Serve (Except Int α)) :=
  (fed_reply code text).bind fun _ => quiet_pure _

theorem fed_checkPath (path : CStr) : Fed (checkPath path) :=
  Meets.ite (fun _ => fed_refuse _ _) fun _ => quiet_pure _

theorem fed_decodeName (mem : List Byte) : Fed (decodeName mem) := by
  refine (fed_decodeArg mem).bind fun r => ?_
  cases r with
  | none => exact fed_refuse _ _
  | some name => exact quiet_pure _

theorem fed_grantedName (mem : List Byte) (shown : CStr → CStr) : Fed (grantedName mem shown) := by
  refine (fed_decodeName mem).bind fun r => ?_
  cases r with
  | error rc => exact quiet_pure _
  | ok name => exact quiet_get.bind fun s => Meets.ite (fun _ => quiet_pure _) fun _ => fed_refuse _ _

theorem fed_splice (key : Key) (mem : List Byte) (name : CStr) : Fed (splice key mem name) :=
  fed_call (by nofun)

theorem fed_grantedPath (key : Key) (dir : CStr) (mem : List Byte) :
    Fed (grantedPath key dir mem) := by
  refine (fed_grantedName mem id).bind fun r => ?_
  cases r with
  | error rc => exact quiet_pure _
  | ok name => exact (fed_splice _ _ _).bind fun _ => fed_checkPath _

/-! ### RETR and STAT -/

/-- The words that a keyword stands before. -/
def Key.words : Key → Nat
  | .command => 2
  | .transcript | .special => 3
  | .file => 4

/-- The words a request of RETR or STAT has to have. -/
def wordsNeeded (words : List CStr) : Nat :=
  match words[1]? with
  | none => 2
  | some word =>
    if strcaseeq word (lit "COMMAND") then 2
    else if strcaseeq word (lit "SPECIAL") || strcaseeq word (lit "TRANSCRIPT") then 3
    else if strcaseeq word (lit "FILE") then 4
    else 2

/-- `keyword` knows no keyword with too few words. -/
theorem keyword_words {commandFile : CStr} {words : List CStr} {key : Key}
    (h : keyword cfg commandFile words = some key) :
    key.words ≤ words.length ∧ wordsNeeded words = key.words := by
  rcases words with _ | ⟨w0, _ | ⟨word, args⟩⟩
  · cases h
  · cases h
  · simp only [keyword] at h
    have hword : (w0 :: word :: args)[1]? = some word := rfl
    simp only [wordsNeeded, hword]
    by_cases hcommand : strcaseeq word (lit "COMMAND") = true
    · rw [if_pos hcommand] at h ⊢
      split_ifs at h
      cases h
      exact ⟨by simp [Key.words], rfl⟩
    rw [if_neg hcommand] at h ⊢
    by_cases hspecial : strcaseeq word (lit "SPECIAL") = true
    · rw [if_pos hspecial] at h
      rcases args with _ | ⟨path, _ | _⟩
      · cases h
      · simp only at h
        split_ifs at h
        obtain ⟨rfl, -⟩ := keywordName_eq h
        exact ⟨by simp [Key.words], by simp [hspecial, Key.words]⟩
      · cases h
    rw [if_neg hspecial] at h
    by_cases htranscript : strcaseeq word (lit "TRANSCRIPT") = true
    · rw [if_pos htranscript] at h
      rcases args with _ | ⟨tran, _ | _⟩
      · cases h
      · simp only at h
        split_ifs at h
        obtain ⟨rfl, -⟩ := keywordName_eq h
        exact ⟨by simp [Key.words], by simp [htranscript, Key.words]⟩
      · cases h
    rw [if_neg htranscript] at h
    by_cases hfile : strcaseeq word (lit "FILE") = true
    · rw [if_pos hfile] at h
      rcases args with _ | ⟨tran, _ | ⟨path, _ | _⟩⟩
      · cases h
      · cases h
      · simp only at h
        split_ifs at h
        obtain ⟨rfl, -⟩ := keywordName_eq h
        exact ⟨by simp [Key.words], by simp [hspecial, htranscript, hfile, Key.words]⟩
      · cases h
    rw [if_neg hfile] at h
    cases h

theorem fed_commandPath (av : List (List Byte)) : Fed (commandPath av) := by
  unfold commandPath
  split
  · exact quiet_get.bind fun s => fed_checkPath _
  · exact fed_grantedPath _ _ _

theorem fed_transcriptPath (h : 3 ≤ av.length) : Fed (transcriptPath av) :=
  (fed_arg h).bind fun mem => fed_grantedPath _ _ mem

theorem fed_specialPath (h : 3 ≤ av.length) : Fed (specialPath av) := by
  refine (fed_arg h).bind fun mem => (fed_decodeName mem).bind fun r => ?_
  cases r with
  | error rc => exact quiet_pure _
  | ok name => exact (fed_splice _ _ _).bind fun _ => quiet_get.bind fun s => fed_checkPath _

theorem fed_filePath (h : 4 ≤ av.length) : Fed (filePath av) := by
  refine (fed_arg h).bind fun file => (fed_decodeName file).bind fun r => ?_
  cases r with
  | error rc => exact quiet_pure _
  | ok path =>
    refine (fed_arg (Nat.lt_of_succ_lt h)).bind fun tran => (fed_grantedName tran _).bind fun r => ?_
    cases r with
    | error rc => exact quiet_pure _
    | ok name =>
      exact (fed_splice _ _ _).bind fun _ => (fed_splice _ _ _).bind fun _ => fed_checkPath _

theorem fed_sendFile (path : CStr) : Fed (sendFile path) := by
  refine (fed_call (by nofun)).bind fun opened => Meets.ite (fun _ => ?_) fun _ => ?_
  · exact (fed_reply _ _).bind fun _ => quiet_pure _
  refine (fed_call (by nofun)).bind fun size => ?_
  cases size with
  | none =>
    refine (fed_reply _ _).bind fun _ => (fed_call (by nofun)).bind fun closed => ?_
    exact Meets.ite (fun _ => quiet_pure _) fun _ => quiet_pure _
  | some size =>
    refine (fed_reply _ _).bind fun _ => (fed_call (by nofun)).bind fun _ => ?_
    refine (fed_call (by nofun)).bind fun dumped => Meets.ite (fun _ => quiet_pure _) fun _ => ?_
    refine (fed_call (by nofun)).bind fun _ => (fed_call (by nofun)).bind fun closed => ?_
    exact Meets.ite (fun _ => quiet_pure _) fun _ => quiet_pure _

theorem fed_retrPath {key : Option Key} (hkey : ∀ k, key = some k → k.words ≤ av.length) :
    Fed (retrPath key av) := by
  match key, hkey with
  | some .command, _ => exact fed_commandPath av
  | some .transcript, hkey => exact fed_transcriptPath (hkey _ rfl)
  | some .special, hkey => exact fed_specialPath (hkey _ rfl)
  | some .file, hkey => exact fed_filePath (hkey _ rfl)
  | none, _ => exact fed_refuse _ _

/-- What `keyword` says of the words of a request. -/
theorem yields_keyword {allowed : Trace → Call → Prop} {I : Session → Trace → Prop}
    (av : List (List Byte)) :
    Yields allowed I (requestKey cfg av) fun key => ∀ k, key = some k → k.words ≤ av.length := by
  refine Meets.bind quiet_get fun s => yields_pure fun k hk => ?_
  have hwords := (keyword_words hk).1
  rwa [List.length_map] at hwords

theorem fed_fRetr (av : List (List Byte)) : Fed (fRetr cfg av) := by
  refine (yields_keyword av).bind fun key hkey => (fed_retrPath hkey).bind fun path => ?_
  cases path with
  | error rc => exact quiet_pure _
  | ok path => exact fed_sendFile path

theorem fed_fileLines (path : CStr) : Fed (call (.fileLines path)) := fed_call (by nofun)

theorem fed_specialSearch (remotePath : CStr) (paths : List CStr) :
    Fed (specialSearch remotePath paths) := by
  induction paths with
  | nil => exact quiet_pure _
  | cons path paths ih =>
    rw [specialSearch]
    cases specialName path with
    | none => exact ih
    | some name =>
      refine (fed_fileLines name).bind fun lines => ?_
      cases lines with
      | none => exact ih
      | some lines =>
        dsimp only
        cases specialLines remotePath lines with
        | none => exact ih
        | some av => exact quiet_pure _

theorem fed_statReply {key : Key} (hkey : key = .special → 3 ≤ av.length) (path : CStr) (st : FileStat)
    (cksum : CStr) : Fed (statReply key av path st cksum) := by
  have hline : ∀ text, Fed (do call (.line text); return (0 : Int)) :=
    fun text => (fed_call (by nofun)).bind fun _ => quiet_pure _
  refine (fed_reply _ _).bind fun _ => ?_
  cases key with
  | special =>
    refine (fed_arg (hkey rfl)).bind fun mem => ?_
    refine Quiet.bind (quiet_get.bind fun s => fed_specialSearch _ _) fun found => ?_
    split
    · exact hline _
    · exact hline _
  | command => exact hline _
  | transcript => exact hline _
  | file => exact hline _

theorem fed_statPath {key : Option Key} (hkey : ∀ k, key = some k → k.words ≤ av.length) :
    Fed (statPath key av) := by
  match key, hkey with
  | some .command, _ => exact fed_commandPath av
  | some .transcript, hkey => exact fed_transcriptPath (hkey _ rfl)
  | some .special, hkey => exact fed_specialPath (hkey _ rfl)
  | some .file, _ => exact fed_refuse _ _
  | none, _ => exact fed_refuse _ _

theorem fed_statFile {key : Key} (hkey : key = .special → 3 ≤ av.length) (path : CStr) :
    Fed (statFile key av path) := by
  refine (fed_call (by nofun)).bind fun st => ?_
  cases st with
  | none => exact (fed_reply _ _).bind fun _ => quiet_pure _
  | some st =>
    refine (fed_call (by nofun)).bind fun cksum => ?_
    cases cksum with
    | error e => exact (fed_reply _ _).bind fun _ => quiet_pure _
    | ok cksum => exact fed_statReply hkey path st cksum

theorem fed_fStat (av : List (List Byte)) : Fed (fStat cfg av) := by
  refine (yields_keyword av).bind fun key hkey => (fed_statPath hkey).bind fun path => ?_
  cases path with
  | error rc => exact quiet_pure _
  | ok path =>
    refine fed_statFile (fun hspecial => ?_) path
    match key, hkey with
    | some .special, hkey => exact hkey _ rfl

/-! ### STOR -/

theorem fed_mkdirsUp (dirs missing : List CStr) : Fed (mkdirsUp dirs missing) := by
  induction dirs generalizing missing with
  | nil => exact quiet_pure _
  | cons dir dirs ih =>
    refine (fed_call (by nofun)).bind fun r => ?_
    match r with
    | .ok _ => exact quiet_pure _
    | .error .eexist => exact quiet_pure _
    | .error .enoent => exact ih _
    | .error .einval => exact quiet_pure _
    | .error (.other text) => exact quiet_pure _

theorem fed_mkdirsDown (dirs : List CStr) : Fed (mkdirsDown dirs) := by
  induction dirs with
  | nil => exact quiet_pure _
  | cons dir dirs ih =>
    refine (fed_call (by nofun)).bind fun r => ?_
    match r with
    | .ok _ => exact ih
    | .error .eexist => exact ih
    | .error .enoent => exact quiet_pure _
    | .error .einval => exact quiet_pure _
    | .error (.other text) => exact quiet_pure _

theorem fed_mkdirs (path : CStr) : Fed (mkdirs path) := by
  refine (fed_mkdirsUp _ _).bind fun r => ?_
  cases r with
  | error e => exact quiet_pure _
  | ok missing => exact fed_mkdirsDown missing

theorem fed_storeError (path : CStr) (e : Errno) : Fed (storeError path e : Serve α) :=
  (fed_reply _ _).bind fun _ => fed_exit _

theorem fed_createFile (upload : CStr) : Fed (createFile upload) := by
  refine (fed_call (by nofun)).bind fun r => ?_
  cases r with
  | ok fd => exact quiet_pure _
  | error e =>
    refine (fed_mkdirs upload).bind fun r => ?_
    cases r with
    | error e => exact fed_storeError _ _
    | ok _ =>
      refine (fed_call (by nofun)).bind fun r => ?_
      cases r with
      | ok fd => exact quiet_pure _
      | error e => exact fed_storeError _ _

theorem fed_storData (upload : CStr) (fd fuel len : Nat) : Fed (storData upload fd fuel len) := by
  induction fuel generalizing len with
  | zero =>
    cases len with
    | zero => exact quiet_pure _
    | succ len => exact quiet_pure _
  | succ fuel ih =>
    cases len with
    | zero => exact quiet_pure _
    | succ len =>
      refine (fed_call (by nofun)).bind fun bytes => ?_
      cases bytes with
      | none => exact quiet_pure _
      | some bytes =>
        refine (fed_call (by nofun)).bind fun r => ?_
        cases r with
        | error e => exact fed_storeError _ _
        | ok _ => exact ih _

theorem fed_storEnd (upload : CStr) (fd : Nat) : Fed (storEnd upload fd) := by
  refine (fed_call (by nofun)).bind fun r => ?_
  cases r with
  | error e => exact fed_storeError _ _
  | ok _ =>
    refine (fed_call (by nofun)).bind fun line => ?_
    cases line with
    | none => exact quiet_pure _
    | some line =>
      refine Meets.ite (fun _ => ?_) fun _ => ?_
      · exact (fed_reply _ _).bind fun _ => (fed_call (by nofun)).bind fun _ => fed_exit _
      · exact (fed_reply _ _).bind fun _ => quiet_pure _

theorem fed_storeFile (upload : CStr) : Fed (storeFile upload) := by
  refine (fed_createFile upload).bind fun fd => (fed_reply _ _).bind fun _ => ?_
  refine (fed_call (by nofun)).bind fun sizebuf => ?_
  cases sizebuf with
  | none => exact quiet_pure _
  | some sizebuf =>
    refine Meets.ite (fun _ => (fed_reply _ _).bind fun _ => fed_exit _) fun _ => ?_
    refine (fed_storData _ _ _ _).bind fun done => Meets.ite (fun _ => ?_) fun _ => quiet_pure _
    exact fed_storEnd upload fd

theorem fed_storTranscript (h : 3 ≤ av.length) (tran : List Byte) (name : CStr) :
    Fed (storTranscript av tran name) := by
  have hend (code : Nat) (text : CStr) :
      Fed (do reply code text; exit 1 : Serve (Except Int CStr)) :=
    (fed_reply _ _).bind fun _ => fed_exit _
  refine (fed_splice _ _ _).bind fun _ => (fed_arg h).bind fun xscript => ?_
  refine Meets.ite (fun _ => fed_refuse _ _) fun _ => Quiet.bind (fed_modify _) fun _ => ?_
  refine (fed_call (by nofun)).bind fun r => ?_
  match r with
  | .ok _ => exact quiet_pure _
  | .error .eexist => exact hend _ _
  | .error .enoent => exact hend _ _
  | .error .einval => exact hend _ _
  | .error (.other text) => exact hend _ _

theorem fed_storFile (h : 4 ≤ av.length) (tran : List Byte) (name : CStr) :
    Fed (storFile av tran name) := by
  refine (fed_arg (Nat.lt_of_succ_lt h)).bind fun xscript => quiet_get.bind fun s => ?_
  refine Meets.ite (fun _ => (fed_reply _ _).bind fun _ => fed_exit _) fun _ => ?_
  refine (fed_arg h).bind fun file => (fed_decodeName file).bind fun r => ?_
  cases r with
  | error rc => exact quiet_pure _
  | ok path =>
    refine (fed_splice _ _ _).bind fun _ => (fed_splice _ _ _).bind fun _ => ?_
    exact Meets.ite (fun _ => fed_checkPath _) fun _ => fed_checkPath _

theorem fed_storPath {key : Option Key} (hkey : ∀ k, key = some k → k.words ≤ av.length)
    (tran : List Byte) (name : CStr) : Fed (storPath key av tran name) := by
  have hrefuse : Fed (do
      reply 550 (lit "STOR Syntax error")
      exit 1 : Serve (Except Int CStr)) := (fed_reply _ _).bind fun _ => fed_exit _
  match key, hkey with
  | some .transcript, hkey => exact fed_storTranscript (hkey _ rfl) tran name
  | some .file, hkey => exact fed_storFile (hkey _ rfl) tran name
  | some .command, _ => exact hrefuse
  | some .special, _ => exact hrefuse
  | none, _ => exact hrefuse

theorem fed_storRequest (h : 3 ≤ av.length) : Fed (storRequest cfg av) := by
  refine (fed_arg h).bind fun tran => (fed_decodeName tran).bind fun r => ?_
  cases r with
  | error rc => exact quiet_pure _
  | ok name =>
    refine (yields_keyword av).bind fun key hkey => (fed_storPath hkey tran name).bind fun upload => ?_
    cases upload with
    | error rc => exact quiet_pure _
    | ok upload => exact fed_storeFile upload

/-- `prepareStore` leaves the login alone. -/
theorem prepareStore_authorized (authorized : Bool) :
    Quiet (fun _ c => c ≠ .overrun) (fun s _ => s.authorized = authorized) prepareStore := by
  refine quiet_get.bind fun s => Meets.ite (fun _ => quiet_pure _) fun _ => ?_
  refine Quiet.bind (meets_perform (fun _ _ _ => by nofun) fun _ _ _ hs => hs) fun done => ?_
  refine Meets.ite (fun _ => ?_) fun _ => quiet_pure _
  exact Quiet.bind (meets_modify fun _ _ hs => hs) fun _ => quiet_pure _

/-- A STOR with three words, or of a client that has to log in first. -/
theorem fed_fStor {s : Session} {h : Trace}
    (hcond : 3 ≤ av.length ∨ cfg.checkuser = true ∧ s.authorized = false) :
    Safe (fun _ c => c ≠ .overrun) (fun _ _ => True) (fStor cfg av s) h := by
  have hmeets : Meets (fun _ c => c ≠ .overrun) (fun s' _ => s'.authorized = s.authorized)
      (fStor cfg av) fun _ _ _ => True := by
    refine Meets.bind (prepareStore_authorized s.authorized) fun prepared => ?_
    refine Meets.ite (fun _ => meets_pure fun _ _ _ => trivial) fun _ => ?_
    intro s' h' hs'
    change Safe _ _ ((if cfg.checkuser && !s'.authorized then _ else _ : Serve Int) s') h'
    by_cases hauth : (cfg.checkuser && !s'.authorized) = true
    · rw [if_pos hauth]
      exact ((fed_reply _ _).bind fun _ => fed_exit _) s' h' trivial
    · rw [if_neg hauth]
      rcases hcond with hlen | ⟨huser, hno⟩
      · exact fed_storRequest hlen s' h' trivial
      · rw [hs', huser, hno] at hauth
        exact absurd rfl hauth
  exact hmeets s h rfl

/-- A shorter one of a client that may store. -/
theorem not_fed_fStor {s : Session} {h : Trace} (hlen : av.length < 3)
    (hauth : cfg.checkuser = true → s.authorized = true) :
    ¬ Safe (fun _ c => c ≠ .overrun) (fun _ _ => True) (fStor cfg av s) h := by
  have hrest : ∀ s' : Session, s'.authorized = s.authorized → ∀ h',
      ¬ Safe (fun _ c => c ≠ .overrun) (fun _ _ => True)
        ((if cfg.checkuser && !s'.authorized then (do
            reply 551 (lit "Not logged in")
            exit 1)
          else storRequest cfg av : Serve Int) s') h' := by
    intro s' hs' h' hsafe
    have hlogged : ¬ (cfg.checkuser && !s'.authorized) = true := by
      cases huser : cfg.checkuser with
      | false => simp
      | true => simp [hs', hauth huser]
    have hnone : av[2]? = none := List.getElem?_eq_none_iff.mpr (Nat.le_of_lt_succ hlen)
    rw [if_neg hlogged, storRequest, arg, hnone] at hsafe
    exact hsafe.1 rfl
  have hrun : fStor cfg av s = (prepareStore s).bind fun r => (if !r.1 then pure (-1) else do
      if cfg.checkuser && !(← get).authorized then
        reply 551 (lit "Not logged in")
        exit 1
      else storRequest cfg av : Serve Int) r.2 := rfl
  rw [hrun]
  intro hsafe
  cases hprev : s.prevstor with
  | true =>
    have hprepared : prepareStore s = .pure (true, s) := by
      change (if s.prevstor then pure true else _ : Serve Bool) s = _
      rw [if_pos hprev]
      rfl
    rw [hprepared] at hsafe
    exact hrest s rfl h hsafe
  | false =>
    have hprepared : prepareStore s = .call .delay fun done => (if done then do
        modify fun s => { s with prevstor := true }
        return true
      else return false : Serve Bool) s := by
      change (if s.prevstor then pure true else _ : Serve Bool) s = _
      rw [if_neg (by simp [hprev])]
      rfl
    rw [hprepared] at hsafe
    exact hrest { s with prevstor := true } rfl _ (hsafe.2 true)

/-! ### The other handlers -/

theorem fed_fRepo (av : List (List Byte)) : Fed (fRepo cfg av) := by
  refine Meets.ite (fun _ => (fed_reply _ _).bind fun _ => quiet_pure _) fun hlen => ?_
  have hlen : av.length = 3 := not_not.mp hlen
  refine (fed_arg (by omega)).bind fun mem => (fed_decodeArg mem).bind fun msg => ?_
  cases msg with
  | none => exact (fed_reply _ _).bind fun _ => quiet_pure _
  | some msg =>
    refine quiet_get.bind fun s => (fed_arg (by omega)).bind fun event => ?_
    exact (fed_call (by nofun)).bind fun _ => (fed_reply _ _).bind fun _ => quiet_pure _

theorem fed_fCompress (av : List (List Byte)) : Fed (fCompress cfg av) := by
  have hrefuse : ∀ text, Fed (do reply 501 text; return (1 : Int)) :=
    fun text => (fed_reply _ _).bind fun _ => quiet_pure _
  refine Meets.ite (fun _ => hrefuse _) fun _ => Meets.ite (fun _ => hrefuse _) fun hlen => ?_
  refine quiet_get.bind fun s => Meets.ite (fun _ => hrefuse _) fun _ => ?_
  refine (fed_arg (by omega)).bind fun method => Meets.ite (fun _ => ?_) fun _ => ?_
  · refine (fed_reply _ _).bind fun _ => (fed_call (by nofun)).bind fun set => ?_
    refine Meets.ite (fun _ => ?_) fun _ => quiet_pure _
    exact Quiet.bind (fed_modify _) fun _ => (fed_reply _ _).bind fun _ => quiet_pure _
  · exact (fed_reply _ _).bind fun _ => quiet_pure _

theorem fed_pamCalls (calls : List PamCall) : Fed (pamCalls calls) := by
  induction calls with
  | nil => exact quiet_pure _
  | cons c calls ih =>
    exact (fed_call (by nofun)).bind fun passed => Meets.ite (fun _ => ih) fun _ => quiet_pure _

theorem fed_fLogin (av : List (List Byte)) : Fed (fLogin cfg av) := by
  refine Meets.ite (fun _ => (fed_reply _ _).bind fun _ => quiet_pure _) fun _ => ?_
  refine Meets.ite (fun _ => (fed_reply _ _).bind fun _ => quiet_pure _) fun hlen => ?_
  have hlen : av.length = 3 := not_not.mp hlen
  refine (fed_arg (by omega)).bind fun user => (fed_arg (by omega)).bind fun password => ?_
  refine (fed_pamCalls _).bind fun passed => Meets.ite (fun _ => ?_) fun _ => ?_
  · exact (fed_reply _ _).bind fun _ => Quiet.bind (fed_modify _) fun _ => quiet_pure _
  · exact (fed_reply _ _).bind fun _ => quiet_pure _

theorem fed_lookupConfig : Fed (lookupConfig cfg) :=
  (fed_call (by nofun)).bind fun _ => quiet_get.bind fun _ =>
    Quiet.bind (fed_modify _) fun _ => quiet_pure _

theorem fed_lookupKfile : Fed lookupKfile := by
  refine (fed_call (by nofun)).bind fun files => quiet_get.bind fun s => ?_
  split
  · exact (fed_reply _ _).bind fun _ => fed_exit _
  · exact fed_modify _

theorem fed_checkPeer : Fed (checkPeer cfg) := by
  refine Meets.ite (fun _ => ?_) fun _ => quiet_pure _
  refine (fed_call (by nofun)).bind fun peer => ?_
  cases peer with
  | none => exact quiet_pure _
  | some cn => exact Quiet.bind (fed_modify _) fun _ => quiet_pure _

theorem fed_fStarttls (av : List (List Byte)) : Fed (fStarttls cfg av) := by
  refine Meets.ite (fun _ => (fed_reply _ _).bind fun _ => quiet_pure _) fun _ => ?_
  refine (fed_reply _ _).bind fun _ => (fed_call (by nofun)).bind fun started => ?_
  refine Meets.ite (fun _ => (fed_reply _ _).bind fun _ => quiet_pure _) fun _ => ?_
  refine fed_checkPeer.bind fun peer => Meets.ite (fun _ => quiet_pure _) fun _ => ?_
  refine fed_lookupConfig.bind fun found => Meets.ite (fun _ => ?_) fun _ => ?_
  · exact Quiet.bind (fed_modify _) fun _ => fed_lookupKfile.bind fun _ => quiet_pure _
  · exact Quiet.bind (fed_modify _) fun _ => quiet_pure _

/-- Of all handlers only that of STOR comes to a missing word. -/
theorem fed_run {h : Handler} (hstor : h ≠ .stor) (av : List (List Byte)) : Fed (h.run cfg av) := by
  have hsay : ∀ code text, Fed (do reply code text; return (0 : Int)) :=
    fun code text => (fed_reply code text).bind fun _ => quiet_pure _
  have hleave : ∀ code text status, Fed (do reply code text; exit status : Serve Int) :=
    fun code text status => (fed_reply code text).bind fun _ => fed_exit status
  cases h with
  | quit => exact hleave _ _ _
  | noop => exact hsay _ _
  | help => exact hsay _ _
  | noauth => exact hleave _ _ _
  | notls => exact hleave _ _ _
  | starttls => exact fed_fStarttls av
  | login => exact fed_fLogin av
  | stat => exact fed_fStat av
  | retr => exact fed_fRetr av
  | stor => exact absurd rfl hstor
  | repo => exact fed_fRepo av
  | compress => exact fed_fCompress av

/-! ## Too few words -/

/-- A reply with the code of an error. -/
def Refused (h : Trace) : Prop := ∃ e ∈ h, ∃ code text, e.call = .reply code text ∧ 400 ≤ code

/-- The process ends behind an error reply only. -/
def ExitsRefused (h : Trace) (c : Call) : Prop := ∀ status, c = .exit status → Refused h

/-- A handler that answers with an error, or ends the session. -/
def Refuses (x : Serve Int) : Prop :=
  Meets ExitsRefused (fun _ _ => True) x fun rc _ h => rc < 0 ∨ Refused h

theorem meets_reply {pre : Session → Trace → Prop} {code : Nat} (hcode : 400 ≤ code)
    (text : CStr) : Meets ExitsRefused pre (reply code text) fun _ _ h => Refused h := by
  refine meets_perform (fun _ _ _ => by nofun) fun s h _ _ => ?_
  exact ⟨⟨.reply code text, ()⟩, List.mem_append_right h List.mem_cons_self, code, text, rfl, hcode⟩

theorem refuses_reply {code : Nat} (hcode : 400 ≤ code) (text : CStr) (rc : Int) :
    Refuses (do reply code text; return rc) :=
  Meets.bind (meets_reply hcode text) fun _ => meets_pure fun _ _ h => .inr h

theorem refuses_exit {code : Nat} (hcode : 400 ≤ code) (text : CStr) (status : Nat) :
    Refuses (do reply code text; exit status) :=
  Meets.bind (meets_reply hcode text) fun _ _ _ h => ⟨fun _ _ => h, fun e => e.elim⟩

/-- A request that `keyword` does not know. -/
theorem meets_requestKey {pre : Session → Trace → Prop}
    (hfew : av.length < wordsNeeded (av.map cstr)) :
    Meets ExitsRefused pre (requestKey cfg av) fun key s h => key = none ∧ pre s h := by
  refine Meets.bind (meets_get fun _ _ hs => hs) fun s => meets_pure fun _ _ hs => ⟨?_, hs⟩
  cases hkey : keyword cfg s.lookup.commandFile (av.map cstr) with
  | none => rfl
  | some key =>
    obtain ⟨hlen, hneeded⟩ := keyword_words hkey
    rw [List.length_map] at hlen
    omega

theorem refuses_fRetr (hfew : av.length < wordsNeeded (av.map cstr)) : Refuses (fRetr cfg av) := by
  refine Meets.bind (meets_requestKey hfew) fun key s h hs => ?_
  obtain ⟨rfl, -⟩ := hs
  exact refuses_reply (by decide) (lit "RETR Syntax error") 1 s h trivial

theorem refuses_fStat (hfew : av.length < wordsNeeded (av.map cstr)) : Refuses (fStat cfg av) := by
  refine Meets.bind (meets_requestKey hfew) fun key s h hs => ?_
  obtain ⟨rfl, -⟩ := hs
  exact refuses_reply (by decide) (lit "STAT Syntax error") 1 s h trivial

theorem meets_decodeName (mem : List Byte) :
    Meets ExitsRefused (fun _ _ => True) (decodeName mem)
      fun r _ h => ∀ rc, r = .error rc → Refused h := by
  have hdecode : Meets ExitsRefused (fun _ _ => True) (decodeArg mem) fun _ _ _ => True :=
    fun _ _ _ => trivial
  refine Meets.bind hdecode fun r => ?_
  cases r with
  | none => exact Meets.bind (meets_reply (by decide) _) fun _ => meets_pure fun _ _ h _ _ => h
  | some name => exact meets_pure fun _ _ _ rc hrc => by cases hrc

theorem refuses_storRequest (hfew : av.length < max 3 (wordsNeeded (av.map cstr))) :
    Refuses (storRequest cfg av) := by
  rw [Refuses, storRequest, arg]
  cases htran : av[2]? with
  | none => exact fun _ _ _ => ⟨by nofun, fun e => e.elim⟩
  | some tran =>
    have hlen : 2 < av.length := (List.getElem?_eq_some_iff.mp htran).1
    have hfew : av.length < wordsNeeded (av.map cstr) := by omega
    rw [pure_bind]
    refine Meets.bind (meets_decodeName tran) fun r => ?_
    cases r with
    | error rc => exact meets_pure fun _ _ h => .inr (h rc rfl)
    | ok name =>
      refine Meets.bind (meets_requestKey hfew) fun key s h hs => ?_
      obtain ⟨rfl, -⟩ := hs
      have hnone : Meets ExitsRefused (fun _ _ => True) (storPath none av tran name)
          fun _ _ _ => False :=
        Meets.bind (meets_reply (by decide) _) fun _ _ _ h => ⟨fun _ _ => h, fun e => e.elim⟩
      exact (show Refuses (storPath none av tran name >>= _) from
        Meets.bind hnone fun _ _ _ hs => hs.elim) s h trivial

theorem refuses_fStor (hfew : av.length < max 3 (wordsNeeded (av.map cstr))) :
    Refuses (fStor cfg av) := by
  have hprepare : Meets ExitsRefused (fun _ _ => True) prepareStore fun _ _ _ => True := by
    refine Quiet.bind quiet_get fun s => Meets.ite (fun _ => quiet_pure _) fun _ => ?_
    refine Quiet.bind (meets_perform (fun _ _ _ => by nofun) fun _ _ _ _ => trivial) fun done => ?_
    refine Meets.ite (fun _ => ?_) fun _ => quiet_pure _
    exact Quiet.bind (meets_modify fun _ _ _ => trivial) fun _ => quiet_pure _
  refine Meets.bind hprepare fun prepared => Meets.ite (fun _ => ?_) fun _ => ?_
  · exact meets_pure fun _ _ _ => .inl (by decide)
  · refine Meets.bind (quiet_get : Quiet ExitsRefused (fun _ _ => True) get) fun s => ?_
    refine Meets.ite (fun _ => ?_) fun _ => ?_
    · exact refuses_exit (by decide) _ _
    · exact refuses_storRequest hfew

/-- The words a request has to have for its handler. -/
def Handler.words (h : Handler) (words : List CStr) : Nat :=
  match h with
  | .retr | .stat => wordsNeeded words
  | .stor => max 3 (wordsNeeded words)
  | .repo | .login => 3
  | .compress => 2
  | _ => 1

theorem refuses_run {h : Handler} (hne : av ≠ []) (hfew : av.length < h.words (av.map cstr)) :
    Refuses (h.run cfg av) := by
  have hone : 1 ≤ av.length := List.length_pos_iff.mpr hne
  cases h with
  | quit | noop | help | noauth | notls | starttls => exact absurd hfew (Nat.not_lt.mpr hone)
  | retr => exact refuses_fRetr hfew
  | stat => exact refuses_fStat hfew
  | stor => exact refuses_fStor hfew
  | repo =>
    refine Meets.ite (fun _ => refuses_reply (by decide) _ _) fun hlen => ?_
    exact absurd (not_not.mp hlen) (Nat.ne_of_lt hfew)
  | login =>
    refine Meets.ite (fun _ => refuses_reply (by decide) _ _) fun _ => ?_
    refine Meets.ite (fun _ => refuses_reply (by decide) _ _) fun hlen => ?_
    exact absurd (not_not.mp hlen) (Nat.ne_of_lt hfew)
  | compress =>
    refine Meets.ite (fun _ => refuses_reply (by decide) _ _) fun _ => ?_
    refine Meets.ite (fun _ => refuses_reply (by decide) _ _) fun hlen => ?_
    change av.length < 2 at hfew
    omega

/-! ## A round of the loop -/

variable (cfg)

/-- What the loop does behind a request. -/
def closing (rc : Int) : Serve Int :=
  if rc < 0 then do
    reply 444 (lit "Server closing connection")
    return rc
  else return rc

/-- A request, and what the loop answers where its handler ends the session. -/
def turn (line : List Byte) : Serve Int := do closing (← request cfg line)

/-- The rounds of `cmdloop` are such turns. -/
theorem requests_succ (rounds : Nat) :
    requests cfg (rounds + 1) = (do
      match (← call .getline) with
      | none => reply 444 (lit "Server closing connection")
      | some line =>
        let rc ← turn cfg line
        if rc < 0 then return () else requests cfg rounds) := by
  rw [requests]
  refine bind_congr fun line => ?_
  cases line with
  | none => rfl
  | some line =>
    simp only [turn, closing, bind_assoc]
    refine bind_congr fun rc => ?_
    by_cases hrc : rc < 0
    · simp only [if_pos hrc, bind_assoc, pure_bind]
      exact (bind_pure _).symm
    · simp only [if_neg hrc, pure_bind]

/-- The handler of the request in the table in force. -/
def handlerOf (s : Session) (line : List Byte) : Option Handler :=
  match (acavParse line).2 with
  | [] => none
  | word :: _ => (s.table.lookup cfg (cstr word)).map Prod.snd

/-- The request has too few words for its handler. -/
def TooFew (s : Session) (line : List Byte) : Prop :=
  ∃ h, handlerOf cfg s line = some h ∧
    (acavParse line).2.length < h.words ((acavParse line).2.map cstr)

/-- In the turn of a request no missing word is read, and too few words are answered by an
error reply, behind whatever was called before and however the calls are answered. -/
structure Answers (s : Session) (line : List Byte) (h : Trace) : Prop where
  fed : Safe (fun _ c => c ≠ .overrun) (fun _ _ => True) (turn cfg line s) h
  refused : TooFew cfg s line → Safe ExitsRefused (fun _ h => Refused h) (turn cfg line s) h

/-- A STOR with fewer than three words, of a client that may store. -/
def StoresShort (s : Session) (line : List Byte) : Prop :=
  handlerOf cfg s line = some .stor ∧ (acavParse line).2.length < 3 ∧
    (cfg.checkuser = true → s.authorized = true)

variable {cfg} {s : Session} {line : List Byte}

/-- A line that leads to no handler. -/
theorem turn_none (h : handlerOf cfg s line = none) :
    ∃ code text, turn cfg line s = .call (.reply code text) fun _ => .pure (0, s) := by
  have hturn : turn cfg line s = (request cfg line s).bind fun r => closing r.1 r.2 := rfl
  unfold handlerOf at h
  cases hav : (acavParse line).2 with
  | nil =>
    refine ⟨501, lit "Illegal null command", ?_⟩
    rw [hturn, request, hav]
    rfl
  | cons word av =>
    rw [hav] at h
    have hlookup : s.table.lookup cfg (cstr word) = none := Option.map_eq_none_iff.mp h
    refine ⟨500, lit "Command " ++ cstr word ++ lit " unrecognized", ?_⟩
    rw [hturn, request_cons cfg hav, hlookup]
    rfl

theorem turn_run {hd : Handler} (h : handlerOf cfg s line = some hd) :
    turn cfg line s = .call (.enter hd) fun _ =>
      (hd.run cfg (acavParse line).2 s).bind fun r => closing r.1 r.2 := by
  have hturn : turn cfg line s = (request cfg line s).bind fun r => closing r.1 r.2 := rfl
  unfold handlerOf at h
  cases hav : (acavParse line).2 with
  | nil =>
    rw [hav] at h
    cases h
  | cons word av =>
    rw [hav] at h
    obtain ⟨⟨name, hd'⟩, hlookup, rfl⟩ := Option.map_eq_some_iff.mp h
    rw [hturn, request_cons cfg hav, hlookup]
    rfl

theorem refused_closing (rc : Int) :
    Meets ExitsRefused (fun _ h => rc < 0 ∨ Refused h) (closing rc) fun _ _ h => Refused h := by
  refine Meets.ite (fun _ => ?_) fun hrc => ?_
  · exact Meets.bind (meets_reply (by decide) _) fun _ => meets_pure fun _ _ h => h
  · exact meets_pure fun _ _ h => h.resolve_left hrc

theorem fed_closing (rc : Int) : Fed (closing rc) :=
  Meets.ite (fun _ => (fed_reply _ _).bind fun _ => quiet_pure _) fun _ => quiet_pure _

/-- A turn is as it should be unless a short STOR is carried out. -/
theorem answers_iff (cfg : ServerConfig) (s : Session) (line : List Byte) (h : Trace) :
    Answers cfg s line h ↔ ¬ StoresShort cfg s line := by
  cases hhandler : handlerOf cfg s line with
  | none =>
    obtain ⟨code, text, hturn⟩ := turn_none hhandler
    refine ⟨fun _ hshort => ?_, fun _ => ⟨?_, fun hfew => ?_⟩⟩
    · rw [StoresShort, hhandler] at hshort
      cases hshort.1
    · rw [hturn]
      exact ⟨by nofun, fun _ => trivial⟩
    · obtain ⟨hd, hhd, -⟩ := hfew
      rw [hhandler] at hhd
      cases hhd
  | some hd =>
    have hturn := turn_run hhandler
    constructor
    · rintro ⟨hfed, -⟩ ⟨hstor, hlen, hauth⟩
      rw [hturn] at hfed
      obtain rfl : hd = .stor := Option.some.inj (hhandler.symm.trans hstor)
      exact not_fed_fStor hlen hauth (hfed.2 ()).of_bind
    · intro hnot
      have hfed : Safe (fun _ c => c ≠ .overrun) (fun _ _ => True)
          (hd.run cfg (acavParse line).2 s) (h ++ [⟨.enter hd, ()⟩]) := by
        by_cases hstor : hd = .stor
        · subst hstor
          refine fed_fStor ?_
          by_cases hlen : 3 ≤ (acavParse line).2.length
          · exact .inl hlen
          · have hauth : ¬ (cfg.checkuser = true → s.authorized = true) := fun hauth =>
              hnot ⟨hhandler, Nat.not_le.mp hlen, hauth⟩
            rw [Classical.not_imp] at hauth
            exact .inr ⟨hauth.1, Bool.eq_false_iff.mpr hauth.2⟩
        · exact fed_run hstor _ s _ trivial
      refine ⟨?_, fun hfew => ?_⟩
      · rw [hturn]
        exact ⟨by nofun, fun _ => hfed.bind fun r history _ => fed_closing r.1 r.2 history trivial⟩
      · obtain ⟨hd', hhd', hfew⟩ := hfew
        obtain rfl : hd' = hd := Option.some.inj (hhd'.symm.trans hhandler)
        have hne : (acavParse line).2 ≠ [] := by
          intro hnil
          rw [handlerOf, hnil] at hhandler
          cases hhandler
        rw [hturn]
        refine ⟨by nofun, fun _ => ?_⟩
        exact (refuses_run hne hfew s _ trivial).bind fun r history hr =>
          refused_closing r.1 r.2 history hr

end

/-- A server that asks for no logins. -/
def trustingConfig : ServerConfig :=
  { authlevel := 0, checkuser := false, havePam := false, haveZlib := false, maxZlibLevel := 0
    rapExtensions := false, connections := 0, maxconnections := 0, version := [], remoteHost := []
    remoteAddr := [], wildcard := fun _ _ _ => true }

/-- A client that was let in sends STOR without a word behind it. -/
theorem not_answers : ¬ ∀ (cfg : ServerConfig) (s : Session) (line : List Byte) (h : Trace),
    Answers cfg s line h := by
  intro hall
  let s : Session := { Session.start with table := .auth }
  have hhandler : handlerOf trustingConfig s (lit "STOR" ++ [nul]) = some .stor := by
    decide +kernel
  have hfed := (hall trustingConfig s (lit "STOR" ++ [nul]) []).fed
  rw [turn_run hhandler] at hfed
  exact not_fed_fStor (by decide +kernel) (fun huser => absurd huser (by decide)) (hfed.2 ()).of_bind

end Server
end Radmind
