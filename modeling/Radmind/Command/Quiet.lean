import Radmind.Command.Loop

/-!
# What the handlers leave alone

The handlers of the data commands set no variables but a few of their own.  Any property
of a session that these do not touch is kept by them, as far as it allows their calls.
-/

namespace Radmind
namespace Server

open Interaction

/-- What a call is for. -/
inductive CallKind
  | talk | data | store | enter | splice
  deriving DecidableEq, Repr

def Call.kind : Call → CallKind
  | .enter _ => .enter
  | .splice _ _ _ => .splice
  | .report _ | .openFile _ | .fstat | .dump | .closeFile | .stat _ | .cksum _ | .fileLines _ =>
    .data
  | .mkdir _ | .create _ | .write _ _ | .close _ | .unlink _ => .store
  | _ => .talk

/-- What `keyword` has checked of a word that is put into a path, and what it decodes to. -/
structure Spliced (key : Key) (word name : CStr) : Prop where
  decodes : ∃ buf mem, cstr mem = word ∧ (decode buf mem).1 = some name
  checked : key ≠ .command → ¬ lit "../" <:+: word ∨
    key = .file ∧ ¬ lit "../" <+: word ∧ ¬ lit "/../" <:+: word

abbrev Trace := List (Event Answer)

/-- A property of a session that the handlers keep while they talk to the client. -/
structure Talks (allowed : Trace → Call → Prop) (I : Session → Trace → Prop) : Prop where
  snoc : ∀ s h e, I s h → I s (h ++ [e])
  own : ∀ s h buf uploadXscript prevstor compressed, I s h →
    I { s with buf := buf, uploadXscript := uploadXscript, prevstor := prevstor
               compressed := compressed } h
  talk : ∀ s h c, I s h → c.kind = .talk → allowed h c

/-- One that allows the calls of the data commands, too. -/
structure Permits (allowed : Trace → Call → Prop) (I : Session → Trace → Prop) : Prop
    extends Talks allowed I where
  data : ∀ s h c, I s h → c.kind = .data → allowed h c
  splice : ∀ s h key word name, I s h → Spliced key word name → allowed h (.splice key word name)

/-- A program that keeps a property of the session. -/
def Quiet {α : Type} (allowed : Trace → Call → Prop) (I : Session → Trace → Prop) (x : Serve α) :
    Prop := Meets allowed I x fun _ => I

section

variable {allowed : Trace → Call → Prop} {I : Session → Trace → Prop} {α β : Type}

theorem Quiet.bind {x : Serve α} {f : α → Serve β} (h : Quiet allowed I x)
    (hf : ∀ a, Quiet allowed I (f a)) : Quiet allowed I (x >>= f) := Meets.bind h hf

theorem quiet_pure (a : α) : Quiet allowed I (pure a) := meets_pure fun _ _ hs => hs

theorem quiet_get : Quiet allowed I get := meets_get fun _ _ hs => hs

theorem quiet_data (hp : Permits allowed I) {c : Call} (hc : c.kind = .data) :
    Quiet allowed I (call c) :=
  meets_perform (fun s h hs => hp.data s h c hs hc) fun s h _ hs => hp.snoc s h _ hs

variable (ht : Talks allowed I)
include ht

theorem quiet_talk {c : Call} (hc : c.kind = .talk) : Quiet allowed I (call c) :=
  meets_perform (fun s h hs => ht.talk s h c hs hc) fun s h _ hs => ht.snoc s h _ hs

theorem quiet_reply (code : Nat) (text : CStr) : Quiet allowed I (reply code text) :=
  quiet_talk ht (c := .reply code text) rfl

theorem quiet_exit (status : Nat) : Quiet allowed I (exit status : Serve α) :=
  fun s h hs => ⟨ht.talk s h _ hs rfl, fun e => e.elim⟩

theorem quiet_overrun : Quiet allowed I (overrun : Serve α) :=
  fun s h hs => ⟨ht.talk s h _ hs rfl, fun e => e.elim⟩

theorem quiet_arg (av : List (List Byte)) (i : Nat) : Quiet allowed I (arg av i) := by
  unfold arg
  split
  · exact quiet_pure _
  · exact quiet_overrun ht

theorem quiet_refuse (code : Nat) (text : CStr) :
    Quiet allowed I (refuse code text : Serve (Except Int α)) :=
  (quiet_reply ht code text).bind fun _ => quiet_pure _

theorem quiet_checkPath (path : CStr) : Quiet allowed I (checkPath path) := by
  unfold checkPath
  split_ifs
  · exact quiet_refuse ht _ _
  · exact quiet_pure _

end

/-! ## Values -/

/-- A program that keeps a property of the session, with something known of its value. -/
def Yields (allowed : Trace → Call → Prop) (I : Session → Trace → Prop) (x : Serve α)
    (R : α → Prop) : Prop := Meets allowed I x fun a s h => I s h ∧ R a

theorem Yields.bind {x : Serve α} {R : α → Prop} {f : α → Serve β} (h : Yields allowed I x R)
    (hf : ∀ a, R a → Quiet allowed I (f a)) : Quiet allowed I (x >>= f) :=
  Meets.bind h fun a s history hs => hf a hs.2 s history hs.1

theorem Yields.andThen {x : Serve α} {R : α → Prop} {f : α → Serve β} {S : β → Prop}
    (h : Yields allowed I x R) (hf : ∀ a, R a → Yields allowed I (f a) S) :
    Yields allowed I (x >>= f) S :=
  Meets.bind h fun a s history hs => hf a hs.2 s history hs.1

theorem yields_pure {a : α} {R : α → Prop} (h : R a) : Yields allowed I (pure a) R :=
  meets_pure fun _ _ hs => ⟨hs, h⟩

theorem Quiet.yields {x : Serve α} (h : Quiet allowed I x) : Yields allowed I x fun _ => True :=
  Meets.mono h (fun _ _ hs => hs) fun _ _ _ hs => ⟨hs, trivial⟩

theorem Yields.quiet {x : Serve α} {R : α → Prop} (h : Yields allowed I x R) :
    Quiet allowed I x := Meets.mono h (fun _ _ hs => hs) fun _ _ _ hs => hs.1

theorem Yields.weaken {x : Serve α} {R S : α → Prop} (h : Yields allowed I x R)
    (hRS : ∀ a, R a → S a) : Yields allowed I x S :=
  Meets.mono h (fun _ _ hs => hs) fun a _ _ hs => ⟨hs.1, hRS a hs.2⟩

section

variable (ht : Talks allowed I)
include ht

theorem yields_arg (av : List (List Byte)) (i : Nat) :
    Yields allowed I (arg av i) fun mem => av[i]? = some mem := by
  unfold arg
  split
  · next mem hmem => exact yields_pure hmem
  · exact fun s h hs => ⟨ht.talk s h _ hs rfl, fun e => e.elim⟩

/-- The word `mem` can be read as `name`. -/
def Reads (mem : List Byte) (name : CStr) : Prop := ∃ buf, (decode buf mem).1 = some name

omit ht in
/-- Something is known of what a program has if it goes on. -/
def IfOk (R : α → Prop) (r : Except Int α) : Prop := ∀ a, r = .ok a → R a

theorem yields_decodeArg (mem : List Byte) :
    Yields allowed I (decodeArg mem) fun r => ∀ name, r = some name → Reads mem name := by
  intro s h hs
  refine ⟨?_, fun name hname => ⟨s.buf, hname⟩⟩
  exact ht.own s h (decode s.buf mem).2 s.uploadXscript s.prevstor s.compressed hs

theorem yields_refuse (code : Nat) (text : CStr) (R : α → Prop) :
    Yields allowed I (refuse code text : Serve (Except Int α)) (IfOk R) :=
  (quiet_reply ht code text).yields.andThen fun _ _ => yields_pure fun a ha => by cases ha

theorem yields_decodeName (mem : List Byte) :
    Yields allowed I (decodeName mem) (IfOk (Reads mem)) := by
  refine (yields_decodeArg ht mem).andThen fun r hr => ?_
  cases r with
  | none => exact yields_refuse ht _ _ _
  | some name =>
    refine yields_pure fun name' hname' => ?_
    rw [← Except.ok.inj hname']
    exact hr name rfl

theorem yields_grantedName (mem : List Byte) (shown : CStr → CStr) :
    Yields allowed I (grantedName mem shown) (IfOk (Reads mem)) := by
  refine (yields_decodeName ht mem).andThen fun r hr => ?_
  cases r with
  | error rc => exact yields_pure fun a ha => by cases ha
  | ok name =>
    refine Meets.bind quiet_get fun s => ?_
    refine Meets.ite (fun _ => ?_) fun _ => ?_
    · refine yields_pure fun name' hname' => ?_
      rw [← Except.ok.inj hname']
      exact hr name rfl
    · exact yields_refuse ht _ _ _

end

/-! ## The handlers of requests -/

theorem quiet_splice (hp : Permits allowed I) {key : Key} {mem : List Byte} {name : CStr}
    (hreads : Reads mem name)
    (hchecked : key ≠ .command → ¬ lit "../" <:+: cstr mem ∨
      key = .file ∧ ¬ lit "../" <+: cstr mem ∧ ¬ lit "/../" <:+: cstr mem) :
    Quiet allowed I (splice key mem name) := by
  obtain ⟨buf, hbuf⟩ := hreads
  refine meets_perform (fun s h hs => ?_) fun s h _ hs => hp.snoc s h _ hs
  exact hp.splice s h key (cstr mem) name hs ⟨⟨buf, mem, rfl, hbuf⟩, hchecked⟩

/-- What `keyword` has checked of the words of a request. -/
structure Checked (key : Key) (av : List (List Byte)) : Prop where
  name : key ≠ .command → ∀ mem, av[2]? = some mem → ¬ lit "../" <:+: cstr mem
  path : key = .file → ∀ mem, av[3]? = some mem →
    ¬ lit "../" <+: cstr mem ∧ ¬ lit "/../" <:+: cstr mem

theorem keywordName_eq {key key' : Key} {name : CStr} (h : keywordName key name = some key') :
    key' = key ∧ ¬ lit "../" <:+: name := by
  unfold keywordName at h
  split_ifs at h with hup
  exact ⟨(Option.some.inj h).symm, fun hin => hup (strstr_iff.mpr hin)⟩

theorem checked_of_keyword {cfg : ServerConfig} {commandFile : CStr} {av : List (List Byte)}
    {key : Key} (h : keyword cfg commandFile (av.map cstr) = some key) : Checked key av := by
  match av with
  | [] => cases h
  | [_] => cases h
  | w0 :: w1 :: args =>
    simp only [keyword, List.map_cons] at h
    split at h
    · split_ifs at h
      obtain rfl : Key.command = key := Option.some.inj h
      exact ⟨fun hne => absurd rfl hne, fun hfile => by cases hfile⟩
    split at h
    · match args with
      | [] => cases h
      | [path] =>
        simp only [List.map_cons, List.map_nil] at h
        split_ifs at h
        obtain ⟨rfl, hup⟩ := keywordName_eq h
        exact ⟨fun _ mem hmem => by rwa [← Option.some.inj hmem], fun hfile => by cases hfile⟩
      | _ :: _ :: _ => cases h
    split at h
    · match args with
      | [] => cases h
      | [tran] =>
        simp only [List.map_cons, List.map_nil] at h
        split_ifs at h
        obtain ⟨rfl, hup⟩ := keywordName_eq h
        exact ⟨fun _ mem hmem => by rwa [← Option.some.inj hmem], fun hfile => by cases hfile⟩
      | _ :: _ :: _ => cases h
    split at h
    · match args with
      | [] => cases h
      | [_] => cases h
      | [tran, path] =>
        simp only [List.map_cons, List.map_nil] at h
        split_ifs at h with hleading hinner
        obtain ⟨rfl, hup⟩ := keywordName_eq h
        refine ⟨fun _ mem hmem => by rwa [← Option.some.inj hmem], fun _ mem hmem => ?_⟩
        rw [← Option.some.inj hmem]
        exact ⟨fun hpre => hleading (hasPrefix_iff.mpr hpre), fun hin => hinner (strstr_iff.mpr hin)⟩
      | _ :: _ :: _ :: _ => cases h
    cases h

section

variable {allowed : Trace → Call → Prop} {I : Session → Trace → Prop} {cfg : ServerConfig}

theorem yields_requestKey (av : List (List Byte)) :
    Yields allowed I (requestKey cfg av) fun key => ∀ k, key = some k → Checked k av := by
  refine Meets.bind quiet_get fun s => yields_pure fun k hk => ?_
  exact checked_of_keyword hk

variable (hp : Permits allowed I) (av : List (List Byte))
include hp

theorem quiet_grantedPath {key : Key} {dir : CStr} {mem : List Byte}
    (hchecked : key ≠ .command → ¬ lit "../" <:+: cstr mem) :
    Quiet allowed I (grantedPath key dir mem) := by
  refine (yields_grantedName hp.toTalks mem id).bind fun r hr => ?_
  cases r with
  | error rc => exact quiet_pure _
  | ok name =>
    refine (quiet_splice hp (hr name rfl) fun hkey => .inl (hchecked hkey)).bind fun _ => ?_
    exact quiet_checkPath hp.toTalks _

theorem quiet_commandPath : Quiet allowed I (commandPath av) := by
  unfold commandPath
  split
  · exact quiet_get.bind fun s => quiet_checkPath hp.toTalks _
  · exact quiet_grantedPath hp fun hkey => absurd rfl hkey

theorem quiet_transcriptPath (hchecked : Checked .transcript av) :
    Quiet allowed I (transcriptPath av) :=
  (yields_arg hp.toTalks av 2).bind fun mem hmem =>
    quiet_grantedPath hp fun hkey => hchecked.name hkey mem hmem

theorem quiet_specialPath (hchecked : Checked .special av) :
    Quiet allowed I (specialPath av) := by
  refine (yields_arg hp.toTalks av 2).bind fun mem hmem => ?_
  refine (yields_decodeName hp.toTalks mem).bind fun r hr => ?_
  cases r with
  | error rc => exact quiet_pure _
  | ok name =>
    refine (quiet_splice hp (hr name rfl) fun hkey =>
      .inl (hchecked.name hkey mem hmem)).bind fun _ => ?_
    exact quiet_get.bind fun s => quiet_checkPath hp.toTalks _

theorem quiet_filePath (hchecked : Checked .file av) : Quiet allowed I (filePath av) := by
  refine (yields_arg hp.toTalks av 3).bind fun file hfile => ?_
  refine (yields_decodeName hp.toTalks file).bind fun r hr => ?_
  cases r with
  | error rc => exact quiet_pure _
  | ok path =>
    refine (yields_arg hp.toTalks av 2).bind fun tran htran => ?_
    refine (yields_grantedName hp.toTalks tran _).bind fun r' hr' => ?_
    cases r' with
    | error rc => exact quiet_pure _
    | ok name =>
      refine (quiet_splice hp (hr' name rfl) fun hkey =>
        .inl (hchecked.name hkey tran htran)).bind fun _ => ?_
      refine (quiet_splice hp (hr path rfl) fun _ =>
        .inr ⟨rfl, hchecked.path rfl file hfile⟩).bind fun _ => ?_
      exact quiet_checkPath hp.toTalks _

theorem quiet_sendFile (path : CStr) : Quiet allowed I (sendFile path) := by
  refine (quiet_data hp rfl).bind fun opened => Meets.ite (fun _ => ?_) fun _ => ?_
  · exact (quiet_reply hp.toTalks _ _).bind fun _ => quiet_pure _
  refine (quiet_data hp rfl).bind fun size => ?_
  cases size with
  | none =>
    refine (quiet_reply hp.toTalks _ _).bind fun _ => (quiet_data hp rfl).bind fun closed => ?_
    exact Meets.ite (fun _ => quiet_pure _) fun _ => quiet_pure _
  | some size =>
    refine (quiet_reply hp.toTalks _ _).bind fun _ => (quiet_talk hp.toTalks rfl).bind fun _ => ?_
    refine (quiet_data hp rfl).bind fun dumped => Meets.ite (fun _ => ?_) fun _ => ?_
    · exact quiet_pure _
    refine (quiet_talk hp.toTalks rfl).bind fun _ => (quiet_data hp rfl).bind fun closed => ?_
    exact Meets.ite (fun _ => quiet_pure _) fun _ => quiet_pure _

theorem quiet_retrPath {key : Option Key} (hkey : ∀ k, key = some k → Checked k av) :
    Quiet allowed I (retrPath key av) := by
  match key, hkey with
  | some .command, _ => exact quiet_commandPath hp av
  | some .transcript, hkey => exact quiet_transcriptPath hp av (hkey _ rfl)
  | some .special, hkey => exact quiet_specialPath hp av (hkey _ rfl)
  | some .file, hkey => exact quiet_filePath hp av (hkey _ rfl)
  | none, _ => exact quiet_refuse hp.toTalks _ _

theorem quiet_fRetr : Quiet allowed I (fRetr cfg av) := by
  refine (yields_requestKey av).bind fun key hkey => (quiet_retrPath hp av hkey).bind fun path => ?_
  cases path with
  | error rc => exact quiet_pure _
  | ok path => exact quiet_sendFile hp path

theorem quiet_specialSearch (remotePath : CStr) (paths : List CStr) :
    Quiet allowed I (specialSearch remotePath paths) := by
  induction paths with
  | nil => exact quiet_pure _
  | cons path paths ih =>
    rw [specialSearch]
    split
    · exact ih
    · refine (quiet_data hp rfl).bind fun lines => ?_
      cases lines with
      | none => exact ih
      | some lines =>
        dsimp only
        cases specialLines remotePath lines with
        | some av => exact quiet_pure _
        | none => exact ih

theorem quiet_statReply (key : Key) (path : CStr) (st : FileStat) (cksum : CStr) :
    Quiet allowed I (statReply key av path st cksum) := by
  have hline : ∀ text, Quiet allowed I (do call (.line text); return (0 : Int)) :=
    fun text => (quiet_talk hp.toTalks rfl).bind fun _ => quiet_pure _
  refine (quiet_reply hp.toTalks _ _).bind fun _ => ?_
  split
  · refine (quiet_arg hp.toTalks av 2).bind fun mem => ?_
    refine Quiet.bind (quiet_get.bind fun s => quiet_specialSearch hp _ _) fun found => ?_
    split
    · exact hline _
    · exact hline _
  · exact hline _

theorem quiet_statPath {key : Option Key} (hkey : ∀ k, key = some k → Checked k av) :
    Quiet allowed I (statPath key av) := by
  match key, hkey with
  | some .command, _ => exact quiet_commandPath hp av
  | some .transcript, hkey => exact quiet_transcriptPath hp av (hkey _ rfl)
  | some .special, hkey => exact quiet_specialPath hp av (hkey _ rfl)
  | some .file, _ => exact quiet_refuse hp.toTalks _ _
  | none, _ => exact quiet_refuse hp.toTalks _ _

theorem quiet_statFile (key : Key) (path : CStr) : Quiet allowed I (statFile key av path) := by
  refine (quiet_data hp rfl).bind fun st => ?_
  cases st with
  | none => exact (quiet_reply hp.toTalks _ _).bind fun _ => quiet_pure _
  | some st =>
    refine (quiet_data hp rfl).bind fun cksum => ?_
    cases cksum with
    | error e => exact (quiet_reply hp.toTalks _ _).bind fun _ => quiet_pure _
    | ok cksum => exact quiet_statReply hp av _ path st cksum

theorem quiet_fStat : Quiet allowed I (fStat cfg av) := by
  refine (yields_requestKey av).bind fun key hkey => (quiet_statPath hp av hkey).bind fun path => ?_
  cases path with
  | error rc => exact quiet_pure _
  | ok path => exact quiet_statFile hp av _ path

theorem quiet_fRepo : Quiet allowed I (fRepo cfg av) := by
  refine Meets.ite (fun _ => ?_) fun _ => ?_
  · exact (quiet_reply hp.toTalks _ _).bind fun _ => quiet_pure _
  refine (quiet_arg hp.toTalks av 2).bind fun mem => (yields_decodeArg hp.toTalks mem).bind fun msg _ => ?_
  cases msg with
  | none => exact (quiet_reply hp.toTalks _ _).bind fun _ => quiet_pure _
  | some msg =>
    refine quiet_get.bind fun s => (quiet_arg hp.toTalks av 1).bind fun event => ?_
    refine (quiet_data hp rfl).bind fun _ => ?_
    exact (quiet_reply hp.toTalks _ _).bind fun _ => quiet_pure _

theorem quiet_fCompress : Quiet allowed I (fCompress cfg av) := by
  have hrefuse : ∀ text, Quiet allowed I (do reply 501 text; return (1 : Int)) :=
    fun text => (quiet_reply hp.toTalks _ _).bind fun _ => quiet_pure _
  refine Meets.ite (fun _ => hrefuse _) fun _ => Meets.ite (fun _ => hrefuse _) fun _ => ?_
  refine quiet_get.bind fun s => Meets.ite (fun _ => hrefuse _) fun _ => ?_
  refine (quiet_arg hp.toTalks av 1).bind fun method => Meets.ite (fun _ => ?_) fun _ => ?_
  · refine (quiet_reply hp.toTalks _ _).bind fun _ => (quiet_talk hp.toTalks rfl).bind fun set => ?_
    refine Meets.ite (fun _ => ?_) fun _ => quiet_pure _
    refine Quiet.bind (meets_modify fun s h hs => ?_) fun _ =>
      (quiet_reply hp.toTalks _ _).bind fun _ => quiet_pure _
    exact hp.own s h s.buf s.uploadXscript s.prevstor true hs
  · exact (quiet_reply hp.toTalks _ _).bind fun _ => quiet_pure _

/-! ## Stores -/

variable (hstore : ∀ s h c, I s h → c.kind = .store → allowed h c)
include hstore

theorem quiet_store {c : Call} (hc : c.kind = .store) : Quiet allowed I (call c) :=
  meets_perform (fun s h hs => hstore s h c hs hc) fun s h _ hs => hp.snoc s h _ hs

theorem quiet_mkdirsUp (dirs missing : List CStr) : Quiet allowed I (mkdirsUp dirs missing) := by
  induction dirs generalizing missing with
  | nil => exact quiet_pure _
  | cons dir dirs ih =>
    refine (quiet_store hp hstore (c := .mkdir dir) rfl).bind fun r => ?_
    match r with
    | .ok _ => exact quiet_pure _
    | .error .eexist => exact quiet_pure _
    | .error .enoent => exact ih _
    | .error .einval => exact quiet_pure _
    | .error (.other text) => exact quiet_pure _

theorem quiet_mkdirsDown (dirs : List CStr) : Quiet allowed I (mkdirsDown dirs) := by
  induction dirs with
  | nil => exact quiet_pure _
  | cons dir dirs ih =>
    refine (quiet_store hp hstore (c := .mkdir dir) rfl).bind fun r => ?_
    match r with
    | .ok _ => exact ih
    | .error .eexist => exact ih
    | .error .enoent => exact quiet_pure _
    | .error .einval => exact quiet_pure _
    | .error (.other text) => exact quiet_pure _

theorem quiet_mkdirs (path : CStr) : Quiet allowed I (mkdirs path) := by
  refine (quiet_mkdirsUp hp hstore _ _).bind fun r => ?_
  cases r with
  | error e => exact quiet_pure _
  | ok missing => exact quiet_mkdirsDown hp hstore missing

omit hstore in
theorem quiet_storeError {α : Type} (path : CStr) (e : Errno) :
    Quiet allowed I (storeError path e : Serve α) :=
  (quiet_reply hp.toTalks _ _).bind fun _ => quiet_exit hp.toTalks _

theorem quiet_createFile (upload : CStr) : Quiet allowed I (createFile upload) := by
  refine (quiet_store hp hstore (c := .create upload) rfl).bind fun r => ?_
  cases r with
  | ok fd => exact quiet_pure _
  | error e =>
    refine (quiet_mkdirs hp hstore upload).bind fun r => ?_
    cases r with
    | error e => exact quiet_storeError hp _ _
    | ok _ =>
      refine (quiet_store hp hstore (c := .create upload) rfl).bind fun r => ?_
      cases r with
      | ok fd => exact quiet_pure _
      | error e => exact quiet_storeError hp _ _

theorem quiet_storData (upload : CStr) (fd fuel len : Nat) :
    Quiet allowed I (storData upload fd fuel len) := by
  induction fuel generalizing len with
  | zero =>
    cases len with
    | zero => exact quiet_pure _
    | succ len => exact quiet_pure _
  | succ fuel ih =>
    cases len with
    | zero => exact quiet_pure _
    | succ len =>
      refine (quiet_talk hp.toTalks (c := .read (min (len + 1) 8192)) rfl).bind fun bytes => ?_
      cases bytes with
      | none => exact quiet_pure _
      | some bytes =>
        refine (quiet_store hp hstore (c := .write fd bytes.val) rfl).bind fun r => ?_
        cases r with
        | error e => exact quiet_storeError hp _ _
        | ok _ => exact ih _

theorem quiet_storEnd (upload : CStr) (fd : Nat) : Quiet allowed I (storEnd upload fd) := by
  refine (quiet_store hp hstore (c := .close fd) rfl).bind fun r => ?_
  cases r with
  | error e => exact quiet_storeError hp _ _
  | ok _ =>
    refine (quiet_talk hp.toTalks (c := .getline) rfl).bind fun line => ?_
    cases line with
    | none => exact quiet_pure _
    | some line =>
      refine Meets.ite (fun _ => ?_) fun _ => ?_
      · refine (quiet_reply hp.toTalks _ _).bind fun _ => ?_
        exact (quiet_store hp hstore (c := .unlink upload) rfl).bind fun _ => quiet_exit hp.toTalks _
      · exact (quiet_reply hp.toTalks _ _).bind fun _ => quiet_pure _

theorem quiet_storeFile (upload : CStr) : Quiet allowed I (storeFile upload) := by
  refine (quiet_createFile hp hstore upload).bind fun fd => (quiet_reply hp.toTalks _ _).bind fun _ => ?_
  refine (quiet_talk hp.toTalks (c := .getline) rfl).bind fun sizebuf => ?_
  cases sizebuf with
  | none => exact quiet_pure _
  | some sizebuf =>
    refine Meets.ite (fun _ => ?_) fun _ => ?_
    · exact (quiet_reply hp.toTalks _ _).bind fun _ => quiet_exit hp.toTalks _
    refine (quiet_storData hp hstore _ _ _ _).bind fun done => Meets.ite (fun _ => ?_) fun _ => ?_
    · exact quiet_storEnd hp hstore upload fd
    · exact quiet_pure _

theorem quiet_storTranscript {tran : List Byte} {name : CStr} (hreads : Reads tran name)
    (hchecked : ¬ lit "../" <:+: cstr tran) :
    Quiet allowed I (storTranscript av tran name) := by
  refine (quiet_splice hp hreads fun _ => .inl hchecked).bind fun _ => ?_
  refine (quiet_arg hp.toTalks av 2).bind fun xscript => Meets.ite (fun _ => ?_) fun _ => ?_
  · exact quiet_refuse hp.toTalks _ _
  refine Quiet.bind (meets_modify fun s h hs => ?_) fun _ => ?_
  · exact hp.own s h s.buf (cstr xscript) s.prevstor s.compressed hs
  refine (quiet_store hp hstore (c := .mkdir _) rfl).bind fun r => ?_
  match r with
  | .ok _ => exact quiet_pure _
  | .error .eexist => exact (quiet_reply hp.toTalks _ _).bind fun _ => quiet_exit hp.toTalks _
  | .error .enoent => exact (quiet_reply hp.toTalks _ _).bind fun _ => quiet_exit hp.toTalks _
  | .error .einval => exact (quiet_reply hp.toTalks _ _).bind fun _ => quiet_exit hp.toTalks _
  | .error (.other text) => exact (quiet_reply hp.toTalks _ _).bind fun _ => quiet_exit hp.toTalks _

omit hstore in
theorem quiet_storFile {tran : List Byte} {name : CStr} (hreads : Reads tran name)
    (hchecked : Checked .file av) (htran : av[2]? = some tran) :
    Quiet allowed I (storFile av tran name) := by
  refine (quiet_arg hp.toTalks av 2).bind fun xscript => quiet_get.bind fun s => ?_
  refine Meets.ite (fun _ => ?_) fun _ => ?_
  · exact (quiet_reply hp.toTalks _ _).bind fun _ => quiet_exit hp.toTalks _
  refine (yields_arg hp.toTalks av 3).bind fun file hfile => (yields_decodeName hp.toTalks file).bind fun r hr => ?_
  cases r with
  | error rc => exact quiet_pure _
  | ok path =>
    refine (quiet_splice hp hreads fun hkey => .inl (hchecked.name hkey tran htran)).bind
      fun _ => ?_
    refine (quiet_splice hp (hr path rfl) fun _ =>
      .inr ⟨rfl, hchecked.path rfl file hfile⟩).bind fun _ => ?_
    exact Meets.ite (fun _ => quiet_checkPath hp.toTalks _) fun _ => quiet_checkPath hp.toTalks _

theorem quiet_storPath {key : Option Key} (hkey : ∀ k, key = some k → Checked k av)
    {tran : List Byte} {name : CStr} (hreads : Reads tran name) (htran : av[2]? = some tran) :
    Quiet allowed I (storPath key av tran name) := by
  have hrefuse : Quiet allowed I (do
      reply 550 (lit "STOR Syntax error")
      exit 1 : Serve (Except Int CStr)) := (quiet_reply hp.toTalks _ _).bind fun _ => quiet_exit hp.toTalks _
  match key, hkey with
  | some .transcript, hkey =>
    exact quiet_storTranscript hp av hstore hreads ((hkey _ rfl).name (by simp) tran htran)
  | some .file, hkey => exact quiet_storFile hp av hreads (hkey _ rfl) htran
  | some .command, _ => exact hrefuse
  | some .special, _ => exact hrefuse
  | none, _ => exact hrefuse

theorem quiet_storRequest : Quiet allowed I (storRequest cfg av) := by
  refine (yields_arg hp.toTalks av 2).bind fun tran htran => (yields_decodeName hp.toTalks tran).bind fun r hr => ?_
  cases r with
  | error rc => exact quiet_pure _
  | ok name =>
    refine (yields_requestKey av).bind fun key hkey => ?_
    refine (quiet_storPath hp av hstore hkey (hr name rfl) htran).bind fun upload => ?_
    cases upload with
    | error rc => exact quiet_pure _
    | ok upload => exact quiet_storeFile hp hstore upload

end

/-- Behind the check of the login. -/
def LoggedOn (cfg : ServerConfig) (I : Session → Trace → Prop) (s : Session) (h : Trace) : Prop :=
  I s h ∧ (cfg.checkuser = true → s.authorized = true)

section

variable {allowed : Trace → Call → Prop} {I : Session → Trace → Prop} {cfg : ServerConfig}

theorem Permits.loggedOn (hp : Permits allowed I) : Permits allowed (LoggedOn cfg I) where
  snoc s h e hs := ⟨hp.snoc s h e hs.1, hs.2⟩
  own s h buf uploadXscript prevstor compressed hs :=
    ⟨hp.own s h buf uploadXscript prevstor compressed hs.1, hs.2⟩
  talk s h c hs := hp.talk s h c hs.1
  data s h c hs := hp.data s h c hs.1
  splice s h key word name hs := hp.splice s h key word name hs.1

theorem quiet_prepareStore (hp : Permits allowed I) : Quiet allowed I prepareStore := by
  refine quiet_get.bind fun s => Meets.ite (fun _ => quiet_pure _) fun _ => ?_
  refine (quiet_talk hp.toTalks (c := .delay) rfl).bind fun done => Meets.ite (fun _ => ?_) fun _ => ?_
  · refine Quiet.bind (meets_modify fun s h hs => ?_) fun _ => quiet_pure _
    exact hp.own s h s.buf s.uploadXscript true s.compressed hs
  · exact quiet_pure _

theorem quiet_fStor (hp : Permits allowed I)
    (hstore : ∀ s h c, LoggedOn cfg I s h → c.kind = .store → allowed h c)
    (av : List (List Byte)) : Quiet allowed I (fStor cfg av) := by
  refine (quiet_prepareStore hp).bind fun prepared => Meets.ite (fun _ => quiet_pure _) fun _ => ?_
  intro s h hs
  show Safe allowed _ ((if cfg.checkuser && !s.authorized then _ else _ : Serve Int) s) h
  split_ifs with hauth
  · exact ((quiet_reply hp.toTalks _ _).bind fun _ => quiet_exit hp.toTalks _) s h hs
  · have hon : LoggedOn cfg I s h := ⟨hs, by simpa using hauth⟩
    exact (quiet_storRequest hp.loggedOn av hstore s h hon).mono fun r history hr => hr.1

end

end Server
end Radmind
