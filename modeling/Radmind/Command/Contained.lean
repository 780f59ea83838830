import Radmind.Command.Quiet

/-!
# Paths of a session

`keyword` looks for `../` in the words of a request, and the handlers put into the path
what `decode` makes of them.  Both agree as long as `decode` knows every escape.  An
unknown one shows what an earlier request left in the buffer.
-/

namespace Radmind

/-! ## What escapes can stand for -/

/-- A string by its escapes, all of them known. -/
inductive Spelled : CStr → Prop
  | nil : Spelled []
  | plain {c : Byte} {w : CStr} : c ≠ bslash → Spelled w → Spelled (c :: w)
  | escape {e : Byte} {w : CStr} : isEscape e = true → Spelled w → Spelled (bslash :: e :: w)

theorem spelled_of_wellEscaped {w : CStr} (hw : wellEscaped w = true) : Spelled w := by
  fun_induction wellEscaped w with
  | case1 => exact .nil
  | case2 c => exact .plain (by simpa using hw) .nil
  | case3 e s ih =>
    rw [Bool.and_eq_true] at hw
    exact .escape hw.1 (ih hw.2)
  | case4 c e s hc ih => exact .plain hc (ih hw)

/-- No escape stands for the byte. -/
def Unescaped (c : Byte) : Prop := ∀ e stale, isEscape e = true → unescape e stale ≠ c

theorem unescaped_dot : Unescaped dot := by
  intro e stale he
  rw [unescape_of_isEscape he stale nul]
  revert e
  decide +kernel

theorem unescaped_slash : Unescaped slash := by
  intro e stale he
  rw [unescape_of_isEscape he stale nul]
  revert e
  decide +kernel

theorem decodedOver_escape (cells : List Byte) (e : Byte) (w : CStr) :
    decodedOver cells (bslash :: e :: w) =
      unescape e (cells.headD nul) :: decodedOver cells.tail w := by
  simp [decodedOver]

/-- A prefix that no escape stands for is there before the decoding. -/
theorem Spelled.begins {p w : CStr} (hw : Spelled w) (hp : ∀ c ∈ p, Unescaped c)
    {cells : List Byte} (h : p <+: decodedOver cells w) : p <+: w := by
  induction p generalizing w cells with
  | nil => exact List.nil_prefix
  | cons c p ih =>
    cases hw with
    | nil => exact absurd h (by simp [decodedOver])
    | plain hc hw =>
      rw [decodedOver_cons_plain hc] at h
      obtain ⟨rfl, hrest⟩ := List.cons_prefix_cons.mp h
      exact List.cons_prefix_cons.mpr
        ⟨rfl, ih hw (fun c hc => hp c (List.mem_cons_of_mem _ hc)) hrest⟩
    | escape he hw =>
      rw [decodedOver_escape] at h
      exact absurd (List.cons_prefix_cons.mp h).1.symm (hp c List.mem_cons_self _ _ he)

theorem Spelled.infix {p w : CStr} (hw : Spelled w) (hp : ∀ c ∈ p, Unescaped c)
    {cells : List Byte} (h : p <:+: decodedOver cells w) : p <:+: w := by
  induction hw generalizing cells with
  | nil => exact h
  | @plain c w hc hw ih =>
    rw [decodedOver_cons_plain hc, List.infix_cons_iff, ← decodedOver_cons_plain hc] at h
    rcases h with h | h
    · exact ((Spelled.plain hc hw).begins hp h).isInfix
    · exact (ih h).trans (List.suffix_cons c w).isInfix
  | @escape e w he hw ih =>
    rw [decodedOver_escape, List.infix_cons_iff, ← decodedOver_escape] at h
    rcases h with h | h
    · exact ((Spelled.escape he hw).begins hp h).isInfix
    · exact (ih h).trans ((List.suffix_cons e w).trans (List.suffix_cons bslash _)).isInfix

/-- What the loop copies of a string whose escapes it knows. -/
theorem decodeLoop_spelled {w : CStr} (hw : Spelled w) (hnul : NulFree w) {rest : List Byte}
    (hrest : cstr rest = []) {room : Nat} {cells r : List Byte}
    (h : (decodeLoop room (w ++ rest) cells).result = some r) : r = decodedOver cells w := by
  induction hw generalizing room cells r with
  | nil =>
    cases rest with
    | nil => simpa [decodeLoop, decodedOver] using h.symm
    | cons c rest =>
      obtain rfl : c = nul := by
        by_contra hc
        rw [cstr_cons hc] at hrest
        cases hrest
      rw [List.nil_append, decodeLoop_nul] at h
      exact (Option.some.inj h).symm
  | @plain c w hc _ ih =>
    obtain ⟨hn, hnul⟩ := nulFree_cons.mp hnul
    cases room with
    | zero =>
      rw [List.cons_append, decodeLoop_full hn] at h
      cases h
    | succ room =>
      rw [List.cons_append, decodeLoop_plain hn hc, Decoded.push_result] at h
      obtain ⟨r', hr', rfl⟩ := Option.map_eq_some_iff.mp h
      rw [decodedOver_cons_plain hc, ih hnul hr']
  | @escape e w he _ ih =>
    obtain ⟨hn, hnul⟩ := nulFree_cons.mp hnul
    cases room with
    | zero =>
      rw [List.cons_append, decodeLoop_full hn] at h
      cases h
    | succ room =>
      rw [List.cons_append, List.cons_append, decodeLoop_escape, Decoded.push_result] at h
      obtain ⟨r', hr', rfl⟩ := Option.map_eq_some_iff.mp h
      rw [decodedOver_escape, ih (nulFree_cons.mp hnul).2 hr']

/-- What a word decodes to whose escapes are all known. -/
theorem decode_spelled_eq {buf mem : List Byte} {name : CStr}
    (hw : wellEscaped (cstr mem) = true) (h : (decode buf mem).1 = some name) :
    name = cstr (decodedOver buf (cstr mem)) := by
  unfold decode at h
  split_ifs at h
  obtain ⟨r, hr, rfl⟩ := Option.map_eq_some_iff.mp h
  have hsplit : mem = cstr mem ++ mem.dropWhile (· ≠ nul) := List.takeWhile_append_dropWhile.symm
  have hrest : cstr (mem.dropWhile (· ≠ nul)) = [] := by
    have hhead := List.head?_dropWhile_not (fun c : Byte => decide (c ≠ nul)) mem
    cases hdrop : mem.dropWhile (· ≠ nul) with
    | nil => rfl
    | cons c rest =>
      rw [hdrop] at hhead
      have hc : c = nul := by simpa using hhead
      rw [hc, cstr_nul]
  rw [hsplit] at hr
  rw [← decodeLoop_spelled (spelled_of_wellEscaped hw) (nulFree_cstr mem) hrest hr]

/-- A word whose escapes are all known decodes to a part of what it stands for. -/
theorem decode_spelled {buf mem : List Byte} {name : CStr} (hw : wellEscaped (cstr mem) = true)
    (h : (decode buf mem).1 = some name) : name <+: decodedOver buf (cstr mem) := by
  rw [decode_spelled_eq hw h]
  exact List.takeWhile_prefix _

namespace Server

open Interaction

/-- The name leads nowhere above the directory it is put behind. -/
def Contained (name : CStr) : Prop := ¬ lit "../" <+: name ∧ ¬ lit "/../" <:+: name

theorem Spliced.contained {key : Key} {word name : CStr} (h : Spliced key word name)
    (hkey : key ≠ .command) (hw : wellEscaped word = true) : Contained name := by
  obtain ⟨buf, mem, rfl, hdecode⟩ := h.decodes
  have hpart := decode_spelled hw hdecode
  have hspelled := spelled_of_wellEscaped hw
  have hdots : ∀ c ∈ lit "/../", Unescaped c := by
    have hbytes : ∀ c ∈ lit "/../", c = dot ∨ c = slash := by decide +kernel
    intro c hc
    rcases hbytes c hc with rfl | rfl
    · exact unescaped_dot
    · exact unescaped_slash
  -- what the decoded name has is in the word already
  have hbegin : lit "../" <+: name → lit "../" <+: cstr mem := fun h =>
    hspelled.begins (fun c hc => hdots c (List.mem_cons_of_mem _ hc)) (h.trans hpart)
  have hinf : lit "/../" <:+: name → lit "/../" <:+: cstr mem := fun h =>
    hspelled.infix hdots (h.trans hpart.isInfix)
  rcases h.checked hkey with hnone | ⟨-, hstart, hinside⟩
  · have hlast : lit "../" <:+: lit "/../" := (List.suffix_cons slash (lit "../")).isInfix
    exact ⟨fun h => hnone (hbegin h).isInfix, fun h => hnone (hlast.trans (hinf h))⟩
  · exact ⟨fun h => hstart (hbegin h), fun h => hinside (hinf h)⟩

/-! ## Sessions

A property of every call by itself holds in all sessions if the handlers keep to it. -/

/-- What may be called at any time. -/
structure Allows (ok : Call → Prop) : Prop where
  other : ∀ c, c.kind ≠ .splice → ok c
  splice : ∀ key word name, Spliced key word name → ok (.splice key word name)

variable {ok : Call → Prop} {cfg : ServerConfig}

/-- A program that keeps to what may be called, whatever the variables are. -/
abbrev Keeps {α : Type} (ok : Call → Prop) (x : Serve α) : Prop :=
  Quiet (fun _ => ok) (fun _ _ => True) x

theorem Allows.permits (hok : Allows ok) : Permits (fun _ => ok) fun _ _ => True where
  snoc _ _ _ _ := trivial
  own _ _ _ _ _ _ _ := trivial
  talk _ _ c _ hc := hok.other c (by rw [hc]; decide)
  data _ _ c _ hc := hok.other c (by rw [hc]; decide)
  splice _ _ key word name _ h := hok.splice key word name h

theorem keeps_modify (f : Session → Session) : Keeps ok (modify f) := meets_modify fun _ _ _ => trivial

variable (hok : Allows ok)
include hok

theorem keeps_call {c : Call} (hc : c.kind ≠ .splice) : Keeps ok (call c) :=
  meets_perform (fun _ _ _ => hok.other c hc) fun _ _ _ _ => trivial

theorem keeps_reply (code : Nat) (text : CStr) : Keeps ok (reply code text) :=
  quiet_reply hok.permits.toTalks code text

theorem keeps_exit {α : Type} (status : Nat) : Keeps ok (exit status : Serve α) :=
  quiet_exit hok.permits.toTalks status

theorem keeps_lookupConfig : Keeps ok (lookupConfig cfg) :=
  (keeps_call hok (c := .config) (by decide)).bind fun _ => quiet_get.bind fun _ =>
    Quiet.bind (keeps_modify _) fun _ => quiet_pure _

theorem keeps_lookupKfile : Keeps ok lookupKfile := by
  refine (keeps_call hok (c := .kfiles) (by decide)).bind fun files => quiet_get.bind fun s => ?_
  split
  · exact (keeps_reply hok _ _).bind fun _ => keeps_exit hok _
  · exact keeps_modify _

theorem keeps_checkPeer : Keeps ok (checkPeer cfg) := by
  refine Meets.ite (fun _ => ?_) fun _ => quiet_pure _
  refine (keeps_call hok (c := .peer) (by decide)).bind fun peer => ?_
  cases peer with
  | none => exact quiet_pure _
  | some cn => exact Quiet.bind (keeps_modify _) fun _ => quiet_pure _

theorem keeps_fStarttls (av : List (List Byte)) : Keeps ok (fStarttls cfg av) := by
  refine Meets.ite (fun _ => ?_) fun _ => ?_
  · exact (keeps_reply hok _ _).bind fun _ => quiet_pure _
  refine (keeps_reply hok _ _).bind fun _ => ?_
  refine (keeps_call hok (c := .starttls) (by decide)).bind fun started => ?_
  refine Meets.ite (fun _ => ?_) fun _ => ?_
  · exact (keeps_reply hok _ _).bind fun _ => quiet_pure _
  refine (keeps_checkPeer hok).bind fun peer => Meets.ite (fun _ => quiet_pure _) fun _ => ?_
  refine (keeps_lookupConfig hok).bind fun found => Meets.ite (fun _ => ?_) fun _ => ?_
  · exact Quiet.bind (keeps_modify _) fun _ => (keeps_lookupKfile hok).bind fun _ => quiet_pure _
  · exact Quiet.bind (keeps_modify _) fun _ => quiet_pure _

theorem keeps_pamCalls (calls : List PamCall) : Keeps ok (pamCalls calls) := by
  induction calls with
  | nil => exact quiet_pure _
  | cons c calls ih =>
    refine (keeps_call hok (c := .pam c) (by simp [Call.kind])).bind fun passed => ?_
    exact Meets.ite (fun _ => ih) fun _ => quiet_pure _

theorem keeps_fLogin (av : List (List Byte)) : Keeps ok (fLogin cfg av) := by
  have ht := hok.permits.toTalks
  refine Meets.ite (fun _ => ?_) fun _ => Meets.ite (fun _ => ?_) fun _ => ?_
  · exact (keeps_reply hok _ _).bind fun _ => quiet_pure _
  · exact (keeps_reply hok _ _).bind fun _ => quiet_pure _
  refine (quiet_arg ht av 1).bind fun user => (quiet_arg ht av 2).bind fun password => ?_
  refine (keeps_pamCalls hok _).bind fun passed => Meets.ite (fun _ => ?_) fun _ => ?_
  · refine (keeps_reply hok _ _).bind fun _ => Quiet.bind (keeps_modify _) fun _ => quiet_pure _
  · exact (keeps_reply hok _ _).bind fun _ => quiet_pure _

theorem keeps_handler (h : Handler) (av : List (List Byte)) : Keeps ok (h.run cfg av) := by
  have hp := hok.permits
  have hsay : ∀ code text, Keeps ok (do reply code text; return (0 : Int)) :=
    fun code text => (keeps_reply hok code text).bind fun _ => quiet_pure _
  have hleave : ∀ code text status, Keeps ok (do reply code text; exit status : Serve Int) :=
    fun code text status => (keeps_reply hok code text).bind fun _ => keeps_exit hok status
  cases h with
  | quit => exact hleave _ _ _
  | noop => exact hsay _ _
  | help => exact hsay _ _
  | noauth => exact hleave _ _ _
  | notls => exact hleave _ _ _
  | starttls => exact keeps_fStarttls hok av
  | login => exact keeps_fLogin hok av
  | stat => exact quiet_fStat hp av
  | retr => exact quiet_fRetr hp av
  | stor => exact quiet_fStor hp (fun _ _ c _ hc => hok.other c (by rw [hc]; decide)) av
  | repo => exact quiet_fRepo hp av
  | compress => exact quiet_fCompress hp av

theorem keeps_request (line : List Byte) : Keeps ok (request cfg line) := by
  unfold request
  cases (acavParse line).2 with
  | nil => exact (keeps_reply hok _ _).bind fun _ => quiet_pure _
  | cons word av =>
    refine quiet_get.bind fun s => ?_
    split
    · exact (keeps_reply hok _ _).bind fun _ => quiet_pure _
    · next h _ =>
      refine (keeps_call hok (c := .enter h) (by simp [Call.kind])).bind fun _ => ?_
      exact keeps_handler hok h _

theorem keeps_requests (rounds : Nat) : Keeps ok (requests cfg rounds) := by
  induction rounds with
  | zero => exact quiet_pure _
  | succ rounds ih =>
    refine (keeps_call hok (c := .getline) (by decide)).bind fun line => ?_
    cases line with
    | none => exact keeps_reply hok _ _
    | some line =>
      refine (keeps_request hok line).bind fun rc => Meets.ite (fun _ => ?_) fun _ => ih
      exact keeps_reply hok _ _

theorem keeps_greet : Keeps ok (greet cfg) := by
  refine (keeps_call hok (c := .gethostname) (by decide)).bind fun hostname => ?_
  cases hostname with
  | none => exact keeps_exit hok _
  | some hostname =>
    refine (keeps_reply hok _ _).bind fun _ => Meets.ite (fun _ => ?_) fun _ => quiet_pure _
    exact keeps_reply hok _ _

theorem keeps_lookupAtStart : Keeps ok (lookupAtStart cfg) := by
  refine Meets.ite (fun _ => ?_) fun _ => quiet_pure _
  refine (keeps_lookupConfig hok).bind fun found => Meets.ite (fun _ => ?_) fun _ => ?_
  · exact (keeps_lookupKfile hok).bind fun _ => keeps_modify _
  · exact (keeps_reply hok _ _).bind fun _ => keeps_exit hok _

theorem keeps_cmdloop (rounds : Nat) : Keeps ok (cmdloop cfg rounds) := by
  refine Quiet.bind (keeps_modify _) fun _ => Meets.ite (fun _ => ?_) fun _ => ?_
  · exact (keeps_reply hok _ _).bind fun _ => keeps_exit hok _
  · exact (keeps_lookupAtStart hok).bind fun _ => (keeps_greet hok).bind fun _ =>
      keeps_requests hok rounds

/-- Every call of a session is one that may be made. -/
theorem Allows.serve {rounds : Nat} {trace : Trace} {r : Option (Unit × Session)}
    (hrun : Runs (serve cfg rounds) trace r) : ∀ e ∈ trace, ok e.call := by
  intro e he
  obtain ⟨before, after, rfl⟩ := List.append_of_mem he
  exact ((keeps_cmdloop hok rounds .start [] trivial).run hrun).1 before e after rfl

omit hok

/-! ## Containment -/

/-- The word of a request, and what it decoded to, where a call puts it into a path and it
is no name of a command file. -/
def Call.spliced : Call → Option (CStr × CStr)
  | .splice .command _ _ => none
  | .splice _ word name => some (word, name)
  | _ => none

def splices (trace : Trace) : List (CStr × CStr) := trace.filterMap fun e => e.call.spliced

/-- `decode` knows all escapes of the words a trace puts into paths. -/
def KnownEscapes (trace : Trace) : Prop := ∀ x ∈ splices trace, wellEscaped x.1 = true

/-- What a trace puts into paths leads nowhere above. -/
def PathsContained (trace : Trace) : Prop := ∀ x ∈ splices trace, Contained x.2

instance (name : CStr) : Decidable (Contained name) := inferInstanceAs (Decidable (_ ∧ _))

instance (trace : Trace) : Decidable (KnownEscapes trace) :=
  inferInstanceAs (Decidable (∀ x ∈ splices trace, wellEscaped x.1 = true))

instance (trace : Trace) : Decidable (PathsContained trace) :=
  inferInstanceAs (Decidable (∀ x ∈ splices trace, Contained x.2))

/-- The handlers put into a path what they decoded from a word that `keyword` let pass. -/
theorem allows_spliced : Allows fun c => ∀ key word name, c = .splice key word name →
    Spliced key word name where
  other c hc key word name heq := by
    rw [heq] at hc
    exact absurd rfl hc
  splice key word name h key' word' name' heq := by
    cases heq
    exact h

/-- Whatever the requests of a session are, what they put into a path leads nowhere above
while there are no escapes that `decode` does not know. -/
theorem paths_contained (cfg : ServerConfig) (rounds : Nat) (trace : Trace)
    (r : Option (Unit × Session)) (hrun : Runs (serve cfg rounds) trace r)
    (hknown : KnownEscapes trace) : PathsContained trace := by
  intro x hx
  have hword := hknown x hx
  obtain ⟨e, he, hspliced⟩ := List.mem_filterMap.mp hx
  have hcall := allows_spliced.serve hrun e he
  unfold Call.spliced at hspliced
  split at hspliced
  · cases hspliced
  · next key word name hkey heq =>
    cases hspliced
    exact (hcall key word name heq).contained (fun h => hkey (h ▸ rfl)) hword
  · cases hspliced

/-- A server that lets everybody in. -/
def openConfig : ServerConfig :=
  { authlevel := 0, checkuser := false, havePam := false, haveZlib := false, maxZlibLevel := 0
    rapExtensions := true, connections := 1, maxconnections := 0, version := lit "1"
    remoteHost := lit "h", remoteAddr := lit "1", wildcard := fun pattern name _ => pattern = name }

/-- The trace of a client of that server with these requests. -/
def openTrace (lines : List CStr) : Trace :=
  (serve openConfig (lines.length + 1)).trace (obliging lines
    (fun path => if path = lit "config" then some [lit "h k"] else none)
    [(lit "command/k", lit "p t" ++ [newline])]) []

theorem runs_openTrace (lines : List CStr) :
    ∃ r, Runs (serve openConfig (lines.length + 1)) (openTrace lines) r := Prog.runs_trace _ _ _

/-- A file whose name has a blank and dots, behind a report of a path. -/
def plainLines : List CStr := [lit "REPO e ../../etc", lit "RETR SPECIAL a\\bb..c/d"]

theorem paths_contained_plain : splices (openTrace plainLines) ≠ [] ∧
    PathsContained (openTrace plainLines) := by
  obtain ⟨r, hr⟩ := runs_openTrace plainLines
  refine ⟨by decide +kernel, paths_contained openConfig _ (openTrace plainLines) r hr ?_⟩
  decide +kernel

/-- A report leaves in the buffer what the unknown escapes of the next request show. -/
def staleLines : List CStr := [lit "REPO e ../../etc", lit "RETR SPECIAL \\q\\q\\qetc"]

theorem not_paths_contained : ¬ ∀ (cfg : ServerConfig) (rounds : Nat) (trace : Trace)
    (r : Option (Unit × Session)), Runs (serve cfg rounds) trace r → PathsContained trace := by
  intro h
  obtain ⟨r, hr⟩ := runs_openTrace staleLines
  have hcontained := h openConfig _ (openTrace staleLines) r hr
  revert hcontained
  decide +kernel

end Server
end Radmind
