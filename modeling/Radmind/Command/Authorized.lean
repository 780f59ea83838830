import Radmind.Command.Quiet

/-!
# No data command before authorization

The table of the data commands is in force only behind a lookup that found the client, and
that only behind TLS where it is asked for.
-/

namespace Radmind
namespace Server

open Interaction MarkedSearch

variable (cfg : ServerConfig)

/-- The lookup of the client, with what the config file and the command files hold.  The
common name and the variables are what they were at the time. -/
structure Granting where
  files : ConfigFiles
  kfiles : Kfiles
  cn : Option CStr
  lookup : Lookup
  access : Access

def Granting.result (g : Granting) : Bool × Lookup :=
  commandK g.files (cfg.client g.cn) (lit "config") 0 g.lookup

/-- The client was found in the config file, and its command file was read. -/
structure Granting.Ok (g : Granting) : Prop where
  found : (g.result cfg).1 = true
  read : ∃ access, g.kfiles.read (g.result cfg).2.commandFile g.access = .ok access

/-- TLS was started, with a certificate where one is asked for. -/
def Secured (trace : Trace) : Prop :=
  0 < cfg.authlevel → ∃ before after, trace = before ++ ⟨.starttls, true⟩ :: after ∧
    (2 ≤ cfg.authlevel → ∃ cn, ⟨.peer, some cn⟩ ∈ after)

/-- The client was granted access, behind TLS where it is asked for. -/
def Admitted (trace : Trace) : Prop :=
  ∃ (g : Granting) (before after : Trace),
    trace = before ++ [⟨.config, g.files⟩, ⟨.kfiles, g.kfiles⟩] ++ after ∧
      Secured cfg before ∧ g.Ok cfg

/-- The PAM calls of a login, one after the other, all successful. -/
def LoggedIn (trace : Trace) : Prop :=
  ∃ user password before after, trace = before ++
    [⟨.pam (.start user password), true⟩, ⟨.pam .authenticate, true⟩, ⟨.pam .acctMgmt, true⟩,
      ⟨.pam .finish, true⟩] ++ after

/-- The handlers of the data commands. -/
def Handler.isData : Handler → Bool
  | .stat | .retr | .stor | .repo => true
  | _ => false

/-- The call is a part of a data command. -/
def Call.isData (c : Call) : Bool :=
  match c with
  | .enter h => h.isData
  | _ => c.kind = .data || c.kind = .store || c.kind = .splice

/-- What may be called behind a trace. -/
def Authorized (trace : Trace) (c : Call) : Prop :=
  (c.isData = true → Admitted cfg trace) ∧
    (c.kind = .store → cfg.checkuser = true → LoggedIn trace)

/-- What the variables of a session say of its trace. -/
structure Entitled (s : Session) (h : Trace) : Prop where
  table : s.table = .auth → Admitted cfg h
  login : s.authorized = true → LoggedIn h

variable {cfg}

theorem Secured.append {h : Trace} (hs : Secured cfg h) (new : Trace) : Secured cfg (h ++ new) := by
  intro hlevel
  obtain ⟨before, after, rfl, hpeer⟩ := hs hlevel
  refine ⟨before, after ++ new, by simp, fun htwo => ?_⟩
  obtain ⟨cn, hcn⟩ := hpeer htwo
  exact ⟨cn, List.mem_append_left _ hcn⟩

theorem Admitted.append {h : Trace} (ha : Admitted cfg h) (new : Trace) :
    Admitted cfg (h ++ new) := by
  obtain ⟨g, before, after, rfl, hs, hok⟩ := ha
  exact ⟨g, before, after ++ new, by simp, hs, hok⟩

theorem LoggedIn.append {h : Trace} (hl : LoggedIn h) (new : Trace) : LoggedIn (h ++ new) := by
  obtain ⟨user, password, before, after, rfl⟩ := hl
  exact ⟨user, password, before, after ++ new, by simp⟩

theorem Entitled.append {s : Session} {h : Trace} (he : Entitled cfg s h) (new : Trace) :
    Entitled cfg s (h ++ new) :=
  ⟨fun hs => (he.table hs).append new, fun hs => (he.login hs).append new⟩

theorem talks_entitled : Talks (Authorized cfg) (Entitled cfg) where
  snoc s h e hs := hs.append [e]
  own s h buf uploadXscript prevstor compressed hs := ⟨hs.table, hs.login⟩
  talk s h c _ hc := by
    refine ⟨fun hdata => ?_, fun hstore => ?_⟩
    · cases c with
      | enter h => cases hc
      | _ => simp [Call.isData, hc] at hdata
    · rw [hc] at hstore
      cases hstore

/-- In a handler of a data command. -/
def Inside (cfg : ServerConfig) (s : Session) (h : Trace) : Prop :=
  Entitled cfg s h ∧ Admitted cfg h

theorem permits_inside : Permits (Authorized cfg) (Inside cfg) where
  snoc s h e hs := ⟨hs.1.append [e], hs.2.append [e]⟩
  own s h buf uploadXscript prevstor compressed hs := ⟨⟨hs.1.table, hs.1.login⟩, hs.2⟩
  talk s h c hs hc := talks_entitled.talk s h c hs.1 hc
  data s h c hs hc := ⟨fun _ => hs.2, fun hstore => by rw [hc] at hstore; cases hstore⟩
  splice s h key word name hs _ := ⟨fun _ => hs.2, fun hstore => by cases hstore⟩

theorem store_inside (s : Session) (h : Trace) (c : Call) (hs : LoggedOn cfg (Inside cfg) s h)
    (_ : c.kind = .store) : Authorized cfg h c :=
  ⟨fun _ => hs.1.2, fun _ hcheck => hs.1.1.login (hs.2 hcheck)⟩

/-! ## The lookups -/

theorem authorized_talk {h : Trace} {c : Call} (hc : c.kind = .talk) : Authorized cfg h c := by
  have hentitled : Entitled cfg .start h := ⟨nofun, nofun⟩
  exact talks_entitled.talk .start h c hentitled hc

/-- Behind TLS. -/
def Secure (cfg : ServerConfig) (s : Session) (h : Trace) : Prop :=
  Entitled cfg s h ∧ Secured cfg h

/-- The client was found just before. -/
def FoundNow (cfg : ServerConfig) (s : Session) (h : Trace) : Prop :=
  (s.authorized = true → LoggedIn h) ∧
    ∃ before files cn lookup, h = before ++ [⟨.config, files⟩] ∧ Secured cfg before ∧
      commandK files (cfg.client cn) (lit "config") 0 lookup = (true, s.lookup)

/-- The client was granted access, whatever table is in force. -/
def Granted (cfg : ServerConfig) (s : Session) (h : Trace) : Prop :=
  (s.authorized = true → LoggedIn h) ∧ Admitted cfg h

theorem meets_lookupConfig : Meets (Authorized cfg) (Secure cfg) (lookupConfig cfg)
    fun found s h => if found then FoundNow cfg s h else Entitled cfg s h := by
  intro s h ⟨hentitled, hsecured⟩
  refine ⟨authorized_talk rfl, fun files => ?_⟩
  show if (commandK files (cfg.client s.remoteCn) (lit "config") 0 s.lookup).1 then _ else _
  split_ifs with hfound
  · refine ⟨fun hs => (hentitled.login hs).append _, h, files, s.remoteCn, s.lookup, rfl, hsecured,
      ?_⟩
    exact Prod.ext hfound rfl
  · exact ⟨fun hs => (hentitled.table hs).append _, fun hs => (hentitled.login hs).append _⟩

theorem meets_lookupKfile :
    Meets (Authorized cfg) (FoundNow cfg) lookupKfile fun _ => Granted cfg := by
  intro s h ⟨hlogin, before, files, cn, lookup, hh, hsecured, hfound⟩
  rw [lookupKfile_eq]
  refine ⟨authorized_talk rfl, fun kfiles => ?_⟩
  dsimp only
  cases hread : kfiles.read s.lookup.commandFile s.access with
  | error e => exact ⟨authorized_talk rfl, fun _ => ⟨authorized_talk rfl, fun e => e.elim⟩⟩
  | ok access =>
    refine ⟨fun hs => (hlogin hs).append _, ⟨files, kfiles, cn, lookup, s.access⟩, before, [], ?_,
      hsecured, ?_, access, ?_⟩
    · rw [hh]
      simp
    · rw [Granting.result, hfound]
    · rw [Granting.result, hfound]
      exact hread

theorem meets_setTable (table : Table) :
    Meets (Authorized cfg) (Granted cfg) (setTable table) fun _ => Entitled cfg :=
  meets_modify fun _ _ hs => ⟨fun _ => hs.2, hs.1⟩

theorem meets_checkPeer {s : Session} {h : Trace} (hs : Entitled cfg s h) :
    Safe (Authorized cfg) (fun r history => (r.1 = true → Secure cfg r.2 history) ∧
      Entitled cfg r.2 history) (checkPeer cfg s) (h ++ [⟨.starttls, true⟩]) := by
  have hentitled := hs.append [⟨.starttls, true⟩]
  unfold checkPeer
  split_ifs with htwo
  · refine ⟨authorized_talk rfl, fun peer => ?_⟩
    cases peer with
    | none => exact ⟨nofun, hentitled.append _⟩
    | some cn =>
      have hentitled' := hentitled.append [⟨.peer, some cn⟩]
      refine ⟨fun _ => ⟨⟨hentitled'.table, hentitled'.login⟩, fun _ => ?_⟩, hentitled'.table,
        hentitled'.login⟩
      exact ⟨h, [⟨.peer, some cn⟩], by simp, fun _ => ⟨cn, by simp⟩⟩
  · exact ⟨fun _ => ⟨hentitled, fun _ => ⟨h, [], rfl, fun h => absurd h htwo⟩⟩, hentitled⟩

theorem quiet_fStarttls (av : List (List Byte)) :
    Quiet (Authorized cfg) (Entitled cfg) (fStarttls cfg av) := by
  have ht : Talks (Authorized cfg) (Entitled cfg) := talks_entitled
  refine Meets.ite (fun _ => ?_) fun _ => ?_
  · exact (quiet_reply ht _ _).bind fun _ => quiet_pure _
  refine (quiet_reply ht _ _).bind fun _ => ?_
  intro s h hs
  refine ⟨authorized_talk rfl, fun started => ?_⟩
  cases started with
  | false =>
    exact ((quiet_reply ht _ _).bind fun _ => quiet_pure _) s _ (hs.append _)
  | true =>
    refine (meets_checkPeer hs).bind fun r history hr => ?_
    obtain ⟨peer, s'⟩ := r
    cases peer with
    | false => exact hr.2
    | true =>
      refine ((meets_lookupConfig s' history (hr.1 rfl)).bind fun r history hr => ?_)
      obtain ⟨found, s''⟩ := r
      cases found with
      | false => exact ⟨nofun, hr.login⟩
      | true =>
        have hauth : FoundNow cfg { s'' with table := .auth } history := hr
        refine (meets_lookupKfile _ _ hauth).bind fun r history hr => ?_
        exact ⟨fun _ => hr.2, hr.1⟩

theorem quiet_lookupClient {s : Session} {h : Trace} (hs : Entitled cfg s h)
    (hlevel : cfg.authlevel = 0) :
    Safe (Authorized cfg) (fun r history => Entitled cfg r.2 history) (lookupClient cfg s) h := by
  have hsecured : Secured cfg h := fun hpos => absurd hpos (by omega)
  refine (meets_lookupConfig s h ⟨hs, hsecured⟩).bind fun r history hr => ?_
  obtain ⟨found, s'⟩ := r
  cases found with
  | false => exact ⟨authorized_talk rfl, fun _ => ⟨authorized_talk rfl, fun e => e.elim⟩⟩
  | true =>
    refine (meets_lookupKfile _ _ hr).bind fun r history hr => ?_
    exact ⟨fun _ => hr.2, hr.1⟩

/-! ## Logins -/

/-- The PAM calls that were made last, all of them successful. -/
theorem meets_pamCalls {s : Session} {calls : List PamCall} {h : Trace} (hs : Entitled cfg s h) :
    Safe (Authorized cfg) (fun r history => Entitled cfg s history ∧ r.2 = s ∧
      (r.1 = true → history = h ++ calls.map fun c => ⟨.pam c, true⟩)) (pamCalls calls s) h := by
  induction calls generalizing h with
  | nil => exact ⟨hs, rfl, fun _ => (List.append_nil h).symm⟩
  | cons c calls ih =>
    refine ⟨authorized_talk rfl, fun answer => ?_⟩
    cases answer with
    | false => exact ⟨hs.append _, rfl, nofun⟩
    | true =>
      refine (ih (hs.append [⟨.pam c, true⟩])).mono fun r history hr => ⟨hr.1, hr.2.1, fun h => ?_⟩
      rw [hr.2.2 h, List.append_assoc]
      rfl

theorem quiet_fLogin (av : List (List Byte)) :
    Quiet (Authorized cfg) (Entitled cfg) (fLogin cfg av) := by
  have ht : Talks (Authorized cfg) (Entitled cfg) := talks_entitled
  refine Meets.ite (fun _ => ?_) fun _ => Meets.ite (fun _ => ?_) fun _ => ?_
  · exact (quiet_reply ht _ _).bind fun _ => quiet_pure _
  · exact (quiet_reply ht _ _).bind fun _ => quiet_pure _
  refine (quiet_arg ht av 1).bind fun user => (quiet_arg ht av 2).bind fun password => ?_
  intro s h hs
  refine (meets_pamCalls hs).bind fun r history hr => ?_
  obtain ⟨passed, s'⟩ := r
  obtain ⟨hentitled, hs', hpam⟩ := hr
  obtain rfl : s' = s := hs'
  cases passed with
  | false => exact ((quiet_reply ht _ _).bind fun _ => quiet_pure _) s' history hentitled
  | true =>
    have hlogin : LoggedIn history := by
      refine ⟨cstr user, cstr password, h, [], ?_⟩
      rw [hpam rfl, List.append_nil]
      rfl
    refine ⟨authorized_talk rfl, fun _ => ?_⟩
    exact ⟨fun htable => (hentitled.table htable).append _, fun _ => hlogin.append _⟩

/-! ## The session -/

theorem quiet_handler (h : Handler) (av : List (List Byte)) {s : Session} {trace : Trace}
    (hs : Entitled cfg s trace) (hdata : s.table = .auth ∨ h ∈
      [.quit, .noop, .help, .noauth, .notls, .starttls]) :
    Safe (Authorized cfg) (fun r history => Entitled cfg r.2 history) (h.run cfg av s) trace := by
  have ht : Talks (Authorized cfg) (Entitled cfg) := talks_entitled
  -- a handler of a data command runs inside
  have hinside : ∀ {x : Serve Int}, (s.table = .auth ∨ h ∈
      [.quit, .noop, .help, .noauth, .notls, .starttls]) → h ∉
      [.quit, .noop, .help, .noauth, .notls, .starttls] → Quiet (Authorized cfg) (Inside cfg) x →
      Safe (Authorized cfg) (fun r history => Entitled cfg r.2 history) (x s) trace := by
    intro x hor hnot hx
    have hauth := hor.resolve_right hnot
    exact (hx s trace ⟨hs, hs.table hauth⟩).mono fun r history hr => hr.1
  cases h with
  | quit => exact ((quiet_reply ht _ _).bind fun _ => quiet_exit ht _) s trace hs
  | noop => exact ((quiet_reply ht _ _).bind fun _ => quiet_pure _) s trace hs
  | help => exact ((quiet_reply ht _ _).bind fun _ => quiet_pure _) s trace hs
  | noauth => exact ((quiet_reply ht _ _).bind fun _ => quiet_exit ht _) s trace hs
  | notls => exact ((quiet_reply ht _ _).bind fun _ => quiet_exit ht _) s trace hs
  | starttls => exact quiet_fStarttls av s trace hs
  | login => exact quiet_fLogin av s trace hs
  | stat => exact hinside hdata (by simp) (quiet_fStat permits_inside av)
  | retr => exact hinside hdata (by simp) (quiet_fRetr permits_inside av)
  | stor => exact hinside hdata (by simp) (quiet_fStor permits_inside store_inside av)
  | repo => exact hinside hdata (by simp) (quiet_fRepo permits_inside av)
  | compress => exact hinside hdata (by simp) (quiet_fCompress permits_inside av)

/-- Only the table of authorized clients has the handlers of the data commands. -/
theorem handler_of_table {table : Table} {havePam haveZlib : Bool} {command : CStr × Handler}
    (h : command ∈ table.commands havePam haveZlib) : table = .auth ∨ command.2 ∈
      [.quit, .noop, .help, .noauth, .notls, .starttls] := by
  revert command
  cases table with
  | auth => exact fun _ => .inl rfl
  | notls => cases havePam <;> cases haveZlib <;> decide +kernel
  | noauth => cases havePam <;> cases haveZlib <;> decide +kernel

theorem quiet_request (line : List Byte) :
    Quiet (Authorized cfg) (Entitled cfg) (request cfg line) := by
  have ht : Talks (Authorized cfg) (Entitled cfg) := talks_entitled
  cases hav : (acavParse line).2 with
  | nil =>
    unfold request
    rw [hav]
    exact (quiet_reply ht _ _).bind fun _ => quiet_pure _
  | cons word av =>
    intro s trace hs
    rw [request_cons cfg hav]
    cases hlookup : s.table.lookup cfg (cstr word) with
    | none => exact ((quiet_reply ht _ _).bind fun _ => quiet_pure _) s trace hs
    | some command =>
      obtain ⟨name, h⟩ := command
      have htable := handler_of_table (List.mem_of_find?_eq_some hlookup)
      refine ⟨⟨fun hdata => hs.table (htable.resolve_right fun hother => ?_), nofun⟩, fun _ => ?_⟩
      · have hnone : ∀ h ∈ [Handler.quit, .noop, .help, .noauth, .notls, .starttls],
            h.isData = false := by decide
        rw [Call.isData, hnone h hother] at hdata
        cases hdata
      · exact quiet_handler h (word :: av) (hs.append _) htable

theorem quiet_requests (rounds : Nat) :
    Quiet (Authorized cfg) (Entitled cfg) (requests cfg rounds) := by
  have ht : Talks (Authorized cfg) (Entitled cfg) := talks_entitled
  induction rounds with
  | zero => exact quiet_pure _
  | succ rounds ih =>
    refine (quiet_talk ht (c := .getline) rfl).bind fun line => ?_
    cases line with
    | none => exact quiet_reply ht _ _
    | some line =>
      refine (quiet_request line).bind fun rc => Meets.ite (fun _ => ?_) fun _ => ?_
      · exact quiet_reply ht _ _
      · exact ih

theorem quiet_greet : Quiet (Authorized cfg) (Entitled cfg) (greet cfg) := by
  have ht : Talks (Authorized cfg) (Entitled cfg) := talks_entitled
  refine (quiet_talk ht (c := .gethostname) rfl).bind fun hostname => ?_
  cases hostname with
  | none => exact quiet_exit ht _
  | some hostname =>
    refine (quiet_reply ht _ _).bind fun _ => Meets.ite (fun _ => ?_) fun _ => quiet_pure _
    exact quiet_reply ht _ _

theorem safe_serve (rounds : Nat) :
    Safe (Authorized cfg) (fun r history => Entitled cfg r.2 history) (serve cfg rounds) [] := by
  have ht : Talks (Authorized cfg) (Entitled cfg) := talks_entitled
  -- the table at the start is not that of the data commands
  have hstart : Meets (Authorized cfg) (fun s h => s = .start ∧ h = [])
      (setTable (if cfg.authlevel = 0 then .noauth else .notls)) fun _ => Entitled cfg := by
    refine meets_modify fun s h hs => ?_
    obtain ⟨rfl, rfl⟩ := hs
    refine ⟨fun htable => ?_, nofun⟩
    dsimp only at htable
    split_ifs at htable
  have hclient : Quiet (Authorized cfg) (Entitled cfg) (lookupAtStart cfg) :=
    Meets.ite (fun hlevel s h hs => quiet_lookupClient hs hlevel) fun _ => quiet_pure _
  have hrest : Quiet (Authorized cfg) (Entitled cfg) (if
      cfg.maxconnections ≠ 0 && cfg.connections > cfg.maxconnections then do
        reply 420 (lit "Server busy")
        exit 1
      else do
        lookupAtStart cfg
        greet cfg
        requests cfg rounds) := by
    refine Meets.ite (fun _ => ?_) fun _ => ?_
    · exact (quiet_reply ht _ _).bind fun _ => quiet_exit ht _
    · exact hclient.bind fun _ => quiet_greet.bind fun _ => quiet_requests rounds
  exact Meets.bind hstart (fun _ => hrest) .start [] ⟨rfl, rfl⟩

/-! ## Command words -/

/-- All commands, with their own handlers. -/
def commandNames : List (CStr × Handler) :=
  [(lit "QUIT", .quit), (lit "NOOP", .noop), (lit "HELP", .help), (lit "STATus", .stat),
    (lit "RETRieve", .retr), (lit "STORe", .stor), (lit "STARttls", .starttls),
    (lit "REPOrt", .repo), (lit "LOGIn", .login), (lit "COMPress", .compress)]

/-- The first four letters of the command words are different. -/
theorem commandNames_apart : ∀ a ∈ commandNames, ∀ b ∈ commandNames,
    (a.1.take 4).map tolower = (b.1.take 4).map tolower → a = b := by decide +kernel

theorem abbreviates_take {word name : CStr} (h : abbreviates word name = true) :
    (word.take 4).map tolower = (name.take 4).map tolower := by
  have heq : word.map tolower = (name.take (max word.length 4)).map tolower := by
    simpa [abbreviates, strcaseeq] using h
  rw [List.map_take, heq, ← List.map_take, List.take_take, min_eq_left (le_max_right _ _)]

/-- An entry of a table is a command with its own handler, or with one that refuses it. -/
theorem table_commands {table : Table} {havePam haveZlib : Bool} {command : CStr × Handler}
    (h : command ∈ table.commands havePam haveZlib) : ∃ own ∈ commandNames, command.1 = own.1 ∧
      (command.2 = own.2 ∨ command.2 = .noauth ∨ command.2 = .notls) := by
  revert command
  cases table <;> cases havePam <;> cases haveZlib <;> decide +kernel

/-- A word that is found in a table abbreviates one command only, and is led to its handler
or refused. -/
theorem lookup_word {table : Table} {word name : CStr} {h : Handler}
    (hlookup : table.lookup cfg word = some (name, h)) {name' : CStr} {own : Handler}
    (hown : (name', own) ∈ commandNames) (hword : abbreviates word name' = true) :
    name' = name ∧ (h = own ∨ h = .noauth ∨ h = .notls) := by
  obtain ⟨command, hcommand, hname, hhandler⟩ := table_commands (List.mem_of_find?_eq_some hlookup)
  have hfound : abbreviates word name = true :=
    List.find?_some (p := fun command : CStr × Handler => abbreviates word command.1) hlookup
  have heq : (name', own) = command := by
    refine commandNames_apart _ hown _ hcommand ?_
    rw [← hname, ← abbreviates_take hword, ← abbreviates_take hfound]
  rw [← heq] at hname hhandler
  exact ⟨hname.symm, hhandler⟩

/-- A server that asks for certificates and logins. -/
def strictConfig : ServerConfig :=
  { authlevel := 2, checkuser := true, havePam := true, haveZlib := false, maxZlibLevel := 0
    rapExtensions := false, connections := 1, maxconnections := 0, version := lit "1"
    remoteHost := lit "h", remoteAddr := lit "1", wildcard := fun pattern name _ => pattern = name }

/-- A client that is let in, and stores a transcript. -/
def strictTrace : Trace :=
  (serve strictConfig 4).trace (obliging [lit "starttls", lit "login u p", lit "STOR transcript t"]
    (fun path => if path = lit "config" then some [lit "c k"] else none)
    [(lit "command/k", lit "p t" ++ [newline])]) []

end Server
end Radmind
