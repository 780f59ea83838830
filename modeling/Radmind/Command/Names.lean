import Radmind.Command.Contained

/-!
# The names that a client asks for

`ktcheck` sends a name as it stands on the line of a command file.  `read_kfile` puts it
on the access list the same way, but the handlers decode it before they look it up.
-/

namespace Radmind

theorem decode_of_plain {s : CStr} (hs : NulFree s) (hplain : ∀ c ∈ s, c ≠ bslash)
    (hlen : s.length ≤ maxPathLen) (buf rest : List Byte) :
    (decode buf (s ++ nul :: rest)).1 = some s := by
  have hunits := units_of_plain hplain
  unfold decode strlen
  rw [cstr_append_nul hs, if_neg (by omega),
    decodeLoop_fits hs (not_dangling_of_plain hplain) (by omega)]
  simp [decodedOver_of_plain hplain, cstr_of_nulFree hs]

namespace Server

open Interaction MarkedSearch

/-- `pathdesc` of `check` in ktcheck. -/
def pathdesc (type name : CStr) : CStr := type ++ space :: name

/-- What `ktcheck` checks for the name of a line. -/
def checkType (m : Mark CStr) : CStr := if m.descends then lit "COMMAND" else lit "TRANSCRIPT"

/-- The words of the request for a line, in the memory that ends with `rest`. -/
def requestWords (verb : CStr) (m : Mark CStr) (rest : List Byte) : List (List Byte) :=
  (acavParse (verb ++ space :: pathdesc (checkType m) m.name ++ nul :: rest)).2

/-- The checks of a request were passed: the first thing called puts a word into the path. -/
def Passes {α : Type} (x : Prog Answer α) : Prop :=
  ∃ key word name next, x = .call (.splice key word name) next

theorem requestWords_eq {verb : CStr} (hverb : Encoded verb) (hne : verb ≠ []) {m : Mark CStr}
    (hname : Solid [] m.name) (hnne : m.name ≠ []) (rest : List Byte) :
    ∃ v t, requestWords verb m rest = [v, t, m.name ++ nul :: rest] ∧ cstr v = verb ∧
      cstr t = checkType m := by
  have htype : Encoded (checkType m) ∧ checkType m ≠ [] := by
    unfold checkType
    split
    · exact ⟨encoded_of_flatMap (by decide +kernel) (by decide +kernel), by decide⟩
    · exact ⟨encoded_of_flatMap (by decide +kernel) (by decide +kernel), by decide⟩
  obtain ⟨prev, hprev, hloop⟩ := @acavLoop_word verb hverb hne space (.inl rfl) []
    (by simp) [] rfl (pathdesc (checkType m) m.name ++ nul :: rest)
  obtain ⟨prev', hprev', hloop'⟩ := @acavLoop_word _ htype.1 htype.2 space (.inl rfl) []
    (by simp) _ hprev (m.name ++ nul :: rest)
  have hsolid : Solid prev' m.name := hname.of_slashes (by rw [hprev']; rfl)
  have hlast := acavLoop_end hsolid hnne rest
  have hline : verb ++ space :: pathdesc (checkType m) m.name ++ nul :: rest =
      verb ++ space :: ([] ++ (pathdesc (checkType m) m.name ++ nul :: rest)) := by simp
  have hdesc : pathdesc (checkType m) m.name ++ nul :: rest =
      checkType m ++ space :: ([] ++ (m.name ++ nul :: rest)) := by simp [pathdesc]
  have hwords : requestWords verb m rest = (acavLoop [] false
      (verb ++ space :: pathdesc (checkType m) m.name ++ nul :: rest)).2 := rfl
  rw [hline] at hwords
  rw [hloop, hdesc, hloop', hlast] at hwords
  exact ⟨_, _, hwords, cstr_append_nul hverb.nulFree _, cstr_append_nul htype.1.nulFree _⟩

theorem grantedPath_eq (key : Key) (dir : CStr) (mem : List Byte) (s : Session) :
    grantedPath key dir mem s = ((decodeName mem s).bind fun r => (match r.1 with
      | .error rc => return .error rc
      | .ok name => do
        if listCheck (← get).access.list name then return .ok name
        else refuse 540 (lit "No access for " ++ name) : Serve (Except Int CStr)) r.2).bind
      fun r => (match r.1 with
      | .error rc => return .error rc
      | .ok name => do
        splice key mem name
        checkPath (dir ++ slash :: name) : Serve (Except Int CStr)) r.2 := rfl

/-- The two checks of a name on the access list. -/
theorem passes_grantedPath {α : Type} (key : Key) (dir : CStr) (mem : List Byte) (s : Session)
    (f : Except Int CStr × Session → Prog Answer α) :
    Passes ((grantedPath key dir mem s).bind f) ↔
      ∃ name, (decode s.buf mem).1 = some name ∧ listCheck s.access.list name = true := by
  rw [grantedPath_eq, decodeName_eq]
  cases (decode s.buf mem).1 with
  | none =>
    simp only [reduceCtorEq, false_and, exists_false, iff_false]
    rintro ⟨_, _, _, _, h⟩
    cases h
  | some name =>
    show Passes ((Prog.bind ((if listCheck s.access.list name then return .ok name
      else refuse 540 (lit "No access for " ++ name) : Serve (Except Int CStr))
        { s with buf := (decode s.buf mem).2 }) _).bind f) ↔ _
    split_ifs with hlist
    · exact ⟨fun _ => ⟨name, rfl, hlist⟩, fun _ => ⟨_, _, _, _, rfl⟩⟩
    · constructor
      · rintro ⟨_, _, _, _, h⟩
        cases h
      · rintro ⟨name', hname, hlist'⟩
        rw [Option.some.inj hname] at hlist
        exact absurd hlist' hlist

/-- What `keyword` makes of a request for a name. -/
def markKey (m : Mark CStr) : Key := if m.descends then .command else .transcript

/-- The key of the request. -/
theorem keyword_request (cfg : ServerConfig) (commandFile verb : CStr) {m : Mark CStr}
    (hdots : ¬ lit "../" <:+: m.name) (hshort : m.name.length + 15 ≤ maxPathLen) :
    keyword cfg commandFile [verb, checkType m, m.name] = some (markKey m) := by
  have hstrstr : strstr m.name (lit "../") = false :=
    Bool.eq_false_iff.mpr fun h => hdots (strstr_iff.mp h)
  have hcommand : strcaseeq (lit "COMMAND") (lit "COMMAND") = true := by decide +kernel
  have hother : strcaseeq (lit "TRANSCRIPT") (lit "COMMAND") = false ∧
      strcaseeq (lit "TRANSCRIPT") (lit "SPECIAL") = false ∧
      strcaseeq (lit "TRANSCRIPT") (lit "TRANSCRIPT") = true := by decide +kernel
  have hlength : (lit "TRANSCRIPT").length = 10 := by decide +kernel
  unfold keyword checkType markKey
  cases m.descends with
  | true => simp [hcommand]
  | false =>
    have hfits : ¬ 10 + m.name.length + 5 > maxPathLen := by omega
    simp [hother, hlength, hfits, keywordName, hstrstr]

section

variable (cfg : ServerConfig) (av : List (List Byte)) (s : Session)

theorem fStat_eq : fStat cfg av s = (statPath (keyword cfg s.lookup.commandFile (av.map cstr))
    av s).bind fun r => (match r.1 with
      | .error rc => return rc
      | .ok path => statFile ((keyword cfg s.lookup.commandFile (av.map cstr)).getD .command) av path
      : Serve Int) r.2 := rfl

theorem fRetr_eq : fRetr cfg av s = (retrPath (keyword cfg s.lookup.commandFile (av.map cstr))
    av s).bind fun r => (match r.1 with
      | .error rc => return rc
      | .ok path => sendFile path : Serve Int) r.2 := rfl

end

/-- A request whose words are these passes where its name decodes to one on the list. -/
theorem passes_request {cfg : ServerConfig} {s : Session} {v t mem : List Byte} {verb : CStr}
    {m : Mark CStr} (hv : cstr v = verb) (ht : cstr t = checkType m) (hmem : cstr mem = m.name)
    (hdots : ¬ lit "../" <:+: m.name) (hshort : m.name.length + 15 ≤ maxPathLen) :
    (Passes (fStat cfg [v, t, mem] s) ↔
      ∃ name, (decode s.buf mem).1 = some name ∧ listCheck s.access.list name = true) ∧
    (Passes (fRetr cfg [v, t, mem] s) ↔
      ∃ name, (decode s.buf mem).1 = some name ∧ listCheck s.access.list name = true) := by
  have hkey : keyword cfg s.lookup.commandFile ([v, t, mem].map cstr) = some (markKey m) := by
    rw [List.map_cons, List.map_cons, List.map_cons, List.map_nil, hv, ht, hmem]
    exact keyword_request cfg _ verb hdots hshort
  rw [fStat_eq, fRetr_eq, hkey]
  unfold markKey
  cases m.descends with
  | true => exact ⟨passes_grantedPath .command _ mem s _, passes_grantedPath .command _ mem s _⟩
  | false =>
    exact ⟨passes_grantedPath .transcript _ mem s _, passes_grantedPath .transcript _ mem s _⟩

/-- The words of the lines of a command file. -/
theorem solid_of_kfileMarks {content : List Byte} {m : Mark CStr} (h : m ∈ kfileMarks content) :
    Solid [] m.name ∧ m.name ≠ [] := by
  obtain ⟨line, -, hm⟩ := List.mem_filterMap.mp h
  unfold lineMark at hm
  split at hm
  · next word name hwords =>
    rw [typeMark_name hm]
    have hname : name ∈ lineWords line := by rw [hwords]; simp
    obtain ⟨mem, hmem, rfl⟩ := List.mem_map.mp hname
    obtain ⟨hne, hsolid⟩ := acavLoop_words (fun _ => rfl) mem hmem
    exact ⟨hsolid, hne⟩
  · cases hm

section

variable {fopen : CStr → Option (List Byte)} {fuel : Nat} {kfile : CStr} {access : Access}
  {content : List Byte} {m : Mark CStr}

theorem marked_of_kfileMarks (hread : readKfile fopen fuel kfile .new = .ok access)
    (hcontent : fopen (kfilePath kfile) = some content) (hm : m ∈ kfileMarks content) :
    Marked access.marks m.name := by
  obtain ⟨-, hvisited⟩ := readKfile_visits fuel kfile .new access .start .new hread
  refine ⟨m, hvisited m ?_, rfl⟩
  rw [marksOf, hcontent]
  exact hm

/-- The name on a line is granted where what it decodes to is on a line that was read. -/
theorem passes_iff_marked (hread : readKfile fopen fuel kfile .new = .ok access)
    (hm : m ∈ kfileMarks content) (hdots : ¬ lit "../" <:+: m.name)
    (hshort : m.name.length + 15 ≤ maxPathLen) (cfg : ServerConfig) {s : Session}
    (hs : s.access = access) (rest : List Byte) :
    (Passes (fStat cfg (requestWords (lit "STAT") m rest) s) ∧
        Passes (fRetr cfg (requestWords (lit "RETR") m rest) s)) ↔
      ∃ name, (decode s.buf (m.name ++ nul :: rest)).1 = some name ∧
        Marked access.marks name := by
  obtain ⟨hreading, -⟩ := readKfile_visits fuel kfile .new access .start .new hread
  obtain ⟨hsolid, hne⟩ := solid_of_kfileMarks hm
  have hmem : cstr (m.name ++ nul :: rest) = m.name := cstr_append_nul hsolid.nulFree rest
  have hstat : Encoded (lit "STAT") := encoded_of_flatMap (by decide +kernel) (by decide +kernel)
  have hretr : Encoded (lit "RETR") := encoded_of_flatMap (by decide +kernel) (by decide +kernel)
  obtain ⟨v, t, hwords, hv, ht⟩ := requestWords_eq hstat (by decide) hsolid hne rest
  obtain ⟨v', t', hwords', hv', ht'⟩ := requestWords_eq hretr (by decide) hsolid hne rest
  rw [hwords, hwords', (passes_request hv ht hmem hdots hshort).1,
    (passes_request hv' ht' hmem hdots hshort).2, and_self, hs]
  exact exists_congr fun name => and_congr_right fun hname =>
    hreading.ok.check (nulFree_of_decode hname)

/-- A name on a line of a command file is granted to a client that asks for it exactly
where what it decodes to is on a line that was read.  A name without escapes always is. -/
theorem names_agree_iff (hread : readKfile fopen fuel kfile .new = .ok access)
    (hcontent : fopen (kfilePath kfile) = some content) (hm : m ∈ kfileMarks content)
    (hdots : ¬ lit "../" <:+: m.name) (hshort : m.name.length + 15 ≤ maxPathLen)
    (cfg : ServerConfig) {s : Session} (hs : s.access = access) (rest : List Byte) :
    ((Passes (fStat cfg (requestWords (lit "STAT") m rest) s) ∧
        Passes (fRetr cfg (requestWords (lit "RETR") m rest) s)) ↔
      ∃ name, (decode s.buf (m.name ++ nul :: rest)).1 = some name ∧
        Marked access.marks name) ∧
    (bslash ∉ m.name → Passes (fStat cfg (requestWords (lit "STAT") m rest) s) ∧
      Passes (fRetr cfg (requestWords (lit "RETR") m rest) s)) := by
  have hiff := passes_iff_marked hread hm hdots hshort cfg hs rest
  refine ⟨hiff, fun hplain => hiff.mpr ⟨m.name, ?_, marked_of_kfileMarks hread hcontent hm⟩⟩
  have hnul := (solid_of_kfileMarks hm).1.nulFree
  exact decode_of_plain hnul (fun c hc h => hplain (h ▸ hc)) (by omega) s.buf rest

end

/-- A session with an access list. -/
def Session.granted (access : Access) : Session := { Session.start with access := access }

/-- A command file with a transcript whose name has an escaped blank. -/
def blankFiles (path : CStr) : Option (List Byte) :=
  if path = lit "command/base" then some (lit "p a\\bb" ++ [newline] ++ lit "p c" ++ [newline])
  else none

def blankAccess : Access := ⟨[lit "a\\bb", lit "c"], [⟨false, lit "a\\bb"⟩, ⟨false, lit "c"⟩]⟩

theorem blankFiles_read : readKfile blankFiles 1 (lit "base") .new = .ok blankAccess := by
  decide +kernel

theorem names_agree_iff_plain :
    Passes (fStat openConfig (requestWords (lit "STAT") ⟨false, lit "c"⟩ [])
        (.granted blankAccess)) ∧
      Passes (fRetr openConfig (requestWords (lit "RETR") ⟨false, lit "c"⟩ [])
        (.granted blankAccess)) := by
  have hc : ⟨false, lit "c"⟩ ∈
      kfileMarks (lit "p a\\bb" ++ [newline] ++ lit "p c" ++ [newline]) := by decide +kernel
  exact (names_agree_iff blankFiles_read rfl hc (by decide +kernel) (by decide +kernel) openConfig
    rfl []).2 (by decide +kernel)

/-- The name with the blank is on the list as it stands on the line, not as it decodes. -/
theorem not_names_agree : ¬ ∀ (fopen : CStr → Option (List Byte)) (fuel : Nat) (kfile : CStr)
    (access : Access) (content : List Byte), readKfile fopen fuel kfile .new = .ok access →
    fopen (kfilePath kfile) = some content → ∀ m ∈ kfileMarks content, ¬ lit "../" <:+: m.name →
    m.name.length + 15 ≤ maxPathLen → ∀ (cfg : ServerConfig) (s : Session), s.access = access →
    ∀ rest, Passes (fStat cfg (requestWords (lit "STAT") m rest) s) ∧
      Passes (fRetr cfg (requestWords (lit "RETR") m rest) s) := by
  intro h
  have hm : ⟨false, lit "a\\bb"⟩ ∈
      kfileMarks (lit "p a\\bb" ++ [newline] ++ lit "p c" ++ [newline]) := by decide +kernel
  have hdots : ¬ lit "../" <:+: lit "a\\bb" := by decide +kernel
  have hpasses := h blankFiles 1 (lit "base") blankAccess _ blankFiles_read rfl _ hm hdots
    (by decide +kernel) openConfig (.granted blankAccess) rfl []
  obtain ⟨name, hname, m, hmarks, rfl⟩ :=
    (passes_iff_marked blankFiles_read hm hdots (by decide +kernel) openConfig rfl []).mp hpasses
  have hdecode : (decode [] (lit "a\\bb" ++ [nul])).1 = some (lit "a b") := by decide +kernel
  have hblank : m.name = lit "a b" := Option.some.inj (hname.symm.trans hdecode)
  revert hblank
  revert m
  decide +kernel

end Server
end Radmind
