import Radmind.CommandFile

/-!
# The config file on the server

`command_k` looks up the command file of a client.  The lookup goes on in other files at
`@include` lines, to a limited depth, and leaves what it finds in two global variables.
-/

namespace Radmind
namespace Server

/-- What is known of the client, and `wildcard` of wildcard.c, which is told to compare
names regardless of case, and addresses as they are. -/
structure Client where
  remoteCn : Option CStr
  remoteHost : CStr
  remoteAddr : CStr
  wildcard : CStr → CStr → Bool → Bool

/-- `match_config_entry` -/
def matchConfigEntry (client : Client) (entry : CStr) : Option CStr :=
  match client.remoteCn.filter fun cn => client.wildcard entry cn false with
  | some cn => some cn
  | none =>
    if client.wildcard entry client.remoteHost false then some client.remoteHost
    else if client.wildcard entry client.remoteAddr true then some client.remoteAddr
    else none

/-- `RADMIND_MAX_INCLUDE_DEPTH` -/
def maxIncludeDepth : Nat := 10

/-- `command_file` and `special_dir`. -/
structure Lookup where
  commandFile : CStr
  specialDir : CStr
  deriving DecidableEq, Repr

def Lookup.start : Lookup := ⟨[], []⟩

/-- A line by its words. -/
inductive ConfigItem
  | entry (pattern kfile : CStr)
  | includes (path : CStr) (args : List CStr)
  /-- A blank line, a comment, or a line with an error. -/
  | other
  deriving DecidableEq, Repr

/-- Something stands behind the command file, and is no comment. -/
def stray : List CStr → Bool
  | [] => false
  | arg :: _ => arg.head? ≠ some hash

def configItem (line : CStr) : ConfigItem :=
  match lineWords line with
  | word :: name :: args =>
    if word.head? = some hash then .other
    else if word = lit "@include" then .includes name args
    else if stray args then .other
    else .entry word name
  | _ => .other

/-- What stands before the last `/` of a name. -/
def beforeSlash (name : CStr) : Option CStr :=
  match name.reverse.dropWhile (· ≠ slash) with
  | [] => none
  | _ :: dir => some dir.reverse

/-- An entry.  The special directory is set before it is known to match. -/
def configEntry (client : Client) (pattern kfile : CStr) (st : Lookup) : Bool × Lookup :=
  let specialDir :=
    match beforeSlash kfile with
    | none => lit "special"
    | some dir => lit "special/" ++ dir
  let st := { st with specialDir := specialDir.take (maxPathLen - 1) }
  if specialDir.length ≥ maxPathLen then (false, st)
  else
    match matchConfigEntry client pattern with
    | none => (false, st)
    | some validHost =>
      if kfile.length ≥ maxPathLen then (false, st)
      else
        let st := { st with commandFile := kfile }
        let temp := st.specialDir ++ slash :: validHost
        if temp.length ≥ maxPathLen then (false, st)
        else (true, { st with specialDir := temp })

/-- The host of the client is one that the include is for. -/
def includes (client : Client) : List CStr → Bool
  | [] => true
  | [pattern] => (matchConfigEntry client pattern).isSome
  | _ => false

/-- Go on where nothing was found. -/
def orElse (r : Bool × Lookup) (next : Lookup → Bool × Lookup) : Bool × Lookup :=
  if r.1 then r else next r.2

/-- The loop of `command_k`.  Without `nested` no more includes are allowed. -/
def configLines (client : Client) (nested : Option (CStr → Lookup → Bool × Lookup)) :
    List CStr → Lookup → Bool × Lookup
  | [], st => (false, st)
  | line :: lines, st =>
    match configItem line with
    | .other => configLines client nested lines st
    | .entry pattern kfile =>
      orElse (configEntry client pattern kfile st) (configLines client nested lines)
    | .includes path args =>
      match nested with
      | none => (false, st)
      | some commandK =>
        if includes client args then orElse (commandK path st) (configLines client nested lines)
        else configLines client nested lines st

/-- The lines of a file, if it can be opened. -/
abbrev ConfigFiles := CStr → Option (List CStr)

def configFile (files : ConfigFiles) (client : Client)
    (nested : Option (CStr → Lookup → Bool × Lookup)) (path : CStr) (st : Lookup) :
    Bool × Lookup :=
  match files path with
  | none => (false, st)
  | some lines => configLines client nested lines st

/-- `command_k`, with so many levels of includes left. -/
def commandKLevels (files : ConfigFiles) (client : Client) :
    Nat → CStr → Lookup → Bool × Lookup
  | 0 => configFile files client none
  | levels + 1 => configFile files client (some (commandKLevels files client levels))

/-- `command_k`: whether it returns 0, and what it leaves. -/
def commandK (files : ConfigFiles) (client : Client) (path : CStr) (depth : Nat) (st : Lookup) :
    Bool × Lookup :=
  commandKLevels files client (maxIncludeDepth - depth) path st

/-! ## The entries in their order -/

structure ConfigEntry where
  pattern : CStr
  kfile : CStr
  deriving DecidableEq, Repr

/-- The entries of a file, with those of the files it includes in place of the includes.
An include at the last level ends the file. -/
def entriesOf (client : Client) (nested : Option (CStr → List ConfigEntry)) :
    List CStr → List ConfigEntry
  | [] => []
  | line :: lines =>
    match configItem line with
    | .other => entriesOf client nested lines
    | .entry pattern kfile => ⟨pattern, kfile⟩ :: entriesOf client nested lines
    | .includes path args =>
      match nested with
      | none => []
      | some entries =>
        (if includes client args then entries path else []) ++ entriesOf client nested lines

def entriesLevels (files : ConfigFiles) (client : Client) : Nat → CStr → List ConfigEntry
  | 0, path => entriesOf client none ((files path).getD [])
  | levels + 1, path =>
    entriesOf client (some (entriesLevels files client levels)) ((files path).getD [])

def configEntries (files : ConfigFiles) (client : Client) (path : CStr) (depth : Nat) :
    List ConfigEntry :=
  entriesLevels files client (maxIncludeDepth - depth) path

def ConfigEntry.matchesClient (client : Client) (e : ConfigEntry) : Bool :=
  (matchConfigEntry client e.pattern).isSome

/-- The directory part of a name, with its last `/`. -/
def dirPart (name : CStr) : CStr := (name.reverse.dropWhile (· ≠ slash)).reverse

/-- What the variables are set to for an entry. -/
def ConfigEntry.lookup (e : ConfigEntry) (host : CStr) : Lookup :=
  ⟨e.kfile, lit "special/" ++ dirPart e.kfile ++ host⟩

/-- The names are short enough for the path buffers. -/
def ConfigEntry.Short (client : Client) (e : ConfigEntry) : Prop :=
  ∀ host, matchConfigEntry client e.pattern = some host →
    e.kfile.length < maxPathLen ∧ (e.lookup host).specialDir.length < maxPathLen

/-! ## The first entry that matches -/

/-- The special directory of a name, as the source puts it together. -/
theorem beforeSlash_dirPart (name : CStr) :
    (match beforeSlash name with
      | none => lit "special"
      | some dir => lit "special/" ++ dir) ++ [slash] = lit "special/" ++ dirPart name := by
  unfold beforeSlash dirPart
  split
  · next heq =>
    split at heq
    · next hnil => rw [hnil]; rfl
    · cases heq
  · next dir heq =>
    split at heq
    · cases heq
    · next c rest hcons =>
      have hc : c = slash := by
        have hhead := List.head?_dropWhile_not (fun b => decide (b ≠ slash)) name.reverse
        rw [hcons] at hhead
        simpa using hhead
      rw [← Option.some.inj heq, hcons, hc, List.reverse_cons, List.append_assoc]

/-- The result of a lookup among some entries. -/
def Found (client : Client) (entries : List ConfigEntry) (r : Bool × Lookup) : Prop :=
  match entries.find? (ConfigEntry.matchesClient client) with
  | none => r.1 = false
  | some e => ∃ host, matchConfigEntry client e.pattern = some host ∧ r = (true, e.lookup host)

theorem configEntry_found (client : Client) (e : ConfigEntry) (st : Lookup)
    (hshort : e.Short client) : Found client [e] (configEntry client e.pattern e.kfile st) := by
  unfold Found configEntry
  cases hmatch : matchConfigEntry client e.pattern with
  | none =>
    rw [List.find?_singleton, ConfigEntry.matchesClient, hmatch]
    simp only [Option.isSome_none, Bool.false_eq_true, if_false]
    split_ifs
    · rfl
    · rfl
  | some host =>
    obtain ⟨hkfile, hdir⟩ := hshort host hmatch
    rw [List.find?_singleton, ConfigEntry.matchesClient, hmatch]
    simp only [Option.isSome_some, if_true]
    have hpart := beforeSlash_dirPart e.kfile
    generalize hspecial : (match beforeSlash e.kfile with
      | none => lit "special"
      | some dir => lit "special/" ++ dir) = special at hpart ⊢
    have hlookup : (e.lookup host).specialDir = special ++ slash :: host := by
      rw [ConfigEntry.lookup, ← hpart, List.append_assoc]
      rfl
    rw [hlookup, List.length_append, List.length_cons] at hdir
    have htake : special.take (maxPathLen - 1) = special := List.take_of_length_le (by omega)
    have htemp : (special ++ slash :: host).length < maxPathLen := by
      rw [List.length_append, List.length_cons]
      exact hdir
    refine ⟨host, hmatch, ?_⟩
    rw [if_neg (by omega), if_neg (by omega), htake, if_neg (by omega)]
    rw [← hlookup]
    rfl

theorem Found.append_none {client : Client} {entries rest : List ConfigEntry} {r : Bool × Lookup}
    (hnone : entries.find? (ConfigEntry.matchesClient client) = none) (h : Found client rest r) :
    Found client (entries ++ rest) r := by
  unfold Found at h ⊢
  rw [List.find?_append, hnone]
  exact h

/-- One lookup, and another one where it does not find anything. -/
theorem Found.orElse {client : Client} {entries rest : List ConfigEntry} {r : Bool × Lookup}
    {next : Lookup → Bool × Lookup} (h : Found client entries r)
    (hnext : ∀ st, Found client rest (next st)) :
    Found client (entries ++ rest) (orElse r next) := by
  unfold Server.orElse
  cases hfind : entries.find? (ConfigEntry.matchesClient client) with
  | none =>
    have hr : r.1 = false := by
      unfold Found at h
      rw [hfind] at h
      exact h
    rw [if_neg (by rw [hr]; decide)]
    exact (hnext r.2).append_none hfind
  | some e =>
    unfold Found at h ⊢
    rw [hfind] at h
    obtain ⟨host, hmatch, hr⟩ := h
    rw [List.find?_append, hfind, hr]
    exact ⟨host, hmatch, rfl⟩

theorem configLines_found (client : Client) {nested : Option (CStr → Lookup → Bool × Lookup)}
    {sub : Option (CStr → List ConfigEntry)}
    (hnested : Option.Rel (fun commandK entries => ∀ path st,
      (∀ e ∈ entries path, e.Short client) → Found client (entries path) (commandK path st))
      nested sub)
    (lines : List CStr) (st : Lookup) (hshort : ∀ e ∈ entriesOf client sub lines, e.Short client) :
    Found client (entriesOf client sub lines) (configLines client nested lines st) := by
  induction lines generalizing st with
  | nil => rfl
  | cons line lines ih =>
    rw [entriesOf] at hshort ⊢
    rw [configLines]
    cases hitem : configItem line with
    | other =>
      rw [hitem] at hshort
      exact ih st hshort
    | entry pattern kfile =>
      rw [hitem] at hshort
      have hfirst := configEntry_found client ⟨pattern, kfile⟩ st
        (hshort _ List.mem_cons_self)
      exact hfirst.orElse fun st => ih st fun e he => hshort e (List.mem_cons_of_mem _ he)
    | includes path args =>
      rw [hitem] at hshort
      cases hnested with
      | none => rfl
      | some hsub =>
        simp only at hshort ⊢
        split_ifs at hshort ⊢
        · have hfirst := hsub path st fun e he => hshort e (List.mem_append_left _ he)
          exact hfirst.orElse fun st => ih st fun e he => hshort e (List.mem_append_right _ he)
        · rw [List.nil_append] at hshort ⊢
          exact ih st hshort

theorem commandKLevels_found (files : ConfigFiles) (client : Client) (levels : Nat) (path : CStr)
    (st : Lookup) (hshort : ∀ e ∈ entriesLevels files client levels path, e.Short client) :
    Found client (entriesLevels files client levels path)
      (commandKLevels files client levels path st) := by
  induction levels generalizing path st with
  | zero =>
    unfold entriesLevels at hshort ⊢
    unfold commandKLevels configFile
    cases hfile : files path with
    | none => rfl
    | some lines =>
      rw [hfile] at hshort
      exact configLines_found client .none lines st hshort
  | succ levels ih =>
    unfold entriesLevels at hshort ⊢
    unfold commandKLevels configFile
    cases hfile : files path with
    | none => rfl
    | some lines =>
      rw [hfile] at hshort
      exact configLines_found client (.some ih) lines st hshort

/-- `command_k` finds the first entry that matches, in the order in which the files include
one another. -/
theorem commandK_first (files : ConfigFiles) (client : Client) (path : CStr) (depth : Nat)
    (st : Lookup) (hshort : ∀ e ∈ configEntries files client path depth, e.Short client) :
    ((commandK files client path depth st).1 = true ↔
      ∃ e ∈ configEntries files client path depth, e.matchesClient client = true) ∧
    ∀ e, (configEntries files client path depth).find? (ConfigEntry.matchesClient client) = some e →
      ∃ host, matchConfigEntry client e.pattern = some host ∧
        (commandK files client path depth st).2 = e.lookup host := by
  have hfound : Found client (configEntries files client path depth)
      (commandK files client path depth st) := commandKLevels_found files client _ path st hshort
  unfold Found at hfound
  split at hfound
  · next hnone =>
    rw [hfound, hnone]
    refine ⟨⟨by simp, fun ⟨e, he, hmatch⟩ => ?_⟩, by simp⟩
    exact absurd hmatch (List.find?_eq_none.mp hnone e he)
  · next e hsome =>
    obtain ⟨host, hmatch, hr⟩ := hfound
    rw [hr, hsome]
    refine ⟨⟨fun _ => ⟨e, List.mem_of_find?_eq_some hsome, List.find?_some hsome⟩, by simp⟩, ?_⟩
    intro e' he'
    rw [← Option.some.inj he']
    exact ⟨host, hmatch, rfl⟩

/-- A client that patterns match only by its name. -/
def namedClient : Client where
  remoteCn := none
  remoteHost := lit "h"
  remoteAddr := lit "1"
  wildcard pattern name _ := pattern = name

/-- Two files that include one another, and an entry behind an include. -/
def cyclicConfig (path : CStr) : Option (List CStr) :=
  if path = lit "config" then some [lit "# hosts", lit "@include more", lit "h sub/base.K"]
  else if path = lit "more" then some [lit "g g.K", lit "@include config h"]
  else none

set_option maxRecDepth 16000 in
theorem commandK_first_cyclic :
    (commandK cyclicConfig namedClient (lit "config") 0 .start).2 =
      ⟨lit "sub/base.K", lit "special/sub/h"⟩ := by
  have hentries : ∀ e ∈ configEntries cyclicConfig namedClient (lit "config") 0,
      e = ⟨lit "g", lit "g.K"⟩ ∨ e = ⟨lit "h", lit "sub/base.K"⟩ := by decide +kernel
  have hg : matchConfigEntry namedClient (lit "g") = none := by decide +kernel
  have hh : matchConfigEntry namedClient (lit "h") = some (lit "h") := by decide +kernel
  have hshort : ∀ e ∈ configEntries cyclicConfig namedClient (lit "config") 0,
      e.Short namedClient := by
    intro e he host hmatch
    rcases hentries e he with rfl | rfl
    · rw [hg] at hmatch
      cases hmatch
    · rw [hh] at hmatch
      rw [← Option.some.inj hmatch]
      decide +kernel
  obtain ⟨host, hmatch, hlookup⟩ := (commandK_first cyclicConfig namedClient (lit "config") 0
    .start hshort).2 ⟨lit "h", lit "sub/base.K"⟩ (by decide +kernel)
  rw [hh] at hmatch
  rw [hlookup, ← Option.some.inj hmatch]
  decide +kernel

end Server
end Radmind
