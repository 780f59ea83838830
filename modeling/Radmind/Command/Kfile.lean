import Radmind.CommandFile
import Radmind.Lib.MarkedSearch

/-!
# The command files on the server

`read_kfile` of command.c collects the names a client may ask for.  It goes on to the
command file of a 'k' line unless the name is on the list already, for whatever reason.
-/

namespace Radmind
namespace Server

open MarkedSearch

/-- What ends the reading.  The reply to the client is the same for all. -/
inductive KfileError
  | pathTooLong (kfile : CStr)
  | fopen (path : CStr)
  | wrongArguments (kfile : CStr) (line : Nat)
  | listInsert
  | unknownType (kfile : CStr) (line : Nat) (type : Byte)
  | outOfFuel
  deriving DecidableEq, Repr

/-- `access_list`, and the names on the lines read so far. -/
structure Access where
  list : PathList
  marks : List (Mark CStr)
  deriving DecidableEq, Repr

/-- The start of a session: `list_new`. -/
def Access.new : Access := ⟨[], []⟩

/-- A line whose name is on the list. -/
def Access.mark (access : Access) (m : Mark CStr) : Access :=
  { access with marks := access.marks ++ [m] }

/-- The cases 'p' and 'n' of `read_kfile`. -/
def kfileTranscript (name : CStr) (access : Access) : Except KfileError Access :=
  if listCheck access.list name then .ok (access.mark ⟨false, name⟩)
  else
    match listInsert access.list name with
    | none => .error .listInsert
    | some list => .ok ⟨list, access.marks ++ [⟨false, name⟩]⟩

/-- The case 'k' of `read_kfile`. -/
def kfileCommand (readKfile : CStr → Access → Except KfileError Access) (name : CStr)
    (access : Access) : Except KfileError Access :=
  if listCheck access.list name then .ok (access.mark ⟨true, name⟩)
  else
    match listInsert access.list name with
    | none => .error .listInsert
    | some list => readKfile name ⟨list, access.marks ++ [⟨true, name⟩]⟩

/-- The switch of `read_kfile`. -/
def kfileSwitch (readKfile : CStr → Access → Except KfileError Access) (kfile : CStr)
    (linenum : Nat) (type : Byte) (name : CStr) (access : Access) : Except KfileError Access :=
  match type with
  | 107 => kfileCommand readKfile name access
  | 112 | 110 => kfileTranscript name access
  | 115 | 120 => .ok access
  | _ => .error (.unknownType kfile linenum type)

/-- A line of a command file. -/
def kfileLine (readKfile : CStr → Access → Except KfileError Access) (kfile : CStr)
    (linenum : Nat) (line : List Byte) (access : Access) : Except KfileError Access :=
  match lineWords line with
  | [] => .ok access
  | word :: av =>
    if word.head? = some hash then .ok access
    -- minus lines give and take no access
    else if word.head? = some minus then .ok access
    else
      match av with
      | [name] => kfileSwitch readKfile kfile linenum (word.headD nul) name access
      | _ => .error (.wrongArguments kfile linenum)

def kfileLines (readKfile : CStr → Access → Except KfileError Access) (kfile : CStr) :
    Nat → List (List Byte) → Access → Except KfileError Access
  | _, [], access => .ok access
  | linenum, line :: lines, access =>
    match kfileLine readKfile kfile (linenum + 1) line access with
    | .error e => .error e
    | .ok access => kfileLines readKfile kfile (linenum + 1) lines access

def kfilePath (kfile : CStr) : CStr := lit "command/" ++ kfile

/-- `read_kfile` of the server.  `fopen` has what a file holds, if it can be opened. -/
def readKfile (fopen : CStr → Option (List Byte)) :
    Nat → CStr → Access → Except KfileError Access
  | 0, _, _ => .error .outOfFuel
  | fuel + 1, kfile, access =>
    if (kfilePath kfile).length ≥ maxPathLen then .error (.pathTooLong kfile)
    else
      match fopen (kfilePath kfile) with
      | none => .error (.fopen (kfilePath kfile))
      | some content =>
        kfileLines (readKfile fopen fuel) kfile 0 (fileLines content) access

/-! ## The names on the lines -/

/-- The name on a line of this type, if it is a 'k', 'p' or 'n' line. -/
def typeMark (type : Byte) (name : CStr) : Option (Mark CStr) :=
  match type with
  | 107 => some ⟨true, name⟩
  | 112 | 110 => some ⟨false, name⟩
  | _ => none

def lineMark (line : List Byte) : Option (Mark CStr) :=
  match lineWords line with
  | [word, name] => typeMark (word.headD nul) name
  | _ => none

def kfileMarks (content : List Byte) : List (Mark CStr) := (fileLines content).filterMap lineMark

/-- The names on the lines of a command file, none if there is no such file. -/
def marksOf (fopen : CStr → Option (List Byte)) (kfile : CStr) : List (Mark CStr) :=
  match fopen (kfilePath kfile) with
  | none => []
  | some content => kfileMarks content

theorem typeMark_name {type : Byte} {name : CStr} {m : Mark CStr}
    (h : typeMark type name = some m) : m.name = name := by
  unfold typeMark at h
  split at h
  · rw [← Option.some.inj h]
  · rw [← Option.some.inj h]
  · rw [← Option.some.inj h]
  · cases h

theorem nulFree_of_lineMark {line : List Byte} {m : Mark CStr} (h : lineMark line = some m) :
    NulFree m.name := by
  unfold lineMark at h
  split at h
  · next word name hwords =>
    rw [typeMark_name h]
    exact nulFree_of_mem_lineWords (by rw [hwords]; simp)
  · cases h

/-- What a line with this name does. -/
def kfileMark (readKfile : CStr → Access → Except KfileError Access) (access : Access) :
    Option (Mark CStr) → Except KfileError Access
  | none => .ok access
  | some ⟨true, name⟩ => kfileCommand readKfile name access
  | some ⟨false, name⟩ => kfileTranscript name access

/-- The reading stops here, and not for want of fuel. -/
def Stops (r : Except KfileError Access) : Prop := ∃ e, r = .error e ∧ e ≠ .outOfFuel

theorem kfileSwitch_eq (readKfile : CStr → Access → Except KfileError Access) (kfile : CStr)
    (linenum : Nat) (type : Byte) (name : CStr) (access : Access) :
    kfileSwitch readKfile kfile linenum type name access =
        kfileMark readKfile access (typeMark type name) ∨
      Stops (kfileSwitch readKfile kfile linenum type name access) := by
  unfold kfileSwitch
  split
  · exact .inl rfl
  · exact .inl rfl
  · exact .inl rfl
  · exact .inl rfl
  · exact .inl rfl
  · exact .inr ⟨_, rfl, by simp⟩

theorem kfileLine_eq (readKfile : CStr → Access → Except KfileError Access) (kfile : CStr)
    (linenum : Nat) (line : List Byte) (access : Access) :
    kfileLine readKfile kfile linenum line access =
        kfileMark readKfile access (lineMark line) ∨
      Stops (kfileLine readKfile kfile linenum line access) := by
  unfold kfileLine
  split
  · next hwords =>
    rw [lineMark, hwords]
    exact .inl rfl
  · next word av hwords =>
    -- a comment or a minus line has no name
    have hnone : ∀ type : Byte, typeMark type = (fun _ => none) → word.head? = some type →
        lineMark line = none := by
      intro type htype hhead
      rw [lineMark, hwords]
      split
      · next word' name heq =>
        rw [← (List.cons.inj heq).1, List.headD_eq_head?_getD, hhead, Option.getD_some, htype]
      · rfl
    split_ifs with hhash hminus
    · rw [hnone hash rfl hhash]
      exact .inl rfl
    · rw [hnone minus rfl hminus]
      exact .inl rfl
    · split
      · next name =>
        rw [lineMark, hwords]
        exact kfileSwitch_eq readKfile kfile linenum (word.headD nul) name access
      · exact .inr ⟨_, rfl, by simp⟩

theorem kfileLine_ok {readKfile : CStr → Access → Except KfileError Access} {kfile : CStr}
    {linenum : Nat} {line : List Byte} {access access' : Access}
    (h : kfileLine readKfile kfile linenum line access = .ok access') :
    kfileMark readKfile access (lineMark line) = .ok access' := by
  rcases kfileLine_eq readKfile kfile linenum line access with heq | ⟨e, he, -⟩
  · rw [← heq, h]
  · rw [h] at he
    cases he

/-! ## What the list holds -/

/-- The list has the names that were marked. -/
structure Access.Ok (access : Access) : Prop where
  nulFree : ∀ cur ∈ access.list, NulFree cur
  mem : ∀ x, x ∈ access.list ↔ Marked access.marks x

theorem marked_snoc {marks : List (Mark CStr)} {m : Mark CStr} {x : CStr} :
    Marked (marks ++ [m]) x ↔ x = m.name ∨ Marked marks x := by
  simp [Marked, or_and_right, exists_or, eq_comm, or_comm]

theorem Access.Ok.new : Access.new.Ok := ⟨by simp [Access.new], by simp [Access.new, Marked]⟩

theorem Access.Ok.check {access : Access} (h : access.Ok) {name : CStr} (hname : NulFree name) :
    listCheck access.list name = true ↔ Marked access.marks name := by
  rw [listCheck_iff h.nulFree hname, h.mem]

theorem Access.Ok.mark {access : Access} (h : access.Ok) {m : Mark CStr}
    (hm : Marked access.marks m.name) : (access.mark m).Ok where
  nulFree := h.nulFree
  mem := by
    intro x
    show x ∈ access.list ↔ Marked (access.marks ++ [m]) x
    rw [marked_snoc, h.mem]
    constructor
    · exact .inr
    · rintro (rfl | hx)
      · exact hm
      · exact hx

theorem Access.Ok.insert {access : Access} (h : access.Ok) {m : Mark CStr} {list : PathList}
    (hname : NulFree m.name) (hlist : listInsert access.list m.name = some list) :
    Access.Ok ⟨list, access.marks ++ [m]⟩ where
  nulFree := by
    intro cur hcur
    rcases (mem_listInsertCase hlist).mp hcur with rfl | hcur
    · exact hname
    · exact h.nulFree cur hcur
  mem := by
    intro x
    show x ∈ list ↔ Marked (access.marks ++ [m]) x
    rw [marked_snoc, mem_listInsertCase hlist, h.mem]

variable {fopen : CStr → Option (List Byte)} {start : CStr}

/-- A reading that came to its end. -/
structure Reading (fopen : CStr → Option (List Byte)) (start : CStr) (access access' : Access) :
    Prop where
  ok : access'.Ok
  grows : Extends (marksOf fopen) start access.marks access'.marks

theorem Reading.refl {access : Access} (h : access.Ok) : Reading fopen start access access :=
  ⟨h, .refl _⟩

theorem Reading.trans {access access' access'' : Access} (h : Reading fopen start access access')
    (h' : Reading fopen start access' access'') : Reading fopen start access access'' :=
  ⟨h'.ok, h.grows.trans h'.grows⟩

theorem kfileTranscript_reading {kfile name : CStr} {access access' : Access} (hok : access.Ok)
    (hname : NulFree name) (hkfile : Reaches (marksOf fopen) start kfile)
    (hmem : ⟨false, name⟩ ∈ marksOf fopen kfile)
    (h : kfileTranscript name access = .ok access') :
    Reading fopen start access access' ∧ ⟨false, name⟩ ∈ access'.marks := by
  have hgrows : Extends (marksOf fopen) start access.marks (access.marks ++ [⟨false, name⟩]) :=
    .mark hkfile hmem (by simp)
  unfold kfileTranscript at h
  split_ifs at h with hcheck
  · rw [← Except.ok.inj h]
    exact ⟨⟨hok.mark ((hok.check hname).mp hcheck), hgrows⟩, by simp [Access.mark]⟩
  · split at h
    · cases h
    · next list hlist =>
      rw [← Except.ok.inj h]
      exact ⟨⟨hok.insert (m := ⟨false, name⟩) hname hlist, hgrows⟩, by simp⟩

/-- Reading a command file again and again visits what it marks. -/
def Visits (fopen : CStr → Option (List Byte)) (start : CStr)
    (readKfile : CStr → Access → Except KfileError Access) : Prop :=
  ∀ kfile access access', Reaches (marksOf fopen) start kfile → access.Ok →
    readKfile kfile access = .ok access' →
    Reading fopen start access access' ∧ Visited (marksOf fopen) access'.marks kfile

theorem kfileCommand_reading {readKfile : CStr → Access → Except KfileError Access}
    (hread : Visits fopen start readKfile) {kfile name : CStr} {access access' : Access}
    (hok : access.Ok) (hname : NulFree name) (hkfile : Reaches (marksOf fopen) start kfile)
    (hmem : ⟨true, name⟩ ∈ marksOf fopen kfile)
    (h : kfileCommand readKfile name access = .ok access') :
    Reading fopen start access access' ∧ ⟨true, name⟩ ∈ access'.marks := by
  unfold kfileCommand at h
  split_ifs at h with hcheck
  · have hmarked := (hok.check hname).mp hcheck
    rw [← Except.ok.inj h]
    exact ⟨⟨hok.mark hmarked, .mark hkfile hmem fun _ => hmarked⟩, by simp [Access.mark]⟩
  · split at h
    · cases h
    · next list hlist =>
      have hinsert : Access.Ok ⟨list, access.marks ++ [⟨true, name⟩]⟩ :=
        hok.insert (m := ⟨true, name⟩) hname hlist
      obtain ⟨hreading, hvisited⟩ := hread name _ access' (hkfile.descend hmem) hinsert h
      exact ⟨⟨hreading.ok, .visit hkfile hmem hreading.grows hvisited⟩,
        hreading.grows.subset (by simp)⟩

theorem kfileLine_reading {readKfile : CStr → Access → Except KfileError Access}
    (hread : Visits fopen start readKfile) {kfile : CStr} {linenum : Nat} {line : List Byte}
    {access access' : Access} (hok : access.Ok) (hkfile : Reaches (marksOf fopen) start kfile)
    (hline : ∀ m, lineMark line = some m → m ∈ marksOf fopen kfile)
    (h : kfileLine readKfile kfile linenum line access = .ok access') :
    Reading fopen start access access' ∧ ∀ m, lineMark line = some m → m ∈ access'.marks := by
  have h := kfileLine_ok h
  cases hm : lineMark line with
  | none =>
    rw [hm] at h
    obtain rfl : access = access' := Except.ok.inj h
    exact ⟨.refl hok, by simp⟩
  | some m =>
    rw [hm] at h
    have hmem := hline m hm
    have hname := nulFree_of_lineMark hm
    obtain ⟨descends, name⟩ := m
    have hdone : Reading fopen start access access' ∧ ⟨descends, name⟩ ∈ access'.marks := by
      cases descends with
      | true => exact kfileCommand_reading hread hok hname hkfile hmem h
      | false => exact kfileTranscript_reading hok hname hkfile hmem h
    refine ⟨hdone.1, fun m' hm' => ?_⟩
    rw [← Option.some.inj hm']
    exact hdone.2

theorem kfileLines_reading {readKfile : CStr → Access → Except KfileError Access}
    (hread : Visits fopen start readKfile) {kfile : CStr}
    (hkfile : Reaches (marksOf fopen) start kfile) {lines : List (List Byte)} {linenum : Nat}
    {access access' : Access} (hok : access.Ok)
    (hlines : ∀ line ∈ lines, ∀ m, lineMark line = some m → m ∈ marksOf fopen kfile)
    (h : kfileLines readKfile kfile linenum lines access = .ok access') :
    Reading fopen start access access' ∧
      ∀ line ∈ lines, ∀ m, lineMark line = some m → m ∈ access'.marks := by
  induction lines generalizing linenum access with
  | nil =>
    obtain rfl : access = access' := Except.ok.inj h
    exact ⟨.refl hok, by simp⟩
  | cons line lines ih =>
    rw [kfileLines] at h
    split at h
    · cases h
    · next between hbetween =>
      obtain ⟨hfirst, hmark⟩ := kfileLine_reading hread hok hkfile
        (hlines line List.mem_cons_self) hbetween
      obtain ⟨hrest, hmarks⟩ := ih hfirst.ok
        (fun line hline => hlines line (List.mem_cons_of_mem _ hline)) h
      refine ⟨hfirst.trans hrest, fun line' hline' m hm => ?_⟩
      rcases List.mem_cons.mp hline' with rfl | hline'
      · exact hrest.grows.subset (hmark m hm)
      · exact hmarks line' hline' m hm

theorem readKfile_visits (fuel : Nat) : Visits fopen start (readKfile fopen fuel) := by
  induction fuel with
  | zero =>
    intro kfile access access' _ _ h
    cases h
  | succ fuel ih =>
    intro kfile access access' hkfile hok h
    rw [readKfile] at h
    split_ifs at h
    split at h
    · cases h
    · next content hcontent =>
      have hmarks : marksOf fopen kfile = kfileMarks content := by rw [marksOf, hcontent]
      obtain ⟨hreading, hvisited⟩ := kfileLines_reading ih hkfile hok
        (fun line hline m hm => by
          rw [hmarks]
          exact List.mem_filterMap.mpr ⟨line, hline, hm⟩) h
      refine ⟨hreading, fun m hm => ?_⟩
      rw [hmarks] at hm
      obtain ⟨line, hline, hm⟩ := List.mem_filterMap.mp hm
      exact hvisited line hline m hm

/-! ## The end of the reading -/

/-- The names on the lines of some files. -/
def namesOf (contents : List (List Byte)) : Finset CStr :=
  ((contents.flatMap kfileMarks).map Mark.name).toFinset

theorem mem_namesOf {contents : List (List Byte)} {content line : List Byte} {m : Mark CStr}
    (hcontent : content ∈ contents) (hline : line ∈ fileLines content)
    (hm : lineMark line = some m) : m.name ∈ namesOf contents := by
  refine List.mem_toFinset.mpr (List.mem_map_of_mem (List.mem_flatMap.mpr ⟨content, hcontent, ?_⟩))
  exact List.mem_filterMap.mpr ⟨line, hline, hm⟩

/-- Enough fuel to read a command file while this many names are not on the list. -/
def Suffices (names : Finset CStr) (unread : Nat)
    (readKfile : CStr → Access → Except KfileError Access) : Prop :=
  ∀ kfile access, access.Ok → (unmarked names access.marks).card < unread →
    readKfile kfile access ≠ .error .outOfFuel

theorem kfileMark_ne_outOfFuel {readKfile : CStr → Access → Except KfileError Access}
    {names : Finset CStr} {unread : Nat} (hread : Suffices names unread readKfile)
    {access : Access} (hok : access.Ok) (hunread : (unmarked names access.marks).card ≤ unread)
    {m : Mark CStr} (hname : NulFree m.name) (hm : m.name ∈ names) :
    kfileMark readKfile access (some m) ≠ .error .outOfFuel := by
  obtain ⟨descends, name⟩ := m
  cases descends with
  | false =>
    show kfileTranscript name access ≠ _
    unfold kfileTranscript
    split_ifs
    · simp
    · split
      · simp
      · simp
  | true =>
    show kfileCommand readKfile name access ≠ _
    unfold kfileCommand
    split_ifs with hcheck
    · simp
    · split
      · simp
      · next list hlist =>
        have hnot : ¬ Marked access.marks name := fun h => hcheck ((hok.check hname).mpr h)
        refine hread name _ (hok.insert (m := ⟨true, name⟩) hname hlist) ?_
        exact Nat.lt_of_lt_of_le (card_unmarked_lt hm hnot true) hunread

theorem kfileLines_ne_outOfFuel {readKfile : CStr → Access → Except KfileError Access}
    {names : Finset CStr} {unread : Nat} (hread : Suffices names unread readKfile) {kfile : CStr}
    (hvisits : Visits fopen kfile readKfile) {lines : List (List Byte)} {linenum : Nat}
    {access : Access} (hok : access.Ok) (hunread : (unmarked names access.marks).card ≤ unread)
    (hlines : ∀ line ∈ lines, ∀ m, lineMark line = some m →
      m ∈ marksOf fopen kfile ∧ m.name ∈ names) :
    kfileLines readKfile kfile linenum lines access ≠ .error .outOfFuel := by
  induction lines generalizing linenum access with
  | nil => simp [kfileLines]
  | cons line lines ih =>
    have hline := hlines line List.mem_cons_self
    rw [kfileLines]
    split
    · next e he =>
      intro h
      obtain rfl : e = .outOfFuel := Except.error.inj h
      rcases kfileLine_eq readKfile kfile (linenum + 1) line access with heq | ⟨e, he', hne⟩
      · rw [he] at heq
        cases hm : lineMark line with
        | none =>
          rw [hm] at heq
          cases heq
        | some m =>
          rw [hm] at heq
          exact kfileMark_ne_outOfFuel hread hok hunread (nulFree_of_lineMark hm) (hline m hm).2
            heq.symm
      · rw [he] at he'
        exact hne (Except.error.inj he').symm
    · next between hbetween =>
      obtain ⟨hreading, -⟩ := kfileLine_reading hvisits hok .start (fun m hm => (hline m hm).1)
        hbetween
      refine ih hreading.ok ?_ fun line hline => hlines line (List.mem_cons_of_mem _ hline)
      exact (Finset.card_le_card (unmarked_subset fun _ => hreading.grows.subset)).trans hunread

/-- Every visit puts a new name on the list, so a list that can have only finitely many
names bounds how deep the reading goes. -/
theorem readKfile_ne_outOfFuel {contents : List (List Byte)}
    (hfinite : ∀ path content, fopen path = some content → content ∈ contents) (fuel : Nat) :
    Suffices (namesOf contents) fuel (readKfile fopen fuel) := by
  induction fuel with
  | zero =>
    intro kfile access _ h
    exact absurd h (Nat.not_lt_zero _)
  | succ fuel ih =>
    intro kfile access hok hunread
    rw [readKfile]
    split_ifs
    · simp
    · split
      · simp
      · next content hcontent =>
        refine kfileLines_ne_outOfFuel ih (readKfile_visits fuel) hok (Nat.le_of_lt_succ hunread)
          fun line hline m hm => ⟨?_, mem_namesOf (hfinite _ _ hcontent) hline hm⟩
        rw [marksOf, hcontent]
        exact List.mem_filterMap.mpr ⟨line, hline, hm⟩

/-- The reading ends, and what it grants is all that the command files name exactly where
every command file whose name stood on a 'p' or 'n' line first leads only to names that
are on other lines too. -/
theorem access_list_iff (fopen : CStr → Option (List Byte)) (base : CStr)
    (contents : List (List Byte))
    (hfinite : ∀ path content, fopen path = some content → content ∈ contents) :
    (∃ fuel, ∀ fuel' ≥ fuel, readKfile fopen fuel' base .new ≠ .error .outOfFuel) ∧
      ∀ fuel access, readKfile fopen fuel base .new = .ok access →
        ((∀ name, name ∈ access.list ↔ Named (marksOf fopen) base name) ↔
          ∀ kfile, ⟨true, kfile⟩ ∈ access.marks → Hidden access.marks kfile →
            ∀ name, Named (marksOf fopen) kfile name → Marked access.marks name) := by
  constructor
  · refine ⟨(unmarked (namesOf contents) []).card + 1, fun fuel hfuel => ?_⟩
    exact readKfile_ne_outOfFuel hfinite fuel base .new .new hfuel
  · intro fuel access h
    obtain ⟨hreading, hvisited⟩ := readKfile_visits fuel base .new access .start .new h
    rw [← hreading.grows.marked_iff hvisited]
    exact forall_congr' fun name => by rw [hreading.ok.mem name]

/-- Two command files that include one another. -/
def cyclicFiles (path : CStr) : Option (List Byte) :=
  if path = lit "command/base" then some (lit "k a" ++ [newline] ++ lit "p t" ++ [newline])
  else if path = lit "command/a" then some (lit "k base" ++ [newline] ++ lit "n u" ++ [newline])
  else none

def cyclicAccess : Access where
  list := [lit "a", lit "base", lit "t", lit "u"]
  marks := [⟨true, lit "a"⟩, ⟨true, lit "base"⟩, ⟨true, lit "a"⟩, ⟨false, lit "t"⟩,
    ⟨false, lit "u"⟩, ⟨false, lit "t"⟩]

set_option maxRecDepth 16000 in
theorem access_list_iff_cyclic : readKfile cyclicFiles 4 (lit "base") .new = .ok cyclicAccess ∧
    ∀ name, name ∈ cyclicAccess.list ↔ Named (marksOf cyclicFiles) (lit "base") name := by
  have hfinite : ∀ path content, cyclicFiles path = some content → content ∈
      [lit "k a" ++ [newline] ++ lit "p t" ++ [newline],
        lit "k base" ++ [newline] ++ lit "n u" ++ [newline]] := by
    intro path content h
    unfold cyclicFiles at h
    split_ifs at h
    · simp [← Option.some.inj h]
    · simp [← Option.some.inj h]
  have hread : readKfile cyclicFiles 4 (lit "base") .new = .ok cyclicAccess := by decide +kernel
  refine ⟨hread, ((access_list_iff cyclicFiles (lit "base") _ hfinite).2 4 cyclicAccess hread).mpr
    ?_⟩
  -- no 'k' line has a name of a 'p' or 'n' line
  intro kfile hk hhidden
  obtain ⟨before, after, hmarks, -⟩ := hhidden
  have hp : ⟨false, kfile⟩ ∈ cyclicAccess.marks := by
    rw [hmarks]
    simp
  simp only [cyclicAccess, List.mem_cons, Mark.mk.injEq, List.not_mem_nil, or_false, true_and,
    false_and, false_or, reduceCtorEq] at hk hp
  rcases hk with rfl | rfl | rfl
  · exact absurd hp (by decide)
  · exact absurd hp (by decide)
  · exact absurd hp (by decide)

/-- A name that stands on a 'p' line first, and on a 'k' line below. -/
def hiddenFiles (path : CStr) : Option (List Byte) :=
  if path = lit "command/base" then some (lit "p a" ++ [newline] ++ lit "k a" ++ [newline])
  else if path = lit "command/a" then some (lit "p t" ++ [newline])
  else none

def hiddenAccess : Access := ⟨[lit "a"], [⟨false, lit "a"⟩, ⟨true, lit "a"⟩]⟩

set_option maxRecDepth 16000 in
/-- The command file is not read, and its transcript not granted. -/
theorem access_list_misses :
    readKfile hiddenFiles 3 (lit "base") .new = .ok hiddenAccess ∧
      ¬ ∀ name, name ∈ hiddenAccess.list ↔ Named (marksOf hiddenFiles) (lit "base") name := by
  refine ⟨by decide +kernel, fun h => ?_⟩
  have hbase : ⟨true, lit "a"⟩ ∈ marksOf hiddenFiles (lit "base") := by decide +kernel
  have ha : ⟨false, lit "t"⟩ ∈ marksOf hiddenFiles (lit "a") := by decide +kernel
  have hnamed : Named (marksOf hiddenFiles) (lit "base") (lit "t") :=
    ⟨lit "a", Reaches.start.descend hbase, ⟨false, lit "t"⟩, ha, rfl⟩
  exact absurd ((h (lit "t")).mpr hnamed) (by decide)

end Server
end Radmind
