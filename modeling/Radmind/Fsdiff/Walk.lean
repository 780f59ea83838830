import Radmind.Transcript.Compare

/-!
# The walk over the file system

`fs_walk` passes a directory to `transcript`, and then what is in it: in the order
of the sorted names, or, in a directory of a negative transcript, in the order of
the transcript lines.

The functions return the calls of `transcript` beside the result, so that a run
that exits shows them as well.
-/

namespace Radmind

/-- `strcmp` -/
def strcmp : CStr → CStr → Int
  | [], [] => 0
  | [], b :: _ => -b.toNat
  | a :: _, [] => a.toNat
  | a :: s, b :: t => if a = b then strcmp s t else a.toNat - b.toNat

/-- `strcasecmp` -/
def strcasecmp (s t : CStr) : Int := strcmp (s.map tolower) (t.map tolower)

/-- The comparison `fs_walk` sorts by. -/
def nameCmp (caseSensitive : Bool) : CStr → CStr → Int := if caseSensitive then strcmp else strcasecmp

/-- What `radstat` reports of an object, and what `readlink` gives for it. -/
structure Object where
  st : Stat
  type : FileType
  afinfo : List Byte
  target : CStr
  dir : type = .d ↔ st.isDir = true
  known : type ∉ [.h, .unset]
  target_nulFree : NulFree target
  target_lt : target.length < maxPathLen
  deriving DecidableEq, Repr

/-- The `struct stat` and the type of a path that is not there. -/
def Object.gone (afinfo : List Byte) : Object :=
  ⟨Stat.zero, .X, afinfo, [], by decide, by decide, nulFree_nil, maxPathLen_pos⟩

/-- The results of `radstat`: 0, 1, -1 with ENOENT or ENOTDIR, and -1 with another
error.  Where there is no object `afinfo` is what it was before. -/
inductive RadStat
  | object (o : Object)
  | unknownType
  | gone (afinfo : List Byte)
  | failed
  deriving DecidableEq, Repr

/-- The name of a directory entry. -/
def IsName (name : CStr) : Prop := name ≠ [] ∧ NulFree name ∧ slash ∉ name

instance (name : CStr) : Decidable (IsName name) := inferInstanceAs (Decidable (_ ∧ _ ∧ _))

/-- The file system: what `radstat` says of a path, and the entries `readdir`
returns for a directory, each with what `radstat` says of it there.  There are none
where the directory cannot be read. -/
structure FileSystem where
  radstat : CStr → RadStat
  readdir : CStr → Option (List (CStr × RadStat))
  distinct : ∀ path entries, readdir path = some entries → (entries.map (·.1)).Nodup
  isName : ∀ path entries, readdir path = some entries → ∀ de ∈ entries, IsName de.1

theorem mem_of_lookup {α : Type} {dirs : List (CStr × α)} {path : CStr} {x : α}
    (h : dirs.lookup path = some x) : (path, x) ∈ dirs := by
  obtain ⟨l₁, l₂, rfl, -⟩ := List.lookup_eq_some_iff.mp h
  exact List.mem_append_right _ List.mem_cons_self

/-- The file system with the directories of a table, and nothing else. -/
def FileSystem.ofDirs (radstat : CStr → RadStat) (dirs : List (CStr × List (CStr × RadStat)))
    (h : ∀ dir ∈ dirs, (dir.2.map (·.1)).Nodup ∧ ∀ de ∈ dir.2, IsName de.1) : FileSystem where
  radstat := radstat
  readdir path := dirs.lookup path
  distinct path entries hdir := (h (path, entries) (mem_of_lookup hdir)).1
  isName path entries hdir := (h (path, entries) (mem_of_lookup hdir)).2

/-- `skip` is set by the option -1. -/
structure WalkConfig extends DiffConfig where
  skip : Bool

/-- What ends a walk.  `transcript` stands for an exit of the transcript code. -/
inductive WalkExit
  | transcript (e : Exit)
  | unknownType (path : CStr)
  | systemError (path : CStr)
  | pathTooLong (path : CStr)
  | unexpected
  | outOfFuel
  deriving DecidableEq, Repr

/-- The switch on the result of `radstat`, with the paths the two messages name. -/
def RadStat.found (unknown path : CStr) : RadStat → Except WalkExit Object
  | object o => .ok o
  | unknownType => .error (.unknownType unknown)
  | gone afinfo => .ok (.gone afinfo)
  | failed => .error (.systemError path)

/-- The arguments of `transcript` for an object. -/
def Object.entry (o : Object) (path : CStr) (pdel : Bool) : FsEntry :=
  { path := path, st := o.st, type := o.type, afinfo := o.afinfo, target := o.target
    parentMinus := pdel }

/-- `struct fs_list` -/
structure FsList where
  flName : CStr
  flObject : Object

/-- Where `fs_insert` begins to look: behind the entry inserted last, or at the head
of the list. -/
def insertStart (cmp : CStr → CStr → Int) (head : List FsList) (last : Option Nat) (name : CStr) :
    Nat :=
  match last with
  | none => 0
  | some i =>
    match head[i]? with
    | none => 0
    | some fl => if 0 < cmp name fl.flName then i + 1 else 0

/-- `fs_insert`.  The list is that from `head` on, `last` the place of the entry
inserted before this one. -/
def fsInsert (cmp : CStr → CStr → Int) (head : List FsList) (last : Option Nat) (new : FsList) :
    List FsList × Nat :=
  let current := insertStart cmp head last new.flName
  -- find where in the list to put the new entry
  let before := (head.drop current).takeWhile fun fl => 0 < cmp new.flName fl.flName
  let i := current + before.length
  (head.take i ++ new :: head.drop i, i)

/-- The loop over the directory. -/
def readLoop (cmp : CStr → CStr → Int) (path : CStr) :
    List FsList → Option Nat → List (CStr × RadStat) → Except WalkExit (List FsList)
  | head, _, [] => .ok head
  | head, last, (name, status) :: entries =>
    -- don't include . and ..
    if name = lit "." ∨ name = lit ".." then readLoop cmp path head last entries
    else
      match status.found path path with
      | .error e => .error e
      | .ok o =>
        let (head, new) := fsInsert cmp head last ⟨name, o⟩
        readLoop cmp path head (some new) entries

/-- The sorted list of what is in a directory. -/
def readEntries (caseSensitive : Bool) (fs : FileSystem) (path : CStr) :
    Except WalkExit (List FsList) :=
  match fs.readdir path with
  | none => .error (.systemError path)
  | some entries => readLoop (nameCmp caseSensitive) path [] none entries

/-- The path of an entry of a directory. -/
def childPath (path name : CStr) : CStr :=
  if path.getLast? = some slash then path ++ name else path ++ slash :: name

/-- A call of `transcript`.  `negative` says that the loop on a negative directory
chose the path. -/
structure Visit where
  entry : FsEntry
  negative : Bool
  deriving DecidableEq, Repr

/-- The calls of `transcript`, and the end of the walk. -/
structure Walked where
  visits : List Visit
  result : Except WalkExit Run

/-- A walk that goes on. -/
def Walked.andThen (w : Walked) (next : Run → Walked) : Walked :=
  match w.result with
  | .error e => ⟨w.visits, .error e⟩
  | .ok r => ⟨w.visits ++ (next r).visits, (next r).result⟩

/-- The loop of `fs_walk` on a negative directory.  `walk` is the recursive call. -/
def negativeLoop (cfg : WalkConfig) (fs : FileSystem) (path : CStr) (pdel : Bool)
    (walk : FsEntry → Run → Walked) : Nat → Run → Walked
  | 0, _ => ⟨[], .error .outOfFuel⟩
  | fuel + 1, r =>
    match transcriptSelect cfg.toSelectConfig r.cursors with
    | .error e => ⟨[], .error (.transcript e)⟩
    | .ok (c, i) =>
      match c.tranHead[i]? with
      | none => ⟨[], .error (.transcript .overrun)⟩
      | some tran =>
        if tran.tEof then ⟨[], .ok { r with cursors := c }⟩
        else
          let temp := tran.tPinfo.piName
          if ischildcase temp (some path) cfg.caseSensitive then
            match (fs.radstat temp).found temp path with
            | .error e => ⟨[], .error e⟩
            | .ok o =>
              (walk (o.entry temp pdel) { r with cursors := c }).andThen
                (negativeLoop cfg fs path pdel walk fuel)
          else ⟨[], .ok { r with cursors := c }⟩

/-- The loop over the sorted list. -/
def walkEntries (path : CStr) (delParent : Bool) (walk : FsEntry → Run → Walked) :
    List FsList → Run → Walked
  | [], r => ⟨[], .ok r⟩
  | cur :: next, r =>
    let temp := childPath path cur.flName
    if maxPathLen ≤ temp.length then ⟨[], .error (.pathTooLong temp)⟩
    else (walk (cur.flObject.entry temp delParent) r).andThen
      (walkEntries path delParent walk next)

/-- `fs_walk` on an object with its arguments in `e`.  The fuel bounds the depth of
the recursion and the rounds of the loops. -/
def fsWalk (cfg : WalkConfig) (fs : FileSystem) : Nat → Bool → FsEntry → Run → Walked
  | 0, _, _, _ => ⟨[], .error .outOfFuel⟩
  | fuel + 1, negative, e, r =>
    match transcript cfg.toDiffConfig r (some e) with
    | .error x => ⟨[⟨e, negative⟩], .error (.transcript x)⟩
    | .ok (r, 2) =>
      Walked.andThen ⟨[⟨e, negative⟩], .ok r⟩
        (negativeLoop cfg fs e.path e.parentMinus (fsWalk cfg fs fuel true) fuel)
    | .ok (r, 0) => ⟨[⟨e, negative⟩], .ok r⟩
    | .ok (r, 1) =>
      if cfg.skip then ⟨[⟨e, negative⟩], .ok r⟩
      else
        match readEntries cfg.caseSensitive fs e.path with
        | .error x => ⟨[⟨e, negative⟩], .error x⟩
        | .ok entries =>
          Walked.andThen ⟨[⟨e, negative⟩], .ok r⟩
            (walkEntries e.path r.printer.fsMinus (fsWalk cfg fs fuel false) entries)
    | .ok _ => ⟨[⟨e, negative⟩], .error .unexpected⟩

/-- The walk of `fsdiff` from its start path, and the end of the transcripts in
`transcript_free`. -/
def fsdiff (cfg : WalkConfig) (fs : FileSystem) (fuel : Nat) (path : CStr) (r : Run) : Walked :=
  match fs.radstat path with
  | .object o =>
    (fsWalk cfg fs fuel false (o.entry path false) r).andThen fun r =>
      match transcript cfg.toDiffConfig r none with
      | .error e => ⟨[], .error (.transcript e)⟩
      | .ok (r, _) => ⟨[], .ok r⟩
  | _ => ⟨[], .error (.systemError path)⟩

@[simp] theorem Walked.andThen_ok (visits : List Visit) (r : Run) (next : Run → Walked) :
    Walked.andThen ⟨visits, .ok r⟩ next = ⟨visits ++ (next r).visits, (next r).result⟩ := rfl

@[simp] theorem Walked.andThen_error (visits : List Visit) (e : WalkExit) (next : Run → Walked) :
    Walked.andThen ⟨visits, .error e⟩ next = ⟨visits, .error e⟩ := rfl

/-! ## A round of the loop on a negative directory -/

/-- The loop goes round with the cursors `c`, on the line of the transcript `t` at `i` and
the object `o` of its path. -/
structure Pass (cfg : WalkConfig) (fs : FileSystem) (path : CStr) (r : Run) (c : Cursors) (i : Nat)
    (t : Transcript) (o : Object) : Prop where
  select : transcriptSelect cfg.toSelectConfig r.cursors = .ok (c, i)
  get : c.tranHead[i]? = some t
  line : t.tEof = false
  child : ischildcase t.tPinfo.piName (some path) cfg.caseSensitive = true
  found : (fs.radstat t.tPinfo.piName).found t.tPinfo.piName path = .ok o

/-- The loop stops with `result`. -/
structure Stop (cfg : WalkConfig) (r : Run) (result : Except WalkExit Run) : Prop where
  ok : ∀ r', result = .ok r' → ∃ i, transcriptSelect cfg.toSelectConfig r.cursors = .ok (r'.cursors, i)
  ended : result ≠ .error .outOfFuel ∧ result ≠ .error (.transcript .outOfFuel)

section

variable {cfg : WalkConfig} {fs : FileSystem} {path : CStr} {r : Run}

theorem Pass.round {c : Cursors} {i : Nat} {t : Transcript} {o : Object}
    (h : Pass cfg fs path r c i t o) (pdel : Bool) (walk : FsEntry → Run → Walked) (n : Nat) :
    negativeLoop cfg fs path pdel walk (n + 1) r =
      (walk (o.entry t.tPinfo.piName pdel) { r with cursors := c }).andThen
        (negativeLoop cfg fs path pdel walk n) := by
  rw [negativeLoop]
  simp only [h.select, h.get, h.line, h.child, h.found, Bool.false_eq_true, if_false, if_true]

/-- What a round can do. -/
theorem negativeLoop_cases (cfg : WalkConfig) (fs : FileSystem) (path : CStr) (pdel : Bool)
    (r : Run) :
    (∃ result, Stop cfg r result ∧
      ∀ walk n, negativeLoop cfg fs path pdel walk (n + 1) r = ⟨[], result⟩) ∨
    ∃ c i t o, Pass cfg fs path r c i t o := by
  cases hsel : transcriptSelect cfg.toSelectConfig r.cursors with
  | error x =>
    refine .inl ⟨.error (.transcript x), ⟨by simp, by simp, fun h => ?_⟩, fun walk n => ?_⟩
    · obtain rfl := WalkExit.transcript.inj (Except.error.inj h)
      exact transcriptSelect_terminates _ _ hsel
    · simp only [negativeLoop, hsel]
  | ok selected =>
    obtain ⟨c, i⟩ := selected
    have hstop : Stop cfg r (.ok { r with cursors := c }) := by
      refine ⟨fun r' h => ?_, by simp, by simp⟩
      obtain rfl := Except.ok.inj h
      exact ⟨i, hsel⟩
    cases hget : c.tranHead[i]? with
    | none =>
      exact .inl ⟨.error (.transcript .overrun), ⟨by simp, by simp, by simp⟩,
        fun walk n => by simp only [negativeLoop, hsel, hget]⟩
    | some t =>
      cases heof : t.tEof with
      | true =>
        exact .inl ⟨_, hstop, fun walk n => by simp only [negativeLoop, hsel, hget, heof, if_true]⟩
      | false =>
        cases hchild : ischildcase t.tPinfo.piName (some path) cfg.caseSensitive with
        | false =>
          exact .inl ⟨_, hstop, fun walk n => by
            simp only [negativeLoop, hsel, hget, heof, hchild, Bool.false_eq_true, if_false]⟩
        | true =>
          cases ho : (fs.radstat t.tPinfo.piName).found t.tPinfo.piName path with
          | ok o => exact .inr ⟨c, i, t, o, hsel, hget, heof, hchild, ho⟩
          | error x =>
            have hx : x ≠ .outOfFuel ∧ x ≠ .transcript .outOfFuel := by
              unfold RadStat.found at ho
              split at ho <;> simp at ho <;> simp [← ho]
            exact .inl ⟨.error x, ⟨by simp, by simpa using hx.1, by simpa using hx.2⟩,
              fun walk n => by
                simp only [negativeLoop, hsel, hget, heof, hchild, ho, Bool.false_eq_true,
                  if_false, if_true]⟩

end

end Radmind
