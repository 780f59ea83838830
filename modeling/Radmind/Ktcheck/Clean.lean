import Radmind.CommandFile
import Radmind.Fsdiff.Walk
import Radmind.Mkdirs

/-!
# The cleaning of the client directory

With -C ktcheck removes what no command file names.  `cleandirs` goes down the directories and
compares the name it came by with the names in the command files, byte by byte.  Another spelling of
the same path is another name.
-/

namespace Radmind
namespace Ktcheck

/-- The client directory.  An object is given by the names on the way to it; `isDir` is `none` where
there is no object.  `names` are the entries of a directory other than '.' and '..', in the order of
`readdir`. -/
structure ClientDir where
  isDir : List CStr → Option Bool
  names : List CStr → List CStr
  depth : Nat
  root : isDir [] = some true
  mem_names : ∀ q n, n ∈ names q ↔ isDir (q ++ [n]) ≠ none
  above : ∀ q n, isDir (q ++ [n]) ≠ none → isDir q = some true
  bounded : ∀ q, isDir q ≠ none → q.length ≤ depth

/-- Which of the calls succeed. -/
structure CleanCalls where
  opendir : CStr → Bool
  closedir : CStr → Bool
  lstat : CStr → Bool
  unlink : CStr → Bool

structure CleanSettings where
  baseKfile : CStr
  caseSensitive : Bool

/-- `kdir` -/
def CleanSettings.kdir (cfg : CleanSettings) : CStr :=
  match Mkdirs.lastIdx slash cfg.baseKfile with
  -- No '/' in kfile - use working directory
  | none => lit "./"
  | some p => cfg.baseKfile.take (p + 1)

/-- `kdir` without its slash. -/
def CleanSettings.dir (cfg : CleanSettings) : CStr :=
  match Mkdirs.lastIdx slash cfg.kdir with
  | none => cfg.kdir
  | some p => cfg.kdir.take p

variable (client : ClientDir) (calls : CleanCalls) (cfg : CleanSettings)

/-- `ll_insert` -/
def llInsert {α : Type} (llName : α → CStr) (new : α) : List α → List α
  | [] => [new]
  | cur :: rest =>
    if strcmp (llName new) (llName cur) ≤ 0 then new :: cur :: rest
    else cur :: llInsert llName new rest

/-! ## The command files -/

/-- A line of `expand_kfile`: no path where there is none on the line. -/
def expandLine (buf : List Byte) : Option (Option CStr) :=
  if (cstr buf).getLast? ≠ some newline then none
  -- skip comments, special and minus lines
  else if buf.head? = some hash ∨ buf.head? = some 115 ∨ buf.head? = some minus then some none
  else
    match lineWords buf with
    | [] => some none
    | tav =>
      -- what `printf` writes for a word that is not there
      let path := cfg.kdir ++ tav.getD 1 (lit "(null)")
      if path.length ≥ maxPathLen then none else some (some path)

def expandLines : List (List Byte) → List CStr → Option (List CStr)
  | [], khead => some khead
  | buf :: bufs, khead =>
    match expandLine cfg buf with
    | none => none
    | some none => expandLines bufs khead
    | some (some path) => expandLines bufs (llInsert id path khead)

/-- `expand_kfile`, for what the file holds.  No result stands for `exit( 2 )`. -/
def expandKfile (khead : List CStr) (content : Option (List Byte)) : Option (List CStr) :=
  match content with
  | none => none
  | some content => expandLines cfg (fileLines content) khead

/-! ## The directories -/

/-- The path by which `cleandirs` comes to an object. -/
def itemPath (dir : CStr) (q : List CStr) : CStr := dir ++ q.flatMap (slash :: ·)

/-- dotfiles and the special transcript -/
def isDotOrSpecial (name : CStr) : Bool := name.head? = some 46 ∨ name = lit "special.T"

/-- The base command file.  The second case is the one of a base command file without a slash. -/
def CleanSettings.isBase (path name : CStr) : Bool :=
  path ++ slash :: name = cfg.baseKfile ∨ hasPrefix path cfg.kdir ∧ cfg.baseKfile = name

/-- The first loop of `cleandirs`: the names to look at, unless one is too long. -/
def listItems (path : CStr) : List CStr → List CStr → Option (List CStr)
  | [], head => some head
  | name :: names, head =>
    if isDotOrSpecial name then listItems path names head
    else if (path ++ slash :: name).length ≥ maxPathLen then none
    else if cfg.isBase path name then listItems path names head
    else listItems path names (llInsert (fun name => path ++ slash :: name) name head)

/-- Some name of the command files is the one of the item, or is below it. -/
def matched (khead : List CStr) (item : CStr) : Bool :=
  khead.any fun kname =>
    cfg.caseSensitive && item = kname || !cfg.caseSensitive && strcaseeq item kname ||
      ischildcase kname (some item) cfg.caseSensitive

/-- The second loop of `cleandirs`: the objects that are removed. -/
def cleanLoop (khead : List CStr) (below : CStr → List (List CStr)) (path : CStr)
    (q : List CStr) : List CStr → List (List CStr)
  | [] => []
  | name :: names =>
    let item := path ++ slash :: name
    if !calls.lstat item then []
    else if !matched cfg khead item then
      if client.isDir (q ++ [name]) = some true then
        (q ++ [name]) :: cleanLoop khead below path q names
      else if calls.unlink item then (q ++ [name]) :: cleanLoop khead below path q names
      else []
    else if client.isDir (q ++ [name]) = some true then
      below name ++ cleanLoop khead below path q names
    else cleanLoop khead below path q names

/-- `cleandirs`: the objects it removes, those of a directory with all below it. -/
def cleandirs (khead : List CStr) : Nat → CStr → List CStr → List (List CStr)
  | 0, _, _ => []
  | fuel + 1, path, q =>
    if !calls.opendir path then []
    else
      match listItems cfg path (client.names q) [] with
      | none => []
      | some head =>
        if !calls.closedir path then []
        else
          cleanLoop client calls cfg khead
            (fun name => cleandirs khead fuel (path ++ slash :: name) (q ++ [name])) path q head

/-- The list of `clean_client_dir`. -/
def expandAll (content : CStr → Option (List Byte)) (kfiles : List CStr) : Option (List CStr) :=
  kfiles.foldlM (fun khead kfile => expandKfile cfg khead (content kfile)) []

/-- `clean_client_dir`: what it removes.  `kfileSeen` are the command files that were read below the
base command file. -/
def cleanClientDir (content : CStr → Option (List Byte)) (kfileSeen : List CStr) :
    List (List CStr) :=
  match expandAll cfg content (cfg.baseKfile :: kfileSeen) with
  | none => []
  | some khead => cleandirs client calls cfg khead (client.depth + 1) cfg.dir []

/-! ## What is in use -/

/-- The path `read_kfile` takes from a 'k', 'p' or 'n' line. -/
def linePath (line : List Byte) : Option CStr :=
  match lineWords line with
  | [word, file] =>
    if word.head? = some 107 ∨ word.head? = some 112 ∨ word.head? = some 110 then
      some (cfg.kdir ++ file)
    else none
  | _ => none

/-- The paths of the files in use: the base command file, and what the lines of the command files
name. -/
def InUse (content : CStr → Option (List Byte)) (kfileSeen : List CStr) (path : CStr) : Prop :=
  path = cfg.baseKfile ∨ ∃ kfile ∈ cfg.baseKfile :: kfileSeen, ∃ text, content kfile = some text ∧
    ∃ line ∈ fileLines text, linePath cfg line = some path

/-- No object is removed that is a file in use, or holds one, or is `special.T`.  `locate` is the
object the system opens for a path, where it is one of the client directory. -/
def KeepsInUse (locate : CStr → Option (List CStr)) (content : CStr → Option (List Byte))
    (kfileSeen : List CStr) (removed : List (List CStr)) : Prop :=
  ∀ p ∈ removed, ¬ p <+: [lit "special.T"] ∧
    ∀ path file, InUse cfg content kfileSeen path → locate path = some file →
      client.isDir file = some false → ¬ p <+: file

/-- The entry of a directory is passed over by its name. -/
def Skipped (q : List CStr) (name : CStr) : Prop :=
  isDotOrSpecial name = true ∨ cfg.isBase (itemPath cfg.dir q) name = true

/-- A directory with an entry whose path is too long is left alone. -/
def TooLong (q : List CStr) : Prop :=
  ∃ name ∈ client.names q, isDotOrSpecial name = false ∧
    maxPathLen ≤ (itemPath cfg.dir q ++ slash :: name).length

/-- Down to the file, or to what `cleandirs` passes over, the name of each object is one that the
command files name or go through. -/
def Spared (khead file : List CStr) : Prop :=
  ∀ q name, q ++ [name] <+: file → matched cfg khead (itemPath cfg.dir (q ++ [name])) = true ∨
    ∃ q' name', q' ++ [name'] <+: q ++ [name] ∧ (Skipped cfg q' name' ∨ TooLong client cfg q')

section

variable {client calls cfg} {khead : List CStr} {path : CStr} {q : List CStr}

theorem mem_llInsert {α : Type} {llName : α → CStr} {new a : α} {list : List α} :
    a ∈ llInsert llName new list ↔ a = new ∨ a ∈ list := by
  induction list with
  | nil => rw [llInsert, List.mem_singleton, or_iff_left List.not_mem_nil]
  | cons cur rest ih =>
    rw [llInsert]
    split
    · exact List.mem_cons
    · rw [List.mem_cons, ih, List.mem_cons]
      exact or_left_comm

theorem itemPath_append (dir : CStr) (q : List CStr) (name : CStr) :
    itemPath dir (q ++ [name]) = itemPath dir q ++ slash :: name := by
  simp [itemPath]

/-- The loop over the entries stops just for one that is too long. -/
theorem listItems_eq_none {names head : List CStr} (h : listItems cfg path names head = none) :
    ∃ name ∈ names, isDotOrSpecial name = false ∧ maxPathLen ≤ (path ++ slash :: name).length := by
  induction names generalizing head with
  | nil => cases h
  | cons name names ih =>
    rw [listItems] at h
    split_ifs at h with hdot hlong hbase
    · obtain ⟨n, hn, hrest⟩ := ih h
      exact ⟨n, List.mem_cons_of_mem _ hn, hrest⟩
    · exact ⟨name, List.mem_cons_self, Bool.eq_false_of_not_eq_true hdot, hlong⟩
    · obtain ⟨n, hn, hrest⟩ := ih h
      exact ⟨n, List.mem_cons_of_mem _ hn, hrest⟩
    · obtain ⟨n, hn, hrest⟩ := ih h
      exact ⟨n, List.mem_cons_of_mem _ hn, hrest⟩

/-- What it collects are the entries it does not pass over, none of which is too long. -/
theorem listItems_eq_some {names head items : List CStr}
    (h : listItems cfg path names head = some items) :
    (∀ name, name ∈ items ↔ name ∈ head ∨
      name ∈ names ∧ isDotOrSpecial name = false ∧ cfg.isBase path name = false) ∧
    ∀ name ∈ names, isDotOrSpecial name = false → (path ++ slash :: name).length < maxPathLen := by
  induction names generalizing head with
  | nil =>
    cases h
    exact ⟨fun name => by simp, fun name hname => absurd hname List.not_mem_nil⟩
  | cons name names ih =>
    rw [listItems] at h
    split_ifs at h with hdot hlong hbase
    · obtain ⟨hmem, hlen⟩ := ih h
      refine ⟨fun n => ?_, fun n hn hn' => ?_⟩
      · rw [hmem, List.mem_cons]
        constructor
        · exact Or.imp_right fun h => ⟨.inr h.1, h.2⟩
        · rintro (hn | ⟨rfl | hn, hdot', hbase⟩)
          · exact .inl hn
          · rw [hdot] at hdot'
            cases hdot'
          · exact .inr ⟨hn, hdot', hbase⟩
      · rcases List.mem_cons.mp hn with rfl | hn
        · rw [hdot] at hn'
          cases hn'
        · exact hlen n hn hn'
    · obtain ⟨hmem, hlen⟩ := ih h
      refine ⟨fun n => ?_, fun n hn hn' => ?_⟩
      · rw [hmem, List.mem_cons]
        constructor
        · exact Or.imp_right fun h => ⟨.inr h.1, h.2⟩
        · rintro (hn | ⟨rfl | hn, hdot', hbase'⟩)
          · exact .inl hn
          · rw [hbase] at hbase'
            cases hbase'
          · exact .inr ⟨hn, hdot', hbase'⟩
      · rcases List.mem_cons.mp hn with rfl | hn
        · exact Nat.lt_of_not_le hlong
        · exact hlen n hn hn'
    · obtain ⟨hmem, hlen⟩ := ih h
      refine ⟨fun n => ?_, fun n hn hn' => ?_⟩
      · rw [hmem, mem_llInsert, List.mem_cons]
        constructor
        · rintro ((rfl | hn) | ⟨hn, hrest⟩)
          · exact .inr ⟨.inl rfl, Bool.eq_false_of_not_eq_true hdot, Bool.eq_false_of_not_eq_true hbase⟩
          · exact .inl hn
          · exact .inr ⟨.inr hn, hrest⟩
        · rintro (hn | ⟨rfl | hn, hrest⟩)
          · exact .inl (.inr hn)
          · exact .inl (.inl rfl)
          · exact .inr ⟨hn, hrest⟩
      · rcases List.mem_cons.mp hn with rfl | hn
        · exact Nat.lt_of_not_le hlong
        · exact hlen n hn hn'

/-- Whatever calls fail, only an item that nothing matches is removed, or something in a matched
directory. -/
theorem mem_cleanLoop {below : CStr → List (List CStr)} {names : List CStr} {p : List CStr}
    (h : p ∈ cleanLoop client calls cfg khead below path q names) :
    ∃ name ∈ names, if matched cfg khead (path ++ slash :: name) then p ∈ below name
      else p = q ++ [name] := by
  induction names with
  | nil => cases h
  | cons name names ih =>
    have hrest : p ∈ cleanLoop client calls cfg khead below path q names →
        ∃ n ∈ name :: names, if matched cfg khead (path ++ slash :: n) then p ∈ below n
          else p = q ++ [n] := by
      intro h
      obtain ⟨n, hn, hp⟩ := ih h
      exact ⟨n, List.mem_cons_of_mem _ hn, hp⟩
    have hhead : matched cfg khead (path ++ slash :: name) = false → p = q ++ [name] →
        ∃ n ∈ name :: names, if matched cfg khead (path ++ slash :: n) then p ∈ below n
          else p = q ++ [n] := by
      intro hno hp
      refine ⟨name, List.mem_cons_self, ?_⟩
      rw [hno]
      exact hp
    rw [cleanLoop] at h
    split_ifs at h with hlstat hmatch hdir hunlink hdir
    · cases h
    · rw [Bool.not_eq_true'] at hmatch
      rcases List.mem_cons.mp h with hp | h
      · exact hhead hmatch hp
      · exact hrest h
    · rw [Bool.not_eq_true'] at hmatch
      rcases List.mem_cons.mp h with hp | h
      · exact hhead hmatch hp
      · exact hrest h
    · cases h
    · rcases List.mem_append.mp h with hp | h
      · refine ⟨name, List.mem_cons_self, ?_⟩
        rw [if_pos (by simpa using hmatch)]
        exact hp
      · exact hrest h
    · exact hrest h

/-- The calls of a system without errors. -/
def allCalls : CleanCalls := ⟨fun _ => true, fun _ => true, fun _ => true, fun _ => true⟩

/-- Without errors every item that nothing matches is removed, and every matched directory is
cleaned. -/
theorem cleanLoop_all {below : CStr → List (List CStr)} {names : List CStr} {name : CStr}
    {p : List CStr} (hname : name ∈ names)
    (h : if matched cfg khead (path ++ slash :: name) then
      client.isDir (q ++ [name]) = some true ∧ p ∈ below name else p = q ++ [name]) :
    p ∈ cleanLoop client allCalls cfg khead below path q names := by
  induction names with
  | nil => cases hname
  | cons n names ih =>
    rw [cleanLoop]
    rcases List.mem_cons.mp hname with rfl | hname
    · cases hmatch : matched cfg khead (path ++ slash :: name) with
      | false =>
        rw [hmatch] at h
        simp only [allCalls, Bool.not_true, Bool.false_eq_true, if_false, Bool.not_false, if_true]
        split
        · exact List.mem_cons.mpr (.inl h)
        · exact List.mem_cons.mpr (.inl h)
      | true =>
        rw [hmatch] at h
        obtain ⟨hdir, hp⟩ := h
        simp only [allCalls, Bool.not_true, Bool.false_eq_true, if_false, hdir, if_true]
        exact List.mem_append_left _ hp
    · have hrest := ih hname
      simp only [allCalls, Bool.not_true, Bool.false_eq_true, if_false, if_true]
      simp only [allCalls] at hrest
      split_ifs
      · exact List.mem_cons_of_mem _ hrest
      · exact List.mem_cons_of_mem _ hrest
      · exact List.mem_append_right _ hrest
      · exact hrest

/-- Of two ways down to an object that share `q`, the longer goes on through the name behind it. -/
theorem prefix_cases {q q' p : List CStr} {name name' : CStr} (hq : q <+: q')
    (hq' : q' ++ [name'] <+: p) (hp : q ++ [name] <+: p) :
    q' = q ∧ name' = name ∨ q ++ [name] <+: q' := by
  obtain ⟨r, rfl⟩ := hq
  cases r with
  | nil =>
    rw [List.append_nil] at hq' ⊢
    have heq : q ++ [name'] = q ++ [name] :=
      (List.prefix_of_prefix_length_le hq' hp (by simp)).eq_of_length (by simp)
    exact .inl ⟨rfl, List.singleton_inj.mp (List.append_cancel_left heq)⟩
  | cons m r =>
    have hm : q ++ [m] <+: p := by
      refine List.IsPrefix.trans ?_ hq'
      exact ⟨r ++ [name'], by simp⟩
    have heq : q ++ [m] = q ++ [name] :=
      (List.prefix_of_prefix_length_le hm hp (by simp)).eq_of_length (by simp)
    rw [← heq]
    exact .inr ⟨r, by simp⟩

/-- What is removed is matched by nothing, and nothing on the way down to it is passed over. -/
theorem mem_cleandirs {fuel : Nat} {p : List CStr}
    (h : p ∈ cleandirs client calls cfg khead fuel (itemPath cfg.dir q) q) :
    ∃ r name, p = q ++ r ++ [name] ∧ matched cfg khead (itemPath cfg.dir p) = false ∧
      ∀ q' name', q <+: q' → q' ++ [name'] <+: p →
        ¬ (Skipped cfg q' name' ∨ TooLong client cfg q') := by
  induction fuel generalizing q with
  | zero => cases h
  | succ fuel ih =>
    rw [cleandirs] at h
    split at h
    · cases h
    split at h
    · cases h
    next head hhead =>
    split at h
    · cases h
    obtain ⟨hmem, hlen⟩ := listItems_eq_some hhead
    obtain ⟨name, hname, hp⟩ := mem_cleanLoop h
    have hitem : isDotOrSpecial name = false ∧ cfg.isBase (itemPath cfg.dir q) name = false := by
      rcases (hmem name).mp hname with hnil | ⟨-, hitem⟩
      · cases hnil
      · exact hitem
    have hhere : ¬ (Skipped cfg q name ∨ TooLong client cfg q) := by
      rintro ((hdot | hbase) | ⟨n, hn, hdot, hlong⟩)
      · rw [hitem.1] at hdot
        cases hdot
      · rw [hitem.2] at hbase
        cases hbase
      · exact absurd (hlen n hn hdot) (Nat.not_lt.mpr hlong)
    rw [← itemPath_append] at hp
    split_ifs at hp with hmatch
    · obtain ⟨r, n, rfl, hno, hpass⟩ := ih hp
      refine ⟨name :: r, n, by simp, hno, fun q' name' hq hq' => ?_⟩
      have hfirst : q ++ [name] <+: q ++ [name] ++ r ++ [n] := ⟨r ++ [n], by simp⟩
      rcases prefix_cases hq hq' hfirst with ⟨rfl, rfl⟩ | hbelow
      · exact hhere
      · exact hpass q' name' hbelow hq'
    · subst hp
      refine ⟨[], name, by simp, Bool.eq_false_of_not_eq_true hmatch, fun q' name' hq hq' => ?_⟩
      rcases prefix_cases hq hq' List.prefix_rfl with ⟨rfl, rfl⟩ | hbelow
      · exact hhere
      · have hlt := (hbelow.trans (List.prefix_append q' [name'])).length_le
        have hle := hq'.length_le
        have hge := hbelow.length_le
        rw [List.length_append, List.length_append] at hle
        rw [List.length_append] at hge
        simp only [List.length_singleton] at hle hge
        omega

/-- What is above an object is a directory. -/
theorem ClientDir.dir_above {r : List CStr} (h : client.isDir (q ++ r) ≠ none) (hr : r ≠ []) :
    client.isDir q = some true := by
  induction r using List.reverseRecOn with
  | nil => exact absurd rfl hr
  | append_singleton r name ih =>
    rw [← List.append_assoc] at h
    have hdir := client.above _ _ h
    cases r with
    | nil => rwa [List.append_nil] at hdir
    | cons m r =>
      refine ih ?_ (List.cons_ne_nil m r)
      rw [hdir]
      exact nofun

/-- Without errors, an object that nothing matches and that is not passed over is removed, by itself
or with a directory above it. -/
theorem cleandirs_removes {fuel : Nat} {rest : List CStr} {name : CStr}
    (hobject : client.isDir (q ++ rest ++ [name]) ≠ none) (hfuel : client.depth < q.length + fuel)
    (hpass : ∀ q' name', q <+: q' → q' ++ [name'] <+: q ++ rest ++ [name] →
      ¬ (Skipped cfg q' name' ∨ TooLong client cfg q'))
    (hno : matched cfg khead (itemPath cfg.dir (q ++ rest ++ [name])) = false) :
    ∃ p ∈ cleandirs client allCalls cfg khead fuel (itemPath cfg.dir q) q,
      p <+: q ++ rest ++ [name] := by
  induction fuel generalizing q rest with
  | zero =>
    have hlen := client.bounded _ hobject
    simp only [List.length_append, List.length_singleton] at hlen
    omega
  | succ fuel ih =>
    obtain ⟨m, rest', hrest⟩ : ∃ m rest', rest ++ [name] = m :: rest' := by
      cases rest with
      | nil => exact ⟨name, [], rfl⟩
      | cons m rest => exact ⟨m, rest ++ [name], rfl⟩
    have hpath : q ++ rest ++ [name] = q ++ [m] ++ rest' := by
      rw [List.append_assoc, hrest]
      simp
    have hfirst : q ++ [m] <+: q ++ rest ++ [name] := by
      rw [hpath]
      exact List.prefix_append _ _
    have hhere := hpass q m List.prefix_rfl hfirst
    have hm : m ∈ client.names q := by
      rw [client.mem_names]
      rcases List.eq_nil_or_concat rest' with rfl | ⟨r, n, rfl⟩
      · rw [hpath, List.append_nil] at hobject
        exact hobject
      · rw [client.dir_above (by rw [← hpath]; exact hobject) (by simp)]
        exact nofun
    rw [cleandirs]
    simp only [allCalls, Bool.not_true, Bool.false_eq_true, if_false]
    cases hhead : listItems cfg (itemPath cfg.dir q) (client.names q) [] with
    | none =>
      obtain ⟨n, hn, hdot, hlong⟩ := listItems_eq_none hhead
      exact absurd (.inr ⟨n, hn, hdot, hlong⟩) hhere
    | some head =>
      have hitem : m ∈ head := by
        refine ((listItems_eq_some hhead).1 m).mpr (.inr ⟨hm, ?_, ?_⟩)
        · exact Bool.eq_false_of_not_eq_true fun h => hhere (.inl (.inl h))
        · exact Bool.eq_false_of_not_eq_true fun h => hhere (.inl (.inr h))
      cases hmatch : matched cfg khead (itemPath cfg.dir q ++ slash :: m) with
      | false =>
        refine ⟨q ++ [m], cleanLoop_all hitem ?_, hfirst⟩
        rw [hmatch]
        exact rfl
      | true =>
        -- the object itself is not matched, so there is more behind this name
        cases rest with
        | nil =>
          obtain ⟨rfl, -⟩ := List.cons.inj hrest
          rw [List.append_nil, itemPath_append, hmatch] at hno
          cases hno
        | cons m' rest =>
          obtain ⟨rfl, -⟩ := List.cons.inj hrest
          have hsplit : q ++ m' :: rest ++ [name] = q ++ [m'] ++ rest ++ [name] := by simp
          rw [hsplit] at hobject hpass hno ⊢
          obtain ⟨p, hp, hpre⟩ := ih hobject (by simp; omega)
            (fun q' name' hq => hpass q' name' ((List.prefix_append q [m']).trans hq)) hno
          refine ⟨p, cleanLoop_all hitem ?_, hpre⟩
          rw [hmatch, ← itemPath_append]
          refine ⟨client.dir_above ?_ (List.append_ne_nil_of_right_ne_nil rest
            (List.cons_ne_nil name [])), hp⟩
          rw [← List.append_assoc]
          exact hobject

/-! ## Names as the directories have them -/

/-- The first word of a line that does not begin with a blank begins as the line does. -/
theorem lineWords_head {c : Byte} {line : List Byte} (hnul : c ≠ nul) (hblank : isBlank [] c = false) :
    ∃ word av, lineWords (c :: line) = word :: av ∧ word.head? = some c := by
  have hparse : acavParse (c :: line ++ [nul]) =
      (c :: (acavLoop [c] true (line ++ [nul])).1,
        (c :: (acavLoop [c] true (line ++ [nul])).1) :: (acavLoop [c] true (line ++ [nul])).2) := by
    rw [acavParse, List.cons_append, acavLoop, if_neg hnul, hblank]
    rfl
  refine ⟨cstr (c :: (acavLoop [c] true (line ++ [nul])).1),
    (acavLoop [c] true (line ++ [nul])).2.map cstr, ?_, ?_⟩
  · rw [lineWords, words, hparse, List.map_cons]
  · rw [cstr_cons hnul]
    rfl

/-- A line that names a file is none that `expand_kfile` passes over. -/
theorem expandLine_linePath {line : List Byte} {path : CStr} {r : Option CStr}
    (hline : linePath cfg line = some path) (h : expandLine cfg line = some r) : r = some path := by
  unfold linePath at hline
  split at hline
  swap
  · cases hline
  next word file hwords =>
  split_ifs at hline with hword
  have hfirst : ∀ c, line.head? = some c → c ≠ nul → isBlank [] c = false →
      word.head? = some c := by
    intro c hc hnul hblank
    obtain ⟨line', rfl⟩ := List.head?_eq_some_iff.mp hc
    obtain ⟨word', av, hword', hhead⟩ := @lineWords_head c line' hnul hblank
    rw [hwords] at hword'
    rw [(List.cons.inj hword').1]
    exact hhead
  unfold expandLine at h
  split_ifs at h with hnewline hskip
  · exfalso
    rcases hskip with hc | hc | hc
    · rw [hfirst _ hc (by decide) (by decide)] at hword
      exact absurd hword (by decide)
    · rw [hfirst _ hc (by decide) (by decide)] at hword
      exact absurd hword (by decide)
    · rw [hfirst _ hc (by decide) (by decide)] at hword
      exact absurd hword (by decide)
  · rw [hwords] at h
    simp only [List.getD_cons_succ, List.getD_cons_zero] at h
    split_ifs at h
    rw [← hline]
    exact (Option.some.inj h).symm

theorem mem_expandLines {bufs : List (List Byte)} {khead khead' : List CStr}
    (h : expandLines cfg bufs khead = some khead') :
    (∀ k ∈ khead, k ∈ khead') ∧
      ∀ line ∈ bufs, ∀ path, linePath cfg line = some path → path ∈ khead' := by
  induction bufs generalizing khead with
  | nil =>
    cases h
    exact ⟨fun _ hk => hk, fun _ hline => absurd hline List.not_mem_nil⟩
  | cons buf bufs ih =>
    rw [expandLines] at h
    cases hbuf : expandLine cfg buf with
    | none =>
      rw [hbuf] at h
      cases h
    | some r =>
      rw [hbuf] at h
      cases r with
      | none =>
        obtain ⟨hold, hnew⟩ := ih h
        refine ⟨hold, fun line hline path hpath => ?_⟩
        rcases List.mem_cons.mp hline with rfl | hline
        · cases expandLine_linePath hpath hbuf
        · exact hnew line hline path hpath
      | some p =>
        obtain ⟨hold, hnew⟩ := ih h
        refine ⟨fun k hk => hold k (mem_llInsert.mpr (.inr hk)), fun line hline path hpath => ?_⟩
        rcases List.mem_cons.mp hline with rfl | hline
        · cases expandLine_linePath hpath hbuf
          exact hold _ (mem_llInsert.mpr (.inl rfl))
        · exact hnew line hline path hpath

/-- Every path a line of the command files names is in the list. -/
theorem mem_expandAll {content : CStr → Option (List Byte)} {kfiles khead khead' : List CStr}
    (h : kfiles.foldlM (fun khead kfile => expandKfile cfg khead (content kfile)) khead =
      some khead') :
    (∀ k ∈ khead, k ∈ khead') ∧ ∀ kfile ∈ kfiles, ∀ text, content kfile = some text →
      ∀ line ∈ fileLines text, ∀ path, linePath cfg line = some path → path ∈ khead' := by
  induction kfiles generalizing khead with
  | nil =>
    cases h
    exact ⟨fun _ hk => hk, fun _ hkfile => absurd hkfile List.not_mem_nil⟩
  | cons kfile kfiles ih =>
    rw [List.foldlM_cons] at h
    obtain ⟨khead₁, hfirst, hrest⟩ := Option.bind_eq_some_iff.mp h
    obtain ⟨hold, hnew⟩ := ih hrest
    cases hcontent : content kfile with
    | none =>
      rw [hcontent] at hfirst
      cases hfirst
    | some text =>
      rw [hcontent] at hfirst
      obtain ⟨hold₁, hnew₁⟩ := mem_expandLines hfirst
      refine ⟨fun k hk => hold k (hold₁ k hk), fun kfile' hkfile text' htext line hline path hpath => ?_⟩
      rcases List.mem_cons.mp hkfile with rfl | hkfile
      · rw [hcontent] at htext
        cases htext
        exact hold _ (hnew₁ line hline path hpath)
      · exact hnew kfile' hkfile text' htext line hline path hpath

theorem ischildcase_append (parent r : CStr) (cs : Bool) (hr : r = [] ∨ ∃ r', r = slash :: r') :
    ischildcase (parent ++ r) (some parent) cs = true := by
  unfold ischildcase
  have hnext : (r.head? = some slash || r.head? = none) = true := by
    rcases hr with rfl | ⟨r', rfl⟩
    · rfl
    · rfl
  simp only [List.length_append]
  rw [if_neg (by omega), List.take_left, List.drop_left]
  split
  · next hroot =>
    rw [hroot]
    rfl
  · cases cs with
    | true => simpa using hnext
    | false => simpa using hnext

/-- A file is spared that is named as `cleandirs` comes to it. -/
theorem spared_of_named {file : List CStr} (h : itemPath cfg.dir file ∈ khead) :
    Spared client cfg khead file := by
  intro q name hpre
  obtain ⟨r, rfl⟩ := hpre
  refine .inl (List.any_eq_true.mpr ⟨_, h, ?_⟩)
  have hpath : itemPath cfg.dir (q ++ [name] ++ r) =
      itemPath cfg.dir (q ++ [name]) ++ r.flatMap (slash :: ·) := by
    rw [itemPath, itemPath, List.flatMap_append, List.append_assoc]
  have hchild : ischildcase (itemPath cfg.dir (q ++ [name] ++ r))
      (some (itemPath cfg.dir (q ++ [name]))) cfg.caseSensitive = true := by
    rw [hpath]
    apply ischildcase_append
    cases r with
    | nil => exact .inl rfl
    | cons m r => exact .inr ⟨m ++ r.flatMap (slash :: ·), rfl⟩
  rw [hchild, Bool.or_true]

/-- So is one that a line names that way. -/
theorem spared_of_line {content : CStr → Option (List Byte)} {kfiles file : List CStr}
    (hkhead : expandAll cfg content kfiles = some khead) {kfile : CStr} (hkfile : kfile ∈ kfiles)
    {text : List Byte} (htext : content kfile = some text) {line : List Byte}
    (hline : line ∈ fileLines text) (hpath : linePath cfg line = some (itemPath cfg.dir file)) :
    Spared client cfg khead file :=
  spared_of_named ((mem_expandAll hkhead).2 kfile hkfile text htext line hline _ hpath)

end

/-! ## What is kept -/

/-- Whatever calls fail, the files in use are kept just where each is named on the way down, or is
passed over.  What `expand_kfile` cannot read it does not clean. -/
theorem clean_keeps_iff (locate : CStr → Option (List CStr)) (content : CStr → Option (List Byte))
    (kfileSeen : List CStr) :
    (∀ calls, KeepsInUse client cfg locate content kfileSeen
      (cleanClientDir client calls cfg content kfileSeen)) ↔
      ∀ khead, expandAll cfg content (cfg.baseKfile :: kfileSeen) = some khead →
        ∀ path file, InUse cfg content kfileSeen path → locate path = some file →
          client.isDir file = some false → Spared client cfg khead file := by
  have hroot : ∀ dir, itemPath dir [] = dir := fun dir => List.append_nil dir
  constructor
  · intro hkeeps khead hkhead path file huse hlocate hfile q name hpre
    by_contra hnot
    rw [not_or, not_exists] at hnot
    have hobject : client.isDir ([] ++ q ++ [name]) ≠ none := by
      obtain ⟨r, rfl⟩ := hpre
      cases r with
      | nil =>
        rw [List.append_nil] at hfile
        rw [List.nil_append, hfile]
        exact nofun
      | cons m r =>
        rw [List.nil_append, client.dir_above (by rw [hfile]; exact nofun) (List.cons_ne_nil m r)]
        exact nofun
    have hdepth : client.depth < ([] : List CStr).length + (client.depth + 1) := by simp
    obtain ⟨p, hp, hprefix⟩ := cleandirs_removes hobject hdepth
      (fun q' name' _ hq' hpass => hnot.2 q' ⟨name', by simpa using hq', hpass⟩)
      (Bool.eq_false_of_not_eq_true hnot.1)
    rw [hroot] at hp
    have hremoved : p ∈ cleanClientDir client allCalls cfg content kfileSeen := by
      rw [cleanClientDir, hkhead]
      exact hp
    refine (hkeeps allCalls p hremoved).2 path file huse hlocate hfile ?_
    rw [List.nil_append] at hprefix
    exact hprefix.trans hpre
  · intro hspared calls p hp
    unfold cleanClientDir at hp
    split at hp
    · cases hp
    next khead hkhead =>
    rw [← hroot cfg.dir] at hp
    obtain ⟨q, name, rfl, hno, hpass⟩ := mem_cleandirs hp
    rw [List.nil_append] at hno hpass ⊢
    refine ⟨fun hspecial => ?_, fun path file huse hlocate hfile hprefix => ?_⟩
    · have hlen := hspecial.length_le
      rw [List.length_append, List.length_singleton, List.length_singleton] at hlen
      obtain rfl : q = [] := List.length_eq_zero_iff.mp (by omega)
      have heq := hspecial.eq_of_length rfl
      obtain rfl := List.singleton_inj.mp heq
      exact hpass [] _ List.prefix_rfl List.prefix_rfl (.inl (.inl (by decide)))
    · rcases hspared khead hkhead path file huse hlocate hfile q name hprefix with
        hmatch | ⟨q', name', hq', hskip⟩
      · rw [hno] at hmatch
        cases hmatch
      · exact hpass q' name' (List.nil_prefix) hq' hskip

/-! ## A name with a dot -/

/-- A client directory with a command file and a transcript. -/
def dotClient : ClientDir where
  isDir q := if q = [] then some true
    else if q = [lit "K"] ∨ q = [lit "t.T"] then some false else none
  names q := if q = [] then [lit "K", lit "t.T"] else []
  depth := 1
  root := rfl
  mem_names q name := by
    by_cases hq : q = []
    · subst hq
      simp [or_iff_not_imp_left]
    · have hne : ∀ k : CStr, q ++ [name] ≠ [k] := by
        intro k h
        have hlen := congrArg List.length h
        rw [List.length_append, List.length_singleton, List.length_singleton] at hlen
        exact hq (List.length_eq_zero_iff.mp (by omega))
      simp [hq, hne]
  above q name h := by
    by_cases hq : q = []
    · exact if_pos hq
    · have hne : ∀ k : CStr, q ++ [name] ≠ [k] := by
        intro k h
        have hlen := congrArg List.length h
        rw [List.length_append, List.length_singleton, List.length_singleton] at hlen
        exact hq (List.length_eq_zero_iff.mp (by omega))
      rw [if_neg (by simp), if_neg (by simp [hne])] at h
      exact absurd rfl h
  bounded q h := by
    split_ifs at h with hq hname
    · subst hq
      exact Nat.zero_le 1
    · rcases hname with rfl | rfl
      · exact Nat.le_refl 1
      · exact Nat.le_refl 1
    · exact absurd rfl h

/-- The names of a path below `/k`, without the empty ones and '.'. -/
def dotLocate (path : CStr) : Option (List CStr) :=
  if hasPrefix (lit "/k/") path then
    some (((path.drop 3).splitOn slash).filter fun name => name ≠ [] ∧ name ≠ lit ".")
  else none

def dotSettings : CleanSettings := ⟨lit "/k/K", true⟩

def dotContent (path : CStr) : Option (List Byte) :=
  if path = lit "/k/K" then some (lit "p ./t.T\n") else none

/-- The transcript `./t.T` is removed under its name `t.T`. -/
theorem not_clean_keeps :
    ¬ KeepsInUse dotClient dotSettings dotLocate dotContent []
      (cleanClientDir dotClient allCalls dotSettings dotContent []) := by
  intro hkeeps
  have hremoved : cleanClientDir dotClient allCalls dotSettings dotContent [] = [[lit "t.T"]] := by
    decide +kernel
  rw [hremoved] at hkeeps
  have huse : InUse dotSettings dotContent [] (lit "/k/./t.T") :=
    .inr ⟨lit "/k/K", List.mem_cons_self, lit "p ./t.T\n", rfl, lit "p ./t.T\n", by decide +kernel,
      by decide +kernel⟩
  exact (hkeeps _ List.mem_cons_self).2 _ [lit "t.T"] huse (by decide +kernel) rfl List.prefix_rfl

end Ktcheck
end Radmind
