import Radmind.Command.Store

/-!
# Making the directories of a path

`mkdirs` on the memory of the path.  It cuts the path at one `/` after the other, from the last one
on, until `mkdir` makes a directory or says that there is something, and then makes the directories
behind that one.
-/

namespace Radmind
namespace Mkdirs

open Server (Errno)

/-! ## The directories of the system -/

/-- What a path names: whether it begins at the root, and its names. -/
structure Loc where
  absolute : Bool
  names : List CStr
  deriving DecidableEq

def Loc.root : Loc := ⟨true, []⟩

/-- The place `e` lies above `d`. -/
def Above (e d : Loc) : Prop :=
  e.absolute = d.absolute ∧ ∃ names, names ≠ [] ∧ d.names = e.names ++ names

/-- What `mkdir` does, and what is a directory.  The laws are those of one process: something that
is there is reported as such, the directories above a place are looked at first, and a call that
fails changes nothing. -/
structure Directories (σ : Type) where
  mkdir : Loc → σ → Except Errno Unit × σ
  IsDir : σ → Loc → Prop
  root : ∀ s, IsDir s .root
  made : ∀ s d s', mkdir d s = (.ok (), s') → IsDir s' d
  kept : ∀ s d e, IsDir s e → IsDir (mkdir d s).2 e
  failed : ∀ s d err s', mkdir d s = (.error err, s') → s' = s
  found : ∀ s d, IsDir s d → (mkdir d s).1 = .error .eexist
  above : ∀ s d e, (mkdir d s).1 = .ok () ∨ (mkdir d s).1 = .error .eexist → Above e d → IsDir s e
  missing : ∀ s d e, (mkdir e s).1 = .ok () → Above e d → (mkdir d s).1 = .error .enoent

variable {σ : Type} (fs : Directories σ)

/-- The names behind the bytes of a name. -/
def namesFrom : CStr → CStr → List CStr
  | [], [] => []
  | c :: name, [] => [c :: name]
  | name, c :: path =>
    if c = slash then (if name = [] then namesFrom [] path else name :: namesFrom [] path)
    else namesFrom (name ++ [c]) path

/-- The names in a path. -/
def namesOf (path : CStr) : List CStr := namesFrom [] path

def locOf (path : CStr) : Loc := ⟨path.head? = some slash, namesOf path⟩

/-- `mkdir( path, 0777 )` -/
def sysMkdir (path : CStr) (s : σ) : Except Errno Unit × σ :=
  if path = [] then (.error .enoent, s)
  else if path.length ≥ maxPathLen then (.error (.other (lit "File name too long")), s)
  else fs.mkdir (locOf path) s

/-! ## The code -/

/-- The last place of a byte in a string. -/
def lastIdx (c : Byte) : CStr → Option Nat
  | [] => none
  | b :: s =>
    match lastIdx c s with
    | some i => some (i + 1)
    | none => if b = c then some 0 else none

def strrchr (mem : List Byte) (c : Byte) : Option Nat := lastIdx c (cstr mem)

/-- `strchr( mem + p, c )` -/
def strchr (mem : List Byte) (p : Nat) (c : Byte) : Option Nat :=
  ((cstr (mem.drop p)).idxOf? c).map (p + ·)

/-- The value of `mkdirs`, the memory of the path, and the directories. -/
structure Result (σ : Type) where
  rc : Int
  path : List Byte
  dirs : σ

/-- What the first loop ends with: `p` and whether `q` was set, or the failure. -/
inductive Up (σ : Type)
  | broke (p : Nat) (q : Option Nat) (path : List Byte) (dirs : σ)
  | failed (result : Result σ)

/-- `if ( q != NULL ) *q = '/'` -/
def putBack (path : List Byte) : Option Nat → List Byte
  | none => path
  | some q => path.set q slash

/-- The first loop of `mkdirs`. -/
def upLoop : Nat → List Byte → Option Nat → σ → Option (Up σ)
  | 0, _, _, _ => none
  | fuel + 1, path, q, s =>
    match strrchr path slash with
    | none => some (.failed ⟨-1, path, s⟩)
    | some p =>
      let path := putBack (path.set p nul) q
      match sysMkdir fs (cstr path) s with
      | (.ok _, s) => some (.broke p q path s)
      | (.error .eexist, s) => some (.broke p q path s)
      | (.error .enoent, s) => upLoop fuel path (some p) s
      | (.error _, s) => some (.failed ⟨-1, path, s⟩)

/-- The second loop of `mkdirs`, from `p` on. -/
def downLoop : Nat → List Byte → Nat → σ → Option (Result σ)
  | 0, _, _, _ => none
  | fuel + 1, path, p, s =>
    match strchr path p slash with
    | none => some ⟨0, path, s⟩
    | some p =>
      let path := path.set p nul
      match sysMkdir fs (cstr path) s with
      | (.ok _, s) => downLoop fuel (path.set p slash) (p + 1) s
      | (.error .eexist, s) => downLoop fuel (path.set p slash) (p + 1) s
      | (.error _, s) => some ⟨-1, path, s⟩

/-- `mkdirs` -/
def mkdirs (path : List Byte) (s : σ) : Option (Result σ) :=
  match upLoop fs (path.length + 1) path none s with
  | none => none
  | some (.failed result) => some result
  | some (.broke p q path s) =>
    let path := path.set p slash
    match q with
    | none => some ⟨0, path, s⟩
    | some _ => downLoop fs (path.length + 1) path (p + 1) s

/-! ## The contract -/

/-- The strings before each `/`, the shortest first. -/
def cuts : CStr → List CStr
  | [] => []
  | c :: s => if c = slash then [] :: (cuts s).map (c :: ·) else (cuts s).map (c :: ·)

/-- The directory a string before a `/` stands for. -/
def dirOf (cut : CStr) : Loc := if cut = [] then .root else locOf cut

/-- The directories above a path, the topmost first. -/
def ancestors (path : CStr) : List Loc := (cuts path).map dirOf

/-- From the top on, each of the places is a directory, or `mkdir` makes it one. -/
def CanMake : List Loc → σ → Prop
  | [], _ => True
  | d :: ds, s => fs.IsDir s d ∧ CanMake ds s ∨ ∃ s', fs.mkdir d s = (.ok (), s') ∧ CanMake ds s'

/-- The path is in the memory again; 0 means that the places above it are directories; and 0 comes
where all of them are there or can be made. -/
def KeepsContract (path : CStr) (rest : List Byte) (s : σ) : Prop :=
  ∃ r, mkdirs fs (path ++ nul :: rest) s = some r ∧ cstr r.path = path ∧
    (r.rc = 0 → ∀ d ∈ ancestors path, fs.IsDir r.dirs d) ∧
    (CanMake fs (ancestors path) s → r.rc = 0)

/-! ## Making places one after the other -/

/-- The first loop on the places, the last one first: those it found missing. -/
def makeUp : List Loc → List Loc → σ → Option (List Loc) × σ
  | [], _, s => (none, s)
  | d :: ds, missing, s =>
    match fs.mkdir d s with
    | (.ok _, s) => (some missing, s)
    | (.error .eexist, s) => (some missing, s)
    | (.error .enoent, s) => makeUp ds (d :: missing) s
    | (.error _, s) => (none, s)

/-- The second loop on the places. -/
def makeDown : List Loc → σ → Bool × σ
  | [], s => (true, s)
  | d :: ds, s =>
    match fs.mkdir d s with
    | (.ok _, s) => makeDown ds s
    | (.error .eexist, s) => makeDown ds s
    | (.error _, s) => (false, s)

def makeAll (ds : List Loc) (s : σ) : Bool × σ :=
  match makeUp fs ds.reverse [] s with
  | (none, s) => (false, s)
  | (some missing, s) => makeDown fs missing s

/-- Each place is the same as one behind it, or above it. -/
def Descends (ds : List Loc) : Prop := ds.Pairwise fun e d => e = d ∨ Above e d

section

variable {fs} {ds ms : List Loc} {d e : Loc} {s s' : σ}

theorem canMake_all (h : ∀ d ∈ ds, fs.IsDir s d) : CanMake fs ds s := by
  induction ds with
  | nil => trivial
  | cons d ds ih =>
    obtain ⟨hd, hds⟩ := List.forall_mem_cons.mp h
    exact Or.inl ⟨hd, ih hds⟩

theorem canMake_append (h : ∀ d ∈ ds, fs.IsDir s d) :
    CanMake fs (ds ++ ms) s ↔ CanMake fs ms s := by
  induction ds with
  | nil => exact Iff.rfl
  | cons d ds ih =>
    obtain ⟨hd, hds⟩ := List.forall_mem_cons.mp h
    rw [List.cons_append, CanMake, ih hds]
    constructor
    · rintro (⟨-, hms⟩ | ⟨s', hmade, -⟩)
      · exact hms
      · have hfound := fs.found s d hd
        rw [hmade] at hfound
        cases hfound
    · exact fun hms => Or.inl ⟨hd, hms⟩

/-- The places above one that is made or found are directories, or they are that one. -/
theorem dirs_above (hds : ∀ e ∈ ds, e = d ∨ Above e d)
    (hd : (fs.mkdir d s).1 = .ok () ∨ (fs.mkdir d s).1 = .error .eexist) :
    ∀ e ∈ ds, e = d ∨ fs.IsDir s e :=
  fun e he => (hds e he).imp_right (fs.above s d e hd)

theorem kept_of_made (hmade : fs.mkdir d s = (.ok (), s')) (h : fs.IsDir s e) : fs.IsDir s' e := by
  have hkept := fs.kept s d e h
  rwa [hmade] at hkept

/-- A place that is made takes those above it with it. -/
theorem canMake_made (hds : ∀ e ∈ ds, e = d ∨ Above e d) (hmade : fs.mkdir d s = (.ok (), s')) :
    CanMake fs (ds ++ d :: ms) s ↔ CanMake fs ms s' := by
  have hnot : ¬ fs.IsDir s d := fun hd => by
    have hfound := fs.found s d hd
    rw [hmade] at hfound
    cases hfound
  have hd' : fs.IsDir s' d := fs.made s d s' hmade
  have habove := dirs_above hds (Or.inl (by rw [hmade]))
  induction ds with
  | nil =>
    rw [List.nil_append, CanMake]
    constructor
    · rintro (⟨hd, -⟩ | ⟨s'', hmade', hms⟩)
      · exact absurd hd hnot
      · cases hmade.symm.trans hmade'
        exact hms
    · exact fun hms => Or.inr ⟨s', hmade, hms⟩
  | cons e ds ih =>
    obtain ⟨-, hrest⟩ := List.forall_mem_cons.mp hds
    obtain ⟨he, hdirs⟩ := List.forall_mem_cons.mp habove
    have hlater : CanMake fs (ds ++ d :: ms) s' ↔ CanMake fs ms s' := by
      have hall : ∀ x ∈ ds ++ [d], fs.IsDir s' x := by
        intro x hx
        rcases List.mem_append.mp hx with hx | hx
        · rcases hdirs x hx with rfl | hx
          · exact hd'
          · exact kept_of_made hmade hx
        · rw [List.mem_singleton.mp hx]
          exact hd'
      have happ : CanMake fs (ds ++ [d] ++ ms) s' ↔ CanMake fs ms s' := canMake_append hall
      rwa [List.append_assoc, List.singleton_append] at happ
    have hsame : CanMake fs (ds ++ d :: ms) s ↔ CanMake fs ms s' := ih hrest hdirs
    rw [List.cons_append, CanMake, hsame]
    constructor
    · rintro (⟨-, hms⟩ | ⟨s'', hmade', hms⟩)
      · exact hms
      · rcases he with rfl | he
        · cases hmade.symm.trans hmade'
          exact hlater.mp hms
        · have hfound := fs.found s e he
          rw [hmade'] at hfound
          cases hfound
    · intro hms
      rcases he with rfl | he
      · exact Or.inr ⟨s', hmade, hlater.mpr hms⟩
      · exact Or.inl ⟨he, hms⟩

theorem mkdir_error {err : Errno} (h : (fs.mkdir d s).1 = .error err) :
    fs.mkdir d s = (.error err, s) := by
  have hpair : fs.mkdir d s = (.error err, (fs.mkdir d s).2) := Prod.ext h rfl
  rw [hpair, fs.failed s d err _ hpair]

theorem makeDown_of_canMake (h : CanMake fs ms s) :
    ∃ s', makeDown fs ms s = (true, s') ∧ (∀ d ∈ ms, fs.IsDir s' d) ∧
      ∀ e, fs.IsDir s e → fs.IsDir s' e := by
  induction ms generalizing s with
  | nil => exact ⟨s, rfl, fun d hd => absurd hd List.not_mem_nil, fun e he => he⟩
  | cons d ms ih =>
    rcases h with ⟨hd, hms⟩ | ⟨s₁, hmade, hms⟩
    · obtain ⟨s', hdown, hall, hkept⟩ := ih hms
      refine ⟨s', ?_, List.forall_mem_cons.mpr ⟨hkept d hd, hall⟩, hkept⟩
      rw [makeDown, mkdir_error (fs.found s d hd)]
      exact hdown
    · obtain ⟨s', hdown, hall, hkept⟩ := ih hms
      refine ⟨s', ?_, List.forall_mem_cons.mpr ⟨hkept d (fs.made s d s₁ hmade), hall⟩,
        fun e he => hkept e (kept_of_made hmade he)⟩
      rw [makeDown, hmade]
      exact hdown

theorem makeDown_cons (h : makeDown fs (d :: ms) s = (true, s')) :
    (∃ s₁, fs.mkdir d s = (.ok (), s₁) ∧ makeDown fs ms s₁ = (true, s')) ∨
      (fs.mkdir d s).1 = .error .eexist ∧ makeDown fs ms s = (true, s') := by
  rw [makeDown] at h
  split at h
  · next s₁ hmade => exact Or.inl ⟨s₁, hmade, h⟩
  · next s₁ hfound =>
    have hs := fs.failed s d _ s₁ hfound
    subst hs
    exact Or.inr ⟨by rw [hfound], h⟩
  · cases h

/-- Where the second loop comes to its end and has made directories, they could be made. -/
theorem canMake_of_makeDown (hdesc : Descends ms) (h : makeDown fs ms s = (true, s'))
    (hall : ∀ d ∈ ms, fs.IsDir s' d) : CanMake fs ms s := by
  induction ms generalizing s with
  | nil => trivial
  | cons d ms ih =>
    obtain ⟨hd, hms⟩ := List.forall_mem_cons.mp hall
    obtain ⟨hfirst, hdesc⟩ := List.pairwise_cons.mp hdesc
    rcases makeDown_cons h with ⟨s₁, hmade, hdown⟩ | ⟨hfound, hdown⟩
    · exact Or.inr ⟨s₁, hmade, ih hdesc hdown hms⟩
    · have hrest := ih hdesc hdown hms
      refine Or.inl ⟨?_, hrest⟩
      -- what comes next shows that the place is a directory
      cases ms with
      | nil =>
        cases hdown
        exact hd
      | cons e ms =>
        rcases hfirst e List.mem_cons_self with rfl | habove
        · rcases hrest with ⟨hd, -⟩ | ⟨s₁, hmade, -⟩
          · exact hd
          · rw [hmade] at hfound
            cases hfound
        · rcases makeDown_cons hdown with ⟨s₁, hmade, -⟩ | ⟨hfound', -⟩
          · exact fs.above s e d (Or.inl (by rw [hmade])) habove
          · exact fs.above s e d (Or.inr hfound') habove

/-- What cannot be found missing is not the first place to be made, or below it. -/
theorem missing_of_canMake (hds : ∀ e ∈ ds, e = d ∨ Above e d)
    (h : CanMake fs (ds ++ d :: ms) s) :
    fs.IsDir s d ∨ (fs.mkdir d s).1 = .ok () ∨ (fs.mkdir d s).1 = .error .enoent := by
  induction ds with
  | nil =>
    rcases h with ⟨hd, -⟩ | ⟨s', hmade, -⟩
    · exact Or.inl hd
    · exact Or.inr (Or.inl (by rw [hmade]))
  | cons e ds ih =>
    obtain ⟨he, hds⟩ := List.forall_mem_cons.mp hds
    rcases h with ⟨-, h⟩ | ⟨s', hmade, -⟩
    · exact ih hds h
    · rcases he with rfl | he
      · exact Or.inr (Or.inl (by rw [hmade]))
      · exact Or.inr (Or.inr (fs.missing s d e (by rw [hmade]) he))

theorem descends_before (h : Descends (ds ++ d :: ms)) : ∀ e ∈ ds, e = d ∨ Above e d :=
  fun e he => (List.pairwise_append.mp h).2.2 e he d List.mem_cons_self

/-- Where all the places can be made, the first loop leaves such places that can be made behind
directories. -/
theorem makeUp_of_canMake (hdesc : Descends (ds ++ ms)) (hne : ds ++ ms ≠ [])
    (hms : ∀ d ∈ ms, (fs.mkdir d s).1 = .error .enoent) (h : CanMake fs (ds ++ ms) s) :
    ∃ ms' s', makeUp fs ds.reverse ms s = (some ms', s') ∧ CanMake fs ms' s' ∧
      ∀ d ∈ ds ++ ms, d ∈ ms' ∨ fs.IsDir s' d := by
  induction ds using List.reverseRecOn generalizing ms with
  | nil =>
    cases ms with
    | nil => exact absurd rfl hne
    | cons d ms =>
      have hd := hms d List.mem_cons_self
      rcases h with ⟨hdir, -⟩ | ⟨s', hmade, -⟩
      · rw [fs.found s d hdir] at hd
        cases hd
      · rw [hmade] at hd
        cases hd
  | append_singleton ds d ih =>
    rw [List.append_assoc, List.singleton_append] at *
    have hbefore := descends_before hdesc
    rw [List.reverse_append, List.reverse_singleton, List.singleton_append, makeUp]
    rcases hres : fs.mkdir d s with ⟨err | ⟨⟩, s₁⟩
    · have hs := fs.failed s d err s₁ hres
      subst hs
      have hfound : fs.IsDir s₁ d → err = .eexist := fun hd => by
        have := fs.found s₁ d hd
        rw [hres] at this
        exact Except.error.inj this
      have hcases := missing_of_canMake hbefore h
      rw [hres] at hcases
      rcases hcases with hd | hok | hmissing
      · obtain rfl := hfound hd
        have hdirs : ∀ e ∈ ds ++ [d], fs.IsDir s₁ e := by
          intro e he
          rcases List.mem_append.mp he with he | he
          · rcases dirs_above hbefore (Or.inr (by rw [hres])) e he with rfl | hdir
            · exact hd
            · exact hdir
          · rw [List.mem_singleton.mp he]
            exact hd
        have hcan : CanMake fs (ds ++ [d] ++ ms) s₁ ↔ CanMake fs ms s₁ := canMake_append hdirs
        rw [List.append_assoc, List.singleton_append] at hcan
        refine ⟨ms, s₁, rfl, hcan.mp h, fun e he => ?_⟩
        have hsplit : ds ++ d :: ms = (ds ++ [d]) ++ ms := by simp
        rw [hsplit] at he
        exact (List.mem_append.mp he).symm.imp_right (hdirs e)
      · cases hok
      · obtain rfl : err = .enoent := Except.error.inj hmissing
        refine ih hdesc (by simp) ?_ h
        exact List.forall_mem_cons.mpr ⟨by rw [hres], hms⟩
    · refine ⟨ms, s₁, rfl, (canMake_made hbefore hres).mp h, fun e he => ?_⟩
      rcases List.mem_append.mp he with he | he
      · rcases dirs_above hbefore (Or.inl (by rw [hres])) e he with rfl | hdir
        · exact Or.inr (fs.made s e s₁ hres)
        · exact Or.inr (kept_of_made hres hdir)
      · rcases List.mem_cons.mp he with rfl | he
        · exact Or.inr (fs.made s e s₁ hres)
        · exact Or.inl he

/-- Where both loops come to their ends and there are directories, the places could be made. -/
theorem canMake_of_makeUp {ms' : List Loc} {s₁ : σ} (hdesc : Descends (ds ++ ms))
    (hms : ∀ d ∈ ms, (fs.mkdir d s).1 = .error .enoent)
    (hup : makeUp fs ds.reverse ms s = (some ms', s₁)) (hdown : makeDown fs ms' s₁ = (true, s'))
    (hall : ∀ d ∈ ds ++ ms, fs.IsDir s' d) : CanMake fs (ds ++ ms) s := by
  induction ds using List.reverseRecOn generalizing ms with
  | nil => cases hup
  | append_singleton ds d ih =>
    rw [List.append_assoc, List.singleton_append] at *
    have hbefore := descends_before hdesc
    have hdesc' : Descends ms := (List.pairwise_cons.mp (List.pairwise_append.mp hdesc).2.1).2
    rw [List.reverse_append, List.reverse_singleton, List.singleton_append, makeUp] at hup
    split at hup
    · next s₂ hmade =>
      cases hup
      refine (canMake_made hbefore hmade).mpr (canMake_of_makeDown hdesc' hdown fun e he => ?_)
      exact hall e (List.mem_append_right _ (List.mem_cons_of_mem d he))
    · next s₂ hfound =>
      have hs := fs.failed s d _ s₂ hfound
      subst hs
      cases hup
      cases ms' with
      | nil =>
        cases hdown
        exact canMake_all hall
      | cons e ms =>
        -- the place behind it was missing, and nothing has changed
        have he := hms e List.mem_cons_self
        rcases makeDown_cons hdown with ⟨s₃, hmade, -⟩ | ⟨hfound', -⟩
        · rw [hmade] at he
          cases he
        · rw [he] at hfound'
          cases hfound'
    · next s₂ hmissing =>
      have hs := fs.failed s d _ s₂ hmissing
      subst hs
      exact ih hdesc (List.forall_mem_cons.mpr ⟨by rw [hmissing], hms⟩) hup hall
    · cases hup

/-- The loops come to their ends, with directories, just where the places can be made. -/
theorem makeAll_iff (hdesc : Descends ds) (hne : ds ≠ []) :
    (∃ s', makeAll fs ds s = (true, s') ∧ ∀ d ∈ ds, fs.IsDir s' d) ↔ CanMake fs ds s := by
  have hnil : ∀ d ∈ ([] : List Loc), (fs.mkdir d s).1 = .error .enoent :=
    fun d hd => absurd hd List.not_mem_nil
  have happ := List.append_nil ds
  unfold makeAll
  constructor
  · rintro ⟨s', hrun, hall⟩
    rcases hup : makeUp fs ds.reverse [] s with ⟨_ | ms, s₁⟩
    · rw [hup] at hrun
      cases hrun
    · rw [hup] at hrun
      have hcan := canMake_of_makeUp (by rwa [happ]) hnil hup hrun (by rwa [happ])
      rwa [happ] at hcan
  · intro hcan
    obtain ⟨ms, s₁, hup, hms, hmem⟩ := makeUp_of_canMake (by rwa [happ]) (by rwa [happ]) hnil
      (by rwa [happ])
    obtain ⟨s', hdown, hall, hkept⟩ := makeDown_of_canMake hms
    rw [happ] at hmem
    refine ⟨s', by rw [hup]; exact hdown, fun d hd => ?_⟩
    exact (hmem d hd).elim (hall d) (hkept d)

end

/-! ## The directories of a path -/

theorem namesFrom_append (name u w : CStr) :
    namesFrom name (u ++ slash :: w) = namesFrom name u ++ namesOf w := by
  induction u generalizing name with
  | nil =>
    cases name with
    | nil => simp [namesFrom, namesOf]
    | cons c name => simp [namesFrom, namesOf]
  | cons c u ih =>
    rw [List.cons_append]
    simp only [namesFrom, ih]
    split
    · split
      · rfl
      · rfl
    · rfl

theorem above_append {u : CStr} (hu : u ≠ []) (w : CStr) :
    locOf u = locOf (u ++ slash :: w) ∨ Above (locOf u) (locOf (u ++ slash :: w)) := by
  have habsolute : (locOf u).absolute = (locOf (u ++ slash :: w)).absolute := by
    cases u with
    | nil => exact absurd rfl hu
    | cons c u => rfl
  have hnames : (locOf (u ++ slash :: w)).names = (locOf u).names ++ namesOf w :=
    namesFrom_append [] u w
  by_cases hw : namesOf w = []
  · refine Or.inl ?_
    rw [hw, List.append_nil] at hnames
    exact congrArg₂ Loc.mk habsolute hnames.symm
  · exact Or.inr ⟨habsolute, namesOf w, hw, hnames⟩

theorem cuts_append (u w : CStr) :
    cuts (u ++ slash :: w) = cuts u ++ u :: (cuts w).map (u ++ slash :: ·) := by
  induction u with
  | nil =>
    show cuts (slash :: w) = [] :: (cuts w).map (slash :: ·)
    rw [cuts, if_pos rfl]
  | cons c u ih =>
    rw [List.cons_append, cuts, cuts, ih, List.map_append, List.map_cons, List.map_map]
    split
    · rfl
    · rfl

theorem cuts_slashFree {w : CStr} (hw : slash ∉ w) : cuts w = [] := by
  induction w with
  | nil => rfl
  | cons c w ih =>
    rw [List.mem_cons, not_or] at hw
    rw [cuts, if_neg (Ne.symm hw.1), ih hw.2]
    rfl

theorem mem_cuts {path cut : CStr} (h : cut ∈ cuts path) : ∃ w, path = cut ++ slash :: w := by
  induction path generalizing cut with
  | nil => exact absurd h List.not_mem_nil
  | cons c path ih =>
    have hmap : ∀ cut ∈ (cuts path).map (c :: ·), ∃ w, c :: path = cut ++ slash :: w := by
      intro cut hmem
      obtain ⟨cut, hcut, rfl⟩ := List.mem_map.mp hmem
      obtain ⟨w, hw⟩ := ih hcut
      exact ⟨w, by rw [hw]; rfl⟩
    rw [cuts] at h
    split at h
    · next hc =>
      rcases List.mem_cons.mp h with rfl | h
      · exact ⟨path, by rw [hc]; rfl⟩
      · exact hmap cut h
    · exact hmap cut h

theorem cuts_pairwise (path : CStr) :
    (cuts path).Pairwise fun e d => ∃ w, d = e ++ slash :: w := by
  induction path with
  | nil => exact List.Pairwise.nil
  | cons c path ih =>
    have hmap : ((cuts path).map (c :: ·)).Pairwise fun e d => ∃ w, d = e ++ slash :: w := by
      refine List.pairwise_map.mpr (ih.imp ?_)
      rintro e d ⟨w, rfl⟩
      exact ⟨w, rfl⟩
    rw [cuts]
    split
    · next hc =>
      refine List.pairwise_cons.mpr ⟨fun d hd => ?_, hmap⟩
      obtain ⟨cut, -, rfl⟩ := List.mem_map.mp hd
      exact ⟨cut, by rw [hc]; rfl⟩
    · exact hmap

/-- The directories of a path but the root that stands before a `/` at its beginning. -/
def locs (path : CStr) : List Loc := ((cuts path).filter (· ≠ [])).map locOf

theorem locs_append (u w : CStr) (hu : u ≠ []) :
    locs (u ++ slash :: w) = locs u ++ locOf u :: ((cuts w).map (u ++ slash :: ·)).map locOf := by
  have hbehind : ((cuts w).map (u ++ slash :: ·)).filter (· ≠ []) =
      (cuts w).map (u ++ slash :: ·) := by
    refine List.filter_eq_self.mpr fun d hd => ?_
    obtain ⟨cut, -, rfl⟩ := List.mem_map.mp hd
    simp
  rw [locs, cuts_append, List.filter_append, List.filter_cons_of_pos (by simpa using hu), hbehind,
    List.map_append, List.map_cons]
  rfl

theorem locs_slash (w : CStr) : locs (slash :: w) = ((cuts w).map (slash :: ·)).map locOf := by
  have hbehind : ((cuts w).map (slash :: ·)).filter (· ≠ []) = (cuts w).map (slash :: ·) := by
    refine List.filter_eq_self.mpr fun d hd => ?_
    obtain ⟨cut, -, rfl⟩ := List.mem_map.mp hd
    simp
  rw [locs, cuts, if_pos rfl, List.filter_cons_of_neg (by simp), hbehind]

theorem locs_descends (path : CStr) : Descends (locs path) := by
  refine List.pairwise_map.mpr ?_
  refine List.Pairwise.imp_of_mem ?_ ((cuts_pairwise path).sublist List.filter_sublist)
  rintro e d he - ⟨w, rfl⟩
  exact above_append (by simpa using (List.mem_filter.mp he).2) w

theorem locs_ne_nil {path : CStr} : locs path ≠ [] ↔ slash ∈ path.tail := by
  cases path with
  | nil => simp [locs, cuts]
  | cons c path =>
    rw [List.tail_cons]
    by_cases hmem : slash ∈ path
    · refine ⟨fun _ => hmem, fun _ => ?_⟩
      obtain ⟨u, w, rfl, -⟩ := List.eq_append_cons_of_mem hmem
      rw [← List.cons_append, locs_append _ _ (List.cons_ne_nil c u)]
      simp
    · refine ⟨fun h => absurd ?_ h, fun h => absurd h hmem⟩
      rw [locs, cuts, cuts_slashFree hmem]
      split
      · simp
      · simp

/-! ## The loops on the memory -/

theorem lastIdx_none {c : Byte} {w : CStr} (hw : c ∉ w) : lastIdx c w = none := by
  induction w with
  | nil => rfl
  | cons b w ih =>
    rw [List.mem_cons, not_or] at hw
    rw [lastIdx, ih hw.2]
    exact if_neg (Ne.symm hw.1)

theorem lastIdx_append {c : Byte} {w : CStr} (u : CStr) (hw : c ∉ w) :
    lastIdx c (u ++ c :: w) = some u.length := by
  induction u with
  | nil =>
    rw [List.nil_append, lastIdx, lastIdx_none hw]
    exact if_pos rfl
  | cons b u ih => rw [List.cons_append, lastIdx, ih, List.length_cons]

theorem idxOf?_append {c : Byte} {w : CStr} (hw : c ∉ w) (v : CStr) :
    (w ++ c :: v).idxOf? c = some w.length := by
  induction w with
  | nil => simp [List.idxOf?_cons]
  | cons b w ih =>
    rw [List.mem_cons, not_or] at hw
    rw [List.cons_append, List.idxOf?_cons, if_neg (by simpa using Ne.symm hw.1), ih hw.2]
    rfl

theorem set_append (u : List Byte) (b c : Byte) (z : List Byte) :
    (u ++ b :: z).set u.length c = u ++ c :: z := by
  rw [List.set_append_right u.length c (Nat.le_refl _), Nat.sub_self]
  rfl

/-- A string is cut at its last `/`. -/
theorem exists_cut {u : CStr} (h : slash ∈ u) : ∃ u' w, u = u' ++ slash :: w ∧ slash ∉ w := by
  induction u with
  | nil => exact absurd h List.not_mem_nil
  | cons c u ih =>
    by_cases hu : slash ∈ u
    · obtain ⟨u', w, rfl, hw⟩ := ih hu
      exact ⟨c :: u', w, rfl, hw⟩
    · obtain rfl := (List.mem_cons.mp h).resolve_right hu
      exact ⟨[], u, rfl, hu⟩

section

variable {fs} {path rest : List Byte} {s : σ}

theorem sysMkdir_eq {cut : CStr} (hne : cut ≠ []) (hlen : cut.length < maxPathLen) :
    sysMkdir fs cut s = fs.mkdir (locOf cut) s := by
  rw [sysMkdir, if_neg hne, if_neg (Nat.not_le_of_lt hlen)]

/-- The second loop on the memory is the one on the places behind `x`. -/
theorem downLoop_eq {x y : CStr} (hpath : NulFree (x ++ y)) (hx : x ≠ [])
    (hlen : ∀ cut ∈ cuts y, (x ++ cut).length < maxPathLen) {fuel : Nat}
    (hfuel : y.length < fuel) :
    match makeDown fs (((cuts y).map (x ++ ·)).map locOf) s with
    | (true, s') => downLoop fs fuel (x ++ y ++ nul :: rest) x.length s =
        some ⟨0, x ++ y ++ nul :: rest, s'⟩
    | (false, s') => ∃ u z, downLoop fs fuel (x ++ y ++ nul :: rest) x.length s =
        some ⟨-1, u ++ nul :: z, s'⟩ ∧ NulFree u ∧ u.length < (x ++ y).length := by
  induction fuel generalizing x y s with
  | zero => exact absurd hfuel (Nat.not_lt_zero _)
  | succ fuel ih =>
    have hrest : cstr ((x ++ y ++ nul :: rest).drop x.length) = y := by
      rw [List.append_assoc, List.drop_left, cstr_append_nul (nulFree_append.mp hpath).2]
    by_cases hslash : slash ∈ y
    · obtain ⟨w, v, rfl, hw⟩ := List.eq_append_cons_of_mem hslash
      have hfound : strchr (x ++ (w ++ slash :: v) ++ nul :: rest) x.length slash =
          some (x ++ w).length := by
        rw [strchr, hrest, idxOf?_append hw, List.length_append]
        rfl
      have hcut : (x ++ (w ++ slash :: v) ++ nul :: rest).set (x ++ w).length nul =
          (x ++ w) ++ nul :: (v ++ nul :: rest) := by
        have hassoc : x ++ (w ++ slash :: v) ++ nul :: rest =
            (x ++ w) ++ slash :: (v ++ nul :: rest) := by simp
        rw [hassoc, set_append]
      have hback : ((x ++ w) ++ nul :: (v ++ nul :: rest)).set (x ++ w).length slash =
          (x ++ w ++ [slash]) ++ v ++ nul :: rest := by
        rw [set_append]
        simp
      have hnul : NulFree (x ++ w) := by
        simp only [nulFree_append] at hpath ⊢
        exact ⟨hpath.1, hpath.2.1⟩
      have hcuts : ((cuts (w ++ slash :: v)).map (x ++ ·)).map locOf =
          locOf (x ++ w) :: ((cuts v).map ((x ++ w ++ [slash]) ++ ·)).map locOf := by
        rw [cuts_append, cuts_slashFree hw]
        simp
      have hmem : w ∈ cuts (w ++ slash :: v) := by
        rw [cuts_append]
        simp
      have hsys : sysMkdir fs (x ++ w) s = fs.mkdir (locOf (x ++ w)) s :=
        sysMkdir_eq (by simp [hx]) (hlen w hmem)
      have hnext : (x ++ w).length + 1 = (x ++ w ++ [slash]).length := by
        rw [List.length_append, List.length_append, List.length_append, List.length_singleton]
      have hsplit : x ++ (w ++ slash :: v) = (x ++ w ++ [slash]) ++ v := by simp
      have hlen' : ∀ cut ∈ cuts v, ((x ++ w ++ [slash]) ++ cut).length < maxPathLen := by
        intro cut hmem
        have hlong := hlen (w ++ slash :: cut) (by
          rw [cuts_append]
          exact List.mem_append_right _ (List.mem_cons_of_mem _ (List.mem_map_of_mem hmem)))
        have heq : x ++ (w ++ slash :: cut) = (x ++ w ++ [slash]) ++ cut := by simp
        rwa [heq] at hlong
      have hfuel' : v.length < fuel := by
        rw [List.length_append, List.length_cons] at hfuel
        omega
      rw [hsplit] at hpath
      have hagain := fun t => ih (s := t) hpath (by simp) hlen' hfuel'
      rw [downLoop, hfound, hcuts, makeDown]
      simp only [hcut, cstr_append_nul hnul, hsys]
      rcases hres : fs.mkdir (locOf (x ++ w)) s with ⟨err | ⟨⟩, s₁⟩
      · cases err with
        | eexist =>
          simp only [hback, hnext, hsplit]
          exact hagain s₁
        | _ =>
          refine ⟨x ++ w, v ++ nul :: rest, rfl, hnul, ?_⟩
          simp
      · simp only [hback, hnext, hsplit]
        exact hagain s₁
    · have hnone : strchr (x ++ y ++ nul :: rest) x.length slash = none := by
        rw [strchr, hrest, List.idxOf?_eq_none_iff.mpr hslash]
        rfl
      rw [downLoop, hnone, cuts_slashFree hslash]
      rfl

/-- The path is cut behind `u`, `t` is the rest of it, and the places from there on were missing. -/
def Cut (rest : List Byte) (u t : CStr) (q : Option Nat) (z : List Byte) (ms : List Loc) : Prop :=
  (t = [] ∧ q = none ∧ z = rest ∧ ms = []) ∨
    ∃ v, t = slash :: v ∧ q = some u.length ∧ z = v ++ nul :: rest ∧
      ms = locOf u :: ((cuts v).map (u ++ slash :: ·)).map locOf

/-- One step further back along the path. -/
theorem Cut.step {u w t : CStr} {q : Option Nat} {z : List Byte} {ms : List Loc}
    (h : Cut rest (u ++ slash :: w) t q z ms) (hw : slash ∉ w) :
    putBack ((u ++ slash :: w ++ nul :: z).set u.length nul) q =
        u ++ nul :: (w ++ t ++ nul :: rest) ∧
      ms = ((cuts (w ++ t)).map (u ++ slash :: ·)).map locOf ∧ (q = none → ms = []) := by
  have hset : (u ++ slash :: w ++ nul :: z).set u.length nul = u ++ nul :: (w ++ nul :: z) := by
    rw [List.append_assoc, List.cons_append, set_append]
  rw [hset]
  rcases h with ⟨rfl, rfl, rfl, rfl⟩ | ⟨v, rfl, rfl, rfl, rfl⟩
  · refine ⟨?_, ?_, fun _ => rfl⟩
    · rw [putBack, List.append_nil]
    · rw [List.append_nil, cuts_slashFree hw]
      rfl
  · refine ⟨?_, ?_, fun h => by cases h⟩
    · have hlen : (u ++ slash :: w).length = (u ++ nul :: w).length := by
        rw [List.length_append, List.length_append, List.length_cons, List.length_cons]
      have hassoc : u ++ nul :: (w ++ nul :: (v ++ nul :: rest)) =
          (u ++ nul :: w) ++ nul :: (v ++ nul :: rest) := by simp
      rw [putBack, hlen, hassoc, set_append]
      simp
    · rw [cuts_append, cuts_slashFree hw]
      simp

/-- The first loop on the memory is the one on the places. -/
theorem upLoop_eq {u t : CStr} {q : Option Nat} {z : List Byte} {ms : List Loc}
    (hu : u ≠ []) (hnul : NulFree u) (hcut : Cut rest u t q z ms)
    (hlen : ∀ cut ∈ cuts u, cut.length < maxPathLen) {fuel : Nat} (hfuel : u.length < fuel) :
    match makeUp fs (locs u).reverse ms s with
    | (none, s') => ∃ u' z', upLoop fs fuel (u ++ nul :: z) q s =
        some (.failed ⟨-1, u' ++ nul :: z', s'⟩) ∧ NulFree u' ∧
          (u'.length < u.length ∨ u' = u ∧ slash ∉ u)
    | (some ms', s') => ∃ u' v q', u' ≠ [] ∧ u ++ t = u' ++ slash :: v ∧
        ms' = ((cuts v).map (u' ++ slash :: ·)).map locOf ∧ (q' = none → ms' = []) ∧
        upLoop fs fuel (u ++ nul :: z) q s =
          some (.broke u'.length q' (u' ++ nul :: (v ++ nul :: rest)) s') := by
  induction fuel generalizing u t q z ms s with
  | zero => exact absurd hfuel (Nat.not_lt_zero _)
  | succ fuel ih =>
    by_cases hslash : slash ∈ u
    · obtain ⟨u, w, rfl, hw⟩ := exists_cut hslash
      have hnul' := (nulFree_append.mp hnul).1
      obtain ⟨hmem, hms, hq⟩ := hcut.step hw
      have hlast : strrchr (u ++ slash :: w ++ nul :: z) slash = some u.length := by
        rw [strrchr, cstr_append_nul hnul, lastIdx_append u hw]
      have hshort : u.length < (u ++ slash :: w).length := by simp
      rw [upLoop, hlast]
      simp only [hmem, cstr_append_nul hnul']
      by_cases hu' : u = []
      · -- the cut leaves the empty string
        subst hu'
        have hlocs : locs (slash :: w) = [] := by
          rw [locs_slash, cuts_slashFree hw]
          rfl
        have hsys : sysMkdir fs [] s = (.error .enoent, s) := if_pos rfl
        obtain ⟨fuel, rfl⟩ : ∃ n, fuel = n + 1 := ⟨fuel - 1, by simp at hfuel; omega⟩
        have hnone : strrchr ([] ++ nul :: (w ++ t ++ nul :: rest)) slash = none := rfl
        rw [List.nil_append, hlocs]
        simp only [hsys]
        exact ⟨[], _, by rw [upLoop, hnone], hnul', Or.inl hshort⟩
      · have hlocs : (locs (u ++ slash :: w)).reverse = locOf u :: (locs u).reverse := by
          rw [locs_append u w hu', cuts_slashFree hw, List.reverse_append]
          rfl
        have hsys : sysMkdir fs u s = fs.mkdir (locOf u) s :=
          sysMkdir_eq hu' (hlen u (by rw [cuts_append]; simp))
        have hpath : u ++ slash :: w ++ t = u ++ slash :: (w ++ t) := by simp
        rw [hlocs, makeUp, hsys]
        rcases hres : fs.mkdir (locOf u) s with ⟨err | ⟨⟩, s₁⟩
        · cases err with
          | eexist => exact ⟨u, w ++ t, q, hu', hpath, hms, hq, rfl⟩
          | enoent =>
            have hcut' : Cut rest u (slash :: (w ++ t)) (some u.length) (w ++ t ++ nul :: rest)
                (locOf u :: ms) := Or.inr ⟨w ++ t, rfl, rfl, rfl, by rw [hms]⟩
            have hlen' : ∀ cut ∈ cuts u, cut.length < maxPathLen := fun cut hmem =>
              hlen cut (by rw [cuts_append]; exact List.mem_append_left _ hmem)
            have hrec := ih (s := s₁) hu' hnul' hcut' hlen' (by omega)
            revert hrec
            simp only
            rcases makeUp fs (locs u).reverse (locOf u :: ms) s₁ with ⟨_ | ms', s'⟩
            · rintro ⟨u', z', hrun, hu'nul, hshorter⟩
              refine ⟨u', z', hrun, hu'nul, Or.inl ?_⟩
              rcases hshorter with hlt | ⟨rfl, -⟩
              · omega
              · exact hshort
            · rintro ⟨u', v, q', hne, hsplit, hrest⟩
              exact ⟨u', v, q', hne, hpath.trans hsplit, hrest⟩
          | _ => exact ⟨u, _, rfl, hnul', Or.inl hshort⟩
        · exact ⟨u, w ++ t, q, hu', hpath, hms, hq, rfl⟩
    · have hnone : strrchr (u ++ nul :: z) slash = none := by
        rw [strrchr, cstr_append_nul hnul, lastIdx_none hslash]
      have hlocs : locs u = [] := by
        rw [locs, cuts_slashFree hslash]
        rfl
      rw [hlocs, upLoop, hnone]
      exact ⟨u, z, rfl, hnul, Or.inr ⟨rfl, hslash⟩⟩

/-- On a path whose directories can be named the code makes its places one after the other.  Where
it fails the memory is left with a shorter path. -/
theorem mkdirs_eq (hpath : NulFree path) (hslash : slash ∈ path)
    (hlen : ∀ cut ∈ cuts path, cut.length < maxPathLen) :
    match makeAll fs (locs path) s with
    | (true, s') => mkdirs fs (path ++ nul :: rest) s = some ⟨0, path ++ nul :: rest, s'⟩
    | (false, s') => ∃ u z, mkdirs fs (path ++ nul :: rest) s = some ⟨-1, u ++ nul :: z, s'⟩ ∧
        NulFree u ∧ u.length < path.length := by
  have hne : path ≠ [] := List.ne_nil_of_mem hslash
  have hcut : Cut rest path [] none rest [] := Or.inl ⟨rfl, rfl, rfl, rfl⟩
  have hfuel : path.length < (path ++ nul :: rest).length + 1 := by
    rw [List.length_append]
    omega
  have hup := @upLoop_eq σ fs rest s path [] none rest [] hne hpath hcut hlen _ hfuel
  unfold makeAll mkdirs
  revert hup
  rcases makeUp fs (locs path).reverse [] s with ⟨_ | ms, s₁⟩
  · rintro ⟨u, z, hrun, hnul, hshorter⟩
    rw [hrun]
    refine ⟨u, z, rfl, hnul, ?_⟩
    rcases hshorter with hlt | ⟨-, hno⟩
    · exact hlt
    · exact absurd hslash hno
  · rintro ⟨u, v, q, hu, hsplit, hms, hq, hrun⟩
    rw [List.append_nil] at hsplit
    subst hsplit
    have hback : (u ++ nul :: (v ++ nul :: rest)).set u.length slash =
        u ++ slash :: v ++ nul :: rest := by
      rw [set_append]
      simp
    rw [hrun]
    simp only [hback]
    cases q with
    | none =>
      rw [hq rfl]
      rfl
    | some q =>
      have hassoc : u ++ slash :: v = (u ++ [slash]) ++ v := by simp
      have hplace : u.length + 1 = (u ++ [slash]).length := by
        rw [List.length_append, List.length_singleton]
      have hlen' : ∀ cut ∈ cuts v, ((u ++ [slash]) ++ cut).length < maxPathLen := by
        intro cut hmem
        have hlong := hlen (u ++ slash :: cut) (by
          rw [cuts_append]
          exact List.mem_append_right _ (List.mem_cons_of_mem _ (List.mem_map_of_mem hmem)))
        have heq : u ++ slash :: cut = (u ++ [slash]) ++ cut := by simp
        rwa [heq] at hlong
      have hms' : ms = ((cuts v).map ((u ++ [slash]) ++ ·)).map locOf := by
        rw [hms]
        simp
      rw [hassoc] at hpath ⊢
      rw [hms', hplace]
      exact downLoop_eq hpath (by simp) hlen' (by simp; omega)

/-- A directory with too long a name is refused at once. -/
theorem mkdirs_long (hpath : NulFree path) (hlong : ∃ cut ∈ cuts path, maxPathLen ≤ cut.length) :
    ∃ u z, mkdirs fs (path ++ nul :: rest) s = some ⟨-1, u ++ nul :: z, s⟩ ∧ NulFree u ∧
      u.length < path.length := by
  obtain ⟨cut, hcut, hlong⟩ := hlong
  have hslash : slash ∈ path := by
    by_contra hno
    rw [cuts_slashFree hno] at hcut
    exact absurd hcut List.not_mem_nil
  obtain ⟨u, w, rfl, hw⟩ := exists_cut hslash
  have hu : maxPathLen ≤ u.length := by
    rw [cuts_append, cuts_slashFree hw] at hcut
    rcases List.mem_append.mp hcut with hmem | hmem
    · obtain ⟨v, rfl⟩ := mem_cuts hmem
      rw [List.length_append]
      omega
    · rw [List.mem_singleton.mp hmem] at hlong
      exact hlong
  have hnul := (nulFree_append.mp hpath).1
  have hlast : strrchr (u ++ slash :: w ++ nul :: rest) slash = some u.length := by
    rw [strrchr, cstr_append_nul hpath, lastIdx_append u hw]
  have hset : (u ++ slash :: w ++ nul :: rest).set u.length nul = u ++ nul :: (w ++ nul :: rest) := by
    rw [List.append_assoc, List.cons_append, set_append]
  have hne : u ≠ [] := List.ne_nil_of_length_pos (lt_of_lt_of_le maxPathLen_pos hu)
  have hsys : sysMkdir fs u s = (.error (.other (lit "File name too long")), s) := by
    rw [sysMkdir, if_neg hne, if_pos hu]
  refine ⟨u, w ++ nul :: rest, ?_, hnul, by simp⟩
  rw [mkdirs, upLoop, hlast]
  simp only [hset, putBack, cstr_append_nul hnul, hsys]

/-- The root is always there, so the places above a path are those of `locs`. -/
theorem canMake_ancestors (path : CStr) (s : σ) :
    CanMake fs (ancestors path) s ↔ CanMake fs (locs path) s := by
  unfold ancestors locs
  induction cuts path generalizing s with
  | nil => exact Iff.rfl
  | cons cut cuts ih =>
    rw [List.map_cons]
    by_cases hcut : cut = []
    · rw [List.filter_cons_of_neg (by simpa using hcut), ← ih]
      have hroot : ∀ d ∈ [Loc.root], fs.IsDir s d := fun d hd => by
        rw [List.mem_singleton.mp hd]
        exact fs.root s
      rw [dirOf, if_pos hcut]
      exact canMake_append hroot
    · rw [List.filter_cons_of_pos (by simpa using hcut), List.map_cons, dirOf, if_neg hcut, CanMake,
        CanMake, ih]
      simp only [ih]

theorem isDir_ancestors (path : CStr) (s : σ) :
    (∀ d ∈ ancestors path, fs.IsDir s d) ↔ ∀ d ∈ locs path, fs.IsDir s d := by
  unfold ancestors locs
  constructor
  · intro h d hd
    obtain ⟨cut, hcut, rfl⟩ := List.mem_map.mp hd
    obtain ⟨hmem, hne⟩ := List.mem_filter.mp hcut
    have hdir := h (dirOf cut) (List.mem_map_of_mem hmem)
    rwa [dirOf, if_neg (by simpa using hne)] at hdir
  · intro h d hd
    obtain ⟨cut, hcut, rfl⟩ := List.mem_map.mp hd
    rw [dirOf]
    split
    · exact fs.root s
    · next hne =>
      exact h _ (List.mem_map_of_mem (List.mem_filter.mpr ⟨hcut, by simpa using hne⟩))

end

/-- `mkdirs` keeps its contract just where there is a directory in the path behind a `/` at its
beginning, the directories can be named, and each is there or can be made. -/
theorem mkdirs_keeps_iff (fs : Directories σ) {path : CStr} (hpath : NulFree path)
    (hslash : slash ∈ path) (rest : List Byte) (s : σ) :
    KeepsContract fs path rest s ↔ slash ∈ path.tail ∧
      (∀ cut ∈ cuts path, cut.length < maxPathLen) ∧ CanMake fs (ancestors path) s := by
  -- a run that fails leaves a shorter path
  have hfailed : ∀ u z s', mkdirs fs (path ++ nul :: rest) s = some ⟨-1, u ++ nul :: z, s'⟩ →
      NulFree u → u.length < path.length → ¬ KeepsContract fs path rest s := by
    rintro u z s' hrun hu hlt ⟨r, hr, hmem, -⟩
    cases hrun.symm.trans hr
    rw [cstr_append_nul hu] at hmem
    rw [hmem] at hlt
    exact absurd hlt (lt_irrefl _)
  by_cases hlen : ∀ cut ∈ cuts path, cut.length < maxPathLen
  · have hrun := @mkdirs_eq σ fs path rest s hpath hslash hlen
    have hmake : locs path ≠ [] →
        ((∃ s', makeAll fs (locs path) s = (true, s') ∧ ∀ d ∈ locs path, fs.IsDir s' d) ↔
          CanMake fs (locs path) s) := makeAll_iff (locs_descends path)
    rw [canMake_ancestors, ← locs_ne_nil]
    rcases hall : makeAll fs (locs path) s with ⟨_ | _, s'⟩
    · rw [hall] at hrun hmake
      obtain ⟨u, z, hrun, hu, hlt⟩ := hrun
      refine iff_of_false (hfailed u z s' hrun hu hlt) ?_
      rintro ⟨hne, -, hcan⟩
      obtain ⟨s'', hrun', -⟩ := (hmake hne).mpr hcan
      cases hrun'
    · rw [hall] at hrun hmake
      have hne : locs path ≠ [] := by
        intro hnil
        rw [hnil] at hall
        cases hall
      have hmade : KeepsContract fs path rest s ↔ ∀ d ∈ locs path, fs.IsDir s' d := by
        rw [← isDir_ancestors]
        constructor
        · rintro ⟨r, hr, -, hdirs, -⟩
          cases hrun.symm.trans hr
          exact hdirs rfl
        · intro hdirs
          exact ⟨_, hrun, cstr_append_nul hpath rest, fun _ => hdirs, fun _ => rfl⟩
      rw [hmade]
      constructor
      · exact fun hdirs => ⟨hne, hlen, (hmake hne).mp ⟨s', rfl, hdirs⟩⟩
      · rintro ⟨-, -, hcan⟩
        obtain ⟨s'', hrun', hdirs⟩ := (hmake hne).mpr hcan
        cases hrun'
        exact hdirs
  · have hlong : ∃ cut ∈ cuts path, maxPathLen ≤ cut.length := by
      simpa only [not_forall, not_lt, exists_prop] using hlen
    obtain ⟨u, z, hrun, hu, hlt⟩ := @mkdirs_long σ fs path rest s hpath hlong
    exact iff_of_false (hfailed u z s hrun hu hlt) fun h => hlen h.2.1

/-- Every place is a directory. -/
def everyDir : Directories Unit where
  mkdir _ s := (.error .eexist, s)
  IsDir _ _ := True
  root _ := trivial
  made _ _ _ h := by cases h
  kept _ _ _ _ := trivial
  failed _ _ _ _ h := by cases h; rfl
  found _ _ _ := rfl
  above _ _ _ _ _ := trivial
  missing _ _ _ h := by cases h

theorem mkdirs_keeps_plain :
    KeepsContract everyDir (lit "a/b") [] () ↔ slash ∈ (lit "a/b").tail ∧
      (∀ cut ∈ cuts (lit "a/b"), cut.length < maxPathLen) ∧
        CanMake everyDir (ancestors (lit "a/b")) () :=
  mkdirs_keeps_iff everyDir (by decide) (by decide) [] ()

/-- Of a path in the root, whose only directory is there, `mkdirs` cuts off the name. -/
theorem not_mkdirs_keeps :
    ¬ ∀ (σ : Type) (fs : Directories σ) (path : CStr) (rest : List Byte) (s : σ), NulFree path →
      slash ∈ path → KeepsContract fs path rest s := by
  intro h
  obtain ⟨r, hrun, hpath, -, -⟩ := h Unit everyDir (lit "/b") [] () (by decide) (by decide)
  have hcut : mkdirs everyDir (lit "/b" ++ nul :: []) () = some ⟨-1, [nul, 98, nul], ()⟩ := rfl
  rw [hcut] at hrun
  cases hrun
  exact absurd hpath (by decide)

end Mkdirs
end Radmind
