import Radmind.ArgcArgv
import Radmind.Lib.FailingState

/-!
# The arguments that `lfdiff` passes to `diff`

`main` of `lfdiff` collects the diff options in `diffargv`.  Each option resizes the array to
what that option alone needs, however many entries it has already.
-/

namespace Radmind

open FailingState

/-- The options that are passed on to `diff`. -/
inductive DiffOption
  /-- 'b', 'i', 't', 'c', 'e', 'f', 'n' and 's' -/
  | plain (c : Byte)
  /-- 'C' and 'D' -/
  | valued (c : Byte) (optarg : CStr)
  /-- 'X' -/
  | words (optarg : CStr)
  deriving DecidableEq, Repr

/-- The variables of `main` that the options are about: the count and the slots of `diffargv`,
the memory from `opt` on, and `err`.  The stores into `diffargv` are noted with the slots it had,
the allocations are counted. -/
structure DiffArgs where
  diffargc : Nat
  slots : Nat
  opt : List Byte
  err : Bool
  allocs : Nat
  stores : List (Nat × Nat)
  deriving DecidableEq, Repr

abbrev Lfdiff (α : Type) := Act Int DiffArgs α

section

variable (alloc : Nat → Bool)

/-- An allocation, whose failure ends the program. -/
def allocate : Lfdiff Unit := do
  let st ← get
  set { st with allocs := st.allocs + 1 }
  check (alloc st.allocs) 2

/-- `realloc( diffargv, ( sizeof( *diffargv ) + ( n * sizeof( char * ))))` -/
def reallocArgv (n : Int) : Lfdiff Unit := do
  allocate alloc
  modify fun st => { st with slots := ((8 + n * 8) % 2 ^ 64 / 8).toNat }

/-- `diffargv[ diffargc++ ] =` -/
def storeArg : Lfdiff Unit := modify fun st =>
  { st with diffargc := st.diffargc + 1, stores := st.stores ++ [(st.diffargc, st.slots)] }

def storeArgs : Nat → Lfdiff Unit
  | 0 => pure ()
  | n + 1 => do
    storeArg
    storeArgs n

/-- `snprintf( opt, sizeof( opt ), "-%c", c )` -/
def printOpt (c : Byte) : Lfdiff Unit := modify fun st =>
  { st with opt := minus :: c :: nul :: st.opt.drop 3 }

/-- `argcargv( opt, &argcargv )`: the number of words, -1 where their array cannot grow. -/
def splitOpt : Lfdiff Int := do
  let st ← get
  let parsed := acavParse st.opt
  set { st with allocs := st.allocs + 1, opt := parsed.1 }
  pure (if alloc st.allocs then parsed.2.length else -1)

/-- A case of the switch over the options. -/
def diffOption : DiffOption → Lfdiff Unit
  | .plain c => do
    reallocArgv alloc 2
    printOpt c
    allocate alloc
    storeArg
  | .valued c _ => do
    reallocArgv alloc 3
    printOpt c
    allocate alloc
    storeArg
    storeArg
  | .words _ => do
    -- the words are those of opt, not of optarg
    let tac ← splitOpt alloc
    modify fun st => { st with err := st.err || decide (tac < 0) }
    reallocArgv alloc tac
    storeArgs tac.toNat

def diffOptions : List DiffOption → Lfdiff Unit
  | [] => pure ()
  | o :: options => do
    diffOption alloc o
    diffOptions options

/-- `main` of `lfdiff` as far as `diffargv` is concerned, on a run that goes on to `execve`. -/
def lfdiffArgs (options : List DiffOption) : Lfdiff Unit := do
  diffOptions alloc options
  let st ← get
  check (!st.err) 2
  reallocArgv alloc 4
  storeArgs 4

end

/-- `diffargv` with the name of the program in its one slot. -/
def diffStart (opt : List Byte) : DiffArgs :=
  { diffargc := 1, slots := 1, opt := opt, err := false, allocs := 0, stores := [(0, 1)] }

/-- Every store is to a slot that was allocated. -/
def StoresFit (alloc : Nat → Bool) (opt : List Byte) (options : List DiffOption) : Prop :=
  ∀ store ∈ ((lfdiffArgs alloc options).result (diffStart opt)).2.stores, store.1 < store.2

/-- No option adds an entry: there is none but 'X', which finds no word in `opt`. -/
def NoEntries (opt : List Byte) (options : List DiffOption) : Prop :=
  (∀ o ∈ options, ∃ optarg, o = .words optarg) ∧ (options ≠ [] → words opt = [])

/-! ## Options that add nothing -/

/-- A line without words stays as it is. -/
theorem acavLoop_blank {prev line : List Byte} (h : (acavLoop prev false line).2 = []) :
    (acavLoop prev false line).1 = line := by
  induction line generalizing prev with
  | nil => rfl
  | cons c line ih =>
    rw [acavLoop] at h ⊢
    by_cases hc : c = nul
    · rw [if_pos hc]
    rw [if_neg hc] at h ⊢
    by_cases hblank : isBlank prev c
    · rw [if_pos hblank] at h ⊢
      exact congrArg (c :: ·) (ih h)
    · rw [if_neg hblank] at h
      cases h

/-- Nothing was added to `diffargv`. -/
structure Unextended (opt : List Byte) (st : DiffArgs) : Prop where
  diffargc : st.diffargc = 1
  stores : st.stores = [(0, 1)]
  opt : st.opt = opt

section

variable {alloc : Nat → Bool} {opt : List Byte} {st : DiffArgs}

theorem meets_reallocArgv (h : Unextended opt st) (n : Int) :
    Meets (reallocArgv alloc n) st
      (fun _ st' => Unextended opt st' ∧ st'.slots = ((8 + n * 8) % 2 ^ 64 / 8).toNat)
      (fun _ st' => Unextended opt st') := by
  unfold reallocArgv allocate
  rw [meets_bind, meets_bind, meets_get, meets_bind, meets_set, meets_check]
  split_ifs
  · exact ⟨⟨h.diffargc, h.stores, h.opt⟩, rfl⟩
  · exact ⟨h.diffargc, h.stores, h.opt⟩

theorem meets_words (hopt : words opt = []) (h : Unextended opt st) (optarg : CStr) :
    Meets (diffOption alloc (.words optarg)) st (fun _ st' => Unextended opt st')
      (fun _ st' => Unextended opt st') := by
  have hparse : (acavParse st.opt).2 = [] := by
    rw [h.opt]
    exact List.map_eq_nil_iff.mp hopt
  have hsame : (acavParse st.opt).1 = opt := (acavLoop_blank hparse).trans h.opt
  unfold diffOption splitOpt
  rw [meets_bind, meets_bind, meets_get, meets_bind, meets_set, meets_pure, meets_bind,
    meets_modify]
  refine Meets.bind (meets_reallocArgv ?_ _) ?_
  · exact ⟨h.diffargc, h.stores, hsame⟩
  intro _ st' ⟨hst', _⟩
  rw [hparse]
  split_ifs
  · exact hst'
  · exact hst'

theorem meets_blankOptions {options : List DiffOption} (hopts : NoEntries opt options)
    (h : Unextended opt st) :
    Meets (diffOptions alloc options) st (fun _ st' => Unextended opt st')
      (fun _ st' => Unextended opt st') := by
  induction options generalizing st with
  | nil => exact h
  | cons o options ih =>
    have hopt := hopts.2 (List.cons_ne_nil o options)
    obtain ⟨⟨optarg, rfl⟩, hrest⟩ := List.forall_mem_cons.mp hopts.1
    rw [diffOptions]
    exact Meets.bind (meets_words hopt h optarg) fun _ st' hst' => ih ⟨hrest, fun _ => hopt⟩ hst'

theorem storesFit_of_noEntries {options : List DiffOption} (h : NoEntries opt options) :
    StoresFit alloc opt options := by
  have hone : ∀ {st : DiffArgs}, Unextended opt st → ∀ store ∈ st.stores, store.1 < store.2 := by
    intro st hst
    rw [hst.stores]
    decide
  have hrun : Meets (lfdiffArgs alloc options) (diffStart opt)
      (fun _ st' => ∀ store ∈ st'.stores, store.1 < store.2)
      (fun _ st' => ∀ store ∈ st'.stores, store.1 < store.2) := by
    unfold lfdiffArgs
    refine Meets.bind ((meets_blankOptions h ⟨rfl, rfl, rfl⟩).mono (fun _ _ => id)
      (fun _ _ => hone)) ?_
    intro _ st₁ hst₁
    rw [meets_bind, meets_get]
    refine Meets.check_bind (hone hst₁) fun _ => ?_
    refine Meets.bind ((meets_reallocArgv hst₁ 4).mono (fun _ _ => id) (fun _ _ => hone)) ?_
    intro _ st₂ ⟨hst₂, hslots⟩
    simp only [storeArgs, storeArg, meets_bind, meets_modify, meets_pure, hst₂.diffargc,
      hst₂.stores, hslots]
    decide
  obtain ⟨hok, hfail⟩ := meets_iff.mp hrun
  unfold StoresFit
  rcases hr : (lfdiffArgs alloc options).result (diffStart opt) with ⟨e | a, st'⟩
  · exact hfail e st' hr
  · exact hok a st' hr

/-! ## Options that add an entry -/

theorem meets_allocate_all (hall : ∀ n, alloc n = true) :
    Meets (allocate alloc) st (fun _ st' => st' = { st with allocs := st.allocs + 1 })
      (fun _ _ => False) := by
  unfold allocate
  rw [meets_bind, meets_get, meets_bind, meets_set, meets_check, if_pos (hall _)]

theorem meets_reallocArgv_all (hall : ∀ n, alloc n = true) (n : Int) :
    Meets (reallocArgv alloc n) st
      (fun _ st' => st' = { st with
        allocs := st.allocs + 1, slots := ((8 + n * 8) % 2 ^ 64 / 8).toNat })
      (fun _ _ => False) := by
  unfold reallocArgv
  refine Meets.bind (meets_allocate_all hall) ?_
  rintro _ _ rfl
  exact rfl

theorem meets_storeArgs (n : Nat) (st : DiffArgs) {fail : Int → DiffArgs → Prop} :
    Meets (storeArgs n) st
      (fun _ st' => st'.diffargc = st.diffargc + n ∧ st'.err = st.err) fail := by
  induction n generalizing st with
  | zero => exact ⟨rfl, rfl⟩
  | succ n ih =>
    rw [storeArgs, meets_bind, storeArg, meets_modify]
    refine (ih _).mono ?_ fun _ _ => id
    rintro _ st' ⟨hargc, herr⟩
    exact ⟨hargc.trans (Nat.add_right_comm _ 1 n), herr⟩

/-- Where no allocation fails, an option comes to its end and never takes an entry back. -/
theorem meets_diffOption (hall : ∀ n, alloc n = true) (o : DiffOption) (st : DiffArgs) :
    Meets (diffOption alloc o) st
      (fun _ st' => st.diffargc ≤ st'.diffargc ∧ st'.err = st.err ∧
        ((∃ optarg, o = .words optarg) ∧ words st.opt = [] ∨ st.diffargc < st'.diffargc))
      (fun _ _ => False) := by
  cases o with
  | plain c =>
    unfold diffOption
    refine Meets.bind (meets_reallocArgv_all hall 2) ?_
    rintro _ _ rfl
    rw [printOpt, meets_bind, meets_modify]
    refine Meets.bind (meets_allocate_all hall) ?_
    rintro _ _ rfl
    exact ⟨Nat.le_succ _, rfl, .inr (Nat.lt_succ_self _)⟩
  | valued c optarg =>
    unfold diffOption
    refine Meets.bind (meets_reallocArgv_all hall 3) ?_
    rintro _ _ rfl
    rw [printOpt, meets_bind, meets_modify]
    refine Meets.bind (meets_allocate_all hall) ?_
    rintro _ _ rfl
    rw [storeArg, meets_bind, meets_modify, meets_modify]
    exact ⟨Nat.le_add_right _ 2, rfl, .inr (Nat.lt_add_of_pos_right (Nat.succ_pos 1))⟩
  | words optarg =>
    unfold diffOption splitOpt
    rw [meets_bind, meets_bind, meets_get, meets_bind, meets_set, meets_pure, meets_bind,
      meets_modify, hall]
    refine Meets.bind (meets_reallocArgv_all hall _) ?_
    rintro _ _ rfl
    refine (meets_storeArgs _ _).mono ?_ fun _ _ => id
    rintro _ st' ⟨hargc, herr⟩
    simp only [if_true, Int.toNat_natCast] at hargc
    have herr' : st'.err = st.err := by
      rw [herr]
      simp
    refine ⟨by omega, herr', ?_⟩
    by_cases hwords : words st.opt = []
    · exact .inl ⟨⟨optarg, rfl⟩, hwords⟩
    · have hpos : 0 < (acavParse st.opt).2.length :=
        List.length_pos_iff.mpr fun hnil => hwords (List.map_eq_nil_iff.mpr hnil)
      exact .inr (by omega)

theorem meets_diffOptions_le (hall : ∀ n, alloc n = true) (options : List DiffOption)
    (st : DiffArgs) :
    Meets (diffOptions alloc options) st
      (fun _ st' => st.diffargc ≤ st'.diffargc ∧ st'.err = st.err) (fun _ _ => False) := by
  induction options generalizing st with
  | nil => exact ⟨le_rfl, rfl⟩
  | cons o options ih =>
    rw [diffOptions]
    refine Meets.bind (meets_diffOption hall o st) ?_
    rintro _ st₁ ⟨hargc₁, herr₁, -⟩
    refine (ih st₁).mono ?_ fun _ _ => id
    rintro _ st₂ ⟨hargc₂, herr₂⟩
    exact ⟨hargc₁.trans hargc₂, herr₂.trans herr₁⟩

/-- Options of which one adds an entry. -/
theorem meets_diffOptions_lt (hall : ∀ n, alloc n = true) {options : List DiffOption}
    (hadd : ¬ NoEntries opt options) (h : Unextended opt st) :
    Meets (diffOptions alloc options) st
      (fun _ st' => 1 < st'.diffargc ∧ st'.err = st.err) (fun _ _ => False) := by
  induction options generalizing st with
  | nil => exact absurd ⟨by simp, fun hne => absurd rfl hne⟩ hadd
  | cons o options ih =>
    rw [diffOptions]
    by_cases hblank : (∃ optarg, o = .words optarg) ∧ words opt = []
    · obtain ⟨⟨optarg, rfl⟩, hopt⟩ := hblank
      have hrest : ¬ NoEntries opt options := fun hrest =>
        hadd ⟨List.forall_mem_cons.mpr ⟨⟨optarg, rfl⟩, hrest.1⟩, fun _ => hopt⟩
      have hfirst := (meets_words hopt h optarg).and (meets_diffOption hall (.words optarg) st)
      refine Meets.bind (hfirst.mono (fun _ _ => id) fun _ _ he => he.2) ?_
      rintro _ st₁ ⟨hst₁, -, herr₁, -⟩
      refine (ih hrest hst₁).mono ?_ fun _ _ => id
      rintro _ st₂ ⟨hargc₂, herr₂⟩
      exact ⟨hargc₂, herr₂.trans herr₁⟩
    · refine Meets.bind (meets_diffOption hall o st) ?_
      rintro _ st₁ ⟨-, herr₁, hlt⟩
      rw [h.opt, h.diffargc] at hlt
      have hlt₁ := hlt.resolve_left hblank
      refine (meets_diffOptions_le hall options st₁).mono ?_ fun _ _ => id
      rintro _ st₂ ⟨hargc₂, herr₂⟩
      exact ⟨hlt₁.trans_le hargc₂, herr₂.trans herr₁⟩

/-- Behind an added entry the last of the four appended ones has no slot. -/
theorem noEntries_of_storesFit (hall : ∀ n, alloc n = true) {options : List DiffOption}
    (h : StoresFit alloc opt options) : NoEntries opt options := by
  by_contra hadd
  have hrun : Meets (lfdiffArgs alloc options) (diffStart opt)
      (fun _ st' => ∃ store ∈ st'.stores, ¬ store.1 < store.2) (fun _ _ => False) := by
    unfold lfdiffArgs
    refine Meets.bind (meets_diffOptions_lt hall hadd ⟨rfl, rfl, rfl⟩) ?_
    rintro _ st₁ ⟨hargc, herr⟩
    rw [meets_bind, meets_get, meets_check_bind, herr]
    refine Meets.bind (meets_reallocArgv_all hall 4) ?_
    rintro _ _ rfl
    simp only [storeArgs, storeArg, meets_bind, meets_modify, meets_pure]
    refine ⟨_, List.mem_append_right _ List.mem_cons_self, ?_⟩
    show ¬ st₁.diffargc + 1 + 1 + 1 < 5
    omega
  obtain ⟨hok, hfail⟩ := meets_iff.mp hrun
  unfold StoresFit at h
  rcases hr : (lfdiffArgs alloc options).result (diffStart opt) with ⟨e | a, st'⟩
  · exact hfail e st' hr
  · rw [hr] at h
    obtain ⟨store, hmem, hnot⟩ := hok a st' hr
    exact hnot (h store hmem)

end

/-- The stores into `diffargv` are in bounds exactly where no option adds an entry to it. -/
theorem lfdiff_stores_iff (opt : List Byte) (options : List DiffOption) :
    (∀ alloc, StoresFit alloc opt options) ↔ NoEntries opt options :=
  ⟨fun h => noEntries_of_storesFit (fun _ => rfl) (h fun _ => true),
    fun h _ => storesFit_of_noEntries h⟩

/-- `lfdiff -b`: the list's end goes into a sixth slot. -/
theorem not_lfdiff_stores :
    ¬ ∀ (opt : List Byte) (options : List DiffOption) (alloc : Nat → Bool),
      StoresFit alloc opt options := by
  intro h
  have hnone := noEntries_of_storesFit (fun _ => rfl) (h [nul] [.plain 98] fun _ => true)
  obtain ⟨optarg, hwords⟩ := hnone.1 (.plain 98) List.mem_cons_self
  cases hwords

end Radmind
