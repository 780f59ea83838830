import Radmind.Fsdiff.Order

/-!
# The order of a directory

`readdir` returns the entries of a directory in any order.  The walk sorts them, so neither
the calls of `transcript` nor what they print depend on that order.
-/

namespace Radmind

/-- The file systems differ in the order of the entries of their directories only. -/
structure SameEntries (fs fs' : FileSystem) : Prop where
  radstat : fs.radstat = fs'.radstat
  readdir : ∀ path, Option.Rel List.Perm (fs.readdir path) (fs'.readdir path)

/-- The same result, or an error on either side.  Of several entries that cannot be read
the first one names the error. -/
def Alike {α : Type} (x y : Except WalkExit α) : Prop :=
  x = y ∨ ∃ e e', x = .error e ∧ y = .error e'

/-- The same calls, and results that are alike. -/
def Walked.Same (w w' : Walked) : Prop := w.visits = w'.visits ∧ Alike w.result w'.result

/-! ## The sorted list -/

/-- A directory can be read where `radstat` knows all its entries. -/
theorem readLoop_ok_iff {cmp : CStr → CStr → Int} {path : CStr} {entries : List (CStr × RadStat)}
    {head : List FsList} {last : Option Nat} :
    (∃ head', readLoop cmp path head last entries = .ok head') ↔
      ∀ de ∈ entries, (de.1 = lit "." ∨ de.1 = lit "..") ∨ ∃ o, de.2.found path path = .ok o := by
  induction entries generalizing head last with
  | nil => exact ⟨fun _ _ h => absurd h List.not_mem_nil, fun _ => ⟨head, rfl⟩⟩
  | cons de entries ih =>
    obtain ⟨name, status⟩ := de
    rw [readLoop, List.forall_mem_cons]
    split
    · next hdots =>
      rw [ih]
      exact ⟨fun h => ⟨.inl hdots, h⟩, fun h => h.2⟩
    · next hdots =>
      split
      · next e he =>
        constructor
        · rintro ⟨_, h⟩
          cases h
        · rintro ⟨h | ⟨o, ho⟩, -⟩
          · exact absurd h hdots
          · cases he.symm.trans ho
      · next o ho =>
        refine (@ih (fsInsert cmp head last ⟨name, o⟩).1
          (some (fsInsert cmp head last ⟨name, o⟩).2)).trans ?_
        exact ⟨fun h => ⟨.inr ⟨o, ho⟩, h⟩, fun h => h.2⟩

theorem NameSorted.nodup {head : List FsList} (h : NameSorted head) : head.Nodup := by
  refine h.sorted.imp fun {a b} hlt heq => ?_
  rw [heq] at hlt
  exact lt_irrefl _ hlt

/-- There is one sorted list of the same entries. -/
theorem NameSorted.eq_of_mem {head head' : List FsList} (h : NameSorted head)
    (h' : NameSorted head') (hmem : ∀ fl, fl ∈ head ↔ fl ∈ head') : head = head' := by
  have hperm := (List.perm_ext_iff_of_nodup h.nodup h'.nodup).mpr fun fl => hmem fl
  exact hperm.eq_of_pairwise (fun _ _ _ _ hab hba => absurd hab (lt_asymm hba)) h.sorted h'.sorted

section

variable {fs fs' : FileSystem}

theorem SameEntries.symm (h : SameEntries fs fs') : SameEntries fs' fs := by
  refine ⟨h.radstat.symm, fun path => ?_⟩
  have hdir := h.readdir path
  generalize fs.readdir path = entries at hdir ⊢
  generalize fs'.readdir path = entries' at hdir ⊢
  cases hdir with
  | none => exact .none
  | some hperm => exact .some hperm.symm

theorem SameEntries.readEntries_ok (h : SameEntries fs fs') {path : CStr} {head : List FsList}
    (hread : readEntries true fs path = .ok head) : readEntries true fs' path = .ok head := by
  have hsorted := readEntries_sorted hread
  have hdir := h.readdir path
  unfold readEntries at hread
  split at hread
  · cases hread
  next entries hentries =>
  rw [hentries] at hdir
  obtain ⟨entries', hentries', hperm⟩ :
      ∃ entries', fs'.readdir path = some entries' ∧ entries.Perm entries' := by
    cases hopt : fs'.readdir path with
    | none =>
      rw [hopt] at hdir
      cases hdir
    | some entries' =>
      rw [hopt] at hdir
      cases hdir with
      | some hperm => exact ⟨entries', rfl, hperm⟩
  have hall := readLoop_ok_iff.mp ⟨head, hread⟩
  obtain ⟨head', hloop⟩ : ∃ head', readLoop (nameCmp true) path [] none entries' = .ok head' :=
    readLoop_ok_iff.mpr fun de hde => hall de (hperm.mem_iff.mpr hde)
  have hread' : readEntries true fs' path = .ok head' := by
    unfold readEntries
    rw [hentries']
    exact hloop
  have hmem : ∀ fl, fl ∈ head ↔ fl ∈ head' := by
    intro fl
    rw [mem_readLoop hread, mem_readLoop hloop]
    simp only [hperm.mem_iff]
  rw [hread', hsorted.eq_of_mem (readEntries_sorted hread') hmem]

theorem SameEntries.readEntries_alike (h : SameEntries fs fs') (path : CStr) :
    Alike (readEntries true fs path) (readEntries true fs' path) := by
  cases hread : readEntries true fs path with
  | ok head => exact .inl (h.readEntries_ok hread).symm
  | error e =>
    cases hread' : readEntries true fs' path with
    | ok head => cases hread.symm.trans (h.symm.readEntries_ok hread')
    | error e' => exact .inr ⟨e, e', rfl, rfl⟩

end

/-! ## The walk -/

theorem Walked.Same.refl (w : Walked) : w.Same w := ⟨rfl, .inl rfl⟩

theorem Walked.Same.andThen {w w' : Walked} {next next' : Run → Walked} (h : w.Same w')
    (hnext : ∀ r, (next r).Same (next' r)) : (w.andThen next).Same (w'.andThen next') := by
  obtain ⟨visits, result⟩ := w
  obtain ⟨visits', result'⟩ := w'
  obtain ⟨hvisits, hresult⟩ := h
  obtain rfl : visits = visits' := hvisits
  obtain hresult | ⟨e, e', he, he'⟩ := hresult
  · obtain rfl : result = result' := hresult
    cases result with
    | error e => exact .refl _
    | ok r =>
      rw [Walked.andThen_ok, Walked.andThen_ok]
      exact ⟨congrArg (visits ++ ·) (hnext r).1, (hnext r).2⟩
  · obtain rfl : result = .error e := he
    obtain rfl : result' = .error e' := he'
    exact ⟨rfl, .inr ⟨e, e', rfl, rfl⟩⟩

section

variable {cfg : WalkConfig} {fs fs' : FileSystem} {walk walk' : FsEntry → Run → Walked}

/-- The loop on a negative directory asks `radstat` only. -/
theorem negativeLoop_congr (h : fs.radstat = fs'.radstat) (path : CStr) (pdel : Bool) (n : Nat) :
    negativeLoop cfg fs path pdel walk n = negativeLoop cfg fs' path pdel walk n := by
  induction n with
  | zero => rfl
  | succ n ih =>
    funext r
    rw [negativeLoop, negativeLoop, h, ih]

theorem negativeLoop_same (path : CStr) (pdel : Bool) (hwalk : ∀ e r, (walk e r).Same (walk' e r))
    (n : Nat) (r : Run) : (negativeLoop cfg fs path pdel walk n r).Same
      (negativeLoop cfg fs path pdel walk' n r) := by
  induction n generalizing r with
  | zero => exact .refl _
  | succ n ih =>
    obtain ⟨result, -, heq⟩ | ⟨c, i, t, o, hpass⟩ := negativeLoop_cases cfg fs path pdel r
    · rw [heq, heq]
      exact .refl _
    · rw [hpass.round, hpass.round]
      exact (hwalk _ _).andThen ih

theorem walkEntries_same (path : CStr) (delParent : Bool)
    (hwalk : ∀ e r, (walk e r).Same (walk' e r)) (entries : List FsList) (r : Run) :
    (walkEntries path delParent walk entries r).Same
      (walkEntries path delParent walk' entries r) := by
  induction entries generalizing r with
  | nil => exact .refl _
  | cons cur next ih =>
    rw [walkEntries, walkEntries]
    split
    · exact .refl _
    · exact (hwalk _ _).andThen ih

theorem fsWalk_same (hcs : cfg.caseSensitive = true) (h : SameEntries fs fs') (fuel : Nat)
    (negative : Bool) (e : FsEntry) (r : Run) :
    (fsWalk cfg fs fuel negative e r).Same (fsWalk cfg fs' fuel negative e r) := by
  induction fuel generalizing negative e r with
  | zero => exact .refl _
  | succ fuel ih =>
    rw [fsWalk, fsWalk]
    split
    · exact .refl _
    · refine (Walked.Same.refl _).andThen fun r => ?_
      rw [← negativeLoop_congr h.radstat]
      exact negativeLoop_same _ _ (ih true) fuel r
    · exact .refl _
    · split
      · exact .refl _
      rw [hcs]
      obtain heq | ⟨x, x', hx, hx'⟩ := h.readEntries_alike e.path
      · rw [heq]
        split
        · exact .refl _
        · exact (Walked.Same.refl _).andThen fun r => walkEntries_same _ _ (ih false) _ r
      · rw [hx, hx']
        exact ⟨rfl, .inr ⟨_, _, rfl, rfl⟩⟩
    · exact .refl _

end

/-- The calls of `transcript` in a run of `fsdiff`, and what it has printed when it comes to
its end, do not depend on the order in which `readdir` returns the entries. -/
theorem fsdiff_ignores_order {cfg : WalkConfig} (hcs : cfg.caseSensitive = true)
    {fs fs' : FileSystem} (h : SameEntries fs fs') (fuel : Nat) (path : CStr) (r : Run) :
    (fsdiff cfg fs fuel path r).Same (fsdiff cfg fs' fuel path r) := by
  unfold fsdiff
  rw [h.radstat]
  split
  · exact (fsWalk_same hcs h fuel false _ r).andThen fun r => .refl _
  · exact .refl _

/-- The entries come in the opposite order. -/
def FileSystem.reversed (fs : FileSystem) : FileSystem where
  radstat := fs.radstat
  readdir path := (fs.readdir path).map List.reverse
  distinct path entries h := by
    obtain ⟨entries', hdir, rfl⟩ := Option.map_eq_some_iff.mp h
    rw [List.map_reverse, List.nodup_reverse]
    exact fs.distinct path entries' hdir
  isName path entries h de hde := by
    obtain ⟨entries', hdir, rfl⟩ := Option.map_eq_some_iff.mp h
    exact fs.isName path entries' hdir de (List.mem_reverse.mp hde)

theorem sameEntries_reversed (fs : FileSystem) : SameEntries fs fs.reversed := by
  refine ⟨rfl, fun path => ?_⟩
  show Option.Rel List.Perm (fs.readdir path) ((fs.readdir path).map List.reverse)
  cases fs.readdir path with
  | none => exact .none
  | some entries => exact .some (List.reverse_perm entries).symm

theorem fsdiff_ignores_order_dot :
    (fsdiff dotConfig dotFs 4 (lit "/") ⟨twoCursors, .start⟩).Same
      (fsdiff dotConfig dotFs.reversed 4 (lit "/") ⟨twoCursors, .start⟩) :=
  fsdiff_ignores_order rfl (sameEntries_reversed dotFs) 4 (lit "/") ⟨twoCursors, .start⟩

end Radmind
