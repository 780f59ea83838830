import Radmind.PathList
import Radmind.Transcript.Parse

/-!
# Command files

Every program reads the command files itself, line by line.  The special files are
kept in a list that later lines can take a path off again.
-/

namespace Radmind

/-- What `fgets` returns for a file, one line after the other.  The bytes bound their
number. -/
def fileLinesUpTo : Nat → List Byte → List (List Byte)
  | 0, _ => []
  | fuel + 1, input =>
    match fgets maxPathLen input with
    | none => []
    | some (line, rest) => line :: fileLinesUpTo fuel rest

def fileLines (content : List Byte) : List (List Byte) := fileLinesUpTo content.length content

theorem fileLinesUpTo_nil (fuel : Nat) : fileLinesUpTo fuel [] = [] := by
  cases fuel <;> rfl

/-- A round of `fgets` leaves less, so that there are rounds enough. -/
theorem fileLinesUpTo_fuel {fuel fuel' : Nat} {input : List Byte} (h : input.length ≤ fuel)
    (h' : input.length ≤ fuel') : fileLinesUpTo fuel input = fileLinesUpTo fuel' input := by
  induction fuel generalizing fuel' input with
  | zero =>
    obtain rfl := List.length_eq_zero_iff.mp (Nat.le_zero.mp h)
    rw [fileLinesUpTo_nil, fileLinesUpTo_nil]
  | succ fuel ih =>
    cases fuel' with
    | zero =>
      obtain rfl := List.length_eq_zero_iff.mp (Nat.le_zero.mp h')
      rw [fileLinesUpTo_nil, fileLinesUpTo_nil]
    | succ fuel' =>
      rw [fileLinesUpTo, fileLinesUpTo]
      cases hgets : fgets maxPathLen input with
      | none => rfl
      | some r =>
        obtain ⟨line, rest⟩ := r
        have hlt := length_fgets_lt (by decide) hgets
        exact congrArg (line :: ·) (ih (by omega) (by omega))

theorem fileLines_nil : fileLines [] = [] := rfl

theorem fileLines_some {input line rest : List Byte}
    (h : fgets maxPathLen input = some (line, rest)) :
    fileLines input = line :: fileLines rest := by
  have hlt := length_fgets_lt (by decide) h
  obtain ⟨n, hn⟩ := Nat.exists_eq_succ_of_ne_zero (Nat.ne_of_gt (Nat.zero_lt_of_lt hlt))
  rw [fileLines, hn, fileLinesUpTo, h]
  exact congrArg (line :: ·) (fileLinesUpTo_fuel (by omega) le_rfl)

/-- The words of a line of a file. -/
def lineWords (line : List Byte) : List CStr := words (line ++ [nul])

theorem nulFree_of_mem_lineWords {line : List Byte} {word : CStr} (h : word ∈ lineWords line) :
    NulFree word := by
  obtain ⟨mem, -, rfl⟩ := List.mem_map.mp h
  exact nulFree_cstr mem

theorem lineWords_row {w : List Byte} {ws : List (List Byte × List Byte)} (h : Row w ws)
    (hnul : ∀ v ∈ w :: ws.map (·.2), NulFree v) : lineWords (lineText w ws) = w :: ws.map (·.2) := by
  have hwords := h.acavLoop (show slashes [] % 2 = 0 from rfl)
  unfold lineWords words acavParse
  generalize (acavLoop [] false (lineText w ws ++ [nul])).2 = argv at hwords
  generalize w :: ws.map (·.2) = vs at hwords hnul
  induction hwords with
  | nil => rfl
  | @cons v mem vs argv hv _ ih =>
    obtain ⟨rest, rfl⟩ := hv
    rw [List.map_cons, cstr_append_nul (hnul v List.mem_cons_self),
      ih fun v hm => hnul v (List.mem_cons_of_mem _ hm)]

/-- An 's' line. -/
structure SpecialLine where
  minus : Bool
  path : CStr
  deriving DecidableEq, Repr

/-- What an 's' line does to `special_list`. -/
def specialLine (caseSensitive : Bool) (specialList : PathList) (l : SpecialLine) :
    Option PathList :=
  if l.minus then
    some (if listCheck specialList l.path then listRemove specialList l.path else specialList)
  -- Added special file if it's not already in the list
  else if listCheck specialList l.path then some specialList
  else listInsertCase specialList l.path caseSensitive

/-- Some line names the path and no minus line behind it does. -/
def Listed (ls : List SpecialLine) (path : CStr) : Prop :=
  ∃ before after, ls = before ++ ⟨false, path⟩ :: after ∧ ⟨true, path⟩ ∉ after

theorem listed_nil (path : CStr) : ¬ Listed [] path := by
  intro ⟨before, after, h, _⟩
  simp at h

theorem listed_snoc {ls : List SpecialLine} {l : SpecialLine} {path : CStr} :
    Listed (ls ++ [l]) path ↔ l = ⟨false, path⟩ ∨ Listed ls path ∧ l ≠ ⟨true, path⟩ := by
  constructor
  · intro ⟨before, after, h, hafter⟩
    rcases List.eq_nil_or_concat after with rfl | ⟨after, a, rfl⟩
    · exact .inl (List.singleton_inj.mp (List.append_inj' h rfl).2)
    · rw [List.concat_eq_append, ← List.cons_append, ← List.append_assoc] at h
      obtain ⟨rfl, hl⟩ := List.append_inj' h rfl
      obtain rfl := List.singleton_inj.mp hl
      rw [List.concat_eq_append, List.mem_append, not_or] at hafter
      exact .inr ⟨⟨before, after, rfl, hafter.1⟩, fun heq => hafter.2 (by simp [heq])⟩
  · intro h
    rcases h with rfl | ⟨⟨before, after, rfl, hafter⟩, hne⟩
    · exact ⟨ls, [], rfl, List.not_mem_nil⟩
    · refine ⟨before, after ++ [l], by simp, ?_⟩
      rw [List.mem_append, not_or]
      exact ⟨hafter, fun hm => hne (List.mem_singleton.mp hm).symm⟩

theorem Listed.mem {ls : List SpecialLine} {path : CStr} (h : Listed ls path) :
    ⟨false, path⟩ ∈ ls := by
  obtain ⟨before, after, rfl, -⟩ := h
  exact List.mem_append_right _ List.mem_cons_self

/-- `special_list` after the lines. -/
structure SpecialList (caseSensitive : Bool) (ls : List SpecialLine) (list : PathList) : Prop where
  nulFree : ∀ l ∈ ls, NulFree l.path
  mem : ∀ path, path ∈ list ↔ Listed ls path
  nodup : list.Nodup
  sorted : (∀ p q r, ⟨false, p⟩ ∈ ls → ⟨false, q⟩ ∈ ls → ⟨false, r⟩ ∈ ls →
    pathcasecmp p q caseSensitive ≤ 0 → pathcasecmp q r caseSensitive ≤ 0 →
      pathcasecmp p r caseSensitive ≤ 0) → PathSorted caseSensitive list

section

variable {cs : Bool} {ls : List SpecialLine} {list list' : PathList} {l : SpecialLine}

theorem SpecialList.nil : SpecialList cs [] [] where
  nulFree := by simp
  mem path := ⟨fun h => absurd h List.not_mem_nil, fun h => absurd h (listed_nil path)⟩
  nodup := List.nodup_nil
  sorted _ := List.Pairwise.nil

theorem SpecialList.nulFree_mem (h : SpecialList cs ls list) : ∀ cur ∈ list, NulFree cur :=
  fun cur hcur => h.nulFree _ ((h.mem cur).mp hcur).mem

theorem nodup_listInsertCase {path : CStr} (hlist : list.Nodup) (hpath : path ∉ list)
    (h : listInsertCase list path cs = some list') : list'.Nodup := by
  rw [listInsertCase_eq h]
  have hperm := @List.perm_middle _ path (list.takeWhile fun cur => pathcasecmp cur path cs ≤ 0)
    (list.dropWhile fun cur => pathcasecmp cur path cs ≤ 0)
  rw [hperm.nodup_iff, List.takeWhile_append_dropWhile]
  exact List.nodup_cons.mpr ⟨hpath, hlist⟩

/-- The last line about a path decides. -/
theorem SpecialList.snoc (h : SpecialList cs ls list) (hl : NulFree l.path)
    (hstep : specialLine cs list l = some list') : SpecialList cs (ls ++ [l]) list' := by
  obtain ⟨isMinus, path⟩ := l
  have hcheck := listCheck_iff h.nulFree_mem hl
  have hnul : ∀ l ∈ ls ++ [⟨isMinus, path⟩], NulFree l.path := by
    intro l hm
    rcases List.mem_append.mp hm with hm | hm
    · exact h.nulFree l hm
    · exact (List.mem_singleton.mp hm) ▸ hl
  unfold specialLine at hstep
  cases isMinus with
  | true =>
    have hlist : list' = list.filter (fun cur => pathcmp cur path ≠ 0) := by
      rw [if_pos rfl] at hstep
      obtain rfl := Option.some.inj hstep
      split
      · rfl
      · next hout =>
        refine (List.filter_eq_self.mpr fun cur hcur => ?_).symm
        simp only [decide_eq_true_eq]
        intro heq
        exact hout (hcheck.mpr ((pathcmp_eq_zero (h.nulFree_mem cur hcur) hl).mp heq ▸ hcur))
    subst hlist
    refine ⟨hnul, fun p => ?_, h.nodup.filter _, fun htrans => (h.sorted ?_).remove path⟩
    · have hmem := @mem_listRemove list path p h.nulFree_mem hl
      rw [listRemove] at hmem
      rw [hmem, h.mem, listed_snoc]
      simp [eq_comm]
    · intro p q r hp hq hr
      exact htrans p q r (List.mem_append_left _ hp) (List.mem_append_left _ hq)
        (List.mem_append_left _ hr)
  | false =>
    rw [if_neg (by simp)] at hstep
    simp only at hstep
    have hmono : ∀ p, (⟨false, p⟩ : SpecialLine) ∈ ls → ⟨false, p⟩ ∈ ls ++ [⟨false, path⟩] :=
      fun p hp => List.mem_append_left _ hp
    by_cases hin : listCheck list path = true
    · rw [if_pos hin] at hstep
      obtain rfl := Option.some.inj hstep
      refine ⟨hnul, fun p => ?_, h.nodup, fun htrans => h.sorted fun p q r hp hq hr =>
        htrans p q r (hmono p hp) (hmono q hq) (hmono r hr)⟩
      rw [listed_snoc, ← h.mem]
      constructor
      · exact fun hp => .inr ⟨hp, by simp⟩
      · intro hp
        rcases hp with heq | ⟨hp, -⟩
        · obtain rfl : path = p := by simpa using heq
          exact hcheck.mp hin
        · exact hp
    · rw [if_neg hin] at hstep
      refine ⟨hnul, fun p => ?_, nodup_listInsertCase h.nodup (fun hm => hin (hcheck.mpr hm)) hstep,
        fun htrans => ?_⟩
      · rw [mem_listInsertCase hstep, h.mem, listed_snoc]
        simp [eq_comm]
      · refine PathSorted.insert (fun p hp => hnul ⟨false, p⟩ hp) htrans (fun cur hcur =>
          hmono cur ((h.mem cur).mp hcur).mem) (by simp) (h.sorted fun p q r hp hq hr =>
            htrans p q r (hmono p hp) (hmono q hq) (hmono r hr)) hstep

end

end Radmind
