import Radmind.PathCmp

/-!
# Lists of paths

`list.c` keeps paths in a linked list.  A list here is the sequence of the `n_path`
from its head on.
-/

namespace Radmind

abbrev PathList := List CStr

/-- `list_insert_case`, `none` where `_list_create_node` refuses the path. -/
def listInsertCase (list : PathList) (path : CStr) (caseSensitive : Bool) : Option PathList :=
  if path.length ≥ maxPathLen then none
  else
    some ((list.takeWhile fun cur => pathcasecmp cur path caseSensitive ≤ 0) ++
      path :: list.dropWhile fun cur => pathcasecmp cur path caseSensitive ≤ 0)

def listInsert (list : PathList) (path : CStr) : Option PathList := listInsertCase list path true

def listInsertTail (list : PathList) (path : CStr) : Option PathList :=
  if path.length ≥ maxPathLen then none else some (list ++ [path])

def listRemove (list : PathList) (path : CStr) : PathList :=
  list.filter fun cur => pathcmp cur path ≠ 0

def listCheck (list : PathList) (path : CStr) : Bool := list.any fun cur => pathcmp cur path = 0

section

variable {list list' : PathList} {path p : CStr} {cs : Bool}

theorem listCheck_iff (hlist : ∀ cur ∈ list, NulFree cur) (hpath : NulFree path) :
    listCheck list path = true ↔ path ∈ list := by
  simp only [listCheck, List.any_eq_true, decide_eq_true_eq]
  constructor
  · intro ⟨cur, hcur, heq⟩
    exact (pathcmp_eq_zero (hlist cur hcur) hpath).mp heq ▸ hcur
  · intro h
    exact ⟨path, h, (pathcmp_eq_zero hpath hpath).mpr rfl⟩

theorem mem_listRemove (hlist : ∀ cur ∈ list, NulFree cur) (hpath : NulFree path) :
    p ∈ listRemove list path ↔ p ∈ list ∧ p ≠ path := by
  simp only [listRemove, List.mem_filter, decide_eq_true_eq]
  constructor
  · intro ⟨hp, hne⟩
    exact ⟨hp, fun heq => hne ((pathcmp_eq_zero (hlist p hp) hpath).mpr heq)⟩
  · intro ⟨hp, hne⟩
    exact ⟨hp, fun heq => hne ((pathcmp_eq_zero (hlist p hp) hpath).mp heq)⟩

theorem listInsertCase_eq (h : listInsertCase list path cs = some list') :
    list' = (list.takeWhile fun cur => pathcasecmp cur path cs ≤ 0) ++
      path :: list.dropWhile fun cur => pathcasecmp cur path cs ≤ 0 := by
  unfold listInsertCase at h
  split at h
  · exact absurd h (by simp)
  · exact (Option.some.inj h).symm

theorem mem_listInsertCase (h : listInsertCase list path cs = some list') :
    p ∈ list' ↔ p = path ∨ p ∈ list := by
  rw [listInsertCase_eq h, List.mem_append, List.mem_cons]
  have hsplit := @List.takeWhile_append_dropWhile _ (fun cur => decide (pathcasecmp cur path cs ≤ 0))
    list
  have hmem : p ∈ list ↔ p ∈ (list.takeWhile fun cur => pathcasecmp cur path cs ≤ 0) ∨
      p ∈ list.dropWhile fun cur => pathcasecmp cur path cs ≤ 0 := by
    rw [← List.mem_append, hsplit]
  rw [hmem]
  tauto

/-- No path of the list comes after one behind it. -/
def PathSorted (cs : Bool) (list : PathList) : Prop :=
  list.Pairwise fun p q => pathcasecmp p q cs ≤ 0

/-- Where the comparison is transitive on the paths, the list stays sorted. -/
theorem PathSorted.insert {named : CStr → Prop} (hnul : ∀ p, named p → NulFree p)
    (htrans : ∀ p q r, named p → named q → named r → pathcasecmp p q cs ≤ 0 →
      pathcasecmp q r cs ≤ 0 → pathcasecmp p r cs ≤ 0)
    (hlist : ∀ cur ∈ list, named cur) (hpath : named path) (hs : PathSorted cs list)
    (h : listInsertCase list path cs = some list') : PathSorted cs list' := by
  rw [listInsertCase_eq h]
  clear h
  induction list with
  | nil => simp [PathSorted]
  | cons a list ih =>
    have ha := hlist a List.mem_cons_self
    have hrest := fun cur hm => hlist cur (List.mem_cons_of_mem a hm)
    obtain ⟨hfirst, hs⟩ := List.pairwise_cons.mp hs
    rw [List.takeWhile_cons, List.dropWhile_cons]
    by_cases hle : pathcasecmp a path cs ≤ 0
    · rw [if_pos (by simpa using hle), if_pos (by simpa using hle)]
      refine List.pairwise_cons.mpr ⟨fun b hb => ?_, ih hrest hs⟩
      rcases List.mem_append.mp hb with hb | hb
      · exact hfirst b ((List.takeWhile_prefix _).subset hb)
      rcases List.mem_cons.mp hb with rfl | hb
      · exact hle
      · exact hfirst b ((List.dropWhile_suffix _).subset hb)
    · rw [if_neg (by simpa using hle), if_neg (by simpa using hle)]
      have hlt : pathcasecmp path a cs ≤ 0 := by
        have := (pathcasecmp_swap cs (hnul path hpath) (hnul a ha)).1
        omega
      refine List.pairwise_cons.mpr ⟨fun b hb => ?_, List.pairwise_cons.mpr ⟨hfirst, hs⟩⟩
      rcases List.mem_cons.mp hb with rfl | hb
      · exact hlt
      · exact htrans path a b hpath ha (hrest b hb) hlt (hfirst b hb)

theorem PathSorted.remove (hs : PathSorted cs list) (path : CStr) :
    PathSorted cs (listRemove list path) :=
  hs.sublist List.filter_sublist

end

end Radmind
