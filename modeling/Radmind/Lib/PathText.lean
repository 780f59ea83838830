import Mathlib

/-!
# Paths as text

An absolute path is written as its names, each behind a separator.  Reading it back splits it
at the separators, skips empty names and the mark for "here", and goes up at the mark for "up".
-/

namespace PathText

/-- The separator, and the names that do not name an entry. -/
structure Marks (α : Type) where
  sep : α
  here : List α
  up : List α

variable {α : Type} [DecidableEq α] (m : Marks α)

/-- Each name behind a separator. -/
def text (names : List (List α)) : List α := names.flatMap (m.sep :: ·)

/-- A name that an entry can have. -/
def IsName (n : List α) : Prop := n ≠ [] ∧ n ≠ m.here ∧ n ≠ m.up ∧ m.sep ∉ n

/-- One name of a path, read in a directory. -/
def enter (dir : List (List α)) (n : List α) : List (List α) :=
  if n = [] ∨ n = m.here then dir else if n = m.up then dir.dropLast else dir ++ [n]

/-- The names a path leads through. -/
def resolve (s : List α) : List (List α) := (s.splitOn m.sep).foldl (enter m) []

variable {m}

omit [DecidableEq α] in
@[simp] theorem text_nil : text m [] = [] := rfl

omit [DecidableEq α] in
@[simp] theorem text_cons (n : List α) (names : List (List α)) :
    text m (n :: names) = m.sep :: n ++ text m names := rfl

omit [DecidableEq α] in
@[simp] theorem text_append (names names' : List (List α)) :
    text m (names ++ names') = text m names ++ text m names' := List.flatMap_append

theorem splitOn_text {names : List (List α)} (h : ∀ n ∈ names, m.sep ∉ n) :
    (text m names).splitOn m.sep = [] :: names := by
  have htext : text m names = [m.sep].intercalate ([] :: names) := by
    induction names with
    | nil => rfl
    | cons n names ih =>
      rw [text_cons, ih fun n hn => h n (List.mem_cons_of_mem _ hn)]
      cases names with
      | nil => simp [List.intercalate]
      | cons n' names => simp [List.intercalate]
  rw [htext, List.splitOn_intercalate _ _ (List.cons_ne_nil _ _)]
  exact List.forall_mem_cons.mpr ⟨List.not_mem_nil, h⟩

/-- The text of a path gives its names back. -/
theorem text_injective {names names' : List (List α)} (h : ∀ n ∈ names, m.sep ∉ n)
    (h' : ∀ n ∈ names', m.sep ∉ n) (htext : text m names = text m names') : names = names' := by
  have hsplit := congrArg (·.splitOn m.sep) htext
  simp only [splitOn_text h, splitOn_text h'] at hsplit
  exact List.tail_eq_of_cons_eq hsplit

theorem resolve_eq {names : List (List α)} (h : ∀ n ∈ names, m.sep ∉ n) :
    resolve m (text m names) = names.foldl (enter m) [] := by
  rw [resolve, splitOn_text h, List.foldl_cons]
  rfl

theorem foldl_enter {names dir : List (List α)} (h : ∀ n ∈ names, IsName m n) :
    names.foldl (enter m) dir = dir ++ names := by
  induction names generalizing dir with
  | nil => exact (List.append_nil dir).symm
  | cons n names ih =>
    obtain ⟨hnil, hhere, hup, -⟩ := h n List.mem_cons_self
    have hstep : enter m dir n = dir ++ [n] := by simp [enter, hnil, hhere, hup]
    rw [List.foldl_cons, hstep, ih fun n hn => h n (List.mem_cons_of_mem _ hn), List.append_assoc]
    rfl

/-- Names of entries are read as they are. -/
theorem resolve_text {names : List (List α)} (h : ∀ n ∈ names, IsName m n) :
    resolve m (text m names) = names := by
  rw [resolve_eq fun n hn => (h n hn).2.2.2, foldl_enter h, List.nil_append]

/-- A name behind "up" is in the directory above. -/
theorem resolve_text_up {names : List (List α)} {n : List α} (h : ∀ n ∈ names, IsName m n)
    (hn : IsName m n) (hup : m.up ≠ [] ∧ m.up ≠ m.here ∧ m.sep ∉ m.up) :
    resolve m (text m (names ++ [m.up, n])) = names.dropLast ++ [n] := by
  rw [resolve_eq, List.foldl_append, foldl_enter h, List.nil_append, List.foldl_cons]
  · have hgo : enter m names m.up = names.dropLast := by simp [enter, hup]
    rw [hgo, foldl_enter fun k hk => List.mem_singleton.mp hk ▸ hn]
  · intro k hk
    rcases List.mem_append.mp hk with hk | hk
    · exact (h k hk).2.2.2
    · rcases List.mem_cons.mp hk with rfl | hk
      · exact hup.2.2
      · exact List.mem_singleton.mp hk ▸ hn.2.2.2

omit [DecidableEq α] in
/-- An end of a path's text is the end of a name and the names behind it. -/
theorem eq_of_suffix_text {names : List (List α)} {s : List α} (h : ∀ n ∈ names, m.sep ∉ n)
    (hs : s <:+ text m names) : ∃ c rest, s = c ++ text m rest ∧ m.sep ∉ c ∧ rest <:+ names := by
  induction names with
  | nil =>
    rw [text_nil, List.suffix_nil] at hs
    exact ⟨[], [], by simp [hs], List.not_mem_nil, List.suffix_rfl⟩
  | cons n names ih =>
    rcases List.suffix_cons_iff.mp hs with rfl | ⟨front, hfront⟩
    · exact ⟨[], n :: names, rfl, List.not_mem_nil, List.suffix_rfl⟩
    -- it begins in the first name, or behind it
    · rcases List.append_eq_append_iff.mp hfront with ⟨c, hn, hs⟩ | ⟨front, -, hs⟩
      · exact ⟨c, names, hs, fun hmem =>
          h n List.mem_cons_self (hn ▸ List.mem_append_right front hmem), List.suffix_cons _ _⟩
      · obtain ⟨c, rest, hs, hsep, hrest⟩ :=
          ih (fun n hn => h n (List.mem_cons_of_mem _ hn)) ⟨front, hs.symm⟩
        exact ⟨c, rest, hs, hsep, hrest.trans (List.suffix_cons _ _)⟩

omit [DecidableEq α] in
/-- No two separators stand next to each other. -/
theorem not_infix_text {names : List (List α)} {s : List α} (h : ∀ n ∈ names, IsName m n) :
    ¬ m.sep :: m.sep :: s <:+: text m names := by
  intro hs
  obtain ⟨t, hst, ht⟩ := List.infix_iff_prefix_suffix.mp hs
  obtain ⟨c, rest, rfl, hsep, hrest⟩ := eq_of_suffix_text (fun n hn => (h n hn).2.2.2) ht
  cases c with
  | cons a c =>
    have ha : m.sep = a := (List.cons_prefix_cons.mp hst).1
    exact hsep (ha ▸ List.mem_cons_self)
  | nil =>
    cases rest with
    | nil => exact absurd (List.prefix_nil.mp hst) (List.cons_ne_nil _ _)
    | cons n rest =>
      obtain ⟨hnil, -, -, hn⟩ := h n (hrest.subset List.mem_cons_self)
      have htail := (List.cons_prefix_cons.mp hst).2
      cases n with
      | nil => exact hnil rfl
      | cons a n =>
        have ha : m.sep = a := (List.cons_prefix_cons.mp htail).1
        exact hn (ha ▸ List.mem_cons_self)

end PathText
