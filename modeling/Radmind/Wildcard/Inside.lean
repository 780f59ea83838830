import Radmind.Lib.OrderedSearch
import Radmind.Wildcard

/-!
# Where the matcher goes past a NUL

`wildcard` tries the lengths of what a star stands for and the alternatives of a list in braces
in order.  Each choice of these is a way to read the pattern along the string, which ends where
the pattern matches or where a character behind a NUL is read, if it comes to an end.
-/

namespace Radmind

open OrderedSearch (Branch search Leads Earlier Descends search_ne_iff)

/-- How a way along the string ends. -/
inductive WayEnd where
  | matched
  | past
  deriving DecidableEq, Repr

/-- What is left of the pattern and of the string, or the end. -/
abbrev WildBranch : Type := Branch (List Byte × List Byte) WayEnd

section

variable (sensitive : Bool)

/-- A star stands for any number of characters, but the last pattern starts before the NUL. -/
def starBranches (wild : List Byte) : List Byte → List WildBranch
  | [] => [.stop .past]
  | c :: p => if c = nul then [] else .go (wild, c :: p) :: starBranches wild p

/-- One branch for each alternative that stands at `p`. -/
def braceBranches (rest p : List Byte) : List (List Byte) → List WildBranch
  | [] => []
  | alternative :: alternatives =>
    match matchAlternative sensitive alternative p with
    | none => [.stop .past]
    | some none => braceBranches rest p alternatives
    | some (some p') => .go (rest, p') :: braceBranches rest p alternatives

/-- A character of the pattern stands for itself. -/
def literalBranches (c : Byte) (wild p : List Byte) : List WildBranch :=
  match p with
  | [] => [.stop .past]
  | q :: p =>
    if !sameChar sensitive c q then []
    else if c = nul then [.stop .matched]
    else [.go (wild, p)]

/-- A number between bounds stands for itself. -/
def rangeBranches (wild p : List Byte) : List WildBranch :=
  match p with
  | [] => [.stop .past]
  | c :: _ =>
    if !isdigit c then []
    else
      match wildNumber minus wild with
      | none => [.stop .past]
      | some none => []
      | some (some (min, wild)) =>
        match wildNumber rangle wild with
        | none => [.stop .past]
        | some none => []
        | some (some (max, wild)) =>
          if (atoi p).toInt < min || (atoi p).toInt > max then []
          else [.go (wild, p.dropWhile isdigit)]

/-- A list in brackets lets a character pass, also the NUL. -/
def bracketBranches (wild p : List Byte) : List WildBranch :=
  match p with
  | [] => if wild.head? = some rbracket then [] else [.stop .past]
  | q :: p =>
    match bracketScan sensitive q wild with
    | [] => [.stop .past]
    | c :: wild =>
      if c = rbracket then []
      else
        match (c :: wild).dropWhile fun d => d ≠ nul && d ≠ rbracket with
        | [] => [.stop .past]
        | d :: wild => if d = nul then [] else [.go (wild, p)]

/-- The alternatives of a list in braces. -/
def braceListBranches (wild p : List Byte) : List WildBranch :=
  match wild.dropWhile fun c => c ≠ lbrace && c ≠ nul && c ≠ rbrace with
  | [] => [.stop .past]
  | c :: rest =>
    if c = rbrace then
      let list := wild.takeWhile fun c => c ≠ lbrace && c ≠ nul && c ≠ rbrace
      braceBranches sensitive rest p (list.splitOn comma)
    else []

/-- A star at the end matches whatever is left. -/
def starElementBranches (wild p : List Byte) : List WildBranch :=
  match wild with
  | [] => [.stop .past]
  | c :: _ => if c = nul then [.stop .matched] else starBranches wild p

/-- What can be done with the next element of the pattern. -/
def wildBranches (wild p : List Byte) : List WildBranch :=
  match wild with
  | [] => [.stop .past]
  | star :: wild => starElementBranches wild p
  | langle :: wild => rangeBranches wild p
  | question :: wild => [.go (wild, p.tail)]
  | lbracket :: wild => bracketBranches sensitive wild p
  | lbrace :: wild => braceListBranches sensitive wild p
  | [bslash] => [.stop .past]
  | bslash :: c :: wild => literalBranches sensitive c wild p
  | c :: wild => literalBranches sensitive c wild p

end

/-! ## The matcher tries the branches in order -/

section

variable {sensitive : Bool} {next : List Byte → List Byte → Option Bool}

/-- The first branch that does not fail. -/
def follow (next : List Byte → List Byte → Option Bool) : List WildBranch → Option Bool
  | [] => some false
  | .stop .matched :: _ => some true
  | .stop .past :: _ => none
  | .go (wild, p) :: branches =>
    match next wild p with
    | some false => follow next branches
    | r => r

theorem follow_go (wild p : List Byte) : follow next [.go (wild, p)] = next wild p := by
  unfold follow
  split
  next h => exact h.symm
  next => rfl

theorem follow_starBranches (wild p : List Byte) :
    follow next (starBranches wild p) = starLoop next wild p := by
  induction p with
  | nil => rfl
  | cons c p ih =>
    rw [starBranches, starLoop]
    split_ifs
    · rfl
    · show follow next (.go (wild, c :: p) :: _) = _
      unfold follow
      cases next wild (c :: p) with
      | none => rfl
      | some r =>
        cases r with
        | false => exact ih
        | true => rfl

theorem follow_braceBranches (rest p : List Byte) (alternatives : List (List Byte)) :
    follow next (braceBranches sensitive rest p alternatives) =
      braceLoop sensitive next rest p alternatives := by
  induction alternatives with
  | nil => rfl
  | cons alternative alternatives ih =>
    rw [braceBranches, braceLoop]
    cases matchAlternative sensitive alternative p with
    | none => rfl
    | some r =>
      cases r with
      | none => exact ih
      | some p' =>
        show follow next (.go (rest, p') :: _) = _
        unfold follow
        cases hr : next rest p' with
        | none => simp only [hr]
        | some r =>
          cases r with
          | false => simp only [hr, ih]
          | true => simp only [hr]

theorem follow_literalBranches (c : Byte) (wild p : List Byte) :
    follow next (literalBranches sensitive c wild p) = wildLiteral sensitive next c wild p := by
  cases p with
  | nil => rfl
  | cons q p =>
    unfold literalBranches wildLiteral
    simp only
    split_ifs
    · rfl
    · rfl
    · exact follow_go wild p

theorem follow_rangeBranches (wild p : List Byte) :
    follow next (rangeBranches wild p) = wildRange next wild p := by
  cases p with
  | nil => rfl
  | cons c p =>
    unfold rangeBranches wildRange
    simp only
    split_ifs
    · rfl
    cases wildNumber minus wild with
    | none => rfl
    | some r =>
    cases r with
    | none => rfl
    | some r =>
    obtain ⟨min, wild₁⟩ := r
    simp only
    cases wildNumber rangle wild₁ with
    | none => rfl
    | some r =>
    cases r with
    | none => rfl
    | some r =>
    obtain ⟨max, wild₂⟩ := r
    simp only
    split_ifs
    · rfl
    · exact follow_go _ _

theorem follow_bracketBranches (wild p : List Byte) :
    follow next (bracketBranches sensitive wild p) = wildBracket sensitive next wild p := by
  cases p with
  | nil =>
    unfold bracketBranches wildBracket
    split_ifs <;> rfl
  | cons q p =>
    unfold bracketBranches wildBracket
    simp only
    cases bracketScan sensitive q wild with
    | nil => rfl
    | cons c wild₁ =>
    simp only
    split_ifs
    · rfl
    cases (c :: wild₁).dropWhile fun d => d ≠ nul && d ≠ rbracket with
    | nil => rfl
    | cons d wild₂ =>
    simp only
    split_ifs
    · rfl
    · exact follow_go _ _

theorem follow_braceListBranches (wild p : List Byte) :
    follow next (braceListBranches sensitive wild p) = wildBrace sensitive next wild p := by
  unfold braceListBranches wildBrace
  cases wild.dropWhile fun c => c ≠ lbrace && c ≠ nul && c ≠ rbrace with
  | nil => rfl
  | cons c rest =>
    simp only
    split_ifs
    · exact follow_braceBranches _ _ _
    · rfl

theorem follow_starElementBranches (wild p : List Byte) :
    follow next (starElementBranches wild p) = wildStar next wild p := by
  cases wild with
  | nil => rfl
  | cons c wild =>
    unfold starElementBranches wildStar
    simp only
    split_ifs
    · rfl
    · exact follow_starBranches _ _

theorem follow_wildBranches (wild p : List Byte) :
    follow next (wildBranches sensitive wild p) = wildSwitch sensitive next wild p := by
  unfold wildBranches
  split
  · rfl
  · exact follow_starElementBranches _ _
  · exact follow_rangeBranches _ _
  · exact follow_go _ _
  · exact follow_bracketBranches _ _
  · exact follow_braceListBranches _ _
  · rfl
  · exact follow_literalBranches _ _ _
  next c wild h1 h2 h3 h4 h5 h6 h7 =>
    have hplain : ∀ d ∈ [star, langle, question, lbracket, lbrace], c ≠ d := by
      simp only [List.forall_mem_cons]
      exact ⟨h1, h2, h3, h4, h5, fun _ hd => absurd hd List.not_mem_nil⟩
    have hbslash : c ≠ bslash := by
      intro hc
      cases wild with
      | nil => exact h6 hc rfl
      | cons d rest => exact h7 d rest hc rfl
    rw [wildSwitch_other fun d hd => (List.mem_append.mp hd).elim (hplain d) fun h =>
      (List.mem_singleton.mp h) ▸ hbslash]
    exact follow_literalBranches _ _ _

end

/-! ## Less of the pattern -/

section

variable {sensitive : Bool} {wild p rest p' : List Byte}

theorem starBranches_wild (h : .go (rest, p') ∈ starBranches wild p) : rest = wild := by
  induction p with
  | nil => simp [starBranches] at h
  | cons c p ih =>
    rw [starBranches] at h
    split_ifs at h
    · cases h
    · rcases List.mem_cons.mp h with heq | hmem
      · cases heq
        rfl
      · exact ih hmem

theorem braceBranches_wild {behind : List Byte} {alternatives : List (List Byte)}
    (h : .go (rest, p') ∈ braceBranches sensitive behind p alternatives) : rest = behind := by
  induction alternatives with
  | nil => cases h
  | cons alternative alternatives ih =>
    rw [braceBranches] at h
    split at h
    · simp at h
    · exact ih h
    · rcases List.mem_cons.mp h with heq | hmem
      · cases heq
        rfl
      · exact ih hmem

theorem literalBranches_wild {c : Byte}
    (h : .go (rest, p') ∈ literalBranches sensitive c wild p) : rest = wild := by
  unfold literalBranches at h
  split at h
  · simp at h
  split_ifs at h
  · cases h
  · simp at h
  · simp at h
    exact h.1

/-- Each branch has less of the pattern. -/
theorem wildBranches_length (h : .go (rest, p') ∈ wildBranches sensitive wild p) :
    rest.length < wild.length := by
  unfold wildBranches at h
  split at h
  · simp at h
  next wild =>
    unfold starElementBranches at h
    split at h
    · simp at h
    split_ifs at h
    · simp at h
    · rw [starBranches_wild h]
      simp
  next wild =>
    unfold rangeBranches at h
    split at h
    · simp at h
    split_ifs at h
    · cases h
    split at h
    · simp at h
    · cases h
    next hmin =>
    split at h
    · simp at h
    · cases h
    next hmax =>
    split_ifs at h
    · cases h
    · have hmin' := wildNumber_length hmin
      have hmax' := wildNumber_length hmax
      simp at h
      rw [h.1, List.length_cons]
      omega
  next wild =>
    simp at h
    rw [h.1, List.length_cons]
    omega
  next wild =>
    unfold bracketBranches at h
    split at h
    · split_ifs at h
      · cases h
      · simp at h
    next q p =>
    split at h
    · simp at h
    next c wild₁ hscan =>
    split_ifs at h
    · cases h
    split at h
    · simp at h
    next d wild₂ hdrop =>
    split_ifs at h
    · cases h
    · have hsuffix : d :: wild₂ <:+ wild := by
        rw [← hdrop]
        exact (List.dropWhile_suffix _).trans (hscan ▸ bracketScan_suffix sensitive q wild)
      have hlength := hsuffix.length_le
      simp at h hlength
      rw [h.1, List.length_cons]
      omega
  next wild =>
    unfold braceListBranches at h
    split at h
    · simp at h
    next c behind hdrop =>
    split_ifs at h
    · have hsuffix : c :: behind <:+ wild := hdrop ▸ List.dropWhile_suffix _
      have hlength := hsuffix.length_le
      rw [braceBranches_wild h]
      simp at hlength ⊢
      omega
    · cases h
  · simp at h
  · rw [literalBranches_wild h]
    simp
  · rw [literalBranches_wild h]
    simp

end

/-! ## The way the matcher takes -/

/-- The branches of a state of the matcher. -/
def stateBranches (sensitive : Bool) (s : List Byte × List Byte) : List WildBranch :=
  wildBranches sensitive s.1 s.2

theorem stateBranches_descends (sensitive : Bool) :
    Descends (stateBranches sensitive) fun s => s.1.length :=
  fun _ _ h => wildBranches_length h

/-- What the matcher gives back at the end of a way. -/
def wayResult : Option WayEnd → Option Bool
  | none => some false
  | some .matched => some true
  | some .past => none

theorem follow_eq {next : List Byte → List Byte → Option Bool}
    {find : List Byte × List Byte → Option WayEnd} {branches : List WildBranch}
    (h : ∀ wild p, .go (wild, p) ∈ branches → next wild p = wayResult (find (wild, p))) :
    follow next branches = wayResult (branches.findSome? (Branch.found find)) := by
  induction branches with
  | nil => rfl
  | cons branch branches ih =>
    cases branch with
    | stop e => cases e <;> rfl
    | go s =>
      obtain ⟨wild, p⟩ := s
      rw [follow, h wild p List.mem_cons_self, ih fun wild p hmem =>
        h wild p (List.mem_cons_of_mem _ hmem), List.findSome?_cons, Branch.found]
      cases find (wild, p) with
      | none => rfl
      | some e => cases e <;> rfl

/-- The matcher is the search for the first way that comes to an end. -/
theorem wildcardLoop_eq_search {sensitive : Bool} {fuel : Nat} {wild : List Byte}
    (h : wild.length ≤ fuel) (p : List Byte) : wildcardLoop sensitive fuel wild p =
      wayResult (search (stateBranches sensitive) (fuel + 1) (wild, p)) := by
  induction fuel generalizing wild p with
  | zero =>
    obtain rfl := List.length_eq_zero_iff.mp (Nat.le_zero.mp h)
    rfl
  | succ fuel ih =>
    rw [wildcardLoop, ← follow_wildBranches, search]
    refine follow_eq fun wild' p' hmem => ih ?_ p'
    have hlt := wildBranches_length hmem
    omega

theorem wayResult_eq_none {e : Option WayEnd} : wayResult e = none ↔ e = some .past := by
  cases e with
  | none => simp [wayResult]
  | some e => cases e <;> simp [wayResult]

section

variable (sensitive : Bool) (wild p : List Byte)

/-- The matcher comes to an answer without a read behind the NUL of the pattern or the string,
where nothing else is in memory. -/
def StaysInside : Prop :=
  ∃ b, wildcard (wild ++ [nul]) (p ++ [nul]) sensitive = some b

/-- A way along pattern and string leads to an end. -/
def WayLeads (way : List Nat) (e : WayEnd) : Prop :=
  Leads (stateBranches sensitive) (wild ++ [nul], p ++ [nul]) way e

end

end Radmind
