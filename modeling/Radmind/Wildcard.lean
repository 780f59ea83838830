import Radmind.Number
import Radmind.Lib.Glob

/-!
# Wildcards

`wildcard` of wildcard.c, which decides what a config entry or an exclude pattern matches.
Pattern and string are given by their memory, so that a pointer can go past the NUL.
-/

namespace Radmind

/-- `isdigit` -/
def isdigit (c : Byte) : Bool := 48 ≤ c ∧ c ≤ 57

@[match_pattern] abbrev star : Byte := 42
@[match_pattern] abbrev comma : Byte := 44
@[match_pattern] abbrev langle : Byte := 60
@[match_pattern] abbrev rangle : Byte := 62
@[match_pattern] abbrev question : Byte := 63
@[match_pattern] abbrev lbracket : Byte := 91
@[match_pattern] abbrev rbracket : Byte := 93
@[match_pattern] abbrev lbrace : Byte := 123
@[match_pattern] abbrev rbrace : Byte := 125

/-- The comparison of two characters. -/
def sameChar (sensitive : Bool) (a b : Byte) : Bool :=
  if sensitive then a = b else tolower a = tolower b

section

variable (sensitive : Bool) (next : List Byte → List Byte → Option Bool)

/-- The loop of the case '*': the rest of the pattern is tried up to the last character. -/
def starLoop (wild : List Byte) : List Byte → Option Bool
  | [] => none
  | c :: p =>
    if c = nul then some false
    else
      match next wild (c :: p) with
      | some false => starLoop wild p
      | r => r

/-- The case '*'. -/
def wildStar (wild p : List Byte) : Option Bool :=
  match wild with
  | [] => none
  | c :: _ => if c = nul then some true else starLoop next wild p

/-- A number of the pattern, with what is behind the character after it. -/
def wildNumber (stop : Byte) (wild : List Byte) : Option (Option (Int × List Byte)) :=
  match wild with
  | [] => none
  | c :: _ =>
    if !isdigit c then some none
    else
      match wild.dropWhile isdigit with
      | [] => none
      | d :: rest => some (if d = stop then some ((atoi wild).toInt, rest) else none)

/-- The case '<'. -/
def wildRange (wild p : List Byte) : Option Bool :=
  match p with
  | [] => none
  | c :: _ =>
    if !isdigit c then some false
    else
      let i := (atoi p).toInt
      match wildNumber minus wild with
      | none => none
      | some none => some false
      | some (some (min, wild)) =>
        match wildNumber rangle wild with
        | none => none
        | some none => some false
        | some (some (max, wild)) =>
          if i < min || i > max then some false else next wild (p.dropWhile isdigit)

/-- The first loop of the case '[', which goes on while the characters are the same. -/
def bracketScan (q : Byte) : List Byte → List Byte
  | [] => []
  | c :: wild =>
    if c ≠ rbracket && sameChar sensitive c q then bracketScan q wild else c :: wild

/-- The case '['.  Only a list that has characters looks at the string. -/
def wildBracket (wild p : List Byte) : Option Bool :=
  match p with
  | [] => if wild.head? = some rbracket then some false else none
  | q :: p =>
    match bracketScan sensitive q wild with
    | [] => none
    | c :: wild =>
      if c = rbracket then some false
      else
        match (c :: wild).dropWhile fun d => d ≠ nul && d ≠ rbracket with
        | [] => none
        | d :: wild => if d = nul then some false else next wild p

/-- What is left of `p` behind the alternative, if it stands there. -/
def matchAlternative : List Byte → List Byte → Option (Option (List Byte))
  | [], p => some (some p)
  | _ :: _, [] => none
  | c :: alternative, q :: p =>
    if sameChar sensitive c q then matchAlternative alternative p else some none

/-- The loop over the alternatives of a list in braces. -/
def braceLoop (rest p : List Byte) : List (List Byte) → Option Bool
  | [] => some false
  | alternative :: alternatives =>
    match matchAlternative sensitive alternative p with
    | none => none
    | some none => braceLoop rest p alternatives
    | some (some p') =>
      match next rest p' with
      | some false => braceLoop rest p alternatives
      | r => r

/-- The case of a list in braces. -/
def wildBrace (wild p : List Byte) : Option Bool :=
  match wild.dropWhile fun c => c ≠ lbrace && c ≠ nul && c ≠ rbrace with
  | [] => none
  | c :: rest =>
    if c = rbrace then
      let list := wild.takeWhile fun c => c ≠ lbrace && c ≠ nul && c ≠ rbrace
      braceLoop sensitive next rest p (list.splitOn comma)
    else some false

/-- The default case. -/
def wildLiteral (c : Byte) (wild p : List Byte) : Option Bool :=
  match p with
  | [] => none
  | q :: p =>
    if !sameChar sensitive c q then some false
    else if c = nul then some true
    else next wild p

/-- The switch of `wildcard`. -/
def wildSwitch (wild p : List Byte) : Option Bool :=
  match wild with
  | [] => none
  | star :: wild => wildStar next wild p
  | langle :: wild => wildRange next wild p
  | question :: wild => next wild p.tail
  | lbracket :: wild => wildBracket sensitive next wild p
  | lbrace :: wild => wildBrace sensitive next wild p
  | [bslash] => none
  | bslash :: c :: wild => wildLiteral sensitive next c wild p
  | c :: wild => wildLiteral sensitive next c wild p

end

/-- The loop of `wildcard`.  Every round and every call has less of the pattern left. -/
def wildcardLoop (sensitive : Bool) : Nat → List Byte → List Byte → Option Bool
  | 0, _, _ => none
  | fuel + 1, wild, p => wildSwitch sensitive (wildcardLoop sensitive fuel) wild p

/-- `wildcard`, `none` where it goes past the memory of the pattern or the string. -/
def wildcard (wild p : List Byte) (sensitive : Bool) : Option Bool :=
  wildcardLoop sensitive wild.length wild p

/-- The switch on a character that is not special. -/
theorem wildSwitch_other {sensitive : Bool} {next : List Byte → List Byte → Option Bool} {c : Byte}
    (hc : ∀ d ∈ [star, langle, question, lbracket, lbrace, bslash], c ≠ d) (wild p : List Byte) :
    wildSwitch sensitive next (c :: wild) p = wildLiteral sensitive next c wild p := by
  simp only [List.forall_mem_cons] at hc
  obtain ⟨h1, h2, h3, h4, h5, h6, -⟩ := hc
  unfold wildSwitch
  split <;> simp_all

/-! ## Less of the pattern -/

section

variable {sensitive : Bool} {next next' : List Byte → List Byte → Option Bool}

theorem starLoop_congr {wild : List Byte} (h : ∀ p, next wild p = next' wild p) (p : List Byte) :
    starLoop next wild p = starLoop next' wild p := by
  induction p with
  | nil => rfl
  | cons c p ih => rw [starLoop, starLoop, h, ih]

theorem wildNumber_length {stop : Byte} {wild rest : List Byte} {n : Int}
    (h : wildNumber stop wild = some (some (n, rest))) : rest.length < wild.length := by
  unfold wildNumber at h
  split at h
  · cases h
  next c wild =>
  split_ifs at h
  · cases h
  split at h
  · cases h
  next d rest' hdrop =>
  have hsuffix : d :: rest' <:+ c :: wild := hdrop ▸ List.dropWhile_suffix _
  have hlength := hsuffix.length_le
  simp only [Option.some.injEq] at h
  split_ifs at h
  obtain ⟨-, rfl⟩ := Prod.mk.inj (Option.some.inj h)
  simpa [Nat.lt_iff_add_one_le] using hlength

theorem bracketScan_suffix (sensitive : Bool) (q : Byte) (wild : List Byte) :
    bracketScan sensitive q wild <:+ wild := by
  induction wild with
  | nil => exact List.suffix_refl _
  | cons c wild ih =>
    rw [bracketScan]
    split_ifs
    · exact ih.trans (List.suffix_cons c wild)
    · exact List.suffix_refl _

theorem braceLoop_congr {rest : List Byte} (h : ∀ p, next rest p = next' rest p) (p : List Byte)
    (alternatives : List (List Byte)) : braceLoop sensitive next rest p alternatives =
      braceLoop sensitive next' rest p alternatives := by
  induction alternatives with
  | nil => rfl
  | cons alternative alternatives ih => simp only [braceLoop, h, ih]

/-- The cases hand on less of the pattern than they have. -/
theorem wildSwitch_congr {wild : List Byte}
    (h : ∀ wild' p, wild'.length < wild.length → next wild' p = next' wild' p) (p : List Byte) :
    wildSwitch sensitive next wild p = wildSwitch sensitive next' wild p := by
  have hliteral : ∀ c rest p, rest.length < wild.length →
      wildLiteral sensitive next c rest p = wildLiteral sensitive next' c rest p := by
    intro c rest p hrest
    unfold wildLiteral
    split
    · rfl
    · rw [h _ _ hrest]
  have hsuffix : ∀ {c d : Byte} {rest rest' : List Byte}, wild = c :: rest → d :: rest' <:+ rest →
      rest'.length < wild.length := by
    intro c d rest rest' hwild hs
    have hlength := hs.length_le
    rw [hwild]
    simp at hlength ⊢
    omega
  unfold wildSwitch
  split
  · rfl
  · next rest =>
    unfold wildStar
    split
    · rfl
    · rw [starLoop_congr fun p => h _ p (by simp)]
  · next rest =>
    unfold wildRange
    split
    · rfl
    split_ifs
    · rfl
    split
    · rfl
    · rfl
    next min wild₁ hmin =>
    split
    · rfl
    · rfl
    next max wild₂ hmax =>
    have hmin' := wildNumber_length hmin
    have hmax' := wildNumber_length hmax
    rw [h _ _ (by simp; omega)]
  · next rest => exact h _ _ (by simp)
  · next rest =>
    unfold wildBracket
    split
    · rfl
    next q p =>
    have hscan := bracketScan_suffix sensitive q rest
    split
    · rfl
    next c wild₁ hscan₁ =>
    split_ifs
    · rfl
    split
    · rfl
    next d wild₂ hdrop =>
    have hdrop' : d :: wild₂ <:+ rest := by
      rw [← hdrop]
      exact (List.dropWhile_suffix _).trans (hscan₁ ▸ hscan)
    rw [h _ _ (hsuffix rfl hdrop')]
  · next rest =>
    unfold wildBrace
    split
    · rfl
    next c wild₁ hdrop =>
    have hdrop' : c :: wild₁ <:+ rest := hdrop ▸ List.dropWhile_suffix _
    simp only [braceLoop_congr fun p => h _ p (hsuffix rfl hdrop')]
  · rfl
  · next c rest => exact hliteral c rest p (by simp)
  · next c rest _ _ _ _ _ _ _ => exact hliteral c rest p (by simp)

/-- As much fuel as there are characters is enough. -/
theorem wildcardLoop_eq (sensitive : Bool) {fuel : Nat} {wild : List Byte}
    (h : wild.length ≤ fuel) (p : List Byte) :
    wildcardLoop sensitive fuel wild p = wildcard wild p sensitive := by
  have hstable : ∀ fuel fuel' wild p, wild.length ≤ fuel → wild.length ≤ fuel' →
      wildcardLoop sensitive fuel wild p = wildcardLoop sensitive fuel' wild p := by
    intro fuel
    induction fuel with
    | zero =>
      intro fuel' wild p h _
      obtain rfl := List.length_eq_zero_iff.mp (Nat.le_zero.mp h)
      cases fuel' <;> rfl
    | succ fuel ih =>
      intro fuel' wild p h h'
      cases fuel' with
      | zero =>
        obtain rfl := List.length_eq_zero_iff.mp (Nat.le_zero.mp h')
        rfl
      | succ fuel' =>
        exact wildSwitch_congr (fun wild' p hlt => ih fuel' wild' p (by omega) (by omega)) p
  exact hstable _ _ wild p h le_rfl

end

/-- One round of `wildcard`. -/
theorem wildcard_eq (wild p : List Byte) (sensitive : Bool) : wildcard wild p sensitive =
    wildSwitch sensitive (fun wild p => wildcard wild p sensitive) wild p := by
  cases wild with
  | nil => rfl
  | cons c wild =>
    show wildSwitch sensitive (wildcardLoop sensitive wild.length) (c :: wild) p = _
    exact wildSwitch_congr (fun wild' p h =>
      wildcardLoop_eq sensitive (Nat.le_of_lt_succ h) p) p

/-! ## Single characters -/

theorem wildcard_question (rest p : List Byte) (sensitive : Bool) :
    wildcard (question :: rest) p sensitive = wildcard rest p.tail sensitive := by
  rw [wildcard_eq]
  rfl

/-- A star at the end matches without a look at the string. -/
theorem wildcard_star_end (p behind : List Byte) (sensitive : Bool) :
    wildcard (star :: nul :: behind) p sensitive = some true := by
  rw [wildcard_eq]
  rfl

theorem sameChar_nul {sensitive : Bool} {c : Byte} (h : sameChar sensitive c nul = true) :
    c = nul := by
  revert c
  cases sensitive with
  | true => decide +kernel
  | false => decide +kernel

/-- Where the first scan of a bracket stops. -/
theorem bracketScan_append {sensitive : Bool} {q : Byte} {cs : List Byte} (hcs : rbracket ∉ cs)
    (rest : List Byte) :
    (∀ x ∈ cs, sameChar sensitive x q = true) ∧
        bracketScan sensitive q (cs ++ rbracket :: rest) = rbracket :: rest ∨
      (∃ x ∈ cs, sameChar sensitive x q = false) ∧ ∃ c cs', c :: cs' <:+ cs ∧
        bracketScan sensitive q (cs ++ rbracket :: rest) = c :: (cs' ++ rbracket :: rest) := by
  induction cs with
  | nil =>
    left
    simp [bracketScan]
  | cons c cs ih =>
    obtain ⟨hc, hcs⟩ := List.ne_and_not_mem_of_not_mem_cons hcs
    cases hsame : sameChar sensitive c q with
    | false =>
      right
      refine ⟨⟨c, List.mem_cons_self, hsame⟩, c, cs, List.suffix_refl _, ?_⟩
      simp [bracketScan, hsame]
    | true =>
      have hscan : bracketScan sensitive q (c :: cs ++ rbracket :: rest) =
          bracketScan sensitive q (cs ++ rbracket :: rest) := by
        simp [bracketScan, hsame, hc.symm]
      rw [hscan]
      rcases ih hcs with ⟨hall, heq⟩ | ⟨⟨x, hx, hdiffer⟩, d, cs', hsuffix, heq⟩
      · exact .inl ⟨List.forall_mem_cons.mpr ⟨hsame, hall⟩, heq⟩
      · exact .inr ⟨⟨x, List.mem_cons_of_mem _ hx, hdiffer⟩, d, cs',
          hsuffix.trans (List.suffix_cons c cs), heq⟩

/-- A list in brackets lets a character pass that differs from one of the list. -/
theorem wildcard_bracket {sensitive : Bool} {q : Byte} {cs : List Byte} (hcs : rbracket ∉ cs)
    (hnul : NulFree cs) (rest p : List Byte) :
    wildcard (lbracket :: (cs ++ rbracket :: rest)) (q :: p) sensitive =
      if ∀ x ∈ cs, sameChar sensitive x q = true then some false else wildcard rest p sensitive := by
  rw [wildcard_eq]
  show wildBracket sensitive _ (cs ++ rbracket :: rest) (q :: p) = _
  unfold wildBracket
  rcases @bracketScan_append sensitive q cs hcs rest with
    ⟨hall, hscan⟩ | ⟨⟨x, hx, hdiffer⟩, c, cs', hsuffix, hscan⟩
  · simp only [hscan, if_pos hall, if_true]
  · have hnot : ¬ ∀ x ∈ cs, sameChar sensitive x q = true := fun h => by
      rw [h x hx] at hdiffer
      cases hdiffer
    have hc : c ≠ rbracket := fun h => hcs (hsuffix.subset (h ▸ List.mem_cons_self))
    have hplain : ∀ d ∈ c :: cs', (d ≠ nul && d ≠ rbracket) = true := by
      intro d hd
      have hnul' : d ≠ nul := fun h => hnul (h ▸ hsuffix.subset hd)
      have hclose : d ≠ rbracket := fun h => hcs (h ▸ hsuffix.subset hd)
      simp [hnul', hclose]
    have hdrop : (c :: (cs' ++ rbracket :: rest)).dropWhile (fun d => d ≠ nul && d ≠ rbracket) =
        rbracket :: rest := by
      rw [← List.cons_append, List.dropWhile_append_of_pos hplain]
      simp
    simp only [hscan, if_neg hnot, if_neg hc, hdrop]
    rfl

section

variable (sensitive : Bool) (cs rest p behind : List Byte)

/-- The rest of a pattern matches what stands behind the first character. -/
def RestMatches : Prop := wildcard (rest ++ [nul]) (p ++ nul :: behind) sensitive = some true

/-- A list in brackets stands for one of its characters. -/
def BracketLaw : Prop :=
  wildcard (lbracket :: (cs ++ rbracket :: (rest ++ [nul]))) (p ++ nul :: behind) sensitive =
      some true ↔
    ∃ c t, p = c :: t ∧ (∃ x ∈ cs, sameChar sensitive x c = true) ∧
      RestMatches sensitive rest t behind

/-- A question mark stands for a character. -/
def QuestionLaw : Prop :=
  wildcard (question :: (rest ++ [nul])) (p ++ nul :: behind) sensitive = some true ↔
    ∃ c t, p = c :: t ∧ RestMatches sensitive rest t behind

end

/-- Whatever stands behind it, a list in brackets stands for one of its characters exactly
where the string has a character that is on the list beside another one, and a question
mark stands for a character exactly where the string has one. -/
theorem single_characters_iff {cs : List Byte} (hne : cs ≠ []) (hcs : rbracket ∉ cs)
    (hnul : NulFree cs) (sensitive : Bool) (p behind : List Byte) :
    ((∀ rest, BracketLaw sensitive cs rest p behind) ↔ ∃ c t, p = c :: t ∧
      (∃ x ∈ cs, sameChar sensitive x c = true) ∧ ∃ x ∈ cs, sameChar sensitive x c = false) ∧
    ((∀ rest, QuestionLaw sensitive rest p behind) ↔ p ≠ []) := by
  have hstar : ∀ p, wildcard ([star] ++ [nul]) p sensitive = some true :=
    fun p => wildcard_star_end p [] sensitive
  constructor
  · cases p with
    | nil =>
      refine ⟨fun h => ?_, fun ⟨c, t, hp, _⟩ => by cases hp⟩
      -- the NUL differs from the characters of the list
      obtain ⟨x, hx⟩ := List.exists_mem_of_ne_nil cs hne
      have hdiffer : ¬ ∀ x ∈ cs, sameChar sensitive x nul = true :=
        fun hall => hnul (sameChar_nul (hall x hx) ▸ hx)
      have hlaw := h [star]
      rw [BracketLaw, List.nil_append, wildcard_bracket hcs hnul, if_neg hdiffer, hstar] at hlaw
      obtain ⟨c, t, hp, -⟩ := hlaw.mp rfl
      cases hp
    | cons c t =>
      have hlaw : ∀ rest, BracketLaw sensitive cs rest (c :: t) behind ↔
          ((if ∀ x ∈ cs, sameChar sensitive x c = true then some false
            else wildcard (rest ++ [nul]) (t ++ nul :: behind) sensitive) = some true ↔
          (∃ x ∈ cs, sameChar sensitive x c = true) ∧ RestMatches sensitive rest t behind) := by
        intro rest
        rw [BracketLaw, List.cons_append, wildcard_bracket hcs hnul]
        refine iff_congr Iff.rfl ⟨fun ⟨c', t', hp, hx, hrest⟩ => ?_, fun h => ⟨c, t, rfl, h⟩⟩
        obtain ⟨rfl, rfl⟩ := List.cons.inj hp
        exact ⟨hx, hrest⟩
      have hcond : (∃ c' t', c :: t = c' :: t' ∧ (∃ x ∈ cs, sameChar sensitive x c' = true) ∧
          ∃ x ∈ cs, sameChar sensitive x c' = false) ↔
          (∃ x ∈ cs, sameChar sensitive x c = true) ∧
            ¬ ∀ x ∈ cs, sameChar sensitive x c = true := by
        simp
      rw [hcond]
      constructor
      · intro h
        have hstarLaw := (hlaw [star]).mp (h [star])
        rw [RestMatches, hstar] at hstarLaw
        obtain ⟨x, hx⟩ := List.exists_mem_of_ne_nil cs hne
        by_cases hall : ∀ x ∈ cs, sameChar sensitive x c = true
        · rw [if_pos hall] at hstarLaw
          have habsurd := hstarLaw.mpr ⟨⟨x, hx, hall x hx⟩, rfl⟩
          cases habsurd
        · rw [if_neg hall] at hstarLaw
          exact ⟨(hstarLaw.mp rfl).1, hall⟩
      · intro ⟨hsome, hdiffer⟩ rest
        rw [hlaw, if_neg hdiffer]
        exact ⟨fun h => ⟨hsome, h⟩, fun h => h.2⟩
  · cases p with
    | nil =>
      refine ⟨fun h => ?_, fun h => absurd rfl h⟩
      have hlaw := h [star]
      rw [QuestionLaw, wildcard_question, hstar] at hlaw
      obtain ⟨c, t, hp, -⟩ := hlaw.mp rfl
      cases hp
    | cons c t =>
      refine ⟨fun _ => by simp, fun _ rest => ?_⟩
      rw [QuestionLaw, wildcard_question]
      refine ⟨fun h => ⟨c, t, rfl, h⟩, fun ⟨c', t', hp, hrest⟩ => ?_⟩
      obtain ⟨rfl, rfl⟩ := List.cons.inj hp
      exact hrest

theorem single_characters_iff_ab : BracketLaw true (lit "ab") (lit "*") (lit "a") [] := by
  have h := @single_characters_iff (lit "ab") (by decide) (by decide) (by decide) true
    (lit "a") []
  exact h.1.mpr ⟨97, [], rfl, by decide, by decide⟩ (lit "*")

/-- A character that stands alone in brackets is not matched, and another one is. -/
theorem not_single_characters : ¬ BracketLaw true (lit "a") [] (lit "a") [] ∧
    ¬ BracketLaw true (lit "a") [] (lit "b") [] ∧ ¬ QuestionLaw true (lit "*") [] [] := by
  have hmissed : wildcard (lit "[a]" ++ [nul]) (lit "a" ++ [nul]) true = some false := by
    decide +kernel
  have hfound : wildcard (lit "[a]" ++ [nul]) (lit "b" ++ [nul]) true = some true := by
    decide +kernel
  have hpast : wildcard (lit "?*" ++ [nul]) [nul] true = some true := by decide +kernel
  refine ⟨fun h => ?_, fun h => ?_, fun h => ?_⟩
  · have hrest : RestMatches true [] [] [] := by
      unfold RestMatches
      decide +kernel
    have hlaw := h.mpr ⟨97, [], rfl, by decide, hrest⟩
    rw [show lbracket :: (lit "a" ++ rbracket :: ([] ++ [nul])) = lit "[a]" ++ [nul] by decide,
      hmissed] at hlaw
    cases hlaw
  · obtain ⟨c, t, hp, hx, -⟩ := h.mp hfound
    obtain ⟨rfl, rfl⟩ := List.cons.inj hp
    revert hx
    decide +kernel
  · obtain ⟨c, t, hp, -⟩ := h.mp hpast
    cases hp

end Radmind
