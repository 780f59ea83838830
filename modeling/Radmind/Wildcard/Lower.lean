import Radmind.PathCmp
import Radmind.Wildcard

/-!
# Matching in lower case

Without regard to case a pattern matches what it matches in lower case with regard to case:
the special characters have no case, and the others are compared by `tolower`.
-/

namespace Radmind

/-- `tolower` of each character. -/
def lower (s : List Byte) : List Byte := s.map tolower

@[simp] theorem lower_nil : lower [] = [] := rfl

@[simp] theorem lower_cons (c : Byte) (s : List Byte) : lower (c :: s) = tolower c :: lower s := rfl

theorem lower_append (s t : List Byte) : lower (s ++ t) = lower s ++ lower t := List.map_append

/-- A character that is in no case is that of no other character. -/
theorem tolower_eq_iff {c d : Byte} (hd : d.toNat < 65 ∨ 122 < d.toNat ∨
    (90 < d.toNat ∧ d.toNat < 97)) : tolower c = d ↔ c = d := by
  rw [← UInt8.toNat_inj, ← UInt8.toNat_inj, tolower_toNat]
  split_ifs
  · omega
  · exact Iff.rfl

theorem isdigit_tolower (c : Byte) : isdigit (tolower c) = isdigit c := by
  unfold isdigit
  simp only [UInt8.le_iff_toNat_le, tolower_toNat, show (48 : UInt8).toNat = 48 from rfl,
    show (57 : UInt8).toNat = 57 from rfl, decide_eq_decide]
  split_ifs
  · omega
  · exact Iff.rfl

theorem isspace_tolower (c : Byte) : isspace (tolower c) = isspace c := by
  unfold isspace
  rw [decide_eq_decide, tolower_eq_iff (.inl (by decide))]
  refine or_congr_right ?_
  simp only [UInt8.le_iff_toNat_le, tolower_toNat, show (9 : UInt8).toNat = 9 from rfl,
    show (13 : UInt8).toNat = 13 from rfl]
  split_ifs
  · omega
  · exact Iff.rfl

theorem strtolDigits_lower (acc : Nat) (s : CStr) :
    strtolDigits 10 acc (lower s) = strtolDigits 10 acc s := by
  induction s generalizing acc with
  | nil => rfl
  | cons c s ih =>
    rw [lower_cons, strtolDigits, strtolDigits, ih, tolower_toNat]
    by_cases hc : 65 ≤ c.toNat ∧ c.toNat ≤ 90
    · rw [if_pos hc, if_neg (by omega), if_neg (by omega)]
    · rw [if_neg hc]

theorem dropWhile_lower {t : Byte → Bool} (h : ∀ c, t (tolower c) = t c) (s : List Byte) :
    (lower s).dropWhile t = lower (s.dropWhile t) := by
  induction s with
  | nil => rfl
  | cons c s ih =>
    rw [lower_cons, List.dropWhile_cons, List.dropWhile_cons, h]
    split
    · exact ih
    · rfl

theorem takeWhile_lower {t : Byte → Bool} (h : ∀ c, t (tolower c) = t c) (s : List Byte) :
    (lower s).takeWhile t = lower (s.takeWhile t) := by
  induction s with
  | nil => rfl
  | cons c s ih =>
    rw [lower_cons, List.takeWhile_cons, List.takeWhile_cons, h]
    split
    · rw [ih, lower_cons]
    · rfl

theorem atoi_lower (s : CStr) : atoi (lower s) = atoi s := by
  unfold atoi strtol
  rw [dropWhile_lower isspace_tolower]
  generalize s.dropWhile isspace = t
  cases t with
  | nil => rfl
  | cons c t =>
    rw [lower_cons]
    by_cases hm : c = minus
    · subst hm
      show BitVec.ofInt 32 (clampLong (-strtolDigits 10 0 (lower t))) = _
      rw [strtolDigits_lower]
      rfl
    by_cases hp : c = plus
    · subst hp
      show BitVec.ofInt 32 (clampLong (strtolDigits 10 0 (lower t))) = _
      rw [strtolDigits_lower]
      rfl
    have hm' : tolower c ≠ minus := fun h => hm ((tolower_eq_iff (.inl (by decide))).mp h)
    have hp' : tolower c ≠ plus := fun h => hp ((tolower_eq_iff (.inl (by decide))).mp h)
    have hplain := strtolDigits_lower 0 (c :: t)
    rw [lower_cons] at hplain
    simp [hm, hp, hm', hp', hplain]

/-- The special characters, and the others that patterns are cut at. -/
def Caseless (d : Byte) : Prop := d.toNat < 65 ∨ 122 < d.toNat ∨ (90 < d.toNat ∧ d.toNat < 97)

instance (d : Byte) : Decidable (Caseless d) := by
  unfold Caseless
  infer_instance

theorem beq_tolower {d : Byte} (hd : Caseless d) (c : Byte) :
    decide (tolower c = d) = decide (c = d) :=
  decide_eq_decide.mpr (tolower_eq_iff hd)

theorem bne_tolower {d : Byte} (hd : Caseless d) (c : Byte) :
    decide (tolower c ≠ d) = decide (c ≠ d) :=
  decide_eq_decide.mpr (tolower_eq_iff hd).not

theorem splitOn_lower {d : Byte} (hd : Caseless d) (s : List Byte) :
    (lower s).splitOn d = (s.splitOn d).map lower := by
  induction s with
  | nil => rfl
  | cons c s ih =>
    unfold List.splitOn at ih ⊢
    rw [lower_cons, List.splitOnP_cons_eq_if_modifyHead, List.splitOnP_cons_eq_if_modifyHead, ih]
    have hcut : (tolower c == d) = (c == d) := beq_tolower hd c
    rw [hcut]
    split
    · rfl
    · cases List.splitOnP (fun x => x == d) s with
      | nil => rfl
      | cons t ts => rfl

section

variable {next next' : List Byte → List Byte → Option Bool}
  (hnext : ∀ wild p, next (lower wild) (lower p) = next' wild p)

include hnext

theorem starLoop_lower (wild p : List Byte) :
    starLoop next (lower wild) (lower p) = starLoop next' wild p := by
  induction p with
  | nil => rfl
  | cons c p ih =>
    have hcp := hnext wild (c :: p)
    rw [lower_cons] at hcp ⊢
    rw [starLoop, starLoop, hcp, ih]
    simp only [tolower_eq_iff (show Caseless nul by decide)]

theorem wildStar_lower (wild p : List Byte) :
    wildStar next (lower wild) (lower p) = wildStar next' wild p := by
  cases wild with
  | nil => rfl
  | cons c wild =>
    have hloop := starLoop_lower hnext (c :: wild) p
    rw [lower_cons] at hloop ⊢
    simp only [wildStar, tolower_eq_iff (show Caseless nul by decide), hloop]

omit hnext in
theorem wildNumber_lower {stop : Byte} (hstop : Caseless stop) (wild : List Byte) :
    wildNumber stop (lower wild) =
      (wildNumber stop wild).map (Option.map fun r => (r.1, lower r.2)) := by
  cases wild with
  | nil => rfl
  | cons c wild =>
    have hdrop := dropWhile_lower isdigit_tolower (c :: wild)
    have hatoi := atoi_lower (c :: wild)
    rw [lower_cons] at hdrop hatoi ⊢
    simp only [wildNumber, isdigit_tolower, hdrop, hatoi]
    split_ifs
    · rfl
    · cases (c :: wild).dropWhile isdigit with
      | nil => rfl
      | cons d rest =>
        simp only [lower_cons, tolower_eq_iff hstop, Option.map_some]
        split_ifs
        · rfl
        · rfl

theorem wildRange_lower (wild p : List Byte) :
    wildRange next (lower wild) (lower p) = wildRange next' wild p := by
  cases p with
  | nil => rfl
  | cons c p =>
    have hdrop := dropWhile_lower isdigit_tolower (c :: p)
    have hatoi := atoi_lower (c :: p)
    rw [lower_cons] at hdrop hatoi ⊢
    simp only [wildRange, isdigit_tolower, hdrop, hatoi,
      wildNumber_lower (show Caseless minus by decide)]
    split_ifs
    · rfl
    cases wildNumber minus wild with
    | none => rfl
    | some r =>
      cases r with
      | none => rfl
      | some r =>
        simp only [Option.map_some, wildNumber_lower (show Caseless rangle by decide)]
        cases wildNumber rangle r.2 with
        | none => rfl
        | some r' =>
          cases r' with
          | none => rfl
          | some r' => simp only [Option.map_some, hnext]

omit hnext in
theorem bracketScan_lower (q : Byte) (wild : List Byte) :
    bracketScan true (tolower q) (lower wild) = lower (bracketScan false q wild) := by
  induction wild with
  | nil => rfl
  | cons c wild ih =>
    have hsame : sameChar true (tolower c) (tolower q) = sameChar false c q := rfl
    rw [lower_cons, bracketScan, bracketScan, hsame, bne_tolower (by decide), ih]
    split
    · rfl
    · rfl

theorem wildBracket_lower (wild p : List Byte) :
    wildBracket true next (lower wild) (lower p) = wildBracket false next' wild p := by
  cases p with
  | nil =>
    cases wild with
    | nil => rfl
    | cons c wild =>
      simp only [wildBracket, lower_cons, lower_nil, List.head?_cons, Option.some.injEq,
        tolower_eq_iff (show Caseless rbracket by decide)]
  | cons q p =>
    simp only [wildBracket, lower_cons, bracketScan_lower]
    cases bracketScan false q wild with
    | nil => rfl
    | cons c wild =>
      have hdrop := @dropWhile_lower (fun d => d ≠ nul && d ≠ rbracket)
        (fun d => by rw [bne_tolower (by decide), bne_tolower (by decide)]) (c :: wild)
      rw [lower_cons] at hdrop
      simp only [lower_cons, tolower_eq_iff (show Caseless rbracket by decide), hdrop]
      split_ifs
      · rfl
      · cases (c :: wild).dropWhile fun d => d ≠ nul && d ≠ rbracket with
        | nil => rfl
        | cons d wild =>
          simp only [lower_cons, tolower_eq_iff (show Caseless nul by decide), hnext]

omit hnext in
theorem matchAlternative_lower (alternative p : List Byte) :
    matchAlternative true (lower alternative) (lower p) =
      (matchAlternative false alternative p).map (Option.map lower) := by
  induction alternative generalizing p with
  | nil => rfl
  | cons c alternative ih =>
    cases p with
    | nil => rfl
    | cons q p =>
      have hsame : sameChar true (tolower c) (tolower q) = sameChar false c q := rfl
      rw [lower_cons, lower_cons, matchAlternative, matchAlternative, hsame, ih]
      split
      · rfl
      · rfl

theorem braceLoop_lower (rest p : List Byte) (alternatives : List (List Byte)) :
    braceLoop true next (lower rest) (lower p) (alternatives.map lower) =
      braceLoop false next' rest p alternatives := by
  induction alternatives with
  | nil => rfl
  | cons alternative alternatives ih =>
    rw [List.map_cons, braceLoop, braceLoop, matchAlternative_lower, ih]
    cases matchAlternative false alternative p with
    | none => rfl
    | some r =>
      cases r with
      | none => rfl
      | some p' => simp only [Option.map_some, hnext]

theorem wildBrace_lower (wild p : List Byte) :
    wildBrace true next (lower wild) (lower p) = wildBrace false next' wild p := by
  have htest : ∀ c, (tolower c ≠ lbrace && tolower c ≠ nul && tolower c ≠ rbrace) =
      (c ≠ lbrace && c ≠ nul && c ≠ rbrace : Bool) := by
    intro c
    rw [bne_tolower (by decide), bne_tolower (by decide), bne_tolower (by decide)]
  have hdrop := @dropWhile_lower (fun c => c ≠ lbrace && c ≠ nul && c ≠ rbrace) htest wild
  have htake := @takeWhile_lower (fun c => c ≠ lbrace && c ≠ nul && c ≠ rbrace) htest wild
  simp only [wildBrace, hdrop, htake]
  cases wild.dropWhile fun c => c ≠ lbrace && c ≠ nul && c ≠ rbrace with
  | nil => rfl
  | cons c rest =>
    simp only [lower_cons, tolower_eq_iff (show Caseless rbrace by decide),
      splitOn_lower (show Caseless comma by decide), braceLoop_lower hnext]

theorem wildLiteral_lower (c : Byte) (wild p : List Byte) :
    wildLiteral true next (tolower c) (lower wild) (lower p) = wildLiteral false next' c wild p := by
  cases p with
  | nil => rfl
  | cons q p =>
    have hsame : sameChar true (tolower c) (tolower q) = sameChar false c q := rfl
    simp only [wildLiteral, lower_cons, hsame, hnext,
      tolower_eq_iff (show Caseless nul by decide)]

theorem wildSwitch_lower (wild p : List Byte) :
    wildSwitch true next (lower wild) (lower p) = wildSwitch false next' wild p := by
  cases wild with
  | nil => rfl
  | cons c wild =>
    rw [lower_cons]
    by_cases hspecial : c ∈ [star, langle, question, lbracket, lbrace, bslash]
    · fin_cases hspecial
      · exact wildStar_lower hnext wild p
      · exact wildRange_lower hnext wild p
      · have htail : (lower p).tail = lower p.tail := by cases p <;> rfl
        show next (lower wild) (lower p).tail = next' wild p.tail
        rw [htail, hnext]
      · exact wildBracket_lower hnext wild p
      · exact wildBrace_lower hnext wild p
      · cases wild with
        | nil => rfl
        | cons d wild => exact wildLiteral_lower hnext d wild p
    · have hplain : ∀ d ∈ [star, langle, question, lbracket, lbrace, bslash], c ≠ d :=
        fun d hd h => hspecial (h ▸ hd)
      have hcaseless : ∀ d ∈ [star, langle, question, lbracket, lbrace, bslash], Caseless d := by
        decide +kernel
      rw [wildSwitch_other fun d hd h => hplain d hd ((tolower_eq_iff (hcaseless d hd)).mp h),
        wildSwitch_other hplain]
      exact wildLiteral_lower hnext c wild p

end

theorem wildcardLoop_lower (fuel : Nat) (wild p : List Byte) :
    wildcardLoop true fuel (lower wild) (lower p) = wildcardLoop false fuel wild p := by
  induction fuel generalizing wild p with
  | zero => rfl
  | succ fuel ih => exact wildSwitch_lower ih wild p

/-- Without regard to case a pattern matches, and goes past a NUL, exactly where it does in lower
case with regard to case. -/
theorem wildcard_lower (wild p : List Byte) :
    wildcard (wild ++ [nul]) (p ++ [nul]) false =
      wildcard (lower wild ++ [nul]) (lower p ++ [nul]) true := by
  have hwild : lower wild ++ [nul] = lower (wild ++ [nul]) := by rw [lower_append]; rfl
  have hp : lower p ++ [nul] = lower (p ++ [nul]) := by rw [lower_append]; rfl
  unfold wildcard
  rw [hwild, hp, wildcardLoop_lower]
  simp [lower]

end Radmind
