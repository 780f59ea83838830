import Radmind.Wildcard

/-!
# The language of wildcards

A pattern is written as a sequence of characters, escapes, stars, number ranges and lists
in braces.  `wildcard` matches what it stands for, but for what a star leaves to the
elements behind it at the end of the string.
-/

namespace Radmind

open Glob

/-- What a pattern has beside stars. -/
inductive Piece
  | literal (c : Byte)
  | range (min max : Nat)
  | list (alternatives : List CStr)
  deriving DecidableEq, Repr

/-- The number some digits are. -/
def digitsValue (ds : List Byte) : Int := strtolDigits 10 0 ds

/-- The number `atoi` makes of some digits. -/
def digitsInt (ds : List Byte) : Int := (BitVec.ofInt 32 (clampLong (strtolDigits 10 0 ds))).toInt

/-- All the digits that stand there, before `v`. -/
structure DigitRun (u v : List Byte) : Prop where
  ne_nil : u ≠ []
  digits : ∀ c ∈ u, isdigit c = true
  maximal : ∀ c, v.head? = some c → isdigit c = false

/-- The string `u`, with `v` behind it, is a piece. -/
def Piece.Accepts (number : List Byte → Int) : Piece → List Byte → List Byte → Prop
  | .literal c, u, _ => u = [c]
  | .range min max, u, v => DigitRun u v ∧ min ≤ number u ∧ number u ≤ max
  | .list alternatives, u, _ => u ∈ alternatives

/-- The characters with a case of their own in the switch. -/
def isSpecial (c : Byte) : Bool :=
  c = nul || c = star || c = langle || c = question || c = lbracket || c = lbrace || c = bslash

/-- What may stand between the commas of a list. -/
def isListed (c : Byte) : Bool := c ≠ nul && c ≠ lbrace && c ≠ rbrace && c ≠ comma

/-- A number as it may stand in a range. -/
structure RangeNumber (ds : List Byte) : Prop where
  ne_nil : ds ≠ []
  digits : ∀ c ∈ ds, isdigit c = true
  int : digitsValue ds < 2 ^ 31

/-- The text of a pattern. -/
inductive PatternText : List (Elem Piece) → CStr → Prop
  | nil : PatternText [] []
  | plain {c : Byte} {es : List (Elem Piece)} {w : CStr} : isSpecial c = false →
      PatternText es w → PatternText (.piece (.literal c) :: es) (c :: w)
  | escape {c : Byte} {es : List (Elem Piece)} {w : CStr} : c ≠ nul → PatternText es w →
      PatternText (.piece (.literal c) :: es) (bslash :: c :: w)
  | star {es : List (Elem Piece)} {w : CStr} : PatternText es w →
      PatternText (.star :: es) (Radmind.star :: w)
  | range {min max : List Byte} {es : List (Elem Piece)} {w : CStr} : RangeNumber min →
      RangeNumber max → PatternText es w →
      PatternText (.piece (.range (digitsValue min).toNat (digitsValue max).toNat) :: es)
        (langle :: (min ++ minus :: (max ++ rangle :: w)))
  | list {alternatives : List CStr} {es : List (Elem Piece)} {w : CStr} : alternatives ≠ [] →
      (∀ a ∈ alternatives, ∀ c ∈ a, isListed c = true) → PatternText es w →
      PatternText (.piece (.list alternatives) :: es)
        (lbrace :: ([comma].intercalate alternatives ++ rbrace :: w))

/-! ## The cases of the switch -/

/-- The result says whether something holds. -/
def Decides (r : Option Bool) (P : Prop) : Prop := ∃ b, r = some b ∧ (b = true ↔ P)

theorem Decides.iff {r : Option Bool} {P : Prop} (h : Decides r P) : r = some true ↔ P := by
  obtain ⟨b, rfl, hb⟩ := h
  rw [Option.some_inj, hb]

theorem Decides.congr {r : Option Bool} {P Q : Prop} (h : Decides r P) (hPQ : P ↔ Q) :
    Decides r Q := by
  obtain ⟨b, hr, hb⟩ := h
  exact ⟨b, hr, hb.trans hPQ⟩

theorem decides_false {P : Prop} (h : ¬ P) : Decides (some false) P := ⟨false, rfl, by simp [h]⟩

theorem decides_true {P : Prop} (h : P) : Decides (some true) P := ⟨true, rfl, by simp [h]⟩

theorem mem_intercalate {sep : List Byte} {ls : List (List Byte)} {c : Byte}
    (h : c ∈ sep.intercalate ls) : c ∈ sep ∨ ∃ l ∈ ls, c ∈ l := by
  induction ls with
  | nil => simp at h
  | cons l ls ih =>
    cases ls with
    | nil => exact .inr ⟨l, List.mem_cons_self, by simpa using h⟩
    | cons l' ls =>
      rw [List.intercalate_cons_cons, List.mem_append, List.mem_append] at h
      rcases h with (h | h) | h
      · exact .inr ⟨l, List.mem_cons_self, h⟩
      · exact .inl h
      · rcases ih h with h | ⟨l'', hl'', hc⟩
        · exact .inl h
        · exact .inr ⟨l'', List.mem_cons_of_mem _ hl'', hc⟩

theorem wildSwitch_plain {sensitive : Bool} {next : List Byte → List Byte → Option Bool} {c : Byte}
    (hc : isSpecial c = false) (wild p : List Byte) :
    wildSwitch sensitive next (c :: wild) p = wildLiteral sensitive next c wild p := by
  simp only [isSpecial, Bool.or_eq_false_iff, decide_eq_false_iff_not] at hc
  refine wildSwitch_other ?_ wild p
  simp [hc]

section

variable {next : List Byte → List Byte → Option Bool} {Q : List Byte → Prop} {wild behind : List Byte}

theorem starLoop_decides (hnext : ∀ v, NulFree v → Decides (next wild (v ++ nul :: behind)) (Q v))
    {p : List Byte} (hp : NulFree p) : Decides (starLoop next wild (p ++ nul :: behind))
      (∃ u v, p = u ++ v ∧ v ≠ [] ∧ Q v) := by
  induction p with
  | nil =>
    refine decides_false ?_
    rintro ⟨u, v, huv, hne, -⟩
    exact hne (List.append_eq_nil_iff.mp huv.symm).2
  | cons c p ih =>
    obtain ⟨hc, hp'⟩ := nulFree_cons.mp hp
    obtain ⟨b, hb, hQ⟩ := hnext (c :: p) hp
    rw [List.cons_append] at hb
    rw [List.cons_append, starLoop, if_neg hc, hb]
    -- a split either leaves the whole string, or is one behind its first character
    have hsplit : (∃ u v, c :: p = u ++ v ∧ v ≠ [] ∧ Q v) ↔
        Q (c :: p) ∨ ∃ u v, p = u ++ v ∧ v ≠ [] ∧ Q v := by
      constructor
      · rintro ⟨u, v, huv, hne, hv⟩
        cases u with
        | nil => exact .inl (by rwa [huv])
        | cons d u =>
          obtain ⟨rfl, rfl⟩ := List.cons.inj huv
          exact .inr ⟨u, v, rfl, hne, hv⟩
      · rintro (h | ⟨u, v, rfl, hne, hv⟩)
        · exact ⟨[], c :: p, rfl, by simp, h⟩
        · exact ⟨c :: u, v, rfl, hne, hv⟩
    cases b with
    | true => exact decides_true (hsplit.mpr (.inl (hQ.mp rfl)))
    | false =>
      have hnot : ¬ Q (c :: p) := fun hq => absurd (hQ.mpr hq) (by simp)
      refine (ih hp').congr ?_
      rw [hsplit]
      exact ⟨.inr, fun h => h.resolve_left hnot⟩

theorem wildLiteral_decides {c : Byte} (hc : c ≠ nul)
    (hnext : ∀ v, NulFree v → Decides (next wild (v ++ nul :: behind)) (Q v)) {p : List Byte}
    (hp : NulFree p) : Decides (wildLiteral true next c wild (p ++ nul :: behind))
      (∃ u v, p = u ++ v ∧ u = [c] ∧ Q v) := by
  cases p with
  | nil =>
    have hsame : sameChar true c nul = false := by simp [sameChar, hc]
    rw [List.nil_append, wildLiteral, hsame]
    refine decides_false ?_
    rintro ⟨u, v, huv, rfl, -⟩
    cases huv
  | cons q p =>
    rw [List.cons_append, wildLiteral, if_neg hc]
    by_cases hq : c = q
    · subst hq
      have hsame : sameChar true c c = true := by simp [sameChar]
      rw [hsame]
      refine (hnext p (nulFree_cons.mp hp).2).congr ⟨fun h => ⟨[c], p, rfl, rfl, h⟩, ?_⟩
      rintro ⟨u, v, huv, rfl, hv⟩
      rwa [(List.cons.inj huv).2]
    · have hsame : sameChar true c q = false := by simp [sameChar, hq]
      rw [hsame]
      refine decides_false ?_
      rintro ⟨u, v, huv, rfl, -⟩
      exact hq (List.cons.inj huv).1.symm

theorem matchAlternative_eq {a p : List Byte} (ha : NulFree a) :
    (∃ v, p = a ++ v ∧
      matchAlternative true a (p ++ nul :: behind) = some (some (v ++ nul :: behind))) ∨
    (¬ ∃ v, p = a ++ v) ∧ matchAlternative true a (p ++ nul :: behind) = some none := by
  induction a generalizing p with
  | nil => exact .inl ⟨p, rfl, rfl⟩
  | cons c a ih =>
    obtain ⟨hc, ha⟩ := nulFree_cons.mp ha
    cases p with
    | nil => exact .inr ⟨by simp, by simp [matchAlternative, sameChar, hc]⟩
    | cons q p =>
      by_cases hq : c = q
      · subst hq
        rcases ih ha (p := p) with ⟨v, rfl, hv⟩ | ⟨hnone, hv⟩
        · exact .inl ⟨v, rfl, by simpa [matchAlternative, sameChar] using hv⟩
        · refine .inr ⟨?_, by simpa [matchAlternative, sameChar] using hv⟩
          rintro ⟨v, hv⟩
          exact hnone ⟨v, (List.cons.inj hv).2⟩
      · refine .inr ⟨?_, by simp [matchAlternative, sameChar, hq]⟩
        rintro ⟨v, hv⟩
        exact hq (List.cons.inj hv).1.symm

theorem braceLoop_decides
    (hnext : ∀ v, NulFree v → Decides (next wild (v ++ nul :: behind)) (Q v)) {p : List Byte}
    (hp : NulFree p) {alternatives : List CStr} (ha : ∀ a ∈ alternatives, NulFree a) :
    Decides (braceLoop true next wild (p ++ nul :: behind) alternatives)
      (∃ u v, p = u ++ v ∧ u ∈ alternatives ∧ Q v) := by
  induction alternatives with
  | nil => exact decides_false (by simp)
  | cons a alternatives ih =>
    have hrest := ih fun a h => ha a (List.mem_cons_of_mem _ h)
    rw [braceLoop]
    rcases @matchAlternative_eq behind a p (ha a List.mem_cons_self) with
      ⟨v, rfl, hv⟩ | ⟨hnone, hv⟩
    · rw [hv]
      obtain ⟨b, hb, hQ⟩ := hnext v (nulFree_append.mp hp).2
      simp only [hb]
      cases b with
      | true => exact decides_true ⟨a, v, rfl, List.mem_cons_self, hQ.mp rfl⟩
      | false =>
        refine hrest.congr ⟨?_, ?_⟩
        · rintro ⟨u, v', huv, hu, hv'⟩
          exact ⟨u, v', huv, List.mem_cons_of_mem _ hu, hv'⟩
        · rintro ⟨u, v', huv, hu, hv'⟩
          rcases List.mem_cons.mp hu with rfl | hu
          · rw [← List.append_cancel_left huv] at hv'
            exact absurd (hQ.mpr hv') (by simp)
          · exact ⟨u, v', huv, hu, hv'⟩
    · rw [hv]
      refine hrest.congr ⟨?_, ?_⟩
      · rintro ⟨u, v', huv, hu, hv'⟩
        exact ⟨u, v', huv, List.mem_cons_of_mem _ hu, hv'⟩
      · rintro ⟨u, v', huv, hu, hv'⟩
        rcases List.mem_cons.mp hu with rfl | hu
        · exact absurd ⟨v', huv⟩ hnone
        · exact ⟨u, v', huv, hu, hv'⟩

/-! ## Numbers -/

theorem isdigit_iff {c : Byte} : isdigit c = true ↔ IsDigit c := by
  simp [isdigit, IsDigit, UInt8.le_iff_toNat_le]
  omega

theorem strtolDigits_append {ds : List Byte} (hds : ∀ c ∈ ds, isdigit c = true) {rest : List Byte}
    (hrest : ∀ c, rest.head? = some c → isdigit c = false) (acc : Nat) :
    strtolDigits 10 acc (ds ++ rest) = strtolDigits 10 acc ds := by
  induction ds generalizing acc with
  | nil =>
    cases rest with
    | nil => rfl
    | cons c rest =>
      have hc : ¬ (48 ≤ c.toNat ∧ c.toNat < 48 + 10) := fun h => by
        have hdigit := isdigit_iff.mpr (show IsDigit c from h)
        rw [hrest c rfl] at hdigit
        cases hdigit
      simp [strtolDigits, hc]
  | cons c ds ih =>
    rw [List.cons_append, strtolDigits, strtolDigits,
      ih fun c hc => hds c (List.mem_cons_of_mem _ hc)]

theorem atoi_digits {ds rest : List Byte} (h : DigitRun ds rest) :
    (atoi (ds ++ rest)).toInt = digitsInt ds := by
  obtain ⟨c, ds, rfl⟩ := List.exists_cons_of_ne_nil h.ne_nil
  have hc := isdigit_iff.mp (h.digits c List.mem_cons_self)
  rw [atoi, List.cons_append, strtol_digit hc, ← List.cons_append,
    strtolDigits_append h.digits h.maximal]
  rfl

theorem DigitRun.dropWhile {ds rest : List Byte} (h : DigitRun ds rest) :
    (ds ++ rest).dropWhile isdigit = rest := by
  rw [List.dropWhile_append_of_pos h.digits]
  cases rest with
  | nil => rfl
  | cons c rest => rw [List.dropWhile_cons_of_neg (by simp [h.maximal c rfl])]

theorem digitsInt_eq {ds : List Byte} (h : digitsValue ds < 2 ^ 31) : digitsInt ds = digitsValue ds := by
  have hnonneg : 0 ≤ digitsValue ds := Int.natCast_nonneg _
  unfold digitsInt
  rw [show (strtolDigits 10 0 ds : Int) = digitsValue ds from rfl,
    clampLong_eq (by omega) (by omega), BitVec.toInt_ofInt]
  exact Int.bmod_eq_of_le (by omega) (by omega)

/-- The digits at the front of a string are all that stand there. -/
theorem digitRun_takeWhile {c : Byte} (hc : isdigit c = true) (p : List Byte) :
    DigitRun ((c :: p).takeWhile isdigit) ((c :: p).dropWhile isdigit) where
  ne_nil := by simp [hc]
  digits := fun _ hd => List.mem_takeWhile_imp hd
  maximal := fun d hd => by
    have hhead := List.head?_dropWhile_not isdigit (c :: p)
    rw [hd] at hhead
    simpa using hhead

/-- There is one way only to take all the digits at the front. -/
theorem DigitRun.unique {u v u' v' : List Byte} (h : DigitRun u v) (h' : DigitRun u' v')
    (heq : u ++ v = u' ++ v') : u = u' ∧ v = v' := by
  have hv : v = v' := by rw [← h.dropWhile, heq, h'.dropWhile]
  subst hv
  exact ⟨List.append_cancel_right heq, rfl⟩

theorem RangeNumber.run {ds : List Byte} (h : RangeNumber ds) {stop : Byte}
    (hstop : isdigit stop = false) (rest : List Byte) : DigitRun ds (stop :: rest) where
  ne_nil := h.ne_nil
  digits := h.digits
  maximal := fun c hc => by rwa [← Option.some.inj hc]

theorem wildNumber_eq {ds : List Byte} (hds : RangeNumber ds) {stop : Byte}
    (hstop : isdigit stop = false) (rest : List Byte) :
    wildNumber stop (ds ++ stop :: rest) = some (some (digitsValue ds, rest)) := by
  have hrun := hds.run hstop rest
  have hvalue : (atoi (ds ++ stop :: rest)).toInt = digitsValue ds := by
    rw [atoi_digits hrun, digitsInt_eq hds.int]
  have hdrop := hrun.dropWhile
  obtain ⟨c, ds, rfl⟩ := List.exists_cons_of_ne_nil hds.ne_nil
  have hc := hds.digits c List.mem_cons_self
  rw [List.cons_append] at hvalue hdrop ⊢
  simp [wildNumber, hc, hdrop, hvalue]

theorem wildRange_decides {min max : List Byte} (hmin : RangeNumber min) (hmax : RangeNumber max)
    (hnext : ∀ v, NulFree v → Decides (next wild (v ++ nul :: behind)) (Q v)) {p : List Byte}
    (hp : NulFree p) :
    Decides (wildRange next (min ++ minus :: (max ++ rangle :: wild)) (p ++ nul :: behind))
      (∃ u v, p = u ++ v ∧ (DigitRun u v ∧ digitsValue min ≤ digitsInt u ∧
        digitsInt u ≤ digitsValue max) ∧ Q v) := by
  have hnone : ∀ {c : Byte} {p' : List Byte}, p ++ nul :: behind = c :: p' → isdigit c = false →
      ¬ ∃ u v, p = u ++ v ∧ (DigitRun u v ∧ digitsValue min ≤ digitsInt u ∧
        digitsInt u ≤ digitsValue max) ∧ Q v := by
    rintro c p' hp' hc ⟨u, v, rfl, ⟨hrun, -⟩, -⟩
    obtain ⟨d, u, rfl⟩ := List.exists_cons_of_ne_nil hrun.ne_nil
    have hd := hrun.digits d List.mem_cons_self
    rw [(List.cons.inj hp').1, hc] at hd
    cases hd
  cases hdigit : p with
  | nil =>
    rw [hdigit] at hnone
    exact decides_false (hnone rfl (by decide))
  | cons c p' =>
    rw [← hdigit]
    by_cases hc : isdigit c = true
    · have hrun := digitRun_takeWhile hc p'
      rw [← hdigit] at hrun
      have hsplit : p = p.takeWhile isdigit ++ p.dropWhile isdigit :=
        List.takeWhile_append_dropWhile.symm
      generalize p.takeWhile isdigit = u at hrun hsplit
      generalize p.dropWhile isdigit = v at hrun hsplit
      -- the NUL is no digit, either
      have hmem : DigitRun u (v ++ nul :: behind) := by
        refine ⟨hrun.ne_nil, hrun.digits, fun d hd => ?_⟩
        cases v with
        | nil =>
          rw [← Option.some.inj hd]
          decide
        | cons d' v => exact hrun.maximal d hd
      have hvalue : (atoi (p ++ nul :: behind)).toInt = digitsInt u := by
        rw [hsplit, List.append_assoc, atoi_digits hmem]
      have hdrop : (p ++ nul :: behind).dropWhile isdigit = v ++ nul :: behind := by
        rw [hsplit, List.append_assoc, hmem.dropWhile]
      have hv : NulFree v := (nulFree_append.mp (hsplit ▸ hp)).2
      have hstep : wildRange next (min ++ minus :: (max ++ rangle :: wild)) (p ++ nul :: behind) =
          if digitsInt u < digitsValue min || digitsInt u > digitsValue max then some false
          else next wild (v ++ nul :: behind) := by
        rw [hdigit, List.cons_append] at hvalue hdrop ⊢
        unfold wildRange
        simp only [hc, wildNumber_eq hmin (show isdigit minus = false by decide),
          wildNumber_eq hmax (show isdigit rangle = false by decide), hvalue, hdrop]
        rfl
      have hiff : (∃ u' v', p = u' ++ v' ∧ (DigitRun u' v' ∧ digitsValue min ≤ digitsInt u' ∧
          digitsInt u' ≤ digitsValue max) ∧ Q v') ↔
          (digitsValue min ≤ digitsInt u ∧ digitsInt u ≤ digitsValue max) ∧ Q v := by
        constructor
        · rintro ⟨u', v', huv, ⟨hrun', hin⟩, hQ⟩
          obtain ⟨rfl, rfl⟩ := hrun.unique hrun' (hsplit.symm.trans huv)
          exact ⟨hin, hQ⟩
        · rintro ⟨hin, hQ⟩
          exact ⟨u, v, hsplit, ⟨hrun, hin⟩, hQ⟩
      rw [hstep]
      split_ifs with hout
      · refine decides_false fun h => ?_
        have hin := (hiff.mp h).1
        simp only [Bool.or_eq_true, decide_eq_true_eq] at hout
        omega
      · simp only [Bool.or_eq_true, decide_eq_true_eq, not_or, not_lt] at hout
        exact (hnext v hv).congr ⟨fun h => hiff.mpr ⟨hout, h⟩, fun h => (hiff.mp h).2⟩
    · have hc' : isdigit c = false := by simpa using hc
      have hp' : p ++ nul :: behind = c :: (p' ++ nul :: behind) := by rw [hdigit]; rfl
      have hstep : wildRange next (min ++ minus :: (max ++ rangle :: wild)) (p ++ nul :: behind) =
          some false := by
        rw [hp', wildRange, hc']
        rfl
      rw [hstep]
      exact decides_false (hnone hp' hc')

theorem wildBrace_decides {alternatives : List CStr} (hne : alternatives ≠ [])
    (ha : ∀ a ∈ alternatives, ∀ c ∈ a, isListed c = true)
    (hnext : ∀ v, NulFree v → Decides (next wild (v ++ nul :: behind)) (Q v)) {p : List Byte}
    (hp : NulFree p) :
    Decides (wildBrace true next ([comma].intercalate alternatives ++ rbrace :: wild)
      (p ++ nul :: behind)) (∃ u v, p = u ++ v ∧ u ∈ alternatives ∧ Q v) := by
  have hcomma : ∀ a ∈ alternatives, comma ∉ a := fun a h hc => by
    have hlisted := ha a h comma hc
    revert hlisted
    decide
  have hnul : ∀ a ∈ alternatives, NulFree a := fun a h hc => by
    have hlisted := ha a h nul hc
    revert hlisted
    decide
  -- no character of the list ends the scan for the brace
  have hlist : ∀ c ∈ [comma].intercalate alternatives,
      (c ≠ lbrace && c ≠ nul && c ≠ rbrace) = true := by
    intro c hc
    rcases mem_intercalate hc with hc | ⟨a, h, hc⟩
    · rw [List.mem_singleton.mp hc]
      decide
    · have hlisted := ha a h c hc
      simp only [isListed, Bool.and_eq_true] at hlisted
      simp [hlisted]
  have hdrop : ([comma].intercalate alternatives ++ rbrace :: wild).dropWhile
      (fun c => c ≠ lbrace && c ≠ nul && c ≠ rbrace) = rbrace :: wild := by
    rw [List.dropWhile_append_of_pos hlist]
    rfl
  have htake : ([comma].intercalate alternatives ++ rbrace :: wild).takeWhile
      (fun c => c ≠ lbrace && c ≠ nul && c ≠ rbrace) = [comma].intercalate alternatives := by
    rw [List.takeWhile_append_of_pos hlist]
    exact List.append_nil _
  have hstep : wildBrace true next ([comma].intercalate alternatives ++ rbrace :: wild)
      (p ++ nul :: behind) =
        braceLoop true next wild (p ++ nul :: behind)
          (([comma].intercalate alternatives).splitOn comma) := by
    unfold wildBrace
    rw [hdrop, htake]
    rfl
  rw [hstep, List.splitOn_intercalate comma hcomma hne]
  exact braceLoop_decides hnext hp hnul

end

/-! ## The language -/

theorem PatternText.nulFree {es : List (Elem Piece)} {w : CStr} (h : PatternText es w) :
    NulFree w := by
  have hdigits : ∀ {ds : List Byte}, RangeNumber ds → NulFree ds := fun h hc => by
    have hdigit := h.digits nul hc
    revert hdigit
    decide
  induction h with
  | nil => exact nulFree_nil
  | plain hc _ ih =>
    refine nulFree_cons.mpr ⟨?_, ih⟩
    rintro rfl
    cases hc
  | escape hc _ ih => exact nulFree_cons.mpr ⟨by decide, nulFree_cons.mpr ⟨hc, ih⟩⟩
  | star _ ih => exact nulFree_cons.mpr ⟨by decide, ih⟩
  | range hmin hmax _ ih =>
    refine nulFree_cons.mpr ⟨by decide, nulFree_append.mpr ⟨hdigits hmin, ?_⟩⟩
    refine nulFree_cons.mpr ⟨by decide, nulFree_append.mpr ⟨hdigits hmax, ?_⟩⟩
    exact nulFree_cons.mpr ⟨by decide, ih⟩
  | list _ ha _ ih =>
    refine nulFree_cons.mpr ⟨by decide, nulFree_append.mpr ⟨fun hc => ?_, ?_⟩⟩
    · rcases mem_intercalate hc with hc | ⟨a, h, hc⟩
      · exact absurd hc (by decide)
      · have hlisted := ha a h nul hc
        revert hlisted
        decide
    · exact nulFree_cons.mpr ⟨by decide, ih⟩

/-- `wildcard` decides whether the string is in the language, read eagerly, with numbers
as `atoi` has them. -/
theorem wildcard_decides {es : List (Elem Piece)} {w : CStr} (h : PatternText es w)
    (behind : List Byte) {p : List Byte} (hp : NulFree p) :
    Decides (wildcard (w ++ [nul]) (p ++ nul :: behind) true)
      (Eager (Piece.Accepts digitsInt) es p) := by
  induction h generalizing p with
  | nil =>
    rw [List.nil_append, wildcard_eq]
    cases p with
    | nil => exact decides_true rfl
    | cons c p =>
      have hc : sameChar true nul c = false := by
        simp [sameChar, (nulFree_cons.mp hp).1.symm]
      show Decides (wildLiteral true _ nul [] (c :: (p ++ nul :: behind))) _
      rw [wildLiteral, hc]
      exact decides_false (by simp [Eager])
  | @plain c es w hc _ ih =>
    have hne : c ≠ nul := by
      rintro rfl
      cases hc
    rw [List.cons_append, wildcard_eq, wildSwitch_plain hc]
    exact wildLiteral_decides hne (fun v hv => ih hv) hp
  | @escape c es w hc _ ih =>
    rw [List.cons_append, List.cons_append, wildcard_eq]
    exact wildLiteral_decides hc (fun v hv => ih hv) hp
  | @star es w h ih =>
    rw [List.cons_append, wildcard_eq]
    show Decides (wildStar (fun wild p => wildcard wild p true) (w ++ [nul])
      (p ++ nul :: behind)) _
    cases hw : w with
    | nil =>
      rw [hw] at h
      cases h
      exact decides_true (.inl rfl)
    | cons c w' =>
      have hc : c ≠ nul := (nulFree_cons.mp (hw ▸ h.nulFree)).1
      have hes : es ≠ [] := by
        rintro rfl
        rw [hw] at h
        cases h
      have hstep : wildStar (fun wild p => wildcard wild p true) (w ++ [nul])
          (p ++ nul :: behind) = starLoop (fun wild p => wildcard wild p true) (w ++ [nul])
            (p ++ nul :: behind) := by
        rw [hw, List.cons_append, wildStar, if_neg hc]
      rw [← hw, hstep]
      refine (@starLoop_decides (fun wild p => wildcard wild p true) _ _ _
        (fun v hv => ih hv) p hp).congr ?_
      exact ⟨.inr, fun h => h.resolve_left hes⟩
  | @range min max es w hmin hmax _ ih =>
    have htext : langle :: (min ++ minus :: (max ++ rangle :: w)) ++ [nul] =
        langle :: (min ++ minus :: (max ++ rangle :: (w ++ [nul]))) := by simp
    rw [htext, wildcard_eq]
    show Decides (wildRange (fun wild p => wildcard wild p true)
      (min ++ minus :: (max ++ rangle :: (w ++ [nul]))) (p ++ nul :: behind)) _
    have hvalue : ∀ ds, ((digitsValue ds).toNat : Int) = digitsValue ds :=
      fun ds => Int.toNat_of_nonneg (Int.natCast_nonneg _)
    refine (@wildRange_decides (fun wild p => wildcard wild p true) _ _ _ min max hmin hmax
      (fun v hv => ih hv) p hp).congr ?_
    rw [Eager]
    simp only [Piece.Accepts, hvalue]
  | @list alternatives es w hne ha _ ih =>
    have htext : lbrace :: ([comma].intercalate alternatives ++ rbrace :: w) ++ [nul] =
        lbrace :: ([comma].intercalate alternatives ++ rbrace :: (w ++ [nul])) := by simp
    rw [htext, wildcard_eq]
    show Decides (wildBrace true (fun wild p => wildcard wild p true)
      ([comma].intercalate alternatives ++ rbrace :: (w ++ [nul])) (p ++ nul :: behind)) _
    exact @wildBrace_decides (fun wild p => wildcard wild p true) _ _ _ alternatives hne ha
      (fun v hv => ih hv) p hp

/-- The digits of the string are numbers within `int`, wherever they start. -/
def ShortRuns (p : List Byte) : Prop :=
  ∀ ds, ds <:+: p → (∀ c ∈ ds, isdigit c = true) → digitsValue ds < 2 ^ 31

/-- A piece is one still where less stands behind it. -/
theorem Piece.Accepts.shorten {number : List Byte → Int} {x : Piece} {u v v' : List Byte}
    (h : x.Accepts number u v) (hv : v' <+: v) : x.Accepts number u v' := by
  cases x with
  | literal c => exact h
  | list alternatives => exact h
  | range min max =>
    obtain ⟨hrun, hin⟩ := h
    refine ⟨⟨hrun.ne_nil, hrun.digits, fun c hc => hrun.maximal c ?_⟩, hin⟩
    obtain ⟨t, rfl⟩ := hv
    cases v' with
    | nil => cases hc
    | cons d v' => exact hc

/-- Numbers within `int` are what `atoi` has them for. -/
theorem Piece.accepts_congr {p : List Byte} (hp : ShortRuns p) {x : Piece} {u v : List Byte}
    (hu : u ++ v <:+ p) : x.Accepts digitsInt u v ↔ x.Accepts digitsValue u v := by
  cases x with
  | literal c => rfl
  | list alternatives => rfl
  | range min max =>
    refine and_congr_right fun hrun => ?_
    have hshort := hp u ((List.prefix_append u v).isInfix.trans hu.isInfix) hrun.digits
    rw [digitsInt_eq hshort]

/-- Over strings whose numbers are within `int`, `wildcard` decides the language of a
pattern exactly where no star is followed by elements that can all stand for nothing, or
where the pattern matches none of these strings. -/
theorem glob_language_iff {es : List (Elem Piece)} {w : CStr} (h : PatternText es w)
    (behind : List Byte) :
    (∀ p, NulFree p → ShortRuns p → (wildcard (w ++ [nul]) (p ++ nul :: behind) true = some true ↔
      Glob.Matches (Piece.Accepts digitsValue) es p)) ↔
    ¬ Slack (Piece.Accepts digitsValue) es ∨
      ∀ p, NulFree p → ShortRuns p → ¬ Glob.Matches (Piece.Accepts digitsValue) es p := by
  have hwild : ∀ p, NulFree p ∧ ShortRuns p →
      (wildcard (w ++ [nul]) (p ++ nul :: behind) true = some true ↔
        Eager (Piece.Accepts digitsValue) es p) := by
    intro p hp
    rw [(wildcard_decides h behind hp.1).iff]
    exact ⟨fun h => h.mono fun x u v hu hx => (Piece.accepts_congr hp.2 hu).mp hx,
      fun h => h.mono fun x u v hu hx => (Piece.accepts_congr hp.2 hu).mpr hx⟩
  have hclosed : ∀ p p', (NulFree p ∧ ShortRuns p) → p' <+: p → NulFree p' ∧ ShortRuns p' :=
    fun p p' hp hp' => ⟨fun hc => hp.1 (hp'.subset hc),
      fun ds hds => hp.2 ds (hds.trans hp'.isInfix)⟩
  have hexact := @eager_exact_iff _ _ _ es
    (fun x u v v' => @Piece.Accepts.shorten digitsValue x u v v') _ hclosed
  simp only [and_imp] at hexact hwild
  rw [← hexact]
  exact forall_congr' fun p => forall_congr' fun hp => forall_congr' fun hruns => by
    rw [hwild p hp hruns]

theorem patternText_star_a : PatternText [.star, .piece (.literal 97)] (lit "*a") := by
  have hw : lit "*a" = [star, 97] := by decide
  rw [hw]
  exact .star (.plain (by decide) .nil)

theorem glob_language_iff_star_a :
    wildcard (lit "*a" ++ [nul]) (lit "ba" ++ [nul]) true = some true ↔
      Glob.Matches (Piece.Accepts digitsValue) [.star, .piece (.literal 97)] (lit "ba") := by
  have hslack : ¬ Slack (Piece.Accepts digitsValue) [.star, .piece (.literal 97)] := by
    rintro (⟨-, u, v, huv, rfl, -⟩ | h)
    · cases huv
    · exact h
  have hruns : ShortRuns (lit "ba") := by
    intro ds hds hdigits
    have hletters : ∀ c ∈ lit "ba", isdigit c = false := by decide +kernel
    cases ds with
    | nil => decide
    | cons c ds =>
      have hc := hletters c (hds.subset List.mem_cons_self)
      rw [hdigits c List.mem_cons_self] at hc
      cases hc
  have hlaw := (glob_language_iff patternText_star_a []).mpr (.inl hslack)
  exact hlaw (lit "ba") (by decide) hruns

/-- The list behind the star stands for nothing here, and is not tried. -/
theorem not_glob_language : ¬ ∀ (es : List (Elem Piece)) (w : CStr), PatternText es w →
    ∀ behind p, NulFree p → (wildcard (w ++ [nul]) (p ++ nul :: behind) true = some true ↔
      Glob.Matches (Piece.Accepts digitsValue) es p) := by
  intro h
  have htext : PatternText [.star, .piece (.list [[], lit "a"])] (lit "*{,a}") := by
    have hw : lit "*{,a}" = star :: lbrace :: ([comma].intercalate [[], lit "a"] ++ [rbrace]) := by
      decide
    rw [hw]
    exact .star (.list (by decide) (by decide +kernel) .nil)
  have hmissed : wildcard (lit "*{,a}" ++ [nul]) ([] ++ nul :: []) true = some false := by
    decide +kernel
  have hmatches : Glob.Matches (Piece.Accepts digitsValue) [.star, .piece (.list [[], lit "a"])] [] :=
    ⟨[], [], rfl, [], [], rfl, List.mem_cons_self, rfl⟩
  have hfound := (h _ _ htext [] [] nulFree_nil).mpr hmatches
  rw [hmissed] at hfound
  cases hfound

end Radmind
