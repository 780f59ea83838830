import Mathlib.Data.List.Infix

/-!
# Patterns with stars

A pattern is a sequence of stars and other elements.  A star stands for any string.  An
eager matcher hands what is left behind a star to the next elements only while something
is left.  It misses the strings at whose end these elements stand for nothing.
-/

namespace Glob

variable {Piece α : Type}

inductive Elem (Piece : Type)
  | star
  | piece (x : Piece)
  deriving DecidableEq, Repr

/-- The string is a concatenation of pieces for the elements.  `accepts x u v` says that
`u` is a piece for `x` where `v` stands behind it. -/
def Matches (accepts : Piece → List α → List α → Prop) : List (Elem Piece) → List α → Prop
  | [], p => p = []
  | .star :: es, p => ∃ u v, p = u ++ v ∧ Matches accepts es v
  | .piece x :: es, p => ∃ u v, p = u ++ v ∧ accepts x u v ∧ Matches accepts es v

/-- The same, with something left for the elements behind a star. -/
def Eager (accepts : Piece → List α → List α → Prop) : List (Elem Piece) → List α → Prop
  | [], p => p = []
  | .star :: es, p => es = [] ∨ ∃ u v, p = u ++ v ∧ v ≠ [] ∧ Eager accepts es v
  | .piece x :: es, p => ∃ u v, p = u ++ v ∧ accepts x u v ∧ Eager accepts es v

/-- Behind a star stand elements that can all stand for nothing. -/
def Slack (accepts : Piece → List α → List α → Prop) : List (Elem Piece) → Prop
  | [] => False
  | .star :: es => es ≠ [] ∧ Matches accepts es [] ∨ Slack accepts es
  | .piece _ :: es => Slack accepts es

variable {accepts accepts' : Piece → List α → List α → Prop} {es : List (Elem Piece)} {p : List α}

theorem Matches.mono (h : Matches accepts es p)
    (haccepts : ∀ x u v, u ++ v <:+ p → accepts x u v → accepts' x u v) :
    Matches accepts' es p := by
  induction es generalizing p with
  | nil => exact h
  | cons e es ih =>
    cases e with
    | star =>
      obtain ⟨u, v, rfl, hv⟩ := h
      exact ⟨u, v, rfl, ih hv fun x u' v' hs => haccepts x u' v' (hs.trans (List.suffix_append u v))⟩
    | piece x =>
      obtain ⟨u, v, rfl, hx, hv⟩ := h
      refine ⟨u, v, rfl, haccepts x u v (List.suffix_refl _) hx, ih hv fun x u' v' hs => ?_⟩
      exact haccepts x u' v' (hs.trans (List.suffix_append u v))

theorem Eager.mono (h : Eager accepts es p)
    (haccepts : ∀ x u v, u ++ v <:+ p → accepts x u v → accepts' x u v) :
    Eager accepts' es p := by
  induction es generalizing p with
  | nil => exact h
  | cons e es ih =>
    cases e with
    | star =>
      rcases h with hnil | ⟨u, v, rfl, hne, hv⟩
      · exact .inl hnil
      · exact .inr ⟨u, v, rfl, hne,
          ih hv fun x u' v' hs => haccepts x u' v' (hs.trans (List.suffix_append u v))⟩
    | piece x =>
      obtain ⟨u, v, rfl, hx, hv⟩ := h
      refine ⟨u, v, rfl, haccepts x u v (List.suffix_refl _) hx, ih hv fun x u' v' hs => ?_⟩
      exact haccepts x u' v' (hs.trans (List.suffix_append u v))

theorem Eager.matches (h : Eager accepts es p) : Matches accepts es p := by
  induction es generalizing p with
  | nil => exact h
  | cons e es ih =>
    cases e with
    | star =>
      rcases h with rfl | ⟨u, v, rfl, -, hv⟩
      · exact ⟨p, [], by simp, rfl⟩
      · exact ⟨u, v, rfl, ih hv⟩
    | piece x =>
      obtain ⟨u, v, rfl, hx, hv⟩ := h
      exact ⟨u, v, rfl, hx, ih hv⟩

/-- Without slack nothing is missed. -/
theorem Matches.eager (h : Matches accepts es p) (hslack : ¬ Slack accepts es) :
    Eager accepts es p := by
  induction es generalizing p with
  | nil => exact h
  | cons e es ih =>
    cases e with
    | star =>
      obtain ⟨u, v, rfl, hv⟩ := h
      obtain ⟨hnull, hslack⟩ := not_or.mp hslack
      by_cases hes : es = []
      · exact .inl hes
      · refine .inr ⟨u, v, rfl, ?_, ih hv hslack⟩
        rintro rfl
        exact hnull ⟨hes, hv⟩
    | piece x =>
      obtain ⟨u, v, rfl, hx, hv⟩ := h
      exact ⟨u, v, rfl, hx, ih hv hslack⟩

/-- With slack an eager match has a part at its end that it could do without. -/
theorem Eager.shorter (hstart : ∀ x u v v', accepts x u v → v' <+: v → accepts x u v')
    (h : Eager accepts es p) (hslack : Slack accepts es) :
    ∃ p', p' <+: p ∧ p'.length < p.length ∧ Matches accepts es p' := by
  induction es generalizing p with
  | nil => exact hslack.elim
  | cons e es ih =>
    cases e with
    | star =>
      rcases hslack with ⟨hes, hnull⟩ | hslack
      · obtain ⟨u, v, rfl, hne, -⟩ := h.resolve_left hes
        have hlength : 0 < v.length := List.length_pos_iff.mpr hne
        exact ⟨u, List.prefix_append u v, by simp; omega, u, [], by simp, hnull⟩
      · have hes : es ≠ [] := by
          rintro rfl
          exact hslack
        obtain ⟨u, v, rfl, -, hv⟩ := h.resolve_left hes
        obtain ⟨v', hv', hlength, hmatches⟩ := ih hv hslack
        refine ⟨u ++ v', (List.prefix_append_right_inj u).mpr hv', by simp; omega, ?_⟩
        exact ⟨u, v', rfl, hmatches⟩
    | piece x =>
      obtain ⟨u, v, rfl, hx, hv⟩ := h
      obtain ⟨v', hv', hlength, hmatches⟩ := ih hv hslack
      refine ⟨u ++ v', (List.prefix_append_right_inj u).mpr hv', by simp; omega, ?_⟩
      exact ⟨u, v', rfl, hstart x u v v' hx hv', hmatches⟩

/-- Among strings that are closed under prefixes, an eager matcher misses nothing exactly
where there is no slack, or nothing to match. -/
theorem eager_exact_iff (hstart : ∀ x u v v', accepts x u v → v' <+: v → accepts x u v')
    {among : List α → Prop} (hamong : ∀ p p', among p → p' <+: p → among p') :
    (∀ p, among p → (Eager accepts es p ↔ Matches accepts es p)) ↔
      ¬ Slack accepts es ∨ ∀ p, among p → ¬ Matches accepts es p := by
  constructor
  · intro h
    refine or_iff_not_imp_left.mpr fun hslack p => ?_
    -- the shortest string that is matched would have to be one that could be shorter
    induction hn : p.length using Nat.strong_induction_on generalizing p with
    | _ n ih =>
      intro hp hmatches
      have heager := (h p hp).mpr hmatches
      obtain ⟨p', hp', hlength, hmatches'⟩ := heager.shorter hstart (not_not.mp hslack)
      exact ih p'.length (hn ▸ hlength) p' rfl (hamong p p' hp hp') hmatches'
  · rintro (hslack | hnone) p hp
    · exact ⟨Eager.matches, fun hmatches => hmatches.eager hslack⟩
    · exact ⟨Eager.matches, fun hmatches => absurd hmatches (hnone p hp)⟩

end Glob
