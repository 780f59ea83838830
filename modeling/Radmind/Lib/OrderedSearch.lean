import Mathlib.Data.List.Lex

/-!
# A search that tries its branches in order

Each state has a list of branches: a branch goes on to a state or comes to an end.  A
depth-first search gives back the first end it meets.  A way is the list of the positions of
the branches it takes, so that the search meets the ends in the lexicographic order of the
ways that lead to them.
-/

namespace OrderedSearch

/-- A branch goes on to a state or comes to an end. -/
inductive Branch (State End : Type) where
  | go (s : State)
  | stop (e : End)
  deriving DecidableEq, Repr

variable {State End : Type} {branches : State → List (Branch State End)} {s s' : State} {e e' : End}
  {way way' : List Nat} {i : Nat}

/-- The end found behind a branch. -/
def Branch.found (find : State → Option End) : Branch State End → Option End
  | .go s => find s
  | .stop e => some e

/-- The first end of a depth-first search. -/
def search (branches : State → List (Branch State End)) : Nat → State → Option End
  | 0, _ => none
  | fuel + 1, s => (branches s).findSome? (Branch.found (search branches fuel))

/-- A way through the branches leads to an end. -/
inductive Leads (branches : State → List (Branch State End)) : State → List Nat → End → Prop
  | stop {s : State} {i : Nat} {e : End} : (branches s)[i]? = some (.stop e) →
      Leads branches s [i] e
  | go {s s' : State} {i : Nat} {way : List Nat} {e : End} : (branches s)[i]? = some (.go s') →
      Leads branches s' way e → Leads branches s (i :: way) e

/-- A way that a search takes before the other one. -/
def Earlier (way way' : List Nat) : Prop := List.Lex (· < ·) way way'

/-- A way leads to one end. -/
theorem Leads.unique (h : Leads branches s way e) (h' : Leads branches s way e') : e = e' := by
  induction h with
  | stop hi =>
    cases h' with
    | stop hi' =>
      rw [hi] at hi'
      cases hi'
      rfl
    | go _ h' => cases h'
  | go hi hw ih =>
    cases h' with
    | stop _ => cases hw
    | go hi' h' =>
      rw [hi] at hi'
      cases hi'
      exact ih h'

/-- The states a search goes on to have a lower rank. -/
def Descends (branches : State → List (Branch State End)) (rank : State → Nat) : Prop :=
  ∀ s s', .go s' ∈ branches s → rank s' < rank s

section

variable {rank : State → Nat} {fuel : Nat}

/-- A search finds nothing only where no way leads to an end. -/
theorem not_leads_of_search (hrank : Descends branches rank) (hfuel : rank s < fuel)
    (h : search branches fuel s = none) : ¬ Leads branches s way e := by
  intro hleads
  induction hleads generalizing fuel with
  | stop hi =>
    obtain ⟨fuel, rfl⟩ := Nat.exists_eq_succ_of_ne_zero (Nat.ne_of_gt (Nat.zero_lt_of_lt hfuel))
    have hnone := List.findSome?_eq_none_iff.mp h _ (List.mem_of_getElem? hi)
    cases hnone
  | go hi _ ih =>
    obtain ⟨fuel, rfl⟩ := Nat.exists_eq_succ_of_ne_zero (Nat.ne_of_gt (Nat.zero_lt_of_lt hfuel))
    have hmem := List.mem_of_getElem? hi
    have hlt := hrank _ _ hmem
    exact ih (by omega) (List.findSome?_eq_none_iff.mp h _ hmem)

/-- What a search finds stands at the end of the first way that leads to one. -/
theorem leads_of_search (hrank : Descends branches rank) (hfuel : rank s < fuel)
    (h : search branches fuel s = some e) : ∃ way, Leads branches s way e ∧
      ∀ way' e', Leads branches s way' e' → way' = way ∨ Earlier way way' := by
  induction fuel generalizing s with
  | zero => cases h
  | succ fuel ih =>
    obtain ⟨before, branch, after, hbranches, hfound, hbefore⟩ :=
      List.findSome?_eq_some_iff.mp h
    have hat : (branches s)[before.length]? = some branch := by simp [hbranches]
    have hget : ∀ i b, i < before.length → (branches s)[i]? = some b → b ∈ before := by
      intro i b hi hb
      rw [hbranches, List.getElem?_append_left hi] at hb
      exact List.mem_of_getElem? hb
    -- no way that leads to an end starts with an earlier branch
    have hlate : ∀ i way' e', Leads branches s (i :: way') e' →
        i = before.length ∨ before.length < i := by
      intro i way' e' hleads
      rcases Nat.lt_trichotomy i before.length with hi | hi | hi
      · cases hleads with
        | stop hi' =>
          have hnone := hbefore _ (hget _ _ hi hi')
          cases hnone
        | go hi' hleads' =>
          have hnone := hbefore _ (hget _ _ hi hi')
          have hlt := hrank _ _ (List.mem_of_getElem? hi')
          exact absurd hleads' (not_leads_of_search hrank (by omega) hnone)
      · exact .inl hi
      · exact .inr hi
    cases branch with
    | stop e₁ =>
      obtain rfl : e₁ = e := Option.some.inj hfound
      refine ⟨[before.length], .stop hat, fun way' e' hleads => ?_⟩
      cases hleads with
      | stop hi =>
        rcases hlate _ _ _ (.stop hi) with heq | hlt
        · exact .inl (by rw [heq])
        · exact .inr (.rel hlt)
      | go hi hleads' =>
        rcases hlate _ _ _ (.go hi hleads') with heq | hlt
        · rw [heq, hat] at hi
          cases hi
        · exact .inr (.rel hlt)
    | go s' =>
      have hlt := hrank s s' (List.mem_of_getElem? hat)
      obtain ⟨way, hway, hfirst⟩ := ih (by omega) hfound
      refine ⟨before.length :: way, .go hat hway, fun way' e' hleads => ?_⟩
      cases hleads with
      | stop hi =>
        rcases hlate _ _ _ (.stop hi) with heq | hlt
        · rw [heq, hat] at hi
          cases hi
        · exact .inr (.rel hlt)
      | go hi hleads' =>
        rcases hlate _ _ _ (.go hi hleads') with heq | hlt
        · rw [heq, hat] at hi
          cases hi
          rw [heq]
          exact (hfirst _ _ hleads').imp (congrArg _) .cons
        · exact .inr (.rel hlt)

/-- A search comes to another end, or to none, exactly where each way to this one stands behind
a way to another one. -/
theorem search_ne_iff (hrank : Descends branches rank) (hfuel : rank s < fuel) :
    search branches fuel s ≠ some e ↔ ∀ way, Leads branches s way e →
      ∃ way' e', Earlier way' way ∧ e' ≠ e ∧ Leads branches s way' e' := by
  constructor
  · intro h way hway
    cases hsearch : search branches fuel s with
    | none => exact absurd hway (not_leads_of_search hrank hfuel hsearch)
    | some e' =>
      obtain ⟨way', hway', hfirst⟩ := leads_of_search hrank hfuel hsearch
      have hne : e' ≠ e := fun heq => h (heq ▸ hsearch)
      rcases hfirst way e hway with rfl | hlt
      · exact absurd (hway'.unique hway) hne
      · exact ⟨way', e', hlt, hne, hway'⟩
  · intro h hsearch
    obtain ⟨way, hway, hfirst⟩ := leads_of_search hrank hfuel hsearch
    obtain ⟨way', e', hlt, _, hway'⟩ := h way hway
    rcases hfirst way' e' hway' with rfl | hlt'
    · exact List.lex_irrefl Nat.lt_irrefl _ hlt
    · exact List.lex_asymm (fun h h' => Nat.lt_asymm h h') hlt hlt'

end

end OrderedSearch
