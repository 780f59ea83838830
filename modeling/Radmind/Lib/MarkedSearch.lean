import Mathlib.Data.Finset.Card
import Mathlib.Data.Finset.Filter

/-!
# A search that marks what it meets

A node has a list of marks.  A search over the nodes makes every mark of a node it
visits, and visits the node of a descending mark if nothing with this name was marked
before.  A mark that does not descend can hide a node from the search in this way.
-/

namespace MarkedSearch

variable {Name : Type}

/-- A name, and whether the search goes on from there. -/
structure Mark (Name : Type) where
  descends : Bool
  name : Name
  deriving DecidableEq, Repr

/-- What can be reached through descending marks. -/
inductive Reaches (marksOf : Name → List (Mark Name)) (start : Name) : Name → Prop
  | start : Reaches marksOf start start
  | descend {n x : Name} : Reaches marksOf start n → ⟨true, x⟩ ∈ marksOf n →
      Reaches marksOf start x

/-- The names of all marks that can be reached. -/
def Named (marksOf : Name → List (Mark Name)) (start x : Name) : Prop :=
  ∃ n, Reaches marksOf start n ∧ ∃ m ∈ marksOf n, m.name = x

def Marked (marks : List (Mark Name)) (x : Name) : Prop := ∃ m ∈ marks, m.name = x

/-- All marks of a node have been made. -/
def Visited (marksOf : Name → List (Mark Name)) (marks : List (Mark Name)) (n : Name) : Prop :=
  ∀ m ∈ marksOf n, m ∈ marks

/-- The first mark with this name does not descend. -/
def Hidden (marks : List (Mark Name)) (x : Name) : Prop :=
  ∃ before after, marks = before ++ ⟨false, x⟩ :: after ∧ ⟨true, x⟩ ∉ before

/-- Some more marks were made by a search that came to its end: those of nodes that can be
reached, and what descends was visited, unless it was hidden or left to an outer search. -/
def Extends (marksOf : Name → List (Mark Name)) (start : Name) (marks marks' : List (Mark Name)) :
    Prop :=
  ∃ new, marks' = marks ++ new ∧ (∀ m ∈ new, ∃ n, Reaches marksOf start n ∧ m ∈ marksOf n) ∧
    ∀ x, ⟨true, x⟩ ∈ new → ⟨true, x⟩ ∈ marks ∨ Visited marksOf marks' x ∨ Hidden marks' x

section

variable {marksOf : Name → List (Mark Name)} {start : Name}
  {marks marks' marks'' : List (Mark Name)} {x : Name}

theorem Reaches.trans {n : Name} (h : Reaches marksOf start n) (h' : Reaches marksOf n x) :
    Reaches marksOf start x := by
  induction h' with
  | start => exact h
  | descend _ hm ih => exact ih.descend hm

theorem Hidden.append (h : Hidden marks x) (new : List (Mark Name)) : Hidden (marks ++ new) x := by
  obtain ⟨before, after, rfl, hnot⟩ := h
  exact ⟨before, after ++ new, by rw [List.append_assoc, List.cons_append], hnot⟩

theorem Visited.append (h : Visited marksOf marks x) (new : List (Mark Name)) :
    Visited marksOf (marks ++ new) x := fun m hm => List.mem_append_left new (h m hm)

/-- A name that was marked and never descended to is hidden. -/
theorem hidden_of_marked (hmarked : Marked marks x) (hnot : ⟨true, x⟩ ∉ marks) :
    Hidden marks x := by
  obtain ⟨m, hm, hname⟩ := hmarked
  obtain ⟨before, after, rfl⟩ := List.append_of_mem hm
  have hm' : m = ⟨false, x⟩ := by
    obtain ⟨descends, name⟩ := m
    obtain rfl : name = x := hname
    cases descends with
    | false => rfl
    | true => exact absurd hm hnot
  refine ⟨before, after, by rw [hm'], fun hmem => hnot (List.mem_append_left _ hmem)⟩

theorem Extends.refl (marks : List (Mark Name)) : Extends marksOf start marks marks :=
  ⟨[], (List.append_nil marks).symm, by simp, by simp⟩

theorem Extends.subset (h : Extends marksOf start marks marks') {m : Mark Name} (hm : m ∈ marks) :
    m ∈ marks' := by
  obtain ⟨new, rfl, -⟩ := h
  exact List.mem_append_left new hm

theorem Extends.trans (h : Extends marksOf start marks marks')
    (h' : Extends marksOf start marks' marks'') : Extends marksOf start marks marks'' := by
  obtain ⟨new, rfl, hreach, hnew⟩ := h
  obtain ⟨new', rfl, hreach', hnew'⟩ := h'
  have hold : ∀ x, ⟨true, x⟩ ∈ new → ⟨true, x⟩ ∈ marks ∨
      Visited marksOf (marks ++ new ++ new') x ∨ Hidden (marks ++ new ++ new') x := by
    intro x hx
    rcases hnew x hx with hm | hv | hh
    · exact .inl hm
    · exact .inr (.inl (hv.append new'))
    · exact .inr (.inr (hh.append new'))
  refine ⟨new ++ new', List.append_assoc marks new new', fun m hm => ?_, fun x hx => ?_⟩
  · rcases List.mem_append.mp hm with hm | hm
    · exact hreach m hm
    · exact hreach' m hm
  · rcases List.mem_append.mp hx with hx | hx
    · exact hold x hx
    · rcases hnew' x hx with hm | hv
      · rcases List.mem_append.mp hm with hm | hm
        · exact .inl hm
        · exact hold x hm
      · exact .inr hv

/-- One mark, without a visit. -/
theorem Extends.mark {n : Name} {m : Mark Name} (hn : Reaches marksOf start n)
    (hm : m ∈ marksOf n) (hdone : m.descends = true → Marked marks m.name) :
    Extends marksOf start marks (marks ++ [m]) := by
  refine ⟨[m], rfl, fun m' hm' => ?_, fun x hx => ?_⟩
  · rw [List.mem_singleton.mp hm']
    exact ⟨n, hn, hm⟩
  · obtain rfl : ⟨true, x⟩ = m := List.mem_singleton.mp hx
    by_cases hmem : ⟨true, x⟩ ∈ marks
    · exact .inl hmem
    · exact .inr (.inr ((hidden_of_marked (hdone rfl) hmem).append _))

/-- A mark, and a visit behind it. -/
theorem Extends.visit {n : Name} (hn : Reaches marksOf start n) (hm : ⟨true, x⟩ ∈ marksOf n)
    (h : Extends marksOf start (marks ++ [⟨true, x⟩]) marks') (hv : Visited marksOf marks' x) :
    Extends marksOf start marks marks' := by
  obtain ⟨new, hmarks', hreach, hnew⟩ := h
  refine ⟨⟨true, x⟩ :: new, by simp [hmarks'], fun m hmem => ?_, fun y hy => ?_⟩
  · rcases List.mem_cons.mp hmem with rfl | hmem
    · exact ⟨n, hn, hm⟩
    · exact hreach m hmem
  · have hx : ∀ y, y = x → ⟨true, y⟩ ∈ marks ∨ Visited marksOf marks' y ∨ Hidden marks' y := by
      intro y hyx
      rw [hyx]
      exact .inr (.inl hv)
    rcases List.mem_cons.mp hy with hyx | hy
    · exact hx y (Mark.mk.inj hyx).2
    · rcases hnew y hy with hmem | hrest
      · rcases List.mem_append.mp hmem with hmem | hmem
        · exact .inl hmem
        · exact hx y (Mark.mk.inj (List.mem_singleton.mp hmem)).2
      · exact .inr hrest

/-- A search marks all that can be reached exactly where it has marked all that can be
reached through the names hidden from it. -/
theorem Extends.marked_iff (h : Extends marksOf start [] marks) (hv : Visited marksOf marks start) :
    (∀ x, Marked marks x ↔ Named marksOf start x) ↔
      ∀ x, ⟨true, x⟩ ∈ marks → Hidden marks x → ∀ y, Named marksOf x y → Marked marks y := by
  obtain ⟨new, hnew, hreach, hdescends⟩ := h
  obtain rfl : marks = new := hnew
  constructor
  · intro hall x hx _ y hy
    obtain ⟨n, hn, m, hm, hname⟩ := hy
    obtain ⟨p, hp, hpx⟩ := hreach _ hx
    exact (hall y).mpr ⟨n, (hp.descend hpx).trans hn, m, hm, hname⟩
  · intro hhidden x
    constructor
    · intro ⟨m, hm, hname⟩
      obtain ⟨n, hn, hmn⟩ := hreach m hm
      exact ⟨n, hn, m, hmn, hname⟩
    · intro ⟨n, hn, m, hm, hname⟩
      -- every node that can be reached was visited, or is behind a hidden one
      have hnode : Visited marksOf marks n ∨ ∃ h, ⟨true, h⟩ ∈ marks ∧ Hidden marks h ∧
          Reaches marksOf h n := by
        clear hm hname
        induction hn with
        | start => exact .inl hv
        | @descend p y _ hy ih =>
          rcases ih with hvp | ⟨h, hh, hhid, hreachh⟩
          · rcases hdescends y (hvp _ hy) with hmem | hvy | hhy
            · cases hmem
            · exact .inl hvy
            · exact .inr ⟨y, hvp _ hy, hhy, .start⟩
          · exact .inr ⟨h, hh, hhid, hreachh.descend hy⟩
      rcases hnode with hvn | ⟨h, hh, hhid, hreachh⟩
      · exact ⟨m, hvn m hm, hname⟩
      · exact hhidden h hh hhid x ⟨n, hreachh, m, hm, hname⟩

end

/-! ## How deep a search can go -/

section

variable [DecidableEq Name]

/-- The names that are not marked yet. -/
def unmarked (names : Finset Name) (marks : List (Mark Name)) : Finset Name :=
  names.filter fun x => ¬ ∃ m ∈ marks, m.name = x

variable {names : Finset Name} {marks marks' : List (Mark Name)} {x : Name}

theorem mem_unmarked : x ∈ unmarked names marks ↔ x ∈ names ∧ ¬ Marked marks x :=
  Finset.mem_filter

theorem unmarked_subset (h : ∀ m ∈ marks, m ∈ marks') :
    unmarked names marks' ⊆ unmarked names marks := by
  intro x hx
  obtain ⟨hname, hnot⟩ := mem_unmarked.mp hx
  exact mem_unmarked.mpr ⟨hname, fun ⟨m, hm, hmx⟩ => hnot ⟨m, h m hm, hmx⟩⟩

theorem card_unmarked_lt (hx : x ∈ names) (hnot : ¬ Marked marks x) (descends : Bool) :
    (unmarked names (marks ++ [⟨descends, x⟩])).card < (unmarked names marks).card := by
  refine Finset.card_lt_card ((Finset.ssubset_iff_of_subset ?_).mpr ⟨x, ?_, ?_⟩)
  · exact unmarked_subset fun m hm => List.mem_append_left _ hm
  · exact mem_unmarked.mpr ⟨hx, hnot⟩
  · intro hmem
    exact (mem_unmarked.mp hmem).2 ⟨⟨descends, x⟩, by simp, rfl⟩

end

end MarkedSearch
