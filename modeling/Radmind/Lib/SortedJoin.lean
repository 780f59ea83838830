import Mathlib

/-!
# Joining two sorted sequences

Two sequences, each strictly ascending in a key, are read side by side.  The join
is the sequence of events of that reading: a key on the left only, on the right
only, or on both sides.  An event on the right only carries the element the left
side has reached.
-/

namespace SortedJoin

inductive Event (α β : Type)
  | left (a : α)
  | right (next : Option α) (b : β)
  | both (a : α) (b : β)
  deriving DecidableEq, Repr

variable {κ α β : Type} [LinearOrder κ] (f : α → κ) (g : β → κ)

def Event.key : Event α β → κ
  | .left a => f a
  | .right _ b => g b
  | .both a _ => f a

/-- The events up to and with those of one element of the left side, and what is
left of the right side. -/
def meet (a : α) : List β → List (Event α β) × List β
  | [] => ([.left a], [])
  | b :: bs =>
    if g b < f a then (.right (some a) b :: (meet a bs).1, (meet a bs).2)
    else if f a < g b then ([.left a], b :: bs)
    else ([.both a b], bs)

def join : List α → List β → List (Event α β)
  | [], bs => bs.map (.right none)
  | a :: as, bs => (meet f g a bs).1 ++ join as (meet f g a bs).2

variable {f g}

/-- `meet` cuts the right side at the key of its element. -/
theorem meet_spec (a : α) {bs : List β} (hb : bs.Pairwise fun b c => g b < g c) :
    ∃ pre mid rest, bs = pre ++ (mid ++ rest) ∧ (∀ b ∈ pre, g b < f a) ∧
      (∀ b ∈ mid, g b = f a) ∧ (∀ b ∈ rest, f a < g b) ∧ (meet f g a bs).2 = rest ∧
      ((mid = [] ∧ (meet f g a bs).1 = pre.map (.right (some a)) ++ [.left a]) ∨
        ∃ b, mid = [b] ∧ (meet f g a bs).1 = pre.map (.right (some a)) ++ [.both a b]) := by
  induction bs with
  | nil => exact ⟨[], [], [], by simp [meet]⟩
  | cons b bs ih =>
    rw [List.pairwise_cons] at hb
    rw [meet]
    by_cases hlt : g b < f a
    · obtain ⟨pre, mid, rest, rfl, hpre, hmid, hrest, hsnd, hfst⟩ := ih hb.2
      refine ⟨b :: pre, mid, rest, rfl, ?_, hmid, hrest, by rw [if_pos hlt]; exact hsnd, ?_⟩
      · intro c hc
        rcases List.mem_cons.mp hc with rfl | hc
        · exact hlt
        · exact hpre c hc
      · rw [if_pos hlt]
        rcases hfst with ⟨rfl, hfst⟩ | ⟨c, rfl, hfst⟩
        · exact .inl ⟨rfl, congrArg (Event.right (some a) b :: ·) hfst⟩
        · exact .inr ⟨c, rfl, congrArg (Event.right (some a) b :: ·) hfst⟩
    · rw [if_neg hlt]
      by_cases hgt : f a < g b
      · refine ⟨[], [], b :: bs, rfl, by simp, by simp, ?_, by rw [if_pos hgt], .inl ⟨rfl, ?_⟩⟩
        · intro c hc
          rcases List.mem_cons.mp hc with rfl | hc
          · exact hgt
          · exact hgt.trans (hb.1 c hc)
        · rw [if_pos hgt]
          rfl
      · have heq : g b = f a := le_antisymm (not_lt.mp hgt) (not_lt.mp hlt)
        refine ⟨[], [b], bs, rfl, by simp, by simpa using heq, ?_, by rw [if_neg hgt],
          .inr ⟨b, rfl, by rw [if_neg hgt]; rfl⟩⟩
        exact fun c hc => heq ▸ hb.1 c hc

/-! ## The events -/

section

variable {as : List α} {bs : List β}

/-- The events of a join, one side against the other. -/
theorem mem_join (ha : as.Pairwise fun a c => f a < f c) (hb : bs.Pairwise fun b c => g b < g c) :
    (∀ x, .left x ∈ join f g as bs ↔ x ∈ as ∧ ∀ b ∈ bs, g b ≠ f x) ∧
      (∀ x y, .both x y ∈ join f g as bs ↔ x ∈ as ∧ y ∈ bs ∧ g y = f x) ∧
      ∀ n y, .right n y ∈ join f g as bs ↔
        y ∈ bs ∧ (∀ a ∈ as, g y ≠ f a) ∧ n = as.find? fun a => g y < f a := by
  induction as generalizing bs with
  | nil => simp [join, eq_comm]
  | cons a as ih =>
    rw [List.pairwise_cons] at ha
    obtain ⟨pre, mid, rest, rfl, hpre, hmid, hrest, hsnd, hfst⟩ := meet_spec (f := f) a hb
    have hbr : rest.Pairwise fun b c => g b < g c :=
      (List.pairwise_append.mp (List.pairwise_append.mp hb).2.1).2.1
    obtain ⟨ihl, ihb, ihr⟩ := ih ha.2 hbr
    -- what lies at or before a on the right is before the rest of the left
    have hfront : ∀ b ∈ pre ++ mid, ∀ x ∈ as, g b < f x := by
      intro b hb x hx
      rcases List.mem_append.mp hb with hb | hb
      · exact (hpre b hb).trans (ha.1 x hx)
      · exact hmid b hb ▸ ha.1 x hx
    rw [join, hsnd]
    generalize (meet f g a (pre ++ (mid ++ rest))).1 = evs at hfst ⊢
    refine ⟨fun x => ?_, fun x y => ?_, fun n y => ?_⟩
    · rw [List.mem_append, ihl, List.mem_cons]
      constructor
      · rintro (hx | ⟨hx, hne⟩)
        · rcases hfst with ⟨rfl, hfst⟩ | ⟨b, rfl, hfst⟩
          · have hxa : x = a := by simpa [hfst] using hx
            subst hxa
            refine ⟨.inl rfl, fun b hb => ?_⟩
            rcases List.mem_append.mp hb with hb | hb
            · exact (hpre b hb).ne
            · exact (hrest b (by simpa using hb)).ne'
          · simp [hfst] at hx
        · refine ⟨.inr hx, fun b hb => ?_⟩
          rw [← List.append_assoc] at hb
          rcases List.mem_append.mp hb with hb | hb
          · exact (hfront b hb x hx).ne
          · exact hne b hb
      · rintro ⟨rfl | hx, hne⟩
        · rcases hfst with ⟨rfl, hfst⟩ | ⟨b, rfl, hfst⟩
          · exact .inl (by simp [hfst])
          · exact absurd (hmid b (by simp)) (hne b (by simp))
        · exact .inr ⟨hx, fun b hb => hne b (by simp [hb])⟩
    · rw [List.mem_append, ihb, List.mem_cons]
      constructor
      · rintro (hx | ⟨hx, hy, heq⟩)
        · rcases hfst with ⟨rfl, hfst⟩ | ⟨b, rfl, hfst⟩
          · simp [hfst] at hx
          · have hxy : x = a ∧ y = b := by simpa [hfst] using hx
            obtain ⟨rfl, rfl⟩ := hxy
            exact ⟨.inl rfl, by simp, hmid y (by simp)⟩
        · exact ⟨.inr hx, by simp [hy], heq⟩
      · rintro ⟨rfl | hx, hy, heq⟩
        · rw [List.mem_append, List.mem_append] at hy
          rcases hy with hy | hy | hy
          · exact absurd heq (hpre y hy).ne
          · rcases hfst with ⟨rfl, hfst⟩ | ⟨b, rfl, hfst⟩
            · simp at hy
            · rw [List.mem_singleton] at hy
              exact .inl (by simp [hfst, hy])
          · exact absurd heq (hrest y hy).ne'
        · rw [← List.append_assoc, List.mem_append] at hy
          rcases hy with hy | hy
          · exact absurd heq (hfront y hy x hx).ne
          · exact .inr ⟨hx, hy, heq⟩
    · have hevs : Event.right n y ∈ evs ↔ y ∈ pre ∧ n = some a := by
        rcases hfst with ⟨-, hfst⟩ | ⟨b, -, hfst⟩ <;> simp [hfst, eq_comm, and_comm]
      rw [List.mem_append, ihr, hevs]
      constructor
      · rintro (⟨hy, rfl⟩ | ⟨hy, hne, hn⟩)
        · refine ⟨by simp [hy], fun x hx => ?_,
            by rw [List.find?_cons_of_pos (by simpa using hpre y hy)]⟩
          rcases List.mem_cons.mp hx with rfl | hx
          · exact (hpre y hy).ne
          · exact (hfront y (by simp [hy]) x hx).ne
        · refine ⟨by simp [hy], fun x hx => ?_, ?_⟩
          · rcases List.mem_cons.mp hx with rfl | hx
            · exact (hrest y hy).ne'
            · exact hne x hx
          · rw [List.find?_cons_of_neg (by simpa using (hrest y hy).le), hn]
      · rintro ⟨hy, hne, hn⟩
        rw [List.mem_append, List.mem_append] at hy
        rcases hy with hy | hy | hy
        · rw [List.find?_cons_of_pos (by simpa using hpre y hy)] at hn
          exact .inl ⟨hy, hn⟩
        · exact absurd (hmid y hy) (hne a List.mem_cons_self)
        · rw [List.find?_cons_of_neg (by simpa using (hrest y hy).le)] at hn
          exact .inr ⟨hy, fun x hx => hne x (List.mem_cons_of_mem _ hx), hn⟩

theorem mem_join_left (ha : as.Pairwise fun a c => f a < f c)
    (hb : bs.Pairwise fun b c => g b < g c) {x : α} :
    .left x ∈ join f g as bs ↔ x ∈ as ∧ ∀ b ∈ bs, g b ≠ f x :=
  (mem_join ha hb).1 x

theorem mem_join_both (ha : as.Pairwise fun a c => f a < f c)
    (hb : bs.Pairwise fun b c => g b < g c) {x : α} {y : β} :
    .both x y ∈ join f g as bs ↔ x ∈ as ∧ y ∈ bs ∧ g y = f x :=
  (mem_join ha hb).2.1 x y

theorem mem_join_right (ha : as.Pairwise fun a c => f a < f c)
    (hb : bs.Pairwise fun b c => g b < g c) {n : Option α} {y : β} :
    .right n y ∈ join f g as bs ↔
      y ∈ bs ∧ (∀ a ∈ as, g y ≠ f a) ∧ n = as.find? fun a => g y < f a :=
  (mem_join ha hb).2.2 n y

/-- The events come in the order of their keys. -/
theorem pairwise_join (ha : as.Pairwise fun a c => f a < f c)
    (hb : bs.Pairwise fun b c => g b < g c) :
    (join f g as bs).Pairwise fun e e' => e.key f g < e'.key f g := by
  induction as generalizing bs with
  | nil => exact List.pairwise_map.mpr hb
  | cons a as ih =>
    rw [List.pairwise_cons] at ha
    obtain ⟨pre, mid, rest, rfl, hpre, hmid, hrest, hsnd, hfst⟩ := meet_spec (f := f) a hb
    have hb' := List.pairwise_append.mp hb
    have hbr : rest.Pairwise fun b c => g b < g c := (List.pairwise_append.mp hb'.2.1).2.1
    rw [join, hsnd]
    -- the last event of a has the key of a, those before it smaller ones
    obtain ⟨last, hlast, hevs⟩ : ∃ last : Event α β, last.key f g = f a ∧
        (meet f g a (pre ++ (mid ++ rest))).1 = pre.map (.right (some a)) ++ [last] := by
      rcases hfst with ⟨-, hfst⟩ | ⟨b, -, hfst⟩
      · exact ⟨.left a, rfl, hfst⟩
      · exact ⟨.both a b, rfl, hfst⟩
    have hle : ∀ e ∈ pre.map (Event.right (some a)) ++ [last], e.key f g ≤ f a := by
      intro e he
      rcases List.mem_append.mp he with he | he
      · obtain ⟨b, hb, rfl⟩ := List.mem_map.mp he
        exact (hpre b hb).le
      · rw [List.mem_singleton] at he
        exact (he ▸ hlast).le
    have hgt : ∀ e ∈ join f g as rest, f a < e.key f g := by
      intro e he
      cases e with
      | left x => exact ha.1 x ((mem_join_left ha.2 hbr).mp he).1
      | both x y => exact ha.1 x ((mem_join_both ha.2 hbr).mp he).1
      | right n y => exact hrest y ((mem_join_right ha.2 hbr).mp he).1
    rw [hevs]
    refine List.pairwise_append.mpr ⟨List.pairwise_append.mpr ⟨?_, List.pairwise_singleton _ _, ?_⟩,
      ih ha.2 hbr, fun e he e' he' => (hle e he).trans_lt (hgt e' he')⟩
    · exact List.pairwise_map.mpr hb'.1
    · intro e he e' he'
      obtain ⟨b, hb, rfl⟩ := List.mem_map.mp he
      rw [List.mem_singleton] at he'
      rw [he', hlast]
      exact hpre b hb

end

end SortedJoin
