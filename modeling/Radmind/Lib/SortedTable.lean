import Mathlib

/-!
# Tables kept in order

A table is a list of entries, each with a key.  Every operation walks to the
first entry whose key is not below the one it looks for and acts there.
-/

namespace SortedTable

variable {κ α : Type} [LinearOrder κ] (key : α → κ)

/-- The entry where the walk for a key ends, if it has the key. -/
def locate (k : κ) : List α → Option α
  | [] => none
  | a :: l => if k ≤ key a then (if k = key a then some a else none) else locate k l

/-- Put an entry where the walk for its key ends, unless its key is there. -/
def insertNew (new : α) : List α → List α
  | [] => [new]
  | a :: l =>
    if key new ≤ key a then (if key new = key a then a :: l else new :: a :: l)
    else a :: insertNew new l

/-- Change the entry where the walk for a key ends, if it has the key. -/
def update (k : κ) (f : α → α) : List α → List α
  | [] => []
  | a :: l => if k ≤ key a then (if k = key a then f a :: l else a :: l) else a :: update k f l

variable {key}

theorem key_of_locate {k : κ} {l : List α} {a : α} (h : locate key k l = some a) : key a = k := by
  induction l with
  | nil => simp [locate] at h
  | cons b l ih =>
    rw [locate] at h
    split_ifs at h with hle heq
    · exact Option.some.inj h ▸ heq.symm
    · exact ih h

theorem locate_insertNew (new : α) (l : List α) (k : κ) :
    locate key k (insertNew key new l) =
      if k = key new then some ((locate key k l).getD new) else locate key k l := by
  induction l with
  | nil =>
    by_cases hk : k = key new
    · simp [insertNew, locate, hk]
    · simp [insertNew, locate, hk]
  | cons a l ih =>
    rw [insertNew]
    split_ifs with hle heq hk hk hk
    · simp [locate, hk, heq]
    · rfl
    · simp [locate, hk, hle, heq]
    · -- a key before the new entry is before the next one too
      have hbelow : k ≤ key new → ¬ k = key a := fun h h' => heq (le_antisymm hle (h' ▸ h))
      by_cases hkn : k ≤ key new
      · simp [locate, hk, hkn, hbelow hkn, hkn.trans hle]
      · rw [locate, if_neg hkn]
    · have hka : ¬ k ≤ key a := fun h => hle (hk ▸ h)
      rw [locate, if_neg hka, ih, if_pos hk, locate, if_neg hka]
    · rw [locate, locate, ih, if_neg hk]

theorem locate_update {f : α → α} (hf : ∀ a, key (f a) = key a) (l : List α) (k k' : κ) :
    locate key k' (update key k f l) =
      if k' = k then (locate key k l).map f else locate key k' l := by
  induction l with
  | nil => simp [update, locate]
  | cons a l ih =>
    rw [update]
    by_cases hle : k ≤ key a
    · by_cases heq : k = key a
      · by_cases hk : k' = k
        · simp [locate, hf, hk, heq]
        · have hka : k' ≠ key a := heq ▸ hk
          simp [locate, hf, hka, heq]
      · by_cases hk : k' = k
        · simp [locate, hle, heq, hk]
        · simp [hle, heq, hk]
    · rw [if_neg hle, locate, ih]
      by_cases hk : k' = k
      · simp [locate, hk, hle]
      · simp [locate, hk]

/-! ## The order -/

section

variable {l : List α}

theorem mem_insertNew {new a : α} (h : a ∈ insertNew key new l) : a = new ∨ a ∈ l := by
  induction l with
  | nil => exact .inl (List.mem_singleton.mp h)
  | cons b l ih =>
    rw [insertNew] at h
    split_ifs at h
    · exact .inr h
    · exact List.mem_cons.mp h
    · rcases List.mem_cons.mp h with rfl | h
      · exact .inr List.mem_cons_self
      · exact (ih h).imp_right (List.mem_cons_of_mem b)

theorem pairwise_insertNew (new : α) (h : l.Pairwise fun a b => key a < key b) :
    (insertNew key new l).Pairwise fun a b => key a < key b := by
  induction l with
  | nil => exact List.pairwise_singleton _ _
  | cons a l ih =>
    obtain ⟨hlt, hl⟩ := List.pairwise_cons.mp h
    rw [insertNew]
    split_ifs with hle heq
    · exact h
    · have hnew : key new < key a := lt_of_le_of_ne hle heq
      refine List.pairwise_cons.mpr ⟨List.forall_mem_cons.mpr ⟨hnew, fun b hb => ?_⟩, h⟩
      exact hnew.trans (hlt b hb)
    · refine List.pairwise_cons.mpr ⟨fun b hb => ?_, ih hl⟩
      rcases mem_insertNew hb with rfl | hb
      · exact not_le.mp hle
      · exact hlt b hb

theorem map_key_update {k : κ} {f : α → α} (hf : ∀ a, key (f a) = key a) :
    (update key k f l).map key = l.map key := by
  induction l with
  | nil => rfl
  | cons a l ih =>
    rw [update]
    split_ifs
    · simp [hf]
    · rfl
    · simp [ih]

theorem pairwise_update {k : κ} {f : α → α} (hf : ∀ a, key (f a) = key a)
    (h : l.Pairwise fun a b => key a < key b) :
    (update key k f l).Pairwise fun a b => key a < key b := by
  refine List.pairwise_map.mp ?_
  rw [map_key_update hf]
  exact List.pairwise_map.mpr h

theorem mem_update {k : κ} {f : α → α} {b : α} (h : b ∈ update key k f l) :
    b ∈ l ∨ ∃ a ∈ l, b = f a := by
  induction l with
  | nil => exact absurd h List.not_mem_nil
  | cons a l ih =>
    rw [update] at h
    split_ifs at h
    · rcases List.mem_cons.mp h with rfl | h
      · exact .inr ⟨a, List.mem_cons_self, rfl⟩
      · exact .inl (List.mem_cons_of_mem a h)
    · exact .inl h
    · rcases List.mem_cons.mp h with rfl | h
      · exact .inl List.mem_cons_self
      · rcases ih h with h | ⟨c, hc, rfl⟩
        · exact .inl (List.mem_cons_of_mem a h)
        · exact .inr ⟨c, List.mem_cons_of_mem a hc, rfl⟩

end

end SortedTable
