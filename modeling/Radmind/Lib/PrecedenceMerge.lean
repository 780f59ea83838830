import Mathlib

/-!
# Merging sorted sources by precedence

A family of sources, each strictly ascending in a key, in order of precedence.
A key belongs to the first source that has it, which may keep or hide it.  The
merge is the ascending list of the kept entries with the index of their source.

The merge is computed one least key at a time: whichever source owns the least
key, dropping it from the front of every source leaves the merge of the rest.
-/

namespace PrecedenceMerge

variable {κ α : Type} [LinearOrder κ] (key : α → κ)

def Ascending (es : List α) : Prop := es.Pairwise fun a b => key a < key b

/-- Source `i` has the entry, and no source before it has its key. -/
structure Wins (ess : List (List α)) (i : Nat) (e : α) : Prop where
  mem : ∃ es, ess[i]? = some es ∧ e ∈ es
  first : ∀ j < i, ∀ fs, ess[j]? = some fs → ∀ f ∈ fs, key f ≠ key e

/-- `M` is the merge of the sources under the test `keep`. -/
structure IsMerge (keep : Nat → α → Prop) (ess : List (List α)) (M : List (Nat × α)) : Prop where
  ascending : M.Pairwise fun a b => key a.2 < key b.2
  mem_iff : ∀ i e, (i, e) ∈ M ↔ Wins key ess i e ∧ keep i e

variable {key} {keep : Nat → α → Prop} {ess : List (List α)} {M M' : List (Nat × α)}

theorem IsMerge.unique (h : IsMerge key keep ess M) (h' : IsMerge key keep ess M') : M = M' := by
  have : Std.Irrefl fun a b : Nat × α => key a.2 < key b.2 := ⟨fun a => lt_irrefl _⟩
  have : Std.Antisymm fun a b : Nat × α => key a.2 < key b.2 :=
    ⟨fun _ _ h₁ h₂ => absurd h₂ h₁.not_gt⟩
  exact h.ascending.eq_of_mem_iff h'.ascending fun ⟨i, e⟩ => by rw [h.mem_iff, h'.mem_iff]

omit [LinearOrder κ] in
/-- Two winners for one key are the same source. -/
theorem Wins.index_unique {i j : Nat} {e f : α} (he : Wins key ess i e) (hf : Wins key ess j f)
    (hkey : key e = key f) : i = j := by
  obtain ⟨es, hes, hmem⟩ := he.mem
  obtain ⟨fs, hfs, hmem'⟩ := hf.mem
  rcases Nat.lt_trichotomy i j with hlt | heq | hgt
  · exact absurd hkey (hf.first i hlt es hes e hmem)
  · exact heq
  · exact absurd hkey.symm (he.first j hgt fs hfs f hmem')

theorem Ascending.eq_of_key_eq {es : List α} (h : Ascending key es) {e f : α} (he : e ∈ es)
    (hf : f ∈ es) (hkey : key e = key f) : e = f := by
  induction es with
  | nil => exact absurd he List.not_mem_nil
  | cons a es ih =>
    rw [Ascending, List.pairwise_cons] at h
    rcases List.mem_cons.mp he with rfl | he'
    · rcases List.mem_cons.mp hf with rfl | hf'
      · rfl
      · exact absurd hkey (h.1 f hf').ne
    · rcases List.mem_cons.mp hf with rfl | hf'
      · exact absurd hkey (h.1 e he').ne'
      · exact ih h.2 he' hf'

theorem Wins.unique (hasc : ∀ es ∈ ess, Ascending key es) {i j : Nat} {e f : α}
    (he : Wins key ess i e) (hf : Wins key ess j f) (hkey : key e = key f) : i = j ∧ e = f := by
  obtain rfl := he.index_unique hf hkey
  obtain ⟨es, hes, hmem⟩ := he.mem
  obtain ⟨fs, hfs, hmem'⟩ := hf.mem
  obtain rfl := Option.some.inj (hes.symm.trans hfs)
  exact ⟨rfl, (hasc es (List.mem_of_getElem? hes)).eq_of_key_eq hmem hmem' hkey⟩

omit [LinearOrder κ] in
/-- A source added in front wins for all its keys. -/
theorem wins_cons_zero {es : List α} {e : α} : Wins key (es :: ess) 0 e ↔ e ∈ es := by
  refine ⟨fun h => ?_, fun h => ⟨⟨es, rfl, h⟩, fun j hj => absurd hj (Nat.not_lt_zero j)⟩⟩
  obtain ⟨es', hes', he⟩ := h.mem
  obtain rfl := Option.some.inj hes'
  exact he

omit [LinearOrder κ] in
theorem wins_cons_succ {es : List α} {i : Nat} {e : α} :
    Wins key (es :: ess) (i + 1) e ↔ Wins key ess i e ∧ ∀ f ∈ es, key f ≠ key e := by
  constructor
  · intro h
    refine ⟨⟨h.mem, fun j hj fs hfs => h.first (j + 1) (by omega) fs hfs⟩, fun f hf => ?_⟩
    exact h.first 0 (by omega) es rfl f hf
  · intro ⟨h, hes⟩
    refine ⟨h.mem, fun j hj fs hfs => ?_⟩
    cases j with
    | zero => exact (Option.some.inj hfs) ▸ hes
    | succ j => exact h.first j (by omega) fs hfs

/-! ## The least key -/

/-- Drop the first entry of a source if it has the key. -/
def dropKey (key : α → κ) (k : κ) : List α → List α
  | [] => []
  | e :: es => if key e = k then es else e :: es

theorem mem_dropKey {k : κ} {es : List α} (hasc : Ascending key es) (hk : ∀ e ∈ es, k ≤ key e)
    (e : α) : e ∈ dropKey key k es ↔ e ∈ es ∧ key e ≠ k := by
  cases es with
  | nil => simp [dropKey]
  | cons a es =>
    rw [Ascending, List.pairwise_cons] at hasc
    have hlater : ∀ f ∈ es, key f ≠ k := fun f hf h =>
      absurd (hasc.1 f hf) (not_lt.mpr (h ▸ hk a List.mem_cons_self))
    by_cases ha : key a = k
    · simp only [dropKey, if_pos ha, List.mem_cons]
      exact ⟨fun he => ⟨.inr he, hlater e he⟩, fun ⟨he, hne⟩ =>
        he.resolve_left fun h => hne (h ▸ ha)⟩
    · simp only [dropKey, if_neg ha, List.mem_cons]
      refine ⟨fun he => ⟨he, ?_⟩, fun he => he.1⟩
      rcases he with rfl | he
      · exact ha
      · exact hlater e he

theorem Ascending.dropKey {es : List α} (h : Ascending key es) (k : κ) :
    Ascending key (dropKey key k es) := by
  cases es with
  | nil => exact List.Pairwise.nil
  | cons a es =>
    by_cases ha : key a = k
    · rw [PrecedenceMerge.dropKey, if_pos ha]
      exact (List.pairwise_cons.mp h).2
    · rw [PrecedenceMerge.dropKey, if_neg ha]
      exact h

/-- `e` is the least entry of the sources, at the front of source `i`, and owned
by it. -/
structure IsLeast (key : α → κ) (ess : List (List α)) (i : Nat) (e : α) : Prop where
  head : ∃ es, ess[i]? = some (e :: es)
  least : ∀ fs ∈ ess, ∀ f ∈ fs, key e ≤ key f
  first : ∀ j < i, ∀ fs, ess[j]? = some fs → ∀ f ∈ fs, key f ≠ key e

variable {i : Nat} {e : α}

theorem IsLeast.wins (h : IsLeast key ess i e) : Wins key ess i e :=
  let ⟨es, hes⟩ := h.head
  ⟨⟨e :: es, hes, List.mem_cons_self⟩, h.first⟩

/-- Dropping a least key takes that key out of the sources and nothing else. -/
theorem wins_dropKey (hasc : ∀ es ∈ ess, Ascending key es) {k : κ}
    (hk : ∀ es ∈ ess, ∀ f ∈ es, k ≤ key f) {j : Nat} {f : α} :
    Wins key (ess.map (dropKey key k)) j f ↔ Wins key ess j f ∧ key f ≠ k := by
  have hmem : ∀ {j es}, ess[j]? = some es → ∀ f, f ∈ dropKey key k es ↔ f ∈ es ∧ key f ≠ k :=
    fun hes => mem_dropKey (hasc _ (List.mem_of_getElem? hes)) (hk _ (List.mem_of_getElem? hes))
  constructor
  · rintro ⟨⟨es, hes, hf⟩, hfirst⟩
    rw [List.getElem?_map, Option.map_eq_some_iff] at hes
    obtain ⟨es, hes, rfl⟩ := hes
    obtain ⟨hf, hne⟩ := (hmem hes f).mp hf
    refine ⟨⟨⟨es, hes, hf⟩, fun m hm gs hgs g hg hkey => ?_⟩, hne⟩
    refine hfirst m hm _ (by rw [List.getElem?_map, hgs]; rfl) g ?_ hkey
    exact (hmem hgs g).mpr ⟨hg, hkey ▸ hne⟩
  · rintro ⟨⟨⟨es, hes, hf⟩, hfirst⟩, hne⟩
    refine ⟨⟨_, by rw [List.getElem?_map, hes]; rfl, (hmem hes f).mpr ⟨hf, hne⟩⟩, ?_⟩
    intro m hm gs hgs g hg
    rw [List.getElem?_map, Option.map_eq_some_iff] at hgs
    obtain ⟨gs, hgs, rfl⟩ := hgs
    exact hfirst m hm gs hgs g ((hmem hgs g).mp hg).1

/-- A least entry that its source hides is not in the merge. -/
theorem IsMerge.skip (h : IsMerge key keep ess M) (hasc : ∀ es ∈ ess, Ascending key es)
    (hl : IsLeast key ess i e) (hkeep : ¬ keep i e) :
    IsMerge key keep (ess.map (dropKey key (key e))) M := by
  refine ⟨h.ascending, fun j f => ?_⟩
  rw [h.mem_iff, wins_dropKey hasc hl.least]
  constructor
  · rintro ⟨hw, hk⟩
    refine ⟨⟨hw, fun hkey => hkeep ?_⟩, hk⟩
    obtain ⟨rfl, rfl⟩ := hw.unique hasc hl.wins hkey
    exact hk
  · rintro ⟨⟨hw, -⟩, hk⟩
    exact ⟨hw, hk⟩

/-- A least entry that its source keeps is the first of the merge. -/
theorem IsMerge.take (h : IsMerge key keep ess M) (hasc : ∀ es ∈ ess, Ascending key es)
    (hl : IsLeast key ess i e) (hkeep : keep i e) :
    ∃ M', M = (i, e) :: M' ∧ IsMerge key keep (ess.map (dropKey key (key e))) M' := by
  have hmem : (i, e) ∈ M := (h.mem_iff i e).mpr ⟨hl.wins, hkeep⟩
  have hleast : ∀ x ∈ M, key e ≤ key x.2 := by
    rintro ⟨j, f⟩ hx
    obtain ⟨⟨es, hes, hf⟩, -⟩ := ((h.mem_iff j f).mp hx).1
    exact hl.least es (List.mem_of_getElem? hes) f hf
  cases M with
  | nil => exact absurd hmem List.not_mem_nil
  | cons x M' =>
    have hasc' := List.pairwise_cons.mp h.ascending
    have hx : (i, e) = x := by
      rcases List.mem_cons.mp hmem with hx | hx
      · exact hx
      · exact absurd (hasc'.1 _ hx) (not_lt.mpr (hleast x List.mem_cons_self))
    subst hx
    refine ⟨M', rfl, hasc'.2, fun j f => ?_⟩
    rw [wins_dropKey hasc hl.least]
    constructor
    · intro hf
      obtain ⟨hw, hk⟩ := (h.mem_iff j f).mp (List.mem_cons_of_mem _ hf)
      exact ⟨⟨hw, (hasc'.1 _ hf).ne'⟩, hk⟩
    · rintro ⟨⟨hw, hne⟩, hk⟩
      rcases List.mem_cons.mp ((h.mem_iff j f).mpr ⟨hw, hk⟩) with hx | hx
      · exact absurd (congrArg (fun x => key x.2) hx) hne
      · exact hx

/-- A least entry that its source keeps goes in front of the merge of the rest. -/
theorem IsMerge.cons (hasc : ∀ es ∈ ess, Ascending key es) (hl : IsLeast key ess i e)
    (hkeep : keep i e) (h : IsMerge key keep (ess.map (dropKey key (key e))) M) :
    IsMerge key keep ess ((i, e) :: M) := by
  have hrest : ∀ j f, (j, f) ∈ M ↔ (Wins key ess j f ∧ key f ≠ key e) ∧ keep j f := fun j f => by
    rw [h.mem_iff, wins_dropKey hasc hl.least]
  refine ⟨List.pairwise_cons.mpr ⟨fun x hx => ?_, h.ascending⟩, fun j f => ?_⟩
  · obtain ⟨⟨⟨⟨es, hes, hf⟩, -⟩, hne⟩, -⟩ := (hrest x.1 x.2).mp hx
    exact lt_of_le_of_ne (hl.least es (List.mem_of_getElem? hes) x.2 hf) (Ne.symm hne)
  · rw [List.mem_cons, hrest]
    constructor
    · rintro (heq | ⟨⟨hw, -⟩, hk⟩)
      · obtain ⟨rfl, rfl⟩ := Prod.mk.inj heq
        exact ⟨hl.wins, hkeep⟩
      · exact ⟨hw, hk⟩
    · rintro ⟨hw, hk⟩
      by_cases hkey : key f = key e
      · obtain ⟨rfl, rfl⟩ := hw.unique hasc hl.wins hkey
        exact .inl rfl
      · exact .inr ⟨⟨hw, hkey⟩, hk⟩

/-- A least entry that its source hides leaves the merge of the rest. -/
theorem IsMerge.hide (hasc : ∀ es ∈ ess, Ascending key es) (hl : IsLeast key ess i e)
    (hkeep : ¬ keep i e) (h : IsMerge key keep (ess.map (dropKey key (key e))) M) :
    IsMerge key keep ess M := by
  refine ⟨h.ascending, fun j f => ?_⟩
  rw [h.mem_iff, wins_dropKey hasc hl.least]
  constructor
  · rintro ⟨⟨hw, -⟩, hk⟩
    exact ⟨hw, hk⟩
  · rintro ⟨hw, hk⟩
    refine ⟨⟨hw, fun hkey => hkeep ?_⟩, hk⟩
    obtain ⟨rfl, rfl⟩ := hw.unique hasc hl.wins hkey
    exact hk

theorem isMerge_of_empty (h : ∀ es ∈ ess, es = []) : IsMerge key keep ess M ↔ M = [] := by
  have hno : ∀ j f, ¬ Wins key ess j f := by
    rintro j f ⟨⟨es, hes, hf⟩, -⟩
    rw [h es (List.mem_of_getElem? hes)] at hf
    exact List.not_mem_nil hf
  constructor
  · intro hM
    refine List.eq_nil_iff_forall_not_mem.mpr fun ⟨j, f⟩ hx => ?_
    exact hno j f ((hM.mem_iff j f).mp hx).1
  · rintro rfl
    exact ⟨.nil, fun j f => by simp [hno]⟩

/-- The number of entries left. -/
def size (ess : List (List α)) : Nat := (ess.map List.length).sum

variable (key) in
theorem length_dropKey_le (k : κ) (es : List α) : (dropKey key k es).length ≤ es.length := by
  cases es with
  | nil => simp [dropKey]
  | cons a es =>
    by_cases ha : key a = k
    · simp [dropKey, ha]
    · simp [dropKey, ha]

theorem size_dropKey_lt {ess : List (List α)} {i : Nat} {e : α} {es : List α}
    (h : ess[i]? = some (e :: es)) : size (ess.map (dropKey key (key e))) < size ess := by
  induction ess generalizing i with
  | nil => simp at h
  | cons gs ess ih =>
    have hle : ∀ ess : List (List α), size (ess.map (dropKey key (key e))) ≤ size ess := by
      intro ess
      induction ess with
      | nil => exact le_rfl
      | cons fs ess ih' =>
        have := length_dropKey_le key (key e) fs
        simp only [size, List.map_cons, List.sum_cons] at ih' ⊢
        omega
    cases i with
    | zero =>
      obtain rfl := Option.some.inj h
      have := hle ess
      simp only [size, List.map_cons, List.sum_cons, dropKey, if_true, List.length_cons] at this ⊢
      omega
    | succ i =>
      have := ih (i := i) h
      have := length_dropKey_le key (key e) gs
      simp only [size, List.map_cons, List.sum_cons] at *
      omega

/-! ## Existence -/

/-- Ascending sources that are not all empty have a least entry. -/
theorem exists_isLeast (hasc : ∀ es ∈ ess, Ascending key es) (hne : ∃ es ∈ ess, es ≠ []) :
    ∃ i e, IsLeast key ess i e := by
  obtain ⟨es, hes, hne⟩ := hne
  obtain ⟨a, as, rfl⟩ := List.exists_cons_of_ne_nil hne
  -- the least key of all, and the first source that has it
  obtain ⟨m, hm, hmin⟩ := Set.exists_min_image {f | f ∈ ess.flatten} key
    (List.finite_toSet _) ⟨a, List.mem_flatten.mpr ⟨_, hes, List.mem_cons_self⟩⟩
  have hleast : ∀ fs ∈ ess, ∀ f ∈ fs, key m ≤ key f := fun fs hfs f hf =>
    hmin f (List.mem_flatten.mpr ⟨fs, hfs, hf⟩)
  have hex : ∃ i : Nat, ∃ fs, ess[i]? = some fs ∧ ∃ f ∈ fs, key f = key m := by
    obtain ⟨fs, hfs, hmf⟩ := List.mem_flatten.mp hm
    obtain ⟨i, hi⟩ := List.mem_iff_getElem?.mp hfs
    exact ⟨i, fs, hi, m, hmf, rfl⟩
  classical
  obtain ⟨fs, hfs, f, hf, hkey⟩ := Nat.find_spec hex
  have hfasc := hasc fs (List.mem_of_getElem? hfs)
  cases fs with
  | nil => exact absurd hf List.not_mem_nil
  | cons e fs =>
    have hke : key e = key m := by
      rcases List.mem_cons.mp hf with rfl | hf'
      · exact hkey
      · exact absurd ((List.pairwise_cons.mp hfasc).1 f hf')
          (not_lt.mpr (hkey ▸ hleast _ (List.mem_of_getElem? hfs) e List.mem_cons_self))
    refine ⟨Nat.find hex, e, ⟨fs, hfs⟩, fun gs hgs g hg => hke ▸ hleast gs hgs g hg, ?_⟩
    intro j hj gs hgs g hg hg'
    exact Nat.find_min hex hj ⟨gs, hgs, g, hg, hg'.trans hke⟩

variable (keep) in
theorem exists_isMerge (hasc : ∀ es ∈ ess, Ascending key es) : ∃ M, IsMerge key keep ess M := by
  induction hn : size ess using Nat.strong_induction_on generalizing ess with
  | _ n ih =>
    by_cases hne : ∃ es ∈ ess, es ≠ []
    · obtain ⟨i, e, hl⟩ := exists_isLeast hasc hne
      obtain ⟨es, hes⟩ := hl.head
      have hasc' : ∀ fs ∈ ess.map (dropKey key (key e)), Ascending key fs := by
        intro fs hfs
        obtain ⟨gs, hgs, rfl⟩ := List.mem_map.mp hfs
        exact (hasc gs hgs).dropKey _
      obtain ⟨M, hM⟩ := ih _ (hn ▸ size_dropKey_lt hes) hasc' rfl
      by_cases hk : keep i e
      · exact ⟨_, hM.cons hasc hl hk⟩
      · exact ⟨_, hM.hide hasc hl hk⟩
    · exact ⟨[], (isMerge_of_empty fun es hes => by_contra fun h => hne ⟨es, hes, h⟩).mpr rfl⟩

/-! ## Dropping shadowed entries only -/

/-- Drop the key from the sources after source `i`. -/
def dropAfter (key : α → κ) (i : Nat) (k : κ) (ess : List (List α)) : List (List α) :=
  ess.take (i + 1) ++ (ess.drop (i + 1)).map (dropKey key k)

theorem getElem?_dropAfter_le {i j : Nat} (hj : j ≤ i) (k : κ) (ess : List (List α)) :
    (dropAfter key i k ess)[j]? = ess[j]? := by
  unfold dropAfter
  by_cases hlen : j < ess.length
  · rw [List.getElem?_append_left (by rw [List.length_take]; omega), List.getElem?_take,
      if_pos (by omega)]
  · rw [List.getElem?_eq_none (by simp; omega), List.getElem?_eq_none (by omega)]

theorem getElem?_dropAfter_gt {i j : Nat} (hj : i < j) (k : κ) (ess : List (List α)) :
    (dropAfter key i k ess)[j]? = ess[j]?.map (dropKey key k) := by
  unfold dropAfter
  by_cases hlen : i + 1 ≤ ess.length
  · have htake : (ess.take (i + 1)).length = i + 1 := by rw [List.length_take]; omega
    rw [List.getElem?_append_right (by omega), htake, List.getElem?_map, List.getElem?_drop]
    congr 2
    omega
  · rw [List.getElem?_eq_none (by simp; omega), List.getElem?_eq_none (by omega)]
    rfl

/-- Entries a source before them shadows do not change the merge. -/
theorem IsMerge.dropAfter (h : IsMerge key keep ess M) (hasc : ∀ es ∈ ess, Ascending key es)
    (hl : IsLeast key ess i e) : IsMerge key keep (dropAfter key i (key e) ess) M := by
  obtain ⟨es, hes⟩ := hl.head
  have hmem : ∀ {j : Nat} {fs}, ess[j]? = some fs → ∀ f, f ∈ dropKey key (key e) fs ↔
      f ∈ fs ∧ key f ≠ key e :=
    fun hfs => mem_dropKey (hasc _ (List.mem_of_getElem? hfs))
      (hl.least _ (List.mem_of_getElem? hfs))
  -- every source keeps its entries with other keys
  have hother : ∀ (j : Nat) f, key f ≠ key e →
      ((∃ fs, (PrecedenceMerge.dropAfter key i (key e) ess)[j]? = some fs ∧ f ∈ fs) ↔
        ∃ fs, ess[j]? = some fs ∧ f ∈ fs) := by
    intro j f hne
    rcases Nat.lt_or_ge i j with hj | hj
    · rw [getElem?_dropAfter_gt hj]
      constructor
      · rintro ⟨fs, hfs, hf⟩
        obtain ⟨gs, hgs, rfl⟩ := Option.map_eq_some_iff.mp hfs
        exact ⟨gs, hgs, ((hmem hgs f).mp hf).1⟩
      · rintro ⟨fs, hfs, hf⟩
        exact ⟨_, by rw [hfs]; rfl, (hmem hfs f).mpr ⟨hf, hne⟩⟩
    · rw [getElem?_dropAfter_le hj]
  have hwins : ∀ j f, Wins key (PrecedenceMerge.dropAfter key i (key e) ess) j f ↔
      Wins key ess j f := by
    intro j f
    by_cases hkey : key f = key e
    · -- the owner of the least key is the same
      constructor
      · rintro ⟨⟨fs, hfs, hf⟩, hfirst⟩
        have hji : j ≤ i := by
          by_contra hgt
          refine hfirst i (by omega) (e :: es) ?_ e List.mem_cons_self hkey.symm
          rw [getElem?_dropAfter_le le_rfl, hes]
        rw [getElem?_dropAfter_le hji] at hfs
        refine ⟨⟨fs, hfs, hf⟩, fun m hm gs hgs g hg => ?_⟩
        exact hfirst m hm gs (by rw [getElem?_dropAfter_le (by omega), hgs]) g hg
      · intro hw
        obtain ⟨rfl, rfl⟩ := hw.unique hasc hl.wins hkey
        refine ⟨⟨f :: es, by rw [getElem?_dropAfter_le le_rfl, hes], List.mem_cons_self⟩, ?_⟩
        intro m hm gs hgs g hg
        rw [getElem?_dropAfter_le (by omega)] at hgs
        exact hl.first m hm gs hgs g hg
    · constructor
      · rintro ⟨hf, hfirst⟩
        refine ⟨(hother j f hkey).mp hf, fun m hm gs hgs g hg hg' => ?_⟩
        obtain ⟨hs, hhs, hg⟩ := (hother m g (hg' ▸ hkey)).mpr ⟨gs, hgs, hg⟩
        exact hfirst m hm hs hhs g hg hg'
      · rintro ⟨hf, hfirst⟩
        refine ⟨(hother j f hkey).mpr hf, fun m hm gs hgs g hg hg' => ?_⟩
        obtain ⟨hs, hhs, hg⟩ := (hother m g (hg' ▸ hkey)).mp ⟨gs, hgs, hg⟩
        exact hfirst m hm hs hhs g hg hg'
  exact ⟨h.ascending, fun j f => by rw [h.mem_iff, hwins]⟩

theorem dropKey_of_ne {k : κ} {es : List α} (h : ∀ f ∈ es, key f ≠ k) : dropKey key k es = es := by
  cases es with
  | nil => rfl
  | cons f es => rw [dropKey, if_neg (h f List.mem_cons_self)]

/-- The owner of the least key is the same after its shadows are gone. -/
theorem IsLeast.dropAfter (hl : IsLeast key ess i e) :
    IsLeast key (dropAfter key i (key e) ess) i e := by
  obtain ⟨es, hes⟩ := hl.head
  refine ⟨⟨es, by rw [getElem?_dropAfter_le le_rfl, hes]⟩, fun fs hfs f hf => ?_, ?_⟩
  · obtain ⟨j, hj⟩ := List.mem_iff_getElem?.mp hfs
    rcases Nat.lt_or_ge i j with hij | hij
    · rw [getElem?_dropAfter_gt hij] at hj
      obtain ⟨gs, hgs, rfl⟩ := Option.map_eq_some_iff.mp hj
      refine hl.least gs (List.mem_of_getElem? hgs) f ?_
      cases gs with
      | nil => exact absurd hf List.not_mem_nil
      | cons g gs =>
        by_cases hg : key g = key e
        · rw [dropKey, if_pos hg] at hf
          exact List.mem_cons_of_mem _ hf
        · rw [dropKey, if_neg hg] at hf
          exact hf
    · rw [getElem?_dropAfter_le hij] at hj
      exact hl.least fs (List.mem_of_getElem? hj) f hf
  · intro j hj gs hgs g hg
    rw [getElem?_dropAfter_le (by omega)] at hgs
    exact hl.first j hj gs hgs g hg

/-- Moving the owner past the least key, after its shadows are gone, takes the key
out of every source. -/
theorem set_dropAfter (hl : IsLeast key ess i e) {es : List α} (hes : ess[i]? = some (e :: es)) :
    (dropAfter key i (key e) ess).set i es = ess.map (dropKey key (key e)) := by
  refine List.ext_getElem? fun j => ?_
  rw [List.getElem?_set, List.getElem?_map]
  rcases Nat.lt_trichotomy j i with hj | rfl | hj
  · rw [if_neg (by omega), getElem?_dropAfter_le (by omega)]
    cases hgs : ess[j]? with
    | none => rfl
    | some gs => rw [Option.map_some, dropKey_of_ne (hl.first j hj gs hgs)]
  · have hlt : j < (dropAfter key j (key e) ess).length := by
      refine (List.getElem?_eq_some_iff.mp (?_ : _ = some (e :: es))).1
      rw [getElem?_dropAfter_le le_rfl, hes]
    rw [if_pos rfl, if_pos hlt, hes, Option.map_some, dropKey, if_pos rfl]
  · rw [if_neg (by omega), getElem?_dropAfter_gt hj]

end PrecedenceMerge
