import Radmind.Lib.PrecedenceMerge

/-!
# A merge that moves sources ahead

Each round of this merge walks along the sources, highest precedence first, with the least
entry met so far.  A source that stands at the key of that entry is moved at once, also
where a later source turns out to have a smaller key.  So a source can be one entry ahead.

`current` says where a source stands when everything up to a bound is merged, `settled` where
it stands after the walk of the round that follows, and `Moves` whether this round moves a source
at all.
-/

namespace PrecedenceMerge

variable {κ α : Type} [LinearOrder κ]

/-- What the walk is left with: the sources, the first one with the least entry, by its
number, and whether a source was moved. -/
structure Walked (α : Type) where
  sources : List (List α)
  lead : Option (Nat × α)
  moved : Bool

/-- A source that is left as it is, in front of the others. -/
def Walked.keep (es : List α) (w : Walked α) : Walked α := { w with sources := es :: w.sources }

/-- The walk of a round from source `j` on. -/
def walk (key : α → κ) : Nat → Option (Nat × α) → List (List α) → Walked α
  | _, lead, [] => ⟨[], lead, false⟩
  | j, lead, [] :: rest => (walk key (j + 1) lead rest).keep []
  | j, none, (e :: es) :: rest => (walk key (j + 1) (some (j, e)) rest).keep (e :: es)
  | j, some (i, c), (e :: es) :: rest =>
    if key e = key c then
      { (walk key (j + 1) (some (i, c)) rest).keep es with moved := true }
    else if key e < key c then (walk key (j + 1) (some (j, e)) rest).keep (e :: es)
    else (walk key (j + 1) (some (i, c)) rest).keep (e :: es)

/-- Some source has the key. -/
def Has (key : α → κ) (ess : List (List α)) (k : κ) : Prop := ∃ es ∈ ess, ∃ e ∈ es, key e = k

/-- What a source has above a bound. -/
def above (key : α → κ) (u : WithBot κ) (es : List α) : List α :=
  es.filter fun e => u < (key e : WithBot κ)

/-- The next key of the source above a bound is one that a source before it has, too, and none
of them has another one on the way. -/
structure Shared (key : α → κ) (pre : List (List α)) (es : List α) (u : WithBot κ) (y : κ) :
    Prop where
  mem : ∃ e ∈ es, key e = y
  above : u < y
  has : Has key pre y
  least : ∀ k, Has key (pre ++ [es]) k → u < k → y ≤ k

/-- The bound is a key of the source or of one before it, or nothing is merged yet. -/
def Seen (key : α → κ) (pre : List (List α)) (es : List α) (u : WithBot κ) : Prop :=
  u = ⊥ ∨ ∃ k : κ, u = k ∧ Has key (pre ++ [es]) k

open Classical in
/-- Where a source stands when everything up to a bound is merged. -/
noncomputable def current (key : α → κ) (u : WithBot κ) (pre : List (List α)) (es : List α) :
    List α :=
  if (∃ y, Shared key pre es u y) ∧ ¬ Seen key pre es u then (above key u es).tail
  else above key u es

open Classical in
/-- Where it stands after the walk of the next round. -/
noncomputable def settled (key : α → κ) (u : WithBot κ) (pre : List (List α)) (es : List α) :
    List α :=
  if ∃ y, Shared key pre es u y then (above key u es).tail else above key u es

/-- A function of each source and those before it. -/
def along (f : List (List α) → List α → List α) : List (List α) → List (List α) → List (List α)
  | _, [] => []
  | pre, es :: rest => f pre es :: along f (pre ++ [es]) rest

/-- The round that follows a bound moves a source. -/
def MovesFrom (key : α → κ) (u : WithBot κ) (pre ess : List (List α)) : Prop :=
  ∃ mid es post y, ess = mid ++ es :: post ∧ Seen key (pre ++ mid) es u ∧
    Shared key (pre ++ mid) es u y

/-- Nothing is merged yet, or the bound is a key of the sources. -/
def Reached (key : α → κ) (ess : List (List α)) (u : WithBot κ) : Prop :=
  u = ⊥ ∨ ∃ k : κ, u = k ∧ Has key ess k

/-- The round that merges a key moves a source.  It follows the key before, if there is
one. -/
def MovesAt (key : α → κ) (ess : List (List α)) (k : κ) : Prop :=
  ∃ u, Reached key ess u ∧ u < k ∧ (∀ k', Has key ess k' → u < k' → k ≤ k') ∧
    MovesFrom key u [] ess

/-- The least entry of the sources above a bound is that of the first source that has it. -/
def Leads (key : α → κ) (u : WithBot κ) (pre : List (List α)) : Option (Nat × α) → Prop
  | none => ∀ k, Has key pre k → ¬ u < k
  | some (i, c) => u < key c ∧ (∃ es, pre[i]? = some es ∧ c ∈ es) ∧
      (∀ k, Has key pre k → u < k → key c ≤ k) ∧
      ∀ j < i, ∀ fs, pre[j]? = some fs → ∀ f ∈ fs, key f ≠ key c

section

variable {key : α → κ} {u : WithBot κ} {pre : List (List α)} {es : List α}

theorem mem_above {e : α} : e ∈ above key u es ↔ e ∈ es ∧ u < (key e : WithBot κ) := by
  simp [above]

theorem Ascending.above (h : Ascending key es) : Ascending key (PrecedenceMerge.above key u es) :=
  h.filter _

theorem above_bot : above key ⊥ es = es := by
  simp [above]

omit [LinearOrder κ] in
theorem has_append {ess ess' : List (List α)} {k : κ} :
    Has key (ess ++ ess') k ↔ Has key ess k ∨ Has key ess' k := by
  unfold Has
  constructor
  · intro ⟨fs, hfs, hf⟩
    exact (List.mem_append.mp hfs).imp (fun h => ⟨fs, h, hf⟩) fun h => ⟨fs, h, hf⟩
  · rintro (⟨fs, hfs, hf⟩ | ⟨fs, hfs, hf⟩)
    · exact ⟨fs, List.mem_append_left _ hfs, hf⟩
    · exact ⟨fs, List.mem_append_right _ hfs, hf⟩

omit [LinearOrder κ] in
theorem has_singleton {k : κ} : Has key [es] k ↔ ∃ e ∈ es, key e = k := by
  simp [Has]

theorem current_bot : current key ⊥ pre es = es := by
  rw [current, if_neg (fun h => h.2 (.inl rfl)), above_bot]

/-- The first entry above a bound. -/
theorem above_cons {e : α} {es' : List α} (hasc : Ascending key es)
    (h : above key u es = e :: es') : e ∈ es ∧ u < (key e : WithBot κ) ∧
      (∀ f ∈ es, u < (key f : WithBot κ) → key e ≤ key f) ∧
      es' = above key (key e : WithBot κ) es := by
  have hmem : e ∈ above key u es := by rw [h]; exact List.mem_cons_self
  obtain ⟨he, hu⟩ := mem_above.mp hmem
  have hasc' : Ascending key (e :: es') := h ▸ hasc.above
  obtain ⟨hlt, -⟩ := List.pairwise_cons.mp hasc'
  refine ⟨he, hu, fun f hf huf => ?_, ?_⟩
  · have hf' : f ∈ e :: es' := h ▸ mem_above.mpr ⟨hf, huf⟩
    rcases List.mem_cons.mp hf' with rfl | hf'
    · exact le_rfl
    · exact (hlt f hf').le
  · have hfilter : above key (key e : WithBot κ) (above key u es) = above key (key e : WithBot κ) es := by
      unfold above
      rw [List.filter_filter]
      refine List.filter_congr fun f _ => ?_
      by_cases hf : (key e : WithBot κ) < key f
      · simp [hf, hu.trans hf]
      · simp [hf]
    rw [← hfilter, h]
    unfold above
    rw [List.filter_cons, if_neg (by simp)]
    symm
    rw [List.filter_eq_self]
    intro f hf
    simpa using hlt f hf

/-- A shared key is that of the first entry above the bound. -/
theorem Shared.head (hasc : Ascending key es) {y : κ} (h : Shared key pre es u y) :
    ∃ e, key e = y ∧
      PrecedenceMerge.above key u es = e :: PrecedenceMerge.above key (y : WithBot κ) es := by
  obtain ⟨e, he, rfl⟩ := h.mem
  have hmem : e ∈ PrecedenceMerge.above key u es := mem_above.mpr ⟨he, h.above⟩
  obtain ⟨f, fs, hfs⟩ := List.exists_cons_of_ne_nil (List.ne_nil_of_mem hmem)
  obtain ⟨hf, huf, hle, htail⟩ := above_cons hasc hfs
  have hkey : key f = key e := by
    refine le_antisymm (hle e he h.above) (h.least _ ?_ huf)
    exact has_append.mpr (.inr (has_singleton.mpr ⟨f, hf, rfl⟩))
  exact ⟨f, hkey, by rw [hfs, htail, hkey]⟩

/-- What leads stays what leads, where a source has nothing smaller. -/
theorem Leads.snoc {i : Nat} {c : α} (h : Leads key u pre (some (i, c)))
    (hle : ∀ e ∈ es, u < (key e : WithBot κ) → key c ≤ key e) :
    Leads key u (pre ++ [es]) (some (i, c)) := by
  obtain ⟨hu, ⟨fs, hfs, hc⟩, hleast, hfirst⟩ := h
  have hi : i < pre.length := (List.getElem?_eq_some_iff.mp hfs).1
  refine ⟨hu, ⟨fs, by rw [List.getElem?_append_left hi]; exact hfs, hc⟩, fun k hk huk => ?_,
    fun j hj fs hfs => hfirst j hj fs ?_⟩
  · rcases has_append.mp hk with hk | hk
    · exact hleast k hk huk
    · obtain ⟨e, he, rfl⟩ := has_singleton.mp hk
      exact hle e he huk
  · rwa [List.getElem?_append_left (hj.trans hi)] at hfs

theorem Leads.none_snoc (h : Leads key u pre none) (hnone : above key u es = []) :
    Leads key u (pre ++ [es]) none := by
  intro k hk hu
  rcases has_append.mp hk with hk | hk
  · exact h k hk hu
  · obtain ⟨e, he, rfl⟩ := has_singleton.mp hk
    have hmem := mem_above.mpr ⟨he, hu⟩
    rw [hnone] at hmem
    exact absurd hmem List.not_mem_nil

/-- A source takes the lead. -/
theorem leads_new {e : α} {es' : List α} (hasc : Ascending key es)
    (h : above key u es = e :: es') (hless : ∀ k, Has key pre k → u < k → key e < k) :
    Leads key u (pre ++ [es]) (some (pre.length, e)) := by
  obtain ⟨he, hu, hle, -⟩ := above_cons hasc h
  refine ⟨hu, ⟨es, by simp, he⟩, fun k hk huk => ?_, fun j hj fs hfs f hf hkey => ?_⟩
  · rcases has_append.mp hk with hk | hk
    · exact (hless k hk huk).le
    · obtain ⟨f, hf, rfl⟩ := has_singleton.mp hk
      exact hle f hf huk
  · rw [List.getElem?_append_left hj] at hfs
    exact (hless (key f) ⟨fs, List.mem_of_getElem? hfs, f, hf, rfl⟩ (by rwa [hkey])).ne hkey.symm

theorem movesFrom_cons {rest : List (List α)} : MovesFrom key u pre (es :: rest) ↔
    (Seen key pre es u ∧ ∃ y, Shared key pre es u y) ∨ MovesFrom key u (pre ++ [es]) rest := by
  constructor
  · intro ⟨mid, fs, post, y, hsplit, hseen, hshared⟩
    cases mid with
    | nil =>
      obtain ⟨rfl, rfl⟩ := List.cons.inj hsplit
      rw [List.append_nil] at hseen hshared
      exact .inl ⟨hseen, y, hshared⟩
    | cons m mid =>
      obtain ⟨rfl, rfl⟩ := List.cons.inj hsplit
      refine .inr ⟨mid, fs, post, y, rfl, ?_, ?_⟩
      · simpa using hseen
      · simpa using hshared
  · rintro (⟨hseen, y, hshared⟩ | ⟨mid, fs, post, y, rfl, hseen, hshared⟩)
    · exact ⟨[], es, rest, y, rfl, by simpa using hseen, by simpa using hshared⟩
    · exact ⟨es :: mid, fs, post, y, rfl, by simpa using hseen, by simpa using hshared⟩

/-- The walk moves exactly the sources whose next key is shared. -/
theorem walk_current {rest : List (List α)} (hasc : ∀ es ∈ rest, Ascending key es)
    {lead : Option (Nat × α)} (hlead : Leads key u pre lead) :
    (walk key pre.length lead (along (current key u) pre rest)).sources =
        along (settled key u) pre rest ∧
      Leads key u (pre ++ rest)
        (walk key pre.length lead (along (current key u) pre rest)).lead ∧
      ((walk key pre.length lead (along (current key u) pre rest)).moved = true ↔
        MovesFrom key u pre rest) := by
  induction rest generalizing pre lead with
  | nil =>
    refine ⟨rfl, by simpa [along, walk] using hlead, ?_⟩
    simp [along, walk, MovesFrom]
  | cons es rest ih =>
    obtain ⟨hes, hasc⟩ := List.forall_mem_cons.mp hasc
    have ih := fun lead (h : Leads key u (pre ++ [es]) lead) => ih hasc h
    simp only [List.length_append, List.length_singleton, List.append_assoc,
      List.singleton_append] at ih
    rw [movesFrom_cons]
    simp only [along]
    by_cases hs : ∃ y, Shared key pre es u y
    · obtain ⟨y, hy⟩ := hs
      obtain ⟨e, hey, habove⟩ := hy.head hes
      have hset : settled key u pre es = above key (y : WithBot κ) es := by
        rw [settled, if_pos ⟨y, hy⟩, habove, List.tail_cons]
      -- what leads has the shared key
      obtain ⟨i, c, rfl, hcy⟩ : ∃ i c, lead = some (i, c) ∧ key c = y := by
        cases lead with
        | none => exact absurd hy.above (hlead y hy.has)
        | some ic =>
          obtain ⟨i, c⟩ := ic
          obtain ⟨hu, ⟨fs, hfs, hc⟩, hleast, -⟩ := hlead
          refine ⟨i, c, rfl, le_antisymm (hleast y hy.has hy.above) (hy.least _ ?_ hu)⟩
          exact has_append.mpr (.inl ⟨fs, List.mem_of_getElem? hfs, c, hc, rfl⟩)
      have hlead' : Leads key u (pre ++ [es]) (some (i, c)) := by
        refine hlead.snoc fun f hf hu => hcy ▸ hy.least _ ?_ hu
        exact has_append.mpr (.inr (has_singleton.mpr ⟨f, hf, rfl⟩))
      obtain ⟨hsources, hleads, hmoved⟩ := ih _ hlead'
      by_cases hseen : Seen key pre es u
      · have hcur : current key u pre es = e :: above key (y : WithBot κ) es := by
          rw [current, if_neg (fun h => h.2 hseen), habove]
        rw [hcur, hset, walk, if_pos (hey.trans hcy.symm)]
        refine ⟨congrArg _ hsources, hleads, ?_⟩
        exact ⟨fun _ => .inl ⟨hseen, y, hy⟩, fun _ => rfl⟩
      · have hcur : current key u pre es = above key (y : WithBot κ) es := by
          rw [current, if_pos ⟨⟨y, hy⟩, hseen⟩, habove, List.tail_cons]
        have hwalk : walk key pre.length (some (i, c))
            (above key (y : WithBot κ) es :: along (current key u) (pre ++ [es]) rest) =
              (walk key (pre.length + 1) (some (i, c))
                (along (current key u) (pre ++ [es]) rest)).keep (above key (y : WithBot κ) es) := by
          cases hab : above key (y : WithBot κ) es with
          | nil => rw [walk]
          | cons f fs =>
            have hyf : y < key f := by
              have := (mem_above.mp (hab ▸ List.mem_cons_self : f ∈ above key (y : WithBot κ) es)).2
              exact WithBot.coe_lt_coe.mp this
            rw [walk, if_neg (by rw [hcy]; exact hyf.ne'), if_neg (by rw [hcy]; exact hyf.not_gt)]
        rw [hcur, hset, hwalk]
        refine ⟨congrArg _ hsources, hleads, hmoved.trans ⟨.inr, fun h => ?_⟩⟩
        exact h.resolve_left fun h => hseen h.1
    · have hcur : current key u pre es = above key u es := by
        rw [current, if_neg (fun h => hs h.1)]
      have hset : settled key u pre es = above key u es := by rw [settled, if_neg hs]
      have hkeep : ∀ lead', Leads key u (pre ++ [es]) lead' →
          walk key pre.length lead (above key u es :: along (current key u) (pre ++ [es]) rest) =
            (walk key (pre.length + 1) lead'
              (along (current key u) (pre ++ [es]) rest)).keep (above key u es) →
          (walk key pre.length lead
              (current key u pre es :: along (current key u) (pre ++ [es]) rest)).sources =
            settled key u pre es :: along (settled key u) (pre ++ [es]) rest ∧
          Leads key u (pre ++ es :: rest) (walk key pre.length lead
            (current key u pre es :: along (current key u) (pre ++ [es]) rest)).lead ∧
          ((walk key pre.length lead
              (current key u pre es :: along (current key u) (pre ++ [es]) rest)).moved = true ↔
            (Seen key pre es u ∧ ∃ y, Shared key pre es u y) ∨
              MovesFrom key u (pre ++ [es]) rest) := by
        intro lead' hlead' hwalk
        obtain ⟨hsources, hleads, hmoved⟩ := ih lead' hlead'
        rw [hcur, hset, hwalk]
        refine ⟨congrArg _ hsources, hleads, hmoved.trans ⟨.inr, fun h => ?_⟩⟩
        exact h.resolve_left fun h => hs h.2
      cases hab : above key u es with
      | nil =>
        refine hkeep lead ?_ (by rw [hab, walk])
        cases lead with
        | none => exact hlead.none_snoc hab
        | some ic =>
          refine hlead.snoc fun e he hu => ?_
          have hmem := mem_above.mpr ⟨he, hu⟩
          rw [hab] at hmem
          exact absurd hmem List.not_mem_nil
      | cons e es' =>
        obtain ⟨he, hu, hle, -⟩ := above_cons hes hab
        cases lead with
        | none =>
          refine hkeep (some (pre.length, e)) ?_ (by rw [hab, walk])
          exact leads_new hes hab fun k hk hu => absurd hu (hlead k hk)
        | some ic =>
          obtain ⟨i, c⟩ := ic
          obtain ⟨huc, ⟨fs, hfs, hc⟩, hleast, -⟩ := id hlead
          have hhas : Has key pre (key c) := ⟨fs, List.mem_of_getElem? hfs, c, hc, rfl⟩
          have hne : key e ≠ key c := by
            intro heq
            refine hs ⟨key e, ⟨e, he, rfl⟩, hu, heq ▸ hhas, fun k hk huk => ?_⟩
            rcases has_append.mp hk with hk | hk
            · exact heq ▸ hleast k hk huk
            · obtain ⟨f, hf, rfl⟩ := has_singleton.mp hk
              exact hle f hf huk
          rcases lt_or_gt_of_ne hne with hlt | hgt
          · refine hkeep (some (pre.length, e)) ?_ (by rw [hab, walk, if_neg hne, if_pos hlt])
            exact leads_new hes hab fun k hk huk => hlt.trans_le (hleast k hk huk)
          · refine hkeep (some (i, c)) ?_ (by rw [hab, walk, if_neg hne, if_neg hgt.not_gt])
            exact hlead.snoc fun f hf huf => hgt.le.trans (hle f hf huf)

/-! ## The next bound -/

section

variable {q : κ}

/-- The source that leads is moved by one entry. -/
theorem settled_lead (hasc : Ascending key es) (hu : u < q)
    (hq : ∀ k, Has key (pre ++ [es]) k → u < k → q ≤ k) {e : α} (he : e ∈ es) (hkey : key e = q)
    (hnot : ¬ Has key pre q) : settled key u pre es = e :: current key (q : WithBot κ) pre es := by
  have hqhas : Has key (pre ++ [es]) q := has_append.mpr (.inr (has_singleton.mpr ⟨e, he, hkey⟩))
  have hshared : ¬ ∃ y, Shared key pre es u y := by
    intro ⟨y, hy⟩
    have hyq : y = q :=
      le_antisymm (hy.least q hqhas hu) (hq y (has_append.mpr (.inl hy.has)) hy.above)
    exact hnot (hyq ▸ hy.has)
  have hmem : e ∈ above key u es := mem_above.mpr ⟨he, hkey ▸ hu⟩
  obtain ⟨f, fs, hfs⟩ := List.exists_cons_of_ne_nil (List.ne_nil_of_mem hmem)
  obtain ⟨hf, huf, hle, htail⟩ := above_cons hasc hfs
  have hfe : key f = key e :=
    le_antisymm (hle e he (hkey ▸ hu)) (hkey ▸ hq _ (has_append.mpr
      (.inr (has_singleton.mpr ⟨f, hf, rfl⟩))) huf)
  have hcur : current key (q : WithBot κ) pre es = above key (q : WithBot κ) es := by
    rw [current, if_neg fun h => h.2 (.inr ⟨q, rfl, hqhas⟩)]
  rw [settled, if_neg hshared, hfs, htail, hcur, hfe, hkey, hasc.eq_of_key_eq hf he hfe]

/-- The other sources stand after the walk where they are to stand. -/
theorem settled_other (hasc : Ascending key es) (hu : u < q)
    (hq : ∀ k, Has key (pre ++ [es]) k → u < k → q ≤ k)
    (hother : (∃ e ∈ es, key e = q) → Has key pre q) :
    settled key u pre es = current key (q : WithBot κ) pre es := by
  by_cases hmem : ∃ e ∈ es, key e = q
  · -- it has been moved past the shared key
    have hshared : Shared key pre es u q := ⟨hmem, hu, hother hmem, hq⟩
    obtain ⟨e, -, habove⟩ := hshared.head hasc
    rw [settled, if_pos ⟨q, hshared⟩, habove, List.tail_cons, current,
      if_neg fun h => h.2 (.inr ⟨q, rfl, has_append.mpr (.inl (hother hmem))⟩)]
  · have habove : above key u es = above key (q : WithBot κ) es := by
      refine List.filter_congr fun e he => ?_
      have hle : u < (key e : WithBot κ) → q ≤ key e :=
        hq _ (has_append.mpr (.inr (has_singleton.mpr ⟨e, he, rfl⟩)))
      have hne : key e ≠ q := fun h => hmem ⟨e, he, h⟩
      rw [decide_eq_decide]
      exact ⟨fun h => WithBot.coe_lt_coe.mpr (lt_of_le_of_ne (hle h) hne.symm), fun h => hu.trans h⟩
    have hge : ∀ {y}, Shared key pre es u y → q < y := by
      intro y hy
      refine lt_of_le_of_ne (hq y (has_append.mpr (.inl hy.has)) hy.above) ?_
      rintro rfl
      exact hmem hy.mem
    by_cases hhas : Has key pre q
    · have hnot : ¬ ∃ y, Shared key pre es u y := fun ⟨y, hy⟩ =>
        (hge hy).not_ge (hy.least q (has_append.mpr (.inl hhas)) hu)
      rw [settled, if_neg hnot, habove, current,
        if_neg fun h => h.2 (.inr ⟨q, rfl, has_append.mpr (.inl hhas)⟩)]
    · have hnone : ¬ Has key (pre ++ [es]) q := fun h =>
        (has_append.mp h).elim hhas fun h => hmem (has_singleton.mp h)
      have hseen : ¬ Seen key pre es (q : WithBot κ) := by
        rintro (h | ⟨k, hk, hhas⟩)
        · exact WithBot.coe_ne_bot h
        · exact hnone (WithBot.coe_injective hk ▸ hhas)
      have hiff : (∃ y, Shared key pre es u y) ↔
          (∃ y, Shared key pre es (q : WithBot κ) y) ∧ ¬ Seen key pre es (q : WithBot κ) := by
        constructor
        · intro ⟨y, hy⟩
          exact ⟨⟨y, hy.mem, WithBot.coe_lt_coe.mpr (hge hy), hy.has,
            fun k hk hqk => hy.least k hk (hu.trans hqk)⟩, hseen⟩
        · intro ⟨⟨y, hy⟩, _⟩
          refine ⟨y, hy.mem, hu.trans hy.above, hy.has, fun k hk huk => hy.least k hk ?_⟩
          refine WithBot.coe_lt_coe.mpr (lt_of_le_of_ne (hq k hk huk) ?_)
          rintro rfl
          exact hnone hk
      rw [settled, current, habove]
      by_cases hs : ∃ y, Shared key pre es u y
      · rw [if_pos hs, if_pos (hiff.mp hs)]
      · rw [if_neg hs, if_neg (hiff.not.mp hs)]

end

theorem getElem?_along {f : List (List α) → List α → List α} {ess : List (List α)} {j : Nat} :
    (along f pre ess)[j]? = ess[j]?.map fun es => f (pre ++ ess.take j) es := by
  induction ess generalizing pre j with
  | nil => rfl
  | cons es ess ih =>
    rw [along]
    cases j with
    | zero => simp
    | succ j =>
      rw [List.getElem?_cons_succ, ih, List.getElem?_cons_succ]
      simp

/-- Sources at their end are passed by. -/
theorem walk_front {front rest : List (List α)} (hfront : ∀ es ∈ front, es = []) {j : Nat}
    {lead : Option (Nat × α)} : walk key j lead (front ++ rest) =
      { walk key (j + front.length) lead rest with
        sources := front ++ (walk key (j + front.length) lead rest).sources } := by
  induction front generalizing j with
  | nil => rfl
  | cons es front ih =>
    obtain ⟨hes, hrest⟩ := List.forall_mem_cons.mp hfront
    rw [hes, List.cons_append, walk, ih hrest, List.length_cons, Nat.add_right_comm j 1]
    rfl

theorem along_bot {ess : List (List α)} : along (current key ⊥) pre ess = ess := by
  induction ess generalizing pre with
  | nil => rfl
  | cons es ess ih => rw [along, current_bot, ih]

section

variable {ess : List (List α)} {w : Nat} {e : α}

/-- No key lies between a bound and the entry that leads. -/
theorem Leads.least_upto (h : Leads key u ess (some (w, e))) {j : Nat} {es : List α}
    (hj : ess[j]? = some es) :
    ∀ k, Has key (ess.take j ++ [es]) k → u < k → key e ≤ k := by
  intro k hk huk
  refine h.2.2.1 k ?_ huk
  rcases has_append.mp hk with ⟨fs, hfs, hf⟩ | hk
  · exact ⟨fs, List.mem_of_mem_take hfs, hf⟩
  · exact ⟨es, List.mem_of_getElem? hj, has_singleton.mp hk⟩

/-- Moving the source that leads takes the sources to the next bound. -/
theorem Leads.next (h : Leads key u ess (some (w, e))) (hasc : ∀ es ∈ ess, Ascending key es) :
    ∃ es', (along (settled key u) [] ess)[w]? = some (e :: es') ∧
      (along (settled key u) [] ess).set w es' =
        along (current key (key e : WithBot κ)) [] ess := by
  obtain ⟨hu, ⟨es, hes, he⟩, -, hfirst⟩ := id h
  have hw := (List.getElem?_eq_some_iff.mp hes).1
  have hnot : ¬ Has key (ess.take w) (key e) := by
    intro ⟨fs, hfs, f, hf, hkey⟩
    obtain ⟨j, hj⟩ := List.mem_iff_getElem?.mp hfs
    rw [List.getElem?_take] at hj
    split_ifs at hj with hlt
    exact hfirst j hlt fs hj f hf hkey
  have hlead := settled_lead (hasc es (List.mem_of_getElem? hes)) hu (h.least_upto hes) he rfl hnot
  refine ⟨current key (key e : WithBot κ) (ess.take w) es, ?_, ?_⟩
  · rw [getElem?_along, hes, List.nil_append, Option.map_some, hlead]
  · refine List.ext_getElem? fun j => ?_
    rw [List.getElem?_set, getElem?_along, getElem?_along, List.nil_append]
    split_ifs with hj hlt
    · subst hj
      rw [hes]
      rfl
    · refine absurd ?_ hlt
      have hlen : (along (settled key u) [] ess)[w]? ≠ none := by
        rw [getElem?_along, hes]
        simp
      exact not_le.mp fun hle => hlen (List.getElem?_eq_none hle)
    · cases hfs : ess[j]? with
      | none => rfl
      | some fs =>
        rw [Option.map_some, Option.map_some]
        congr 1
        refine settled_other (hasc fs (List.mem_of_getElem? hfs)) hu (h.least_upto hfs) ?_
        intro ⟨f, hf, hkey⟩
        rcases Nat.lt_trichotomy j w with hlt | rfl | hgt
        · exact absurd hkey (hfirst j hlt fs hfs f hf)
        · exact absurd rfl hj
        · refine ⟨es, ?_, e, he, rfl⟩
          refine @List.mem_of_getElem? _ _ w _ ?_
          rw [List.getElem?_take, if_pos hgt, hes]

/-- What leads is the least entry of what is left of the sources. -/
theorem Leads.isLeast (h : Leads key u ess (some (w, e))) (hasc : ∀ es ∈ ess, Ascending key es) :
    IsLeast key (ess.map (above key u)) w e := by
  obtain ⟨hu, ⟨es, hes, he⟩, hleast, hfirst⟩ := h
  have hmem : e ∈ above key u es := mem_above.mpr ⟨he, hu⟩
  obtain ⟨f, fs, hfs⟩ := List.exists_cons_of_ne_nil (List.ne_nil_of_mem hmem)
  have hes' := List.mem_of_getElem? hes
  obtain ⟨hf, huf, hle, -⟩ := above_cons (hasc es hes') hfs
  have hfe : f = e := (hasc es hes').eq_of_key_eq hf he
    (le_antisymm (hle e he hu) (hleast _ ⟨es, hes', f, hf, rfl⟩ huf))
  refine ⟨⟨fs, by rw [List.getElem?_map, hes, Option.map_some, hfs, hfe]⟩, fun gs hgs g hg => ?_,
    fun j hj gs hgs g hg => ?_⟩
  · obtain ⟨ds, hds, rfl⟩ := List.mem_map.mp hgs
    obtain ⟨hg, hug⟩ := mem_above.mp hg
    exact hleast _ ⟨ds, hds, g, hg, rfl⟩ hug
  · rw [List.getElem?_map, Option.map_eq_some_iff] at hgs
    obtain ⟨gs, hgs, rfl⟩ := hgs
    exact hfirst j hj gs hgs g (mem_above.mp hg).1

/-- Dropping the entry that leads from what is left of the sources raises the bound. -/
theorem Leads.dropKey (h : Leads key u ess (some (w, e))) (hasc : ∀ es ∈ ess, Ascending key es) :
    (ess.map (above key u)).map (dropKey key (key e)) =
      ess.map (above key (key e : WithBot κ)) := by
  obtain ⟨hu, -, hleast, -⟩ := h
  rw [List.map_map]
  refine List.map_congr_left fun es hes => ?_
  show PrecedenceMerge.dropKey key (key e) (above key u es) = _
  cases hab : above key u es with
  | nil =>
    symm
    rw [PrecedenceMerge.dropKey, List.eq_nil_iff_forall_not_mem]
    intro f hf
    obtain ⟨hf, hlt⟩ := mem_above.mp hf
    have hmem : f ∈ above key u es := mem_above.mpr ⟨hf, hu.trans hlt⟩
    rw [hab] at hmem
    exact List.not_mem_nil hmem
  | cons f fs =>
    obtain ⟨hf, huf, -, htail⟩ := above_cons (hasc es hes) hab
    rw [PrecedenceMerge.dropKey]
    split
    · next hkey => rw [htail, hkey]
    · next hkey =>
      rw [← hab]
      refine List.filter_congr fun g hg => ?_
      rw [decide_eq_decide]
      refine ⟨fun hug => ?_, fun hg => hu.trans hg⟩
      have hfg := (above_cons (hasc es hes) hab).2.2.1 g hg hug
      have hef : key e < key f :=
        lt_of_le_of_ne (hleast _ ⟨es, hes, f, hf, rfl⟩ huf) (Ne.symm hkey)
      exact WithBot.coe_lt_coe.mpr (hef.trans_le hfg)

theorem Leads.reached (h : Leads key u ess (some (w, e))) :
    Reached key ess (key e : WithBot κ) := by
  obtain ⟨-, ⟨es, hes, he⟩, -⟩ := h
  exact .inr ⟨key e, rfl, es, List.mem_of_getElem? hes, e, he, rfl⟩

theorem Leads.movesAt_iff (h : Leads key u ess (some (w, e))) (hu : Reached key ess u) :
    MovesAt key ess (key e) ↔ MovesFrom key u [] ess := by
  obtain ⟨hlt, -, hleast, -⟩ := h
  refine ⟨fun ⟨u', hu', hlt', hleast', hmoves⟩ => ?_, fun hmoves => ⟨u, hu, hlt, hleast, hmoves⟩⟩
  -- there is one bound next to a key
  have hnot : ∀ {v v' : WithBot κ}, Reached key ess v' → v' < (key e : WithBot κ) →
      (∀ k', Has key ess k' → v < k' → key e ≤ k') → ¬ v < v' := by
    intro v v' hv' hlt' hleast' hvv'
    rcases hv' with rfl | ⟨k, rfl, hk⟩
    · exact not_lt_bot hvv'
    · exact (WithBot.coe_lt_coe.mp hlt').not_ge (hleast' k hk hvv')
  have heq : u' = u :=
    le_antisymm (not_lt.mp (hnot hu' hlt' hleast)) (not_lt.mp (hnot hu hlt hleast'))
  exact heq ▸ hmoves

theorem Leads.above_eq_nil (h : Leads key u ess none) : ∀ es ∈ ess, above key u es = [] := by
  intro es hes
  rw [List.eq_nil_iff_forall_not_mem]
  intro e he
  obtain ⟨he, hu⟩ := mem_above.mp he
  exact h (key e) ⟨es, hes, e, he, rfl⟩ hu

end

end

end PrecedenceMerge
