import Radmind.Lmerge.Merge

/-!
# The order of a merged transcript

The check of the order is made as a line is read, and the loop over the other transcripts
does not look at what it says.  Where no such line goes unnoticed, every round writes a path
above the ones written before.
-/

namespace Radmind

/-- The paths of the lines are strictly ascending. -/
def PathsAscend (caseSensitive : Bool) (lines : List Written) : Prop :=
  lines.Pairwise fun a b => pathcasecmp a.tFilepath b.tFilepath caseSensitive < 0

/-- A path the order is about. -/
def Tran.Named (cs : Bool) (t : Tran) : Prop := Ranked cs t.tFilepath ∧ t.tFilepath ≠ []

/-- The line behind the current one is not refused. -/
def Tran.Heeded (cfg : LmergeConfig) (t : Tran) : Prop :=
  ∀ buf t' e buf', getnextline cfg buf t ≠ .ok (t', some e, buf')

/-- The two stand at the same path. -/
def SamePath (cs : Bool) (u t : Tran) : Prop :=
  u.tEof = false ∧ t.tEof = false ∧ pathcasecmp u.tFilepath t.tFilepath cs = 0

/-- The condition on a state: the paths are such as the order is about, and where two
transcripts stand at the same path, the next line of the later one is not refused. -/
structure Attended (cfg : LmergeConfig) (st : MergeState) : Prop where
  named : ∀ t ∈ st.trans, t.tEof = false → t.Named cfg.caseSensitive
  heeded : ∀ pre t post, st.trans = pre ++ t :: post →
    (∃ u ∈ pre, SamePath cfg.caseSensitive u t) → t.Heeded cfg

/-- What the path of a transcript is in the order. -/
def Tran.key (cs : Bool) (t : Tran) : List Nat := pathKey cs t.tFilepath

/-- The transcript is at its end, or at an accepted line above a bound. -/
structure Tran.Above (cs : Bool) (bound : List Nat → Prop) (t : Tran) : Prop where
  accepted : t.tEof = false → t.Accepted
  above : t.tEof = false → ∀ k, bound k → k < t.key cs

/-- Every line that was written is below every line still to come. -/
structure SortedSoFar (cs : Bool) (st : MergeState) : Prop where
  ofs : PathsAscend cs st.ofs
  ranked : ∀ l ∈ st.ofs, Ranked cs l.tFilepath
  before : ∀ t ∈ st.trans.take st.i, t.tEof = true
  trans : ∀ t ∈ st.trans, t.Above cs fun k => ∃ l ∈ st.ofs, k = pathKey cs l.tFilepath

section

variable {cfg : LmergeConfig} {bound : List Nat → Prop}

/-- A transcript that is moved and not refused goes on above where it was. -/
theorem Tran.Above.next {t t' : Tran} {buf buf' : List Byte} {r : Option LmergeExit}
    (h : t.Above cfg.caseSensitive bound) (heof : t.tEof = false)
    (hname : t.Named cfg.caseSensitive) (hr : r = none)
    (hnext : getnextline cfg buf t = .ok (t', r, buf'))
    (hname' : t'.tEof = false → t'.Named cfg.caseSensitive) :
    t'.Above cfg.caseSensitive (fun k => bound k ∨ k = t.key cfg.caseSensitive) := by
  subst hr
  obtain ⟨hcases, -⟩ := getnextline_cases hnext
  cases hcases with
  | atEnd hend _ => exact ⟨fun h => by simp [hend] at h, fun h => by simp [hend] at h⟩
  | accepted heof' hacc _ hpos _ =>
    have hacct : t.tPrepath = t.tFilepath := h.accepted heof
    rw [hacct] at hpos
    refine ⟨fun _ => hacc, fun heof'' k hk => ?_⟩
    have hlt : t.key cfg.caseSensitive < t'.key cfg.caseSensitive :=
      (pathcasecmp_pos (hname' heof'').1 hname.1).mp (hpos hname.2)
    rcases hk with hk | rfl
    · exact (h.above heof k hk).trans hlt
    · exact hlt

/-- The transcript was moved, and its new line is not refused. -/
def Moved (cfg : LmergeConfig) (t t' : Tran) : Prop :=
  ∃ buf buf', getnextline cfg buf t = .ok (t', none, buf')

/-- What the loop over the other transcripts comes to, with the transcript `fin` that is the
candidate in the end. -/
structure Compares (cfg : LmergeConfig) (cand : Tran) (c : Compared) (j : Nat)
    (rest rest' : List Tran) (c' : Compared) (fin : Tran) : Prop where
  length : rest'.length = rest.length
  candidate : c'.candidate = c.candidate ∧ fin = cand ∨
    ∃ m, c'.candidate = j + m ∧ rest'[m]? = some fin ∧ fin ∈ rest ∧ fin.tEof = false
  le : fin.key cfg.caseSensitive ≤ cand.key cfg.caseSensitive
  lt : c'.candidate ≠ c.candidate → fin.key cfg.caseSensitive < cand.key cfg.caseSensitive
  matched : c'.skipped = true → c'.matched = true
  each : ∀ m t', rest'[m]? = some t' →
    (t' ∈ rest ∧ (c'.skipped = false → t'.tEof = false → c'.candidate ≠ j + m →
      fin.key cfg.caseSensitive < t'.key cfg.caseSensitive)) ∨
    ∃ t ∈ rest, t.tEof = false ∧ Moved cfg t t' ∧
      fin.key cfg.caseSensitive ≤ t.key cfg.caseSensitive

theorem Compares.nil {cand : Tran} {c : Compared} {j : Nat} (hskip : c.skipped = false) :
    Compares cfg cand c j [] [] c cand where
  length := rfl
  candidate := .inl ⟨rfl, rfl⟩
  le := le_rfl
  lt h := absurd rfl h
  matched h := by simp [hskip] at h
  each m t' h := by simp at h

/-- A transcript that is passed over, or moved, in front of the others. -/
theorem Compares.cons {cand fin t t' : Tran} {c c₁ c' : Compared} {j : Nat}
    {rest rest' : List Tran} (h : Compares cfg cand c₁ (j + 1) rest rest' c' fin)
    (hcand : c₁.candidate = c.candidate)
    (ht : t' = t ∧ (t.tEof = false → cand.key cfg.caseSensitive < t.key cfg.caseSensitive) ∨
      t.tEof = false ∧ Moved cfg t t' ∧ cand.key cfg.caseSensitive ≤ t.key cfg.caseSensitive) :
    Compares cfg cand c j (t :: rest) (t' :: rest') c' fin where
  length := by simp [h.length]
  candidate := by
    rcases h.candidate with ⟨hc, hfin⟩ | ⟨m, hc, hm, hmem, heof⟩
    · exact .inl ⟨hc.trans hcand, hfin⟩
    · exact .inr ⟨m + 1, by omega, hm, List.mem_cons_of_mem _ hmem, heof⟩
  le := h.le
  lt hne := h.lt (by rwa [hcand])
  matched := h.matched
  each m u hm := by
    cases m with
    | zero =>
      obtain rfl := Option.some.inj hm
      rcases ht with ⟨rfl, habove⟩ | ⟨heof, hmoved, hle⟩
      · exact .inl ⟨List.mem_cons_self, fun _ heof _ => h.le.trans_lt (habove heof)⟩
      · exact .inr ⟨t, List.mem_cons_self, heof, hmoved, h.le.trans hle⟩
    | succ m =>
      rcases h.each m u hm with ⟨hmem, habove⟩ | ⟨s, hs, hrest⟩
      · refine .inl ⟨List.mem_cons_of_mem _ hmem, fun hskip heof hne => habove hskip heof ?_⟩
        omega
      · exact .inr ⟨s, List.mem_cons_of_mem _ hs, hrest⟩

/-- A transcript that becomes the candidate. -/
theorem Compares.replace {cand fin t : Tran} {c c₁ c' : Compared} {j : Nat}
    {rest rest' : List Tran} (h : Compares cfg t c₁ (j + 1) rest rest' c' fin)
    (hc₁ : c₁.candidate = j) (heof : t.tEof = false)
    (hless : t.key cfg.caseSensitive < cand.key cfg.caseSensitive) :
    Compares cfg cand c j (t :: rest) (t :: rest') c' fin where
  length := by simp [h.length]
  candidate := by
    rcases h.candidate with ⟨hc, rfl⟩ | ⟨m, hc, hm, hmem, heof'⟩
    · exact .inr ⟨0, hc.trans hc₁, rfl, List.mem_cons_self, heof⟩
    · exact .inr ⟨m + 1, by omega, hm, List.mem_cons_of_mem _ hmem, heof'⟩
  le := h.le.trans hless.le
  lt _ := h.le.trans_lt hless
  matched := h.matched
  each m u hm := by
    cases m with
    | zero =>
      obtain rfl := Option.some.inj hm
      exact .inl ⟨List.mem_cons_self, fun _ _ hne => h.lt (by omega)⟩
    | succ m =>
      rcases h.each m u hm with ⟨hmem, habove⟩ | ⟨s, hs, hrest⟩
      · refine .inl ⟨List.mem_cons_of_mem _ hmem, fun hskip heof hne => habove hskip heof ?_⟩
        omega
      · exact .inr ⟨s, List.mem_cons_of_mem _ hs, hrest⟩

theorem candidateLoop_spec {cand : Tran} {c c' : Compared} {j : Nat} {rest rest' : List Tran}
    {buf buf' : List Byte} (hcand : cand.tEof = false ∧ cand.Named cfg.caseSensitive)
    (hnamed : ∀ t ∈ rest, t.tEof = false → t.Named cfg.caseSensitive)
    (hheeded : ∀ pre t post, rest = pre ++ t :: post →
      (∃ u ∈ cand :: pre, SamePath cfg.caseSensitive u t) → t.Heeded cfg)
    (hskip : c.skipped = false)
    (h : candidateLoop cfg cand c j rest buf = .ok (rest', c', buf')) :
    ∃ fin, Compares cfg cand c j rest rest' c' fin := by
  induction rest generalizing cand c j buf rest' buf' with
  | nil =>
    obtain ⟨rfl, hr⟩ := Prod.mk.inj (Except.ok.inj h)
    obtain ⟨rfl, -⟩ := Prod.mk.inj hr
    exact ⟨cand, .nil hskip⟩
  | cons t rest ih =>
    obtain ⟨ht, hnamed⟩ := List.forall_mem_cons.mp hnamed
    -- the same candidate is compared to what is left
    have hgo : ∀ c₁ : Compared, c₁.candidate = c.candidate → c₁.skipped = false →
        ∀ {buf rest' buf'}, candidateLoop cfg cand c₁ (j + 1) rest buf = .ok (rest', c', buf') →
          ∃ fin, Compares cfg cand c₁ (j + 1) rest rest' c' fin := by
      intro c₁ hc₁ hs₁ buf rest' buf' h
      refine ih hcand hnamed (fun pre u post hsplit ⟨v, hv, hsame⟩ => ?_) hs₁ h
      refine hheeded (t :: pre) u post (by rw [hsplit]; rfl) ⟨v, ?_, hsame⟩
      rcases List.mem_cons.mp hv with rfl | hv
      · exact List.mem_cons_self
      · exact List.mem_cons_of_mem _ (List.mem_cons_of_mem _ hv)
    rw [candidateLoop] at h
    split at h
    · next heof =>
      split at h
      · exact absurd h (by simp)
      next rest₁ c₁ buf₁ hrun =>
      obtain ⟨rfl, hr⟩ := Prod.mk.inj (Except.ok.inj h)
      obtain ⟨rfl, -⟩ := Prod.mk.inj hr
      obtain ⟨fin, hfin⟩ := hgo c rfl hskip hrun
      exact ⟨fin, hfin.cons rfl (.inl ⟨rfl, fun h => by simp [heof] at h⟩)⟩
    next heof =>
    have heof : t.tEof = false := by simpa using heof
    simp only at h
    split at h
    · next hcmp =>
      have hkey : cand.key cfg.caseSensitive = t.key cfg.caseSensitive :=
        (pathcasecmp_eq_zero hcand.2.1 (ht heof).1).mp hcmp
      split at h
      · exact absurd h (by simp)
      · -- the candidate is skipped
        obtain ⟨rfl, hr⟩ := Prod.mk.inj (Except.ok.inj h)
        obtain ⟨rfl, -⟩ := Prod.mk.inj hr
        refine ⟨cand, rfl, .inl ⟨rfl, rfl⟩, le_rfl, fun h => absurd rfl h, fun _ => rfl,
          fun m u hm => .inl ?_⟩
        exact ⟨List.mem_of_getElem? hm, fun h => by simp at h⟩
      · split at h
        · exact absurd h (by simp)
        next t₁ r buf₁ hnext =>
        split at h
        · exact absurd h (by simp)
        next rest₁ c₁ buf₂ hrun =>
        obtain ⟨rfl, hr⟩ := Prod.mk.inj (Except.ok.inj h)
        obtain ⟨rfl, -⟩ := Prod.mk.inj hr
        have hheed := hheeded [] t rest rfl ⟨cand, List.mem_cons_self, hcand.1, heof, hcmp⟩
        have hmoved : Moved cfg t t₁ := by
          cases r with
          | none => exact ⟨_, _, hnext⟩
          | some e => exact absurd hnext (hheed _ _ _ _)
        obtain ⟨fin, hfin⟩ := hgo { c with matched := true, fileloc := _ } rfl hskip hrun
        exact ⟨fin, hfin.cons rfl (.inr ⟨heof, hmoved, hkey.le⟩)⟩
    next hcmp =>
    split at h
    · next hpos =>
      split at h
      · exact absurd h (by simp)
      next rest₁ c₁ buf₁ hrun =>
      obtain ⟨rfl, hr⟩ := Prod.mk.inj (Except.ok.inj h)
      obtain ⟨rfl, -⟩ := Prod.mk.inj hr
      obtain ⟨fin, hfin⟩ := @ih t { c with candidate := j, fileloc := j } (j + 1) _ _ _
        ⟨heof, ht heof⟩ hnamed (fun pre u post hsplit ⟨v, hv, hsame⟩ =>
          hheeded (t :: pre) u post (by rw [hsplit]; rfl) ⟨v, List.mem_cons_of_mem _ hv, hsame⟩)
        hskip hrun
      exact ⟨fin, hfin.replace rfl heof ((pathcasecmp_pos hcand.2.1 (ht heof).1).mp hpos)⟩
    · next hpos =>
      split at h
      · exact absurd h (by simp)
      next rest₁ c₁ buf₁ hrun =>
      obtain ⟨rfl, hr⟩ := Prod.mk.inj (Except.ok.inj h)
      obtain ⟨rfl, -⟩ := Prod.mk.inj hr
      obtain ⟨fin, hfin⟩ := hgo c rfl hskip hrun
      have hneg : pathcasecmp cand.tFilepath t.tFilepath cfg.caseSensitive < 0 := by omega
      exact ⟨fin, hfin.cons rfl
        (.inl ⟨rfl, fun _ => (pathcasecmp_neg hcand.2.1 (ht heof).1).mp hneg⟩)⟩

/-! ## A round -/

/-- A round writes one line or none, and none where the candidate was skipped. -/
theorem output_cases {c : Compared} {cand loc : Tran} {lines : List Written}
    (hmatched : c.skipped = true → c.matched = true) (h : output cfg c cand loc = .ok lines) :
    lines ++ recreated c cand = [] ∨
      lines ++ recreated c cand = [cand.written] ∧ c.skipped = false := by
  have hrec : recreated c cand = [] ∨
      recreated c cand = [cand.written] ∧ cand.tRemove = true ∧ c.matched = false := by
    unfold recreated
    split
    · next hand =>
      simp only [Bool.and_eq_true, Bool.not_eq_true'] at hand
      exact .inr ⟨rfl, hand⟩
    · exact .inl rfl
  have hskip : c.matched = false → c.skipped = false := by
    intro hm
    cases hs : c.skipped with
    | false => rfl
    | true => rw [hmatched hs] at hm; cases hm
  have hnone : lines = [] → lines ++ recreated c cand = [] ∨
      lines ++ recreated c cand = [cand.written] ∧ c.skipped = false := by
    intro hlines
    rw [hlines, List.nil_append]
    exact hrec.imp_right fun ⟨hr, _, hm⟩ => ⟨hr, hskip hm⟩
  unfold output at h
  split at h
  · exact hnone (Except.ok.inj h).symm
  next hs =>
  have hs : c.skipped = false := by simpa using hs
  split at h
  · exact hnone (Except.ok.inj h).symm
  next hremove =>
  simp only [Bool.or_eq_true, not_or] at hremove
  have hone : lines = [cand.written] → lines ++ recreated c cand = [cand.written] := by
    intro hlines
    rcases hrec with hr | ⟨-, hr, -⟩
    · rw [hlines, hr]
      rfl
    · exact absurd hr hremove.1
  split at h
  · exact .inr ⟨hone (Except.ok.inj h).symm, hs⟩
  · split at h
    · exact absurd h (by simp)
    · exact .inr ⟨hone (Except.ok.inj h).symm, hs⟩

/-- What lies above the lines written and, if the candidate is written, above it, lies
above all lines written then. -/
theorem Tran.Above.written {u fin : Tran} {ofs ws : List Written}
    (h : u.Above cfg.caseSensitive fun k =>
      ∃ l ∈ ofs, k = pathKey cfg.caseSensitive l.tFilepath)
    (hws : ws = [] ∨ ws = [fin.written] ∧
      (u.tEof = false → fin.key cfg.caseSensitive < u.key cfg.caseSensitive)) :
    u.Above cfg.caseSensitive fun k =>
      ∃ l ∈ ofs ++ ws, k = pathKey cfg.caseSensitive l.tFilepath := by
  refine ⟨h.accepted, fun heof k ⟨l, hl, hk⟩ => ?_⟩
  rcases List.mem_append.mp hl with hl | hl
  · exact h.above heof k ⟨l, hl, hk⟩
  · rcases hws with rfl | ⟨rfl, hlt⟩
    · exact absurd hl List.not_mem_nil
    · obtain rfl := List.mem_singleton.mp hl
      exact hk ▸ hlt heof

/-- The transcripts before the current one, and those behind it. -/
theorem exists_split {ts : List Tran} {i : Nat} {t : Tran} (h : ts[i]? = some t) :
    ∃ front rest, ts = front ++ t :: rest ∧ front.length = i := by
  obtain ⟨hi, rfl⟩ := List.getElem?_eq_some_iff.mp h
  refine ⟨ts.take i, ts.drop (i + 1), ?_, by simp; omega⟩
  rw [List.getElem_cons_drop, List.take_append_drop]

/-- What a round that does not end the run comes to. -/
structure Rounds (cfg : LmergeConfig) (front : List Tran) (t : Tran) (rest : List Tran)
    (buf : List Byte) (ofs : List Written) (rest' : List Tran) (c : Compared)
    (cand cand' : Tran) (st' : MergeState) : Prop where
  compared : ∃ buf₁ loc lines buf₂, candidateLoop cfg t ⟨front.length, front.length, false, false⟩
      (front.length + 1) rest buf = .ok (rest', c, buf₁) ∧
    (front ++ t :: rest')[c.fileloc]? = some loc ∧ output cfg c cand loc = .ok lines ∧
    getnextline cfg buf₁ cand = .ok (cand', none, buf₂) ∧
    st' = ⟨front.length, (front ++ t :: rest').set c.candidate cand', buf₂,
      ofs ++ (lines ++ recreated c cand)⟩
  candidate : (front ++ t :: rest')[c.candidate]? = some cand

theorem mergeRound_iff {front : List Tran} {t : Tran} {rest : List Tran} {buf : List Byte}
    {ofs : List Written} {st' : MergeState} :
    mergeRound cfg ⟨front.length, front ++ t :: rest, buf, ofs⟩ t = .ok st' ↔
      ∃ rest' c cand cand', Rounds cfg front t rest buf ofs rest' c cand cand' st' := by
  have htake : (front ++ t :: rest).take (front.length + 1) = front ++ [t] := by
    rw [List.take_append, List.take_of_length_le (Nat.le_succ _)]
    simp
  have hdrop : (front ++ t :: rest).drop (front.length + 1) = rest := by
    rw [List.drop_append, List.drop_of_length_le (Nat.le_succ _)]
    simp
  have hassoc : ∀ rest', front ++ [t] ++ rest' = front ++ t :: rest' := by simp
  unfold mergeRound
  simp only [htake, hdrop, hassoc]
  constructor
  · intro h
    split at h
    · exact absurd h (by simp)
    next rest' c buf₁ hrun =>
    split at h
    · next cand loc hcand hloc =>
      split at h
      · exact absurd h (by simp)
      next lines hout =>
      split at h
      · exact absurd h (by simp)
      · exact absurd h (by simp)
      next cand' buf₂ hnext =>
      obtain rfl := Except.ok.inj h
      exact ⟨rest', c, cand, cand',
        ⟨buf₁, loc, lines, buf₂, hrun, hloc, hout, hnext, by rw [List.append_assoc]⟩, hcand⟩
    · exact absurd h (by simp)
  · intro ⟨rest', c, cand, cand', ⟨buf₁, loc, lines, buf₂, hrun, hloc, hout, hnext, hst⟩, hcand⟩
    rw [hrun]
    simp only [hcand, hloc, hout, hnext, hst, List.append_assoc]

theorem mergeRound_sortedSoFar {st st' : MergeState} {t : Tran} (ht : st.trans[st.i]? = some t)
    (heof : t.tEof = false) (hst : Attended cfg st) (hst' : Attended cfg st')
    (h : SortedSoFar cfg.caseSensitive st) (hround : mergeRound cfg st t = .ok st') :
    SortedSoFar cfg.caseSensitive st' := by
  obtain ⟨i, ts, buf, ofs⟩ := st
  obtain ⟨front, rest, rfl, rfl⟩ := exists_split ht
  obtain ⟨rest', c, cand, cand', ⟨buf₁, loc, lines, buf₂, hrun, -, hout, hnext, rfl⟩, hcand⟩ :=
    mergeRound_iff.mp hround
  have htmem : t ∈ front ++ t :: rest := by simp
  obtain ⟨fin, hfin⟩ := candidateLoop_spec ⟨heof, hst.named _ htmem heof⟩
    (fun u hu => hst.named u (by simp [hu]))
    (fun pre u post hrest ⟨v, hv, hsame⟩ => hst.heeded (front ++ t :: pre) u post
      (by rw [hrest]; simp) ⟨v, by simpa using Or.inr (List.mem_cons.mp hv), hsame⟩) rfl hrun
  have hall := h.trans
  -- the candidate is the transcript the loop ends with
  have hcase : fin = cand ∧ (c.candidate = front.length ∧ cand = t ∨
      ∃ m, c.candidate = front.length + 1 + m ∧ cand ∈ rest ∧ cand.tEof = false) := by
    rcases hfin.candidate with ⟨hc, hfint⟩ | ⟨m, hc, hm, hmem, hfeof⟩
    · rw [hc, List.getElem?_append_right le_rfl] at hcand
      have hct : cand = t := by simpa using hcand.symm
      exact ⟨hfint.trans hct.symm, .inl ⟨hc, hct⟩⟩
    · rw [hc, List.getElem?_append_right (by omega),
        show front.length + 1 + m - front.length = m + 1 by omega, List.getElem?_cons_succ] at hcand
      obtain rfl := Option.some.inj (hm.symm.trans hcand)
      exact ⟨rfl, .inr ⟨m, hc, hmem, hfeof⟩⟩
  obtain ⟨rfl, hcase⟩ := hcase
  have hfmem : fin ∈ front ++ t :: rest := by
    rcases hcase with ⟨-, rfl⟩ | ⟨m, -, hmem, -⟩
    · exact htmem
    · simp [hmem]
  have hfeof : fin.tEof = false := by
    rcases hcase with ⟨-, rfl⟩ | ⟨m, -, -, hfeof⟩
    · exact heof
    · exact hfeof
  have hindex : front.length ≤ c.candidate := by
    rcases hcase with ⟨hc, -⟩ | ⟨m, hc, -⟩ <;> omega
  have hfname := hst.named fin hfmem hfeof
  have hwrites := output_cases hfin.matched hout
  have habove : ∀ l ∈ ofs, pathKey cfg.caseSensitive l.tFilepath < fin.key cfg.caseSensitive :=
    fun l hl => (hall fin hfmem).above hfeof _ ⟨l, hl, rfl⟩
  -- what is above the lines before and above the candidate is above what is written now
  have hwritten : ∀ u : Tran, u.Above cfg.caseSensitive (fun k =>
        ∃ l ∈ ofs, k = pathKey cfg.caseSensitive l.tFilepath) →
      (c.skipped = false → u.tEof = false →
        fin.key cfg.caseSensitive < u.key cfg.caseSensitive) →
      u.Above cfg.caseSensitive fun k =>
        ∃ l ∈ ofs ++ (lines ++ recreated c fin), k = pathKey cfg.caseSensitive l.tFilepath := by
    intro u hu hlt
    have hw := hwrites.imp_right fun ⟨hw, hs⟩ => And.intro hw (hlt hs)
    exact hu.written hw
  -- a transcript that is moved, from at or above the candidate
  have hmoved : ∀ s ∈ front ++ t :: rest, s.tEof = false → ∀ u : Tran, Moved cfg s u →
      (u.tEof = false → u.Named cfg.caseSensitive) →
      fin.key cfg.caseSensitive ≤ s.key cfg.caseSensitive →
      u.Above cfg.caseSensitive fun k =>
        ∃ l ∈ ofs ++ (lines ++ recreated c fin), k = pathKey cfg.caseSensitive l.tFilepath := by
    intro s hs hseof u ⟨b, b', hget⟩ hname hle
    have hnext' := (hall s hs).next hseof (hst.named s hs hseof) rfl hget hname
    refine hwritten u ⟨hnext'.accepted, fun heof k hk => hnext'.above heof k (.inl hk)⟩ ?_
    exact fun _ heof => hle.trans_lt (hnext'.above heof _ (.inr rfl))
  refine ⟨?_, ?_, ?_, ?_⟩
  · show PathsAscend cfg.caseSensitive (ofs ++ (lines ++ recreated c fin))
    rcases hwrites with hw | ⟨hw, -⟩
    · rw [hw, List.append_nil]
      exact h.ofs
    · rw [hw]
      refine List.pairwise_append.mpr ⟨h.ofs, List.pairwise_singleton _ _, fun l hl w hw => ?_⟩
      obtain rfl := List.mem_singleton.mp hw
      exact (pathcasecmp_neg (h.ranked l hl) hfname.1).mpr (habove l hl)
  · intro l hl
    rcases List.mem_append.mp hl with hl | hl
    · exact h.ranked l hl
    · rcases hwrites with hw | ⟨hw, -⟩
      · rw [hw] at hl
        exact absurd hl List.not_mem_nil
      · rw [hw] at hl
        obtain rfl := List.mem_singleton.mp hl
        exact hfname.1
  · show ∀ u ∈ ((front ++ t :: rest').set c.candidate cand').take front.length, u.tEof = true
    rw [List.take_set_of_le hindex, List.take_append_of_le_length le_rfl]
    have hbefore := h.before
    rwa [List.take_append_of_le_length le_rfl] at hbefore
  · intro u hu
    have hname : u.tEof = false → u.Named cfg.caseSensitive := hst'.named u hu
    obtain ⟨k, hk⟩ := List.mem_iff_getElem?.mp hu
    rw [List.getElem?_set] at hk
    split_ifs at hk with hkc hlen
    · obtain rfl := Option.some.inj hk
      exact hmoved fin hfmem hfeof _ ⟨_, _, hnext⟩ hname le_rfl
    · rcases lt_trichotomy k front.length with hlt | rfl | hgt
      · -- it was at its end before
        rw [List.getElem?_append_left hlt] at hk
        have huend : u.tEof = true := by
          refine h.before u ?_
          rw [List.take_append_of_le_length le_rfl, List.take_length]
          exact List.mem_of_getElem? hk
        exact ⟨fun h => by simp [huend] at h, fun h => by simp [huend] at h⟩
      · rw [List.getElem?_append_right le_rfl, Nat.sub_self] at hk
        obtain rfl : t = u := Option.some.inj hk
        exact hwritten t (hall t htmem) fun _ _ => hfin.lt hkc
      · obtain ⟨m, rfl⟩ : ∃ m, k = front.length + 1 + m := ⟨k - (front.length + 1), by omega⟩
        rw [List.getElem?_append_right (by omega),
          show front.length + 1 + m - front.length = m + 1 by omega,
          List.getElem?_cons_succ] at hk
        rcases hfin.each m u hk with ⟨hmem, hlt⟩ | ⟨s, hs, hseof, hsu, hle⟩
        · refine hwritten u (hall u (by simp [hmem])) fun hs heof => hlt hs heof ?_
          exact hkc
        · exact hmoved s (by simp [hs]) hseof u hsu hname hle

/-- A step keeps the order. -/
theorem mergeStep_sortedSoFar {st st' : MergeState} (hst : Attended cfg st)
    (hst' : Attended cfg st') (h : SortedSoFar cfg.caseSensitive st)
    (hstep : mergeStep cfg st = .ok (some st')) : SortedSoFar cfg.caseSensitive st' := by
  unfold mergeStep at hstep
  split at hstep
  · exact absurd hstep (by simp)
  next t ht =>
  split at hstep
  · next heof =>
    obtain rfl := Option.some.inj (Except.ok.inj hstep)
    refine ⟨h.ofs, h.ranked, fun u hu => ?_, h.trans⟩
    obtain ⟨hi, hti⟩ := List.getElem?_eq_some_iff.mp ht
    rw [List.take_succ_eq_append_getElem hi] at hu
    rcases List.mem_append.mp hu with hu | hu
    · exact h.before u hu
    · rw [List.mem_singleton.mp hu, hti]
      exact heof
  · next heof =>
    cases hround : mergeRound cfg st t with
    | error e =>
      rw [hround] at hstep
      cases hstep
    | ok st₁ =>
      rw [hround] at hstep
      obtain rfl := Option.some.inj (Except.ok.inj hstep)
      exact mergeRound_sortedSoFar ht (by simpa using heof) hst hst' h hround

/-! ## The run -/

theorem MergeReaches.sortedSoFar {start st : MergeState}
    (hstart : SortedSoFar cfg.caseSensitive start)
    (hall : ∀ st, MergeReaches cfg start st → Attended cfg st)
    (h : MergeReaches cfg start st) : SortedSoFar cfg.caseSensitive st := by
  induction h with
  | start => exact hstart
  | @step st st' hr hstep ih =>
    exact mergeStep_sortedSoFar (hall st hr) (hall st' (hr.step hstep)) ih hstep

/-- What a run has written in the end is what it had written in its last state. -/
theorem mergeLoop_reaches {fuel : Nat} {start st : MergeState} {dest : List Written}
    (hr : MergeReaches cfg start st) (h : mergeLoop cfg fuel st = .ok dest) :
    ∃ st', MergeReaches cfg start st' ∧ st'.ofs = dest := by
  induction fuel generalizing st with
  | zero => exact absurd h (by simp [mergeLoop])
  | succ fuel ih =>
    rw [mergeLoop] at h
    split at h
    · exact absurd h (by simp)
    · exact ⟨st, hr, Except.ok.inj h⟩
    · next st₁ hstep => exact ih (hr.step hstep) h

/-- A transcript that was opened and is at a path was not refused. -/
theorem openTrans_accepted {inputs : List LmergeInput} {buf buf' : List Byte} {ts : List Tran}
    (h : openTrans cfg inputs buf = .ok (ts, buf')) :
    ∀ t ∈ ts, t.tEof = false → t.tFilepath ≠ [] → t.Accepted := by
  induction inputs generalizing buf buf' ts with
  | nil =>
    obtain ⟨rfl, -⟩ := Prod.mk.inj (Except.ok.inj h)
    exact fun t ht => absurd ht List.not_mem_nil
  | cons input inputs ih =>
    rw [openTrans] at h
    split at h
    · exact absurd h (by simp)
    next t r buf₁ hnext =>
    split at h
    · exact absurd h (by simp)
    next ts₁ buf₂ hopen =>
    obtain ⟨rfl, -⟩ := Prod.mk.inj (Except.ok.inj h)
    refine List.forall_mem_cons.mpr ⟨fun heof hne => ?_, ih hopen⟩
    obtain ⟨hcases, -⟩ := getnextline_cases hnext
    cases hcases with
    | atEnd hend _ => simp [hend] at heof
    | accepted _ hacc => exact hacc
    | refused hsame => exact absurd (hsame rfl) hne

end

/-! ### Two transcripts -/

def sortedConfig : LmergeConfig where
  caseSensitive := true
  noupload := false
  mergeTransOnly := true
  fileRoot := lit "/file"
  tranName := lit "dest.T"
  pid := lit "1"
  link _ _ := true

def inputOf (content : String) : LmergeInput := ⟨lit "/file", lit "T", lit content⟩

def sortedInputs : List LmergeInput := [inputOf "d /a 0755 0 0\n", inputOf "d /b 0755 0 0\n"]

/-- The state after a number of steps. -/
def stepped (cfg : LmergeConfig) (st : MergeState) : Nat → MergeState
  | 0 => st
  | n + 1 =>
    match mergeStep cfg (stepped cfg st n) with
    | .ok (some st') => st'
    | _ => stepped cfg st n

theorem MergeReaches.stepped {cfg : LmergeConfig} {start st : MergeState} {n : Nat}
    (hend : mergeStep cfg (Radmind.stepped cfg start n) = .ok none)
    (h : MergeReaches cfg start st) : ∃ k ≤ n, st = Radmind.stepped cfg start k := by
  induction h with
  | start => exact ⟨0, Nat.zero_le _, rfl⟩
  | @step st st' _ hstep ih =>
    obtain ⟨k, hk, rfl⟩ := ih
    rcases hk.lt_or_eq with hlt | rfl
    · exact ⟨k + 1, hlt, by rw [Radmind.stepped, hstep]⟩
    · rw [hend] at hstep
      cases hstep

theorem attended_pair {cfg : LmergeConfig} {i : Nat} {a b : Tran} {buf : List Byte}
    {ofs : List Written} (hnamed : ∀ t ∈ [a, b], t.tEof = false → t.Named cfg.caseSensitive)
    (hpath : ¬ SamePath cfg.caseSensitive a b) : Attended cfg ⟨i, [a, b], buf, ofs⟩ := by
  refine ⟨hnamed, fun pre t post hsplit ⟨u, hu, hsame⟩ => ?_⟩
  rcases pre with _ | ⟨c, _ | ⟨d, pre⟩⟩
  · exact absurd hu List.not_mem_nil
  · obtain rfl := List.mem_singleton.mp hu
    simp only [List.singleton_append, List.cons.injEq] at hsplit
    obtain ⟨rfl, rfl, -⟩ := hsplit
    exact absurd hsame hpath
  · simp at hsplit

def sortedStart : MergeState :=
  match openTrans sortedConfig sortedInputs [] with
  | .ok (ts, buf) => ⟨0, ts, buf, []⟩
  | .error _ => ⟨0, [], [], []⟩

set_option maxRecDepth 8000 in
theorem sortedStart_attended {st : MergeState} (h : MergeReaches sortedConfig sortedStart st) :
    Attended sortedConfig st := by
  obtain ⟨k, hk, rfl⟩ := @MergeReaches.stepped _ _ _ 4 (by decide) h
  have hpair : ∀ k ≤ 4, ∃ i a b buf ofs,
      stepped sortedConfig sortedStart k = ⟨i, [a, b], buf, ofs⟩ ∧
      (∀ t ∈ [a, b], t.tEof = false → t.Named true) ∧ ¬ SamePath true a b := by
    intro k hk
    interval_cases k
    all_goals
      refine ⟨_, _, _, _, _, rfl, ?_⟩
      unfold Tran.Named SamePath Ranked RankedByte
      decide
  obtain ⟨i, a, b, buf, ofs, heq, hnamed, hpath⟩ := hpair k hk
  rw [heq]
  exact attended_pair hnamed hpath

/-- A transcript out of order, whose first path is that of the transcript before it. -/
def unsortedInputs : List LmergeInput :=
  [inputOf "d /m 0755 0 0\n", inputOf "d /m 0755 0 0\nd /a 0755 0 0\n"]

end Radmind
