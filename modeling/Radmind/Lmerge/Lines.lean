import Radmind.Lib.AheadMerge
import Radmind.Lmerge.Sorted

/-!
# The lines of the transcripts to merge

A transcript that is in order stands for the list of its lines from the current one on.  Where
they are in order a round of the merge is a walk along these lists.
-/

namespace Radmind

open PrecedenceMerge

/-- What `getnextline` makes of a line. -/
structure LmergeEntry where
  tRemove : Bool
  tFilepath : CStr
  tLine : CStr
  tArgv : List CStr
  deriving DecidableEq, Repr

def Tran.entry (tran : Tran) : LmergeEntry :=
  ⟨tran.tRemove, tran.tFilepath, tran.tLine, tran.tArgv⟩

def LmergeEntry.written (e : LmergeEntry) : Written := ⟨e.tFilepath, e.tLine⟩

/-- The lines of a transcript from its current line on, which do not depend on what `decode`
did before. -/
inductive LmergeLines (cfg : LmergeConfig) : Tran → List LmergeEntry → Prop
  | atEnd {t : Tran} : t.tEof = true → LmergeLines cfg t []
  | line {t t' : Tran} {es : List LmergeEntry} : t.tEof = false →
      (∀ buf, ∃ buf', getnextline cfg buf t = .ok (t', none, buf')) → LmergeLines cfg t' es →
      LmergeLines cfg t (t.entry :: es)

/-- The lines of a transcript that is opened. -/
def Opens (cfg : LmergeConfig) (input : LmergeInput) (es : List LmergeEntry) : Prop :=
  ∃ t, (∀ buf, ∃ buf', getnextline cfg buf input.open = .ok (t, none, buf')) ∧
    LmergeLines cfg t es

section

variable {cfg : LmergeConfig} {t : Tran} {es : List LmergeEntry}

theorem LmergeLines.eof_inv (h : LmergeLines cfg t es) (heof : t.tEof = true) : es = [] := by
  cases h with
  | atEnd => rfl
  | line hne => simp [heof] at hne

theorem LmergeLines.cons_inv (h : LmergeLines cfg t es) (heof : t.tEof = false) :
    ∃ t' es', es = t.entry :: es' ∧
      (∀ buf, ∃ buf', getnextline cfg buf t = .ok (t', none, buf')) ∧ LmergeLines cfg t' es' := by
  cases h with
  | atEnd h => simp [heof] at h
  | line _ hnext hl => exact ⟨_, _, rfl, hnext, hl⟩

theorem LmergeLines.of_cons {e : LmergeEntry} (h : LmergeLines cfg t (e :: es)) :
    t.tEof = false ∧ t.entry = e := by
  cases h with
  | line heof => exact ⟨heof, rfl⟩

theorem LmergeLines.nulFree (h : LmergeLines cfg t es) (ht : t.tEof = false → NulFree t.tFilepath) :
    ∀ e ∈ es, NulFree e.tFilepath := by
  induction h with
  | atEnd => exact fun e he => absurd he List.not_mem_nil
  | @line t t' es heof hnext hl ih =>
    refine List.forall_mem_cons.mpr ⟨ht heof, ih fun heof' => ?_⟩
    obtain ⟨buf', hnext⟩ := hnext []
    obtain ⟨hcases, -⟩ := getnextline_cases hnext
    cases hcases with
    | atEnd hend _ => simp [hend] at heof'
    | accepted _ _ hnul => exact hnul

theorem Opens.nulFree {input : LmergeInput} (h : Opens cfg input es) :
    ∀ e ∈ es, NulFree e.tFilepath := by
  obtain ⟨t, hnext, hl⟩ := h
  refine hl.nulFree fun heof => ?_
  obtain ⟨buf', hnext⟩ := hnext []
  obtain ⟨hcases, -⟩ := getnextline_cases hnext
  cases hcases with
  | atEnd hend _ => simp [hend] at heof
  | accepted _ _ hnul => exact hnul

theorem unread_next {t' : Tran} {buf buf' : List Byte} (heof : t.tEof = false)
    (h : getnextline cfg buf t = .ok (t', none, buf')) : t'.unread < t.unread := by
  obtain ⟨hcases, -⟩ := getnextline_cases h
  cases hcases with
  | atEnd hend hle =>
    simp only [Tran.unread, hend, heof, if_true]
    simp
    omega
  | accepted heof' _ _ _ hlt =>
    simp only [Tran.unread, heof', heof]
    omega

theorem openTrans_lines {inputs : List LmergeInput} {ess : List (List LmergeEntry)}
    (h : List.Forall₂ (Opens cfg) inputs ess) (buf : List Byte) :
    ∃ ts buf', openTrans cfg inputs buf = .ok (ts, buf') ∧
      List.Forall₂ (LmergeLines cfg) ts ess ∧
      ts.map Tran.roots = inputs.map fun i => (i.fileRoot, i.tranName) := by
  induction h generalizing buf with
  | nil => exact ⟨[], buf, rfl, .nil, rfl⟩
  | @cons input es inputs ess hopen _ ih =>
    obtain ⟨t, hnext, hl⟩ := hopen
    obtain ⟨buf₁, hnext⟩ := hnext buf
    obtain ⟨ts, buf₂, hts, hls, hroots⟩ := ih buf₁
    refine ⟨t :: ts, buf₂, ?_, .cons hl hls, ?_⟩
    · simp only [openTrans, hnext, hts]
    · rw [List.map_cons, List.map_cons, hroots, (getnextline_cases hnext).2]
      rfl

end

/-- What orders the lines, with regard to case. -/
def LmergeEntry.key (e : LmergeEntry) : List Nat := pathKey true e.tFilepath

section

variable {cfg : LmergeConfig}

/-- The loop over the other transcripts is a walk along their lines. -/
theorem candidateLoop_walk (hcs : cfg.caseSensitive = true) (hup : cfg.noupload = false)
    {cand : Tran} {c : Compared} {j : Nat} {rest : List Tran} {curs : List (List LmergeEntry)}
    (hcand : NulFree cand.tFilepath) (hl : List.Forall₂ (LmergeLines cfg) rest curs)
    (hnul : ∀ es ∈ curs, ∀ e ∈ es, NulFree e.tFilepath) (hskip : c.skipped = false)
    (hloc : c.fileloc = c.candidate) (buf : List Byte) :
    ∃ rest' c' buf', candidateLoop cfg cand c j rest buf = .ok (rest', c', buf') ∧
      List.Forall₂ (LmergeLines cfg) rest'
        (walk LmergeEntry.key j (some (c.candidate, cand.entry)) curs).sources ∧
      (walk LmergeEntry.key j (some (c.candidate, cand.entry)) curs).lead.map Prod.fst =
        some c'.candidate ∧
      c'.matched = (c.matched ||
        (walk LmergeEntry.key j (some (c.candidate, cand.entry)) curs).moved) ∧
      c'.skipped = false ∧ c'.fileloc = c'.candidate ∧
      rest'.map Tran.roots = rest.map Tran.roots ∧
      (rest'.map Tran.unread).sum ≤ (rest.map Tran.unread).sum := by
  induction hl generalizing cand c j buf with
  | nil => exact ⟨[], c, buf, rfl, .nil, rfl, by simp [walk], hskip, hloc, rfl, le_rfl⟩
  | @cons t es rest curs ht hl ih =>
    obtain ⟨hes, hrest⟩ := List.forall_mem_cons.mp hnul
    rw [candidateLoop]
    cases heof : t.tEof with
    | true =>
      obtain rfl := ht.eof_inv heof
      obtain ⟨rest', c', buf', hrun, hls, hlead, hmatched, hs, hf, hroots, hunread⟩ :=
        @ih cand c (j + 1) hcand hrest hskip hloc buf
      refine ⟨t :: rest', c', buf', by simp only [if_true, hrun], ?_, ?_, ?_, hs, hf, ?_, ?_⟩
      · rw [walk]
        exact .cons ht hls
      · rw [walk]
        exact hlead
      · rw [walk]
        exact hmatched
      · rw [List.map_cons, List.map_cons, hroots]
      · simpa using hunread
    | false =>
      obtain ⟨t', es', rfl, hnext, hl'⟩ := ht.cons_inv heof
      have htnul : NulFree t.tFilepath := hes _ List.mem_cons_self
      have hneg : pathcasecmp cand.tFilepath t.tFilepath true < 0 ↔
          cand.entry.key < t.entry.key := pathcmp_neg hcand htnul
      have hzero : pathcasecmp cand.tFilepath t.tFilepath true = 0 ↔
          t.entry.key = cand.entry.key :=
        (pathcasecmp_eq_zero (ranked_of_nulFree hcand) (ranked_of_nulFree htnul)).trans eq_comm
      have hpos : 0 < pathcasecmp cand.tFilepath t.tFilepath true ↔
          t.entry.key < cand.entry.key :=
        pathcasecmp_pos (ranked_of_nulFree hcand) (ranked_of_nulFree htnul)
      simp only [Bool.false_eq_true, if_false, hcs, hup, Bool.false_and]
      rw [walk]
      by_cases hcmp : pathcasecmp cand.tFilepath t.tFilepath true = 0
      · -- the line of the other transcript is passed by
        obtain ⟨buf₁, hnext⟩ := hnext buf
        obtain ⟨rest', c', buf', hrun, hls, hlead, hmatched, hs, hf, hroots, hunread⟩ :=
          @ih cand { c with matched := true } (j + 1) hcand hrest hskip hloc buf₁
        rw [if_pos (hzero.mp hcmp)]
        refine ⟨t' :: rest', c', buf', ?_, .cons hl' hls, hlead, ?_, hs, hf, ?_, ?_⟩
        · simp only [if_pos hcmp, hnext, hrun]
        · rw [hmatched]
          simp
        · rw [List.map_cons, List.map_cons, hroots, (getnextline_cases hnext).2]
        · have := unread_next heof hnext
          simp only [List.map_cons, List.sum_cons]
          omega
      · rw [if_neg (fun h => hcmp (hzero.mpr h))]
        by_cases hgt : 0 < pathcasecmp cand.tFilepath t.tFilepath true
        · obtain ⟨rest', c', buf', hrun, hls, hlead, hmatched, hs, hf, hroots, hunread⟩ :=
            @ih t { c with candidate := j, fileloc := j } (j + 1) htnul hrest hskip rfl buf
          rw [if_pos (hpos.mp hgt)]
          refine ⟨t :: rest', c', buf', ?_, .cons ht hls, hlead, hmatched, hs, hf, ?_, ?_⟩
          · simp only [if_neg hcmp, gt_iff_lt, if_pos hgt, hrun]
          · rw [List.map_cons, List.map_cons, hroots]
          · simpa using hunread
        · obtain ⟨rest', c', buf', hrun, hls, hlead, hmatched, hs, hf, hroots, hunread⟩ :=
            @ih cand c (j + 1) hcand hrest hskip hloc buf
          rw [if_neg (fun h => hgt (hpos.mpr h))]
          refine ⟨t :: rest', c', buf', ?_, .cons ht hls, hlead, hmatched, hs, hf, ?_, ?_⟩
          · simp only [if_neg hcmp, gt_iff_lt, if_neg hgt, hrun]
          · rw [List.map_cons, List.map_cons, hroots]
          · simpa using hunread

end

end Radmind
