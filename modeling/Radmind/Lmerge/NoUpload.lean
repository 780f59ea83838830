import Radmind.Lmerge.Precedence

/-!
# Merging with a transcript that has no files

`lmerge -n` merges two transcripts, and the first has no files of its own.  Its lines are
written where both list the file.  A match moves the second transcript also where the first has
a line of another type, and then that path is in no line.
-/

namespace Radmind

/-- What orders the lines, with regard to case or not. -/
def LmergeEntry.orderKey (caseSensitive : Bool) (e : LmergeEntry) : List Nat :=
  pathKey caseSensitive e.tFilepath

/-- Whether a match goes on to the transcript behind: with files, if they are the same. -/
def sameEntry (e f : LmergeEntry) : Option Bool :=
  if isFileLine e.tArgv then sameFile e.tArgv f.tArgv else some true

/-- A line of the first transcript without a match. -/
def unmatchedLines (e : LmergeEntry) : List LmergeEntry := if e.tRemove then [e] else []

/-- A line of the first transcript with a match that is passed by. -/
def matchedLines (e : LmergeEntry) : List LmergeEntry :=
  if e.tRemove = false ∧ isFileLine e.tArgv = true then [e] else []

/-- The lines that are written of two transcripts. -/
def noUploadMerge (cs : Bool) : List LmergeEntry → List LmergeEntry → List LmergeEntry
  | [], fs => fs
  | e :: es, [] => unmatchedLines e ++ noUploadMerge cs es []
  | e :: es, f :: fs =>
    if e.orderKey cs = f.orderKey cs then
      if sameEntry e f = some true then matchedLines e ++ noUploadMerge cs es fs
      else noUploadMerge cs es (f :: fs)
    else if f.orderKey cs < e.orderKey cs then f :: noUploadMerge cs (e :: es) fs
    else unmatchedLines e ++ noUploadMerge cs es (f :: fs)
termination_by es fs => es.length + fs.length

/-- Lines of files with the same path have their words. -/
def Comparable (cs : Bool) (es fs : List LmergeEntry) : Prop :=
  ∀ e ∈ es, ∀ f ∈ fs, pathcasecmp e.tFilepath f.tFilepath cs = 0 → sameEntry e f ≠ none

/-- A path that the second transcript lists, and neither with '-', has one line. -/
def NothingLost (cs : Bool) (es fs : List LmergeEntry) (dest : List Written) : Prop :=
  ∀ f ∈ fs, f.tRemove = false →
    (∀ e ∈ es, pathcasecmp e.tFilepath f.tFilepath cs = 0 → e.tRemove = false) →
    dest.countP (fun l => pathcasecmp l.tFilepath f.tFilepath cs = 0) = 1

/-- Where both transcripts list a path, and neither with '-', the first lists a file. -/
def SharedAreFiles (cs : Bool) (es fs : List LmergeEntry) : Prop :=
  ∀ e ∈ es, ∀ f ∈ fs, pathcasecmp e.tFilepath f.tFilepath cs = 0 →
    e.tRemove = false → f.tRemove = false → isFileLine e.tArgv = true

/-! ## The lines of a merge -/

section

variable {cs : Bool} {es fs : List LmergeEntry} {k : List Nat}

theorem mem_noUploadMerge {x : LmergeEntry} (h : x ∈ noUploadMerge cs es fs) :
    x ∈ es ∨ x ∈ fs := by
  induction es, fs using noUploadMerge.induct cs with
  | case1 fs =>
    rw [noUploadMerge] at h
    exact .inr h
  | case2 e es ih =>
    rw [noUploadMerge] at h
    rcases List.mem_append.mp h with h | h
    · unfold unmatchedLines at h
      split_ifs at h
      · exact .inl (List.mem_singleton.mp h ▸ List.mem_cons_self)
      · exact absurd h List.not_mem_nil
    · exact (ih h).imp_left (List.mem_cons_of_mem _)
  | case3 e es f fs hkey hsame ih =>
    rw [noUploadMerge, if_pos hkey, if_pos hsame] at h
    rcases List.mem_append.mp h with h | h
    · unfold matchedLines at h
      split_ifs at h
      · exact .inl (List.mem_singleton.mp h ▸ List.mem_cons_self)
      · exact absurd h List.not_mem_nil
    · exact (ih h).imp (List.mem_cons_of_mem _) (List.mem_cons_of_mem _)
  | case4 e es f fs hkey hsame ih =>
    rw [noUploadMerge, if_pos hkey, if_neg hsame] at h
    exact (ih h).imp_left (List.mem_cons_of_mem _)
  | case5 e es f fs hkey hlt ih =>
    rw [noUploadMerge, if_neg hkey, if_pos hlt] at h
    rcases List.mem_cons.mp h with rfl | h
    · exact .inr List.mem_cons_self
    · exact (ih h).imp_right (List.mem_cons_of_mem _)
  | case6 e es f fs hkey hlt ih =>
    rw [noUploadMerge, if_neg hkey, if_neg hlt] at h
    rcases List.mem_append.mp h with h | h
    · unfold unmatchedLines at h
      split_ifs at h
      · exact .inl (List.mem_singleton.mp h ▸ List.mem_cons_self)
      · exact absurd h List.not_mem_nil
    · exact (ih h).imp_left (List.mem_cons_of_mem _)

/-- The number of lines with a key. -/
def linesOfKey (cs : Bool) (k : List Nat) (es : List LmergeEntry) : Nat :=
  es.countP fun e => e.orderKey cs = k

theorem linesOfKey_eq_zero (h : ∀ e ∈ es, e.orderKey cs ≠ k) : linesOfKey cs k es = 0 :=
  List.countP_eq_zero.mpr fun e he => by simpa using h e he

theorem linesOfKey_append {es' : List LmergeEntry} :
    linesOfKey cs k (es ++ es') = linesOfKey cs k es + linesOfKey cs k es' :=
  List.countP_append

theorem linesOfKey_cons {e : LmergeEntry} :
    linesOfKey cs k (e :: es) = linesOfKey cs k es + if e.orderKey cs = k then 1 else 0 := by
  simp [linesOfKey, List.countP_cons]

theorem linesOfKey_unmatched {e : LmergeEntry} (h : e.orderKey cs ≠ k) :
    linesOfKey cs k (unmatchedLines e) = 0 := by
  refine linesOfKey_eq_zero fun x hx => ?_
  unfold unmatchedLines at hx
  split_ifs at hx
  · rwa [List.mem_singleton.mp hx]
  · exact absurd hx List.not_mem_nil

theorem linesOfKey_matched {e : LmergeEntry} (h : e.orderKey cs ≠ k) :
    linesOfKey cs k (matchedLines e) = 0 := by
  refine linesOfKey_eq_zero fun x hx => ?_
  unfold matchedLines at hx
  split_ifs at hx
  · rwa [List.mem_singleton.mp hx]
  · exact absurd hx List.not_mem_nil

/-- Both transcripts ascend. -/
def OrderAscends (cs : Bool) (es : List LmergeEntry) : Prop :=
  es.Pairwise fun e f => e.orderKey cs < f.orderKey cs

/-- A key below all that is left is in no line. -/
theorem linesOfKey_below (hes : ∀ e ∈ es, k < e.orderKey cs) (hfs : ∀ f ∈ fs, k < f.orderKey cs) :
    linesOfKey cs k (noUploadMerge cs es fs) = 0 := by
  refine linesOfKey_eq_zero fun x hx => ?_
  rcases mem_noUploadMerge hx with hx | hx
  · exact (hes x hx).ne'
  · exact (hfs x hx).ne'

theorem linesOfKey_eq_one (hfs : OrderAscends cs fs) {f : LmergeEntry} (hf : f ∈ fs) :
    linesOfKey cs (f.orderKey cs) fs = 1 := by
  induction fs with
  | nil => exact absurd hf List.not_mem_nil
  | cons g fs ih =>
    obtain ⟨hlt, hfs⟩ := List.pairwise_cons.mp hfs
    rw [linesOfKey_cons]
    rcases List.mem_cons.mp hf with rfl | hf
    · rw [linesOfKey_eq_zero fun e he => (hlt e he).ne', if_pos rfl]
    · rw [ih hfs hf, if_neg (hlt f hf).ne]

/-- A path of the second transcript has a line exactly where no line of another type than a
file is listed for it by the first. -/
theorem linesOfKey_noUploadMerge (hes : OrderAscends cs es) (hfs : OrderAscends cs fs)
    {f : LmergeEntry} (hf : f ∈ fs)
    (hremove : ∀ e ∈ es, e.orderKey cs = f.orderKey cs → e.tRemove = false) :
    linesOfKey cs (f.orderKey cs) (noUploadMerge cs es fs) = 1 ↔
      ∀ e ∈ es, e.orderKey cs = f.orderKey cs → isFileLine e.tArgv = true := by
  induction es, fs using noUploadMerge.induct cs with
  | case1 fs =>
    rw [noUploadMerge]
    exact ⟨fun _ e he => absurd he List.not_mem_nil, fun _ => linesOfKey_eq_one hfs hf⟩
  | case2 e es ih => exact absurd hf List.not_mem_nil
  | case3 e es g fs hkey hsame ih =>
    obtain ⟨helt, hes'⟩ := List.pairwise_cons.mp hes
    obtain ⟨hglt, hfs'⟩ := List.pairwise_cons.mp hfs
    rw [noUploadMerge, if_pos hkey, if_pos hsame, linesOfKey_append]
    rcases List.mem_cons.mp hf with rfl | hf
    · rw [linesOfKey_below (fun x hx => hkey ▸ helt x hx) hglt, Nat.add_zero]
      have hr := hremove e List.mem_cons_self hkey
      unfold matchedLines
      rw [hr, List.forall_mem_cons]
      by_cases hfile : isFileLine e.tArgv = true
      · rw [if_pos ⟨rfl, hfile⟩]
        refine ⟨fun _ => ⟨fun _ => hfile, fun x hx hx' => ?_⟩, fun _ => by simp [linesOfKey, hkey]⟩
        exact absurd (hx'.trans hkey.symm) (helt x hx).ne'
      · rw [if_neg fun h => hfile h.2]
        exact ⟨fun h => absurd h (by simp [linesOfKey]), fun h => absurd (h.1 hkey) hfile⟩
    · have hne : e.orderKey cs ≠ f.orderKey cs := hkey ▸ (hglt f hf).ne
      rw [linesOfKey_matched hne, Nat.zero_add,
        ih hes' hfs' hf fun x hx => hremove x (List.mem_cons_of_mem _ hx), List.forall_mem_cons]
      exact ⟨fun h => ⟨fun heq => absurd heq hne, h⟩, And.right⟩
  | case4 e es g fs hkey hsame ih =>
    obtain ⟨helt, hes'⟩ := List.pairwise_cons.mp hes
    have hfile : isFileLine e.tArgv = true := by
      by_contra hfile
      exact hsame (by rw [sameEntry, if_neg hfile])
    rw [noUploadMerge, if_pos hkey, if_neg hsame,
      ih hes' hfs hf fun x hx => hremove x (List.mem_cons_of_mem _ hx), List.forall_mem_cons]
    exact ⟨fun h => ⟨fun _ => hfile, h⟩, And.right⟩
  | case5 e es g fs hkey hlt ih =>
    obtain ⟨helt, hes'⟩ := List.pairwise_cons.mp hes
    obtain ⟨hglt, hfs'⟩ := List.pairwise_cons.mp hfs
    have hall : ∀ x ∈ e :: es, g.orderKey cs < x.orderKey cs :=
      List.forall_mem_cons.mpr ⟨hlt, fun x hx => hlt.trans (helt x hx)⟩
    rw [noUploadMerge, if_neg hkey, if_pos hlt, linesOfKey_cons]
    rcases List.mem_cons.mp hf with rfl | hf
    · rw [linesOfKey_below hall hglt, if_pos rfl]
      exact ⟨fun _ x hx heq => absurd heq (hall x hx).ne', fun _ => rfl⟩
    · rw [if_neg (hglt f hf).ne, Nat.add_zero, ih hes hfs' hf hremove]
  | case6 e es g fs hkey hlt ih =>
    obtain ⟨helt, hes'⟩ := List.pairwise_cons.mp hes
    obtain ⟨hglt, -⟩ := List.pairwise_cons.mp hfs
    have heg : e.orderKey cs < g.orderKey cs := lt_of_le_of_ne (not_lt.mp hlt) hkey
    have hne : e.orderKey cs ≠ f.orderKey cs := by
      rcases List.mem_cons.mp hf with rfl | hf
      · exact hkey
      · exact (heg.trans (hglt f hf)).ne
    rw [noUploadMerge, if_neg hkey, if_neg hlt, linesOfKey_append, linesOfKey_unmatched hne,
      Nat.zero_add, ih hes' hfs hf fun x hx => hremove x (List.mem_cons_of_mem _ hx),
      List.forall_mem_cons]
    exact ⟨fun h => ⟨fun heq => absurd heq hne, h⟩, And.right⟩

end

/-! ## The run -/

/-- Two transcripts, with the roots and the lines that they have. -/
structure PairAt (cfg : LmergeConfig) (a b : LmergeInput) (t u : Tran)
    (es fs : List LmergeEntry) : Prop where
  first : LmergeLines cfg t es
  second : LmergeLines cfg u fs
  firstRoots : t.roots = (a.fileRoot, a.tranName)
  secondRoots : u.roots = (b.fileRoot, b.tranName)

/-- Every run gets to its end. -/
def Mergeable (cfg : LmergeConfig) (a b : LmergeInput) (es fs : List LmergeEntry) : Prop :=
  Placeable cfg [a, b] [es, fs] ∧ Comparable cfg.caseSensitive es fs

section

variable {cfg : LmergeConfig} {a b : LmergeInput} {t u : Tran} {es fs : List LmergeEntry}

theorem Mergeable.mono {es' fs' : List LmergeEntry} (h : Mergeable cfg a b es fs)
    (hes : es' ⊆ es) (hfs : fs' ⊆ fs) : Mergeable cfg a b es' fs' := by
  refine ⟨fun honly x hx y hy gs hgs e he hfile => ?_, fun e he f hf => ?_⟩
  · rcases List.mem_pair.mp hgs with rfl | rfl
    · exact h.1 honly x hx y hy es List.mem_cons_self e (hes he) hfile
    · exact h.1 honly x hx y hy fs (List.mem_cons_of_mem _ List.mem_cons_self) e (hfs he) hfile
  · exact h.2 e (hes he) f (hfs hf)

/-- With `-n` a line is written unless it is a '-' line or only the first transcript was
looked at. -/
theorem output_noUpload (hup : cfg.noupload = true) {c : Compared} {cand loc : Tran}
    (hskip : c.skipped = false) :
    (∃ lines, output cfg c cand loc = .ok lines ∧ lines =
      if cand.tRemove = false ∧ ¬ (c.candidate = 0 ∧ c.fileloc = 0) then [cand.written] else []) ∨
    (∃ x, output cfg c cand loc = .error x) ∧ cfg.mergeTransOnly = false ∧
      isFileLine cand.tArgv = true ∧
      placeFile cfg cand.tFileRoot loc.tTranName cand.tFilepath ≠ .ok () := by
  unfold output
  simp only [hskip, hup, Bool.true_and, Bool.false_eq_true, if_false]
  by_cases hdrop : (cand.tRemove || (decide (c.candidate = 0) && decide (c.fileloc = 0))) = true
  · rw [if_pos hdrop]
    refine .inl ⟨[], rfl, ?_⟩
    rw [if_neg]
    intro ⟨hr, hne⟩
    simp only [hr, Bool.false_or, Bool.and_eq_true, decide_eq_true_eq] at hdrop
    exact hne hdrop
  · rw [if_neg hdrop]
    simp only [Bool.or_eq_true, Bool.and_eq_true, decide_eq_true_eq, not_or] at hdrop
    have hwrite : cand.tRemove = false ∧ ¬ (c.candidate = 0 ∧ c.fileloc = 0) :=
      ⟨Bool.eq_false_iff.mpr hdrop.1, hdrop.2⟩
    by_cases hfile : (!cand.isFile || cfg.mergeTransOnly) = true
    · rw [if_pos hfile]
      exact .inl ⟨_, rfl, by rw [if_pos hwrite]⟩
    · rw [if_neg hfile]
      simp only [Bool.or_eq_true, Bool.not_eq_true', not_or, Bool.not_eq_true,
        Bool.not_eq_false] at hfile
      cases hplace : placeFile cfg cand.tFileRoot loc.tTranName cand.tFilepath with
      | ok _ => exact .inl ⟨_, rfl, by rw [if_pos hwrite]⟩
      | error x => exact .inr ⟨⟨x, rfl⟩, hfile.2, hfile.1, by simp⟩

/-- A file that does not get to its place is one that cannot be merged. -/
theorem PairAt.not_mergeable (h : PairAt cfg a b t u es fs) {cand loc : Tran}
    (hcand : cand = t ∧ cand.entry ∈ es ∨ cand = u ∧ cand.entry ∈ fs)
    (hloc : loc.roots = t.roots ∨ loc.roots = u.roots) (honly : cfg.mergeTransOnly = false)
    (hfile : isFileLine cand.tArgv = true)
    (hplace : placeFile cfg cand.tFileRoot loc.tTranName cand.tFilepath ≠ .ok ()) :
    ¬ Mergeable cfg a b es fs := by
  intro ⟨hplaceable, _⟩
  have hroot : ∃ x ∈ [a, b], cand.tFileRoot = x.fileRoot := by
    rcases hcand with ⟨rfl, -⟩ | ⟨rfl, -⟩
    · exact ⟨a, List.mem_cons_self, congrArg Prod.fst h.firstRoots⟩
    · exact ⟨b, List.mem_cons_of_mem _ List.mem_cons_self, congrArg Prod.fst h.secondRoots⟩
  have hname : ∃ y ∈ [a, b], loc.tTranName = y.tranName := by
    rcases hloc with hloc | hloc
    · exact ⟨a, List.mem_cons_self, congrArg Prod.snd (hloc.trans h.firstRoots)⟩
    · exact ⟨b, List.mem_cons_of_mem _ List.mem_cons_self,
        congrArg Prod.snd (hloc.trans h.secondRoots)⟩
  have hentry : ∃ gs ∈ [es, fs], cand.entry ∈ gs := by
    rcases hcand with ⟨-, he⟩ | ⟨-, hf⟩
    · exact ⟨es, List.mem_cons_self, he⟩
    · exact ⟨fs, List.mem_cons_of_mem _ List.mem_cons_self, hf⟩
  obtain ⟨x, hx, hroot⟩ := hroot
  obtain ⟨y, hy, hname⟩ := hname
  obtain ⟨gs, hgs, he⟩ := hentry
  refine hplace ?_
  rw [hroot, hname]
  exact hplaceable honly x hx y hy gs hgs cand.entry he hfile

/-- A round leads to a pair with less to read, whose lines follow those that it wrote. -/
def RoundsTo (cfg : LmergeConfig) (a b : LmergeInput) (es fs : List LmergeEntry) (st : MergeState)
    (n : Nat) (st' : MergeState) : Prop :=
  ∃ t' u' es' fs' lines buf', st' = ⟨st.i, [t', u'], buf',
      st.ofs ++ lines.map LmergeEntry.written⟩ ∧
    PairAt cfg a b t' u' es' fs' ∧ t'.unread + u'.unread < n ∧ es' ⊆ es ∧ fs' ⊆ fs ∧
    noUploadMerge cfg.caseSensitive es fs =
      lines ++ noUploadMerge cfg.caseSensitive es' fs'

theorem recreated_unmatched {c : Compared} {cand : Tran} (hmatched : c.matched = false) :
    recreated c cand = (unmatchedLines cand.entry).map LmergeEntry.written := by
  unfold recreated unmatchedLines
  show (if cand.tRemove && !c.matched then _ else _) =
    (if cand.tRemove then _ else _ : List LmergeEntry).map _
  rw [hmatched, Bool.not_false, Bool.and_true]
  split
  · rfl
  · rfl

theorem recreated_matched {c : Compared} {cand : Tran} (hmatched : c.matched = true) :
    recreated c cand = [] := by
  simp [recreated, hmatched]

/-- The first transcript is moved, and what it lists alone is written if it is a '-' line. -/
theorem mergeRound_alone (hup : cfg.noupload = true) {buf : List Byte} {ofs : List Written}
    (h : PairAt cfg a b t u es fs) (heof : t.tEof = false)
    (hrun : candidateLoop cfg t ⟨0, 0, false, false⟩ 1 [u] buf =
      .ok ([u], ⟨0, 0, false, false⟩, buf))
    (hmerge : ∀ es', es = t.entry :: es' → noUploadMerge cfg.caseSensitive es fs =
      unmatchedLines t.entry ++ noUploadMerge cfg.caseSensitive es' fs) :
    ∃ st', mergeRound cfg ⟨0, [t, u], buf, ofs⟩ t = .ok st' ∧
      RoundsTo cfg a b es fs ⟨0, [t, u], buf, ofs⟩ (t.unread + u.unread) st' := by
  obtain ⟨t', es', rfl, hnext, hl⟩ := h.first.cons_inv heof
  obtain ⟨buf', hnext⟩ := hnext buf
  have hout : output cfg ⟨0, 0, false, false⟩ t t = .ok [] := by
    simp [output, hup]
  refine ⟨_, (@mergeRound_iff _ [] _ _ _ _ _).mpr ⟨[u], ⟨0, 0, false, false⟩, t, t',
    ⟨buf, t, [], buf', hrun, rfl, hout, hnext, rfl⟩, rfl⟩, ?_⟩
  refine ⟨t', u, es', fs, unmatchedLines t.entry, buf', ?_, ⟨hl, h.second, ?_, h.secondRoots⟩,
    ?_, List.subset_cons_self _ _, fun f hf => hf, hmerge es' rfl⟩
  · rw [List.nil_append, @recreated_unmatched ⟨0, 0, false, false⟩ t rfl]
    rfl
  · exact (getnextline_cases hnext).2.trans h.firstRoots
  · have := unread_next heof hnext
    omega

/-- The second transcript is moved, and its line is written. -/
theorem mergeRound_second (hup : cfg.noupload = true) {buf : List Byte} {ofs : List Written}
    (h : PairAt cfg a b t u es fs) (heof : u.tEof = false)
    (hrun : candidateLoop cfg t ⟨0, 0, false, false⟩ 1 [u] buf =
      .ok ([u], ⟨1, 1, false, false⟩, buf))
    (hmerge : ∀ fs', fs = u.entry :: fs' → noUploadMerge cfg.caseSensitive es fs =
      u.entry :: noUploadMerge cfg.caseSensitive es fs') :
    (∃ st', mergeRound cfg ⟨0, [t, u], buf, ofs⟩ t = .ok st' ∧
      RoundsTo cfg a b es fs ⟨0, [t, u], buf, ofs⟩ (t.unread + u.unread) st') ∨
    (∃ x, mergeRound cfg ⟨0, [t, u], buf, ofs⟩ t = .error x) ∧ ¬ Mergeable cfg a b es fs := by
  obtain ⟨u', fs', rfl, hnext, hl⟩ := h.second.cons_inv heof
  obtain ⟨buf', hnext⟩ := hnext buf
  rcases @output_noUpload cfg hup ⟨1, 1, false, false⟩ u u rfl with
    ⟨lines, hout, hlines⟩ | ⟨⟨x, hout⟩, honly, hfile, hplace⟩
  · left
    refine ⟨_, (@mergeRound_iff _ [] _ _ _ _ _).mpr ⟨[u], ⟨1, 1, false, false⟩, u, u',
      ⟨buf, u, lines, buf', hrun, rfl, hout, hnext, rfl⟩, rfl⟩, ?_⟩
    refine ⟨t, u', es, fs', [u.entry], buf', ?_, ⟨h.first, hl, h.firstRoots, ?_⟩,
      ?_, fun e he => he, List.subset_cons_self _ _, hmerge fs' rfl⟩
    · have hwritten : lines ++ recreated ⟨1, 1, false, false⟩ u = [u.entry].map
          LmergeEntry.written := by
        rw [hlines]
        cases hr : u.tRemove with
        | true => simp [recreated, hr, Tran.written, Tran.entry, LmergeEntry.written]
        | false => simp [recreated, hr, Tran.written, Tran.entry, LmergeEntry.written]
      rw [hwritten]
      rfl
    · exact (getnextline_cases hnext).2.trans h.secondRoots
    · have := unread_next heof hnext
      omega
  · right
    refine ⟨⟨x, ?_⟩, h.not_mergeable (.inr ⟨rfl, List.mem_cons_self⟩) (.inr rfl) honly hfile hplace⟩
    unfold mergeRound
    simp only [List.drop_succ_cons, List.drop_zero, hrun, List.take_succ_cons, List.take_zero,
      List.cons_append, List.nil_append, List.getElem?_cons_succ, List.getElem?_cons_zero, hout]

/-- The search for candidates where the second transcript lists the path too. -/
theorem candidateLoop_shared (hup : cfg.noupload = true) {buf : List Byte}
    (heof' : u.tEof = false)
    (hcmp : pathcasecmp t.tFilepath u.tFilepath cfg.caseSensitive = 0) :
    candidateLoop cfg t ⟨0, 0, false, false⟩ 1 [u] buf =
      match sameEntry t.entry u.entry with
      | none => .error .overrun
      | some false => .ok ([u], ⟨0, 0, true, true⟩, buf)
      | some true =>
        match getnextline cfg buf u with
        | .error e => .error e
        | .ok (u, _, buf) => .ok ([u], ⟨0, if t.isFile then 1 else 0, true, false⟩, buf) := by
  rw [candidateLoop]
  simp only [heof', Bool.false_eq_true, if_false, if_pos hcmp, hup, Bool.true_and, candidateLoop]
  rfl

/-- Both transcripts list the path. -/
theorem mergeRound_shared (hup : cfg.noupload = true) {buf : List Byte} {ofs : List Written}
    (h : PairAt cfg a b t u es fs) (heof : t.tEof = false) (heof' : u.tEof = false)
    (hcmp : pathcasecmp t.tFilepath u.tFilepath cfg.caseSensitive = 0)
    (hkey : t.entry.orderKey cfg.caseSensitive = u.entry.orderKey cfg.caseSensitive) :
    (∃ st', mergeRound cfg ⟨0, [t, u], buf, ofs⟩ t = .ok st' ∧
      RoundsTo cfg a b es fs ⟨0, [t, u], buf, ofs⟩ (t.unread + u.unread) st') ∨
    (∃ x, mergeRound cfg ⟨0, [t, u], buf, ofs⟩ t = .error x) ∧ ¬ Mergeable cfg a b es fs := by
  obtain ⟨t', es', rfl, hnext, hl⟩ := h.first.cons_inv heof
  obtain ⟨u', fs', rfl, hnext', hl'⟩ := h.second.cons_inv heof'
  have hloop := @candidateLoop_shared cfg t u hup buf heof' hcmp
  cases hsame : sameEntry t.entry u.entry with
  | none =>
    right
    refine ⟨⟨.overrun, ?_⟩, fun hm => hm.2 t.entry List.mem_cons_self u.entry List.mem_cons_self
      hcmp hsame⟩
    unfold mergeRound
    simp only [List.drop_succ_cons, List.drop_zero, hloop, hsame]
  | some same =>
    cases same with
    | false =>
      left
      obtain ⟨buf', hnext⟩ := hnext buf
      rw [hsame] at hloop
      refine ⟨_, (@mergeRound_iff _ [] _ _ _ _ _).mpr ⟨[u], ⟨0, 0, true, true⟩, t, t',
        ⟨buf, t, [], buf', hloop, rfl, rfl, hnext, rfl⟩, rfl⟩, ?_⟩
      refine ⟨t', u, es', u.entry :: fs', [], buf', ?_, ⟨hl, h.second, ?_, h.secondRoots⟩,
        ?_, List.subset_cons_self _ _, fun f hf => hf, ?_⟩
      · rw [recreated_matched rfl]
        rfl
      · exact (getnextline_cases hnext).2.trans h.firstRoots
      · have := unread_next heof hnext
        omega
      · rw [noUploadMerge, if_pos hkey, if_neg (by simp [hsame]), List.nil_append]
    | true =>
      obtain ⟨buf₁, hnext'⟩ := hnext' buf
      obtain ⟨buf', hnext⟩ := hnext buf₁
      rw [hsame, hnext'] at hloop
      simp only at hloop
      have hloc : ∃ loc, [t, u'][if t.isFile then 1 else 0]? = some loc ∧
          (loc.roots = t.roots ∨ loc.roots = u.roots) := by
        cases t.isFile with
        | true => exact ⟨u', rfl, .inr (getnextline_cases hnext').2⟩
        | false => exact ⟨t, rfl, .inl rfl⟩
      obtain ⟨loc, hloc, hroots⟩ := hloc
      rcases @output_noUpload cfg hup ⟨0, if t.isFile then 1 else 0, true, false⟩ t loc rfl with
        ⟨lines, hout, hlines⟩ | ⟨⟨x, hout⟩, honly, hfile, hplace⟩
      · left
        refine ⟨_, (@mergeRound_iff _ [] _ _ _ _ _).mpr
          ⟨[u'], ⟨0, if t.isFile then 1 else 0, true, false⟩, t, t',
            ⟨buf₁, loc, lines, buf', hloop, hloc, hout, hnext, rfl⟩, rfl⟩, ?_⟩
        refine ⟨t', u', es', fs', matchedLines t.entry, buf', ?_, ⟨hl, hl', ?_, ?_⟩, ?_,
          List.subset_cons_self _ _, List.subset_cons_self _ _, ?_⟩
        · have hwritten : lines = (matchedLines t.entry).map LmergeEntry.written := by
            rw [hlines]
            unfold matchedLines
            show _ = (if t.tRemove = false ∧ t.isFile = true then [t.entry] else []).map _
            cases t.isFile with
            | true => simp [Tran.written, Tran.entry, LmergeEntry.written, apply_ite]
            | false => simp
          rw [recreated_matched rfl, List.append_nil, hwritten]
          rfl
        · exact (getnextline_cases hnext).2.trans h.firstRoots
        · exact (getnextline_cases hnext').2.trans h.secondRoots
        · have := unread_next heof hnext
          have := unread_next heof' hnext'
          omega
        · rw [noUploadMerge, if_pos hkey, if_pos hsame]
      · right
        refine ⟨⟨x, ?_⟩, h.not_mergeable (.inl ⟨rfl, List.mem_cons_self⟩) hroots honly hfile
          hplace⟩
        unfold mergeRound
        simp only [List.drop_succ_cons, List.drop_zero, hloop, List.take_succ_cons, List.take_zero,
          List.singleton_append, List.getElem?_cons_zero, hloc, hout]

/-- A round, from the first transcript on. -/
theorem mergeRound_noUpload (hup : cfg.noupload = true) {buf : List Byte} {ofs : List Written}
    (h : PairAt cfg a b t u es fs) (heof : t.tEof = false)
    (hes : ∀ e ∈ es, Ranked cfg.caseSensitive e.tFilepath)
    (hfs : ∀ f ∈ fs, Ranked cfg.caseSensitive f.tFilepath) :
    (∃ st', mergeRound cfg ⟨0, [t, u], buf, ofs⟩ t = .ok st' ∧
      RoundsTo cfg a b es fs ⟨0, [t, u], buf, ofs⟩ (t.unread + u.unread) st') ∨
    (∃ x, mergeRound cfg ⟨0, [t, u], buf, ofs⟩ t = .error x) ∧ ¬ Mergeable cfg a b es fs := by
  obtain ⟨-, es', rfl, -, -⟩ := h.first.cons_inv heof
  cases heof' : u.tEof with
  | true =>
    refine .inl (mergeRound_alone hup h heof ?_ ?_)
    · simp only [candidateLoop, heof', if_true]
    · intro es'' heq
      obtain rfl := h.second.eof_inv heof'
      rw [← (List.cons.inj heq).2, noUploadMerge]
  | false =>
    obtain ⟨-, fs', rfl, -, -⟩ := h.second.cons_inv heof'
    have htr := hes t.entry List.mem_cons_self
    have hur := hfs u.entry List.mem_cons_self
    by_cases hcmp : pathcasecmp t.tFilepath u.tFilepath cfg.caseSensitive = 0
    · exact mergeRound_shared hup h heof heof' hcmp ((pathcasecmp_eq_zero htr hur).mp hcmp)
    · have hne : t.entry.orderKey cfg.caseSensitive ≠ u.entry.orderKey cfg.caseSensitive :=
        fun hkey => hcmp ((pathcasecmp_eq_zero htr hur).mpr hkey)
      by_cases hgt : 0 < pathcasecmp t.tFilepath u.tFilepath cfg.caseSensitive
      · refine mergeRound_second hup h heof' ?_ ?_
        · simp only [candidateLoop, heof', Bool.false_eq_true, if_false, if_neg hcmp, gt_iff_lt,
            if_pos hgt]
        · intro fs'' heq
          have hlt : u.entry.orderKey cfg.caseSensitive < t.entry.orderKey cfg.caseSensitive :=
            (pathcasecmp_pos htr hur).mp hgt
          rw [← (List.cons.inj heq).2, noUploadMerge, if_neg hne, if_pos hlt]
      · refine .inl (mergeRound_alone hup h heof ?_ ?_)
        · simp only [candidateLoop, heof', Bool.false_eq_true, if_false, if_neg hcmp, gt_iff_lt,
            if_neg hgt]
        · intro es'' heq
          have hlt : ¬ u.entry.orderKey cfg.caseSensitive < t.entry.orderKey cfg.caseSensitive :=
            fun hlt => hgt ((pathcasecmp_pos htr hur).mpr hlt)
          rw [← (List.cons.inj heq).2, noUploadMerge, if_neg hne, if_neg hlt]

/-- The rounds that are left when the first transcript is at its end. -/
theorem mergeLoop_second (hup : cfg.noupload = true) {fuel : Nat} {buf : List Byte}
    {ofs : List Written} (h : PairAt cfg a b t u [] fs) (hfuel : u.unread + 1 < fuel) :
    mergeLoop cfg fuel ⟨1, [t, u], buf, ofs⟩ = .ok (ofs ++ fs.map LmergeEntry.written) ∨
    ¬ Mergeable cfg a b [] fs ∧ ∃ x, mergeLoop cfg fuel ⟨1, [t, u], buf, ofs⟩ = .error x := by
  induction fuel generalizing u fs buf ofs with
  | zero => omega
  | succ fuel ih =>
    rw [mergeLoop]
    cases heof : u.tEof with
    | true =>
      obtain rfl := h.second.eof_inv heof
      obtain ⟨fuel, rfl⟩ : ∃ n, fuel = n + 1 := ⟨fuel - 1, by omega⟩
      have hstep : mergeStep cfg ⟨1, [t, u], buf, ofs⟩ = .ok (some ⟨2, [t, u], buf, ofs⟩) := by
        simp [mergeStep, heof]
      have hend : mergeStep cfg ⟨2, [t, u], buf, ofs⟩ = .ok none := rfl
      simp only [hstep, mergeLoop, hend]
      exact .inl (by simp)
    | false =>
      obtain ⟨u', fs', rfl, hnext, hl⟩ := h.second.cons_inv heof
      obtain ⟨buf', hnext⟩ := hnext buf
      have hstep : mergeStep cfg ⟨1, [t, u], buf, ofs⟩ =
          (mergeRound cfg ⟨1, [t, u], buf, ofs⟩ u).map some := by
        simp [mergeStep, heof]
      rw [hstep]
      rcases @output_noUpload cfg hup ⟨1, 1, false, false⟩ u u rfl with
        ⟨lines, hout, hlines⟩ | ⟨⟨x, hout⟩, honly, hfile, hplace⟩
      · have hround := (@mergeRound_iff cfg [t] u [] buf ofs _).mpr
          ⟨[], ⟨1, 1, false, false⟩, u, u', ⟨buf, u, lines, buf', rfl, rfl, hout, hnext, rfl⟩, rfl⟩
        have hwritten : lines ++ recreated ⟨1, 1, false, false⟩ u = [u.entry.written] := by
          rw [hlines]
          cases hr : u.tRemove with
          | true => simp [recreated, hr, Tran.written, Tran.entry, LmergeEntry.written]
          | false => simp [recreated, hr, Tran.written, Tran.entry, LmergeEntry.written]
        rw [hwritten] at hround
        rw [show mergeRound cfg ⟨1, [t, u], buf, ofs⟩ u = _ from hround]
        have hnext' : PairAt cfg a b t u' [] fs' :=
          ⟨h.first, hl, h.firstRoots, (getnextline_cases hnext).2.trans h.secondRoots⟩
        have hless := unread_next heof hnext
        rcases @ih u' fs' buf' (ofs ++ [u.entry.written]) hnext' (by omega) with hrun | ⟨hm, hrun⟩
        · refine .inl (hrun.trans ?_)
          simp
        · exact .inr ⟨fun h => hm (h.mono (fun _ h => h) (List.subset_cons_self _ _)), hrun⟩
      · refine .inr ⟨h.not_mergeable (.inr ⟨rfl, List.mem_cons_self⟩) (.inr rfl) honly hfile hplace,
          x, ?_⟩
        have hround : mergeRound cfg ⟨1, [t, u], buf, ofs⟩ u = .error x := by
          unfold mergeRound
          simp only [List.drop_succ_cons, List.drop_nil, candidateLoop, List.take_succ_cons,
            List.take_nil, List.append_nil, List.getElem?_cons_succ, List.getElem?_cons_zero, hout]
        rw [hround]
        rfl

theorem mergeLoop_noUpload (hup : cfg.noupload = true) {fuel : Nat} {buf : List Byte}
    {ofs : List Written} (h : PairAt cfg a b t u es fs)
    (hes : ∀ e ∈ es, Ranked cfg.caseSensitive e.tFilepath)
    (hfs : ∀ f ∈ fs, Ranked cfg.caseSensitive f.tFilepath)
    (hfuel : t.unread + u.unread + 2 < fuel) :
    mergeLoop cfg fuel ⟨0, [t, u], buf, ofs⟩ =
      .ok (ofs ++ (noUploadMerge cfg.caseSensitive es fs).map LmergeEntry.written) ∨
    ¬ Mergeable cfg a b es fs ∧ ∃ x, mergeLoop cfg fuel ⟨0, [t, u], buf, ofs⟩ = .error x := by
  induction fuel generalizing t u es fs buf ofs with
  | zero => omega
  | succ fuel ih =>
    rw [mergeLoop]
    cases heof : t.tEof with
    | true =>
      obtain rfl := h.first.eof_inv heof
      have hstep : mergeStep cfg ⟨0, [t, u], buf, ofs⟩ = .ok (some ⟨1, [t, u], buf, ofs⟩) := by
        simp [mergeStep, heof]
      rw [hstep, noUploadMerge]
      exact mergeLoop_second hup h (by omega)
    | false =>
      have hstep : mergeStep cfg ⟨0, [t, u], buf, ofs⟩ =
          (mergeRound cfg ⟨0, [t, u], buf, ofs⟩ t).map some := by
        simp [mergeStep, heof]
      rw [hstep]
      rcases @mergeRound_noUpload cfg a b t u es fs hup buf ofs h heof hes hfs with
        ⟨st', hround, hto⟩ | ⟨⟨x, hround⟩, hm⟩
      · obtain ⟨t', u', es', fs', lines, buf', rfl, h', hless, hsub, hsub', hmerge⟩ := hto
        rw [hround]
        rcases @ih t' u' es' fs' buf' (ofs ++ lines.map LmergeEntry.written) h'
          (fun e he => hes e (hsub he)) (fun f hf => hfs f (hsub' hf)) (by omega) with
          hrun | ⟨hm, hrun⟩
        · refine .inl (hrun.trans ?_)
          rw [hmerge, List.map_append, List.append_assoc]
        · exact .inr ⟨fun h => hm (h.mono hsub hsub'), hrun⟩
      · rw [hround]
        exact .inr ⟨hm, x, rfl⟩

end

/-! ### Two transcripts that list a file and a directory -/

def noUploadConfig : LmergeConfig := { sortedConfig with noupload := true }

def sharedFile : LmergeInput := inputOf "f /b 0644 0 0 0 1 -\n"

def sharedFileEntries : List LmergeEntry :=
  [lmergeEntryOf false "/b" "f /b 0644 0 0 0 1 -\n" ["f", "/b", "0644", "0", "0", "0", "1", "-"]]

set_option maxRecDepth 8000 in
theorem sharedFile_opens : Opens noUploadConfig sharedFile sharedFileEntries :=
  ⟨_, fun _ => ⟨_, rfl⟩, .line rfl (fun _ => ⟨_, rfl⟩) (.atEnd rfl)⟩

def sharedDirectory : LmergeInput := inputOf "d /m 0755 0 0\n"

def sharedDirectoryEntries : List LmergeEntry :=
  [lmergeEntryOf false "/m" "d /m 0755 0 0\n" ["d", "/m", "0755", "0", "0"]]

end Radmind
