import Radmind.Transcript.Lookup
import Radmind.Wildcard

/-!
# Looking up a path and its ancestors

`twhich -r` looks up each ancestor of the path and then the path itself.  The lookups share the
transcripts, which each of them moves ahead, and the exclude list, which each of them empties up
to the first pattern that matches.
-/

namespace Radmind

/-! ## What a lookup leaves -/

/-- One round of the loop of `twhich`: whether the transcript is about the path, and where it
stands afterwards. -/
def twhichTranscript (cfg : ParseConfig) (pattern : CStr) (tran : Transcript) (buf : List Byte) :
    Except Exit (Bool × Transcript × List Byte) :=
  if tran.tEof then .ok (false, tran, buf)
  else
    match seek cfg pattern (tran.unread + 1) tran buf with
    | .error e => .error e
    | .ok (tran, cmp, buf) =>
      if tran.tEof then .ok (false, tran, buf)
      else if cmp > 0 then .ok (false, tran, buf)
      else if cmp = 0 then
        if tran.tType = .null then .error (.unknownType tran.tShortname 0)
        else .ok (true, tran, buf)
      else .ok (false, tran, buf)

/-- The loop of `twhich` with the transcripts it leaves. -/
def twhichRun (cfg : ParseConfig) (displayall : Bool) (pattern : CStr) :
    Nat → List Transcript → List Byte →
      Except Exit (List (Nat × Transcript) × List Transcript × List Byte)
  | _, [], _ => .error .overrun
  | _, [tran], buf => .ok ([], [tran], buf)
  | n, tran :: next :: rest, buf =>
    match twhichTranscript cfg pattern tran buf with
    | .error e => .error e
    | .ok (true, tran, buf) =>
      if !displayall then .ok ([(n, tran)], tran :: next :: rest, buf)
      else
        match twhichRun cfg displayall pattern (n + 1) (next :: rest) buf with
        | .error e => .error e
        | .ok (found, ahead, buf) => .ok ((n, tran) :: found, tran :: ahead, buf)
    | .ok (false, tran, buf) =>
      match twhichRun cfg displayall pattern (n + 1) (next :: rest) buf with
      | .error e => .error e
      | .ok (found, ahead, buf) => .ok (found, tran :: ahead, buf)

/-- The patterns `twhich` leaves in the exclude list. -/
def excludesLeft (wildcard : CStr → CStr → Bool → Bool) (caseSensitive displayall : Bool)
    (pattern : CStr) : PathList → PathList
  | [] => []
  | node :: rest =>
    if wildcard node pattern caseSensitive && !displayall then rest
    else excludesLeft wildcard caseSensitive displayall pattern rest

section

variable (cfg : KfileConfig) (wildcard : CStr → CStr → Bool → Bool) (displayall : Bool)

/-- What a call of `twhich` leaves for the next one. -/
def twhichLeaves (st : KfileState) (pattern : CStr) : Except Exit KfileState :=
  let left := excludesLeft wildcard cfg.caseSensitive displayall pattern st.excludeList
  if (twhichExcludes wildcard cfg.caseSensitive displayall pattern st.excludeList).2 then
    .ok { st with excludeList := left }
  else
    (twhichRun cfg.toParseConfig displayall pattern 0 st.tranHead st.buf).map
      fun (_, ahead, buf) => { st with tranHead := ahead, buf := buf, excludeList := left }

/-- The paths the loop of `main` cuts off at each slash behind the leading ones. -/
def cutPaths (before : CStr) : CStr → List CStr
  | [] => []
  | c :: p => if c = slash then before :: cutPaths (before ++ [c]) p else cutPaths (before ++ [c]) p

/-- The paths `twhich -r` looks up. -/
def recursivePaths (pattern : CStr) : List CStr :=
  cutPaths (pattern.takeWhile (· = slash)) (pattern.dropWhile (· = slash)) ++ [pattern]

/-- What `twhich -r` prints of a path behind those it has looked up before. -/
def recursiveLookup (st : KfileState) (before : List CStr) (pattern : CStr) :
    Except Exit TwhichOutput :=
  match before.foldlM (twhichLeaves cfg wildcard displayall) st with
  | .error e => .error e
  | .ok st => twhich cfg wildcard displayall st pattern

/-- The trailing slash `main` clips from its argument. -/
def clipSlash (pattern : CStr) : CStr :=
  if pattern.length > 1 ∧ pattern.getLast? = some slash then pattern.dropLast else pattern

/-- `tran_format` of a run of `twhich`. -/
def patternFormat (pattern : CStr) : TranFormat :=
  match pattern with
  | dot :: rest =>
    if rest = [] then .relative
    else if rest.head? = some slash then .relative
    else .unset
  | _ => .absolute

/-- The configuration of a run of `twhich` on a path. -/
def KfileConfig.ofPattern (cfg : KfileConfig) (pattern : CStr) : KfileConfig :=
  { cfg with tranFormat := patternFormat pattern }

end

/-! ## The state a lookup leaves is that of the source -/

section

variable {cfg : ParseConfig} {displayall : Bool} {pattern : CStr}

theorem twhichLoop_eq_run (n : Nat) (trans : List Transcript) (buf : List Byte) :
    twhichLoop cfg displayall pattern n trans buf =
      (twhichRun cfg displayall pattern n trans buf).map Prod.fst := by
  induction trans generalizing n buf with
  | nil => rfl
  | cons tran trans ih =>
    cases trans with
    | nil => rfl
    | cons next rest =>
      rw [twhichLoop, twhichRun, twhichTranscript]
      have hskip : ∀ tran buf, twhichLoop cfg displayall pattern (n + 1) (next :: rest) buf =
          Except.map Prod.fst (match twhichRun cfg displayall pattern (n + 1) (next :: rest) buf with
            | .error e => .error e
            | .ok (found, ahead, buf) => .ok (found, tran :: ahead, buf)) := by
        intro tran buf
        rw [ih]
        cases twhichRun cfg displayall pattern (n + 1) (next :: rest) buf <;> rfl
      by_cases heof : tran.tEof = true
      · rw [if_pos heof, if_pos heof]
        exact hskip tran buf
      rw [if_neg heof, if_neg heof]
      cases seek cfg pattern (tran.unread + 1) tran buf with
      | error e => rfl
      | ok r =>
        obtain ⟨tran', cmp, buf'⟩ := r
        simp only
        by_cases hend : tran'.tEof = true
        · rw [if_pos hend, if_pos hend]
          exact hskip tran' buf'
        rw [if_neg hend, if_neg hend]
        by_cases hpos : cmp > 0
        · rw [if_pos hpos, if_pos hpos]
          exact hskip tran' buf'
        rw [if_neg hpos, if_neg hpos]
        by_cases hzero : cmp = 0
        · rw [if_pos hzero, if_pos hzero]
          by_cases htype : tran'.tType = .null
          · rw [if_pos htype, if_pos htype]
            rfl
          rw [if_neg htype, if_neg htype]
          cases displayall with
          | false => rfl
          | true =>
            simp only [Bool.not_true, Bool.false_eq_true, if_false, ih]
            cases twhichRun cfg true pattern (n + 1) (next :: rest) buf' <;> rfl
        · rw [if_neg hzero, if_neg hzero]
          exact hskip tran' buf'

end

/-! ## A transcript that was moved ahead -/

section

variable {cfg : ParseConfig} {p q : CStr} {t u u' : Transcript} {here here' : Bool}

/-- What a round of the loop comes to, whatever is in the buffer. -/
def Looks (cfg : ParseConfig) (q : CStr) (t : Transcript) (here : Bool) (u : Transcript) : Prop :=
  ∀ buf, ∃ buf', twhichTranscript cfg q t buf = .ok (here, u, buf')

theorem Looks.unique (h : Looks cfg q t here u) (h' : Looks cfg q t here' u') :
    here = here' ∧ u = u' := by
  obtain ⟨buf, hbuf⟩ := h []
  obtain ⟨buf', hbuf'⟩ := h' []
  rw [hbuf] at hbuf'
  cases hbuf'
  exact ⟨rfl, rfl⟩

theorem looks_of_eof (h : t.tEof = true) : Looks cfg q t false t :=
  fun buf => ⟨buf, by rw [twhichTranscript, if_pos h]⟩

/-- The loop stops at a line that is not before the path. -/
theorem looks_here (heof : t.tEof = false) (hnull : t.tType ≠ .null)
    (h : ¬ pathcasecmp t.tPinfo.piName q cfg.caseSensitive < 0) :
    Looks cfg q t (pathcasecmp t.tPinfo.piName q cfg.caseSensitive = 0) t := by
  intro buf
  refine ⟨buf, ?_⟩
  rw [twhichTranscript, heof, if_neg Bool.false_ne_true, seek]
  simp only [if_neg h, heof, Bool.false_eq_true, if_false, if_neg hnull]
  by_cases hzero : pathcasecmp t.tPinfo.piName q cfg.caseSensitive = 0
  · rw [if_neg (by omega), if_pos hzero, decide_eq_true hzero]
  · rw [if_pos (by omega), decide_eq_false hzero]

theorem seek_fuel {fuel fuel' : Nat} {es : List PathInfo} (hl : Lists cfg t es)
    (heof : t.tEof = false) (h : t.unread < fuel) (h' : t.unread < fuel') (buf : List Byte) :
    seek cfg q fuel t buf = seek cfg q fuel' t buf := by
  induction fuel generalizing fuel' t es buf with
  | zero => exact absurd h (Nat.not_lt_zero _)
  | succ fuel ih =>
    obtain ⟨fuel', rfl⟩ := Nat.exists_eq_succ_of_ne_zero (Nat.ne_of_gt (Nat.zero_lt_of_lt h'))
    obtain ⟨next, es', -, hparse, hl'⟩ := hl.cons_inv heof
    obtain ⟨buf', hparse⟩ := hparse buf
    have hunread := (transcriptParse_unread_le hparse).2 heof
    rw [seek, seek]
    by_cases hlt : pathcasecmp t.tPinfo.piName q cfg.caseSensitive < 0
    · simp only [if_pos hlt, hparse]
      cases hend : next.tEof with
      | true => rfl
      | false => exact ih hl' hend (by omega) (by omega) buf'
    · simp only [if_neg hlt]

/-- Past a line that is before the path, the loop goes on as from the next one. -/
theorem looks_past {next : Transcript} {es : List PathInfo} (heof : t.tEof = false)
    (hparse : ∀ buf, ∃ buf', transcriptParse cfg buf t = .ok (next, buf'))
    (hl : Lists cfg next es) (hlt : pathcasecmp t.tPinfo.piName q cfg.caseSensitive < 0)
    (h : Looks cfg q next here u) : Looks cfg q t here u := by
  intro buf
  obtain ⟨buf₁, hbuf₁⟩ := hparse buf
  have hunread := (transcriptParse_unread_le hbuf₁).2 heof
  obtain ⟨buf', hlook⟩ := h buf₁
  refine ⟨buf', ?_⟩
  rw [← hlook, twhichTranscript, twhichTranscript, heof, if_neg Bool.false_ne_true, seek]
  simp only [if_pos hlt, hbuf₁]
  cases hend : next.tEof with
  | true => simp [hend]
  | false =>
    rw [@seek_fuel cfg q next t.unread (next.unread + 1) _ hl hend (by omega) (by omega)]
    simp

/-- A round of the loop goes well, and leaves a part of the lines. -/
theorem looks_exists {es : List PathInfo} (hl : Lists cfg t es) :
    ∃ here u es', Looks cfg q t here u ∧ Lists cfg u es' ∧ es' <:+ es := by
  induction hl with
  | @eof t heof hin => exact ⟨false, t, [], looks_of_eof heof, .eof heof hin, List.suffix_refl _⟩
  | @line t next es heof hparse hl ih =>
    by_cases hlt : pathcasecmp t.tPinfo.piName q cfg.caseSensitive < 0
    · obtain ⟨here, u, es', hlook, hu, hsuffix⟩ := ih
      exact ⟨here, u, es', looks_past heof hparse hl hlt hlook, hu,
        hsuffix.trans (List.suffix_cons _ _)⟩
    · obtain ⟨buf', hbuf'⟩ := hparse []
      obtain ⟨-, hnull, -⟩ := transcriptParse_cases hbuf'
      exact ⟨_, t, _, looks_here heof hnull hlt, .line heof hparse hl, List.suffix_refl _⟩

/-- Where the lines before a path are before another one as well, a transcript that was moved up
to the first is for the second what it was. -/
theorem looks_again {es : List PathInfo} (hl : Lists cfg t es)
    (hmono : ∀ e ∈ es, pathcasecmp e.piName p cfg.caseSensitive < 0 →
      pathcasecmp e.piName q cfg.caseSensitive < 0)
    (hp : Looks cfg p t here u) (hq : Looks cfg q u here' u') : Looks cfg q t here' u' := by
  induction hl with
  | @eof t heof hin =>
    obtain ⟨-, rfl⟩ := hp.unique (looks_of_eof heof)
    exact hq
  | @line t next es heof hparse hl ih =>
    obtain ⟨hhead, hmono⟩ := List.forall_mem_cons.mp hmono
    by_cases hlt : pathcasecmp t.tPinfo.piName p cfg.caseSensitive < 0
    · obtain ⟨here₁, u₁, es', hlook, -, -⟩ := @looks_exists cfg p next es hl
      obtain ⟨rfl, rfl⟩ := hp.unique (looks_past heof hparse hl hlt hlook)
      exact looks_past heof hparse hl (hhead hlt) (ih hmono hlook)
    · obtain ⟨buf', hbuf'⟩ := hparse []
      obtain ⟨-, hnull, -⟩ := transcriptParse_cases hbuf'
      obtain ⟨-, rfl⟩ := hp.unique (looks_here heof hnull hlt)
      exact hq

end

/-! ## All transcripts -/

section

variable {cfg : ParseConfig} {displayall : Bool} {q : CStr}

/-- A transcript as earlier lookups have left it: its lines are some of those there were, and
for what is looked up later it is what it was. -/
structure Ahead (cfg : ParseConfig) (ok : PathInfo → Prop) (later : List CStr) (t₀ t : Transcript) :
    Prop where
  lists : ∃ es, Lists cfg t es ∧ ∀ e ∈ es, ok e
  alike : ∀ q ∈ later, ∀ here u, Looks cfg q t here u → Looks cfg q t₀ here u

/-- The loop finds what it finds in the transcripts as they were, and leaves each of them alone or
moved up to the path. -/
theorem twhichRun_ahead {ok : PathInfo → Prop} {later : List CStr} (hq : q ∈ later)
    {ts₀ ts : List Transcript} (h : List.Forall₂ (Ahead cfg ok later) ts₀ ts) (n : Nat) :
    ∃ found ahead₀ ahead,
      (∀ buf, ∃ buf', twhichRun cfg displayall q n (ts₀ ++ [nullTranscript]) buf =
        .ok (found, ahead₀, buf')) ∧
      (∀ buf, ∃ buf', twhichRun cfg displayall q n (ts ++ [nullTranscript]) buf =
        .ok (found, ahead ++ [nullTranscript], buf')) ∧
      List.Forall₂ (fun t u => u = t ∨ ∃ here, Looks cfg q t here u) ts ahead := by
  induction h generalizing n with
  | nil =>
    exact ⟨[], [nullTranscript], [], fun buf => ⟨buf, rfl⟩, fun buf => ⟨buf, rfl⟩, .nil⟩
  | @cons t₀ t ts₀ ts ht _ ih =>
    obtain ⟨found, ahead₀, ahead, hrun₀, hrun, hmoved⟩ := ih (n + 1)
    obtain ⟨es, hl, -⟩ := ht.lists
    obtain ⟨here, u, es', hlook, -, -⟩ := @looks_exists cfg q t es hl
    have hlook₀ := ht.alike q hq here u hlook
    obtain ⟨next₀, rest₀, hrest₀⟩ : ∃ next rest, ts₀ ++ [nullTranscript] = next :: rest :=
      List.exists_cons_of_ne_nil (by simp)
    obtain ⟨next, rest, hrest⟩ : ∃ next rest, ts ++ [nullTranscript] = next :: rest :=
      List.exists_cons_of_ne_nil (by simp)
    rw [hrest₀] at hrun₀
    rw [hrest] at hrun
    by_cases hstop : here = true ∧ displayall = false
    · obtain ⟨rfl, rfl⟩ := hstop
      refine ⟨[(n, u)], u :: (ts₀ ++ [nullTranscript]), u :: ts, fun buf => ?_, fun buf => ?_,
        .cons (.inr ⟨_, hlook⟩) (List.forall₂_same.mpr fun _ _ => .inl rfl)⟩
      · obtain ⟨buf', hbuf'⟩ := hlook₀ buf
        refine ⟨buf', ?_⟩
        simp [List.cons_append, hrest₀, twhichRun, hbuf']
      · obtain ⟨buf', hbuf'⟩ := hlook buf
        refine ⟨buf', ?_⟩
        simp [List.cons_append, hrest, twhichRun, hbuf']
    · have hgo : ∀ {t next rest ahead}, Looks cfg q t here u →
          (∀ buf, ∃ buf', twhichRun cfg displayall q (n + 1) (next :: rest) buf =
            .ok (found, ahead, buf')) →
          ∀ buf, ∃ buf', twhichRun cfg displayall q n (t :: next :: rest) buf =
            .ok (if here then (n, u) :: found else found, u :: ahead, buf') := by
        intro t next rest ahead hlook hrun buf
        obtain ⟨buf₁, hbuf₁⟩ := hlook buf
        obtain ⟨buf', hbuf'⟩ := hrun buf₁
        refine ⟨buf', ?_⟩
        rw [twhichRun, hbuf₁]
        cases here with
        | false => simp [hbuf']
        | true =>
          obtain rfl : displayall = true := by simpa using hstop
          simp [hbuf']
      rw [List.cons_append, List.cons_append, hrest₀, hrest]
      exact ⟨_, _, u :: ahead, hgo hlook₀ hrun₀, hgo hlook hrun, .cons (.inr ⟨_, hlook⟩) hmoved⟩

/-- A round of the loop keeps what is said of a transcript. -/
theorem Ahead.step {ok : PathInfo → Prop} {later later' : List CStr} {t₀ t u : Transcript}
    (h : Ahead cfg ok later t₀ t) (hlater : later' ⊆ later)
    (hmono : ∀ e, ok e → ∀ p ∈ later', pathcasecmp e.piName q cfg.caseSensitive < 0 →
      pathcasecmp e.piName p cfg.caseSensitive < 0)
    (hu : u = t ∨ ∃ here, Looks cfg q t here u) : Ahead cfg ok later' t₀ u := by
  rcases hu with rfl | ⟨here, hlook⟩
  · exact ⟨h.lists, fun p hp => h.alike p (hlater hp)⟩
  · obtain ⟨es, hl, hok⟩ := h.lists
    obtain ⟨here₁, u₁, es', hlook₁, hu₁, hsuffix⟩ := @looks_exists cfg q t es hl
    obtain ⟨rfl, rfl⟩ := hlook.unique hlook₁
    refine ⟨⟨es', hu₁, fun e he => hok e (hsuffix.subset he)⟩, fun p hp here' u' hlook' => ?_⟩
    exact h.alike p (hlater hp) here' u'
      (looks_again hl (fun e he => hmono e (hok e he) p hp) hlook hlook')

end

/-! ## The exclude list -/

section

variable {wildcard : CStr → CStr → Bool → Bool} {cs : Bool} {q : CStr}

theorem twhichExcludes_all (X : PathList) : twhichExcludes wildcard cs true q X =
    (X.filter fun node => wildcard node q cs, false) := by
  induction X with
  | nil => rfl
  | cons node rest ih =>
    rw [twhichExcludes, ih, List.filter_cons]
    cases wildcard node q cs <;> rfl

theorem twhichExcludes_first (X : PathList) : twhichExcludes wildcard cs false q X =
    ((X.find? fun node => wildcard node q cs).toList,
      (X.find? fun node => wildcard node q cs).isSome) := by
  induction X with
  | nil => rfl
  | cons node rest ih =>
    rw [twhichExcludes, ih, List.find?_cons]
    cases wildcard node q cs <;> rfl

theorem toList_injective {α : Type} : Function.Injective (Option.toList : Option α → List α) := by
  intro a b h
  have hhead := congrArg List.head? h
  rwa [Option.head?_toList, Option.head?_toList] at hhead

/-- What is printed says whether the lookup is done. -/
theorem twhichExcludes_ext {displayall : Bool} {X Y : PathList}
    (h : (twhichExcludes wildcard cs displayall q X).1 =
      (twhichExcludes wildcard cs displayall q Y).1) :
    twhichExcludes wildcard cs displayall q X = twhichExcludes wildcard cs displayall q Y := by
  refine Prod.ext h ?_
  cases displayall with
  | true => rw [twhichExcludes_all, twhichExcludes_all]
  | false =>
    rw [twhichExcludes_first, twhichExcludes_first] at h ⊢
    exact congrArg Option.isSome (toList_injective h)

theorem excludesLeft_all (X : PathList) : excludesLeft wildcard cs true q X = [] := by
  induction X with
  | nil => rfl
  | cons node rest ih => simp [excludesLeft, ih]

theorem excludesLeft_first (X : PathList) : excludesLeft wildcard cs false q X =
    (X.dropWhile fun node => !wildcard node q cs).tail := by
  induction X with
  | nil => rfl
  | cons node rest ih =>
    rw [excludesLeft, ih, List.dropWhile_cons]
    cases wildcard node q cs <;> rfl

end

section

variable (wildcard : CStr → CStr → Bool → Bool) (cs displayall : Bool)

/-- What earlier lookups leave of the exclude list. -/
def patternsLeft (X : PathList) (before : List CStr) : PathList :=
  before.foldl (fun X p => (X.dropWhile fun node => !wildcard node p cs).tail) X

/-- The patterns earlier lookups have taken do not matter for a path: with `-a` no pattern matches
it, and otherwise the first that matches is still there, or another one that reads the same. -/
def PatternsKept (X : PathList) (before : List CStr) (q : CStr) : Prop :=
  if displayall then before ≠ [] → ∀ node ∈ X, wildcard node q cs = false
  else (patternsLeft wildcard cs X before).find? (fun node => wildcard node q cs) =
    X.find? fun node => wildcard node q cs

theorem foldl_excludesLeft_all {before : List CStr} (h : before ≠ []) (X : PathList) :
    before.foldl (fun X p => excludesLeft wildcard cs true p X) X = [] := by
  induction before generalizing X with
  | nil => exact absurd rfl h
  | cons p before ih =>
    rw [List.foldl_cons, excludesLeft_all]
    cases before with
    | nil => rfl
    | cons p' before => exact ih (by simp) []

/-- The patterns have been kept exactly where a lookup prints the same of them. -/
theorem twhichExcludes_kept (X : PathList) (before : List CStr) (q : CStr) :
    twhichExcludes wildcard cs displayall q
        (before.foldl (fun X p => excludesLeft wildcard cs displayall p X) X) =
      twhichExcludes wildcard cs displayall q X ↔ PatternsKept wildcard cs displayall X before q := by
  cases displayall with
  | true =>
    rw [PatternsKept, if_pos rfl]
    by_cases hnil : before = []
    · subst hnil
      simp
    · rw [foldl_excludesLeft_all wildcard cs hnil, twhichExcludes_all, twhichExcludes_all]
      simp only [List.filter_nil, Prod.mk.injEq, and_true]
      rw [eq_comm, List.filter_eq_nil_iff]
      simp [hnil]
  | false =>
    have hleft : before.foldl (fun X p => excludesLeft wildcard cs false p X) X =
        patternsLeft wildcard cs X before := by
      simp only [excludesLeft_first, patternsLeft]
    rw [PatternsKept, if_neg Bool.false_ne_true, hleft, twhichExcludes_first, twhichExcludes_first,
      Prod.mk.injEq]
    constructor
    · intro h
      exact toList_injective h.1
    · intro h
      rw [h]
      exact ⟨rfl, rfl⟩

end

/-! ## The paths that are looked up -/

theorem cutPaths_grows {before p q : CStr} (h : q ∈ cutPaths before p) :
    before <+: q ∧ ∃ rest, q ++ slash :: rest = before ++ p := by
  induction p generalizing before with
  | nil => cases h
  | cons c p ih =>
    have hrest : q ∈ cutPaths (before ++ [c]) p →
        before <+: q ∧ ∃ rest, q ++ slash :: rest = before ++ c :: p := by
      intro hq
      obtain ⟨hgrow, rest, hrest⟩ := ih hq
      refine ⟨(List.prefix_append before [c]).trans hgrow, rest, ?_⟩
      rw [hrest, List.append_assoc]
      rfl
    rw [cutPaths] at h
    split_ifs at h with hc
    · subst hc
      rcases List.mem_cons.mp h with rfl | hmem
      · exact ⟨List.prefix_refl _, p, rfl⟩
      · exact hrest hmem
    · exact hrest h

theorem cutPaths_pairwise (before p : CStr) : (cutPaths before p).Pairwise (· <+: ·) := by
  induction p generalizing before with
  | nil => exact .nil
  | cons c p ih =>
    rw [cutPaths]
    split_ifs
    · refine List.pairwise_cons.mpr ⟨fun q hq => ?_, ih _⟩
      exact (List.prefix_append before [c]).trans (cutPaths_grows hq).1
    · exact ih _

/-- Each path that is looked up starts with those before it. -/
theorem recursivePaths_pairwise (pattern : CStr) :
    (recursivePaths pattern).Pairwise (· <+: ·) := by
  refine List.pairwise_append.mpr ⟨cutPaths_pairwise _ _, List.pairwise_singleton _ _, ?_⟩
  intro p hp q hq
  obtain rfl := List.mem_singleton.mp hq
  obtain ⟨-, rest, hrest⟩ := cutPaths_grows hp
  rw [List.takeWhile_append_dropWhile] at hrest
  exact ⟨slash :: rest, hrest⟩

theorem patternFormat_append {q : CStr} (hq : q ≠ []) (rest : CStr) :
    patternFormat (q ++ slash :: rest) = patternFormat q := by
  obtain ⟨c, q, rfl⟩ := List.exists_cons_of_ne_nil hq
  by_cases hc : c = dot
  · subst hc
    cases q <;> rfl
  · have habsolute : ∀ p, patternFormat (c :: p) = .absolute := by
      intro p
      unfold patternFormat
      split
      next heq => exact absurd (List.cons.inj heq).1 hc
      next => rfl
    rw [List.cons_append, habsolute, habsolute]

/-- The transcripts are read in one format for all of them. -/
theorem patternFormat_of_mem {pattern q : CStr} (h : q ∈ recursivePaths pattern) :
    patternFormat q = patternFormat pattern := by
  rcases List.mem_append.mp h with hcut | hlast
  · obtain ⟨hgrow, rest, hrest⟩ := cutPaths_grows hcut
    rw [List.takeWhile_append_dropWhile] at hrest
    have hne : q ≠ [] := by
      intro hnil
      subst hnil
      -- the first slash is a leading one
      have hlead : pattern.takeWhile (· = slash) = [] := List.prefix_nil.mp hgrow
      rw [← hrest] at hlead
      simp at hlead
    rw [← hrest, patternFormat_append hne]
  · rw [List.mem_singleton.mp hlast]

/-! ## The lookups of `twhich -r` -/

/-- A name that ends before a path starts to differ from it sorts before all that start with the
path. -/
theorem pathcasecmp_append_neg {cs : Bool} {name p : CStr}
    (hname : cs = false → ∀ c ∈ name, c < 128) (rest : CStr)
    (h : pathcasecmp name p cs < 0) : pathcasecmp name (p ++ rest) cs < 0 := by
  induction name generalizing p with
  | nil =>
    cases p with
    | nil => simp [pathcasecmp] at h
    | cons c2 p => exact h
  | cons c1 name ih =>
    cases p with
    | nil =>
      -- a name is not before a path it starts with
      have hweight : 0 ≤ byteDiff cs c1 nul := by
        unfold byteDiff
        cases cs with
        | true => simp
        | false =>
          have hc1 := hname rfl c1 List.mem_cons_self
          have hlower : 0 ≤ tolowerChar c1 := by
            unfold tolowerChar schar
            rw [if_pos hc1]
            split_ifs <;> omega
          show 0 ≤ tolowerChar c1 - tolowerChar nul
          rw [show tolowerChar nul = 0 by decide]
          omega
      rw [pathcasecmp, byteVerdict, if_neg (by simp), if_neg fun h => absurd h.2 (by decide)] at h
      exact absurd h (not_lt.mpr hweight)
    | cons c2 p =>
      rw [List.cons_append, pathcasecmp]
      rw [pathcasecmp] at h
      split_ifs at h ⊢
      · exact h
      · exact ih (fun hcs c hc => hname hcs c (List.mem_cons_of_mem _ hc)) h

section

variable {cfg : KfileConfig} {wildcard : CStr → CStr → Bool → Bool} {displayall : Bool}

/-- A line whose name `pathcasecmp` orders as it orders those of other lines. -/
def PlainName (cs : Bool) (e : PathInfo) : Prop := cs = false → ∀ c ∈ e.piName, c < 128

/-- A lookup leaves the transcripts ahead. -/
theorem twhichLeaves_ahead {q : CStr} {later : List CStr} {ok : PathInfo → Prop}
    (hmono : ∀ e, ok e → ∀ p ∈ later, pathcasecmp e.piName q cfg.caseSensitive < 0 →
      pathcasecmp e.piName p cfg.caseSensitive < 0)
    {ts₀ ts : List Transcript}
    (h : List.Forall₂ (Ahead cfg.toParseConfig ok (q :: later)) ts₀ ts) {st : KfileState}
    (hst : st.tranHead = ts ++ [nullTranscript]) :
    ∃ st' ts', twhichLeaves cfg wildcard displayall st q = .ok st' ∧
      st'.tranHead = ts' ++ [nullTranscript] ∧
      List.Forall₂ (Ahead cfg.toParseConfig ok later) ts₀ ts' ∧
      st'.excludeList = excludesLeft wildcard cfg.caseSensitive displayall q st.excludeList := by
  have hlater : later ⊆ q :: later := List.subset_cons_self q later
  obtain ⟨found, ahead₀, ahead, -, hrun, hmoved⟩ :=
    @twhichRun_ahead cfg.toParseConfig displayall q ok (q :: later) List.mem_cons_self ts₀ ts h 0
  obtain ⟨buf', hrun'⟩ := hrun st.buf
  unfold twhichLeaves
  by_cases hdone :
      (twhichExcludes wildcard cfg.caseSensitive displayall q st.excludeList).2 = true
  · refine ⟨_, ts, if_pos hdone, hst, h.imp fun t₀ t ht => ?_, rfl⟩
    exact ht.step hlater hmono (.inl rfl)
  · refine ⟨{ st with
        tranHead := ahead ++ [nullTranscript]
        buf := buf'
        excludeList := excludesLeft wildcard cfg.caseSensitive displayall q st.excludeList },
      ahead, ?_, rfl, ?_, rfl⟩
    · rw [if_neg hdone, hst, hrun']
      rfl
    · clear hrun' hrun hst
      induction h generalizing ahead with
      | nil =>
        obtain rfl := List.forall₂_nil_left_iff.mp hmoved
        exact .nil
      | @cons t₀ t ts₀ ts ht _ ih =>
        cases hmoved with
        | cons hu hmoved => exact .cons (ht.step hlater hmono hu) (ih _ hmoved)

/-- The lookups of some paths leave the transcripts ahead. -/
theorem foldlM_twhichLeaves {before later : List CStr}
    (hgrow : (before ++ later).Pairwise (· <+: ·)) {ts₀ ts : List Transcript}
    (h : List.Forall₂ (Ahead cfg.toParseConfig (PlainName cfg.caseSensitive) (before ++ later))
      ts₀ ts) {st : KfileState} (hst : st.tranHead = ts ++ [nullTranscript]) :
    ∃ st' ts', before.foldlM (twhichLeaves cfg wildcard displayall) st = .ok st' ∧
      st'.tranHead = ts' ++ [nullTranscript] ∧
      List.Forall₂ (Ahead cfg.toParseConfig (PlainName cfg.caseSensitive) later) ts₀ ts' := by
  induction before generalizing st ts with
  | nil => exact ⟨st, ts, rfl, hst, h⟩
  | cons q before ih =>
    obtain ⟨hq, hgrow⟩ := List.pairwise_cons.mp hgrow
    have hmono : ∀ e, PlainName cfg.caseSensitive e → ∀ p ∈ before ++ later,
        pathcasecmp e.piName q cfg.caseSensitive < 0 →
          pathcasecmp e.piName p cfg.caseSensitive < 0 := by
      intro e he p hp hlt
      obtain ⟨rest, rfl⟩ := hq p hp
      exact pathcasecmp_append_neg he rest hlt
    obtain ⟨st₁, ts₁, hleaves, hst₁, h₁, -⟩ := twhichLeaves_ahead hmono h hst
    obtain ⟨st', ts', hfold, hst', h'⟩ := ih hgrow h₁ hst₁
    refine ⟨st', ts', ?_, hst', h'⟩
    rw [List.foldlM_cons, hleaves]
    exact hfold

/-- Transcripts can be looked at from where they stand. -/
theorem ahead_same {ok : PathInfo → Prop} {later later' : List CStr} {ts₀ ts : List Transcript}
    (h : List.Forall₂ (Ahead cfg.toParseConfig ok later) ts₀ ts) :
    List.Forall₂ (Ahead cfg.toParseConfig ok later') ts ts := by
  induction h with
  | nil => exact .nil
  | cons ht _ ih => exact .cons ⟨ht.lists, fun _ _ _ _ h => h⟩ ih

/-- What the lookups of some paths leave of the exclude list. -/
theorem foldlM_twhichLeaves_excludes {before : List CStr} {ts₀ ts : List Transcript}
    (h : List.Forall₂ (Ahead cfg.toParseConfig (fun _ => True) []) ts₀ ts) {st st' : KfileState}
    (hst : st.tranHead = ts ++ [nullTranscript])
    (hfold : before.foldlM (twhichLeaves cfg wildcard displayall) st = .ok st') :
    st'.excludeList = before.foldl
      (fun X p => excludesLeft wildcard cfg.caseSensitive displayall p X) st.excludeList := by
  induction before generalizing st ts₀ ts with
  | nil =>
    cases hfold
    rfl
  | cons q before ih =>
    obtain ⟨st₁, ts₁, hleaves, hst₁, h₁, hexcludes⟩ :=
      @twhichLeaves_ahead cfg wildcard displayall q [] (fun _ => True)
        (fun _ _ _ hp => absurd hp List.not_mem_nil) ts ts (ahead_same h) st hst
    rw [List.foldlM_cons, hleaves] at hfold
    rw [ih h₁ hst₁ hfold, hexcludes]
    rfl

theorem lists_ahead {ok : PathInfo → Prop} {later : List CStr} {ts : List Transcript}
    {ess : List (List PathInfo)} (hl : List.Forall₂ (Lists cfg.toParseConfig) ts ess)
    (hok : ∀ es ∈ ess, ∀ e ∈ es, ok e) :
    List.Forall₂ (Ahead cfg.toParseConfig ok later) ts ts := by
  induction hl with
  | nil => exact .nil
  | cons ht _ ih =>
    obtain ⟨hes, hok⟩ := List.forall_mem_cons.mp hok
    exact .cons ⟨⟨_, ht, hes⟩, fun _ _ _ _ h => h⟩ (ih hok)

/-- What a lookup prints, if the loop comes to an end. -/
theorem twhich_of_run {q : CStr} {found : List (Nat × Transcript)} {st : KfileState}
    {ts ahead : List Transcript} (hst : st.tranHead = ts ++ [nullTranscript])
    (hrun : ∀ buf, ∃ buf', twhichRun cfg.toParseConfig displayall q 0 (ts ++ [nullTranscript]) buf =
      .ok (found, ahead, buf')) :
    twhich cfg wildcard displayall st q =
      .ok (let (excludes, done) :=
          twhichExcludes wildcard cfg.caseSensitive displayall q st.excludeList
        if done then ⟨excludes, [], 1⟩
        else ⟨excludes, found, if found.isEmpty then 1 else 0⟩) := by
  obtain ⟨buf', hrun⟩ := hrun st.buf
  rw [twhich, twhichLoop_eq_run, hst, hrun]
  simp only [Except.map]
  split <;> rfl

theorem twhich_excludes {q : CStr} {st : KfileState} {out : TwhichOutput}
    (h : twhich cfg wildcard displayall st q = .ok out) :
    out.excludes = (twhichExcludes wildcard cfg.caseSensitive displayall q st.excludeList).1 := by
  unfold twhich at h
  split at h
  next excludes done heq =>
  rw [heq]
  split_ifs at h
  · cases h
    rfl
  · cases hloop : twhichLoop cfg.toParseConfig displayall q 0 st.tranHead st.buf with
    | error e => simp [hloop, Except.map] at h
    | ok found =>
      rw [hloop] at h
      cases h
      rfl

section

variable {before after : List CStr} {q : CStr} {ts : List Transcript} {ess : List (List PathInfo)}
  {st : KfileState}

/-- Where patterns that matter have been taken, something else is printed. -/
theorem patternsKept_of_recursiveLookup (hl : List.Forall₂ (Lists cfg.toParseConfig) ts ess)
    (hst : st.tranHead = ts ++ [nullTranscript])
    (h : recursiveLookup cfg wildcard displayall st before q =
      twhich cfg wildcard displayall st q) :
    PatternsKept wildcard cfg.caseSensitive displayall st.excludeList before q := by
  have hstart : ∀ later, List.Forall₂ (Ahead cfg.toParseConfig (fun _ => True) later) ts ts :=
    fun later => lists_ahead hl fun _ _ _ _ => trivial
  obtain ⟨found, ahead₀, ahead, hrun₀, -, -⟩ := @twhichRun_ahead cfg.toParseConfig displayall q
    _ _ List.mem_cons_self _ _ (hstart [q]) 0
  rw [twhich_of_run hst hrun₀, recursiveLookup] at h
  cases hfold : before.foldlM (twhichLeaves cfg wildcard displayall) st with
  | error e => simp [hfold] at h
  | ok st' =>
    have hexcludes := foldlM_twhichLeaves_excludes (hstart []) hst hfold
    simp only [hfold] at h
    rw [← twhichExcludes_kept, ← hexcludes]
    refine twhichExcludes_ext ?_
    rw [← twhich_excludes h]
    split <;> rfl

/-- The transcripts a lookup finds are the same behind other lookups. -/
theorem recursiveLookup_eq (hgrow : (before ++ q :: after).Pairwise (· <+: ·))
    (hl : List.Forall₂ (Lists cfg.toParseConfig) ts ess)
    (hplain : ∀ es ∈ ess, ∀ e ∈ es, PlainName cfg.caseSensitive e)
    (hst : st.tranHead = ts ++ [nullTranscript])
    (h : PatternsKept wildcard cfg.caseSensitive displayall st.excludeList before q) :
    recursiveLookup cfg wildcard displayall st before q = twhich cfg wildcard displayall st q := by
  obtain ⟨st', ts', hfold, hst', hahead⟩ :=
    @foldlM_twhichLeaves cfg wildcard displayall before (q :: after) hgrow _ _
      (lists_ahead hl hplain) st hst
  have hexcludes := foldlM_twhichLeaves_excludes
    (lists_ahead hl fun _ _ _ _ => trivial) hst hfold
  obtain ⟨found, ahead₀, ahead, hrun₀, hrun, -⟩ :=
    @twhichRun_ahead cfg.toParseConfig displayall q _ _ List.mem_cons_self _ _ hahead 0
  rw [recursiveLookup, hfold]
  simp only
  rw [twhich_of_run hst' hrun, twhich_of_run hst hrun₀, hexcludes,
    (twhichExcludes_kept _ _ _ _ _ _).mpr h]

end

end

section

variable (cfg : KfileConfig) (wildcard : CStr → CStr → Bool → Bool) (displayall : Bool)
  (read : TranFormat → KfileState) (pattern : CStr)

/-- A path that `twhich -r` looks up, behind others, and that `twhich` can be given alone: it
would clip a slash at the end. -/
def LooksUp (before : List CStr) (q : CStr) : Prop :=
  clipSlash q = q ∧ ∃ after, recursivePaths (clipSlash pattern) = before ++ q :: after

/-- What `twhich -r` prints of each path it looks up is what `twhich` prints of this path alone,
where `read` is what `transcript_init` reads. -/
def RecursiveIsFresh : Prop :=
  ∀ before q, LooksUp pattern before q →
    recursiveLookup (cfg.ofPattern (clipSlash pattern)) wildcard displayall
        (read (patternFormat (clipSlash pattern))) before q =
      twhich (cfg.ofPattern q) wildcard displayall (read (patternFormat q)) q

/-- No path has lost a pattern that matters to those before it. -/
def PatternsUntaken : Prop :=
  ∀ before q, LooksUp pattern before q → PatternsKept wildcard cfg.caseSensitive displayall
    (read (patternFormat (clipSlash pattern))).excludeList before q

end

/-- `wildcard` on a pattern of the exclude list. -/
def excludePattern (node path : CStr) (caseSensitive : Bool) : Bool :=
  wildcard (node ++ [nul]) (path ++ [nul]) caseSensitive = some true

/-- One exclude pattern, and a transcript that lists `/a`. -/
def excludeState (_ : TranFormat) : KfileState :=
  { kfileStateOf [listsA] with excludeList := [lit "/a*"] }

end Radmind
