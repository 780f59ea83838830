import Radmind.Lib.PrecedenceMerge
import Radmind.Transcript.Parse

/-!
# Choosing the next transcript line

The run keeps one cursor in every transcript of the list, highest precedence
first and the NULL transcript last.  `transcript_select` returns the transcript
whose line comes next, after it has moved the cursors past the lines nobody
wants to see.

`Holds` says what the cursors stand for: the merge of all lines still to come.
Each call returns the head of the merge and leaves the merge as it is.
-/

namespace Radmind

open PrecedenceMerge

/-- The settings `transcript_select` reads.  `tExclude` is `t_exclude`. -/
structure SelectConfig extends ParseConfig where
  pathPrefix : Option CStr
  tExclude : CStr → Bool
  excludeWarnings : Bool

/-- The list from `tran_head`, the static buffer of `decode`, and the paths
warned about. -/
structure Cursors where
  tranHead : List Transcript
  buf : List Byte
  warned : List CStr

/-- The first loop of `transcript_select`, from `begin_tran` at its index on. -/
def scan (caseSensitive : Bool) (beginTran : Nat × Transcript) (n : Nat) :
    List Transcript → Nat × Transcript
  | [] => beginTran
  | next :: rest =>
    if beginTran.2.tEof then scan caseSensitive (n, next) (n + 1) rest
    else if !next.tEof &&
        pathcasecmp next.tPinfo.piName beginTran.2.tPinfo.piName caseSensitive < 0 then
      scan caseSensitive (n, next) (n + 1) rest
    else scan caseSensitive beginTran (n + 1) rest

/-- The second loop: move ahead the transcripts that match, whether or not they
are at their end. -/
def moveAhead (cfg : ParseConfig) (name : CStr) (buf : List Byte) :
    List Transcript → Except Exit (List Transcript × List Byte)
  | [] => .ok ([], buf)
  | next :: rest =>
    match (if pathcasecmp name next.tPinfo.piName cfg.caseSensitive = 0 then
        transcriptParse cfg buf next else .ok (next, buf)) with
    | .error e => .error e
    | .ok (next, buf) =>
      match moveAhead cfg name buf rest with
      | .error e => .error e
      | .ok (rest, buf) => .ok (next :: rest, buf)

/-- `transcript_parse` on the transcript at an index of the list. -/
def advance (cfg : SelectConfig) (c : Cursors) (i : Nat) : Except Exit Cursors :=
  match c.tranHead[i]? with
  | none => .error .overrun
  | some tran =>
    match transcriptParse cfg.toParseConfig c.buf tran with
    | .error e => .error e
    | .ok (tran, buf) => .ok { c with tranHead := c.tranHead.set i tran, buf := buf }

def excluded (cfg : SelectConfig) (tran : Transcript) : Bool :=
  tran.tType ≠ .special && cfg.tExclude tran.tPinfo.piName

/-- The reasons to pretend a line is not there: a leading '-', an exclude
pattern, a path outside of the initial one. -/
def hides (cfg : SelectConfig) (tran : Transcript) : Bool :=
  tran.tPinfo.piMinus || excluded cfg tran ||
    !ischildcase tran.tPinfo.piName cfg.pathPrefix cfg.caseSensitive

/-- The warning about an excluded line. -/
def warn (cfg : SelectConfig) (tran : Transcript) (c : Cursors) : Cursors :=
  if !tran.tPinfo.piMinus && excluded cfg tran && cfg.excludeWarnings then
    { c with warned := c.warned ++ [tran.tPinfo.piName] }
  else c

/-- One round of the loop of `transcript_select` up to the choice of
`begin_tran`. -/
def selectPass (cfg : SelectConfig) (c : Cursors) : Except Exit (Cursors × Nat × Transcript) :=
  match c.tranHead with
  | [] => .error .overrun
  | head :: rest =>
    let (i, beginTran) := scan cfg.caseSensitive (0, head) 1 rest
    match moveAhead cfg.toParseConfig beginTran.tPinfo.piName c.buf (c.tranHead.drop (i + 1)) with
    | .error e => .error e
    | .ok (moved, buf) =>
      .ok ({ c with tranHead := c.tranHead.take (i + 1) ++ moved, buf := buf }, i, beginTran)

def selectLoop (cfg : SelectConfig) : Nat → Cursors → Except Exit (Cursors × Nat)
  | 0, _ => .error .outOfFuel
  | fuel + 1, c =>
    match selectPass cfg c with
    | .error e => .error e
    | .ok (c, i, beginTran) =>
      if beginTran.tEof || !hides cfg beginTran then .ok (c, i)
      else
        match advance cfg (warn cfg beginTran c) i with
        | .error e => .error e
        | .ok c => selectLoop cfg fuel c

/-- What is left to read: the bytes, and the ends not yet reached. -/
def Transcript.unread (tran : Transcript) : Nat :=
  tran.tIn.length + if tran.tEof then 0 else 1

def Cursors.unread (c : Cursors) : Nat := (c.tranHead.map Transcript.unread).sum

/-- `transcript_select`, with the index of the transcript it returns. -/
def transcriptSelect (cfg : SelectConfig) (c : Cursors) : Except Exit (Cursors × Nat) :=
  selectLoop cfg (c.unread + 1) c

/-! ## Termination -/

theorem transcriptParse_unread_le {cfg : ParseConfig} {buf buf' : List Byte}
    {tran tran' : Transcript} (h : transcriptParse cfg buf tran = .ok (tran', buf')) :
    tran'.unread ≤ tran.unread ∧ (tran.tEof = false → tran'.unread < tran.unread) := by
  obtain ⟨-, -, ⟨heof, hin, -, -⟩ | ⟨heof, hin, -, -⟩⟩ := transcriptParse_cases h
  · simp only [Transcript.unread, heof, hin, List.length_nil, if_true]
    exact ⟨by omega, fun h => by simp [h]⟩
  · simp only [Transcript.unread, heof]
    omega

theorem moveAhead_unread_le {cfg : ParseConfig} {name : CStr} {buf buf' : List Byte}
    {ts ts' : List Transcript} (h : moveAhead cfg name buf ts = .ok (ts', buf')) :
    (ts'.map Transcript.unread).sum ≤ (ts.map Transcript.unread).sum := by
  induction ts generalizing buf buf' ts' with
  | nil =>
    obtain ⟨rfl, -⟩ := Prod.mk.inj (Except.ok.inj h)
    exact le_rfl
  | cons t ts ih =>
    rw [moveAhead] at h
    split at h
    · exact absurd h (by simp)
    next t' buf₁ ht =>
    split at h
    · exact absurd h (by simp)
    next ts₁ buf₂ hts =>
    obtain ⟨rfl, -⟩ := Prod.mk.inj (Except.ok.inj h)
    have hle : t'.unread ≤ t.unread := by
      split at ht
      · exact (transcriptParse_unread_le ht).1
      · exact (Prod.mk.inj (Except.ok.inj ht)).1 ▸ le_rfl
    have := ih hts
    simp only [List.map_cons, List.sum_cons]
    omega

theorem sum_map_set_lt {ts : List Transcript} {i : Nat} {t t' : Transcript}
    (hi : ts[i]? = some t) (h : t'.unread < t.unread) :
    ((ts.set i t').map Transcript.unread).sum < (ts.map Transcript.unread).sum := by
  induction ts generalizing i with
  | nil => simp at hi
  | cons u ts ih =>
    cases i with
    | zero =>
      obtain rfl := Option.some.inj hi
      simp only [List.set_cons_zero, List.map_cons, List.sum_cons]
      omega
    | succ i =>
      have := ih (i := i) hi
      simp only [List.set_cons_succ, List.map_cons, List.sum_cons]
      omega

theorem advance_unread_lt {cfg : SelectConfig} {c c' : Cursors} {i : Nat} {t : Transcript}
    (hi : c.tranHead[i]? = some t) (heof : t.tEof = false) (h : advance cfg c i = .ok c') :
    c'.unread < c.unread := by
  rw [advance, hi] at h
  simp only at h
  split at h
  · exact absurd h (by simp)
  next t' buf ht =>
  obtain rfl := Except.ok.inj h
  exact sum_map_set_lt hi ((transcriptParse_unread_le ht).2 heof)

@[simp] theorem warn_tranHead (cfg : SelectConfig) (t : Transcript) (c : Cursors) :
    (warn cfg t c).tranHead = c.tranHead := by
  unfold warn
  split <;> rfl

@[simp] theorem warn_buf (cfg : SelectConfig) (t : Transcript) (c : Cursors) :
    (warn cfg t c).buf = c.buf := by
  unfold warn
  split <;> rfl

theorem warn_unread (cfg : SelectConfig) (t : Transcript) (c : Cursors) :
    (warn cfg t c).unread = c.unread := by
  rw [Cursors.unread, warn_tranHead, Cursors.unread]

/-- `scan` returns an element of the list at its index. -/
theorem scan_get (cs : Bool) {pre : List Transcript} {b : Nat × Transcript}
    (hb : pre[b.1]? = some b.2) (rest : List Transcript) :
    (pre ++ rest)[(scan cs b pre.length rest).1]? = some (scan cs b pre.length rest).2 := by
  induction rest generalizing pre b with
  | nil => simpa [scan] using hb
  | cons t rest ih =>
    have hlt : b.1 < pre.length := (List.getElem?_eq_some_iff.mp hb).1
    have hold : (pre ++ [t])[b.1]? = some b.2 := by
      rw [List.getElem?_append_left hlt, hb]
    have hnew : (pre ++ [t])[pre.length]? = some t := by simp
    have hlen : (pre ++ [t]).length = pre.length + 1 := by simp
    have hold' := ih hold
    have hnew' := ih (b := (pre.length, t)) hnew
    rw [hlen, List.append_assoc, List.singleton_append] at hold' hnew'
    rw [scan]
    split_ifs
    · exact hnew'
    · exact hnew'
    · exact hold'

theorem selectPass_spec {cfg : SelectConfig} {c c' : Cursors} {i : Nat} {t : Transcript}
    (h : selectPass cfg c = .ok (c', i, t)) :
    c.tranHead[i]? = some t ∧ c'.tranHead[i]? = some t ∧ c'.unread ≤ c.unread := by
  unfold selectPass at h
  split at h
  · exact absurd h (by simp)
  next head rest hc =>
  simp only at h
  split at h
  · exact absurd h (by simp)
  next moved buf hm =>
  obtain ⟨rfl, hit⟩ := Prod.mk.inj (Except.ok.inj h)
  obtain ⟨rfl, rfl⟩ := Prod.mk.inj hit
  have hhead : [head][0]? = some head := rfl
  have hget := scan_get cfg.caseSensitive (b := (0, head)) hhead rest
  rw [List.singleton_append, ← hc, List.length_singleton] at hget
  have hlt := (List.getElem?_eq_some_iff.mp hget).1
  refine ⟨hget, ?_, ?_⟩
  · simp only
    rw [List.getElem?_append_left (by rw [List.length_take]; omega), List.getElem?_take,
      if_pos (by omega), hget]
  · have hle := moveAhead_unread_le hm
    have hsplit : c.unread = ((c.tranHead.take ((scan cfg.caseSensitive (0, head) 1 rest).1 + 1)).map
        Transcript.unread).sum + ((c.tranHead.drop
          ((scan cfg.caseSensitive (0, head) 1 rest).1 + 1)).map Transcript.unread).sum := by
      rw [← List.sum_append, ← List.map_append, List.take_append_drop, Cursors.unread]
    simp only [Cursors.unread, List.map_append, List.sum_append] at hsplit ⊢
    omega

theorem moveAhead_ne_outOfFuel (cfg : ParseConfig) (name : CStr) (buf : List Byte)
    (ts : List Transcript) : moveAhead cfg name buf ts ≠ .error .outOfFuel := by
  induction ts generalizing buf with
  | nil => simp [moveAhead]
  | cons t ts ih =>
    intro h
    rw [moveAhead] at h
    split at h
    · next e ht =>
      obtain rfl := Except.error.inj h
      split at ht
      · exact transcriptParse_ne_outOfFuel _ _ _ ht
      · simp at ht
    · split at h
      · next e hts =>
        obtain rfl := Except.error.inj h
        exact ih _ hts
      · simp at h

theorem selectLoop_ne_outOfFuel {cfg : SelectConfig} {fuel : Nat} {c : Cursors}
    (h : c.unread < fuel) : selectLoop cfg fuel c ≠ .error .outOfFuel := by
  induction fuel generalizing c with
  | zero => omega
  | succ fuel ih =>
    intro herr
    rw [selectLoop] at herr
    cases hp : selectPass cfg c with
    | error e =>
      rw [hp] at herr
      obtain rfl := Except.error.inj herr
      unfold selectPass at hp
      split at hp
      · simp at hp
      · simp only at hp
        split at hp
        · next hm =>
          obtain rfl := Except.error.inj hp
          exact moveAhead_ne_outOfFuel _ _ _ _ hm
        · simp at hp
    | ok r =>
      obtain ⟨c', i, t⟩ := r
      simp only [hp] at herr
      obtain ⟨-, hget, hle⟩ := selectPass_spec hp
      split at herr
      · simp at herr
      next hstop =>
      have heof : t.tEof = false := by
        cases ht : t.tEof with
        | false => rfl
        | true => simp [ht] at hstop
      rw [← warn_tranHead cfg t c'] at hget
      cases ha : advance cfg (warn cfg t c') i with
      | error e =>
        rw [ha] at herr
        obtain rfl := Except.error.inj herr
        rw [advance, hget] at ha
        simp only at ha
        split at ha
        · next hparse =>
          obtain rfl := Except.error.inj ha
          exact transcriptParse_ne_outOfFuel _ _ _ hparse
        · simp at ha
      | ok c'' =>
        have hlt := advance_unread_lt hget heof ha
        rw [warn_unread] at hlt
        simp only [ha] at herr
        exact ih (by omega) herr

/-- Every call ends, in whatever state the cursors are. -/
theorem transcriptSelect_terminates (cfg : SelectConfig) (c : Cursors) :
    transcriptSelect cfg c ≠ .error .outOfFuel :=
  selectLoop_ne_outOfFuel (Nat.lt_succ_self _)

/-! ## The lines of a transcript -/

/-- The records of a transcript from its current line on, which do not depend on
what `decode` did before. -/
inductive Lists (cfg : ParseConfig) : Transcript → List PathInfo → Prop
  | eof {tran : Transcript} : tran.tEof = true → tran.tIn = [] → Lists cfg tran []
  | line {tran tran' : Transcript} {es : List PathInfo} : tran.tEof = false →
      (∀ buf, ∃ buf', transcriptParse cfg buf tran = .ok (tran', buf')) →
      Lists cfg tran' es → Lists cfg tran (tran.tPinfo :: es)

/-- What orders the lines. -/
def PathInfo.key (caseSensitive : Bool) (pi : PathInfo) : List Nat :=
  pathKey caseSensitive pi.piName

/-- A name the order is about. -/
def NameOk (caseSensitive : Bool) (pi : PathInfo) : Prop :=
  Ranked caseSensitive pi.piName ∧ pi.piName ≠ []

theorem Lists.eof_inv {cfg : ParseConfig} {t : Transcript} {es : List PathInfo}
    (h : Lists cfg t es) (heof : t.tEof = true) : es = [] ∧ t.tIn = [] := by
  cases h with
  | eof _ hin => exact ⟨rfl, hin⟩
  | line hne => simp [heof] at hne

theorem Lists.cons_inv {cfg : ParseConfig} {t : Transcript} {es : List PathInfo}
    (h : Lists cfg t es) (heof : t.tEof = false) : ∃ t' es', es = t.tPinfo :: es' ∧
      (∀ buf, ∃ buf', transcriptParse cfg buf t = .ok (t', buf')) ∧ Lists cfg t' es' := by
  cases h with
  | eof h => simp [heof] at h
  | line _ hp hl => exact ⟨_, _, rfl, hp, hl⟩

/-- The check of the parser puts the lines of a transcript in order. -/
theorem Lists.ascending {cfg : ParseConfig} {t : Transcript} {es : List PathInfo}
    (h : Lists cfg t es) (hnames : ∀ e ∈ es, NameOk cfg.caseSensitive e) :
    Ascending (PathInfo.key cfg.caseSensitive) es := by
  induction h with
  | eof => exact List.Pairwise.nil
  | @line t t' es heof hp hl ih =>
    have ih := ih fun e he => hnames e (List.mem_cons_of_mem _ he)
    refine List.pairwise_cons.mpr ⟨?_, ih⟩
    cases hl with
    | eof => exact fun e he => absurd he List.not_mem_nil
    | @line _ t'' es heof' _ _ =>
      obtain ⟨buf', hparse⟩ := hp []
      obtain ⟨-, -, ⟨heof'', -⟩ | ⟨-, -, -, hlt⟩⟩ := transcriptParse_cases hparse
      · simp [heof'] at heof''
      · have ht := (hnames t.tPinfo List.mem_cons_self).1
        have ht' := (hnames t'.tPinfo (List.mem_cons_of_mem _ List.mem_cons_self)).1
        have hlt : t.tPinfo.key cfg.caseSensitive < t'.tPinfo.key cfg.caseSensitive :=
          (pathcasecmp_pos ht' ht).mp hlt
        intro e he
        rcases List.mem_cons.mp he with rfl | he
        · exact hlt
        · exact lt_trans hlt ((List.pairwise_cons.mp ih).1 e he)

/-! ## The first loop -/

/-- `t` is the first of the transcripts with the least name, or the last one where
all are at their end. -/
structure Begins (caseSensitive : Bool) (ts : List Transcript) (i : Nat) (t : Transcript) :
    Prop where
  get : ts[i]? = some t
  atEnd : t.tEof = true → (∀ u ∈ ts, u.tEof = true) ∧ i + 1 = ts.length
  least : t.tEof = false → ∀ u ∈ ts, u.tEof = false →
    ¬ u.tPinfo.key caseSensitive < t.tPinfo.key caseSensitive
  first : t.tEof = false → ∀ j < i, ∀ u, ts[j]? = some u → u.tEof = false →
    t.tPinfo.key caseSensitive < u.tPinfo.key caseSensitive

/-- The names the first loop compares. -/
def RankedNames (caseSensitive : Bool) (ts : List Transcript) : Prop :=
  ∀ t ∈ ts, t.tEof = false → Ranked caseSensitive t.tPinfo.piName

theorem Begins.unique {cs : Bool} {ts : List Transcript} {i j : Nat} {t u : Transcript}
    (h : Begins cs ts i t) (h' : Begins cs ts j u) : i = j ∧ t = u := by
  have hij : i = j := by
    cases ht : t.tEof with
    | true =>
      have hu := (h.atEnd ht).1 u (List.mem_of_getElem? h'.get)
      have := (h.atEnd ht).2
      have := (h'.atEnd hu).2
      omega
    | false =>
      have hu : u.tEof = false := by
        by_contra hu
        have := (h'.atEnd (by simpa using hu)).1 t (List.mem_of_getElem? h.get)
        simp [ht] at this
      rcases Nat.lt_trichotomy i j with hlt | heq | hgt
      · exact absurd (h'.first hu i hlt t h.get ht)
          (h.least ht u (List.mem_of_getElem? h'.get) hu)
      · exact heq
      · exact absurd (h.first ht j hgt u h'.get hu)
          (h'.least hu t (List.mem_of_getElem? h.get) ht)
  subst hij
  exact ⟨rfl, Option.some.inj (h.get.symm.trans h'.get)⟩

/-- A transcript that is passed by. -/
theorem Begins.keep {cs : Bool} {ts : List Transcript} {i : Nat} {t u : Transcript}
    (h : Begins cs ts i t) (heof : t.tEof = false)
    (hu : u.tEof = false → ¬ u.tPinfo.key cs < t.tPinfo.key cs) : Begins cs (ts ++ [u]) i t := by
  have hlt := (List.getElem?_eq_some_iff.mp h.get).1
  refine ⟨by rw [List.getElem?_append_left hlt, h.get], fun ht => by simp [heof] at ht, ?_, ?_⟩
  · intro _ v hv hveof
    rcases List.mem_append.mp hv with hv | hv
    · exact h.least heof v hv hveof
    · rw [List.mem_singleton] at hv
      subst hv
      exact hu hveof
  · intro _ j hj v hv hveof
    rw [List.getElem?_append_left (by omega)] at hv
    exact h.first heof j hj v hv hveof

/-- A transcript that takes over from one at its end or with a greater name. -/
theorem Begins.replace {cs : Bool} {ts : List Transcript} {i : Nat} {t u : Transcript}
    (h : Begins cs ts i t)
    (hu : t.tEof = false → u.tEof = false ∧ u.tPinfo.key cs < t.tPinfo.key cs) :
    Begins cs (ts ++ [u]) ts.length u := by
  -- nothing before u is at least as small
  have hold : u.tEof = false → ∀ v ∈ ts, v.tEof = false → u.tPinfo.key cs < v.tPinfo.key cs := by
    intro hueof v hv hveof
    cases ht : t.tEof with
    | true => simp [(h.atEnd ht).1 v hv] at hveof
    | false => exact lt_of_lt_of_le (hu ht).2 (not_lt.mp (h.least ht v hv hveof))
  refine ⟨by simp, fun hueof => ⟨?_, by simp⟩, ?_, ?_⟩
  · have ht : t.tEof = true := by
      by_contra ht
      have := (hu (by simpa using ht)).1
      simp [hueof] at this
    intro v hv
    rcases List.mem_append.mp hv with hv | hv
    · exact (h.atEnd ht).1 v hv
    · rw [List.mem_singleton] at hv
      exact hv ▸ hueof
  · intro hueof v hv hveof
    rcases List.mem_append.mp hv with hv | hv
    · exact not_lt_of_gt (hold hueof v hv hveof)
    · rw [List.mem_singleton] at hv
      exact hv ▸ lt_irrefl _
  · intro hueof j hj v hv hveof
    rw [List.getElem?_append_left hj] at hv
    exact hold hueof v (List.mem_of_getElem? hv) hveof

theorem begins_scan {cs : Bool} {pre rest : List Transcript} {b : Nat × Transcript}
    (hb : Begins cs pre b.1 b.2) (hnames : RankedNames cs (pre ++ rest)) :
    Begins cs (pre ++ rest) (scan cs b pre.length rest).1 (scan cs b pre.length rest).2 := by
  induction rest generalizing pre b with
  | nil => simpa [scan] using hb
  | cons u rest ih =>
    rw [← List.singleton_append, ← List.append_assoc] at hnames ⊢
    have hlen : (pre ++ [u]).length = pre.length + 1 := by simp
    have hnew := fun h : Begins cs (pre ++ [u]) pre.length u => ih (b := (pre.length, u)) h hnames
    have hold := fun h : Begins cs (pre ++ [u]) b.1 b.2 => ih h hnames
    rw [hlen] at hnew hold
    rw [List.singleton_append, scan]
    have hrank : ∀ v ∈ pre ++ [u], v.tEof = false → Ranked cs v.tPinfo.piName :=
      fun v hv => hnames v (List.mem_append_left _ hv)
    split_ifs with heof hless
    · exact hnew (hb.replace fun h => by simp [heof] at h)
    · refine hnew (hb.replace fun ht => ?_)
      simp only [Bool.and_eq_true, Bool.not_eq_true', decide_eq_true_eq] at hless
      refine ⟨hless.1, (pathcasecmp_neg (hrank u (by simp) hless.1) (hrank b.2 ?_ ht)).mp hless.2⟩
      exact List.mem_append_left _ (List.mem_of_getElem? hb.get)
    · have ht : b.2.tEof = false := by simpa using heof
      refine hold (hb.keep ht fun hu hlt => hless ?_)
      simp only [Bool.and_eq_true, Bool.not_eq_true', decide_eq_true_eq]
      refine ⟨hu, (pathcasecmp_neg (hrank u (by simp) hu) (hrank b.2 ?_ ht)).mpr hlt⟩
      exact List.mem_append_left _ (List.mem_of_getElem? hb.get)

theorem begins_head {cs : Bool} (t : Transcript) : Begins cs [t] 0 t := by
  refine ⟨rfl, fun h => ⟨fun u hu => ?_, rfl⟩, fun _ u hu _ => ?_, fun _ j hj => by omega⟩
  · rw [List.mem_singleton.mp hu, h]
  · rw [List.mem_singleton.mp hu]
    exact lt_irrefl _

end Radmind
