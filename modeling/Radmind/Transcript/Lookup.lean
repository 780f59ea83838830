import Radmind.Transcript.Kfile
import Radmind.Transcript.Merged

/-!
# Looking up a path in the transcripts

`precedent_transcript` of `lfdiff` and `twhich` go through the list `transcript_init` has
read, and move each transcript up to the path.  They differ in what they do with a
transcript that is at its end before they have read from it.
-/

namespace Radmind

/-- The loop both move a transcript up to the path with, and the last `cmp`. -/
def seek (cfg : ParseConfig) (file : CStr) : Nat → Transcript → List Byte →
    Except Exit (Transcript × Int × List Byte)
  | 0, _, _ => .error .outOfFuel
  | fuel + 1, tran, buf =>
    let cmp := pathcasecmp tran.tPinfo.piName file cfg.caseSensitive
    if cmp < 0 then
      match transcriptParse cfg buf tran with
      | .error e => .error e
      | .ok (tran, buf) => if tran.tEof then .ok (tran, cmp, buf) else seek cfg file fuel tran buf
    else .ok (tran, cmp, buf)

/-- The loop of `precedent_transcript`, with the number of the transcript it returns. -/
def precedentLoop (cfg : ParseConfig) (file : CStr) : Nat → List Transcript → List Byte →
    Except Exit (Option (Nat × Transcript))
  | _, [], _ => .error .overrun
  | n, tran :: rest, buf =>
    if tran.tEof then .ok none
    else
      match seek cfg file (tran.unread + 1) tran buf with
      | .error e => .error e
      | .ok (tran, cmp, buf) =>
        if tran.tEof then precedentLoop cfg file (n + 1) rest buf
        else if cmp > 0 then precedentLoop cfg file (n + 1) rest buf
        else if cmp = 0 then .ok (some (n, tran))
        else precedentLoop cfg file (n + 1) rest buf

/-- `precedent_transcript` on what `transcript_init` has read: `excluded`, and the
transcript. -/
def precedentTranscript (cfg : KfileConfig) (wildcard : CStr → CStr → Bool → Bool)
    (st : KfileState) (file : CStr) : Except Exit (Bool × Option (Nat × Transcript)) :=
  if tExclude wildcard cfg.caseSensitive st.excludeList file then .ok (true, none)
  else (precedentLoop cfg.toParseConfig file 0 st.tranHead st.buf).map fun tran => (false, tran)

/-- The patterns `twhich` prints, and whether it is `done` with them. -/
def twhichExcludes (wildcard : CStr → CStr → Bool → Bool) (caseSensitive displayall : Bool)
    (pattern : CStr) : PathList → List CStr × Bool
  | [] => ([], false)
  | node :: rest =>
    if wildcard node pattern caseSensitive then
      if !displayall then ([node], true)
      else
        let (printed, done) := twhichExcludes wildcard caseSensitive displayall pattern rest
        (node :: printed, done)
    else twhichExcludes wildcard caseSensitive displayall pattern rest

/-- The loop of `twhich`: the transcripts it reports. -/
def twhichLoop (cfg : ParseConfig) (displayall : Bool) (pattern : CStr) :
    Nat → List Transcript → List Byte → Except Exit (List (Nat × Transcript))
  | _, [], _ => .error .overrun
  | _, [_], _ => .ok []
  | n, tran :: next :: rest, buf =>
    -- Skip NULL/empty transcripts
    if tran.tEof then twhichLoop cfg displayall pattern (n + 1) (next :: rest) buf
    else
      match seek cfg pattern (tran.unread + 1) tran buf with
      | .error e => .error e
      | .ok (tran, cmp, buf) =>
        if tran.tEof then twhichLoop cfg displayall pattern (n + 1) (next :: rest) buf
        else if cmp > 0 then twhichLoop cfg displayall pattern (n + 1) (next :: rest) buf
        else if cmp = 0 then
          if tran.tType = .null then .error (.unknownType tran.tShortname 0)
          else if !displayall then .ok [(n, tran)]
          else
            (twhichLoop cfg displayall pattern (n + 1) (next :: rest) buf).map
              fun found => (n, tran) :: found
        else twhichLoop cfg displayall pattern (n + 1) (next :: rest) buf

/-- What `twhich` prints: exclude patterns, then transcripts.  It returns whether there is
no match. -/
structure TwhichOutput where
  excludes : List CStr
  found : List (Nat × Transcript)
  rc : Nat

/-- `twhich` -/
def twhich (cfg : KfileConfig) (wildcard : CStr → CStr → Bool → Bool) (displayall : Bool)
    (st : KfileState) (pattern : CStr) : Except Exit TwhichOutput :=
  let (excludes, done) :=
    twhichExcludes wildcard cfg.caseSensitive displayall pattern st.excludeList
  if done then .ok ⟨excludes, [], 1⟩
  else
    (twhichLoop cfg.toParseConfig displayall pattern 0 st.tranHead st.buf).map
      fun found => ⟨excludes, found, if found.isEmpty then 1 else 0⟩

/-! ## Where a path is listed -/

/-- Some line of the transcript is about the path. -/
def listsPath (caseSensitive : Bool) (file : CStr) (es : List PathInfo) : Bool :=
  es.any fun e => pathcasecmp e.piName file caseSensitive = 0

/-- The first line that does not sort before the path is about it. -/
def reaches (caseSensitive : Bool) (file : CStr) : List PathInfo → Bool
  | [] => false
  | e :: es =>
    if pathcasecmp e.piName file caseSensitive < 0 then reaches caseSensitive file es
    else pathcasecmp e.piName file caseSensitive = 0

/-- The transcript of the highest precedence that lists the path. -/
def highest (caseSensitive : Bool) (file : CStr) (ess : List (List PathInfo)) : Option Nat :=
  ess.findIdx? (listsPath caseSensitive file)

/-- The first transcript that is reached, if none before it is empty. -/
def precedent (caseSensitive : Bool) (file : CStr) : List (List PathInfo) → Option Nat
  | [] => none
  | es :: ess =>
    if es = [] then none
    else if reaches caseSensitive file es then some 0
    else (precedent caseSensitive file ess).map (· + 1)

theorem listsPath_of_reaches {cs : Bool} {file : CStr} {es : List PathInfo}
    (h : reaches cs file es = true) : listsPath cs file es = true := by
  induction es with
  | nil => exact absurd h (by simp [reaches])
  | cons e es ih =>
    rw [reaches] at h
    rw [listsPath, List.any_cons, Bool.or_eq_true]
    split at h
    · exact .inr (ih h)
    · exact .inl h

/-- Where the lines are in order, a path that is listed is reached. -/
theorem reaches_eq_listsPath {cs : Bool} {file : CStr} (hfile : Ranked cs file)
    {es : List PathInfo} (hnames : ∀ e ∈ es, NameOk cs e)
    (hasc : PrecedenceMerge.Ascending (PathInfo.key cs) es) :
    reaches cs file es = listsPath cs file es := by
  induction es with
  | nil => rfl
  | cons e es ih =>
    obtain ⟨hle, hasc⟩ := List.pairwise_cons.mp hasc
    obtain ⟨he, hnames⟩ := List.forall_mem_cons.mp hnames
    rw [reaches, listsPath, List.any_cons]
    split
    · next hlt =>
      rw [ih hnames hasc, decide_eq_false hlt.ne, Bool.false_or]
      rfl
    · next hlt =>
      have hnot : es.any (fun e => pathcasecmp e.piName file cs = 0) = false := by
        rw [List.any_eq_false]
        intro f hf
        have hkey : pathKey cs file ≤ pathKey cs e.piName :=
          not_lt.mp fun hlt' => hlt ((pathcasecmp_neg he.1 hfile).mpr hlt')
        have hne : pathKey cs f.piName ≠ pathKey cs file := (hkey.trans_lt (hle f hf)).ne'
        have hzero := (pathcasecmp_eq_zero (hnames f hf).1 hfile).not.mpr hne
        simpa using hzero
      rw [hnot, Bool.or_false]

/-- The condition: no transcript before the first that lists the path is empty, and the
lines of that one that come first sort before the path. -/
def Findable (caseSensitive : Bool) (file : CStr) (ess : List (List PathInfo)) : Prop :=
  ∀ n, highest caseSensitive file ess = some n →
    (∀ i < n, ess[i]? ≠ some []) ∧ ∃ es, ess[n]? = some es ∧ reaches caseSensitive file es = true

theorem findIdx?_reaches_none {cs : Bool} {file : CStr} {ess : List (List PathInfo)}
    (h : highest cs file ess = none) : ess.findIdx? (reaches cs file) = none := by
  rw [highest, List.findIdx?_eq_none_iff] at h
  rw [List.findIdx?_eq_none_iff]
  intro es hes
  cases hr : reaches cs file es with
  | false => rfl
  | true => exact absurd (listsPath_of_reaches hr) (by simp [h es hes])

theorem findable_iff {cs : Bool} {file : CStr} {ess : List (List PathInfo)} :
    precedent cs file ess = highest cs file ess ∧
        ess.findIdx? (reaches cs file) = precedent cs file ess ↔ Findable cs file ess := by
  induction ess with
  | nil =>
    refine ⟨fun _ n hn => ?_, fun _ => ⟨rfl, rfl⟩⟩
    cases hn
  | cons es ess ih =>
    have hhigh : highest cs file (es :: ess) =
        if listsPath cs file es then some 0 else (highest cs file ess).map (· + 1) :=
      List.findIdx?_cons
    rw [precedent, List.findIdx?_cons, hhigh]
    by_cases hnil : es = []
    · -- nobody is told of what comes behind an empty transcript
      subst hnil
      rw [if_pos rfl, if_neg (by simp [listsPath]), if_neg (by simp [reaches])]
      constructor
      · intro ⟨hnone, _⟩ n hn
        rw [hhigh, if_neg (by simp [listsPath]), ← hnone] at hn
        cases hn
      · intro h
        cases hrest : highest cs file ess with
        | none => simp [findIdx?_reaches_none hrest]
        | some n =>
          have hfind := (h (n + 1) (by rw [hhigh, hrest]; simp [listsPath])).1 0 (Nat.succ_pos n)
          exact absurd rfl hfind
    rw [if_neg hnil]
    cases hreach : reaches cs file es with
    | true =>
      rw [if_pos (listsPath_of_reaches hreach), if_pos rfl, if_pos rfl]
      refine ⟨fun _ n hn => ?_, fun _ => ⟨rfl, rfl⟩⟩
      rw [hhigh, if_pos (listsPath_of_reaches hreach)] at hn
      obtain rfl := Option.some.inj hn
      exact ⟨fun i hi => absurd hi (Nat.not_lt_zero i), es, rfl, hreach⟩
    | false =>
      rw [if_neg Bool.false_ne_true, if_neg Bool.false_ne_true]
      cases hlist : listsPath cs file es with
      | true =>
        -- the line that is about the path is not reached
        rw [if_pos rfl]
        constructor
        · intro ⟨hsome, _⟩
          cases hp : precedent cs file ess with
          | none => rw [hp] at hsome; cases hsome
          | some k => rw [hp] at hsome; cases hsome
        · intro h
          obtain ⟨-, es', hes', hreach'⟩ := h 0 (by rw [hhigh, hlist]; rfl)
          obtain rfl := Option.some.inj hes'
          rw [hreach] at hreach'
          cases hreach'
      | false =>
        rw [if_neg Bool.false_ne_true]
        have hinj : Function.Injective (Option.map (· + 1) : Option Nat → Option Nat) :=
          Option.map_injective (add_left_injective 1)
        rw [hinj.eq_iff, hinj.eq_iff, ih]
        have hshift : ∀ n, highest cs file (es :: ess) = some (n + 1) ↔
            highest cs file ess = some n := by
          intro n
          rw [hhigh, hlist, if_neg Bool.false_ne_true]
          simp
        constructor
        · intro h n hn
          cases n with
          | zero =>
            rw [hhigh, hlist, if_neg Bool.false_ne_true] at hn
            simp at hn
          | succ n =>
            obtain ⟨hbefore, hat⟩ := h n ((hshift n).mp hn)
            refine ⟨fun i hi => ?_, hat⟩
            cases i with
            | zero => simpa using hnil
            | succ i => exact hbefore i (Nat.lt_of_succ_lt_succ hi)
        · intro h n hn
          obtain ⟨hbefore, hat⟩ := h (n + 1) ((hshift n).mpr hn)
          exact ⟨fun i hi => hbefore (i + 1) (Nat.succ_lt_succ hi), hat⟩

/-! ## The lookups -/

section

variable {cfg : ParseConfig} {file : CStr}

/-- What moving a transcript up to the path comes to. -/
structure Sought (cfg : ParseConfig) (file : CStr) (es : List PathInfo) (tran : Transcript)
    (cmp : Int) : Prop where
  type_ne : tran.tType ≠ .null
  not_before : tran.tEof = false → 0 ≤ cmp
  reaches : reaches cfg.caseSensitive file es = true ↔ tran.tEof = false ∧ cmp = 0

theorem seek_spec {fuel : Nat} {tran : Transcript} {es : List PathInfo} (hl : Lists cfg tran es)
    (heof : tran.tEof = false) (hfuel : tran.unread < fuel) (buf : List Byte) :
    ∃ tran' cmp buf', seek cfg file fuel tran buf = .ok (tran', cmp, buf') ∧
      Sought cfg file es tran' cmp := by
  induction fuel generalizing tran es buf with
  | zero => exact absurd hfuel (Nat.not_lt_zero _)
  | succ fuel ih =>
    obtain ⟨next, es', rfl, hparse, hl'⟩ := hl.cons_inv heof
    obtain ⟨buf', hparse⟩ := hparse buf
    obtain ⟨hfile, hnull, -⟩ := transcriptParse_cases hparse
    have hunread := (transcriptParse_unread_le hparse).2 heof
    have htype : next.tType ≠ .null := by
      rw [show next.tType = tran.tType from congrArg TranFile.tType hfile]
      exact hnull
    rw [seek]
    by_cases hlt : pathcasecmp tran.tPinfo.piName file cfg.caseSensitive < 0
    · have hreach : reaches cfg.caseSensitive file (tran.tPinfo :: es') =
          reaches cfg.caseSensitive file es' := by rw [reaches, if_pos hlt]
      simp only [if_pos hlt, hparse]
      cases hend : next.tEof with
      | true =>
        rw [(hl'.eof_inv hend).1] at hreach
        refine ⟨next, _, buf', if_pos rfl, htype, fun h => by simp [hend] at h, ?_⟩
        rw [(hl'.eof_inv hend).1, hreach]
        simp [reaches, hend]
      | false =>
        obtain ⟨tran', cmp, buf'', hrun, hsought⟩ := ih hl' hend (by omega) buf'
        refine ⟨tran', cmp, buf'', hrun, hsought.type_ne, hsought.not_before, ?_⟩
        rw [hreach]
        exact hsought.reaches
    · simp only [if_neg hlt]
      refine ⟨tran, _, buf, rfl, hnull, fun _ => not_lt.mp hlt, ?_⟩
      rw [reaches, if_neg hlt]
      simp [heof]

theorem precedentLoop_eq {ts : List Transcript} {ess : List (List PathInfo)}
    (hl : List.Forall₂ (Lists cfg) ts ess) (n : Nat) (buf : List Byte) :
    (precedentLoop cfg file n (ts ++ [nullTranscript]) buf).map (Option.map Prod.fst) =
      .ok ((precedent cfg.caseSensitive file ess).map (· + n)) := by
  induction hl generalizing n buf with
  | nil => rfl
  | @cons t es ts ess ht hl ih =>
    rw [List.cons_append, precedentLoop, precedent]
    cases heof : t.tEof with
    | true =>
      rw [if_pos (ht.eof_inv heof).1]
      rfl
    | false =>
      obtain ⟨t₁, es', hes, -, -⟩ := ht.cons_inv heof
      have hne : es ≠ [] := by simp [hes]
      obtain ⟨t', cmp, buf', hseek, hsought⟩ :=
        @seek_spec cfg file _ _ _ ht heof (Nat.lt_succ_self _) buf
      have hshift : ((precedent cfg.caseSensitive file ess).map (· + 1)).map (· + n) =
          (precedent cfg.caseSensitive file ess).map (· + (n + 1)) := by
        rw [Option.map_map]
        congr 1
        funext k
        exact (Nat.add_assoc k 1 n).trans (by rw [Nat.add_comm 1 n])
      rw [if_neg Bool.false_ne_true, if_neg hne, hseek]
      simp only
      cases hend : t'.tEof with
      | true =>
        have hnot : ¬ reaches cfg.caseSensitive file es = true := by
          rw [hsought.reaches, hend]
          simp
        rw [if_pos rfl, if_neg hnot, hshift]
        exact ih _ _
      | false =>
        have hcmp := hsought.not_before hend
        rw [if_neg Bool.false_ne_true]
        by_cases hpos : cmp > 0
        · rw [if_pos hpos, if_neg (fun h => absurd (hsought.reaches.mp h).2 hpos.ne'), hshift]
          exact ih _ _
        · have hzero : cmp = 0 := by omega
          rw [if_neg hpos, if_pos hzero, if_pos (hsought.reaches.mpr ⟨hend, hzero⟩)]
          simp [Except.map]

theorem twhichLoop_eq {ts : List Transcript} {ess : List (List PathInfo)}
    (hl : List.Forall₂ (Lists cfg) ts ess) (displayall : Bool) (n : Nat) (buf : List Byte) :
    ∃ found, twhichLoop cfg displayall file n (ts ++ [nullTranscript]) buf = .ok found ∧
      found.head?.map Prod.fst = (ess.findIdx? (reaches cfg.caseSensitive file)).map (· + n) := by
  induction hl generalizing n buf with
  | nil => exact ⟨[], rfl, rfl⟩
  | @cons t es ts ess ht hl ih =>
    obtain ⟨next, rest, hrest⟩ : ∃ next rest, ts ++ [nullTranscript] = next :: rest :=
      List.exists_cons_of_ne_nil (by simp)
    have hshift : ((ess.findIdx? (reaches cfg.caseSensitive file)).map (· + 1)).map (· + n) =
        (ess.findIdx? (reaches cfg.caseSensitive file)).map (· + (n + 1)) := by
      rw [Option.map_map]
      congr 1
      funext k
      exact (Nat.add_assoc k 1 n).trans (by rw [Nat.add_comm 1 n])
    have hskip : reaches cfg.caseSensitive file es = false → ∀ buf, ∃ found,
        twhichLoop cfg displayall file (n + 1) (next :: rest) buf = .ok found ∧
          found.head?.map Prod.fst =
            ((es :: ess).findIdx? (reaches cfg.caseSensitive file)).map (· + n) := by
      intro hreach buf
      rw [← hrest, List.findIdx?_cons, hreach, if_neg Bool.false_ne_true, hshift]
      exact ih _ _
    rw [List.cons_append, hrest, twhichLoop]
    cases heof : t.tEof with
    | true => exact hskip (by rw [(ht.eof_inv heof).1]; rfl) buf
    | false =>
      obtain ⟨t', cmp, buf', hseek, hsought⟩ :=
        @seek_spec cfg file _ _ _ ht heof (Nat.lt_succ_self _) buf
      rw [if_neg Bool.false_ne_true, hseek]
      simp only
      cases hend : t'.tEof with
      | true =>
        rw [if_pos rfl]
        exact hskip (by rw [← Bool.not_eq_true, hsought.reaches, hend]; simp) _
      | false =>
        have hcmp := hsought.not_before hend
        rw [if_neg Bool.false_ne_true]
        by_cases hpos : cmp > 0
        · rw [if_pos hpos]
          refine hskip ?_ _
          rw [← Bool.not_eq_true, hsought.reaches]
          exact fun h => absurd h.2 hpos.ne'
        · have hzero : cmp = 0 := by omega
          have hhere : ((es :: ess).findIdx? (reaches cfg.caseSensitive file)).map (· + n) =
              some n := by
            rw [List.findIdx?_cons, if_pos (hsought.reaches.mpr ⟨hend, hzero⟩)]
            simp
          rw [if_neg hpos, if_pos hzero, if_neg hsought.type_ne, hhere]
          cases displayall with
          | false => exact ⟨_, rfl, rfl⟩
          | true =>
            obtain ⟨found, hfound, -⟩ := ih (n + 1) buf'
            rw [hrest] at hfound
            exact ⟨(n, t') :: found, by simp [hfound, Except.map], rfl⟩

end

/-- What is to be said of a path: `precedent_transcript` returns the transcript of the highest
precedence that lists it, and this is the one `twhich` reports first. -/
def LookupsAgree (cfg : KfileConfig) (wildcard : CStr → CStr → Bool → Bool) (st : KfileState)
    (ess : List (List PathInfo)) (file : CStr) : Prop :=
  (precedentTranscript cfg wildcard st file).map (fun r => r.2.map Prod.fst) =
      .ok (highest cfg.caseSensitive file ess) ∧
    ∀ displayall, (twhich cfg wildcard displayall st file).map
        (fun out => out.found.head?.map Prod.fst) =
      (precedentTranscript cfg wildcard st file).map fun r => r.2.map Prod.fst

theorem twhichExcludes_eq {wildcard : CStr → CStr → Bool → Bool} {cs : Bool} {pattern : CStr}
    {excludeList : PathList} (h : tExclude wildcard cs excludeList pattern = false)
    (displayall : Bool) :
    twhichExcludes wildcard cs displayall pattern excludeList = ([], false) := by
  induction excludeList with
  | nil => rfl
  | cons node rest ih =>
    rw [tExclude, List.any_cons, Bool.or_eq_false_iff] at h
    rw [twhichExcludes, h.1, if_neg Bool.false_ne_true]
    exact ih h.2

/-- With regard to case, or without bytes above 127, the lines of a transcript are in order,
and empty transcripts are all that matters. -/
theorem findable_iff_of_ranked {cs : Bool} {file : CStr} (hfile : Ranked cs file)
    {ess : List (List PathInfo)} (hnames : ∀ es ∈ ess, ∀ e ∈ es, NameOk cs e)
    (hasc : ∀ es ∈ ess, PrecedenceMerge.Ascending (PathInfo.key cs) es) :
    Findable cs file ess ↔
      ∀ n, highest cs file ess = some n → ∀ i < n, ess[i]? ≠ some [] := by
  refine ⟨fun h n hn => (h n hn).1, fun h n hn => ⟨h n hn, ?_⟩⟩
  obtain ⟨hlt, hlist, -⟩ := List.findIdx?_eq_some_iff_getElem.mp hn
  have hmem := List.getElem_mem hlt
  refine ⟨ess[n], List.getElem?_eq_getElem hlt, ?_⟩
  rw [reaches_eq_listsPath hfile (hnames _ hmem) (hasc _ hmem)]
  exact hlist

/-! ### An empty transcript -/

def emptyConfig : KfileConfig where
  toParseConfig := twoConfig.toParseConfig
  skip := ⟨false, false, false, false⟩
  location := .client
  applicable := true
  radmindPath := lit "/var/radmind"
  fopen _ := none

def emptyTranscript : Transcript := opened "# nothing\n"

def listsA : Transcript := opened "d /a 0755 0 0\n"

def kfileStateOf (ts : List Transcript) : KfileState :=
  ⟨ts ++ [nullTranscript], [], [], [], [], []⟩

theorem listsA_lists : Lists twoConfig.toParseConfig listsA [listsA.tPinfo] :=
  @Lists.line _ _ (parsed listsA) _ rfl (fun _ => ⟨_, rfl⟩) (.eof rfl rfl)

theorem emptyTranscript_lists : Lists twoConfig.toParseConfig emptyTranscript [] :=
  .eof rfl rfl

end Radmind
