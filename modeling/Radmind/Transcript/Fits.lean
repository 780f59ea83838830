import Radmind.Transcript.Parse

/-!
# What is parsed fits its place

The texts of a record are as long as the line they stand on at most.  The Finder information
of a directory has no such bound: what a line has of it is decoded over what stands behind.
-/

namespace Radmind

/-- The texts of a record fit with their NULs. -/
structure PathInfo.TextsFit (pi : PathInfo) : Prop where
  name : pi.piName.length + 1 ≤ maxPathLen
  link : pi.piLink.length + 1 ≤ maxPathLen
  cksum : pi.piCksumB64.length + 1 ≤ maxPathLen

/-- A word with its place in the line: it ends there at the latest. -/
structure WordFits (mem : List Byte) : Prop where
  length : mem.length ≤ maxPathLen
  last : mem.getLast? = some nul

/-- The sixth word of a directory line. -/
def finfoWord (argv : List (List Byte)) : Option (List Byte) :=
  let argv := (stripWord plus (stripWord minus argv).2).2
  if (argv.headD []).headD nul = FileType.d.letter ∧ argv.length = 6 then argv[5]? else none

/-- The words of the line a transcript is moved to. -/
def nextWords (tran : Transcript) : Option (List (List Byte)) :=
  match readLine tran.tFullname tran.tIn.length tran.tLinenum tran.tIn with
  | .ok (argv, _, _) => argv
  | .error _ => none

/-- The Finder information of the next line. -/
def nextFinfo (tran : Transcript) : Option (List Byte) := (nextWords tran).bind finfoWord

/-- A transcript after calls of `transcript_parse`, whatever `decode` did in between. -/
inductive ParsedFrom (cfg : ParseConfig) : Transcript → Prop
  | opened (type : TType) (fullname shortname : CStr) (content : List Byte) :
      ParsedFrom cfg ⟨.zero, type, fullname, shortname, 0, false, content⟩
  | next {tran tran' : Transcript} {buf buf' : List Byte} : ParsedFrom cfg tran →
      transcriptParse cfg buf tran = .ok (tran', buf') → ParsedFrom cfg tran'

/-! ## The words of a line -/

theorem length_readBytes_le (n : Nat) (input : List Byte) : (readBytes n input).1.length ≤ n := by
  induction n generalizing input with
  | zero => exact Nat.le_refl 0
  | succ n ih =>
    cases input with
    | nil => exact Nat.zero_le _
    | cons c input =>
      rw [readBytes]
      split
      · simp
      · simpa using ih input

theorem length_fgets_le {n : Nat} {input line rest : List Byte}
    (h : fgets n input = some (line, rest)) : line.length ≤ n - 1 := by
  unfold fgets at h
  split at h
  · exact absurd h (by simp)
  · obtain rfl : (readBytes (n - 1) input).1 = line := congrArg Prod.fst (Option.some.inj h)
    exact length_readBytes_le _ _

theorem acavParse_fits {line mem : List Byte} (hline : line.length ≤ maxPathLen - 1)
    (h : mem ∈ (acavParse (line ++ [nul])).2) : WordFits mem := by
  have hsuffix := acavLoop_suffix [] false (line ++ [nul]) mem h
  have hlen := acavLoop_length [] false (line ++ [nul])
  have hlast := acavLoop_getLast [] false line
  have hpos : 0 < maxPathLen := by decide
  refine ⟨?_, ?_⟩
  · have := hsuffix.length_le
    rw [hlen, List.length_append, List.length_singleton] at this
    omega
  · obtain ⟨before, hbefore⟩ := hsuffix
    have hne : mem ≠ [] := fun he => (acavParse_word h).1 (by rw [he]; rfl)
    rwa [← hbefore, List.getLast?_append_of_ne_nil _ hne] at hlast

theorem readLine_fits {file : CStr} {fuel linenum linenum' : Nat} {input rest : List Byte}
    {argv : List (List Byte)}
    (h : readLine file fuel linenum input = .ok (some argv, linenum', rest)) :
    ∀ mem ∈ argv, WordFits mem := by
  induction fuel generalizing linenum input with
  | zero => simp [readLine] at h
  | succ fuel ih =>
    rw [readLine] at h
    split at h
    · simp at h
    next line rest' hfgets =>
    split_ifs at h
    split at h
    · exact ih h
    next word words hwords =>
    split_ifs at h
    · exact ih h
    · obtain ⟨hargv, -⟩ := Prod.mk.inj (Except.ok.inj h)
      obtain rfl := Option.some.inj hargv
      intro mem hmem
      exact acavParse_fits (length_fgets_le hfgets) (hwords ▸ hmem)

/-! ## The texts -/

/-- What is decoded is shorter than its place in the line. -/
theorem length_decodeLoop_lt {room : Nat} {mem cells r : List Byte}
    (hmem : mem = [] ∨ mem.getLast? = some nul)
    (h : (decodeLoop room mem cells).result = some r) : r.length ≤ mem.length - 1 := by
  have hpush : ∀ {c : Byte} {n m : Nat} {d : Decoded} {r : List Byte},
      (∀ {r}, d.result = some r → r.length ≤ m) → (d.push c n).result = some r →
      r.length ≤ m + 1 := by
    intro c n m d r hd h
    obtain ⟨r', hr', rfl⟩ := Option.map_eq_some_iff.mp h
    exact Nat.succ_le_succ (hd hr')
  have hnil : ∀ {r : List Byte} {m : Nat} {b : List Byte} {n : Nat},
      (⟨some [], b, n⟩ : Decoded).result = some r → r.length ≤ m := by
    intro r m b n h
    obtain rfl := Option.some.inj h
    exact Nat.zero_le m
  have hsingle : ∀ {c : Byte}, ([c] = [] ∨ [c].getLast? = some nul) → c = nul :=
    fun h => Option.some.inj (h.resolve_left (List.cons_ne_nil _ _))
  fun_induction decodeLoop room mem cells generalizing r with
  | case1 => exact hnil h
  | case2 => exact hnil h
  | case3 => exact absurd h (by simp)
  | case4 => exact hnil h
  | case5 _ _ hc _ => exact absurd (hsingle hmem) hc
  | case6 _ _ _ hc _ => exact absurd (hsingle hmem) hc
  | case7 => exact hnil h
  | case8 room e line cells _ ih =>
    have hrest : line = [] ∨ line.getLast? = some nul := by
      cases line with
      | nil => exact .inl rfl
      | cons d line => exact .inr (by simpa using hmem)
    have := hpush (fun {_} => ih hrest) h
    simp only [List.length_cons]
    omega
  | case9 room c e line cells _ _ ih =>
    have hrest : e :: line = [] ∨ (e :: line).getLast? = some nul := .inr (by simpa using hmem)
    have := hpush (fun {_} => ih hrest) h
    simp only [List.length_cons] at this ⊢
    omega

theorem WordFits.length_cstr {mem : List Byte} (h : WordFits mem) :
    (cstr mem).length + 1 ≤ maxPathLen := by
  have hmem : nul ∈ mem := List.mem_of_getLast? h.last
  have hlt : (cstr mem).length < mem.length := by
    refine lt_of_le_of_ne (List.takeWhile_prefix _).length_le fun heq => ?_
    have hcstr : cstr mem = mem := (List.takeWhile_prefix _).eq_of_length heq
    refine nulFree_cstr mem ?_
    rw [hcstr]
    exact hmem
  exact hlt.trans_le h.length

theorem WordFits.length_decode {mem buf buf' path : List Byte} (h : WordFits mem)
    (hdecode : decode buf mem = (some path, buf')) : path.length + 1 ≤ maxPathLen := by
  unfold decode at hdecode
  split at hdecode
  · exact absurd hdecode (by simp)
  · obtain ⟨line, hline, rfl⟩ := Option.map_eq_some_iff.mp (congrArg Prod.fst hdecode)
    have hle := length_decodeLoop_lt (.inr h.last) hline
    have hcstr : (cstr line).length ≤ line.length := (List.takeWhile_prefix _).length_le
    have hlen := h.length
    have hpos : 0 < mem.length := List.length_pos_of_mem (List.mem_of_getLast? h.last)
    omega

theorem WordFits.length_decodeWord {e : Exit} {mem buf buf' path : List Byte} (h : WordFits mem)
    (hdecode : decodeWord e buf (some mem) = .ok (path, buf')) : path.length + 1 ≤ maxPathLen := by
  unfold decodeWord at hdecode
  simp only at hdecode
  split at hdecode
  · exact absurd hdecode (by simp)
  next hd =>
  obtain ⟨rfl, -⟩ := Prod.mk.inj (Except.ok.inj hdecode)
  exact h.length_decode hd

theorem convertPathType_fits {format : TranFormat} {path path' : CStr}
    (hpath : path.length + 1 ≤ maxPathLen) (h : convertPathType format path = some path') :
    path'.length + 1 ≤ maxPathLen := by
  have hpos : 1 < maxPathLen := by decide
  unfold convertPathType at h
  split at h
  · split_ifs at h
    · exact Option.some.inj h ▸ hpos
    · exact Option.some.inj h ▸ hpos
    · exact Option.some.inj h ▸ hpath
  · simp only at h
    split_ifs at h with _ _ hlong _ hlong
    all_goals
      obtain rfl := Option.some.inj h
      omega

theorem length_decodePath {format : TranFormat} {e e' : Exit} {word : Option (List Byte)}
    {buf buf' path : List Byte} (hword : ∀ mem, word = some mem → WordFits mem)
    (h : decodePath format e e' buf word = .ok (path, buf')) : path.length + 1 ≤ maxPathLen := by
  unfold decodePath at h
  split at h
  · exact absurd h (by simp)
  next path₁ buf₁ hdecode =>
  split at h
  · exact absurd h (by simp)
  next path₂ hconvert =>
  obtain ⟨rfl, -⟩ := Prod.mk.inj (Except.ok.inj h)
  cases word with
  | none => exact absurd hdecode (by simp [decodeWord])
  | some mem => exact convertPathType_fits ((hword mem rfl).length_decodeWord hdecode) hconvert

/-! ## The fields -/

section

variable {cfg : ParseConfig} {buf buf' file : List Byte} {linenum : Nat} {tType : TType}
  {pi pi' : PathInfo} {argv : List (List Byte)}

theorem parseFields_fits {type : FileType} (hpi : pi.TextsFit) (hargv : ∀ mem ∈ argv, WordFits mem)
    (h : parseFields cfg buf file linenum tType pi type argv = .ok (pi', buf')) :
    pi'.TextsFit := by
  have hok : ∀ {q : PathInfo} {b : List Byte},
      (Except.ok (q, b) : Except Exit (PathInfo × List Byte)) = .ok (pi', buf') → q.TextsFit →
        pi'.TextsFit :=
    fun h hq => (Prod.mk.inj (Except.ok.inj h)).1 ▸ hq
  unfold parseFields at h
  cases type
  case X => simp at h
  case unset => simp at h
  case d =>
    simp only at h
    split at h
    · split at h
      · simp at h
      · exact hok h ⟨hpi.name, hpi.link, hpi.cksum⟩
    · exact hok h ⟨hpi.name, hpi.link, hpi.cksum⟩
    · simp at h
  case l =>
    simp only at h
    split at h
    · next target =>
      split at h
      · simp at h
      next link buf₁ hlink =>
      have hfit := (hargv target (by simp)).length_decodeWord hlink
      exact hok h ⟨hpi.name, hfit, hpi.cksum⟩
    · next target =>
      split at h
      · simp at h
      next link buf₁ hlink =>
      have hfit := (hargv target (by simp)).length_decodeWord hlink
      exact hok h ⟨hpi.name, hfit, hpi.cksum⟩
    · simp at h
  case h =>
    simp only at h
    split at h
    · next target =>
      split at h
      · simp at h
      next link buf₁ hlink =>
      have hfit := length_decodePath (fun mem hmem => Option.some.inj hmem ▸ hargv target (by simp))
        hlink
      exact hok h ⟨hpi.name, hfit, hpi.cksum⟩
    · simp at h
  case a | f =>
    all_goals
      simp only at h
      split at h
      · next cksum =>
        split at h
        · simp at h
        · exact hok h ⟨hpi.name, hpi.link, (hargv cksum (by simp)).length_cstr⟩
      · simp at h
  all_goals
    simp only at h
    split at h
    · exact hok h ⟨hpi.name, hpi.link, hpi.cksum⟩
    · simp at h

/-- A directory line of six words has its Finder information decoded, every other line leaves
what stands behind it. -/
theorem parseFields_finfo {type : FileType}
    (h : parseFields cfg buf file linenum tType pi type argv = .ok (pi', buf')) :
    if type = .d ∧ argv.length = 6 then
      ∃ word, argv[5]? = some word ∧ parseFinfo pi.piAfinfo word = .ok pi'.piAfinfo
    else pi'.piAfinfo.drop finfoLen = pi.piAfinfo.drop finfoLen := by
  have hok : ∀ {q : PathInfo} {b : List Byte},
      (Except.ok (q, b) : Except Exit (PathInfo × List Byte)) = .ok (pi', buf') → q = pi' :=
    fun h => (Prod.mk.inj (Except.ok.inj h)).1
  unfold parseFields at h
  cases type
  case d =>
    simp only at h
    split at h
    · next finfo =>
      rw [if_pos ⟨rfl, rfl⟩]
      split at h
      · simp at h
      next afinfo hfinfo =>
      obtain rfl := hok h
      exact ⟨finfo, rfl, hfinfo⟩
    · obtain rfl := hok h
      rw [if_neg (by simp)]
      simp [finfoLen]
    · simp at h
  all_goals
    rw [if_neg (by simp)]
    simp only at h
  all_goals try split at h
  all_goals try split at h
  all_goals first
    | exact hok h ▸ rfl
    | simp at h

theorem mem_stripWord {c : Byte} {mem : List Byte} (h : mem ∈ (stripWord c argv).2) :
    mem ∈ argv := by
  unfold stripWord at h
  split at h
  · split at h
    · exact List.mem_cons_of_mem _ h
    · exact h
  · exact absurd h List.not_mem_nil

theorem ofLetter_eq_d {c : Byte} {type : FileType} (h : FileType.ofLetter c = some type) :
    type = .d ↔ c = FileType.d.letter := by
  have hletter : type.letter = c := by
    have := List.find?_some h
    simpa using this
  have hinj : ∀ type : FileType, type = .d ↔ type.letter = FileType.d.letter := by
    intro type
    cases type <;> decide
  rw [← hletter]
  exact hinj type

theorem parseLine_fits (hpi : pi.TextsFit) (hargv : ∀ mem ∈ argv, WordFits mem)
    (h : parseLine cfg buf file linenum tType pi argv = .ok (pi', buf')) :
    pi'.TextsFit ∧ match finfoWord argv with
      | some word => parseFinfo pi.piAfinfo word = .ok pi'.piAfinfo
      | none => pi'.piAfinfo.drop finfoLen = pi.piAfinfo.drop finfoLen := by
  unfold parseLine at h
  split at h
  · exact absurd h (by simp)
  split at h
  · exact absurd h (by simp)
  simp only at h
  unfold finfoWord
  generalize hstripped : (stripWord plus (stripWord minus argv).2).2 = words at h ⊢
  have hwords : ∀ mem ∈ words, WordFits mem := fun mem hmem =>
    hargv mem (mem_stripWord (mem_stripWord (hstripped ▸ hmem)))
  split at h
  · exact absurd h (by simp)
  next name buf₁ hname =>
  have hfit := length_decodePath (fun mem hmem => hwords mem (List.mem_of_getElem? hmem)) hname
  split at h
  · exact absurd h (by simp)
  split at h
  · exact absurd h (by simp)
  next type htype =>
  have hnamed : PathInfo.TextsFit
      { pi with piMinus := (stripWord minus argv).1, piType := type, piName := name } :=
    ⟨hfit, hpi.link, hpi.cksum⟩
  refine ⟨parseFields_fits hnamed hwords h, ?_⟩
  have hfinfo := parseFields_finfo h
  simp only [ofLetter_eq_d htype] at hfinfo
  by_cases hd : (words.headD []).headD nul = FileType.d.letter ∧ words.length = 6
  · rw [if_pos hd] at hfinfo
    obtain ⟨word, hword, hparse⟩ := hfinfo
    simp only [if_pos hd, hword]
    exact hparse
  · rw [if_neg hd] at hfinfo
    simp only [if_neg hd]
    exact hfinfo

end

/-- The Finder information of the next line fits, and what stands behind it stays. -/
def FinfoFits (tran tran' : Transcript) : Prop :=
  (∀ word, nextFinfo tran = some word →
    ∃ d, base64D (cstr word) = some d ∧ d.length ≤ finfoLen) ∧
  tran'.tPinfo.piAfinfo.drop finfoLen = tran.tPinfo.piAfinfo.drop finfoLen

section

variable {cfg : ParseConfig} {buf buf' : List Byte} {tran tran' : Transcript}

/-- What one call makes of a record whose texts fit. -/
theorem transcriptParse_step (hpi : tran.tPinfo.TextsFit)
    (h : transcriptParse cfg buf tran = .ok (tran', buf')) :
    tran'.tPinfo.TextsFit ∧ match nextFinfo tran with
      | some word => parseFinfo tran.tPinfo.piAfinfo word = .ok tran'.tPinfo.piAfinfo
      | none => tran'.tPinfo.piAfinfo.drop finfoLen = tran.tPinfo.piAfinfo.drop finfoLen := by
  unfold nextFinfo nextWords
  unfold transcriptParse at h
  split at h
  · exact absurd h (by simp)
  split at h
  · exact absurd h (by simp)
  · next hread =>
    obtain ⟨rfl, -⟩ := Prod.mk.inj (Except.ok.inj h)
    simp only [hread, Option.bind_none]
    exact ⟨hpi, trivial⟩
  · next argv linenum rest hread =>
    split at h
    · exact absurd h (by simp)
    next pi buf₁ hline =>
    obtain ⟨rfl, -⟩ := Prod.mk.inj (Except.ok.inj h)
    simp only [hread, Option.bind_some]
    exact parseLine_fits hpi (readLine_fits hread) hline

theorem ParsedFrom.textsFit (h : ParsedFrom cfg tran) : tran.tPinfo.TextsFit := by
  induction h with
  | opened =>
    have hzero : PathInfo.zero.TextsFit := ⟨by decide, by decide, by decide⟩
    exact hzero
  | next _ hparse ih => exact (transcriptParse_step ih hparse).1

/-- The texts of every line that is read fit, and its Finder information does exactly where its
word has less than 44 characters. -/
theorem transcriptParse_fits (hfrom : ParsedFrom cfg tran)
    (h : transcriptParse cfg buf tran = .ok (tran', buf')) : tran'.tPinfo.TextsFit ∧
      (FinfoFits tran tran' ↔ ∀ word, nextFinfo tran = some word → strlen word < 44) := by
  obtain ⟨hfit, hfinfo⟩ := transcriptParse_step hfrom.textsFit h
  refine ⟨hfit, ?_⟩
  unfold FinfoFits
  cases hword : nextFinfo tran with
  | none =>
    rw [hword] at hfinfo
    exact ⟨fun _ word hword => absurd hword (by simp), fun _ => ⟨by simp, hfinfo⟩⟩
  | some word =>
    rw [hword] at hfinfo
    simp only at hfinfo
    unfold parseFinfo at hfinfo
    split at hfinfo
    · exact absurd hfinfo (by simp)
    next d hd =>
    split at hfinfo
    · exact absurd hfinfo (by simp)
    have hlen := length_base64D hd
    have hafinfo := (Except.ok.inj hfinfo).symm
    have hfinfoLen : finfoLen = 32 := rfl
    constructor
    · intro ⟨hdecoded, _⟩ word' hword'
      obtain rfl := Option.some.inj hword'
      obtain ⟨d', hd', hle⟩ := hdecoded word rfl
      obtain rfl := Option.some.inj (hd.symm.trans hd')
      show (cstr word).length < 44
      omega
    · intro hshort
      have hshort : (cstr word).length < 44 := hshort word rfl
      have hle : d.length ≤ finfoLen := by omega
      refine ⟨fun word' hword' => ⟨d, Option.some.inj hword' ▸ hd, hle⟩, ?_⟩
      rw [hafinfo, List.drop_append, List.drop_of_length_le hle, List.nil_append, List.drop_drop]
      congr 1
      omega

end

/-! ### Finder information of 32 bytes -/

def finfoConfig : ParseConfig := ⟨true, .absolute, false⟩

def finfoTran (content : CStr) : Transcript :=
  ⟨.zero, .positive, lit "/T", lit "T", 0, false, content⟩

/-- A directory with Finder information of `n` blocks of three bytes. -/
def finfoLine (n : Nat) : CStr :=
  lit "d /a 0755 0 0 " ++ List.replicate (4 * n) 65 ++ [newline]

def finfoParsed (n : Nat) : Transcript × List Byte :=
  match transcriptParse finfoConfig [] (finfoTran (finfoLine n)) with
  | .ok r => r
  | .error _ => (nullTranscript, [])

theorem finfoParsed_eq : ∀ n ∈ [2, 11],
    transcriptParse finfoConfig [] (finfoTran (finfoLine n)) = .ok (finfoParsed n) := by
  decide +kernel

theorem transcriptParse_fits_short : (finfoParsed 2).1.tPinfo.TextsFit ∧
    (FinfoFits (finfoTran (finfoLine 2)) (finfoParsed 2).1 ↔
      ∀ word, nextFinfo (finfoTran (finfoLine 2)) = some word → strlen word < 44) :=
  transcriptParse_fits (.opened .positive (lit "/T") (lit "T") _) (finfoParsed_eq 2 (by simp))

/-- The information of 32 bytes, as it is printed, is decoded to 33. -/
theorem not_transcriptParse_fits :
    ¬ ∀ (cfg : ParseConfig) (tran tran' : Transcript) (buf buf' : List Byte),
      ParsedFrom cfg tran → transcriptParse cfg buf tran = .ok (tran', buf') →
      FinfoFits tran tran' := by
  intro h
  have hfits := h finfoConfig _ _ [] _ (.opened .positive (lit "/T") (lit "T") _)
    (finfoParsed_eq 11 (by simp))
  have hword : (nextFinfo (finfoTran (finfoLine 11))).map strlen = some 44 := by decide +kernel
  obtain ⟨word, hnext, hlen⟩ := Option.map_eq_some_iff.mp hword
  obtain ⟨d, hd, hle⟩ := hfits.1 word hnext
  have hdecoded := length_base64D hd
  have hfinfoLen : finfoLen = 32 := rfl
  unfold strlen at hlen
  omega

end Radmind
