import Radmind.CString
import Radmind.Lib.PathText

/-!
# The tree of a transcript

A transcript lies in the directory `transcript`, or `tmp/transcript`, of the radmind directory,
and its files in `file` beside it.  `get_root` in root.c finds both from the transcript's path.
-/

namespace Radmind

/-- What `get_root` writes. -/
structure Roots where
  file_root : CStr
  tran_root : CStr
  tran_name : CStr
  deriving DecidableEq, Repr

/-- `snprintf` into `MAXPATHLEN` bytes, and the text printed where they are too few. -/
def snprintf (s error : CStr) : Except CStr CStr :=
  if s.length ≥ maxPathLen then .error (error ++ lit ": path too long\n") else .ok s

/-- What lies before the last '/', and behind it. -/
def cutName (s : CStr) : CStr × CStr :=
  ((s.reverse.dropWhile (· ≠ slash)).tail.reverse, (s.reverse.takeWhile (· ≠ slash)).reverse)

/-- The error is the text that is printed, of `realpath` too. -/
def get_root (realpath : CStr → Except CStr CStr) (radmind_path path : CStr) :
    Except CStr Roots := do
  let radmind_real_path ← realpath radmind_path
  let real_path ← realpath path
  let (dir, p) := cutName real_path
  if dir = [] then .error (real_path ++ lit ": invalid transcript location\n")
  else if p.length ≥ maxPathLen then .error (p ++ lit ": path too long\n")
  else
    let test_path ← snprintf (radmind_real_path ++ lit "/tmp/transcript")
      (radmind_real_path ++ lit "/tmp/transcirpt")
    if strstr dir test_path then
      let behind := dir.drop test_path.length
      let file_root ← snprintf (radmind_real_path ++ lit "/tmp/file" ++ behind)
        (radmind_real_path ++ lit "/tmp/file" ++ behind)
      let tran_root ← snprintf (radmind_real_path ++ lit "/tmp/transcript" ++ behind)
        (radmind_real_path ++ lit "/tmp/transcript" ++ behind)
      return { file_root := file_root, tran_root := tran_root, tran_name := p }
    else
      let test_path ← snprintf (radmind_real_path ++ lit "/transcript")
        (radmind_real_path ++ lit "/transcript")
      if strstr dir test_path then
        let behind := dir.drop test_path.length
        let file_root ← snprintf (radmind_real_path ++ lit "/file" ++ behind)
          (radmind_real_path ++ lit "/file" ++ behind)
        let tran_root ← snprintf (radmind_real_path ++ lit "/transcript" ++ behind)
          (radmind_real_path ++ lit "/transcript" ++ behind)
        return { file_root := file_root, tran_root := tran_root, tran_name := p }
      else
        let file_root ← snprintf (dir ++ lit "/../file") (dir ++ lit "/../file")
        -- the length is not looked at here
        return { file_root := file_root, tran_root := dir.take (maxPathLen - 1), tran_name := p }

/-! ## Real paths -/

open PathText

def unix : Marks Byte := { sep := slash, here := lit ".", up := lit ".." }

/-- A path without links, as the names it leads through. -/
structure RealPath where
  names : List CStr
  valid : ∀ n ∈ names, IsName unix n

/-- The path of the root is "/". -/
def RealPath.text (r : RealPath) : CStr :=
  if r.names = [] then [slash] else PathText.text unix r.names

def tmpName : CStr := lit "tmp"
def fileName : CStr := lit "file"
def transcriptName : CStr := lit "transcript"

/-- The file root and the transcript root that belong to a transcript in the directory `D`,
where the radmind directory is `R`. -/
inductive TreeOf (R : List CStr) : List CStr → List CStr → List CStr → Prop
  | inTmp (rel : List CStr) :
    TreeOf R (R ++ [tmpName, transcriptName] ++ rel) (R ++ [tmpName, fileName] ++ rel)
      (R ++ [tmpName, transcriptName] ++ rel)
  | inTop (rel : List CStr) :
    TreeOf R (R ++ [transcriptName] ++ rel) (R ++ [fileName] ++ rel) (R ++ [transcriptName] ++ rel)
  | elsewhere {D : List CStr} : ¬ R ++ [tmpName, transcriptName] <+: D →
    ¬ R ++ [transcriptName] <+: D → TreeOf R D (D.dropLast ++ [fileName]) D

/-- The roots name the directories of the transcript's tree. -/
def FindsTree (R : RealPath) (D : List CStr) (roots : Roots) : Prop :=
  TreeOf R.names D (resolve unix roots.file_root) (resolve unix roots.tran_root)

/-- The text of the path is in the path of the directory only where it leads there. -/
def OnlyAbove (t D : List CStr) : Prop := PathText.text unix t <:+: PathText.text unix D → t <+: D

/-- Where the search for the text of a path does what is meant. -/
def SearchFits (R : RealPath) (D : List CStr) : Prop :=
  if R.names = [] then
    ¬ (∃ n rel, D = [tmpName, transcriptName] ++ n :: rel) ∧ ¬ ∃ n rel, D = transcriptName :: n :: rel
  else
    OnlyAbove (R.names ++ [tmpName, transcriptName]) D ∧
      (¬ R.names ++ [tmpName, transcriptName] <+: D → OnlyAbove (R.names ++ [transcriptName]) D)

/-! ## The call -/

theorem cutName_text {D : List CStr} {n : CStr} (hn : slash ∉ n) :
    cutName (PathText.text unix (D ++ [n])) = (PathText.text unix D, n) := by
  have hrev : (PathText.text unix (D ++ [n])).reverse =
      n.reverse ++ slash :: (PathText.text unix D).reverse := by
    simp [unix]
  have hall : ∀ c ∈ n.reverse, decide (c ≠ slash) = true := by
    intro c hc
    exact decide_eq_true fun h => hn (h ▸ List.mem_reverse.mp hc)
  rw [cutName, hrev, List.dropWhile_append_of_pos hall, List.takeWhile_append_of_pos hall]
  simp

theorem snprintf_ok {s error : CStr} (h : s.length < maxPathLen) : snprintf s error = .ok s :=
  if_neg (Nat.not_le.mpr h)

theorem length_spliced (R mid s : CStr) (k : Nat) :
    (R ++ mid ++ s.drop k).length = R.length + mid.length + (s.length - k) := by
  rw [List.length_append, List.length_append, List.length_drop]

/-- Where every text fits its buffer, the two searches decide. -/
theorem get_root_eq {realpath : CStr → Except CStr CStr} {radmind_path path R : CStr}
    {D : List CStr} {n : CStr} (hR : realpath radmind_path = .ok R)
    (hP : realpath path = .ok (PathText.text unix (D ++ [n]))) (hD : D ≠ []) (hn : slash ∉ n)
    (hlen : (PathText.text unix (D ++ [n])).length < maxPathLen)
    (hlenR : R.length + 15 < maxPathLen) (hlenD : (PathText.text unix D).length + 8 < maxPathLen) :
    get_root realpath radmind_path path =
      .ok (if strstr (PathText.text unix D) (R ++ lit "/tmp/transcript") = true then
        { file_root := R ++ lit "/tmp/file" ++ (PathText.text unix D).drop (R.length + 15)
          tran_root := R ++ lit "/tmp/transcript" ++ (PathText.text unix D).drop (R.length + 15)
          tran_name := n }
      else if strstr (PathText.text unix D) (R ++ lit "/transcript") = true then
        { file_root := R ++ lit "/file" ++ (PathText.text unix D).drop (R.length + 11)
          tran_root := R ++ lit "/transcript" ++ (PathText.text unix D).drop (R.length + 11)
          tran_name := n }
      else
        { file_root := PathText.text unix D ++ lit "/../file"
          tran_root := PathText.text unix D, tran_name := n }) := by
  have hdir : PathText.text unix D ≠ [] := by
    cases D with
    | nil => exact absurd rfl hD
    | cons d D => exact List.cons_ne_nil _ _
  have hname : ¬ n.length ≥ maxPathLen := by
    rw [text_append, List.length_append, text_cons, List.length_append] at hlen
    simp at hlen
    omega
  have htop : (R ++ lit "/transcript").length = R.length + 11 := List.length_append
  have htmp : (R ++ lit "/tmp/transcript").length = R.length + 15 := List.length_append
  have hin {t : CStr} (h : strstr (PathText.text unix D) t = true) :
      t.length ≤ (PathText.text unix D).length := (strstr_iff.mp h).length_le
  simp only [get_root, hR, hP, bind, Except.bind, cutName_text hn, if_neg hdir, if_neg hname]
  rw [snprintf_ok (by omega)]
  simp only [htmp]
  by_cases h1 : strstr (PathText.text unix D) (R ++ lit "/tmp/transcript") = true
  · have hle := hin h1
    rw [htmp] at hle
    have hfile := length_spliced R (lit "/tmp/file") (PathText.text unix D) (R.length + 15)
    have htran := length_spliced R (lit "/tmp/transcript") (PathText.text unix D) (R.length + 15)
    rw [show (lit "/tmp/file").length = 9 from rfl] at hfile
    rw [show (lit "/tmp/transcript").length = 15 from rfl] at htran
    rw [if_pos h1, if_pos h1, snprintf_ok (by omega), snprintf_ok (by omega)]
    rfl
  · rw [if_neg h1, if_neg h1, snprintf_ok (by omega)]
    simp only [htop]
    by_cases h2 : strstr (PathText.text unix D) (R ++ lit "/transcript") = true
    · have hle := hin h2
      rw [htop] at hle
      have hfile := length_spliced R (lit "/file") (PathText.text unix D) (R.length + 11)
      have htran := length_spliced R (lit "/transcript") (PathText.text unix D) (R.length + 11)
      rw [show (lit "/file").length = 5 from rfl] at hfile
      rw [show (lit "/transcript").length = 11 from rfl] at htran
      rw [if_pos h2, if_pos h2, snprintf_ok (by omega), snprintf_ok (by omega)]
      rfl
    · have hup : (PathText.text unix D ++ lit "/../file").length =
          (PathText.text unix D).length + 8 := List.length_append
      rw [if_neg h2, if_neg h2, snprintf_ok (by omega), List.take_of_length_le (by omega)]
      rfl

/-! ## What was found -/

/-- Behind the text of a path of the same length as the start of another come the end of a
name and names. -/
theorem drop_text {D : List CStr} (hD : ∀ n ∈ D, IsName unix n) (k : Nat) :
    ∃ c rest, (PathText.text unix D).drop k = c ++ PathText.text unix rest ∧ slash ∉ c ∧
      ∀ n ∈ rest, IsName unix n := by
  obtain ⟨c, rest, heq, hsep, hrest⟩ :=
    eq_of_suffix_text (fun n hn => (hD n hn).2.2.2) (List.drop_suffix k (PathText.text unix D))
  exact ⟨c, rest, heq, hsep, fun n hn => hD n (hrest.subset hn)⟩

/-- A name with more letters behind it. -/
theorem isName_append {n c : CStr} (hn : IsName unix n) (hlen : 2 < n.length) (hc : slash ∉ c) :
    IsName unix (n ++ c) := by
  have hlong : 2 < (n ++ c).length := by
    rw [List.length_append]
    omega
  refine ⟨?_, ?_, ?_, ?_⟩
  · intro h
    rw [h] at hlong
    exact absurd hlong (by decide)
  · intro h
    rw [h] at hlong
    exact absurd hlong (by decide)
  · intro h
    rw [h] at hlong
    exact absurd hlong (by decide)
  · intro h
    rcases List.mem_append.mp h with h | h
    · exact hn.2.2.2 h
    · exact hc h

instance (n : CStr) : Decidable (IsName unix n) := inferInstanceAs (Decidable (_ ∧ _))

theorem isName_tmp : IsName unix tmpName := by decide
theorem isName_file : IsName unix fileName := by decide
theorem isName_transcript : IsName unix transcriptName := by decide

/-- The text of a directory, a name, and what is left of another path, as names. -/
theorem resolve_spliced {dir rest : List CStr} {n c : CStr} (hdir : ∀ k ∈ dir, IsName unix k)
    (hrest : ∀ k ∈ rest, IsName unix k) (hn : IsName unix n) (hlen : 2 < n.length)
    (hc : slash ∉ c) :
    resolve unix (PathText.text unix (dir ++ [n]) ++ (c ++ PathText.text unix rest)) =
      dir ++ (n ++ c) :: rest := by
  have htext : PathText.text unix (dir ++ [n]) ++ (c ++ PathText.text unix rest) =
      PathText.text unix (dir ++ (n ++ c) :: rest) := by
    simp
  rw [htext, resolve_text]
  intro k hk
  rcases List.mem_append.mp hk with hk | hk
  · exact hdir k hk
  · rcases List.mem_cons.mp hk with rfl | hk
    · exact isName_append hn hlen hc
    · exact hrest k hk

theorem dropLast_inside (dir : List CStr) (k n : CStr) (rel : List CStr) :
    (dir ++ k :: n :: rel).dropLast = dir ++ k :: (n :: rel).dropLast := by
  rw [List.dropLast_append_of_ne_nil (List.cons_ne_nil _ _), List.dropLast_cons_cons]

/-- A name that only begins with `transcript` gives another file root than the one beside. -/
theorem not_beside {dir rest D : List CStr} {c : CStr} (hunder : ¬ dir ++ [transcriptName] <+: D)
    (htran : dir ++ (transcriptName ++ c) :: rest = D) :
    dir ++ (fileName ++ c) :: rest ≠ D.dropLast ++ [fileName] := by
  intro hfile
  subst htran
  cases rest with
  | nil =>
    rw [List.dropLast_concat] at hfile
    have hc : fileName ++ c = fileName ++ [] :=
      (List.append_nil fileName).symm ▸ List.head_eq_of_cons_eq (List.append_cancel_left hfile)
    rw [List.append_cancel_left hc, List.append_nil] at hunder
    exact hunder List.prefix_rfl
  | cons n rest =>
    rw [dropLast_inside, List.append_assoc, List.cons_append] at hfile
    have hname := congrArg List.length (List.head_eq_of_cons_eq (List.append_cancel_left hfile))
    simp [fileName, transcriptName, lit] at hname

/-- What the code writes where the text of the transcript directory was found. -/
theorem resolve_matched {dir D : List CStr} (hdir : ∀ n ∈ dir, IsName unix n)
    (hD : ∀ n ∈ D, IsName unix n) :
    ∃ c rest, resolve unix (PathText.text unix (dir ++ [fileName]) ++
        (PathText.text unix D).drop (PathText.text unix (dir ++ [transcriptName])).length) =
          dir ++ (fileName ++ c) :: rest ∧
      resolve unix (PathText.text unix (dir ++ [transcriptName]) ++
        (PathText.text unix D).drop (PathText.text unix (dir ++ [transcriptName])).length) =
          dir ++ (transcriptName ++ c) :: rest ∧
      (dir ++ [transcriptName] <+: D → c = [] ∧ dir ++ [transcriptName] ++ rest = D) := by
  by_cases hpre : dir ++ [transcriptName] <+: D
  · obtain ⟨rest, rfl⟩ := hpre
    have hrest : ∀ n ∈ rest, IsName unix n := fun n hn => hD n (List.mem_append_right _ hn)
    have hdrop : (PathText.text unix (dir ++ [transcriptName] ++ rest)).drop
        (PathText.text unix (dir ++ [transcriptName])).length = [] ++ PathText.text unix rest := by
      rw [text_append (dir ++ [transcriptName]), List.drop_left, List.nil_append]
    refine ⟨[], rest, ?_, ?_, fun _ => ⟨rfl, rfl⟩⟩
    · rw [hdrop, resolve_spliced hdir hrest isName_file (by decide) List.not_mem_nil]
    · rw [hdrop, resolve_spliced hdir hrest isName_transcript (by decide) List.not_mem_nil]
  · obtain ⟨c, rest, hdrop, hc, hrest⟩ :=
      drop_text hD (PathText.text unix (dir ++ [transcriptName])).length
    refine ⟨c, rest, ?_, ?_, fun h => absurd h hpre⟩
    · rw [hdrop, resolve_spliced hdir hrest isName_file (by decide) hc]
    · rw [hdrop, resolve_spliced hdir hrest isName_transcript (by decide) hc]

/-- The transcript root is the transcript's directory in every case. -/
theorem treeOf_iff {R D file tran : List CStr} :
    TreeOf R D file tran ↔ tran = D ∧
      ((∃ rel, R ++ [tmpName, transcriptName] ++ rel = D ∧ file = R ++ [tmpName, fileName] ++ rel) ∨
        (∃ rel, R ++ [transcriptName] ++ rel = D ∧ file = R ++ [fileName] ++ rel) ∨
        (¬ R ++ [tmpName, transcriptName] <+: D ∧ ¬ R ++ [transcriptName] <+: D ∧
          file = D.dropLast ++ [fileName])) := by
  constructor
  · intro h
    cases h with
    | inTmp rel => exact ⟨rfl, .inl ⟨rel, rfl, rfl⟩⟩
    | inTop rel => exact ⟨rfl, .inr (.inl ⟨rel, rfl, rfl⟩)⟩
    | elsewhere htmp htop => exact ⟨rfl, .inr (.inr ⟨htmp, htop, rfl⟩)⟩
  · rintro ⟨rfl, ⟨rel, rfl, rfl⟩ | ⟨rel, rfl, rfl⟩ | ⟨htmp, htop, rfl⟩⟩
    · exact .inTmp rel
    · exact .inTop rel
    · exact .elsewhere htmp htop

theorem not_both {R D : List CStr} (htmp : R ++ [tmpName, transcriptName] <+: D) :
    ¬ R ++ [transcriptName] <+: D := by
  rintro ⟨rel, hrel⟩
  obtain ⟨rel', hrel'⟩ := htmp
  rw [← hrel', List.append_assoc, List.append_assoc] at hrel
  have hname := List.head_eq_of_cons_eq (List.append_cancel_left hrel)
  exact absurd hname (by decide)

variable {R D : List CStr}

/-- A match of the first text is right exactly where the transcript is in that directory. -/
theorem treeOf_tmp (hR : ∀ n ∈ R, IsName unix n) (hD : ∀ n ∈ D, IsName unix n) :
    TreeOf R D
      (resolve unix (PathText.text unix (R ++ [tmpName, fileName]) ++ (PathText.text unix D).drop
        (PathText.text unix (R ++ [tmpName, transcriptName])).length))
      (resolve unix (PathText.text unix (R ++ [tmpName, transcriptName]) ++
        (PathText.text unix D).drop (PathText.text unix (R ++ [tmpName, transcriptName])).length)) ↔
      R ++ [tmpName, transcriptName] <+: D := by
  have hdir : ∀ n ∈ R ++ [tmpName], IsName unix n := by
    intro n hn
    rcases List.mem_append.mp hn with hn | hn
    · exact hR n hn
    · exact List.mem_singleton.mp hn ▸ isName_tmp
  obtain ⟨c, rest, hfile, htran, hpre⟩ := resolve_matched hdir hD
  simp only [List.append_assoc, List.cons_append, List.nil_append] at hfile htran hpre
  rw [hfile, htran, treeOf_iff]
  constructor
  · rintro ⟨heq, ⟨rel, hrel, -⟩ | ⟨rel, hrel, -⟩ | ⟨htmp, -, hbeside⟩⟩
    · exact ⟨rel, hrel⟩
    · rw [← hrel, List.append_assoc] at heq
      have hname := List.head_eq_of_cons_eq (List.append_cancel_left heq)
      exact absurd hname (by decide)
    · have hname := @not_beside (R ++ [tmpName]) rest D c
        (by rwa [List.append_assoc]) (by rwa [List.append_assoc])
      rw [List.append_assoc] at hname
      exact absurd hbeside hname
  · intro hunder
    obtain ⟨rfl, hrest⟩ := hpre hunder
    refine ⟨?_, .inl ⟨rest, ?_, ?_⟩⟩
    · simpa using hrest
    · simpa using hrest
    · simp

/-- The same of the second text, where the transcript is not in the first directory. -/
theorem treeOf_top (hR : ∀ n ∈ R, IsName unix n) (hD : ∀ n ∈ D, IsName unix n)
    (hnot : ¬ R ++ [tmpName, transcriptName] <+: D) :
    TreeOf R D
      (resolve unix (PathText.text unix (R ++ [fileName]) ++ (PathText.text unix D).drop
        (PathText.text unix (R ++ [transcriptName])).length))
      (resolve unix (PathText.text unix (R ++ [transcriptName]) ++
        (PathText.text unix D).drop (PathText.text unix (R ++ [transcriptName])).length)) ↔
      R ++ [transcriptName] <+: D := by
  obtain ⟨c, rest, hfile, htran, hpre⟩ := resolve_matched hR hD
  rw [hfile, htran, treeOf_iff]
  constructor
  · rintro ⟨heq, ⟨rel, hrel, -⟩ | ⟨rel, hrel, -⟩ | ⟨-, htop, hbeside⟩⟩
    · exact absurd ⟨rel, hrel⟩ hnot
    · exact ⟨rel, hrel⟩
    · exact absurd hbeside (not_beside htop heq)
  · intro hunder
    obtain ⟨rfl, hrest⟩ := hpre hunder
    refine ⟨?_, .inr (.inl ⟨rest, hrest, ?_⟩)⟩
    · simpa using hrest
    · simp

/-- The file root beside a directory that is further in. -/
theorem beside_ne (dir : List CStr) (n : CStr) (rel rel' : List CStr) :
    (dir ++ transcriptName :: n :: rel).dropLast ++ [fileName] ≠ dir ++ fileName :: rel' := by
  intro h
  rw [dropLast_inside, List.append_assoc, List.cons_append] at h
  have hname := List.head_eq_of_cons_eq (List.append_cancel_left h)
  exact absurd hname (by decide)

/-- Where no text was found, the file root is beside the transcript's directory: right for all
directories but those inside of the two. -/
theorem treeOf_beside (hD : ∀ n ∈ D, IsName unix n) :
    TreeOf R D (resolve unix (PathText.text unix D ++ lit "/../file"))
      (resolve unix (PathText.text unix D)) ↔
      (¬ ∃ n rel, D = R ++ [tmpName] ++ transcriptName :: n :: rel) ∧
        ¬ ∃ n rel, D = R ++ transcriptName :: n :: rel := by
  have hup : PathText.text unix D ++ lit "/../file" =
      PathText.text unix (D ++ [unix.up, fileName]) := by
    rw [text_append]
    rfl
  rw [hup, resolve_text_up hD isName_file (by decide), resolve_text hD, treeOf_iff]
  constructor
  · rintro ⟨-, hcases⟩
    constructor
    · rintro ⟨n, rel, rfl⟩
      have htmp : R ++ [tmpName, transcriptName] <+: R ++ [tmpName] ++ transcriptName :: n :: rel :=
        ⟨n :: rel, by simp⟩
      rcases hcases with ⟨rel', -, hfile⟩ | ⟨rel', hrel, -⟩ | ⟨hnot, -⟩
      · refine beside_ne (R ++ [tmpName]) n rel rel' (hfile.trans ?_)
        simp
      · exact not_both htmp ⟨rel', hrel⟩
      · exact hnot htmp
    · rintro ⟨n, rel, rfl⟩
      have htop : R ++ [transcriptName] <+: R ++ transcriptName :: n :: rel := ⟨n :: rel, by simp⟩
      rcases hcases with ⟨rel', hrel, -⟩ | ⟨rel', -, hfile⟩ | ⟨-, hnot, -⟩
      · exact not_both ⟨rel', hrel⟩ htop
      · refine beside_ne R n rel rel' (hfile.trans ?_)
        simp
      · exact hnot htop
  · rintro ⟨hntmp, hntop⟩
    refine ⟨rfl, ?_⟩
    by_cases htmp : R ++ [tmpName, transcriptName] <+: D
    · obtain ⟨rel, rfl⟩ := htmp
      cases rel with
      | nil =>
        refine .inl ⟨[], rfl, ?_⟩
        rw [List.append_nil, List.dropLast_append_of_ne_nil (List.cons_ne_nil _ _)]
        simp
      | cons n rel => exact absurd ⟨n, rel, by simp⟩ hntmp
    · by_cases htop : R ++ [transcriptName] <+: D
      · obtain ⟨rel, rfl⟩ := htop
        cases rel with
        | nil =>
          refine .inr (.inl ⟨[], rfl, ?_⟩)
          rw [List.append_nil, List.dropLast_concat, List.append_nil]
        | cons n rel => exact absurd ⟨n, rel, by simp⟩ hntop
      · exact .inr (.inr ⟨htmp, htop, rfl⟩)

/-! ## The roots of a transcript -/

theorem not_strstr_root (hD : ∀ n ∈ D, IsName unix n) (s : CStr) :
    ¬ strstr (PathText.text unix D) (slash :: slash :: s) = true := by
  rw [strstr_iff]
  exact not_infix_text hD

theorem infix_of_under {t D : List CStr} (h : t <+: D) :
    PathText.text unix t <:+: PathText.text unix D := by
  obtain ⟨rel, rfl⟩ := h
  rw [text_append]
  exact (List.prefix_append _ _).isInfix

/-- `get_root` finds the tree of a transcript exactly where the search fits. -/
theorem get_root_finds_iff (realpath : CStr → Except CStr CStr) (radmind_path path : CStr)
    (R P : RealPath) (D : List CStr) (n : CStr)
    (hR : realpath radmind_path = .ok R.text) (hP : realpath path = .ok P.text)
    (hnames : P.names = D ++ [n]) (hD : D ≠ []) (hlen : P.text.length < maxPathLen)
    (hlenR : R.text.length + 15 < maxPathLen)
    (hlenD : (PathText.text unix D).length + 8 < maxPathLen) :
    ∃ roots, get_root realpath radmind_path path = .ok roots ∧
      (FindsTree R D roots ↔ SearchFits R D) := by
  have hPtext : P.text = PathText.text unix (D ++ [n]) := by
    rw [RealPath.text, hnames, if_neg (List.append_ne_nil_of_right_ne_nil _ (List.cons_ne_nil _ _))]
  have hvalid : ∀ k ∈ D, IsName unix k := fun k hk =>
    P.valid k (hnames ▸ List.mem_append_left _ hk)
  have hn : slash ∉ n := (P.valid n (by simp [hnames])).2.2.2
  rw [hPtext] at hP hlen
  refine ⟨_, get_root_eq hR hP hD hn hlen hlenR hlenD, ?_⟩
  by_cases hroot : R.names = []
  · have hRtext : R.text = [slash] := if_pos hroot
    have h1 : ¬ strstr (PathText.text unix D) ([slash] ++ lit "/tmp/transcript") = true :=
      not_strstr_root hvalid (lit "tmp/transcript")
    have h2 : ¬ strstr (PathText.text unix D) ([slash] ++ lit "/transcript") = true :=
      not_strstr_root hvalid (lit "transcript")
    rw [hRtext, if_neg h1, if_neg h2, SearchFits, if_pos hroot, FindsTree, hroot]
    exact treeOf_beside hvalid
  · have hRtext : R.text = PathText.text unix R.names := if_neg hroot
    have htmp : R.text ++ lit "/tmp/transcript" =
        PathText.text unix (R.names ++ [tmpName, transcriptName]) := by
      rw [hRtext, text_append]
      rfl
    have htop : R.text ++ lit "/transcript" =
        PathText.text unix (R.names ++ [transcriptName]) := by
      rw [hRtext, text_append]
      rfl
    have hltmp : R.text.length + 15 =
        (PathText.text unix (R.names ++ [tmpName, transcriptName])).length := by
      rw [← htmp, List.length_append]
      rfl
    have hltop : R.text.length + 11 = (PathText.text unix (R.names ++ [transcriptName])).length := by
      rw [← htop, List.length_append]
      rfl
    rw [SearchFits, if_neg hroot, htmp, htop, hltmp, hltop]
    simp only [OnlyAbove, strstr_iff]
    by_cases h1 : PathText.text unix (R.names ++ [tmpName, transcriptName]) <:+:
        PathText.text unix D
    · have hfile : R.text ++ lit "/tmp/file" =
          PathText.text unix (R.names ++ [tmpName, fileName]) := by
        rw [hRtext, text_append]
        rfl
      rw [if_pos h1, FindsTree, hfile, treeOf_tmp R.valid hvalid]
      exact ⟨fun h => ⟨fun _ => h, fun hnot => absurd h hnot⟩, fun h => h.1 h1⟩
    · have hnot : ¬ R.names ++ [tmpName, transcriptName] <+: D := fun h => h1 (infix_of_under h)
      rw [if_neg h1]
      by_cases h2 : PathText.text unix (R.names ++ [transcriptName]) <:+: PathText.text unix D
      · have hfile : R.text ++ lit "/file" = PathText.text unix (R.names ++ [fileName]) := by
          rw [hRtext, text_append]
          rfl
        rw [if_pos h2, FindsTree, hfile, treeOf_top R.valid hvalid hnot]
        exact ⟨fun h => ⟨fun h' => absurd h' h1, fun _ _ => h⟩, fun h => h.2 hnot h2⟩
      · have hnot2 : ¬ R.names ++ [transcriptName] <+: D := fun h => h2 (infix_of_under h)
        rw [if_neg h2]
        have hbeside := (treeOf_beside (R := R.names) hvalid).mpr
          ⟨fun ⟨k, rel, h⟩ => hnot ⟨k :: rel, by simp [h]⟩,
            fun ⟨k, rel, h⟩ => hnot2 ⟨k :: rel, by simp [h]⟩⟩
        exact ⟨fun _ => ⟨fun h' => absurd h' h1, fun _ h' => absurd h' h2⟩, fun _ => hbeside⟩

/-- The radmind directory `/r`. -/
def plainRoot : RealPath := { names := [lit "r"], valid := by decide }

def plainTranscript : RealPath :=
  { names := [lit "r", transcriptName, lit "t.T"], valid := by decide }

/-- The real path of a path that has no link in it. -/
def samePath (path : CStr) : Except CStr CStr := .ok path

theorem get_root_finds_plain :
    ∃ roots, get_root samePath plainRoot.text plainTranscript.text = .ok roots ∧
      (FindsTree plainRoot [lit "r", transcriptName] roots ↔
        SearchFits plainRoot [lit "r", transcriptName]) :=
  get_root_finds_iff samePath plainRoot.text plainTranscript.text plainRoot plainTranscript
    [lit "r", transcriptName] (lit "t.T") rfl rfl rfl (by decide) (by decide) (by decide) (by decide)

/-- A transcript in `/r/transcript2`. -/
def otherTranscript : RealPath :=
  { names := [lit "r", lit "transcript2", lit "t.T"], valid := by decide }

/-- The file root of a transcript in `/r/transcript2` is `/r/file2`, not `/r/file`. -/
theorem not_get_root_finds :
    ¬ ∀ (realpath : CStr → Except CStr CStr) (radmind_path path : CStr) (R P : RealPath)
      (D : List CStr) (n : CStr), realpath radmind_path = .ok R.text →
      realpath path = .ok P.text → P.names = D ++ [n] → D ≠ [] → P.text.length < maxPathLen →
      R.text.length + 15 < maxPathLen → (PathText.text unix D).length + 8 < maxPathLen →
      ∃ roots, get_root realpath radmind_path path = .ok roots ∧ FindsTree R D roots := by
  intro h
  obtain ⟨roots, hroots, hfinds⟩ := h samePath plainRoot.text otherTranscript.text plainRoot
    otherTranscript [lit "r", lit "transcript2"] (lit "t.T") rfl rfl rfl (by decide) (by decide)
    (by decide) (by decide)
  have hrun : get_root samePath plainRoot.text otherTranscript.text =
      .ok { file_root := lit "/r/file2", tran_root := lit "/r/transcript2"
            tran_name := lit "t.T" } := by
    decide +kernel
  cases hrun.symm.trans hroots
  have hfile : resolve unix (lit "/r/file2") = [lit "r", lit "file2"] := by decide +kernel
  rw [FindsTree, hfile, treeOf_iff] at hfinds
  rcases hfinds.2 with ⟨rel, hrel, -⟩ | ⟨rel, hrel, -⟩ | ⟨-, -, hbeside⟩
  · exact absurd (List.head_eq_of_cons_eq (List.tail_eq_of_cons_eq hrel)) (by decide)
  · exact absurd (List.head_eq_of_cons_eq (List.tail_eq_of_cons_eq hrel)) (by decide)
  · exact absurd hbeside (by decide)

end Radmind
