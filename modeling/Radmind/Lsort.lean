import Radmind.Lib.Segments
import Radmind.Transcript.Text
import Radmind.CommandFile

/-!
# `lsort`

`lsort` reads transcripts line by line, keeps each line with its decoded path in a list, sorts
the list with `qsort`, and writes the lines one behind the other.  A line is written with the
newline it was read with, which the last one of a file need not have.
-/

namespace Radmind

open Segments

/-- `struct save_line`, a pointer being the number of the node it points to. -/
structure SaveLine where
  next : Option Nat
  key : CStr
  data : CStr
  deriving DecidableEq, Repr

/-- The nodes in the order of their `malloc`, `lines`, `linecount`, and the buffer of
`decode`. -/
structure LsortState where
  nodes : List SaveLine
  lines : Option Nat
  linecount : Nat
  buf : List Byte
  deriving DecidableEq, Repr

/-- What ends the run before anything is written. -/
inductive LsortExit
  | systemError (arg : CStr)
  | notEnoughFields (fn : CStr) (lineno : Nat)
  | overrun
  deriving DecidableEq, Repr

/-- `save_it` -/
def saveIt (buffer pathname : CStr) (st : LsortState) : LsortState :=
  { st with
    nodes := st.nodes ++ [{ next := st.lines, key := pathname, data := buffer }]
    lines := some st.nodes.length
    linecount := st.linecount + 1 }

/-- A line in the loop of `process`. -/
def processLine (fn : CStr) (lineno : Nat) (buffer : List Byte) (st : LsortState) :
    Except LsortExit LsortState :=
  -- the copy of `strdup`, taken before the words are split
  let line := cstr buffer
  match (acavParse (buffer ++ [nul])).2 with
  | [] => .ok st
  | word :: argv =>
    if word.head? = some hash then .ok st
    else
      match (if word.head? = some plus ∨ word.head? = some minus then argv else word :: argv) with
      | _ :: path :: _ =>
        match decode st.buf path with
        | (none, _) => .error .overrun
        | (some pathname, buf) => .ok (saveIt line pathname { st with buf := buf })
      | _ => .error (.notEnoughFields fn lineno)

def processLines (fn : CStr) : Nat → List (List Byte) → LsortState → Except LsortExit LsortState
  | _, [], st => .ok st
  | lineno, buffer :: buffers, st =>
    match processLine fn (lineno + 1) buffer st with
    | .error e => .error e
    | .ok st => processLines fn (lineno + 1) buffers st

/-- An argument of `lsort`, and what the stream it names delivers. -/
structure LsortFile where
  arg : CStr
  stream : Option (List Byte)
  deriving DecidableEq, Repr

/-- `fn` in `process`. -/
def LsortFile.fn (f : LsortFile) : CStr := if f.arg = [minus] then lit "(stdin)" else f.arg

/-- `process` -/
def process (f : LsortFile) (st : LsortState) : Except LsortExit LsortState :=
  match f.stream with
  | none => .error (.systemError f.arg)
  | some content => processLines f.fn 0 (fileLines content) st

def processAll : List LsortFile → LsortState → Except LsortExit LsortState
  | [], st => .ok st
  | f :: files, st =>
    match process f st with
    | .error e => .error e
    | .ok st => processAll files st

/-- `for ( sp = lines; sp; sp = sp->next )`, the nodes it comes to. -/
def walkLines (nodes : List SaveLine) : Nat → Option Nat → List Nat
  | 0, _ => []
  | _, none => []
  | fuel + 1, some sp =>
    match nodes[sp]? with
    | none => []
    | some node => sp :: walkLines nodes fuel node.next

/-- The key of the node that a member of the array points to. -/
def keyOf (nodes : List SaveLine) (sp : Nat) : CStr := (nodes[sp]?.map (·.key)).getD []

def lsortCmp (caseSensitive : Bool) (nodes : List SaveLine) (a b : Nat) : Int :=
  pathcasecmp (keyOf nodes a) (keyOf nodes b) caseSensitive

/-- `while ( y-- != x )`: from the last member of the array to the first, each node is put in
front of those behind it. -/
def relink : List Nat → List SaveLine → List SaveLine × Option Nat
  | [], nodes => (nodes, none)
  | sp :: x, nodes =>
    let r := relink x nodes
    (r.1.modify sp fun node => { node with next := r.2 }, some sp)

/-- `sort_them` -/
def sortThem (qsort : (Nat → Nat → Int) → List Nat → List Nat) (caseSensitive : Bool)
    (st : LsortState) : LsortState :=
  let x := (walkLines st.nodes st.nodes.length st.lines).take st.linecount
  let r := relink (qsort (lsortCmp caseSensitive st.nodes) x) st.nodes
  { st with nodes := r.1, lines := r.2 }

/-- `print_them` -/
def printThem (st : LsortState) : List Byte :=
  (walkLines st.nodes st.nodes.length st.lines).flatMap fun sp =>
    (st.nodes[sp]?.map (·.data)).getD []

/-- `main`, what it writes. -/
def lsort (qsort : (Nat → Nat → Int) → List Nat → List Nat) (caseSensitive : Bool)
    (files : List LsortFile) : Except LsortExit (List Byte) :=
  match processAll files { nodes := [], lines := none, linecount := 0, buf := [] } with
  | .error e => .error e
  | .ok st => .ok (printThem (sortThem qsort caseSensitive st))

/-! ## Lines and paths -/

/-- The words of a line without the sign in front of them. -/
def lineFields (line : List Byte) : List CStr :=
  match lineWords line with
  | [] => []
  | word :: argv =>
    if word.head? = some plus ∨ word.head? = some minus then argv else word :: argv

/-- A line that is not blank and no comment. -/
def isEntry (line : List Byte) : Bool :=
  match lineWords line with
  | [] => false
  | word :: _ => word.head? ≠ some hash

/-- The decoded path of a line. -/
def pathOfLine (line : List Byte) : CStr := cstr (decoded ((lineFields line)[1]?.getD []))

/-- A line that a transcript can have: it fits the buffers, and its path is encoded. -/
structure ValidLine (line : List Byte) : Prop where
  nulFree : NulFree line
  short : line.length + 1 < maxPathLen
  path : isEntry line = true → ((lineFields line)[1]?.any wellEscaped) = true

/-- The lines of the inputs, each with whether a newline ends it. -/
def inputLines (files : List LsortFile) : List (Segment Byte) :=
  files.flatMap fun f => (segments newline (f.stream.getD [])).filter fun s => isEntry s.line

/-- The files can be opened, and have lines a transcript can have. -/
def ValidFiles (files : List LsortFile) : Prop :=
  ∀ f ∈ files, ∃ content, f.stream = some content ∧ ∀ s ∈ segments newline content, ValidLine s.line

/-- `qsort`, for a comparison function that it can be used with. -/
def IsQsort (qsort : (Nat → Nat → Int) → List Nat → List Nat) : Prop :=
  ∀ compar : Nat → Nat → Int, (∀ a b c, compar a b ≤ 0 → compar b c ≤ 0 → compar a c ≤ 0) →
    (∀ a b, compar a b ≤ 0 ∨ compar b a ≤ 0) →
      ∀ x, (qsort compar x).Perm x ∧ (qsort compar x).Pairwise fun a b => compar a b ≤ 0

/-- The output has the lines of the inputs, sorted by their paths. -/
def SortsLines (qsort : (Nat → Nat → Int) → List Nat → List Nat) (files : List LsortFile) : Prop :=
  ∃ out, lsort qsort true files = .ok out ∧
    ((segments newline out).map (·.line)).Perm ((inputLines files).map (·.line)) ∧
      ((segments newline out).map (·.line)).Pairwise fun l l' =>
        pathcmp (pathOfLine l) (pathOfLine l') ≤ 0

/-- Each line without a newline comes after every other line. -/
def OpenLast (saved : List (Segment Byte)) : Prop :=
  ∀ (i j : Nat) (s r : Segment Byte), saved[i]? = some s → saved[j]? = some r → i ≠ j →
    s.ended = false → pathcmp (pathOfLine r.line) (pathOfLine s.line) < 0

/-! ## A line of the input -/

/-- The words are the same with and without the newline behind them. -/
theorem acavLoop_newline {prev line : List Byte} {inWord : Bool} :
    (inWord = true → cstr (acavLoop prev inWord (line ++ [newline, nul])).1 =
        cstr (acavLoop prev inWord (line ++ [nul])).1) ∧
      (acavLoop prev inWord (line ++ [newline, nul])).2.map cstr =
        (acavLoop prev inWord (line ++ [nul])).2.map cstr := by
  induction line generalizing prev inWord with
  | nil =>
    refine ⟨fun h => ?_, rfl⟩
    subst h
    rfl
  | cons c line ih =>
    rw [List.cons_append, List.cons_append, acavLoop, acavLoop]
    by_cases hc : c = nul
    · rw [if_pos hc, if_pos hc]
      refine ⟨fun _ => ?_, rfl⟩
      rw [hc]
      rfl
    rw [if_neg hc, if_neg hc]
    by_cases hblank : isBlank prev c
    · rw [if_pos hblank, if_pos hblank]
      refine ⟨fun h => ?_, (@ih (c :: prev) false).2⟩
      subst h
      rfl
    · rw [if_neg hblank, if_neg hblank]
      obtain ⟨hopen, hwords⟩ := @ih (c :: prev) true
      have hword : cstr (c :: (acavLoop (c :: prev) true (line ++ [newline, nul])).1) =
          cstr (c :: (acavLoop (c :: prev) true (line ++ [nul])).1) := by
        rw [cstr_cons hc, cstr_cons hc, hopen rfl]
      refine ⟨fun _ => hword, ?_⟩
      cases inWord with
      | true => exact hwords
      | false => exact congrArg₂ List.cons hword hwords

theorem lineWords_segment (s : Segment Byte) : lineWords (s.text newline) = lineWords s.line := by
  cases hended : s.ended with
  | false => simp [Segment.text, hended]
  | true =>
    have h := (@acavLoop_newline [] s.line false).2
    simp only [Segment.text, hended, if_true]
    unfold lineWords words acavParse
    rw [List.append_assoc]
    exact h

theorem length_text_le (s : Segment Byte) : (s.text newline).length ≤ s.line.length + 1 := by
  cases hended : s.ended <;> simp [Segment.text, hended]

theorem nulFree_text {s : Segment Byte} (h : NulFree s.line) : NulFree (s.text newline) := by
  refine nulFree_append.mpr ⟨h, ?_⟩
  cases s.ended <;> decide

section

variable {s : Segment Byte} {fn : CStr} {lineno : Nat} {st : LsortState}

/-- The word in memory that a word of the line is, with what `decode` makes of it. -/
theorem decode_lineWord (hline : ValidLine s.line) {mem : List Byte}
    (hmem : mem ∈ (acavParse (s.text newline ++ [nul])).2) (hpath : wellEscaped (cstr mem) = true)
    (buf : List Byte) : (decode buf mem).1 = some (cstr (decoded (cstr mem))) := by
  have hnul := (acavParse_word hmem).2
  have hlen : (cstr mem).length < maxPathLen := by
    have hsuffix := (acavLoop_suffix [] false _ mem hmem).length_le
    have htext := length_text_le s
    have hshort := hline.short
    rw [acavLoop_length, List.length_append, List.length_singleton] at hsuffix
    obtain ⟨w, rest, rfl, hw⟩ := List.eq_append_cons_of_mem hnul
    rw [cstr_append_nul hw]
    simp only [List.length_append, List.length_cons] at hsuffix
    omega
  obtain ⟨w, rest, rfl, hw⟩ := List.eq_append_cons_of_mem hnul
  rw [cstr_append_nul hw] at hlen hpath ⊢
  have hunits := units_le_length w
  exact decode_wellEscaped hw hpath (by omega) (by omega) buf rest

theorem processLine_entry (hline : ValidLine s.line) (hentry : isEntry s.line = true) :
    ∃ buf, processLine fn lineno (s.text newline) st =
      .ok (saveIt (s.text newline) (pathOfLine s.line) { st with buf := buf }) := by
  have hwords : lineWords s.line = (acavParse (s.text newline ++ [nul])).2.map cstr :=
    (lineWords_segment s).symm
  have hdecode := @decode_lineWord s hline
  have hhead := fun mem hm => head?_cstr (@acavParse_word (s.text newline) mem hm).1
  unfold processLine
  simp only [cstr_of_nulFree (nulFree_text hline.nulFree)]
  cases hargv : (acavParse (s.text newline ++ [nul])).2 with
  | nil =>
    rw [isEntry, hwords, hargv] at hentry
    cases hentry
  | cons word argv =>
    rw [hargv] at hwords hhead hdecode
    have hword := hhead word List.mem_cons_self
    have hpath := hline.path hentry
    rw [isEntry, hwords, List.map_cons] at hentry
    simp only [hword, decide_eq_true_eq] at hentry
    simp only [if_neg hentry]
    have hfields : lineFields s.line =
        (if word.head? = some plus ∨ word.head? = some minus then argv else word :: argv).map
          cstr := by
      rw [lineFields, hwords, List.map_cons]
      simp only [hword]
      split <;> rfl
    have hsub : ∀ mem ∈ (if word.head? = some plus ∨ word.head? = some minus then argv
        else word :: argv), mem ∈ word :: argv := by
      split
      · exact fun mem hm => List.mem_cons_of_mem word hm
      · exact fun mem hm => hm
    rw [pathOfLine]
    rw [hfields] at hpath ⊢
    generalize (if word.head? = some plus ∨ word.head? = some minus then argv else word :: argv) =
      fields at hpath hsub ⊢
    rcases fields with _ | ⟨type, _ | ⟨path, rest⟩⟩
    · cases hpath
    · cases hpath
    · have hdec := hdecode (hsub path (List.mem_cons_of_mem _ List.mem_cons_self)) hpath st.buf
      refine ⟨(decode st.buf path).2, ?_⟩
      simp only
      rw [← Prod.mk.eta (p := decode st.buf path), hdec]
      rfl

theorem processLine_other (hentry : isEntry s.line = false) :
    processLine fn lineno (s.text newline) st = .ok st := by
  have hwords : lineWords s.line = (acavParse (s.text newline ++ [nul])).2.map cstr :=
    (lineWords_segment s).symm
  have hhead := fun mem hm => head?_cstr (@acavParse_word (s.text newline) mem hm).1
  unfold processLine
  cases hargv : (acavParse (s.text newline ++ [nul])).2 with
  | nil => rfl
  | cons word argv =>
    rw [hargv] at hwords hhead
    rw [isEntry, hwords, List.map_cons] at hentry
    simp only [hhead word List.mem_cons_self, decide_eq_false_iff_not, not_not] at hentry
    exact if_pos hentry

end

/-! ## The lines of a file -/

theorem readBytes_open {body : List Byte} (hbody : newline ∉ body) {n : Nat}
    (hn : body.length ≤ n) : readBytes n body = (body, []) := by
  induction body generalizing n with
  | nil => cases n <;> rfl
  | cons c body ih =>
    rw [List.mem_cons, not_or] at hbody
    rw [List.length_cons] at hn
    obtain ⟨n, rfl⟩ : ∃ m, n = m + 1 := ⟨n - 1, by omega⟩
    rw [readBytes, if_neg (Ne.symm hbody.1), ih hbody.2 (by omega)]

/-- `fgets` reads the segments of a file one by one, where they fit its buffer. -/
theorem fileLines_textOf {ss : List (Segment Byte)} (hvalid : ∀ s ∈ ss, s.Valid newline)
    (hclosed : Closed ss) (hshort : ∀ s ∈ ss, s.line.length + 1 < maxPathLen) :
    fileLines (Segments.textOf newline ss) = ss.map (Segment.text newline) := by
  induction ss with
  | nil => rfl
  | cons s ss ih =>
    obtain ⟨hs, hss⟩ := List.forall_mem_cons.mp hvalid
    obtain ⟨hlen, hrest⟩ := List.forall_mem_cons.mp hshort
    have hgets : fgets maxPathLen (Segments.textOf newline (s :: ss)) =
        some (s.text newline, Segments.textOf newline ss) := by
      obtain ⟨line, ended⟩ := s
      change line.length + 1 < maxPathLen at hlen
      have hfits : line.length < maxPathLen - 1 := by omega
      rw [fgets, if_neg (textOf_ne_nil hvalid (List.cons_ne_nil _ _)), textOf_cons]
      cases ended with
      | true =>
        rw [Segment.text, List.append_assoc]
        exact congrArg some (readBytes_line hs.line hfits (Segments.textOf newline ss))
      | false =>
        cases ss with
        | nil =>
          have htext : Segment.text newline ⟨line, false⟩ = line := List.append_nil line
          rw [htext, show Segments.textOf newline ([] : List (Segment Byte)) = [] from rfl,
            List.append_nil, readBytes_open hs.line hfits.le]
        | cons s' ss => exact Bool.noConfusion (hclosed _ List.mem_cons_self)
    rw [fileLines_some hgets, ih hss hclosed.tail hrest]
    rfl

theorem fileLines_segments {content : List Byte}
    (h : ∀ s ∈ segments newline content, ValidLine s.line) :
    fileLines content = (segments newline content).map (Segment.text newline) := by
  have hlines := fileLines_textOf (valid_of_mem_segments (t := content)) (closed_segments content)
    fun s hs => (h s hs).short
  rwa [textOf_segments] at hlines

/-! ## The list of nodes -/

/-- The nodes that a pointer leads to, one after the other. -/
inductive Linked (nodes : List SaveLine) : Option Nat → List Nat → Prop
  | nil : Linked nodes none []
  | cons {sp : Nat} {node : SaveLine} {sps : List Nat} : nodes[sp]? = some node →
      Linked nodes node.next sps → Linked nodes (some sp) (sp :: sps)

theorem walkLines_linked {nodes : List SaveLine} {p : Option Nat} {sps : List Nat}
    (h : Linked nodes p sps) {fuel : Nat} (hfuel : sps.length ≤ fuel) :
    walkLines nodes fuel p = sps := by
  induction h generalizing fuel with
  | nil => cases fuel <;> rfl
  | @cons sp node sps hnode _ ih =>
    rw [List.length_cons] at hfuel
    obtain ⟨fuel, rfl⟩ : ∃ m, fuel = m + 1 := ⟨fuel - 1, by omega⟩
    simp only [walkLines, hnode]
    rw [ih (by omega)]

theorem Linked.append {nodes : List SaveLine} {p : Option Nat} {sps : List Nat}
    (h : Linked nodes p sps) (node : SaveLine) : Linked (nodes ++ [node]) p sps := by
  induction h with
  | nil => exact .nil
  | @cons sp n sps hnode _ ih =>
    have hlt := (List.getElem?_eq_some_iff.mp hnode).1
    exact .cons (by rwa [List.getElem?_append_left hlt]) ih

/-- A change to a node that the list does not come to. -/
theorem Linked.modify {nodes : List SaveLine} {p : Option Nat} {sps : List Nat}
    (h : Linked nodes p sps) {sp : Nat} (hsp : sp ∉ sps) (f : SaveLine → SaveLine) :
    Linked (nodes.modify sp f) p sps := by
  induction h with
  | nil => exact .nil
  | @cons q n sps hnode _ ih =>
    rw [List.mem_cons, not_or] at hsp
    refine .cons ?_ (ih hsp.2)
    rw [List.getElem?_modify_ne f nodes hsp.1, hnode]

/-- What the nodes hold besides their pointers. -/
def nodeData (nodes : List SaveLine) : List (CStr × CStr) :=
  nodes.map fun node => (node.key, node.data)

theorem nodeData_modify (nodes : List SaveLine) (sp : Nat) (next : Option Nat) :
    nodeData (nodes.modify sp fun node => { node with next := next }) = nodeData nodes := by
  induction nodes generalizing sp with
  | nil => rw [List.modify_nil]
  | cons node nodes ih =>
    cases sp with
    | zero => rfl
    | succ sp => exact congrArg (List.cons (node.key, node.data)) (ih sp)

theorem nodeData_relink (x : List Nat) (nodes : List SaveLine) :
    nodeData (relink x nodes).1 = nodeData nodes := by
  induction x with
  | nil => rfl
  | cons sp x ih => exact (nodeData_modify _ sp _).trans ih

theorem length_nodeData (nodes : List SaveLine) : (nodeData nodes).length = nodes.length :=
  List.length_map _

/-- After the loop the list has the order of the array. -/
theorem relink_linked {x : List Nat} {nodes : List SaveLine} (hnodup : x.Nodup)
    (hlt : ∀ sp ∈ x, sp < nodes.length) : Linked (relink x nodes).1 (relink x nodes).2 x := by
  induction x with
  | nil => exact .nil
  | cons sp x ih =>
    obtain ⟨hsp, hnodup⟩ := List.nodup_cons.mp hnodup
    obtain ⟨hfirst, hrest⟩ := List.forall_mem_cons.mp hlt
    have hlen : (relink x nodes).1.length = nodes.length := by
      rw [← length_nodeData, nodeData_relink, length_nodeData]
    obtain ⟨node, hnode⟩ : ∃ node, (relink x nodes).1[sp]? = some node :=
      ⟨_, List.getElem?_eq_getElem (by omega)⟩
    have hset : ((relink x nodes).1.modify sp fun node =>
        { node with next := (relink x nodes).2 })[sp]? =
          some { node with next := (relink x nodes).2 } := by
      rw [List.getElem?_modify_eq, hnode]
      rfl
    exact .cons hset ((ih hnodup hrest).modify hsp _)

/-- The nodes hold the lines saved so far, and the list has the last one first. -/
structure Saved (saved : List (Segment Byte)) (st : LsortState) : Prop where
  data : nodeData st.nodes = saved.map fun s => (pathOfLine s.line, s.text newline)
  linked : Linked st.nodes st.lines (List.range saved.length).reverse
  linecount : st.linecount = saved.length

theorem Saved.length {saved : List (Segment Byte)} {st : LsortState} (h : Saved saved st) :
    st.nodes.length = saved.length := by
  rw [← length_nodeData, h.data, List.length_map]

theorem saved_nil : Saved [] { nodes := [], lines := none, linecount := 0, buf := [] } :=
  ⟨rfl, .nil, rfl⟩

theorem Saved.saveIt {saved : List (Segment Byte)} {st : LsortState} (h : Saved saved st)
    (s : Segment Byte) (buf : List Byte) :
    Saved (saved ++ [s])
      (saveIt (s.text newline) (pathOfLine s.line) { st with buf := buf }) where
  data := by
    rw [List.map_append, ← h.data]
    exact List.map_append
  linked := by
    have hlen := h.length
    rw [List.length_append, List.length_singleton, List.range_succ, List.reverse_append]
    show Linked (st.nodes ++ [⟨st.lines, pathOfLine s.line, s.text newline⟩]) (some st.nodes.length)
      (saved.length :: _)
    have hnode : (st.nodes ++ [⟨st.lines, pathOfLine s.line, s.text newline⟩])[saved.length]? =
        some ⟨st.lines, pathOfLine s.line, s.text newline⟩ := by
      rw [← hlen]
      exact List.getElem?_concat_length
    rw [hlen]
    exact .cons hnode (h.linked.append _)
  linecount := by
    rw [List.length_append]
    exact congrArg (· + 1) h.linecount

theorem processLines_saved {fn : CStr} {ss : List (Segment Byte)} {lineno : Nat}
    {saved : List (Segment Byte)} {st : LsortState} (hvalid : ∀ s ∈ ss, ValidLine s.line)
    (h : Saved saved st) :
    ∃ st', processLines fn lineno (ss.map (Segment.text newline)) st = .ok st' ∧
      Saved (saved ++ ss.filter fun s => isEntry s.line) st' := by
  induction ss generalizing lineno saved st with
  | nil => exact ⟨st, rfl, by rwa [List.filter_nil, List.append_nil]⟩
  | cons s ss ih =>
    obtain ⟨hs, hss⟩ := List.forall_mem_cons.mp hvalid
    simp only [List.map_cons, processLines, List.filter_cons]
    cases hentry : isEntry s.line with
    | false =>
      rw [processLine_other hentry]
      exact ih hss h
    | true =>
      obtain ⟨buf, hline⟩ := @processLine_entry s fn (lineno + 1) st hs hentry
      rw [hline]
      obtain ⟨st', hrun, hsaved⟩ := @ih (lineno + 1) _ _ hss (h.saveIt s buf)
      rw [List.append_assoc] at hsaved
      exact ⟨st', hrun, hsaved⟩

theorem processAll_saved {files : List LsortFile} {saved : List (Segment Byte)} {st : LsortState}
    (hvalid : ValidFiles files) (h : Saved saved st) :
    ∃ st', processAll files st = .ok st' ∧ Saved (saved ++ inputLines files) st' := by
  induction files generalizing saved st with
  | nil => exact ⟨st, rfl, by rwa [inputLines, List.flatMap_nil, List.append_nil]⟩
  | cons f files ih =>
    obtain ⟨⟨content, hstream, hlines⟩, hfiles⟩ := List.forall_mem_cons.mp hvalid
    obtain ⟨st₁, hrun₁, hsaved₁⟩ := @processLines_saved f.fn _ 0 _ _ hlines h
    obtain ⟨st₂, hrun₂, hsaved₂⟩ := ih hfiles hsaved₁
    rw [← fileLines_segments hlines] at hrun₁
    refine ⟨st₂, ?_, ?_⟩
    · simp only [processAll, process, hstream, hrun₁]
      exact hrun₂
    · rw [List.append_assoc] at hsaved₂
      simpa only [inputLines, List.flatMap_cons, hstream, Option.getD_some] using hsaved₂

/-! ## The output -/

/-- The line that was saved in a node. -/
def lineAt (saved : List (Segment Byte)) (sp : Nat) : Segment Byte := (saved[sp]?).getD ⟨[], true⟩

/-- The comparison of two nodes by the paths of their lines. -/
def comparePaths (saved : List (Segment Byte)) (a b : Nat) : Int :=
  pathcmp (pathOfLine (lineAt saved a).line) (pathOfLine (lineAt saved b).line)

theorem comparePaths_trans (saved : List (Segment Byte)) (a b c : Nat)
    (hab : comparePaths saved a b ≤ 0) (hbc : comparePaths saved b c ≤ 0) :
    comparePaths saved a c ≤ 0 :=
  pathcmp_trans (nulFree_cstr _) (nulFree_cstr _) (nulFree_cstr _) hab hbc

theorem comparePaths_total (saved : List (Segment Byte)) (a b : Nat) :
    comparePaths saved a b ≤ 0 ∨ comparePaths saved b a ≤ 0 := by
  have hswap := @pathcasecmp_swap true (pathOfLine (lineAt saved a).line)
    (pathOfLine (lineAt saved b).line) (nulFree_cstr _) (nulFree_cstr _)
  unfold comparePaths pathcmp
  omega

/-- What stands in a node. -/
theorem nodeAt {saved : List (Segment Byte)} {nodes : List SaveLine}
    (h : nodeData nodes = saved.map fun s => (pathOfLine s.line, s.text newline)) (sp : Nat) :
    (nodes[sp]?.map fun node => (node.key, node.data)) =
      saved[sp]?.map fun s => (pathOfLine s.line, s.text newline) := by
  rw [← List.getElem?_map, ← List.getElem?_map]
  exact congrArg (fun l : List (CStr × CStr) => l[sp]?) h

section

variable {saved : List (Segment Byte)} {st : LsortState}

theorem Saved.keyOf (h : Saved saved st) (sp : Nat) :
    keyOf st.nodes sp = pathOfLine (lineAt saved sp).line := by
  have hnode := congrArg (fun o : Option (CStr × CStr) => (o.map Prod.fst).getD [])
    (nodeAt h.data sp)
  simp only [Option.map_map] at hnode
  refine hnode.trans ?_
  unfold lineAt
  cases saved[sp]? <;> rfl

/-- The nodes in the order of the array, and their texts. -/
theorem printThem_sortThem {qsort : (Nat → Nat → Int) → List Nat → List Nat} (h : Saved saved st)
    (hperm : (qsort (comparePaths saved) (List.range saved.length).reverse).Perm
      (List.range saved.length).reverse) :
    printThem (sortThem qsort true st) = Segments.textOf newline
      ((qsort (comparePaths saved) (List.range saved.length).reverse).map (lineAt saved)) := by
  have hlen := h.length
  have hcmp : lsortCmp true st.nodes = comparePaths saved := by
    funext a b
    rw [lsortCmp, h.keyOf, h.keyOf]
    rfl
  have hwalk : (walkLines st.nodes st.nodes.length st.lines).take st.linecount =
      (List.range saved.length).reverse := by
    have hn : (List.range saved.length).reverse.length = saved.length := by simp
    rw [walkLines_linked h.linked (by omega), h.linecount]
    exact List.take_of_length_le hn.le
  unfold sortThem
  simp only [hcmp, hwalk]
  generalize qsort (comparePaths saved) (List.range saved.length).reverse = x at hperm ⊢
  have hmem : ∀ sp ∈ x, sp < st.nodes.length := by
    intro sp hsp
    have hsp := hperm.mem_iff.mp hsp
    rw [List.mem_reverse, List.mem_range] at hsp
    omega
  have hnodup : x.Nodup := hperm.nodup_iff.mpr (List.nodup_reverse.mpr List.nodup_range)
  have hlinked := relink_linked hnodup hmem
  have hdata := nodeData_relink x st.nodes
  have hlen' : (relink x st.nodes).1.length = st.nodes.length := by
    rw [← length_nodeData, hdata, length_nodeData]
  have hxlen : x.length = saved.length := by
    rw [hperm.length_eq, List.length_reverse, List.length_range]
  unfold printThem
  simp only
  rw [walkLines_linked hlinked (by omega), Segments.textOf, List.flatMap_map]
  refine List.flatMap_congr fun sp hsp => ?_
  obtain ⟨s, hs⟩ : ∃ s, saved[sp]? = some s :=
    ⟨_, List.getElem?_eq_getElem (by have := hmem sp hsp; omega)⟩
  have hnode := congrArg (fun o : Option (CStr × CStr) => (o.map Prod.snd).getD [])
    (nodeAt (hdata.trans h.data) sp)
  simp only [Option.map_map] at hnode
  refine hnode.trans ?_
  rw [lineAt, hs]
  rfl

theorem lsort_eq {files : List LsortFile} {qsort : (Nat → Nat → Int) → List Nat → List Nat}
    (hvalid : ValidFiles files)
    (hperm : (qsort (comparePaths (inputLines files)) (List.range (inputLines files).length).reverse).Perm
      (List.range (inputLines files).length).reverse) :
    lsort qsort true files = .ok (Segments.textOf newline
      ((qsort (comparePaths (inputLines files)) (List.range (inputLines files).length).reverse).map
        (lineAt (inputLines files)))) := by
  obtain ⟨st, hrun, hsaved⟩ := processAll_saved hvalid saved_nil
  simp only [lsort, hrun]
  rw [printThem_sortThem hsaved hperm]
  rfl

/-- The lines in an order of the nodes. -/
theorem lineAt_perm {x : List Nat} (h : x.Perm (List.range saved.length).reverse) :
    (x.map (lineAt saved)).Perm saved := by
  have hall : (List.range saved.length).map (lineAt saved) = saved := by
    apply List.ext_getElem
    · simp
    · intro i hi hi'
      simp [lineAt, hi']
  have hperm := (h.trans (List.reverse_perm _)).map (lineAt saved)
  rwa [hall] at hperm

theorem valid_of_mem_inputLines {files : List LsortFile} :
    ∀ s ∈ inputLines files, s.Valid newline := by
  intro s hs
  obtain ⟨f, -, hs⟩ := List.mem_flatMap.mp hs
  exact valid_of_mem_segments s (List.mem_filter.mp hs).1

theorem lineAt_of_lt {sp : Nat} (h : sp < saved.length) : saved[sp]? = some (lineAt saved sp) := by
  rw [lineAt, List.getElem?_eq_getElem h]
  rfl

theorem closed_of_openLast {x : List Nat} (hopen : OpenLast saved) (hnodup : x.Nodup)
    (hlt : ∀ sp ∈ x, sp < saved.length)
    (hsorted : x.Pairwise fun a b => comparePaths saved a b ≤ 0) :
    Closed (x.map (lineAt saved)) := by
  intro s hs
  rw [← List.map_dropLast] at hs
  obtain ⟨a, ha, rfl⟩ := List.mem_map.mp hs
  have hne : x ≠ [] := fun hnil => by
    rw [hnil] at ha
    cases ha
  obtain ⟨b, hb⟩ : ∃ b, x.dropLast ++ [b] = x := ⟨_, List.dropLast_append_getLast hne⟩
  have hmem : a ∈ x := List.dropLast_subset x ha
  have hlast : b ∈ x := hb ▸ List.mem_append_right _ List.mem_cons_self
  rw [← hb] at hnodup hsorted
  have hab : a ≠ b := fun heq =>
    (List.nodup_append.mp hnodup).2.2 a ha b List.mem_cons_self heq
  have hle : comparePaths saved a b ≤ 0 :=
    (List.pairwise_append.mp hsorted).2.2 a ha b List.mem_cons_self
  by_contra hended
  have hback := hopen a b _ _ (lineAt_of_lt (hlt a hmem)) (lineAt_of_lt (hlt b hlast)) hab
    (by simpa using hended)
  have hswap := @pathcasecmp_swap true (pathOfLine (lineAt saved b).line)
    (pathOfLine (lineAt saved a).line) (nulFree_cstr _) (nulFree_cstr _)
  unfold comparePaths pathcmp at hle
  unfold pathcmp at hback
  omega

/-- Where the lines without a newline come last, each line is written as one. -/
theorem sortsLines_of_openLast {files : List LsortFile}
    {qsort : (Nat → Nat → Int) → List Nat → List Nat} (hvalid : ValidFiles files)
    (hqsort : IsQsort qsort) (hopen : OpenLast (inputLines files)) : SortsLines qsort files := by
  obtain ⟨hperm, hsorted⟩ := hqsort (comparePaths (inputLines files)) (comparePaths_trans _)
    (comparePaths_total _) (List.range (inputLines files).length).reverse
  have hrun := lsort_eq hvalid hperm
  generalize hsaved : inputLines files = saved at hperm hsorted hrun
  generalize qsort (comparePaths saved) (List.range saved.length).reverse = x at hperm hsorted hrun
  have hlines := lineAt_perm hperm
  have hvalidLines : ∀ s ∈ x.map (lineAt saved), s.Valid newline := fun s hs =>
    valid_of_mem_inputLines s (hsaved ▸ hlines.mem_iff.mp hs)
  have hnodup : x.Nodup := hperm.nodup_iff.mpr (List.nodup_reverse.mpr List.nodup_range)
  have hclosed : Closed (x.map (lineAt saved)) :=
    closed_of_openLast (hsaved ▸ hopen) hnodup (fun sp hsp => by
      simpa using hperm.mem_iff.mp hsp) hsorted
  refine ⟨_, hrun, ?_, ?_⟩
  · rw [segments_textOf hvalidLines hclosed, hsaved]
    exact hlines.map _
  · rw [segments_textOf hvalidLines hclosed, List.map_map]
    exact List.pairwise_map.mpr hsorted

end

/-! ## Two ways to sort -/

/-- A stable sort. -/
def stableSort (compar : Nat → Nat → Int) (x : List Nat) : List Nat :=
  x.mergeSort fun a b => compar a b ≤ 0

/-- A sort that exchanges what compares as equal. -/
def reverseSort (compar : Nat → Nat → Int) (x : List Nat) : List Nat := stableSort compar x.reverse

theorem isQsort_stableSort : IsQsort stableSort := by
  intro compar htrans htotal x
  refine ⟨List.mergeSort_perm x _, ?_⟩
  have hsorted := @List.pairwise_mergeSort Nat (fun a b => decide (compar a b ≤ 0))
    (fun a b c hab hbc => decide_eq_true (htrans a b c (of_decide_eq_true hab) (of_decide_eq_true hbc)))
    (fun a b => by simpa using htotal a b) x
  exact hsorted.imp of_decide_eq_true

theorem isQsort_reverseSort : IsQsort reverseSort := by
  intro compar htrans htotal x
  obtain ⟨hperm, hsorted⟩ := isQsort_stableSort compar htrans htotal x.reverse
  exact ⟨hperm.trans (List.reverse_perm x), hsorted⟩

theorem stableSort_pair {compar : Nat → Nat → Int} {x : List Nat} {a b : Nat}
    (htrans : ∀ a b c, compar a b ≤ 0 → compar b c ≤ 0 → compar a c ≤ 0)
    (htotal : ∀ a b, compar a b ≤ 0 ∨ compar b a ≤ 0) (hab : compar a b ≤ 0)
    (h : List.Sublist [a, b] x) : List.Sublist [a, b] (stableSort compar x) := by
  apply List.pair_sublist_mergeSort
  · exact fun a b c hab hbc =>
      decide_eq_true (htrans a b c (of_decide_eq_true hab) (of_decide_eq_true hbc))
  · exact fun a b => by simpa using htotal a b
  · exact decide_eq_true hab
  · exact h

/-- Two members of a list stand in it in one order or the other. -/
theorem pair_sublist {x : List Nat} {a b : Nat} (ha : a ∈ x) (hb : b ∈ x) (hne : a ≠ b) :
    List.Sublist [a, b] x ∨ List.Sublist [a, b] x.reverse := by
  obtain ⟨before, after, rfl⟩ := List.append_of_mem ha
  rcases List.mem_append.mp hb with hb | hb
  · right
    rw [List.reverse_append, List.reverse_cons, List.append_assoc]
    refine List.sublist_append_of_sublist_right ?_
    exact List.Sublist.cons_cons a (List.singleton_sublist.mpr (List.mem_reverse.mpr hb))
  · left
    refine List.sublist_append_of_sublist_right ?_
    rcases List.mem_cons.mp hb with heq | hb
    · exact absurd heq.symm hne
    · exact List.Sublist.cons_cons a (List.singleton_sublist.mpr hb)

/-- A line without a newline that some sort puts before another one is merged with a line. -/
theorem not_sortsLines {files : List LsortFile} {qsort : (Nat → Nat → Int) → List Nat → List Nat}
    {a b : Nat} (hvalid : ValidFiles files) (hqsort : IsQsort qsort)
    (hopen : (lineAt (inputLines files) a).ended = false)
    (hsub : List.Sublist [a, b] (qsort (comparePaths (inputLines files))
      (List.range (inputLines files).length).reverse)) : ¬ SortsLines qsort files := by
  rintro ⟨out, hout, hlines, -⟩
  obtain ⟨hperm, -⟩ := hqsort (comparePaths (inputLines files)) (comparePaths_trans _)
    (comparePaths_total _) (List.range (inputLines files).length).reverse
  have hrun := lsort_eq hvalid hperm
  rw [hout] at hrun
  obtain rfl := Except.ok.inj hrun
  generalize hsaved : inputLines files = saved at hperm hlines hopen hsub
  generalize qsort (comparePaths saved) (List.range saved.length).reverse = x at hperm hlines hsub
  have hall := lineAt_perm hperm
  have hvalidLines : ∀ s ∈ x.map (lineAt saved), s.Valid newline := fun s hs =>
    valid_of_mem_inputLines s (hsaved ▸ hall.mem_iff.mp hs)
  obtain ⟨front, back, rfl, ha, hb⟩ := List.cons_sublist_iff.mp hsub
  obtain ⟨before, after, rfl⟩ := List.append_of_mem ha
  have hmap : (before ++ a :: after ++ back).map (lineAt saved) =
      before.map (lineAt saved) ++ lineAt saved a :: (after ++ back).map (lineAt saved) := by
    simp
  have hback : (after ++ back).map (lineAt saved) ≠ [] := by
    have hne : back ≠ [] := List.ne_nil_of_mem (List.singleton_sublist.mp hb)
    simp [hne]
  rw [hmap] at hvalidLines hlines hall
  have hlost := length_segments_textOf_lt hvalidLines hopen hback
  have hlen := hlines.length_eq
  rw [List.length_map, List.length_map] at hlen
  have hlen' := hall.length_eq
  omega

theorem openLast_of_sortsLines {files : List LsortFile} (hvalid : ValidFiles files)
    (h : ∀ qsort, IsQsort qsort → SortsLines qsort files) : OpenLast (inputLines files) := by
  intro i j s r hs hr hne hopen
  by_contra hnot
  have hi := (List.getElem?_eq_some_iff.mp hs).1
  have hj := (List.getElem?_eq_some_iff.mp hr).1
  have hlinei := lineAt_of_lt hi
  have hlinej := lineAt_of_lt hj
  rw [hs] at hlinei
  rw [hr] at hlinej
  obtain rfl := Option.some.inj hlinei
  obtain rfl := Option.some.inj hlinej
  have hle : comparePaths (inputLines files) i j ≤ 0 := by
    have hswap := @pathcasecmp_swap true (pathOfLine (lineAt (inputLines files) j).line)
      (pathOfLine (lineAt (inputLines files) i).line) (nulFree_cstr _) (nulFree_cstr _)
    unfold comparePaths pathcmp
    unfold pathcmp at hnot
    omega
  have hsub := pair_sublist (x := (List.range (inputLines files).length).reverse)
    (by simpa using hi) (by simpa using hj) hne
  have hpair := @stableSort_pair (comparePaths (inputLines files))
  rcases hsub with hsub | hsub
  · exact not_sortsLines hvalid isQsort_stableSort hopen
      (hpair (comparePaths_trans _) (comparePaths_total _) hle hsub) (h _ isQsort_stableSort)
  · exact not_sortsLines hvalid isQsort_reverseSort hopen
      (hpair (comparePaths_trans _) (comparePaths_total _) hle hsub) (h _ isQsort_reverseSort)

/-- `lsort` permutes and sorts the lines, whatever `qsort` does with lines of one path, exactly
where no line without a newline has another line at or behind its place. -/
theorem lsort_sorts_iff (files : List LsortFile) (hvalid : ValidFiles files) :
    (∀ qsort, IsQsort qsort → SortsLines qsort files) ↔ OpenLast (inputLines files) :=
  ⟨openLast_of_sortsLines hvalid, fun hopen _ hqsort => sortsLines_of_openLast hvalid hqsort hopen⟩

/-- A file with the line `f a` and a newline at its end. -/
def endedFile : LsortFile := { arg := lit "a", stream := some (lit "f a\n") }

theorem validLine_of_decide {line : List Byte} (h : nul ∉ line ∧ line.length + 1 < maxPathLen ∧
    ((lineFields line)[1]?.any wellEscaped) = true) : ValidLine line :=
  ⟨h.1, h.2.1, fun _ => h.2.2⟩

theorem validFiles_ended : ValidFiles [endedFile] := by
  refine List.forall_mem_singleton.mpr ⟨lit "f a\n", rfl, ?_⟩
  have hlines : segments newline (lit "f a\n") = [⟨lit "f a", true⟩] := by decide
  rw [hlines]
  exact List.forall_mem_singleton.mpr (validLine_of_decide (by decide +kernel))

theorem lsort_sorts_ended :
    (∀ qsort, IsQsort qsort → SortsLines qsort [endedFile]) ↔ OpenLast (inputLines [endedFile]) :=
  lsort_sorts_iff [endedFile] validFiles_ended

/-- A file with the line `f a` and no newline at its end, and one that goes on with `f b`. -/
def openFiles : List LsortFile :=
  [{ arg := lit "a", stream := some (lit "f a") }, { arg := lit "b", stream := some (lit "f b\n") }]

/-- The lines `f a` and `f b` are written as `f af b`. -/
theorem not_lsort_sorts :
    ¬ ∀ files : List LsortFile, ValidFiles files →
      ∀ qsort, IsQsort qsort → SortsLines qsort files := by
  intro h
  have hvalid : ValidFiles openFiles := by
    refine List.forall_mem_cons.mpr ⟨⟨lit "f a", rfl, ?_⟩,
      List.forall_mem_singleton.mpr ⟨lit "f b\n", rfl, ?_⟩⟩
    · have hlines : segments newline (lit "f a") = [⟨lit "f a", false⟩] := by decide
      rw [hlines]
      exact List.forall_mem_singleton.mpr (validLine_of_decide (by decide +kernel))
    · have hlines : segments newline (lit "f b\n") = [⟨lit "f b", true⟩] := by decide
      rw [hlines]
      exact List.forall_mem_singleton.mpr (validLine_of_decide (by decide +kernel))
  have hopen := openLast_of_sortsLines hvalid (h openFiles hvalid)
  have hback := hopen 0 1 ⟨lit "f a", false⟩ ⟨lit "f b", true⟩ (by decide +kernel)
    (by decide +kernel) (by decide) rfl
  revert hback
  decide +kernel

end Radmind
