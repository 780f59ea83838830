import Radmind.Lapply.Reach

/-!
# Lines that remove

What a '-' line names is gone when the line is done, but a line whose type is not the one
of a directory is carried out behind the removal of a directory, with whatever sign.
-/

namespace Radmind

open RunRelation

variable {σ : Type}

/-! ## The system -/

/-- No object is there. -/
def Absent (os : Os σ) (s : σ) (path : CStr) : Prop := ∀ st, os.lstat s path ≠ .found st

/-- What `unlink` and `rmdir` say is true, and the server leaves the files alone. -/
structure Posix (os : Os σ) : Prop where
  unlink : ∀ s path, (os.sys (.unlink path) s).1 ≠ .failed →
    Absent os (os.sys (.unlink path) s).2 path
  rmdir : ∀ s path, (os.sys (.rmdir path) s).1 = .ok → Absent os (os.sys (.rmdir path) s).2 path
  request : ∀ s desc path, Absent os s path → Absent os (os.request desc s).2 path
  trailer : ∀ s path, Absent os s path → Absent os (os.trailer s).2 path

/-- The call makes an object where there is none. -/
def Makes (os : Os σ) (s : σ) (c : SysCall) (path : CStr) : Prop :=
  Absent os s path ∧ ¬ Absent os (os.sys c s).2 path

/-- What was at the path has been removed. -/
def RemovedAt (trace : List Action) (path : CStr) : Prop :=
  (∃ n, .rmdir n ∈ trace ∧ n.path = path) ∨ ∃ line, .unlink line path ∈ trace

/-- No call of the run makes an object at the path again. -/
def NotMadeAgain (os : Os σ) (init : σ) (trace : List Action) (path : CStr) : Prop :=
  ∀ before c r after, trace = before ++ .call c r :: after → RemovedAt before path →
    ¬ Makes os (stateAfter os init before) c path

/-- A '-' line with a path. -/
def MinusLine (lines : List (List Byte)) (n : Nat) : Prop :=
  0 < n ∧ (∃ line, lines[n - 1]? = some line ∧ headerOf line = none) ∧
    lineSign (textOf lines n) = minus

/-! ## What becomes of a line -/

variable (lines : List (List Byte))

/-- A line of another type than a directory found one. -/
def Replaces (trace : List Action) (line : Nat) (path : CStr) : Prop :=
  .begin line path .d ∈ trace ∧ lineType (textOf lines line) ≠ FileType.d.letter

/-- What a line that has begun to act leaves in the trace. -/
structure LineEnd (trace : List Action) (line : Nat) (path : CStr) (found : FileType) : Prop where
  removed : lineSign (textOf lines line) = minus → RemovedAt trace path
  carriedOut : found = .d → lineType (textOf lines line) ≠ FileType.d.letter →
    .doLine line path ∈ trace

/-- A directory waits for its removal, and the line with it if it is of another type. -/
structure WaitsIn (n : Node) (line : Nat) (path : CStr) (found : FileType) : Prop where
  node : n.line = line ∧ n.path = path
  found : found = .d
  carriesLine : n.tline.isSome = true ↔ lineType (textOf lines line) ≠ FileType.d.letter

/-- The line that acts, before it has removed anything. -/
def Place.acting : Place → Option Acting
  | live a => some a
  | popped _ back | running _ _ _ _ back => back.acting
  | _ => none

/-- The line that acts, behind its own removal. -/
def Place.behind : Place → Option Acting
  | cleared a => some a
  | popped _ back | running _ _ _ _ back => back.behind
  | _ => none

/-- Where a line that has begun to act stands. -/
def Progress (at_ : Place) (w : World σ) (line : Nat) (path : CStr) (found : FileType) : Prop :=
  (∃ a, at_.acting = some a ∧ w.linenum = line ∧ a.path = path ∧ a.found = found) ∨
  (∃ n ∈ w.head, WaitsIn lines n line path found) ∨
  (∃ n back, at_ = .popped n back ∧ .rmdir n ∈ w.trace ∧ WaitsIn lines n line path found) ∨
  LineEnd lines w.trace line path found

/-- What is known of the lines at a place. -/
structure Tracked (at_ : Place) (w : World σ) : Prop where
  acting : ∀ a, at_.acting = some a → a.Of lines w.linenum ∧
    .begin w.linenum a.path a.found ∈ w.trace
  behind : ∀ a, at_.behind = some a → a.Of lines w.linenum ∧ a.command ≠ minus
  waiting : ∀ n ∈ w.head, n.tline.isSome = true → Replaces lines w.trace n.line n.path
  popped : ∀ n back, at_ = .popped n back → n.tline.isSome = true →
    Replaces lines w.trace n.line n.path
  executed : ∀ line path, .doLine line path ∈ w.trace →
    lineSign (textOf lines line) ≠ minus ∨ Replaces lines w.trace line path
  progress : ∀ line path found, .begin line path found ∈ w.trace →
    Progress lines at_ w line path found
  /-- Every '-' line up to here has begun to act, but for one that was just read. -/
  begun : ∀ n, MinusLine lines n → n ≤ w.linenum → (at_ = .read → n ≠ w.linenum) →
    ∃ path found, .begin n path found ∈ w.trace

variable {lines}

theorem RemovedAt.mono {trace evs : List Action} {path : CStr} (h : RemovedAt trace path) :
    RemovedAt (trace ++ evs) path := by
  rcases h with ⟨n, hn, hpath⟩ | ⟨line, hline⟩
  · exact .inl ⟨n, List.mem_append_left _ hn, hpath⟩
  · exact .inr ⟨line, List.mem_append_left _ hline⟩

theorem Replaces.mono {trace evs : List Action} {line : Nat} {path : CStr}
    (h : Replaces lines trace line path) : Replaces lines (trace ++ evs) line path :=
  ⟨List.mem_append_left _ h.1, h.2⟩

theorem LineEnd.mono {trace evs : List Action} {line : Nat} {path : CStr} {found : FileType}
    (h : LineEnd lines trace line path found) : LineEnd lines (trace ++ evs) line path found :=
  ⟨fun hs => (h.removed hs).mono, fun hd ht => List.mem_append_left _ (h.carriedOut hd ht)⟩

/-- A line with '-' in its text has it in `*command`. -/
theorem Acting.Of.command_eq {a : Acting} {n : Nat} (h : a.Of lines n)
    (hsign : lineSign (textOf lines n) = minus) : a.command = minus := by
  rw [← h.text] at hsign
  rw [h.command (by rw [hsign]; decide), hsign]

/-- More of the trace, at the same place. -/
theorem Progress.mono {at_ : Place} {w w' : World σ} {evs : List Action} {line : Nat} {path : CStr}
    {found : FileType} (h : Progress lines at_ w line path found) (hhead : w'.head = w.head)
    (hlinenum : w'.linenum = w.linenum) (htrace : w'.trace = w.trace ++ evs) :
    Progress lines at_ w' line path found := by
  unfold Progress
  rw [hhead, hlinenum, htrace]
  rcases h with h | h | ⟨n, back, hat, hrmdir, hwaits⟩ | h
  · exact .inl h
  · exact .inr (.inl h)
  · exact .inr (.inr (.inl ⟨n, back, hat, List.mem_append_left _ hrmdir, hwaits⟩))
  · exact .inr (.inr (.inr h.mono))

/-- No line begins, and none is carried out. -/
def NoLine (ev : Action) : Prop :=
  (∀ line path found, ev ≠ .begin line path found) ∧ ∀ line path, ev ≠ .doLine line path

theorem Tracked.mono {at_ : Place} {w w' : World σ} {evs : List Action} (h : Tracked lines at_ w)
    (hhead : w'.head = w.head) (hlinenum : w'.linenum = w.linenum)
    (htrace : w'.trace = w.trace ++ evs) (hevs : ∀ ev ∈ evs, NoLine ev) :
    Tracked lines at_ w' where
  acting := by
    rw [hlinenum, htrace]
    exact fun a ha => ⟨(h.acting a ha).1, List.mem_append_left _ (h.acting a ha).2⟩
  behind := by
    rw [hlinenum]
    exact h.behind
  waiting := by
    rw [hhead, htrace]
    exact fun n hn hsome => (h.waiting n hn hsome).mono
  popped := by
    rw [htrace]
    exact fun n back hat hsome => (h.popped n back hat hsome).mono
  executed := by
    rw [htrace]
    intro line path hm
    rcases List.mem_append.mp hm with hm | hm
    · exact (h.executed line path hm).imp_right Replaces.mono
    · exact absurd rfl ((hevs _ hm).2 line path)
  progress := by
    intro line path found hm
    rw [htrace] at hm
    rcases List.mem_append.mp hm with hm | hm
    · exact (h.progress line path found hm).mono hhead hlinenum htrace
    · exact absurd rfl ((hevs _ hm).1 line path found)
  begun := by
    rw [hlinenum, htrace]
    intro n hn hle hread
    obtain ⟨path, found, hm⟩ := h.begun n hn hle hread
    exact ⟨path, found, List.mem_append_left _ hm⟩

/-- What is known stays known at another place, as far as it knows the same lines. -/
theorem Tracked.move {at_ at_' : Place} {w : World σ} (h : Tracked lines at_ w)
    (hacting : ∀ a, at_'.acting = some a → at_.acting = some a)
    (hbehind : ∀ a, at_'.behind = some a → a.Of lines w.linenum ∧ a.command ≠ minus)
    (hpopped : ∀ n back, at_' = .popped n back → at_ = .popped n back)
    (hprogress : ∀ line path found, .begin line path found ∈ w.trace →
      Progress lines at_ w line path found → Progress lines at_' w line path found)
    (hread : at_ = .read → ∀ n, MinusLine lines n → n ≤ w.linenum →
      ∃ path found, .begin n path found ∈ w.trace) : Tracked lines at_' w where
  acting := fun a ha => h.acting a (hacting a ha)
  behind := hbehind
  waiting := h.waiting
  popped := fun n back hat => h.popped n back (hpopped n back hat)
  executed := h.executed
  progress := fun line path found hm => hprogress line path found hm (h.progress line path found hm)
  begun := by
    intro n hn hle _
    by_cases hat : at_ = .read
    · exact hread hat n hn hle
    · exact h.begun n hn hle fun h => absurd h hat

/-- Another line is read. -/
theorem Tracked.next {at_ : Place} {w w' : World σ} (h : Tracked lines .idle w)
    (hhead : w'.head = w.head) (htrace : w'.trace = w.trace)
    (hat : at_ = .idle ∨ at_ = .read)
    (hbegun : ∀ n, MinusLine lines n → n ≤ w'.linenum → (at_ = .read → n ≠ w'.linenum) →
      n ≤ w.linenum) : Tracked lines at_ w' := by
  have hacting : at_.acting = none ∧ at_.behind = none ∧ ∀ n back, at_ ≠ .popped n back := by
    rcases hat with rfl | rfl
    · exact ⟨rfl, rfl, by simp⟩
    · exact ⟨rfl, rfl, by simp⟩
  constructor
  case acting =>
    intro a ha
    rw [hacting.1] at ha
    cases ha
  case behind =>
    intro a ha
    rw [hacting.2.1] at ha
    cases ha
  case waiting =>
    rw [hhead, htrace]
    exact h.waiting
  case popped => exact fun n back heq => absurd heq (hacting.2.2 n back)
  case executed =>
    rw [htrace]
    exact h.executed
  case progress =>
    intro line path found hm
    rw [htrace] at hm
    unfold Progress
    rw [hhead, htrace]
    rcases h.progress line path found hm with ⟨a, ha, -⟩ | hnode | ⟨n, back, heq, -⟩ | hend
    · cases ha
    · exact .inr (.inl hnode)
    · cases heq
    · exact .inr (.inr (.inr hend))
  case begun =>
    intro n hn hle hread
    rw [htrace]
    exact h.begun n hn (hbegun n hn hle hread) (by simp)

/-- What becomes of a line that acts, when it does not act any longer. -/
theorem Progress.settle {at_ at_' : Place} {w w' : World σ} {evs : List Action} {line : Nat}
    {path : CStr} {found : FileType} (h : Progress lines at_ w line path found)
    (hhead : ∀ n ∈ w.head, n ∈ w'.head) (htrace : w'.trace = w.trace ++ evs)
    (hacting : ∀ a, at_.acting = some a → w.linenum = line → a.path = path → a.found = found →
      Progress lines at_' w' line path found)
    (hpopped : ∀ n back, at_ = .popped n back → .rmdir n ∈ w.trace →
      WaitsIn lines n line path found → Progress lines at_' w' line path found) :
    Progress lines at_' w' line path found := by
  rcases h with ⟨a, ha, hline, hpath, hfound⟩ | ⟨n, hn, hwaits⟩ | ⟨n, back, hat, hrmdir, hwaits⟩ | h
  · exact hacting a ha hline hpath hfound
  · exact .inr (.inl ⟨n, hhead n hn, hwaits⟩)
  · exact hpopped n back hat hrmdir hwaits
  · refine .inr (.inr (.inr ?_))
    rw [htrace]
    exact h.mono

theorem waiting_waitsIn {a : Acting} {w : World σ} (hof : a.Of lines w.linenum)
    (hfound : a.found = .d) : WaitsIn lines (waiting a w) w.linenum a.path a.found where
  node := ⟨rfl, rfl⟩
  found := hfound
  carriesLine := by
    have hdiffers : a.differs = true ↔ lineType (textOf lines w.linenum) ≠ FileType.d.letter := by
      rw [Acting.differs, hfound, hof.text, Bool.and_eq_true, decide_eq_true_eq,
        decide_eq_true_eq, and_iff_right (by decide), ne_comm]
    rw [← hdiffers, waiting]
    cases a.differs with
    | true => simp
    | false => simp

theorem Reach.tracked {os : Os σ} {cs force : Bool} {init : σ} {at_ : Place} {w : World σ}
    (h : Reach os cs force lines init at_ w) : at_ ≠ .failed → Tracked lines at_ w := by
  induction h with
  | start network =>
    intro _
    exact { acting := by simp [Place.acting], behind := by simp [Place.behind]
            waiting := by simp [World.start], popped := by simp, executed := by simp [World.start]
            progress := by simp [World.start]
            begun := fun n hn hle _ => absurd hn.1 hle.not_gt }
  | quiet _ hf ih =>
    intro hne
    obtain ⟨evs, hevs, -, hnone⟩ := hf.trace
    exact (ih hne).mono hf.head hf.linenum hevs fun ev hev => (hnone ev hev).elim
  | work _ hf ih =>
    intro _
    obtain ⟨evs, hevs, -, hP⟩ := hf.trace
    refine (ih (by simp)).mono hf.head hf.linenum hevs fun ev hev => ?_
    rcases hP ev hev with hsys | ⟨-, rfl⟩
    · cases ev with
      | call c r => exact ⟨by simp, by simp⟩
      | trailer => exact ⟨by simp, by simp⟩
      | _ => exact hsys.elim
    · exact ⟨by simp, by simp⟩
  | @header w line name _ hline hname ih =>
    intro _
    refine (ih (by simp)).next rfl rfl (.inl rfl) fun n hn hle _ => ?_
    -- a header is no '-' line
    have hne : n ≠ w.linenum + 1 := by
      rintro rfl
      obtain ⟨-, ⟨line', hline', hnone⟩, -⟩ := hn
      rw [Nat.add_sub_cancel, hline] at hline'
      rw [← Option.some.inj hline', hname] at hnone
      cases hnone
    exact Nat.le_of_lt_succ (lt_of_le_of_ne hle hne)
  | badHeader _ _ => exact fun hne => absurd rfl hne
  | read _ _ _ ih =>
    intro _
    exact (ih (by simp)).next rfl rfl (.inr rfl) fun n _ hle hread =>
      Nat.le_of_lt_succ (lt_of_le_of_ne hle (hread rfl))
  | @skip w _ hsign ih =>
    intro _
    have h := ih (by simp)
    refine h.move (by simp [Place.acting]) (by simp [Place.behind]) (by simp)
      (fun line path found _ hp => hp.settle (fun _ hn => hn) (List.append_nil _).symm
        (fun a ha => by cases ha) fun n back heq => by cases heq) fun _ n hn hle => ?_
    refine h.begun n hn hle fun _ heq => ?_
    rw [heq] at hn
    exact hsign hn.2.2
  | @begin w a _ hof _ ih =>
    intro _
    have h := ih (by simp)
    constructor
    case acting =>
      intro a' ha'
      obtain rfl : a = a' := Option.some.inj ha'
      exact ⟨hof, by simp⟩
    case behind => simp [Place.behind]
    case waiting => exact fun n hn hsome => (h.waiting n hn hsome).mono
    case popped => simp
    case executed =>
      intro line path hm
      have hm : .doLine line path ∈ w.trace := by simpa using hm
      exact (h.executed line path hm).imp_right Replaces.mono
    case progress =>
      intro line path found hm
      rcases List.mem_append.mp hm with hm | hm
      · exact (h.progress line path found hm).settle (fun _ hn => hn) rfl
          (fun a ha => by cases ha) fun n back heq => by cases heq
      · obtain ⟨rfl, rfl, rfl⟩ := Action.begin.inj (List.mem_singleton.mp hm)
        exact .inl ⟨a, rfl, rfl, rfl, rfl⟩
    case begun =>
      intro n hn hle _
      by_cases heq : n = w.linenum
      · exact ⟨a.path, a.found, by simp [heq]⟩
      · obtain ⟨path, found, hm⟩ := h.begun n hn hle fun _ => heq
        exact ⟨path, found, List.mem_append_left _ hm⟩
  | @pop at_ w n rest _ hhead hleaves _ ih =>
    intro _
    have h := ih hleaves.plain.ne_failed
    have hmem : n ∈ w.head := by
      rw [hhead]
      exact List.mem_cons_self
    have hrest : ∀ m ∈ rest, m ∈ w.head := by
      rw [hhead]
      exact fun m hm => List.mem_cons_of_mem n hm
    have htrace : w.trace ++ [.call (.rmdir n.path) .ok] ++ [.rmdir n] =
        w.trace ++ [.call (.rmdir n.path) .ok, .rmdir n] := by simp
    constructor
    case acting =>
      intro a ha
      obtain ⟨hof, hm⟩ := h.acting a ha
      exact ⟨hof, by simp [hm]⟩
    case behind => exact h.behind
    case waiting =>
      intro m hm hsome
      rw [htrace]
      exact (h.waiting m (hrest m hm) hsome).mono
    case popped =>
      intro m back heq hsome
      obtain ⟨rfl, -⟩ := Place.popped.inj heq
      rw [htrace]
      exact (h.waiting n hmem hsome).mono
    case executed =>
      intro line path hm
      rw [htrace]
      have hm : .doLine line path ∈ w.trace := by simpa using hm
      exact (h.executed line path hm).imp_right Replaces.mono
    case progress =>
      intro line path found hm
      have hm : .begin line path found ∈ w.trace := by simpa using hm
      rcases h.progress line path found hm with hacting | ⟨m, hm, hwaits⟩ | ⟨m, back, heq, -⟩ | hend
      · exact .inl hacting
      · rw [hhead] at hm
        rcases List.mem_cons.mp hm with rfl | hm
        · exact .inr (.inr (.inl ⟨m, at_, rfl, by simp, hwaits⟩))
        · exact .inr (.inl ⟨m, hm, hwaits⟩)
      · rw [heq] at hleaves
        exact hleaves.elim
      · refine .inr (.inr (.inr ?_))
        show LineEnd lines (w.trace ++ [_] ++ [_]) line path found
        rw [htrace]
        exact hend.mono
    case begun =>
      intro m hm hle _
      obtain ⟨path, found, hm⟩ := h.begun m hm hle fun heq => by
        rw [heq] at hleaves
        exact hleaves.elim
      exact ⟨path, found, by simp [hm]⟩
  | @removed at_ w n hreach htline ih =>
    intro _
    have h := ih (by simp)
    have hplain : at_.Plain := hreach.nested
    refine h.move (fun a ha => ha) (fun a ha => h.behind a ha) ?_ ?_ (by simp)
    · rintro m back rfl
      exact hplain.elim
    · intro line path found _ hp
      refine hp.settle (fun _ hn => hn) (List.append_nil _).symm
        (fun a ha h1 h2 h3 => .inl ⟨a, ha, h1, h2, h3⟩) fun m back heq hrmdir hwaits => ?_
      obtain ⟨rfl, -⟩ := Place.popped.inj heq
      refine .inr (.inr (.inr ⟨fun _ => .inl ⟨n, hrmdir, hwaits.node.2⟩, fun _ htype => ?_⟩))
      have hsome := hwaits.carriesLine.mpr htype
      rw [htline] at hsome
      cases hsome
  | @runNode at_ w n tline _ htline ih =>
    intro _
    have h := ih (by simp)
    have hreplaces := h.popped n at_ rfl (by rw [htline]; rfl)
    constructor
    case acting =>
      intro a ha
      obtain ⟨hof, hm⟩ := h.acting a ha
      exact ⟨hof, List.mem_append_left _ hm⟩
    case behind => exact fun a ha => h.behind a ha
    case waiting => exact fun m hm hsome => (h.waiting m hm hsome).mono
    case popped => simp
    case executed =>
      intro line path hm
      rcases List.mem_append.mp hm with hm | hm
      · exact (h.executed line path hm).imp_right Replaces.mono
      · obtain ⟨rfl, rfl⟩ := Action.doLine.inj (List.mem_singleton.mp hm)
        exact .inr hreplaces.mono
    case progress =>
      intro line path found hm
      have hm : .begin line path found ∈ w.trace := by simpa using hm
      refine (h.progress line path found hm).settle (fun _ hn => hn) rfl
        (fun a ha h1 h2 h3 => .inl ⟨a, ha, h1, h2, h3⟩) fun m back heq hrmdir hwaits => ?_
      obtain ⟨rfl, -⟩ := Place.popped.inj heq
      obtain ⟨rfl, rfl⟩ := hwaits.node
      exact .inr (.inr (.inr ⟨fun _ => .inl ⟨n, List.mem_append_left _ hrmdir, rfl⟩,
        fun _ _ => by simp⟩))
    case begun =>
      intro m hm hle _
      obtain ⟨path, found, hm⟩ := h.begun m hm hle (by simp)
      exact ⟨path, found, List.mem_append_left _ hm⟩
  | @push w a _ _ hremoves hfound ih =>
    intro _
    have h := ih (by simp)
    obtain ⟨hof, hbegin⟩ := h.acting a rfl
    have hwaits := waiting_waitsIn hof hfound
    constructor
    case acting => simp [Place.acting]
    case behind => simp [Place.behind]
    case waiting =>
      intro n hn hsome
      rcases List.mem_cons.mp hn with rfl | hn
      · refine ⟨List.mem_append_left _ ?_, hwaits.carriesLine.mp hsome⟩
        rw [← hfound]
        exact hbegin
      · exact (h.waiting n hn hsome).mono
    case popped => simp
    case executed =>
      intro line path hm
      have hm : .doLine line path ∈ w.trace := by simpa using hm
      exact (h.executed line path hm).imp_right Replaces.mono
    case progress =>
      intro line path found hm
      have hm : .begin line path found ∈ w.trace := by simpa using hm
      refine (h.progress line path found hm).settle (fun _ hn => List.mem_cons_of_mem _ hn) rfl
        (fun a' ha' h1 h2 h3 => ?_) fun n back heq => by cases heq
      obtain rfl : a = a' := Option.some.inj ha'
      subst h1 h2 h3
      exact .inr (.inl ⟨waiting a w, List.mem_cons_self, hwaits⟩)
    case begun =>
      intro m hm hle _
      obtain ⟨path, found, hm⟩ := h.begun m hm hle (by simp)
      exact ⟨path, found, List.mem_append_left _ hm⟩
  | @unlink w a r _ _ hremoves hfound _ _ ih =>
    intro _
    have h := ih (by simp)
    obtain ⟨hof, -⟩ := h.acting a rfl
    have hplace : (if a.command = minus then Place.idle else .cleared a).acting = none ∧
        (∀ a', (if a.command = minus then Place.idle else .cleared a).behind = some a' →
          a'.Of lines w.linenum ∧ a'.command ≠ minus) ∧
        ∀ n back, (if a.command = minus then Place.idle else .cleared a) ≠ .popped n back := by
      split_ifs with hc
      · exact ⟨rfl, by simp [Place.behind], by simp⟩
      · refine ⟨rfl, fun a' ha' => ?_, by simp⟩
        obtain rfl : a = a' := Option.some.inj ha'
        exact ⟨hof, hc⟩
    have htrace : w.trace ++ [.unlink w.linenum a.path] ++ [.call (.unlink a.path) r] =
        w.trace ++ [.unlink w.linenum a.path, .call (.unlink a.path) r] := by simp
    constructor
    case acting =>
      intro a' ha'
      rw [hplace.1] at ha'
      cases ha'
    case behind => exact hplace.2.1
    case waiting =>
      intro n hn hsome
      rw [htrace]
      exact (h.waiting n hn hsome).mono
    case popped => exact fun n back heq => absurd heq (hplace.2.2 n back)
    case executed =>
      intro line path hm
      rw [htrace]
      have hm : .doLine line path ∈ w.trace := by simpa using hm
      exact (h.executed line path hm).imp_right Replaces.mono
    case progress =>
      intro line path found hm
      have hm : .begin line path found ∈ w.trace := by simpa using hm
      refine (h.progress line path found hm).settle (fun _ hn => hn) htrace
        (fun a' ha' h1 h2 h3 => ?_) fun n back heq => by cases heq
      obtain rfl : a = a' := Option.some.inj ha'
      subst h1 h2 h3
      exact .inr (.inr (.inr ⟨fun _ => .inr ⟨w.linenum, by simp⟩, fun hd => absurd hd hfound⟩))
    case begun =>
      intro m hm hle _
      obtain ⟨path, found, hm⟩ := h.begun m hm hle (by simp)
      exact ⟨path, found, by simp [hm]⟩
  | @runLine at_ w a _ hat _ ih =>
    intro _
    have h : Tracked lines at_ w := by
      rcases hat with ⟨rfl, -⟩ | rfl
      · exact ih (by simp)
      · exact ih (by simp)
    have hsign : lineSign (textOf lines w.linenum) ≠ minus := by
      intro hminus
      rcases hat with ⟨rfl, hkeeps⟩ | rfl
      · obtain ⟨hof, -⟩ := h.acting a rfl
        rw [Acting.removes, hof.command_eq hminus] at hkeeps
        simp at hkeeps
      · obtain ⟨hof, hne⟩ := h.behind a rfl
        exact hne (hof.command_eq hminus)
    have hnot : ∀ n back, at_ ≠ .popped n back := by
      rcases hat with ⟨rfl, -⟩ | rfl
      · simp
      · simp
    constructor
    case acting => simp [Place.acting]
    case behind => simp [Place.behind]
    case waiting => exact fun n hn hsome => (h.waiting n hn hsome).mono
    case popped => simp
    case executed =>
      intro line path hm
      rcases List.mem_append.mp hm with hm | hm
      · exact (h.executed line path hm).imp_right Replaces.mono
      · obtain ⟨rfl, rfl⟩ := Action.doLine.inj (List.mem_singleton.mp hm)
        exact .inl hsign
    case progress =>
      intro line path found hm
      have hm : .begin line path found ∈ w.trace := by simpa using hm
      refine (h.progress line path found hm).settle (fun _ hn => hn) rfl
        (fun a' ha' h1 h2 h3 => ?_) fun n back heq => absurd heq (hnot n back)
      obtain rfl : a = a' := by
        rcases hat with ⟨rfl, -⟩ | rfl
        · exact Option.some.inj ha'
        · cases ha'
      subst h1 h2 h3
      exact .inr (.inr (.inr ⟨fun hminus => absurd hminus hsign, fun _ _ => by simp⟩))
    case begun =>
      intro m hm hle _
      have hread : at_ ≠ .read := by
        rcases hat with ⟨rfl, -⟩ | rfl
        · simp
        · simp
      obtain ⟨path, found, hm⟩ := h.begun m hm hle fun heq => absurd heq hread
      exact ⟨path, found, List.mem_append_left _ hm⟩
  | @done line path tline tran at_ w hreach ih =>
    intro _
    have hplain : at_.Plain := hreach.nested
    have h := ih (by simp)
    have h' : Tracked lines _ { w with trace := w.trace ++ [.done line path], change := true } :=
      h.mono rfl rfl rfl (fun ev hev => by rw [List.mem_singleton.mp hev]; exact ⟨by simp, by simp⟩)
    refine h'.move (fun a ha => ha) (fun a ha => h'.behind a ha) ?_ ?_ (by simp)
    · rintro n back rfl
      exact hplain.elim
    · intro line path found _ hp
      exact hp.settle (fun _ hn => hn) (List.append_nil _).symm
        (fun a ha h1 h2 h3 => .inl ⟨a, ha, h1, h2, h3⟩) fun n back heq => by cases heq
  | finish _ _ ih =>
    intro _
    refine (ih (by simp)).move (by simp [Place.acting]) (by simp [Place.behind]) (by simp)
      (fun line path found _ hp => hp.settle (fun _ hn => hn) (List.append_nil _).symm
        (fun a ha => by cases ha) fun n back heq => by cases heq) (by simp)
  | fail _ _ _ _ _ => exact fun hne => absurd rfl hne

/-! ## What is gone stays away -/

/-- Every object that was removed stays away, as far as no call makes one there again. -/
theorem Absent.append {os : Os σ} (hposix : Posix os) {init : σ} {before : List Action}
    {path : CStr} (evs : List Action) (h : Absent os (stateAfter os init before) path)
    (hkept : ∀ piece c r rest, evs = piece ++ .call c r :: rest →
      ¬ Makes os (stateAfter os init (before ++ piece)) c path) :
    Absent os (stateAfter os init (before ++ evs)) path := by
  induction evs using List.reverseRecOn with
  | nil => rwa [List.append_nil]
  | append_singleton evs ev ih =>
    have ih := ih fun piece c r rest heq => hkept piece c r (rest ++ [ev]) (by rw [heq]; simp)
    rw [← List.append_assoc, stateAfter_append]
    cases ev with
    | call c r =>
      by_contra hmade
      exact hkept evs c r [] rfl ⟨ih, hmade⟩
    | request line linenum desc => exact hposix.request _ _ _ ih
    | trailer => exact hposix.trailer _ _ ih
    | _ => exact ih

/-- At some step behind its removal there was no object at the path. -/
def Vacated (os : Os σ) (init : σ) (trace : List Action) (path : CStr) : Prop :=
  ∃ before evs, trace = before ++ evs ∧ RemovedAt before path ∧
    Absent os (stateAfter os init before) path

/-- The trace says what became of the system, and what was removed was gone. -/
structure Cleared (os : Os σ) (init : σ) (w : World σ) : Prop where
  os_eq : w.os = stateAfter os init w.trace
  vacated : ∀ path, RemovedAt w.trace path → Vacated os init w.trace path

/-- Nothing is removed, as far as the trace says. -/
def NoRemoval (ev : Action) : Prop := (∀ n, ev ≠ .rmdir n) ∧ ∀ line path, ev ≠ .unlink line path

theorem Vacated.mono {os : Os σ} {init : σ} {trace evs : List Action} {path : CStr}
    (h : Vacated os init trace path) : Vacated os init (trace ++ evs) path := by
  obtain ⟨before, behind, rfl, hremoved, habsent⟩ := h
  exact ⟨before, behind ++ evs, List.append_assoc .., hremoved, habsent⟩

theorem Cleared.mono {os : Os σ} {init : σ} {w w' : World σ} {evs : List Action}
    (h : Cleared os init w) (htrace : w'.trace = w.trace ++ evs)
    (hos : w'.os = stateAfter os w.os evs) (hevs : ∀ ev ∈ evs, NoRemoval ev) :
    Cleared os init w' where
  os_eq := by rw [hos, htrace, stateAfter_append, h.os_eq]
  vacated := by
    intro path hremoved
    rw [htrace] at hremoved ⊢
    refine (h.vacated path ?_).mono
    rcases hremoved with ⟨n, hn, hpath⟩ | ⟨line, hline⟩
    · rcases List.mem_append.mp hn with hn | hn
      · exact .inl ⟨n, hn, hpath⟩
      · exact absurd rfl ((hevs _ hn).1 n)
    · rcases List.mem_append.mp hline with hline | hline
      · exact .inr ⟨line, hline⟩
      · exact absurd rfl ((hevs _ hline).2 line path)

/-- A removal that the system carried out. -/
theorem Cleared.remove {os : Os σ} {init : σ} {w w' : World σ} {evs : List Action} {p : CStr}
    (h : Cleared os init w) (htrace : w'.trace = w.trace ++ evs)
    (hos : w'.os = stateAfter os w.os evs) (hremoved : RemovedAt evs p)
    (honly : ∀ path, RemovedAt evs path → path = p) (habsent : Absent os w'.os p) :
    Cleared os init w' where
  os_eq := by rw [hos, htrace, stateAfter_append, h.os_eq]
  vacated := by
    have hos' : w'.os = stateAfter os init w'.trace := by
      rw [hos, htrace, stateAfter_append, h.os_eq]
    intro path hremoved'
    by_cases heq : path = p
    · subst heq
      exact ⟨w'.trace, [], (List.append_nil _).symm, hremoved', hos' ▸ habsent⟩
    · rw [htrace] at hremoved' ⊢
      refine (h.vacated path ?_).mono
      rcases hremoved' with ⟨n, hn, hpath⟩ | ⟨line, hline⟩
      · rcases List.mem_append.mp hn with hn | hn
        · exact .inl ⟨n, hn, hpath⟩
        · exact absurd (honly path (.inl ⟨n, hn, hpath⟩)) heq
      · rcases List.mem_append.mp hline with hline | hline
        · exact .inr ⟨line, hline⟩
        · exact absurd (honly path (.inr ⟨line, hline⟩)) heq

theorem Reach.cleared {os : Os σ} {cs force : Bool} {init : σ} {at_ : Place} {w : World σ}
    (hposix : Posix os) (h : Reach os cs force lines init at_ w) :
    at_ ≠ .failed → Cleared os init w := by
  induction h with
  | start network =>
    intro _
    exact ⟨rfl, fun path hremoved => by simp [RemovedAt, World.start] at hremoved⟩
  | quiet _ hf ih =>
    intro hne
    obtain ⟨evs, hevs, hos, hnone⟩ := hf.trace
    exact (ih hne).mono hevs hos fun ev hev => (hnone ev hev).elim
  | work _ hf ih =>
    intro _
    obtain ⟨evs, hevs, hos, hP⟩ := hf.trace
    refine (ih (by simp)).mono hevs hos fun ev hev => ?_
    rcases hP ev hev with hsys | ⟨-, rfl⟩
    · cases ev with
      | call c r => exact ⟨by simp, by simp⟩
      | trailer => exact ⟨by simp, by simp⟩
      | _ => exact hsys.elim
    · exact ⟨by simp, by simp⟩
  | header _ _ _ ih => exact fun _ => ⟨(ih (by simp)).os_eq, (ih (by simp)).vacated⟩
  | badHeader _ _ => exact fun hne => absurd rfl hne
  | read _ _ _ ih => exact fun _ => ⟨(ih (by simp)).os_eq, (ih (by simp)).vacated⟩
  | skip _ _ ih => exact fun _ => ih (by simp)
  | begin _ _ _ ih =>
    intro _
    exact (ih (by simp)).mono rfl rfl fun ev hev => by
      rw [List.mem_singleton.mp hev]
      exact ⟨by simp, by simp⟩
  | @pop at_ w n rest _ _ hleaves hok ih =>
    intro _
    refine (ih hleaves.plain.ne_failed).remove (p := n.path) (List.append_assoc ..) rfl
      (.inl ⟨n, by simp, rfl⟩) ?_ (hposix.rmdir _ _ hok)
    rintro path (⟨m, hm, rfl⟩ | ⟨line, hline⟩)
    · have hm : m = n := by simpa using hm
      rw [hm]
    · simp at hline
  | removed hreach _ ih => exact fun _ => ih (by simp)
  | runNode _ _ ih =>
    intro _
    exact (ih (by simp)).mono rfl rfl fun ev hev => by
      rw [List.mem_singleton.mp hev]
      exact ⟨by simp, by simp⟩
  | push _ _ _ _ ih =>
    intro _
    exact (ih (by simp)).mono rfl rfl fun ev hev => by
      rw [List.mem_singleton.mp hev]
      exact ⟨by simp, by simp⟩
  | @unlink w a r _ _ _ _ hr hok ih =>
    intro _
    have hne : (os.sys (.unlink a.path) w.os).1 ≠ .failed := by
      rw [hr]
      rcases hok with rfl | ⟨-, rfl⟩
      · simp
      · simp
    refine (ih (by simp)).remove (p := a.path) (List.append_assoc ..) rfl
      (.inr ⟨w.linenum, by simp⟩) ?_ (hposix.unlink _ _ hne)
    rintro path (⟨m, hm, -⟩ | ⟨line, hline⟩)
    · simp at hm
    · have hline : line = w.linenum ∧ path = a.path := by simpa using hline
      exact hline.2
  | runLine _ hat _ ih =>
    intro _
    refine (ih ?_).mono rfl rfl fun ev hev => by
      rw [List.mem_singleton.mp hev]
      exact ⟨by simp, by simp⟩
    rcases hat with ⟨rfl, -⟩ | rfl
    · simp
    · simp
  | done _ ih =>
    intro _
    exact (ih (by simp)).mono rfl rfl fun ev hev => by
      rw [List.mem_singleton.mp hev]
      exact ⟨by simp, by simp⟩
  | finish _ _ ih => exact fun _ => ih (by simp)
  | fail _ _ _ _ _ => exact fun hne => absurd rfl hne

/-- What was removed, and not made again, is not there in the end. -/
theorem Cleared.absent {os : Os σ} {init : σ} {w : World σ} {path : CStr} (hposix : Posix os)
    (h : Cleared os init w) (hremoved : RemovedAt w.trace path)
    (hagain : NotMadeAgain os init w.trace path) : Absent os w.os path := by
  obtain ⟨before, evs, htrace, hbefore, habsent⟩ := h.vacated path hremoved
  rw [h.os_eq, htrace]
  refine habsent.append hposix evs fun piece c r rest hevs => ?_
  refine hagain (before ++ piece) c r rest ?_ hbefore.mono
  rw [htrace, hevs, List.append_assoc]

/-! ## Runs without errors -/

/-- Only one line has the path, and it is a '-' line. -/
def OnlyMinus (lines : List (List Byte)) (trace : List Action) (path : CStr) : Prop :=
  ∃ line found, .begin line path found ∈ trace ∧ lineSign (textOf lines line) = minus ∧
    ∀ line' found', .begin line' path found' ∈ trace → line' = line

/-- A '-' line never creates. -/
structure NeverCreates (os : Os σ) (lines : List (List Byte)) (trace : List Action) (s : σ) :
    Prop where
  begun : ∀ n, MinusLine lines n → ∃ path found, .begin n path found ∈ trace
  absent : ∀ path, OnlyMinus lines trace path → Absent os s path
  notCarriedOut : ∀ line path, .doLine line path ∈ trace → lineSign (textOf lines line) ≠ minus

/-- A '-' line that finds a directory is a line of a directory. -/
def MinusTypes (lines : List (List Byte)) (trace : List Action) : Prop :=
  ∀ line path, .begin line path .d ∈ trace → lineSign (textOf lines line) = minus →
    lineType (textOf lines line) = FileType.d.letter

/-- What only a '-' line names is not made again. -/
def StaysAway (os : Os σ) (lines : List (List Byte)) (init : σ) (trace : List Action) : Prop :=
  ∀ path, OnlyMinus lines trace path → NotMadeAgain os init trace path

/-- A line that has begun to act in a run that is over. -/
theorem Tracked.lineEnd {w : World σ} (h : Tracked lines .ended w) (hhead : w.head = [])
    {line : Nat} {path : CStr} {found : FileType} (hbegin : .begin line path found ∈ w.trace) :
    LineEnd lines w.trace line path found := by
  rcases h.progress line path found hbegin with ⟨a, ha, -⟩ | ⟨n, hn, -⟩ | ⟨n, back, heq, -⟩ | hend
  · cases ha
  · rw [hhead] at hn
    cases hn
  · cases heq
  · exact hend

/-- A system with names of files and directories, by their modes. -/
abbrev Tree := List (CStr × BitVec 32)

def Tree.without (tree : Tree) (path : CStr) : Tree := tree.filter fun entry => entry.1 ≠ path

def Tree.isDir (tree : Tree) (path : CStr) : Bool := tree.lookup path = some 0o040755

/-- Make an object where there is none. -/
def Tree.make (tree : Tree) (path : CStr) (mode : BitVec 32) : SysResult × Tree :=
  if (tree.lookup path).isSome then (.failed, tree) else (.ok, (path, mode) :: tree)

/-- A system call. -/
def Tree.sys (c : SysCall) (tree : Tree) : SysResult × Tree :=
  match c with
  | .unlink path =>
    if tree.isDir path then (.failed, tree)
    else if (tree.lookup path).isSome then (.ok, tree.without path)
    else (.enoent, tree)
  | .rmdir path =>
    if !tree.isDir path || tree.any fun entry => (path ++ [slash]).isPrefixOf entry.1 then
      (.failed, tree)
    else (.ok, tree.without path)
  | .rename old new =>
    match tree.lookup old with
    | some mode => (.ok, (new, mode) :: (tree.without old).without new)
    | none => (.enoent, tree)
  | .mkdir path _ => tree.make path 0o040755
  | .link _ path => tree.make path 0o100644
  | .symlink _ path => tree.make path 0o120777
  | .mkfifo path _ => tree.make path 0o010644
  | .mknod path _ _ => tree.make path 0o020644
  | .openTemp path _ => tree.make path 0o100600
  | _ => (.ok, tree)

def treeOs : Os Tree where
  sys := Tree.sys
  lstat tree path :=
    match tree.lookup path with
    | some mode => .found { Stat.zero with stMode := mode }
    | none => .enoent
  stat _ _ := none
  request _ tree := (.lost, tree)
  digest _ := []
  trailer tree := (true, tree)
  fclose _ := true
  closesn _ := true

theorem treeOs_absent {tree : Tree} {path : CStr} :
    Absent treeOs tree path ↔ tree.lookup path = none := by
  constructor
  · intro h
    cases hl : tree.lookup path with
    | none => rfl
    | some mode => exact absurd (by simp [treeOs, hl]) (h { Stat.zero with stMode := mode })
  · intro h st hst
    simp [treeOs, h] at hst

theorem treeOs_without (tree : Tree) (path : CStr) : Absent treeOs (tree.without path) path := by
  refine treeOs_absent.mpr (List.lookup_eq_none_iff.mpr fun entry hentry => ?_)
  have hne : entry.1 ≠ path := by simpa [Tree.without] using (List.mem_filter.mp hentry).2
  simpa using hne.symm

theorem treeOs_posix : Posix treeOs where
  unlink := by
    intro tree path hok
    simp only [treeOs, Tree.sys] at hok ⊢
    split_ifs at hok ⊢ with hdir hsome
    · exact absurd rfl hok
    · exact treeOs_without tree path
    · exact treeOs_absent.mpr (Option.not_isSome_iff_eq_none.mp hsome)
  rmdir := by
    intro tree path hok
    simp only [treeOs, Tree.sys] at hok ⊢
    split_ifs at hok ⊢
    exact treeOs_without tree path
  request := fun _ _ _ h => h
  trailer := fun _ _ h => h

/-- A removal makes nothing. -/
theorem treeOs_unlink (tree : Tree) (old path : CStr) :
    ¬ Makes treeOs tree (.unlink old) path := by
  rintro ⟨habsent, hpresent⟩
  refine hpresent ?_
  rw [treeOs_absent, List.lookup_eq_none_iff] at habsent ⊢
  simp only [treeOs, Tree.sys]
  split_ifs
  · exact habsent
  · exact fun entry hentry => habsent entry (List.mem_filter.mp hentry).1
  · exact habsent

/-- A file is there, that a line removes. -/
def fileRemoval : List Byte := lit "- f /a 0644 0 0 0 0 -" ++ [newline]

/-- A line of a link, where a directory is now. -/
def linkRemoval : List Byte := lit "- l /d t" ++ [newline]

end Radmind
