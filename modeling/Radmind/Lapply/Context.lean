import Radmind.Lapply.Reach

/-!
# The transcript of a line

A line that waits for the removal of a directory keeps the name of its transcript, but
not whether that was the special transcript: this is taken from the header read last.
-/

namespace Radmind

open RunRelation

variable {σ : Type} (lines : List (List Byte))

/-- The header nearest above is the one of the special transcript. -/
def AboveSpecial (n : Nat) : Prop := headerAbove lines n = lit "special.T"

instance (n : Nat) : Decidable (AboveSpecial lines n) := inferInstanceAs (Decidable (_ = _))

/-- A request for a '+' line, as the header above that line has it. -/
def InContext (n : Nat) (desc : CStr) : Prop :=
  lineSign (textOf lines n) = plus ∧
    desc = pathdesc (AboveSpecial lines n) (headerAbove lines n) (lineWord (textOf lines n))

instance (n : Nat) (desc : CStr) : Decidable (InContext lines n desc) :=
  inferInstanceAs (Decidable (_ ∧ _))

theorem headerAbove_succ {n : Nat} {line : List Byte} (h : lines[n]? = some line) :
    headerAbove lines (n + 1) = (headerOf line).getD (headerAbove lines n) := by
  unfold headerAbove
  rw [List.take_add_one, h, List.filterMap_append]
  cases hh : headerOf line with
  | none => simp [hh]
  | some name => simp [hh]

/-- The line with this number, with the name of its transcript. -/
structure LineOf (n : Nat) (tline tran : CStr) : Prop where
  text : tline = textOf lines n
  tran : tran = headerAbove lines n

/-- A line at work, and the lines that wait at it, are those with their numbers. -/
def Place.Own (linenum : Nat) : Place → Prop
  | live a | cleared a => a.tline = textOf lines linenum
  | popped n back => (∀ tline, n.tline = some tline → LineOf lines n.line tline n.tran) ∧
      back.Own linenum
  | running line _ tline tran back => LineOf lines line tline tran ∧ back.Own linenum
  | _ => True

/-- A request is for the path and the transcript of its line, but special or not as the
line read last. -/
def Requested (ev : Action) : Prop :=
  ∀ n cur desc, ev = .request n cur desc → lineSign (textOf lines n) = plus ∧
    desc = pathdesc (AboveSpecial lines cur) (headerAbove lines n) (lineWord (textOf lines n))

/-- What holds of the lines at every place. -/
structure LinesKept (at_ : Place) (w : World σ) : Prop where
  transcript : at_ ≠ .failed → w.transcript = headerAbove lines w.linenum
  special : at_ ≠ .failed → w.special = decide (w.transcript = lit "special.T")
  own : at_.Own lines w.linenum
  head : ∀ n ∈ w.head, ∀ tline, n.tline = some tline → LineOf lines n.line tline n.tran
  requests : ∀ ev ∈ w.trace, Requested lines ev

variable {lines}

theorem requested_of_ne {ev : Action} (h : ∀ n cur desc, ev ≠ .request n cur desc) :
    Requested lines ev := fun n cur desc he => absurd he (h n cur desc)

theorem Reach.linesKept {os : Os σ} {cs force : Bool} {init : σ} {at_ : Place} {w : World σ}
    (h : Reach os cs force lines init at_ w) : LinesKept lines at_ w := by
  -- an event that is no request
  have hsnoc : ∀ {w : World σ} {evs : List Action}, (∀ ev ∈ w.trace, Requested lines ev) →
      (∀ ev ∈ evs, ∀ n cur desc, ev ≠ .request n cur desc) →
      ∀ ev ∈ w.trace ++ evs, Requested lines ev := by
    intro w evs ih hevs ev hev
    rcases List.mem_append.mp hev with hev | hev
    · exact ih ev hev
    · exact requested_of_ne (hevs ev hev)
  induction h with
  | start network =>
    refine ⟨fun _ => rfl, fun _ => rfl, trivial, ?_, ?_⟩
    · intro n hn
      cases hn
    · intro ev hev
      cases hev
  | quiet _ hf ih =>
    obtain ⟨evs, hevs, -, hnone⟩ := hf.trace
    obtain rfl : evs = [] := List.eq_nil_iff_forall_not_mem.mpr hnone
    rw [List.append_nil] at hevs
    refine ⟨fun hne => ?_, fun hne => ?_, ?_, ?_, ?_⟩
    · rw [hf.transcript, hf.linenum, ih.transcript hne]
    · rw [hf.special, hf.transcript, ih.special hne]
    · rw [hf.linenum]
      exact ih.own
    · rw [hf.head]
      exact ih.head
    · rw [hevs]
      exact ih.requests
  | header _ hline hname ih =>
    refine ⟨fun _ => ?_, fun _ => rfl, trivial, ih.head, ih.requests⟩
    rw [headerAbove_succ lines hline, hname]
    rfl
  | badHeader _ ih =>
    exact ⟨fun hne => absurd rfl hne, fun hne => absurd rfl hne, trivial, ih.head, ih.requests⟩
  | read _ hline hname ih =>
    refine ⟨fun _ => ?_, fun _ => ih.special (by simp), trivial, ih.head, ih.requests⟩
    rw [headerAbove_succ lines hline, hname]
    exact ih.transcript (by simp)
  | skip _ _ ih =>
    exact ⟨fun _ => ih.transcript (by simp), fun _ => ih.special (by simp), trivial, ih.head,
      ih.requests⟩
  | begin _ hof _ ih =>
    exact ⟨fun _ => ih.transcript (by simp), fun _ => ih.special (by simp), hof.text, ih.head,
      hsnoc ih.requests (by simp)⟩
  | @pop at_ w n rest _ hhead hleaves _ ih =>
    have hne : at_ ≠ .failed := by
      rintro rfl
      exact hleaves
    have hmem : ∀ m ∈ n :: rest, m ∈ w.head := by
      rw [hhead]
      exact fun m hm => hm
    refine ⟨fun _ => ih.transcript hne, fun _ => ih.special hne, ⟨?_, ih.own⟩, ?_, ?_⟩
    · exact ih.head n (hmem n List.mem_cons_self)
    · exact fun m hm => ih.head m (hmem m (List.mem_cons_of_mem n hm))
    · show ∀ ev ∈ w.trace ++ [_] ++ [_], Requested lines ev
      rw [List.append_assoc]
      exact hsnoc ih.requests (by simp)
  | removed _ _ ih =>
    exact ⟨fun _ => ih.transcript (by simp), fun _ => ih.special (by simp), ih.own.2, ih.head,
      ih.requests⟩
  | runNode _ htline ih =>
    exact ⟨fun _ => ih.transcript (by simp), fun _ => ih.special (by simp),
      ⟨ih.own.1 _ htline, ih.own.2⟩, ih.head, hsnoc ih.requests (by simp)⟩
  | @push w a _ _ _ _ ih =>
    refine ⟨fun _ => ih.transcript (by simp), fun _ => ih.special (by simp), trivial, ?_,
      hsnoc ih.requests (by simp)⟩
    intro n hn tline htline
    rcases List.mem_cons.mp hn with rfl | hn
    · simp only [waiting] at htline ⊢
      split_ifs at htline with hdiffers
      obtain rfl := Option.some.inj htline
      rw [if_pos hdiffers]
      exact ⟨ih.own, ih.transcript (by simp)⟩
    · exact ih.head n hn tline htline
  | @unlink w a _ _ _ _ _ _ _ ih =>
    refine ⟨fun _ => ih.transcript (by simp), fun _ => ih.special (by simp), ?_, ih.head, ?_⟩
    · split_ifs
      · trivial
      · exact ih.own
    · show ∀ ev ∈ w.trace ++ [_] ++ [_], Requested lines ev
      rw [List.append_assoc]
      exact hsnoc ih.requests (by simp)
  | runLine _ hat _ ih =>
    rcases hat with ⟨rfl, -⟩ | rfl
    · exact ⟨fun _ => ih.transcript (by simp), fun _ => ih.special (by simp),
        ⟨⟨ih.own, ih.transcript (by simp)⟩, trivial⟩, ih.head, hsnoc ih.requests (by simp)⟩
    · exact ⟨fun _ => ih.transcript (by simp), fun _ => ih.special (by simp),
        ⟨⟨ih.own, ih.transcript (by simp)⟩, trivial⟩, ih.head, hsnoc ih.requests (by simp)⟩
  | @work line path tline tran at_ w w' _ hf ih =>
    obtain ⟨evs, hevs, -, hP⟩ := hf.trace
    have hspecial := ih.special (by simp)
    rw [ih.transcript (by simp)] at hspecial
    refine ⟨fun _ => ?_, fun _ => ?_, ?_, ?_, ?_⟩
    · rw [hf.transcript, hf.linenum, ih.transcript (by simp)]
    · rw [hf.special, hf.transcript, ih.special (by simp)]
    · rw [hf.linenum]
      exact ih.own
    · rw [hf.head]
      exact ih.head
    · rw [hevs]
      intro ev hev
      rcases List.mem_append.mp hev with hev | hev
      · exact ih.requests ev hev
      · -- the request of the line at work
        intro n cur desc he
        obtain ⟨rfl, rfl⟩ := ih.own.1
        rcases hP ev hev with hsys | ⟨hplus, rfl⟩
        · rw [he] at hsys
          exact hsys.elim
        · obtain ⟨rfl, rfl, rfl⟩ := Action.request.inj he
          exact ⟨hplus, by rw [hspecial]; rfl⟩
  | done _ ih =>
    exact ⟨fun _ => ih.transcript (by simp), fun _ => ih.special (by simp), ih.own.2, ih.head,
      hsnoc ih.requests (by simp)⟩
  | finish _ _ ih =>
    exact ⟨fun _ => ih.transcript (by simp), fun _ => ih.special (by simp), trivial, ih.head,
      ih.requests⟩
  | @fail at_ w c evs _ _ hevs ih =>
    refine ⟨fun hne => absurd rfl hne, fun hne => absurd rfl hne, trivial, ih.head, ?_⟩
    show ∀ ev ∈ w.trace ++ evs ++ [_], Requested lines ev
    rw [List.append_assoc]
    refine hsnoc ih.requests ?_
    rcases hevs with rfl | ⟨path, rfl⟩
    · simp
    · simp

theorem requested (os : Os σ) (cfg : LapplyConfig) (network : Bool) (content : List Byte) (s : σ) :
    ∀ ev ∈ (endState (lapply os cfg network content s)).trace,
      Requested (fileLines content) ev := by
  have h := lapply_reach os cfg network content s
  cases hr : lapply os cfg network content s with
  | ok a w =>
    rw [hr] at h
    exact h.1.linesKept.requests
  | error e w =>
    rw [hr] at h
    obtain ⟨at_, hreach⟩ := h
    exact hreach.linesKept.requests

/-! ## The requests of a run -/

theorem pathdesc_inj {special special' : Bool} {tran word : CStr} :
    pathdesc special tran word = pathdesc special' tran word ↔ special = special' := by
  -- the first byte tells the two kinds apart
  have hhead : ∀ special, (pathdesc special tran word).head? =
      some (if special then 83 else 70) := by
    intro special
    cases special with
    | false => rfl
    | true => rfl
  constructor
  · intro h
    have h := hhead special ▸ hhead special' ▸ congrArg List.head? h
    revert h
    cases special <;> cases special' <;> decide
  · rintro rfl
    rfl

/-- A directory at `/d` and nothing else, and a server that has every file. -/
def directoryOs : Os Unit where
  sys _ s := (.ok, s)
  lstat _ path :=
    if path = lit "/d" then .found { Stat.zero with stMode := 0o040755 }
    else if path = lit "/d.radmind.1" ∨ path = lit "/e.radmind.1" then
      .found { Stat.zero with stMode := 0o100600 }
    else .enoent
  stat _ _ := none
  request _ s := (.size 3, s)
  digest _ := []
  trailer s := (true, s)
  fclose _ := true
  closesn _ := true

def fileThenSpecial : List Byte :=
  lit "a.T:" ++ [newline] ++ lit "+ f /d 0644 0 0 0 3 -" ++ [newline] ++
    lit "special.T:" ++ [newline] ++ lit "+ f /e 0644 0 0 0 3 -" ++ [newline]

end Radmind
