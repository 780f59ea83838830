import Radmind.Lapply.Reach
import Radmind.Lib.PendingStack

/-!
# The removal list

The list is a stack of subtrees: a directory that waits for its removal is taken off by
the first line outside of it, which its place in the path order puts behind all lines
inside.
-/

namespace Radmind

open RunRelation PendingStack

variable {σ : Type}

/-! ## What is done for a line -/

/-- The line an action is for, and its path. -/
inductive Action.For : Action → Nat → CStr → Prop
  | push (n : Node) : For (.push n) n.line n.path
  | rmdir (n : Node) : For (.rmdir n) n.line n.path
  | unlink (line : Nat) (path : CStr) : For (.unlink line path) line path
  | doLine (line : Nat) (path : CStr) : For (.doLine line path) line path
  | done (line : Nat) (path : CStr) : For (.done line path) line path

/-- The list behind an event, and behind a piece of a run. -/
def Action.onList (list : List Node) : Action → List Node
  | push n => n :: list
  | rmdir _ => list.tail
  | _ => list

def pendingAfter (trace : List Action) : List Node := trace.foldl Action.onList []

/-- The path of a line that begins to act. -/
def Action.path? : Action → Option CStr
  | begin _ path _ => some path
  | _ => none

/-- The paths the lines of a run act on. -/
def actedOn (trace : List Action) : List CStr := trace.filterMap Action.path?

/-- The directory is removed once, behind the actions of the later lines inside of it and
before those of the later lines outside, and the line that waits for it is carried out
once, directly behind the removal. -/
def RemovedOnce (trace : List Action) (n : Node) : Prop :=
  ∃ before after, trace = before ++ .rmdir n :: after ∧ .push n ∈ before ∧
    .rmdir n ∉ before ∧ .rmdir n ∉ after ∧
    (∀ ev ∈ before, ∀ line path, ev.For line path → n.line < line →
      ischild path (some n.path) = true) ∧
    (∀ ev ∈ after, ∀ line path, ev.For line path → n.line < line →
      ischild path (some n.path) = false) ∧
    (∀ path, .doLine n.line path ∉ before) ∧
    if n.tline.isSome then
      ∃ rest, after = .doLine n.line n.path :: rest ∧ ∀ path, .doLine n.line path ∉ rest
    else ∀ path, .doLine n.line path ∉ after

/-! ## The list as a stack of subtrees -/

def listNodes : Nodes CStr Node :=
  { time := Node.line, key := Node.path, deferred := fun n => n.tline.isSome }

def inside (p d : CStr) : Prop := ischildcase p (some d) true = true

/-- The path order, for paths without a NUL. -/
def sortsBefore (p q : CStr) : Prop := NulFree p ∧ NulFree q ∧ pathcmp p q < 0

theorem subtrees : Subtrees inside sortsBefore where
  trans := ischild_trans
  convex := by
    intro d x y hdx hxy hy
    exact ischild_contiguous hdx.1 hdx.1 hdx.2.1 hxy.2.1 (le_of_lt hdx.2.2) (le_of_lt hxy.2.2)
      (ischild_self d) hy

def entryOf : Action → Entry CStr Node
  | .begin line path _ => .start line path
  | .push n => .push n
  | .rmdir n => .pop n
  | .doLine line path => .run line path
  | .unlink line path => .act line path
  | .done line path => .act line path
  | .call _ _ => .other
  | .request _ _ _ => .other
  | .trailer => .other

theorem Action.For.entryOf {ev : Action} {line : Nat} {path : CStr} (h : ev.For line path) :
    (entryOf ev).For listNodes line path := by
  cases h with
  | push n => exact .push n
  | rmdir n => exact .pop n
  | unlink line path => exact .act line path
  | doLine line path => exact .run line path
  | done line path => exact .act line path

/-- Between two lines, at one, or behind the last one. -/
def Place.base (linenum : Nat) : Place → Base CStr
  | idle => .idle linenum
  | read => .idle (linenum - 1)
  | live a | cleared a => .live linenum a.path
  | ended | failed => .ended
  | popped _ back | running _ _ _ _ back => back.base linenum

def Place.overlay : Place → Overlay CStr Node
  | popped n _ => .popped n
  | running line path _ _ _ => .late line path
  | _ => .none

theorem Place.Plain.overlay {at_ : Place} (h : at_.Plain) : at_.overlay = .none := by
  cases at_ with
  | popped n back => exact h.elim
  | running line path tline tran back => exact h.elim
  | _ => rfl

theorem Place.Leaves.base {n : Node} {at_ : Place} (h : at_.Leaves true n) (linenum : Nat) :
    (at_.base linenum).Leaves listNodes inside n := by
  have hnot : ∀ {p : CStr}, ischildcase p (some n.path) true = false → ¬ inside p n.path := by
    intro p hp hin
    rw [inside, hp] at hin
    cases hin
  cases at_ with
  | live a => exact hnot h
  | cleared a => exact hnot h
  | ended => trivial
  | _ => exact h.elim

/-- Calls and requests are nothing to the list. -/
theorem log_others {b : Base CStr} {o : Overlay CStr Node} {head : List Node}
    {trace evs : List Action} (h : Log listNodes inside b o head (trace.map entryOf))
    (ho : ∀ n, o ≠ .popped n) (hevs : ∀ ev ∈ evs, entryOf ev = .other) :
    Log listNodes inside b o head ((trace ++ evs).map entryOf) := by
  induction evs using List.reverseRecOn with
  | nil => rwa [List.append_nil]
  | append_singleton evs ev ih =>
    have ih := ih fun ev' hev' => hevs ev' (List.mem_append_left _ hev')
    have hother := ih.other ho
    rw [← hevs ev (by simp)] at hother
    simpa using hother

theorem Reach.stacked {os : Os σ} {force : Bool} {lines : List (List Byte)} {init : σ}
    {at_ : Place} {w : World σ} (h : Reach os true force lines init at_ w) :
    at_ ≠ .failed → Log listNodes inside (at_.base w.linenum) at_.overlay w.head
      (w.trace.map entryOf) := by
  induction h with
  | start network => exact fun _ => .nil
  | quiet _ hf ih =>
    intro hne
    obtain ⟨evs, hevs, -, hnone⟩ := hf.trace
    obtain rfl : evs = [] := List.eq_nil_iff_forall_not_mem.mpr hnone
    rw [List.append_nil] at hevs
    rw [hf.linenum, hf.head, hevs]
    exact ih hne
  | header _ _ _ ih => exact fun _ => (ih (by simp)).tick (Nat.le_succ _)
  | badHeader _ ih => exact fun hne => absurd rfl hne
  | read _ _ _ ih => exact fun _ => ih (by simp)
  | skip _ _ ih => exact fun _ => (ih (by simp)).tick (Nat.sub_le _ _)
  | @begin w a hreach hof _ ih =>
    intro _
    have hlog := (ih (by simp)).start (k := a.path) (Nat.sub_lt hreach.nested Nat.one_pos)
    simpa [Place.base, Place.overlay, entryOf] using hlog
  | @pop at_ w n rest _ hhead hleaves _ ih =>
    intro _
    have hlog := ih hleaves.plain.ne_failed
    rw [hleaves.plain.overlay, hhead] at hlog
    have hpop := (hlog.other (by simp)).pop (hleaves.base w.linenum)
    simpa [Place.base, Place.overlay, entryOf] using hpop
  | @removed at_ w n hreach htline ih =>
    intro _
    have hplain : at_.Plain := hreach.nested
    rw [hplain.overlay]
    exact (ih (by simp)).drop (by simp [listNodes, htline])
  | runNode _ htline ih =>
    intro _
    have hrun := (ih (by simp)).runLate (by simp [listNodes, htline])
    simpa [Place.base, Place.overlay, entryOf, listNodes] using hrun
  | @push w a _ htop _ _ ih =>
    intro _
    have hpush : Log listNodes inside (.idle w.linenum) .none (waiting a w :: w.head)
        (w.trace.map entryOf ++ [.push (waiting a w)]) :=
      Log.push (n := waiting a w) (ih (by simp)) htop
    simpa [Place.base, Place.overlay, entryOf] using hpush
  | unlink _ htop _ _ _ _ ih =>
    intro _
    have hlog := ((ih (by simp)).act htop).other (by simp)
    split_ifs
    · simpa [Place.base, Place.overlay, entryOf] using hlog.rest
    · simpa [Place.base, Place.overlay, entryOf] using hlog
  | @runLine at_ w a _ hat htop ih =>
    intro _
    have hlog : Log listNodes inside (.live w.linenum a.path) .none w.head
        (w.trace.map entryOf) := by
      rcases hat with ⟨rfl, -⟩ | rfl
      · exact ih (by simp)
      · exact ih (by simp)
    simpa [Place.base, Place.overlay, entryOf] using hlog.run htop
  | work _ hf ih =>
    intro _
    obtain ⟨evs, hevs, -, hP⟩ := hf.trace
    rw [hf.linenum, hf.head, hevs]
    refine log_others (ih (by simp)) (by simp [Place.overlay]) fun ev hev => ?_
    rcases hP ev hev with hsys | ⟨-, rfl⟩
    · cases ev with
      | call c r => rfl
      | trailer => rfl
      | _ => exact hsys.elim
    · rfl
  | @done line path tline tran at_ w hreach ih =>
    intro _
    have hplain : at_.Plain := hreach.nested
    rw [hplain.overlay]
    simpa [Place.base, entryOf] using (ih (by simp)).actLate.back
  | finish _ _ ih => exact fun _ => (ih (by simp)).finish
  | fail evs _ _ _ ih => exact fun hne => absurd rfl hne

theorem pending_map (trace : List Action) : pending (trace.map entryOf) = pendingAfter trace := by
  rw [pending, List.foldl_map, pendingAfter]
  congr 1
  funext list ev
  cases ev with
  | _ => rfl

/-- The list is what the events so far leave. -/
theorem Reach.head_eq {os : Os σ} {force : Bool} {lines : List (List Byte)}
    {init : σ} {at_ : Place}
    {w : World σ} (h : Reach os true force lines init at_ w) (hne : at_ ≠ .failed) :
    w.head = pendingAfter w.trace := by
  rw [← pending_map, (h.stacked hne).pending_eq]

/-! ## Runs without errors -/

/-- The paths a run acts on have no NUL. -/
theorem Reach.nulFree {os : Os σ} {cs force : Bool} {lines : List (List Byte)}
    {init : σ} {at_ : Place}
    {w : World σ} (h : Reach os cs force lines init at_ w) : ∀ path ∈ actedOn w.trace, NulFree path := by
  have hsnoc : ∀ {trace evs : List Action}, (∀ path ∈ actedOn trace, NulFree path) →
      (∀ ev ∈ evs, ev.path? = none) → ∀ path ∈ actedOn (trace ++ evs), NulFree path := by
    intro trace evs ih hevs path hpath
    rw [actedOn, List.filterMap_append, List.mem_append] at hpath
    rcases hpath with hpath | hpath
    · exact ih path hpath
    · obtain ⟨ev, hev, heq⟩ := List.mem_filterMap.mp hpath
      rw [hevs ev hev] at heq
      cases heq
  induction h with
  | start network => simp [World.start, actedOn]
  | quiet _ hf ih =>
    obtain ⟨evs, hevs, -, hnone⟩ := hf.trace
    rw [hevs]
    exact hsnoc ih fun ev hev => (hnone ev hev).elim
  | work _ hf ih =>
    obtain ⟨evs, hevs, -, hP⟩ := hf.trace
    rw [hevs]
    refine hsnoc ih fun ev hev => ?_
    rcases hP ev hev with hsys | ⟨-, rfl⟩
    · cases ev with
      | call c r => rfl
      | trailer => rfl
      | _ => exact hsys.elim
    · rfl
  | @begin w a _ hof _ ih =>
    intro path hpath
    simp only [actedOn, List.filterMap_append, List.mem_append] at hpath
    rcases hpath with hpath | hpath
    · exact ih path hpath
    · obtain rfl : path = a.path := by simpa [Action.path?] using hpath
      exact hof.nulFree
  | fail evs _ _ hevs ih =>
    rw [List.append_assoc]
    refine hsnoc ih ?_
    rcases hevs with rfl | ⟨path, rfl⟩
    · simp [Action.path?]
    · simp [Action.path?]
  | pop _ _ _ _ ih =>
    rw [List.append_assoc]
    exact hsnoc ih (by simp [Action.path?])
  | unlink _ _ _ _ _ _ ih =>
    rw [List.append_assoc]
    exact hsnoc ih (by simp [Action.path?])
  | done _ ih => exact hsnoc ih (by simp [Action.path?])
  | runNode _ _ ih => exact hsnoc ih (by simp [Action.path?])
  | push _ _ _ _ ih => exact hsnoc ih (by simp [Action.path?])
  | runLine _ _ _ ih => exact hsnoc ih (by simp [Action.path?])
  | header _ _ _ ih => exact ih
  | badHeader _ ih => exact ih
  | read _ _ _ ih => exact ih
  | skip _ _ ih => exact ih
  | removed _ _ ih => exact ih
  | finish _ _ ih => exact ih

theorem items_map (trace : List Action) :
    (items (trace.map entryOf)).map (·.2) = actedOn trace := by
  rw [items, List.filterMap_map, List.map_filterMap, actedOn]
  congr 1
  funext ev
  cases ev with
  | _ => rfl

/-- Paths that ascend make the lines ascend. -/
theorem ascending_entries {b : Base CStr} {o : Overlay CStr Node} {head : List Node}
    {trace : List Action} (h : Log listNodes inside b o head (trace.map entryOf))
    (hnul : ∀ path ∈ actedOn trace, NulFree path)
    (hasc : (actedOn trace).Pairwise fun p q => pathcmp p q < 0) :
    Ascending sortsBefore (trace.map entryOf) := by
  refine h.ascending ?_
  rw [← List.pairwise_map (f := Prod.snd) (R := sortsBefore), items_map]
  refine hasc.imp_of_mem fun hp hq hlt => ⟨hnul _ hp, hnul _ hq, hlt⟩

theorem entryOf_pop {ev : Action} {n : Node} (h : entryOf ev = .pop n) : ev = .rmdir n := by
  cases ev with
  | rmdir m => rw [Entry.pop.inj h]
  | _ => cases h

theorem entryOf_push {ev : Action} {n : Node} (h : entryOf ev = .push n) : ev = .push n := by
  cases ev with
  | push m => rw [Entry.push.inj h]
  | _ => cases h

theorem entryOf_run {ev : Action} {line : Nat} {path : CStr} (h : entryOf ev = .run line path) :
    ev = .doLine line path := by
  cases ev with
  | doLine line' path' =>
    obtain ⟨rfl, rfl⟩ := Entry.run.inj h
    rfl
  | _ => cases h

theorem notMem_of_map {trace : List Action} {ev : Action} (h : entryOf ev ∉ trace.map entryOf) :
    ev ∉ trace := fun hm => h (List.mem_map_of_mem hm)

/-- A node that was taken off is a directory that was removed. -/
theorem removedOnce {trace : List Action} {n : Node} {before after : List (Entry CStr Node)}
    (hclosed : Closed listNodes inside (trace.map entryOf) n before after)
    (hdeferred : Deferred listNodes n after) : RemovedOnce trace n := by
  obtain ⟨before, behind, rfl, rfl, hbehind⟩ := List.map_eq_append_iff.mp hclosed.split
  obtain ⟨ev, after, rfl, hev, rfl⟩ := List.map_eq_cons_iff.mp hbehind
  obtain rfl := entryOf_pop hev
  refine ⟨before, after, rfl, ?_, notMem_of_map hclosed.notBefore, notMem_of_map hclosed.notAfter,
    ?_, ?_, fun path => notMem_of_map (hclosed.notRun path), ?_⟩
  · obtain ⟨ev, hmem, hpush⟩ := List.mem_map.mp hclosed.pushed
    rwa [← entryOf_push hpush]
  · exact fun ev hmem line path hfor =>
      hclosed.inside _ (List.mem_map_of_mem hmem) line path hfor.entryOf
  · intro ev hmem line path hfor hlt
    have hout := hclosed.outside _ (List.mem_map_of_mem hmem) line path hfor.entryOf hlt
    exact Bool.eq_false_iff.mpr hout
  · have hdeferred : if n.tline.isSome then _ else _ := hdeferred
    split_ifs at hdeferred ⊢
    · obtain ⟨rest, hrest, hnot⟩ := hdeferred
      obtain ⟨ev, after, rfl, hrun, rfl⟩ := List.map_eq_cons_iff.mp hrest
      exact ⟨after, by rw [entryOf_run hrun]; rfl, fun path => notMem_of_map (hnot path)⟩
    · exact fun path => notMem_of_map (hdeferred path)

/-- The directories `/a`, `/a/b` and `/c`, and two files. -/
def nestedOs : Os Unit where
  sys _ s := (.ok, s)
  lstat _ path :=
    if path = lit "/a" ∨ path = lit "/a/b" ∨ path = lit "/c" then
      .found { Stat.zero with stMode := 0o040755 }
    else if path = lit "/a/b/x" ∨ path = lit "/d" then
      .found { Stat.zero with stMode := 0o100644 }
    else .enoent
  stat _ _ := none
  request _ s := (.lost, s)
  digest _ := []
  trailer s := (true, s)
  fclose _ := true
  closesn _ := true

def nestedRemovals : List Byte :=
  lit "- d /a 0755 0 0" ++ [newline] ++ lit "- d /a/b 0755 0 0" ++ [newline] ++
    lit "- f /a/b/x 0644 0 0 0 0 -" ++ [newline] ++ lit "f /c 0644 0 0 0 0 -" ++ [newline] ++
    lit "f /d 0644 0 0 0 0 -" ++ [newline]

end Radmind
