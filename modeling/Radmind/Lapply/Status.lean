import Radmind.Lapply.Reach

/-!
# The exit status

`lapply` exits with 1 on an error once a line was carried out, and with 2 before that.
Removals and the steps of a line that fails half way do not count.
-/

namespace Radmind

open RunRelation

variable {σ : Type}

/-- Some call that changes the file system succeeded. -/
def Modified (trace : List Action) : Prop := ∃ c, c.modifies = true ∧ .call c .ok ∈ trace

/-- Some line was carried out to its end. -/
def CarriedOut (trace : List Action) : Prop := ∃ line path, .done line path ∈ trace

theorem carriedOut_append {trace evs : List Action} :
    CarriedOut (trace ++ evs) ↔ CarriedOut trace ∨ CarriedOut evs := by
  simp only [CarriedOut, List.mem_append, exists_or]

theorem not_carriedOut {evs : List Action} (h : ∀ ev ∈ evs, ∀ line path, ev ≠ .done line path) :
    ¬ CarriedOut evs := by
  intro ⟨line, path, hmem⟩
  exact h _ hmem line path rfl

/-- `change` says that a line was carried out to its end. -/
theorem Reach.change_iff {os : Os σ} {cs force : Bool} {lines : List (List Byte)}
    {init : σ} {at_ : Place}
    {w : World σ} (h : Reach os cs force lines init at_ w) : w.change = true ↔ CarriedOut w.trace := by
  -- every event but `done` leaves both sides as they are
  have hstep : ∀ {w : World σ} {evs : List Action}, (w.change = true ↔ CarriedOut w.trace) →
      (∀ ev ∈ evs, ∀ line path, ev ≠ .done line path) →
      (w.change = true ↔ CarriedOut (w.trace ++ evs)) := by
    intro w evs ih hevs
    rw [carriedOut_append, or_iff_left (not_carriedOut hevs)]
    exact ih
  induction h with
  | start network => simp [World.start, CarriedOut]
  | quiet _ hf ih =>
    obtain ⟨evs, hevs, -, hnone⟩ := hf.trace
    rw [hf.change, hevs]
    exact hstep ih fun ev hev => (hnone ev hev).elim
  | work _ hf ih =>
    obtain ⟨evs, hevs, -, hP⟩ := hf.trace
    rw [hf.change, hevs]
    refine hstep ih fun ev hev => ?_
    rintro line path rfl
    rcases hP _ hev with hsys | ⟨-, hreq⟩
    · exact hsys
    · cases hreq
  | @done line path _ _ _ w _ _ =>
    show true = true ↔ CarriedOut (w.trace ++ [.done line path])
    exact ⟨fun _ => ⟨line, path, by simp⟩, fun _ => rfl⟩
  | fail evs _ _ hevs ih =>
    rw [List.append_assoc]
    refine hstep ih ?_
    rcases hevs with rfl | ⟨path, rfl⟩
    · simp
    · simp
  | pop _ _ _ _ ih =>
    rw [List.append_assoc]
    exact hstep ih (by simp)
  | unlink _ _ _ _ _ _ ih =>
    rw [List.append_assoc]
    exact hstep ih (by simp)
  | begin _ _ _ ih => exact hstep ih (by simp)
  | runNode _ _ ih => exact hstep ih (by simp)
  | push _ _ _ _ ih => exact hstep ih (by simp)
  | runLine _ _ _ ih => exact hstep ih (by simp)
  | header _ _ _ ih => exact ih
  | badHeader _ ih => exact ih
  | read _ _ _ ih => exact ih
  | skip _ _ ih => exact ih
  | removed _ _ ih => exact ih
  | finish _ _ ih => exact ih

theorem change_iff (os : Os σ) (cfg : LapplyConfig) (network : Bool) (content : List Byte) (s : σ) :
    (endState (lapply os cfg network content s)).change = true ↔
      CarriedOut (endState (lapply os cfg network content s)).trace := by
  have h := lapply_reach os cfg network content s
  cases hr : lapply os cfg network content s with
  | ok a w =>
    rw [hr] at h
    exact h.1.change_iff
  | error e w =>
    rw [hr] at h
    obtain ⟨at_, hreach⟩ := h
    exact hreach.change_iff

/-! ## The status and the truth -/

/-- The status is 2 only where nothing was modified, and 1 where something was and the
run was no success. -/
def Truthful (os : Os σ) (r : EStateM.Result Failure (World σ) Unit) : Prop :=
  (exitStatus os r = some 2 → ¬ Modified (endState r).trace) ∧
    ∀ status ≠ 0, exitStatus os r = some status → Modified (endState r).trace → status = 1

/-- The run goes through `error1`: an operation failed, or `fclose` did. -/
def StopsOnError (os : Os σ) : EStateM.Result Failure (World σ) Unit → Prop
  | .ok () w => os.fclose w.os = false
  | .error .overrun _ => False
  | .error (.decodeReturn _) _ => False
  | .error _ _ => True

/-- The connection could not be closed behind a run without errors. -/
def LosesConnection (os : Os σ) : EStateM.Result Failure (World σ) Unit → Prop
  | .ok () w => os.fclose w.os = true ∧ w.network = true ∧ os.closesn w.os = false
  | .error _ _ => False

theorem exitStatus_of_stops {os : Os σ} {r : EStateM.Result Failure (World σ) Unit}
    (h : StopsOnError os r) : exitStatus os r = some (errorStatus (endState r)) := by
  cases r with
  | ok a w =>
    have hclose : os.fclose w.os = false := h
    simp [exitStatus, hclose, endState]
  | error e w =>
    cases e with
    | overrun => exact h.elim
    | decodeReturn line => exact h.elim
    | _ => rfl

theorem exitStatus_of_loses {os : Os σ} {r : EStateM.Result Failure (World σ) Unit}
    (h : LosesConnection os r) : exitStatus os r = some 2 := by
  cases r with
  | ok a w =>
    obtain ⟨hclose, hnetwork, hclosesn⟩ := h
    simp [exitStatus, hclose, hnetwork, hclosesn]
  | error e w => exact h.elim

theorem exitStatus_of_neither {os : Os σ} {r : EStateM.Result Failure (World σ) Unit}
    (hs : ¬ StopsOnError os r) (hl : ¬ LosesConnection os r) {status : Nat} (hne : status ≠ 0)
    (h : exitStatus os r = some status) : status = 1 := by
  cases r with
  | ok a w =>
    have hclose : os.fclose w.os = true := by
      cases hc : os.fclose w.os with
      | true => rfl
      | false => exact absurd hc hs
    have hopen : (w.network && !os.closesn w.os) = false := by
      cases hn : w.network with
      | false => rfl
      | true =>
        cases hc : os.closesn w.os with
        | true => rfl
        | false => exact absurd ⟨hclose, hn, hc⟩ hl
    simp only [exitStatus, hclose, hopen] at h
    exact absurd (Option.some.inj h).symm hne
  | error e w =>
    cases e with
    | overrun => cases h
    | decodeReturn line => exact (Option.some.inj h).symm
    | _ => exact absurd trivial hs

/-- Two files are there, and the second one cannot be removed. -/
def stubbornOs : Os Unit where
  sys c s := (if c = .unlink (lit "/b") then .failed else .ok, s)
  lstat _ _ := .found { Stat.zero with stMode := 0o100644 }
  stat _ _ := none
  request _ s := (.lost, s)
  digest _ := []
  trailer s := (true, s)
  fclose _ := true
  closesn _ := true

def twoRemovals : List Byte :=
  lit "- f /a 0644 0 0 0 0 -" ++ [newline] ++ lit "- f /b 0644 0 0 0 0 -" ++ [newline]

end Radmind
