import Mathlib

/-!
# Programs that fail and leave a state

A program runs on a state, and comes to a value or to an error; either way it leaves a state.
`Meets` says what holds of the value and of the error, with the states they come with.
-/

namespace FailingState

variable {ε σ α β : Type}

abbrev Act (ε σ α : Type) := ExceptT ε (StateM σ) α

def Act.result (m : Act ε σ α) (s : σ) : Except ε α × σ := m s

/-- A test whose failure ends the program. -/
def check (ok : Bool) (e : ε) : Act ε σ Unit := if ok then pure () else throw e

/-- A value comes with `post`, an error with `fail`. -/
def Meets (m : Act ε σ α) (s : σ) (post : α → σ → Prop) (fail : ε → σ → Prop) : Prop :=
  match m.result s with
  | (.ok a, s') => post a s'
  | (.error e, s') => fail e s'

/-- A program on a part of the state. -/
def onPart {τ : Type} (part : σ → τ) (update : σ → τ → σ) (m : Act ε τ α) : Act ε σ α :=
  fun s => match m.result (part s) with
    | (r, t) => (r, update s t)

variable {m : Act ε σ α} {f : α → Act ε σ β} {s : σ} {post post' : α → σ → Prop}
  {final : β → σ → Prop} {fail fail' : ε → σ → Prop}

theorem meets_pure {a : α} : Meets (pure a) s post fail ↔ post a s := Iff.rfl

theorem meets_throw {e : ε} : Meets (throw e : Act ε σ α) s post fail ↔ fail e s := Iff.rfl

theorem meets_get {post : σ → σ → Prop} : Meets (get : Act ε σ σ) s post fail ↔ post s s := Iff.rfl

theorem meets_set {t : σ} {post : PUnit → σ → Prop} :
    Meets (set t : Act ε σ PUnit) s post fail ↔ post ⟨⟩ t := Iff.rfl

theorem meets_modify {g : σ → σ} {post : PUnit → σ → Prop} :
    Meets (modify g : Act ε σ PUnit) s post fail ↔ post ⟨⟩ (g s) := Iff.rfl

theorem bind_result (m : Act ε σ α) (f : α → Act ε σ β) (s : σ) :
    (m >>= f).result s =
      match m.result s with
      | (.ok a, s') => (f a).result s'
      | (.error e, s') => (.error e, s') := by
  show (ExceptT.bind m f) s = _
  unfold ExceptT.bind Act.result ExceptT.mk
  show (StateT.bind m (ExceptT.bindCont f)) s = _
  unfold StateT.bind
  cases hm : m s with
  | mk r s' =>
    cases r with
    | ok a => rfl
    | error e => rfl

theorem meets_bind : Meets (m >>= f) s final fail ↔
    Meets m s (fun a s' => Meets (f a) s' final fail) fail := by
  unfold Meets
  rw [bind_result]
  rcases m.result s with ⟨_ | a, s'⟩ <;> rfl

theorem Meets.mono (h : Meets m s post fail) (hpost : ∀ a s', post a s' → post' a s')
    (hfail : ∀ e s', fail e s' → fail' e s') : Meets m s post' fail' := by
  unfold Meets at h ⊢
  rcases hm : m.result s with ⟨e | a, s'⟩
  · rw [hm] at h
    exact hfail e s' h
  · rw [hm] at h
    exact hpost a s' h

theorem Meets.and (h : Meets m s post fail) (h' : Meets m s post' fail') :
    Meets m s (fun a s' => post a s' ∧ post' a s') (fun e s' => fail e s' ∧ fail' e s') := by
  unfold Meets at h h' ⊢
  rcases hm : m.result s with ⟨e | a, s'⟩
  · rw [hm] at h h'
    exact ⟨h, h'⟩
  · rw [hm] at h h'
    exact ⟨h, h'⟩

theorem Meets.bind (h : Meets m s post fail)
    (hf : ∀ a s', post a s' → Meets (f a) s' final fail) : Meets (m >>= f) s final fail :=
  meets_bind.mpr (h.mono hf fun _ _ he => he)

theorem meets_check {ok : Bool} {e : ε} {post : Unit → σ → Prop} :
    Meets (check ok e) s post fail ↔ if ok then post () s else fail e s := by
  cases ok <;> exact Iff.rfl

theorem meets_check_bind {ok : Bool} {e : ε} {f : Unit → Act ε σ β} :
    Meets (check ok e >>= f) s final fail ↔
      if ok then Meets (f ()) s final fail else fail e s := by
  rw [meets_bind, meets_check]

theorem meets_iff : Meets m s post fail ↔
    (∀ a s', m.result s = (.ok a, s') → post a s') ∧
      ∀ e s', m.result s = (.error e, s') → fail e s' := by
  unfold Meets
  rcases m.result s with ⟨e | a, s'⟩
  · refine ⟨fun h => ⟨fun a s'' heq => ?_, fun e' s'' heq => ?_⟩, fun h => h.2 e s' rfl⟩
    · cases heq
    · cases heq
      exact h
  · refine ⟨fun h => ⟨fun a' s'' heq => ?_, fun e s'' heq => ?_⟩, fun h => h.1 a s' rfl⟩
    · cases heq
      exact h
    · cases heq

/-- A test that passes, or an error that is as it should be. -/
theorem Meets.check_bind {ok : Bool} {e : ε} {f : Unit → Act ε σ β} (hfail : fail e s)
    (hok : ok = true → Meets (f ()) s final fail) : Meets (check ok e >>= f) s final fail := by
  rw [meets_check_bind]
  split_ifs with h
  · exact hok h
  · exact hfail

/-- A test, with what its failure tells. -/
theorem Meets.checked {ok : Bool} {e : ε} {f : Unit → Act ε σ β} (hfail : ok = false → fail e s)
    (hok : ok = true → Meets (f ()) s final fail) : Meets (check ok e >>= f) s final fail := by
  rw [meets_check_bind]
  split_ifs with h
  · exact hok h
  · exact hfail (Bool.eq_false_of_not_eq_true h)

theorem meets_onPart {τ : Type} {part : σ → τ} {update : σ → τ → σ} {m : Act ε τ α} :
    Meets (onPart part update m) s post fail ↔
      Meets m (part s) (fun a t => post a (update s t)) (fun e t => fail e (update s t)) := by
  have hresult : (onPart part update m).result s =
      ((m.result (part s)).1, update s (m.result (part s)).2) := rfl
  unfold Meets
  rw [hresult]
  rcases m.result (part s) with ⟨_ | _, t⟩ <;> rfl

theorem tryCatch_result (m : Act ε σ α) (h : ε → Act ε σ α) (s : σ) :
    (tryCatch m h).result s =
      match m.result s with
      | (.ok a, s') => (.ok a, s')
      | (.error e, s') => (h e).result s' := by
  show (ExceptT.tryCatch m h) s = _
  unfold ExceptT.tryCatch Act.result ExceptT.mk
  show (StateT.bind m _) s = _
  unfold StateT.bind
  cases hm : m s with
  | mk r s' =>
    cases r with
    | ok a => rfl
    | error e => rfl

theorem meets_tryCatch {h : ε → Act ε σ α} : Meets (tryCatch m h) s post fail ↔
    Meets m s post fun e s' => Meets (h e) s' post fail := by
  unfold Meets
  rw [tryCatch_result]
  rcases m.result s with ⟨_ | _, s'⟩ <;> rfl

/-! ## What a program may do to the state -/

/-- Every run of the program, to a value or to an error, leads to a related state. -/
def Moves (R : σ → σ → Prop) (m : Act ε σ α) : Prop :=
  ∀ s, Meets m s (fun _ s' => R s s') (fun _ s' => R s s')

section

variable {R : σ → σ → Prop} [IsPreorder σ R]

theorem Moves.pure (a : α) : Moves R (pure a : Act ε σ α) := fun s => refl_of R s

theorem Moves.throw (e : ε) : Moves R (throw e : Act ε σ α) := fun s => refl_of R s

theorem Moves.check (ok : Bool) (e : ε) : Moves R (check ok e) := by
  cases ok
  · exact Moves.throw e
  · exact Moves.pure ()

/-- A program that runs on from a related state. -/
theorem Moves.after (hm : Moves R m) {s₁ : σ} (h : R s s₁) :
    Meets m s₁ (fun _ s' => R s s') (fun _ s' => R s s') :=
  (hm s₁).mono (fun _ _ h' => trans_of R h h') fun _ _ h' => trans_of R h h'

theorem Moves.bind (hm : Moves R m) (hf : ∀ a, Moves R (f a)) : Moves R (m >>= f) := by
  intro s
  rw [meets_bind]
  exact (hm s).mono (fun a _ h => (hf a).after h) fun _ _ h => h

omit [IsPreorder σ R] in
theorem Moves.modify {g : σ → σ} (h : ∀ s, R s (g s)) :
    Moves R (modify g : Act ε σ PUnit) := fun s => h s

omit [IsPreorder σ R] in
/-- A program that goes by the state it finds. -/
theorem Moves.get_bind {f : σ → Act ε σ β}
    (h : ∀ s, Meets (f s) s (fun _ s' => R s s') (fun _ s' => R s s')) :
    Moves R (get >>= f) := by
  intro s
  rw [meets_bind, meets_get]
  exact h s

end

end FailingState
