import Mathlib.Order.Defs.Unbundled
import Mathlib.Tactic.SplitIfs

/-!
# Runs that change a state

A computation with a state and errors relates the state it starts in to the one it ends
in, whether it returns or fails.  A relation that holds from the start of each step to
its end holds of the whole run; a triple says in addition what was returned.
-/

namespace RunRelation

variable {ε σ α β : Type}

/-- The state in which a computation ends, also on an error. -/
def endState : EStateM.Result ε σ α → σ
  | .ok _ s => s
  | .error _ s => s

/-- A run that returned. -/
def isOk : EStateM.Result ε σ α → Bool
  | .ok _ _ => true
  | .error _ _ => false

theorem eq_ok_of_isOk {r : EStateM.Result ε σ Unit} (h : isOk r = true) : r = .ok () (endState r) := by
  cases r with
  | ok _ _ => rfl
  | error _ _ => cases h

/-- The relation holds from where a run starts to where it ends. -/
def Keeps (R : σ → σ → Prop) (x : EStateM ε σ α) : Prop := ∀ s, R s (endState (x s))

/-- What is returned and left, or what an error leaves. -/
def Ends (Q : α → σ → Prop) (E : σ → Prop) : EStateM.Result ε σ α → Prop
  | .ok a s => Q a s
  | .error _ s => E s

/-- Every run from a state with `P` ends like that. -/
def Triple (P : σ → Prop) (x : EStateM ε σ α) (Q : α → σ → Prop) (E : σ → Prop) : Prop :=
  ∀ s, P s → Ends Q E (x s)

theorem bind_ok {x : EStateM ε σ α} {f : α → EStateM ε σ β} {s s' : σ} {a : α}
    (h : x s = .ok a s') : (x >>= f) s = f a s' := by
  show EStateM.bind x f s = _
  rw [EStateM.bind, h]

theorem bind_error {x : EStateM ε σ α} {f : α → EStateM ε σ β} {s s' : σ} {e : ε}
    (h : x s = .error e s') : (x >>= f) s = .error e s' := by
  show EStateM.bind x f s = _
  rw [EStateM.bind, h]

/-- A run that returned has returned from its first step. -/
theorem bind_eq_ok {x : EStateM ε σ α} {f : α → EStateM ε σ β} {s s'' : σ} {b : β}
    (h : (x >>= f) s = .ok b s'') : ∃ a s', x s = .ok a s' ∧ f a s' = .ok b s'' := by
  cases hx : x s with
  | ok a s' => exact ⟨a, s', rfl, (bind_ok hx).symm.trans h⟩
  | error e s' =>
    rw [bind_error hx] at h
    cases h

/-- Two computations that go on alike from every state the first step returns in. -/
theorem bind_congr_at {x : EStateM ε σ α} {f g : α → EStateM ε σ β} {s : σ}
    (h : ∀ a s', x s = .ok a s' → f a s' = g a s') : (x >>= f) s = (x >>= g) s := by
  cases hr : x s with
  | ok a s' => rw [bind_ok hr, bind_ok hr, h a s' hr]
  | error e s' => rw [bind_error hr, bind_error hr]

/-! ## Relations between start and end -/

section

variable {R : σ → σ → Prop}

/-- A first step, and what follows it from the state it leaves. -/
theorem keeps_bind_at [IsTrans σ R] {x : EStateM ε σ α} {f : α → EStateM ε σ β} {s : σ}
    (hx : R s (endState (x s))) (hf : ∀ a s', x s = .ok a s' → R s' (endState (f a s'))) :
    R s (endState ((x >>= f) s)) := by
  cases hr : x s with
  | ok a s' =>
    rw [hr] at hx
    rw [bind_ok hr]
    exact IsTrans.trans _ _ _ hx (hf a s' hr)
  | error e s' =>
    rw [hr] at hx
    rw [bind_error hr]
    exact hx

theorem keeps_bind_first [IsTrans σ R] {x : EStateM ε σ α} {f : α → EStateM ε σ β} {s : σ}
    (hx : R s (endState (x s))) (hf : ∀ a, Keeps R (f a)) : R s (endState ((x >>= f) s)) :=
  keeps_bind_at hx fun a s' _ => hf a s'

theorem Keeps.bind [IsTrans σ R] {x : EStateM ε σ α} {f : α → EStateM ε σ β} (hx : Keeps R x)
    (hf : ∀ a, Keeps R (f a)) : Keeps R (x >>= f) :=
  fun s => keeps_bind_first (hx s) hf

theorem keeps_pure [Std.Refl R] (a : α) : Keeps R (pure a : EStateM ε σ α) := fun s => refl s

theorem keeps_throw [Std.Refl R] (e : ε) : Keeps R (throw e : EStateM ε σ α) := fun s => refl s

theorem keeps_get [Std.Refl R] : Keeps R (get : EStateM ε σ σ) := fun s => refl s

theorem Keeps.ite {c : Prop} [Decidable c] {x y : EStateM ε σ α} (hx : Keeps R x)
    (hy : Keeps R y) : Keeps R (if c then x else y) := by
  split_ifs
  · exact hx
  · exact hy

end

/-! ## Triples -/

section

variable {P : σ → Prop} {E : σ → Prop}

theorem Triple.bind {x : EStateM ε σ α} {f : α → EStateM ε σ β} {M : α → σ → Prop}
    {Q : β → σ → Prop} (hx : Triple P x M E) (hf : ∀ a, Triple (M a) (f a) Q E) :
    Triple P (x >>= f) Q E := by
  intro s hs
  have hx := hx s hs
  cases hr : x s with
  | ok a s' =>
    rw [hr] at hx
    rw [bind_ok hr]
    exact hf a s' hx
  | error e s' =>
    rw [hr] at hx
    rw [bind_error hr]
    exact hx

theorem triple_pure {a : α} {Q : α → σ → Prop} (h : ∀ s, P s → Q a s) :
    Triple P (pure a : EStateM ε σ α) Q E := h

theorem triple_throw {e : ε} {Q : α → σ → Prop} (h : ∀ s, P s → E s) :
    Triple P (throw e : EStateM ε σ α) Q E := h

theorem triple_get : Triple P (get : EStateM ε σ σ) (fun a s => a = s ∧ P s) E :=
  fun _ hs => ⟨rfl, hs⟩

theorem Triple.mono {P' : σ → Prop} {x : EStateM ε σ α} {Q Q' : α → σ → Prop} {E' : σ → Prop}
    (h : Triple P x Q E) (hP : ∀ s, P' s → P s) (hQ : ∀ a s, Q a s → Q' a s)
    (hE : ∀ s, E s → E' s) : Triple P' x Q' E' := by
  intro s hs
  have h := h s (hP s hs)
  cases hr : x s with
  | ok a s' =>
    rw [hr] at h
    exact hQ a s' h
  | error e s' =>
    rw [hr] at h
    exact hE s' h

theorem Triple.ite {c : Prop} [Decidable c] {x y : EStateM ε σ α} {Q : α → σ → Prop}
    (hx : c → Triple P x Q E) (hy : ¬ c → Triple P y Q E) :
    Triple P (if c then x else y) Q E := by
  split_ifs with h
  · exact hx h
  · exact hy h

/-- A relation every run keeps carries what it implies from start to end. -/
theorem Keeps.triple {R : σ → σ → Prop} {x : EStateM ε σ α} (h : Keeps R x) {Q : σ → Prop}
    (hQ : ∀ s s', P s → R s s' → Q s') : Triple P x (fun _ => Q) Q := by
  intro s hs
  have h := h s
  cases hr : x s with
  | ok a s' =>
    rw [hr] at h
    exact hQ s s' hs h
  | error e s' =>
    rw [hr] at h
    exact hQ s s' hs h

end

end RunRelation
