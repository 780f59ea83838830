import Mathlib.Data.List.Basic

/-!
# Programs that call their environment

A program is a tree of calls, with a way to go on for every answer.  Its traces are the
calls and answers of a run, broken off anywhere.  `Safe` follows a program through all
its traces: every call has to be allowed by what was called and answered before it.
-/

namespace Interaction

variable {Call : Type} {Answer : Call → Type} {σ α β : Type}

inductive Prog (Answer : Call → Type) (α : Type)
  | pure (a : α)
  | call (c : Call) (next : Answer c → Prog Answer α)

namespace Prog

def bind (p : Prog Answer α) (f : α → Prog Answer β) : Prog Answer β :=
  match p with
  | pure a => f a
  | call c next => call c fun answer => (next answer).bind f

instance : Monad (Prog Answer) where
  pure := pure
  bind := bind

theorem bind_value (p : Prog Answer α) : p.bind pure = p := by
  induction p with
  | pure a => rfl
  | call c next ih => exact congrArg (call c) (funext ih)

theorem bind_bind {γ : Type} (p : Prog Answer α) (f : α → Prog Answer β) (g : β → Prog Answer γ) :
    (p.bind f).bind g = p.bind fun a => (f a).bind g := by
  induction p with
  | pure a => rfl
  | call c next ih => exact congrArg (call c) (funext ih)

instance : LawfulMonad (Prog Answer) :=
  LawfulMonad.mk' (Prog Answer) bind_value (fun _ _ => rfl) bind_bind

end Prog

/-- A call and its answer. -/
structure Event (Answer : Call → Type) where
  call : Call
  answer : Answer call

/-- A run of a program, up to its value or to any place before. -/
inductive Runs : Prog Answer α → List (Event Answer) → Option α → Prop
  | stop (p : Prog Answer α) : Runs p [] none
  | value (a : α) : Runs (.pure a) [] (some a)
  | answer {c : Call} {next : Answer c → Prog Answer α} {answer : Answer c}
      {trace : List (Event Answer)} {r : Option α} : Runs (next answer) trace r →
      Runs (.call c next) (⟨c, answer⟩ :: trace) r

/-- All calls of a program are allowed behind those before them, and its value is as it
should be. -/
def Safe (allowed : List (Event Answer) → Call → Prop) (post : α → List (Event Answer) → Prop) :
    Prog Answer α → List (Event Answer) → Prop
  | .pure a, history => post a history
  | .call c next, history => allowed history c ∧
      ∀ answer, Safe allowed post (next answer) (history ++ [⟨c, answer⟩])

section

variable {allowed allowed' : List (Event Answer) → Call → Prop}
  {post post' : α → List (Event Answer) → Prop}

theorem Safe.mono {p : Prog Answer α} {history : List (Event Answer)}
    (h : Safe allowed post p history) (hpost : ∀ a history, post a history → post' a history) :
    Safe allowed post' p history := by
  induction p generalizing history with
  | pure a => exact hpost a history h
  | call c next ih => exact ⟨h.1, fun answer => ih answer (h.2 answer)⟩

theorem Safe.bind {p : Prog Answer α} {f : α → Prog Answer β}
    {final : β → List (Event Answer) → Prop} {history : List (Event Answer)}
    (h : Safe allowed post p history)
    (hf : ∀ a history, post a history → Safe allowed final (f a) history) :
    Safe allowed final (p.bind f) history := by
  induction p generalizing history with
  | pure a => exact hf a history h
  | call c next ih => exact ⟨h.1, fun answer => ih answer (h.2 answer)⟩

/-- The first part of a program makes no other calls than the whole. -/
theorem Safe.of_bind {p : Prog Answer α} {f : α → Prog Answer β}
    {final : β → List (Event Answer) → Prop} {history : List (Event Answer)}
    (h : Safe allowed final (p.bind f) history) : Safe allowed (fun _ _ => True) p history := by
  induction p generalizing history with
  | pure a => exact trivial
  | call c next ih => exact ⟨h.1, fun answer => ih answer (h.2 answer)⟩

/-- Every call of a run was allowed, and a value the run came to is as it should be. -/
theorem Safe.run {p : Prog Answer α} {history trace : List (Event Answer)} {r : Option α}
    (h : Safe allowed post p history) (hrun : Runs p trace r) :
    (∀ before e after, trace = before ++ e :: after → allowed (history ++ before) e.call) ∧
      ∀ a, r = some a → post a (history ++ trace) := by
  induction hrun generalizing history with
  | stop p => simp
  | value a =>
    refine ⟨by simp, fun a' ha' => ?_⟩
    rw [List.append_nil, ← Option.some.inj ha']
    exact h
  | @answer c next answer trace r _ ih =>
    obtain ⟨hcalls, hvalue⟩ := ih (h.2 answer)
    constructor
    · intro before e after heq
      cases before with
      | nil =>
        rw [List.append_nil, ← (List.cons.inj heq).1]
        exact h.1
      | cons e' before =>
        obtain ⟨rfl, htrace⟩ := List.cons.inj heq
        have hcall := hcalls before e after htrace
        rwa [List.append_assoc] at hcall
    · intro a ha
      have hpost := hvalue a ha
      rwa [List.append_assoc] at hpost

end

/-! ## Programs with variables -/

/-- What a program with variables does from a state and a history on. -/
def Meets (allowed : List (Event Answer) → Call → Prop) (pre : σ → List (Event Answer) → Prop)
    (x : StateT σ (Prog Answer) α) (post : α → σ → List (Event Answer) → Prop) : Prop :=
  ∀ s history, pre s history →
    Safe allowed (fun r history => post r.1 r.2 history) (x s) history

/-- A call that leaves the variables alone. -/
def perform (c : Call) : StateT σ (Prog Answer) (Answer c) := fun s =>
  .call c fun answer => .pure (answer, s)

section

variable {allowed : List (Event Answer) → Call → Prop}
  {pre pre' : σ → List (Event Answer) → Prop} {x y : StateT σ (Prog Answer) α}
  {post post' : α → σ → List (Event Answer) → Prop}

theorem Meets.bind {f : α → StateT σ (Prog Answer) β} {final : β → σ → List (Event Answer) → Prop}
    (h : Meets allowed pre x post) (hf : ∀ a, Meets allowed (post a) (f a) final) :
    Meets allowed pre (x >>= f) final := by
  intro s history hpre
  exact (h s history hpre).bind fun r history hr => hf r.1 r.2 history hr

theorem Meets.mono (h : Meets allowed pre x post)
    (hpre : ∀ s history, pre' s history → pre s history)
    (hpost : ∀ a s history, post a s history → post' a s history) :
    Meets allowed pre' x post' := by
  intro s history hs
  exact (h s history (hpre s history hs)).mono fun r history hr => hpost r.1 r.2 history hr

theorem meets_pure {a : α} (h : ∀ s history, pre s history → post a s history) :
    Meets allowed pre (pure a) post := fun s history hs => h s history hs

theorem meets_get {post : σ → σ → List (Event Answer) → Prop}
    (h : ∀ s history, pre s history → post s s history) : Meets allowed pre get post :=
  fun s history hs => h s history hs

theorem meets_modify {f : σ → σ} {post : PUnit → σ → List (Event Answer) → Prop}
    (h : ∀ s history, pre s history → post ⟨⟩ (f s) history) :
    Meets allowed pre (modify f) post := fun s history hs => h s history hs

theorem meets_perform {c : Call} {post : Answer c → σ → List (Event Answer) → Prop}
    (hallowed : ∀ s history, pre s history → allowed history c)
    (h : ∀ s history answer, pre s history → post answer s (history ++ [⟨c, answer⟩])) :
    Meets allowed pre (perform c) post := by
  intro s history hs
  exact ⟨hallowed s history hs, fun answer => h s history answer hs⟩

theorem Meets.ite {c : Prop} [Decidable c] (hx : c → Meets allowed pre x post)
    (hy : ¬ c → Meets allowed pre y post) : Meets allowed pre (if c then x else y) post := by
  split_ifs with hc
  · exact hx hc
  · exact hy hc

end

/-! ## A run against one environment -/

/-- The trace of a run in which the environment answers by the history, or not at all. -/
def Prog.trace (environment : List (Event Answer) → (c : Call) → Option (Answer c)) :
    Prog Answer α → List (Event Answer) → List (Event Answer)
  | .pure _, _ => []
  | .call c next, history =>
    match environment history c with
    | none => []
    | some answer => ⟨c, answer⟩ :: (next answer).trace environment (history ++ [⟨c, answer⟩])

theorem Prog.runs_trace (environment : List (Event Answer) → (c : Call) → Option (Answer c))
    (p : Prog Answer α) (history : List (Event Answer)) :
    ∃ r, Runs p (p.trace environment history) r := by
  induction p generalizing history with
  | pure a => exact ⟨some a, .value a⟩
  | call c next ih =>
    rw [Prog.trace]
    split
    · exact ⟨none, .stop _⟩
    · next answer _ =>
      obtain ⟨r, hr⟩ := ih answer (history ++ [⟨c, answer⟩])
      exact ⟨r, .answer hr⟩

end Interaction
