import Mathlib.Data.List.Pairwise
import Mathlib.Order.Nat
import Mathlib.Tactic.SplitIfs

/-!
# A stack of subtrees that are closed late

Items come one after the other, each with a key.  An item may put the subtree of its key
on a stack.  A subtree is taken off when an item outside of it acts, or at the end, and
something that was deferred may then be done for the item that put it there.  Where the
keys of the items ascend and every subtree is an interval, each subtree is taken off once,
behind all items inside of it and before all later ones outside.
-/

namespace PendingStack

variable {α ν : Type}

/-- The nodes on a stack: when each was put there, its key, and whether something is
deferred until it is taken off. -/
structure Nodes (α ν : Type) where
  time : ν → ℕ
  key : ν → α
  deferred : ν → Bool

/-- What happens, with the number and the key of the item it is done for. -/
inductive Entry (α ν : Type)
  | start (t : ℕ) (k : α)
  | push (n : ν)
  | pop (n : ν)
  | run (t : ℕ) (k : α)
  | act (t : ℕ) (k : α)
  | other

/-- The item an action is for. -/
inductive Entry.For (N : Nodes α ν) : Entry α ν → ℕ → α → Prop
  | push (n : ν) : For N (push n) (N.time n) (N.key n)
  | pop (n : ν) : For N (pop n) (N.time n) (N.key n)
  | run (t : ℕ) (k : α) : For N (run t k) t k
  | act (t : ℕ) (k : α) : For N (act t k) t k

/-- Between two items, at an item that acts, or behind the last one. -/
inductive Base (α : Type)
  | idle (m : ℕ)
  | live (t : ℕ) (k : α)
  | ended

/-- Directly behind a removal, or at something done for an item. -/
inductive Overlay (α ν : Type)
  | none
  | popped (n : ν)
  | late (t : ℕ) (k : α)

/-- The top of the stack is taken off for an item outside of it, or at the end. -/
def Base.Leaves (N : Nodes α ν) (below : α → α → Prop) (n : ν) : Base α → Prop
  | idle _ => False
  | live _ k => ¬ below k (N.key n)
  | ended => True

variable (N : Nodes α ν) (below lt : α → α → Prop)

/-- An item inside of the subtree on top. -/
def OnTop (k : α) (s : List ν) : Prop := ∀ n ∈ s.head?, below k (N.key n)

/-- The logs, with the stack and the place at their end. -/
inductive Log : Base α → Overlay α ν → List ν → List (Entry α ν) → Prop
  | nil : Log (.idle 0) .none [] []
  | tick {m m' : ℕ} {s : List ν} {l : List (Entry α ν)} : Log (.idle m) .none s l → m ≤ m' →
      Log (.idle m') .none s l
  | other {b : Base α} {o : Overlay α ν} {s : List ν} {l : List (Entry α ν)} : Log b o s l →
      (∀ n, o ≠ .popped n) → Log b o s (l ++ [.other])
  | start {m t : ℕ} {k : α} {s : List ν} {l : List (Entry α ν)} : Log (.idle m) .none s l →
      m < t → Log (.live t k) .none s (l ++ [.start t k])
  | rest {t : ℕ} {k : α} {s : List ν} {l : List (Entry α ν)} : Log (.live t k) .none s l →
      Log (.idle t) .none s l
  | act {t : ℕ} {k : α} {s : List ν} {l : List (Entry α ν)} : Log (.live t k) .none s l →
      OnTop N below k s → Log (.live t k) .none s (l ++ [.act t k])
  | run {t : ℕ} {k : α} {s : List ν} {l : List (Entry α ν)} : Log (.live t k) .none s l →
      OnTop N below k s → Log (.idle t) (.late t k) s (l ++ [.run t k])
  | push {n : ν} {s : List ν} {l : List (Entry α ν)} :
      Log (.live (N.time n) (N.key n)) .none s l → OnTop N below (N.key n) s →
      Log (.idle (N.time n)) .none (n :: s) (l ++ [.push n])
  | pop {n : ν} {b : Base α} {s : List ν} {l : List (Entry α ν)} : Log b .none (n :: s) l →
      b.Leaves N below n → Log b (.popped n) s (l ++ [.pop n])
  | drop {n : ν} {b : Base α} {s : List ν} {l : List (Entry α ν)} : Log b (.popped n) s l →
      N.deferred n = false → Log b .none s l
  | runLate {n : ν} {b : Base α} {s : List ν} {l : List (Entry α ν)} :
      Log b (.popped n) s l → N.deferred n = true →
      Log b (.late (N.time n) (N.key n)) s (l ++ [.run (N.time n) (N.key n)])
  | actLate {t : ℕ} {k : α} {b : Base α} {s : List ν} {l : List (Entry α ν)} :
      Log b (.late t k) s l → Log b (.late t k) s (l ++ [.act t k])
  | back {t : ℕ} {k : α} {b : Base α} {s : List ν} {l : List (Entry α ν)} :
      Log b (.late t k) s l → Log b .none s l
  | finish {m : ℕ} {s : List ν} {l : List (Entry α ν)} : Log (.idle m) .none s l →
      Log .ended .none s l

/-- Every subtree is an interval of the order. -/
structure Subtrees : Prop where
  trans : ∀ {x y z}, below x y → below y z → below x z
  convex : ∀ {d x y}, lt d x → lt x y → below y d → below x d

/-- The keys ascend with the numbers of the items. -/
def Ascending (l : List (Entry α ν)) : Prop :=
  ∀ t k t' k', .start t k ∈ l → .start t' k' ∈ l → t < t' → lt k k'

/-! ## What holds at every place -/

/-- A node that is on the stack. -/
structure Open (l : List (Entry α ν)) (n : ν) : Prop where
  notPopped : .pop n ∉ l
  inside : ∀ e ∈ l, ∀ t k, e.For N t k → N.time n < t → below k (N.key n)
  notRun : ∀ k, .run (N.time n) k ∉ l

/-- A node that was taken off: behind the items inside of it, before those outside, and
what was deferred follows at once. -/
structure Closed (l : List (Entry α ν)) (n : ν) (before after : List (Entry α ν)) : Prop where
  split : l = before ++ .pop n :: after
  pushed : .push n ∈ before
  notBefore : .pop n ∉ before
  notAfter : .pop n ∉ after
  inside : ∀ e ∈ before, ∀ t k, e.For N t k → N.time n < t → below k (N.key n)
  outside : ∀ e ∈ after, ∀ t k, e.For N t k → N.time n < t → ¬ below k (N.key n)
  notRun : ∀ k, .run (N.time n) k ∉ before

/-- The deferred item is done directly behind the removal, and only there. -/
def Deferred (n : ν) (after : List (Entry α ν)) : Prop :=
  if N.deferred n then
    ∃ rest, after = .run (N.time n) (N.key n) :: rest ∧ ∀ k, .run (N.time n) k ∉ rest
  else ∀ k, .run (N.time n) k ∉ after

/-- What was deferred for a node that was taken off comes next, or is settled. -/
def Settled (o : Overlay α ν) (n : ν) (after : List (Entry α ν)) : Prop :=
  o = .popped n ∧ after = [] ∨ o ≠ .popped n ∧ Deferred N n after

/-- An item outside of the subtree has come behind the node, or no item follows. -/
def Past (b : Base α) (l : List (Entry α ν)) (n : ν) : Prop :=
  b = .ended ∨ ∃ t k, .start t k ∈ l ∧ N.time n < t ∧ ¬ below k (N.key n)

/-- An item may act: it is inside of the older subtrees on the stack, and outside of
those that were taken off. -/
structure Fits (s : List ν) (l : List (Entry α ν)) (t : ℕ) (k : α) : Prop where
  started : .start t k ∈ l
  inside : ∀ n ∈ s, N.time n < t → below k (N.key n)
  outside : ∀ n, .push n ∈ l → n ∉ s → N.time n < t → ¬ below k (N.key n)

/-- What is known about the items at a place. -/
def Base.Ok (l : List (Entry α ν)) : Base α → Prop
  | idle m => ∀ t k, .start t k ∈ l → t ≤ m
  | live t k => .start t k ∈ l ∧ (∀ t' k', .start t' k' ∈ l → t' = t ∧ k' = k ∨ t' < t) ∧
      (∀ n, .push n ∈ l → N.time n < t) ∧ ∀ k', .run t k' ∉ l
  | ended => True

def Overlay.Ok (s : List ν) (l : List (Entry α ν)) : Overlay α ν → Prop
  | none => True
  | popped n => .push n ∈ l ∧ n ∉ s ∧ Fits N below s l (N.time n) (N.key n)
  | late t k => Fits N below s l t k

structure Kept (b : Base α) (o : Overlay α ν) (s : List ν) (l : List (Entry α ν)) : Prop where
  base : b.Ok N l
  overlay : o.Ok N below s l
  started : ∀ e ∈ l, ∀ t k, e.For N t k → .start t k ∈ l
  unique : ∀ n n', .push n ∈ l → .push n' ∈ l → N.time n = N.time n' → n = n'
  stack : s.Pairwise fun n m => N.time m < N.time n ∧ below (N.key n) (N.key m)
  pushed : ∀ n ∈ s, .push n ∈ l
  popped : ∀ n, .pop n ∈ l → .push n ∈ l
  opened : ∀ n ∈ s, Open N below l n
  closed : ∀ n, .push n ∈ l → n ∉ s → ∃ before after, Closed N below l n before after ∧
    Settled N o n after ∧ Past N below b l n ∧
    ∀ m ∈ s, N.time n < N.time m → ¬ below (N.key m) (N.key n)

/-! ## Steps -/

variable {N below lt} {b b' : Base α} {o o' : Overlay α ν} {s : List ν} {l : List (Entry α ν)}
  {e : Entry α ν}

theorem mem_snoc_of_ne {e' : Entry α ν} (h : e' ∈ l ++ [e]) (hne : e ≠ e') : e' ∈ l := by
  rcases List.mem_append.mp h with hm | hm
  · exact hm
  · exact absurd (List.mem_singleton.mp hm).symm hne

theorem Open.snoc {n : ν} (h : Open N below l n) (hpop : e ≠ .pop n)
    (hin : ∀ t k, e.For N t k → N.time n < t → below k (N.key n))
    (hrun : ∀ k, e ≠ .run (N.time n) k) : Open N below (l ++ [e]) n where
  notPopped := fun hm => h.notPopped (mem_snoc_of_ne hm hpop)
  inside := by
    intro e' he'
    rcases List.mem_append.mp he' with hm | hm
    · exact h.inside e' hm
    · rw [List.mem_singleton.mp hm]
      exact hin
  notRun := fun k hm => h.notRun k (mem_snoc_of_ne hm (hrun k))

theorem Closed.snoc {n : ν} {before after : List (Entry α ν)}
    (h : Closed N below l n before after) (hpop : e ≠ .pop n)
    (hout : ∀ t k, e.For N t k → N.time n < t → ¬ below k (N.key n)) :
    Closed N below (l ++ [e]) n before (after ++ [e]) where
  split := by rw [h.split, List.append_assoc, List.cons_append]
  pushed := h.pushed
  notBefore := h.notBefore
  notAfter := fun hm => h.notAfter (mem_snoc_of_ne hm hpop)
  inside := h.inside
  outside := by
    intro e' he'
    rcases List.mem_append.mp he' with hm | hm
    · exact h.outside e' hm
    · rw [List.mem_singleton.mp hm]
      exact hout
  notRun := h.notRun

theorem Deferred.snoc {n : ν} {after : List (Entry α ν)} (h : Deferred N n after)
    (hrun : ∀ k, e ≠ .run (N.time n) k) : Deferred N n (after ++ [e]) := by
  unfold Deferred at h ⊢
  split_ifs at h ⊢
  · obtain ⟨rest, rfl, hrest⟩ := h
    exact ⟨rest ++ [e], rfl, fun k hm => hrest k (mem_snoc_of_ne hm (hrun k))⟩
  · exact fun k hm => h k (mem_snoc_of_ne hm (hrun k))

theorem Settled.deferred {n : ν} {after : List (Entry α ν)} (h : Settled N o n after)
    (ho : o ≠ .popped n) : Deferred N n after := by
  rcases h with h | h
  · exact absurd h.1 ho
  · exact h.2

/-- An entry that does not run something, at a place where nothing was just taken off. -/
theorem Settled.snoc {n : ν} {after : List (Entry α ν)} (h : Settled N o n after)
    (ho : o ≠ .popped n) (ho' : o' ≠ .popped n) (hrun : ∀ k, e ≠ .run (N.time n) k) :
    Settled N o' n (after ++ [e]) := .inr ⟨ho', (h.deferred ho).snoc hrun⟩

theorem Past.mono {n : ν} (h : Past N below b l n) (hb : b = .ended → b' = .ended) :
    Past N below b' (l ++ [e]) n := by
  rcases h with h | ⟨t, k, hm, h⟩
  · exact .inl (hb h)
  · exact .inr ⟨t, k, List.mem_append_left _ hm, h⟩

theorem Fits.mono {t : ℕ} {k : α} (h : Fits N below s l t k) (hpush : ∀ n, e ≠ .push n) :
    Fits N below s (l ++ [e]) t k where
  started := List.mem_append_left _ h.started
  inside := h.inside
  outside := fun n hn => h.outside n (mem_snoc_of_ne hn (hpush n))

/-- An entry that starts nothing and puts nothing on the stack. -/
theorem Base.Ok.mono (h : b.Ok N l) (hpush : ∀ n, e ≠ .push n) (hstart : ∀ t k, e ≠ .start t k)
    (hrun : ∀ t k, e = .run t k → ∃ n, .push n ∈ l ∧ N.time n = t) : b.Ok N (l ++ [e]) := by
  cases b with
  | idle m => exact fun t k hm => h t k (mem_snoc_of_ne hm (hstart t k))
  | live t k =>
    refine ⟨List.mem_append_left _ h.1,
      fun t' k' hm => h.2.1 t' k' (mem_snoc_of_ne hm (hstart t' k')),
      fun n hn => h.2.2.1 n (mem_snoc_of_ne hn (hpush n)), fun k' hm => ?_⟩
    rcases List.mem_append.mp hm with hm | hm
    · exact h.2.2.2 k' hm
    · obtain ⟨n, hn, heq⟩ := hrun t k' (List.mem_singleton.mp hm).symm
      exact absurd heq (h.2.2.1 n hn).ne
  | ended => trivial

theorem Overlay.Ok.mono (h : o.Ok N below s l) (hpush : ∀ n, e ≠ .push n) :
    o.Ok N below s (l ++ [e]) := by
  cases o with
  | none => trivial
  | popped n => exact ⟨List.mem_append_left _ h.1, h.2.1, h.2.2.mono hpush⟩
  | late t k => exact Fits.mono h hpush

/-- An entry for an item that may act, with the stack as it is. -/
theorem Kept.snoc (h : Kept N below b o s l) (hbase : b'.Ok N (l ++ [e]))
    (hoverlay : o'.Ok N below s (l ++ [e])) (hpush : ∀ n, e ≠ .push n) (hpop : ∀ n, e ≠ .pop n)
    (hfits : ∀ t k, e.For N t k → Fits N below s l t k) (hended : b = .ended → b' = .ended)
    (hsettled : ∀ n after, .push n ∈ l → n ∉ s → Settled N o n after →
      Settled N o' n (after ++ [e]))
    (hrun : ∀ n ∈ s, ∀ k, e ≠ .run (N.time n) k) : Kept N below b' o' s (l ++ [e]) where
  base := hbase
  overlay := hoverlay
  started := by
    intro e' he' t k hfor
    rcases List.mem_append.mp he' with hm | hm
    · exact List.mem_append_left _ (h.started e' hm t k hfor)
    · obtain rfl := List.mem_singleton.mp hm
      exact List.mem_append_left _ (hfits t k hfor).started
  unique := fun n n' hn hn' =>
    h.unique n n' (mem_snoc_of_ne hn (hpush n)) (mem_snoc_of_ne hn' (hpush n'))
  stack := h.stack
  pushed := fun n hn => List.mem_append_left _ (h.pushed n hn)
  popped := fun n hn => List.mem_append_left _ (h.popped n (mem_snoc_of_ne hn (hpop n)))
  opened := fun n hn => (h.opened n hn).snoc (hpop n)
    (fun t k hfor hlt => (hfits t k hfor).inside n hn hlt) (hrun n hn)
  closed := by
    intro n hn hs
    have hn := mem_snoc_of_ne hn (hpush n)
    obtain ⟨before, after, hclosed, hset, hpast, hrest⟩ := h.closed n hn hs
    exact ⟨before, after ++ [e], hclosed.snoc (hpop n)
      (fun t k hfor hlt => (hfits t k hfor).outside n hn hs hlt), hsettled n after hn hs hset,
      hpast.mono hended, hrest⟩

/-- Going on to another place. -/
theorem Kept.move (h : Kept N below b o s l) (hbase : b'.Ok N l) (hended : b = .ended → b' = .ended)
    (hsettled : ∀ n after, .push n ∈ l → n ∉ s → Settled N o n after → Deferred N n after) :
    Kept N below b' .none s l :=
  { h with
    base := hbase
    overlay := trivial
    closed := by
      intro n hn hs
      obtain ⟨before, after, hclosed, hset, hpast, hrest⟩ := h.closed n hn hs
      exact ⟨before, after, hclosed, .inr ⟨by simp, hsettled n after hn hs hset⟩,
        hpast.imp_left hended, hrest⟩ }

/-- An item that has come behind another one has a greater key. -/
theorem Kept.key_lt (h : Kept N below b o s l) (hasc : Ascending lt l) {n : ν} (hn : .push n ∈ l)
    {t : ℕ} {k : α} (hstart : .start t k ∈ l) (hlt : N.time n < t) : lt (N.key n) k :=
  hasc _ _ _ _ (h.started _ hn _ _ (.push n)) hstart hlt

/-- An item inside of the subtree on top may act. -/
theorem Kept.fits {t : ℕ} {k : α} (h : Kept N below (.live t k) o s l) (hsub : Subtrees below lt)
    (hasc : Ascending lt l) (htop : OnTop N below k s) : Fits N below s l t k where
  started := h.base.1
  inside := by
    intro n hn _
    cases s with
    | nil => cases hn
    | cons m s =>
      have hm : below k (N.key m) := htop m rfl
      rcases List.mem_cons.mp hn with rfl | hn
      · exact hm
      · exact hsub.trans hm ((List.pairwise_cons.mp h.stack).1 n hn).2
  outside := by
    intro n hn hs hlt hbelow
    obtain ⟨_, _, -, -, hpast, -⟩ := h.closed n hn hs
    rcases hpast with hended | ⟨t', k', hstart, hlt', hnot⟩
    · cases hended
    · -- the item that ended the subtree is this one, or lies between
      rcases h.base.2.1 t' k' hstart with ⟨rfl, rfl⟩ | hbefore
      · exact hnot hbelow
      · exact hnot (hsub.convex (h.key_lt hasc hn hstart hlt')
          (hasc _ _ _ _ hstart h.base.1 hbefore) hbelow)

/-- Nothing starts behind an item that acts. -/
theorem Base.Ok.le {t : ℕ} {k : α} (h : (Base.live t k).Ok N l) {t' : ℕ} {k' : α}
    (hm : .start t' k' ∈ l) : t' ≤ t := by
  rcases h.2.1 t' k' hm with ⟨rfl, -⟩ | hlt
  · exact le_rfl
  · exact hlt.le

theorem Kept.push {n : ν} (h : Kept N below (.live (N.time n) (N.key n)) .none s l)
    (hfits : Fits N below s l (N.time n) (N.key n)) :
    Kept N below (.idle (N.time n)) .none (n :: s) (l ++ [.push n]) := by
  have hmem : ∀ {m}, .push m ∈ l ++ [.push n] → .push m ∈ l ∨ m = n := by
    intro m hm
    rcases List.mem_append.mp hm with hm | hm
    · exact .inl hm
    · exact .inr (Entry.push.inj (List.mem_singleton.mp hm))
  have hbefore : ∀ {m}, .push m ∈ l → N.time m < N.time n := fun hm => h.base.2.2.1 _ hm
  have hfor : ∀ t k, Entry.For N (.push n) t k → t = N.time n ∧ k = N.key n := by
    intro t k h
    cases h
    exact ⟨rfl, rfl⟩
  constructor
  case base =>
    intro t k hm
    exact h.base.le (mem_snoc_of_ne hm (by simp))
  case overlay => trivial
  case started =>
    intro e he t k hf
    rcases List.mem_append.mp he with hm | hm
    · exact List.mem_append_left _ (h.started e hm t k hf)
    · obtain rfl := List.mem_singleton.mp hm
      obtain ⟨rfl, rfl⟩ := hfor t k hf
      exact List.mem_append_left _ h.base.1
  case unique =>
    intro m m' hm hm' heq
    rcases hmem hm with hold | rfl
    · rcases hmem hm' with hold' | rfl
      · exact h.unique m m' hold hold' heq
      · exact absurd heq (hbefore hold).ne
    · rcases hmem hm' with hold' | rfl
      · exact absurd heq.symm (hbefore hold').ne
      · rfl
  case stack =>
    refine List.pairwise_cons.mpr ⟨fun m hm => ?_, h.stack⟩
    have hlt := hbefore (h.pushed m hm)
    exact ⟨hlt, hfits.inside m hm hlt⟩
  case pushed =>
    intro m hm
    rcases List.mem_cons.mp hm with rfl | hm
    · exact List.mem_append_right _ List.mem_cons_self
    · exact List.mem_append_left _ (h.pushed m hm)
  case popped =>
    exact fun m hm => List.mem_append_left _ (h.popped m (mem_snoc_of_ne hm (by simp)))
  case opened =>
    intro m hm
    rcases List.mem_cons.mp hm with rfl | hm
    · -- nothing was done for a later item yet
      refine ⟨fun hpop => ?_, fun e he t k hf hlt => ?_, fun k hrun => ?_⟩
      · exact (hbefore (h.popped m (mem_snoc_of_ne hpop (by simp)))).ne rfl
      · rcases List.mem_append.mp he with he | he
        · exact absurd hlt (h.base.le (h.started e he t k hf)).not_gt
        · obtain rfl := List.mem_singleton.mp he
          obtain ⟨rfl, -⟩ := hfor t k hf
          exact absurd rfl hlt.ne
      · exact h.base.2.2.2 k (mem_snoc_of_ne hrun (by simp))
    · refine (h.opened m hm).snoc (by simp) (fun t k hf hlt => ?_) (by simp)
      obtain ⟨rfl, rfl⟩ := hfor t k hf
      exact hfits.inside m hm hlt
  case closed =>
    intro m hm hs
    rw [List.mem_cons, not_or] at hs
    rcases hmem hm with hold | rfl
    · obtain ⟨before, after, hclosed, hset, hpast, hrest⟩ := h.closed m hold hs.2
      refine ⟨before, after ++ [.push n], hclosed.snoc (by simp) (fun t k hf hlt => ?_),
        hset.snoc (by simp) (by simp) (by simp), hpast.mono (by simp), fun m' hm' hlt => ?_⟩
      · obtain ⟨rfl, rfl⟩ := hfor t k hf
        exact hfits.outside m hold hs.2 hlt
      · rcases List.mem_cons.mp hm' with rfl | hm'
        · exact hfits.outside m hold hs.2 hlt
        · exact hrest m' hm' hlt
    · exact absurd rfl hs.1

theorem Kept.pop {n : ν} (h : Kept N below b .none (n :: s) l) (hleaves : b.Leaves N below n) :
    Kept N below b (.popped n) s (l ++ [.pop n]) := by
  have hn : .push n ∈ l := h.pushed n List.mem_cons_self
  obtain ⟨htop, hstack⟩ := List.pairwise_cons.mp h.stack
  have hpush : ∀ {m}, .push m ∈ l ++ [.pop n] → .push m ∈ l :=
    fun hm => mem_snoc_of_ne hm (by simp)
  have hne : ∀ m ∈ s, m ≠ n := by
    rintro m hm rfl
    exact (htop m hm).1.ne rfl
  have hns : n ∉ s := fun hm => hne n hm rfl
  have hfor : ∀ t k, Entry.For N (.pop n) t k → t = N.time n ∧ k = N.key n := by
    intro t k h
    cases h
    exact ⟨rfl, rfl⟩
  have hcons : ∀ {m}, m ≠ n → m ∉ s → m ∉ n :: s := by
    intro m hmn hms
    rw [List.mem_cons, not_or]
    exact ⟨hmn, hms⟩
  have hfits : Fits N below s l (N.time n) (N.key n) := by
    refine ⟨h.started _ hn _ _ (.push n), fun m hm _ => (htop m hm).2, fun m hm hs hlt => ?_⟩
    have hmn : m ≠ n := by
      rintro rfl
      exact hlt.ne rfl
    obtain ⟨_, _, -, -, -, hrest⟩ := h.closed m hm (hcons hmn hs)
    exact hrest n List.mem_cons_self hlt
  constructor
  case base => exact h.base.mono (by simp) (by simp) (by simp)
  case overlay => exact ⟨List.mem_append_left _ hn, hns, hfits.mono (by simp)⟩
  case started =>
    intro e he t k hf
    rcases List.mem_append.mp he with hm | hm
    · exact List.mem_append_left _ (h.started e hm t k hf)
    · obtain rfl := List.mem_singleton.mp hm
      obtain ⟨rfl, rfl⟩ := hfor t k hf
      exact List.mem_append_left _ hfits.started
  case unique => exact fun m m' hm hm' => h.unique m m' (hpush hm) (hpush hm')
  case stack => exact hstack
  case pushed => exact fun m hm => List.mem_append_left _ (h.pushed m (List.mem_cons_of_mem n hm))
  case popped =>
    intro m hm
    rcases List.mem_append.mp hm with hm | hm
    · exact List.mem_append_left _ (h.popped m hm)
    · obtain rfl := Entry.pop.inj (List.mem_singleton.mp hm)
      exact List.mem_append_left _ hn
  case opened =>
    intro m hm
    refine (h.opened m (List.mem_cons_of_mem n hm)).snoc ?_ (fun t k hf hlt => ?_) (by simp)
    · exact fun heq => hne m hm (Entry.pop.inj heq).symm
    · obtain ⟨rfl, rfl⟩ := hfor t k hf
      exact hfits.inside m hm hlt
  case closed =>
    intro m hm' hs
    have hm := hpush hm'
    clear hm'
    by_cases heq : m = n
    · subst heq
      have hopen := h.opened m List.mem_cons_self
      refine ⟨l, [], ⟨rfl, hm, hopen.notPopped, List.not_mem_nil, hopen.inside, by simp,
        hopen.notRun⟩, .inl ⟨rfl, rfl⟩, ?_, fun m' hm' hlt => ?_⟩
      · cases b with
        | idle m => exact hleaves.elim
        | live t k =>
          exact .inr ⟨t, k, List.mem_append_left _ h.base.1, h.base.2.2.1 m hm, hleaves⟩
        | ended => exact .inl rfl
      · exact absurd hlt (htop m' hm').1.not_gt
    · obtain ⟨before, after, hclosed, hset, hpast, hrest⟩ := h.closed m hm (hcons heq hs)
      refine ⟨before, after ++ [.pop n], hclosed.snoc ?_ (fun t k hf hlt => ?_),
        hset.snoc (by simp) ?_ (by simp), hpast.mono id,
        fun m' hm' => hrest m' (List.mem_cons_of_mem n hm')⟩
      · exact fun h => heq (Entry.pop.inj h).symm
      · obtain ⟨rfl, rfl⟩ := hfor t k hf
        exact hfits.outside m hm hs hlt
      · exact fun h => heq (Overlay.popped.inj h).symm

/-! ## Whole logs -/

theorem Ascending.of_append {l' : List (Entry α ν)} (h : Ascending lt (l ++ l')) :
    Ascending lt l :=
  fun t k t' k' hm hm' => h t k t' k' (List.mem_append_left _ hm) (List.mem_append_left _ hm')

theorem Log.kept (h : Log N below b o s l) (hsub : Subtrees below lt) (hasc : Ascending lt l) :
    Kept N below b o s l := by
  induction h with
  | nil =>
    exact { base := by simp [Base.Ok], overlay := trivial, started := by simp, unique := by simp
            stack := .nil, pushed := by simp, popped := by simp, opened := by simp
            closed := by simp }
  | tick _ hle ih =>
    have h := ih hasc
    exact h.move (fun t k hm => (h.base t k hm).trans hle) (by simp)
      fun n after _ _ hset => hset.deferred (by simp)
  | other _ hne ih =>
    have h := ih hasc.of_append
    refine h.snoc (h.base.mono (by simp) (by simp) (by simp)) (h.overlay.mono (by simp)) (by simp)
      (by simp) ?_ id (fun n after _ _ hset => hset.snoc (hne n) (hne n) (by simp)) (by simp)
    intro t k hf
    cases hf
  | @start m t k s l _ hlt ih =>
    have h := ih hasc.of_append
    have hbefore : ∀ {t' k'}, .start t' k' ∈ l → t' < t := fun hm => (h.base _ _ hm).trans_lt hlt
    refine h.snoc ⟨List.mem_append_right _ List.mem_cons_self, fun t' k' hm => ?_,
      fun n hn => ?_, fun k' hrun => ?_⟩ trivial (by simp) (by simp) ?_ (by simp)
      (fun n after _ _ hset => hset.snoc (by simp) (by simp) (by simp)) (by simp)
    · rcases List.mem_append.mp hm with hm | hm
      · exact .inr (hbefore hm)
      · obtain ⟨rfl, rfl⟩ := Entry.start.inj (List.mem_singleton.mp hm)
        exact .inl ⟨rfl, rfl⟩
    · exact hbefore (h.started _ (mem_snoc_of_ne hn (by simp)) _ _ (.push n))
    · exact (hbefore (h.started _ (mem_snoc_of_ne hrun (by simp)) _ _ (.run t k'))).ne rfl
    · intro t' k' hf
      cases hf
  | rest _ ih =>
    have h := ih hasc
    exact h.move (fun t' k' hm => h.base.le hm) (by simp)
      fun n after _ _ hset => hset.deferred (by simp)
  | act _ htop ih =>
    have h := ih hasc.of_append
    have hfits := h.fits hsub hasc.of_append htop
    refine h.snoc (h.base.mono (by simp) (by simp) (by simp)) trivial (by simp) (by simp) ?_ id
      (fun n after _ _ hset => hset.snoc (by simp) (by simp) (by simp)) (by simp)
    rintro _ _ ⟨⟩
    exact hfits
  | @run t k s l _ htop ih =>
    have h := ih hasc.of_append
    have hfits := h.fits hsub hasc.of_append htop
    -- no node was put on the stack for this item
    have hne : ∀ n, .push n ∈ l → ∀ k', (.run t k : Entry α ν) ≠ .run (N.time n) k' := by
      intro n hn k' heq
      exact (h.base.2.2.1 n hn).ne (Entry.run.inj heq).1.symm
    refine h.snoc (fun t' k' hm => h.base.le (mem_snoc_of_ne hm (by simp)))
      (Fits.mono hfits (by simp)) (by simp) (by simp) ?_ (by simp)
      (fun n after hn _ hset => hset.snoc (by simp) (by simp) (hne n hn))
      fun n hn => hne n (h.pushed n hn)
    rintro _ _ ⟨⟩
    exact hfits
  | push _ htop ih =>
    have h := ih hasc.of_append
    exact h.push (h.fits hsub hasc.of_append htop)
  | pop _ hleaves ih => exact (ih hasc.of_append).pop hleaves
  | @drop n b s l _ hdeferred ih =>
    have h := ih hasc
    refine h.move h.base id fun m after _ _ hset => ?_
    rcases hset with ⟨heq, rfl⟩ | hset
    · obtain rfl := Overlay.popped.inj heq
      simp [Deferred, hdeferred]
    · exact hset.2
  | @runLate n b s l _ hdeferred ih =>
    have h := ih hasc.of_append
    obtain ⟨hn, hns, hfits⟩ := h.overlay
    have hne : ∀ m, .push m ∈ l → m ≠ n → ∀ k,
        (.run (N.time n) (N.key n) : Entry α ν) ≠ .run (N.time m) k :=
      fun m hm hmn k heq => hmn (h.unique m n hm hn (Entry.run.inj heq).1.symm)
    refine h.snoc (h.base.mono (by simp) (by simp) fun t k heq => ⟨n, hn, (Entry.run.inj heq).1⟩)
      (Fits.mono hfits (by simp)) (by simp) (by simp) ?_ id (fun m after hm _ hset => ?_)
      fun m hm => hne m (h.pushed m hm) ?_
    · rintro _ _ ⟨⟩
      exact hfits
    · rcases hset with ⟨heq, rfl⟩ | ⟨hmn, hset⟩
      · obtain rfl := Overlay.popped.inj heq
        exact .inr ⟨by simp, by simp [Deferred, hdeferred]⟩
      · exact .inr ⟨by simp, hset.snoc (hne m hm fun heq => hmn (by rw [heq]))⟩
    · rintro rfl
      exact hns hm
  | actLate _ ih =>
    have h := ih hasc.of_append
    refine h.snoc (h.base.mono (by simp) (by simp) (by simp)) (h.overlay.mono (by simp)) (by simp)
      (by simp) ?_ id (fun n after _ _ hset => hset.snoc (by simp) (by simp) (by simp)) (by simp)
    rintro _ _ ⟨⟩
    exact h.overlay
  | back _ ih =>
    have h := ih hasc
    exact h.move h.base id fun n after _ _ hset => hset.deferred (by simp)
  | finish _ ih =>
    have h := ih hasc
    exact h.move trivial (by simp) fun n after _ _ hset => hset.deferred (by simp)

/-- The stack behind an entry, and behind a log. -/
def Entry.stack (s : List ν) : Entry α ν → List ν
  | push n => n :: s
  | pop _ => s.tail
  | _ => s

def pending (l : List (Entry α ν)) : List ν := l.foldl Entry.stack []

theorem Log.pending_eq (h : Log N below b o s l) : pending l = s := by
  have hsnoc : ∀ (l : List (Entry α ν)) (e : Entry α ν),
      pending (l ++ [e]) = e.stack (pending l) := by
    intro l e
    rw [pending, List.foldl_append]
    rfl
  induction h with
  | nil => rfl
  | tick _ _ ih => exact ih
  | rest _ ih => exact ih
  | drop _ _ ih => exact ih
  | back _ ih => exact ih
  | finish _ ih => exact ih
  | other _ _ ih => rw [hsnoc, ih]; rfl
  | start _ _ ih => rw [hsnoc, ih]; rfl
  | act _ _ ih => rw [hsnoc, ih]; rfl
  | run _ _ ih => rw [hsnoc, ih]; rfl
  | push _ _ ih => rw [hsnoc, ih]; rfl
  | pop _ _ ih => rw [hsnoc, ih]; rfl
  | runLate _ _ ih => rw [hsnoc, ih]; rfl
  | actLate _ ih => rw [hsnoc, ih]; rfl

/-- What was logged up to some point is a log. -/
theorem Log.of_prefix (h : Log N below b o s l) {l' : List (Entry α ν)} (hl : l' <+: l) :
    ∃ b' o' s', Log N below b' o' s' l' := by
  have hsnoc : ∀ {l : List (Entry α ν)} {e : Entry α ν} {b o s}, Log N below b o s (l ++ [e]) →
      (l' <+: l → ∃ b' o' s', Log N below b' o' s' l') → l' <+: l ++ [e] →
      ∃ b' o' s', Log N below b' o' s' l' := by
    intro l e b o s hlog ih hl
    rcases List.prefix_concat_iff.mp hl with rfl | hl
    · exact ⟨b, o, s, hlog⟩
    · exact ih hl
  induction h with
  | nil =>
    obtain rfl := List.prefix_nil.mp hl
    exact ⟨_, _, _, Log.nil⟩
  | tick _ _ ih => exact ih hl
  | rest _ ih => exact ih hl
  | drop _ _ ih => exact ih hl
  | back _ ih => exact ih hl
  | finish _ ih => exact ih hl
  | other h hne ih => exact hsnoc (h.other hne) ih hl
  | start h hlt ih => exact hsnoc (h.start hlt) ih hl
  | act h htop ih => exact hsnoc (h.act htop) ih hl
  | run h htop ih => exact hsnoc (h.run htop) ih hl
  | push h htop ih => exact hsnoc (h.push htop) ih hl
  | pop h hleaves ih => exact hsnoc (h.pop hleaves) ih hl
  | runLate h hdeferred ih => exact hsnoc (h.runLate hdeferred) ih hl
  | actLate h ih => exact hsnoc h.actLate ih hl

/-- The stack is a chain at every place: each node is inside of the next one, and came
behind it. -/
theorem Log.chain (h : Log N below b o s l) (hsub : Subtrees below lt) (hasc : Ascending lt l)
    {l' : List (Entry α ν)} (hl : l' <+: l) :
    (pending l').Pairwise fun n m => below (N.key n) (N.key m) ∧ lt (N.key m) (N.key n) := by
  obtain ⟨b', o', s', hlog⟩ := h.of_prefix hl
  obtain ⟨rest, rfl⟩ := hl
  have hkept := hlog.kept hsub hasc.of_append
  rw [hlog.pending_eq]
  refine hkept.stack.imp_of_mem fun hn hm hlt => ⟨hlt.2, ?_⟩
  exact hkept.key_lt hasc.of_append (hkept.pushed _ hm)
    (hkept.started _ (hkept.pushed _ hn) _ _ (.push _)) hlt.1

/-- Behind the end every node was taken off once, in its place. -/
theorem Log.removed (h : Log N below .ended .none [] l) (hsub : Subtrees below lt)
    (hasc : Ascending lt l) {n : ν} (hn : .push n ∈ l) :
    ∃ before after, Closed N below l n before after ∧ Deferred N n after := by
  obtain ⟨before, after, hclosed, hset, -⟩ := (h.kept hsub hasc).closed n hn List.not_mem_nil
  exact ⟨before, after, hclosed, hset.deferred (by simp)⟩

/-! ## The order of the items -/

/-- The items of a log, with their numbers. -/
def Entry.item : Entry α ν → Option (ℕ × α)
  | start t k => some (t, k)
  | _ => Option.none

def items (l : List (Entry α ν)) : List (ℕ × α) := l.filterMap Entry.item

theorem mem_items {t : ℕ} {k : α} : (t, k) ∈ items l ↔ .start t k ∈ l := by
  rw [items, List.mem_filterMap]
  constructor
  · intro ⟨e, he, hitem⟩
    cases e with
    | start t' k' =>
      obtain ⟨rfl, rfl⟩ := Prod.mk.inj (Option.some.inj hitem)
      exact he
    | _ => cases hitem
  · exact fun h => ⟨_, h, rfl⟩

/-- The greatest number an item has here. -/
def Base.Bounds (l : List (Entry α ν)) : Base α → Prop
  | idle m => ∀ x ∈ items l, x.1 ≤ m
  | live t _ => ∀ x ∈ items l, x.1 ≤ t
  | ended => True

/-- The numbers of the items ascend. -/
theorem Log.items_pairwise (h : Log N below b o s l) :
    b.Bounds l ∧ (items l).Pairwise fun x y => x.1 < y.1 := by
  have hsnoc : ∀ (l : List (Entry α ν)) {e : Entry α ν}, e.item = Option.none →
      items (l ++ [e]) = items l := by
    intro l e he
    simp [items, he]
  have hkeep : ∀ {b : Base α} {l : List (Entry α ν)} {e : Entry α ν}, e.item = Option.none →
      (b.Bounds l ∧ (items l).Pairwise fun x y => x.1 < y.1) →
      b.Bounds (l ++ [e]) ∧ (items (l ++ [e])).Pairwise fun x y => x.1 < y.1 := by
    intro b l e he ih
    rw [hsnoc l he]
    refine ⟨?_, ih.2⟩
    cases b with
    | ended => trivial
    | _ =>
      have hb := ih.1
      rw [Base.Bounds, ← hsnoc l he] at hb
      exact hb
  induction h with
  | nil => exact ⟨by simp [Base.Bounds, items], .nil⟩
  | tick _ hle ih => exact ⟨fun x hx => (ih.1 x hx).trans hle, ih.2⟩
  | rest _ ih => exact ih
  | drop _ _ ih => exact ih
  | back _ ih => exact ih
  | finish _ ih => exact ⟨trivial, ih.2⟩
  | other _ _ ih => exact hkeep rfl ih
  | act _ _ ih => exact hkeep rfl ih
  | run _ _ ih => exact hkeep (b := .idle _) rfl ih
  | push _ _ ih => exact hkeep (b := .idle _) rfl ih
  | pop _ _ ih => exact hkeep rfl ih
  | runLate _ _ ih => exact hkeep rfl ih
  | actLate _ ih => exact hkeep rfl ih
  | @start m t k s l _ hlt ih =>
    have hitems : items (l ++ [.start t k]) = items l ++ [(t, k)] := by simp [items, Entry.item]
    have hbelow : ∀ x ∈ items l, x.1 < t := fun x hx => (ih.1 x hx).trans_lt hlt
    constructor
    · intro x hx
      rw [hitems] at hx
      rcases List.mem_append.mp hx with hx | hx
      · exact (hbelow x hx).le
      · rw [List.mem_singleton.mp hx]
    · rw [hitems, List.pairwise_append]
      refine ⟨ih.2, List.pairwise_singleton _ _, fun x hx y hy => ?_⟩
      rw [List.mem_singleton.mp hy]
      exact hbelow x hx

/-- Keys that ascend in the order of the log ascend with the numbers. -/
theorem Log.ascending (h : Log N below b o s l)
    (hlt : (items l).Pairwise fun x y => lt x.2 y.2) : Ascending lt l := by
  intro t k t' k' hm hm' ht
  rw [← mem_items] at hm hm'
  have hboth := h.items_pairwise.2.and hlt
  generalize items l = xs at hm hm' hboth
  induction xs with
  | nil => cases hm
  | cons x xs ih =>
    obtain ⟨hx, hxs⟩ := List.pairwise_cons.mp hboth
    rcases List.mem_cons.mp hm with rfl | hrest
    · rcases List.mem_cons.mp hm' with heq | hrest'
      · exact absurd (Prod.mk.inj heq).1 ht.ne'
      · exact (hx _ hrest').2
    · rcases List.mem_cons.mp hm' with rfl | hrest'
      · exact absurd ht (hx _ hrest).1.not_gt
      · exact ih hrest hrest' hxs

end PendingStack
