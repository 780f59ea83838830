import Mathlib.Logic.Function.Basic
import Mathlib.Data.List.Basic

/-!
# A tree that is shared

Actors make directories and create files in one tree, each only where there is nothing yet.
A file stays with the actor that created it until the actor is done with it: no other actor
has a descriptor of it.
-/

namespace ExclusiveTree

variable {ι L B : Type}

/-- Directories and files by their places.  A file has a number, and its content goes by
that. -/
structure Tree (ι L B : Type) where
  dirs : L → Bool
  file : L → Option Nat
  content : Nat → List B
  fds : ι → Nat → Option Nat
  next : Nat

namespace Tree

variable (t : Tree ι L B)

/-- There is nothing at this place. -/
def free (l : L) : Bool := !t.dirs l && (t.file l).isNone

def mkdir [DecidableEq L] (l : L) : Option (Tree ι L B) :=
  if t.free l then some { t with dirs := Function.update t.dirs l true } else none

/-- A new file, with a descriptor for the actor. -/
def create [DecidableEq ι] [DecidableEq L] (i : ι) (l : L) (fd : Nat) : Option (Tree ι L B) :=
  if t.free l then
    some { t with
      file := Function.update t.file l (some t.next)
      content := Function.update t.content t.next []
      fds := Function.update t.fds i (Function.update (t.fds i) fd (some t.next))
      next := t.next + 1 }
  else none

def append (i : ι) (fd : Nat) (bytes : List B) : Option (Tree ι L B) :=
  (t.fds i fd).map fun k =>
    { t with content := Function.update t.content k (t.content k ++ bytes) }

def close [DecidableEq ι] (i : ι) (fd : Nat) : Tree ι L B :=
  { t with fds := Function.update t.fds i (Function.update (t.fds i) fd none) }

def unlink [DecidableEq L] (l : L) : Option (Tree ι L B) :=
  if (t.file l).isSome then some { t with file := Function.update t.file l none } else none

end Tree

/-- A file that an actor works on, with its descriptor and its content as far as these are
still of use. -/
structure Holding (L B : Type) where
  place : L
  fd : Option Nat
  data : Option (List B)

/-- The file of a holding is in the tree, with a number from `n` on. -/
def Holding.Present (t : Tree ι L B) (n : Nat) (i : ι) (h : Holding L B) : Prop :=
  ∃ k, n ≤ k ∧ t.file h.place = some k ∧ (∀ fd, h.fd = some fd → t.fds i fd = some k) ∧
    ∀ data, h.data = some data → t.content k = data

/-- A file that is done, with its content. -/
def Present (t : Tree ι L B) (n : Nat) (l : L) (data : List B) : Prop :=
  ∃ k, n ≤ k ∧ t.file l = some k ∧ t.content k = data

/-- Every file is held by one actor at most, and by none when it is done.  The files up to
the number `n` are older. -/
structure Sound (t : Tree ι L B) (n : Nat) (held : ι → Option (Holding L B))
    (kept : L → List B → Prop) : Prop where
  bound : n ≤ t.next
  ids : ∀ l k, t.file l = some k → k < t.next
  inj : ∀ l l' k, n ≤ k → t.file l = some k → t.file l' = some k → l = l'
  ofHeld : ∀ i h, held i = some h → h.Present t n i
  alone : ∀ i j h h', held i = some h → held j = some h' → h.place = h'.place → i = j
  ofKept : ∀ l data, kept l data → Present t n l data
  apart : ∀ l data i h, kept l data → held i = some h → h.place ≠ l

section

variable {t t' : Tree ι L B} {n : Nat} {held : ι → Option (Holding L B)}
  {kept kept' : L → List B → Prop} {i : ι} {x : Option (Holding L B)}

/-- What one actor does to its own file is nothing to the others. -/
theorem Sound.act [DecidableEq ι] (h : Sound t n held kept) (hbound : n ≤ t'.next)
    (hids : ∀ l k, t'.file l = some k → k < t'.next)
    (hinj : ∀ l l' k, n ≤ k → t'.file l = some k → t'.file l' = some k → l = l')
    (hfds : ∀ j, j ≠ i → t'.fds j = t.fds j)
    (hframe : ∀ l k, n ≤ k → t.file l = some k → (∀ own, held i = some own → own.place ≠ l) →
      t'.file l = some k ∧ t'.content k = t.content k)
    (hnew : ∀ own, x = some own → own.Present t' n i ∧
      (t.file own.place = none ∨ ∃ old, held i = some old ∧ old.place = own.place))
    (hkept : ∀ l data, kept' l data → kept l data ∨
      x = none ∧ Present t' n l data ∧ ∃ old, held i = some old ∧ old.place = l) :
    Sound t' n (Function.update held i x) kept' := by
  -- the place of a new holding is free, or was held by the same actor
  have hother : ∀ own j h', x = some own → j ≠ i → held j = some h' → own.place ≠ h'.place := by
    intro own j h' hx hj hh' heq
    rcases (hnew own hx).2 with hnone | ⟨old, hold, hplace⟩
    · obtain ⟨k, -, hfile, -⟩ := h.ofHeld j h' hh'
      rw [heq, hfile] at hnone
      cases hnone
    · exact hj (h.alone i j old h' hold hh' (hplace.trans heq)).symm
  refine ⟨hbound, hids, hinj, fun j h' hh' => ?_, fun j j' h' h'' hh' hh'' hplace => ?_,
    fun l data hl => ?_, fun l data j h' hl hh' => ?_⟩
  · by_cases hj : j = i
    · subst hj
      rw [Function.update_self] at hh'
      exact (hnew h' hh').1
    · rw [Function.update_of_ne hj] at hh'
      obtain ⟨k, hn, hfile, hfd, hdata⟩ := h.ofHeld j h' hh'
      obtain ⟨hfile', hcontent⟩ := hframe _ k hn hfile fun own hown hplace =>
        hj (h.alone i j own h' hown hh' hplace).symm
      refine ⟨k, hn, hfile', fun fd hx => ?_, fun data hx => hcontent.trans (hdata data hx)⟩
      rw [hfds j hj]
      exact hfd fd hx
  · by_cases hj : j = i
    · by_cases hj' : j' = i
      · exact hj.trans hj'.symm
      · subst hj
        rw [Function.update_self] at hh'
        rw [Function.update_of_ne hj'] at hh''
        exact absurd hplace (hother h' j' h'' hh' hj' hh'')
    · rw [Function.update_of_ne hj] at hh'
      by_cases hj' : j' = i
      · subst hj'
        rw [Function.update_self] at hh''
        exact absurd hplace.symm (hother h'' j h' hh'' hj hh')
      · rw [Function.update_of_ne hj'] at hh''
        exact h.alone j j' h' h'' hh' hh'' hplace
  · rcases hkept l data hl with hold | ⟨-, hpresent, -⟩
    · obtain ⟨k, hn, hfile, hcontent⟩ := h.ofKept l data hold
      obtain ⟨hfile', hcontent'⟩ := hframe l k hn hfile fun own hown => h.apart l data i own hold hown
      exact ⟨k, hn, hfile', hcontent'.trans hcontent⟩
    · exact hpresent
  · by_cases hj : j = i
    · subst hj
      rw [Function.update_self] at hh'
      rcases hkept l data hl with hold | ⟨hnone, -⟩
      · rcases (hnew h' hh').2 with hfree | ⟨old, hown, hplace⟩
        · obtain ⟨k, -, hfile, -⟩ := h.ofKept l data hold
          intro heq
          rw [heq, hfile] at hfree
          cases hfree
        · rw [← hplace]
          exact h.apart l data j old hold hown
      · rw [hnone] at hh'
        cases hh'
    · rw [Function.update_of_ne hj] at hh'
      rcases hkept l data hl with hold | ⟨-, -, old, hown, hplace⟩
      · exact h.apart l data j h' hold hh'
      · intro heq
        exact hj (h.alone i j old h' hown hh' (hplace.trans heq.symm)).symm

/-- Less has to be kept. -/
theorem Sound.fewer (h : Sound t n held kept) (hsub : ∀ l data, kept' l data → kept l data) :
    Sound t n held kept' :=
  ⟨h.bound, h.ids, h.inj, h.ofHeld, h.alone, fun l data hl => h.ofKept l data (hsub l data hl),
    fun l data i own hl => h.apart l data i own (hsub l data hl)⟩

/-! ## Operations -/

theorem Present.of_holding {own : Holding L B} (h : own.Present t n i) {data : List B}
    (hdata : own.data = some data) : Present t n own.place data := by
  obtain ⟨k, hn, hfile, -, hcontent⟩ := h
  exact ⟨k, hn, hfile, hcontent data hdata⟩

/-- An actor goes on with less, or with nothing. -/
theorem Sound.weaken [DecidableEq ι] (h : Sound t n held kept)
    (hx : ∀ own, x = some own → ∃ old, held i = some old ∧ old.place = own.place ∧
      (∀ fd, own.fd = some fd → old.fd = some fd) ∧
        ∀ data, own.data = some data → old.data = some data) :
    Sound t n (Function.update held i x) kept := by
  refine h.act h.bound h.ids h.inj (fun _ _ => rfl) (fun _ _ _ hfile _ => ⟨hfile, rfl⟩)
    (fun own hown => ?_) fun _ _ hl => .inl hl
  obtain ⟨old, hold, hplace, hfd, hdata⟩ := hx own hown
  obtain ⟨k, hn, hfile, hfd', hdata'⟩ := h.ofHeld i old hold
  exact ⟨⟨k, hn, hplace ▸ hfile, fun fd hx => hfd' fd (hfd fd hx),
    fun data hx => hdata' data (hdata data hx)⟩, .inr ⟨old, hold, hplace⟩⟩

theorem Sound.drop [DecidableEq ι] (h : Sound t n held kept) : Sound t n (Function.update held i none) kept :=
  h.weaken fun _ hx => by cases hx

/-- A file is done. -/
theorem Sound.finish [DecidableEq ι] (h : Sound t n held kept) {own : Holding L B} (hown : held i = some own)
    {data : List B} (hdata : own.data = some data)
    (hkept : ∀ l d, kept' l d → kept l d ∨ l = own.place ∧ d = data) :
    Sound t n (Function.update held i none) kept' := by
  refine h.act h.bound h.ids h.inj (fun _ _ => rfl) (fun _ _ _ hfile _ => ⟨hfile, rfl⟩)
    (fun _ hx => by cases hx) fun l d hl => ?_
  refine (hkept l d hl).imp_right fun heq => ?_
  obtain ⟨rfl, rfl⟩ := heq
  exact ⟨rfl, Present.of_holding (h.ofHeld i own hown) hdata, own, hown, rfl⟩

theorem Sound.mkdir [DecidableEq L] (h : Sound t n held kept) {l : L} (ht : t.mkdir l = some t') :
    Sound t' n held kept := by
  unfold Tree.mkdir at ht
  split_ifs at ht
  obtain rfl := Option.some.inj ht
  exact ⟨h.bound, h.ids, h.inj, h.ofHeld, h.alone, h.ofKept, h.apart⟩

theorem Tree.file_of_free {l : L} (hfree : t.free l = true) : t.file l = none := by
  unfold Tree.free at hfree
  rw [Bool.and_eq_true] at hfree
  exact Option.isNone_iff_eq_none.mp hfree.2

theorem Sound.create [DecidableEq ι] [DecidableEq L] (h : Sound t n held kept) {l : L} {fd : Nat}
    (ht : t.create i l fd = some t') :
    Sound t' n (Function.update held i (some ⟨l, some fd, some []⟩)) kept := by
  unfold Tree.create at ht
  split_ifs at ht with hfree
  obtain rfl := Option.some.inj ht
  have hnone := Tree.file_of_free hfree
  -- where a file is in the new tree
  have hfile : ∀ l' k, Function.update t.file l (some t.next) l' = some k →
      l' = l ∧ k = t.next ∨ l' ≠ l ∧ t.file l' = some k := by
    intro l' k hk
    by_cases hl : l' = l
    · subst hl
      rw [Function.update_self] at hk
      exact .inl ⟨rfl, (Option.some.inj hk).symm⟩
    · rw [Function.update_of_ne hl] at hk
      exact .inr ⟨hl, hk⟩
  refine h.act (Nat.le_succ_of_le h.bound) (fun l' k hk => ?_) (fun l' l'' k hn hk hk' => ?_)
    (fun j hj => Function.update_of_ne hj _ _) (fun l' k hn hk _ => ⟨?_, ?_⟩) (fun own hown => ?_)
    fun _ _ hl => .inl hl
  · rcases hfile l' k hk with ⟨-, rfl⟩ | ⟨-, hold⟩
    · exact Nat.lt_succ_self _
    · exact Nat.lt_succ_of_lt (h.ids l' k hold)
  · rcases hfile l' k hk with ⟨rfl, rfl⟩ | ⟨hl, hold⟩
    · rcases hfile l'' _ hk' with ⟨rfl, -⟩ | ⟨-, hold'⟩
      · rfl
      · exact absurd (h.ids l'' _ hold') (Nat.lt_irrefl _)
    · rcases hfile l'' k hk' with ⟨-, rfl⟩ | ⟨-, hold'⟩
      · exact absurd (h.ids l' _ hold) (Nat.lt_irrefl _)
      · exact h.inj l' l'' k hn hold hold'
  · have hl : l' ≠ l := by
      rintro rfl
      rw [hnone] at hk
      cases hk
    show Function.update t.file l (some t.next) l' = some k
    rw [Function.update_of_ne hl]
    exact hk
  · exact Function.update_of_ne (Nat.ne_of_lt (h.ids l' k hk)) _ _
  · obtain rfl := Option.some.inj hown
    refine ⟨⟨t.next, h.bound, Function.update_self _ _ _, fun fd' hfd => ?_, fun data hdata => ?_⟩,
      .inl hnone⟩
    · obtain rfl := Option.some.inj hfd
      show Function.update t.fds i _ i fd = some t.next
      rw [Function.update_self, Function.update_self]
    · obtain rfl := Option.some.inj hdata
      exact Function.update_self _ _ _

/-- The holder writes to its file. -/
theorem Sound.append [DecidableEq ι] (h : Sound t n held kept) {l : L} {fd : Nat} {data bytes : List B}
    (hown : held i = some ⟨l, some fd, some data⟩) (ht : t.append i fd bytes = some t') :
    Sound t' n (Function.update held i (some ⟨l, some fd, some (data ++ bytes)⟩)) kept := by
  obtain ⟨k, hn, hfile, hfd, hdata⟩ := h.ofHeld i _ hown
  unfold Tree.append at ht
  rw [hfd fd rfl, Option.map_some, hdata data rfl] at ht
  obtain rfl := Option.some.inj ht
  refine h.act h.bound h.ids h.inj (fun _ _ => rfl) (fun l' k' hn' hk' hne => ⟨hk', ?_⟩)
    (fun own hx => ?_) fun _ _ hl => .inl hl
  · -- another place is another file
    refine Function.update_of_ne (fun hk => ?_) _ _
    subst hk
    exact hne _ hown (h.inj l l' k' hn hfile hk')
  · obtain rfl := Option.some.inj hx
    refine ⟨⟨k, hn, hfile, fun fd' hfd' => hfd fd' hfd', fun d hd => ?_⟩, .inr ⟨_, hown, rfl⟩⟩
    rw [← Option.some.inj hd]
    exact Function.update_self _ _ _

/-- The holder closes its file. -/
theorem Sound.close [DecidableEq ι] (h : Sound t n held kept) {own : Holding L B} (hown : held i = some own)
    (fd : Nat) :
    Sound (t.close i fd) n (Function.update held i (some { own with fd := none })) kept := by
  refine h.act h.bound h.ids h.inj (fun j hj => Function.update_of_ne hj _ _)
    (fun _ _ _ hfile _ => ⟨hfile, rfl⟩) (fun own' hx => ?_) fun _ _ hl => .inl hl
  obtain rfl := Option.some.inj hx
  obtain ⟨k, hn, hfile, -, hdata⟩ := h.ofHeld i own hown
  exact ⟨⟨k, hn, hfile, nofun, hdata⟩, .inr ⟨own, hown, rfl⟩⟩

/-- The holder removes its file. -/
theorem Sound.unlink [DecidableEq ι] [DecidableEq L] (h : Sound t n held kept) {own : Holding L B} (hown : held i = some own)
    (ht : t.unlink own.place = some t') : Sound t' n (Function.update held i none) kept := by
  unfold Tree.unlink at ht
  split_ifs at ht
  obtain rfl := Option.some.inj ht
  have hfile : ∀ l k, Function.update t.file own.place none l = some k → t.file l = some k := by
    intro l k hk
    by_cases hl : l = own.place
    · subst hl
      rw [Function.update_self] at hk
      cases hk
    · rwa [Function.update_of_ne hl] at hk
  refine h.act h.bound (fun l k hk => h.ids l k (hfile l k hk))
    (fun l l' k hn hk hk' => h.inj l l' k hn (hfile l k hk) (hfile l' k hk')) (fun _ _ => rfl)
    (fun l k _ hk hne => ⟨?_, rfl⟩) nofun fun _ _ hl => .inl hl
  show Function.update t.file own.place none l = some k
  rw [Function.update_of_ne fun heq => hne own hown heq.symm]
  exact hk

end

/-! ## Directories -/

/-- A directory is claimed by the actor that made it, until the actor announces it. -/
structure Claimed (t : Tree ι L B) (pending : ι → Option L) (told : L → Prop) : Prop where
  ofPending : ∀ i l, pending i = some l → t.dirs l = true
  ofTold : ∀ l, told l → t.dirs l = true
  alone : ∀ i j l, pending i = some l → pending j = some l → i = j
  apart : ∀ i l, pending i = some l → ¬ told l

section

variable {t t' : Tree ι L B} {pending : ι → Option L} {told told' : L → Prop} {i : ι}

/-- Directories stay. -/
theorem Claimed.grow (h : Claimed t pending told)
    (hdirs : ∀ l, t.dirs l = true → t'.dirs l = true) : Claimed t' pending told :=
  ⟨fun i l hl => hdirs l (h.ofPending i l hl), fun l hl => hdirs l (h.ofTold l hl), h.alone, h.apart⟩

theorem Claimed.fewer (h : Claimed t pending told) (hsub : ∀ l, told' l → told l) :
    Claimed t pending told' :=
  ⟨h.ofPending, fun l hl => h.ofTold l (hsub l hl), h.alone,
    fun i l hl htold => h.apart i l hl (hsub l htold)⟩

theorem Claimed.drop [DecidableEq ι] (h : Claimed t pending told) :
    Claimed t (Function.update pending i none) told := by
  have hsub : ∀ j l, Function.update pending i none j = some l → pending j = some l := by
    intro j l hl
    by_cases hj : j = i
    · subst hj
      rw [Function.update_self] at hl
      cases hl
    · rwa [Function.update_of_ne hj] at hl
  exact ⟨fun j l hl => h.ofPending j l (hsub j l hl), h.ofTold,
    fun j j' l hl hl' => h.alone j j' l (hsub j l hl) (hsub j' l hl'),
    fun j l hl => h.apart j l (hsub j l hl)⟩

theorem Tree.dirs_mkdir [DecidableEq L] {l : L} (ht : t.mkdir l = some t') :
    t'.dirs l = true ∧ t.dirs l = false ∧ ∀ l', t.dirs l' = true → t'.dirs l' = true := by
  unfold Tree.mkdir at ht
  split_ifs at ht with hfree
  obtain rfl := Option.some.inj ht
  unfold Tree.free at hfree
  rw [Bool.and_eq_true] at hfree
  refine ⟨Function.update_self _ _ _, by simpa using hfree.1, fun l' hl' => ?_⟩
  show Function.update t.dirs l true l' = true
  by_cases hl : l' = l
  · rw [hl, Function.update_self]
  · rw [Function.update_of_ne hl]
    exact hl'

theorem Claimed.mkdir [DecidableEq ι] [DecidableEq L] (h : Claimed t pending told) {l : L} (ht : t.mkdir l = some t') :
    Claimed t' (Function.update pending i (some l)) told := by
  have hnew : t'.dirs l = true := (Tree.dirs_mkdir ht).1
  have hold : t.dirs l = false := (Tree.dirs_mkdir ht).2.1
  have hkeep : ∀ l', t.dirs l' = true → t'.dirs l' = true := (Tree.dirs_mkdir ht).2.2
  have hother : ∀ j l', Function.update pending i (some l) j = some l' →
      j = i ∧ l' = l ∨ j ≠ i ∧ pending j = some l' := by
    intro j l' hl'
    by_cases hj : j = i
    · subst hj
      rw [Function.update_self] at hl'
      exact .inl ⟨rfl, (Option.some.inj hl').symm⟩
    · rw [Function.update_of_ne hj] at hl'
      exact .inr ⟨hj, hl'⟩
  -- nobody else has a directory that was not there
  have hfree : ∀ j, pending j ≠ some l := by
    intro j hj
    rw [h.ofPending j l hj] at hold
    cases hold
  refine ⟨fun j l' hl' => ?_, fun l' hl' => hkeep l' (h.ofTold l' hl'), fun j j' l' hl' hl'' => ?_,
    fun j l' hl' htold => ?_⟩
  · rcases hother j l' hl' with ⟨-, rfl⟩ | ⟨-, hj⟩
    · exact hnew
    · exact hkeep l' (h.ofPending j l' hj)
  · rcases hother j l' hl' with ⟨rfl, rfl⟩ | ⟨-, hj⟩
    · rcases hother j' l' hl'' with ⟨rfl, -⟩ | ⟨-, hj'⟩
      · rfl
      · exact absurd hj' (hfree j')
    · rcases hother j' l' hl'' with ⟨-, rfl⟩ | ⟨-, hj'⟩
      · exact absurd hj (hfree j)
      · exact h.alone j j' l' hj hj'
  · rcases hother j l' hl' with ⟨-, rfl⟩ | ⟨-, hj⟩
    · rw [h.ofTold l' htold] at hold
      cases hold
    · exact h.apart j l' hj htold

/-- An actor announces its directory. -/
theorem Claimed.tell [DecidableEq ι] (h : Claimed t pending told) {l : L} (hl : pending i = some l)
    (htold : ∀ l', told' l' → told l' ∨ l' = l) :
    Claimed t (Function.update pending i none) told' := by
  have hdrop := h.drop (i := i)
  refine ⟨hdrop.ofPending, fun l' hl' => ?_, hdrop.alone, fun j l' hj htold' => ?_⟩
  · rcases htold l' hl' with hold | rfl
    · exact h.ofTold l' hold
    · exact h.ofPending i l' hl
  · rcases htold l' htold' with hold | rfl
    · exact hdrop.apart j l' hj hold
    · by_cases hji : j = i
      · subst hji
        rw [Function.update_self] at hj
        cases hj
      · rw [Function.update_of_ne hji] at hj
        exact hji (h.alone j i l' hj hl)

end

end ExclusiveTree
