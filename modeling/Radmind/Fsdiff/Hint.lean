import Radmind.Fsdiff.Order
import Radmind.Lib.LinkedChain

/-!
# The hint of the insertion

`fs_insert` on the nodes themselves does what it does on the sequence of the entries.  It may start
behind the entry inserted last, and still puts each entry where it would put it from the head.
-/

namespace Radmind

open LinkedChain (Chain Slot slotAfter)

/-- The answers of `malloc`, by the number of the call.  What it gives is not in use. -/
abbrev FsMalloc :=
  Nat → (nodes : Nat → Option (LinkedChain.Node FsList)) → Option { a : Nat // nodes a = none }

/-- Where the nodes of `fs_insert` are looked at first. -/
def startSlot (cmp : CStr → CStr → Int) (chain : Chain FsList) (last : Option Nat) (name : CStr) :
    Option Slot :=
  match last with
  | none => some .head
  | some a =>
    match chain.nodes a with
    | none => none
    | some n => if 0 < cmp name n.value.flName then some (.next a) else some .head

/-- `fs_insert`, in a directory of which `count` entries were read.  No result stands for a link
that leads nowhere, and no node for NULL. -/
def linkFsInsert (cmp : CStr → CStr → Int) (malloc : FsMalloc) (strdup : Nat → Bool) (count : Nat)
    (chain : Chain FsList) (last : Option Nat) (new : FsList) : Option (Option Nat × Chain FsList) :=
  match startSlot cmp chain last new.flName with
  | none => none
  | some current =>
    match LinkedChain.search (fun fl => cmp new.flName fl.flName ≤ 0) chain count current with
    | none => none
    | some current =>
      match malloc count chain.nodes with
      | none => some (none, chain)
      | some a =>
        if strdup count then
          match chain.get current with
          | none => none
          | some next => some (some a, (chain.addNode a ⟨new, next⟩).set (some a) current)
        else some (none, chain)

/-- The variables `head`, `new` and `count` of `fs_walk`. -/
structure LinkedRead where
  chain : Chain FsList
  new : Option Nat
  count : Nat

def LinkedRead.start (nodes : Nat → Option (LinkedChain.Node FsList)) : LinkedRead :=
  ⟨⟨nodes, none⟩, none, 0⟩

/-- What ends the loop.  `dangling` stands for a use of a link that leads nowhere. -/
inductive LinkedReadExit
  | malloc
  | dangling

/-- The loop of `fs_walk` over what `readdir` gives.  Without the hint each entry is looked for from
the head on. -/
def linkRead (hint : Bool) (cmp : CStr → CStr → Int) (malloc : FsMalloc) (strdup : Nat → Bool) :
    List FsList → LinkedRead → Except LinkedReadExit LinkedRead
  | [], st => .ok st
  | fl :: entries, st =>
    match linkFsInsert cmp malloc strdup (st.count + 1) st.chain (if hint then st.new else none) fl with
    | none => .error .dangling
    | some (none, _) => .error .malloc
    | some (some new, chain) => linkRead hint cmp malloc strdup entries ⟨chain, some new, st.count + 1⟩

/-- The entries of the cells. -/
def cellEntries (cells : List (Nat × FsList)) : List FsList := cells.map Prod.snd

/-- A node and the place of its entry in the list. -/
inductive LastAt (cells : List (Nat × FsList)) : Option Nat → Option Nat → Prop
  | nowhere : LastAt cells none none
  | at_cell {before after : List (Nat × FsList)} {c : Nat × FsList}
      (hcells : cells = before ++ c :: after) : LastAt cells (some c.1) (some before.length)

section

variable {chain : Chain FsList} {cells : List (Nat × FsList)} {last i : Option Nat}

theorem startSlot_eq (cmp : CStr → CStr → Int) (h : LinkedChain.Holds chain cells) (hlast : LastAt cells last i) (name : CStr) :
    ∃ xs ys, cells = xs ++ ys ∧ startSlot cmp chain last name = some (slotAfter xs) ∧
      insertStart cmp (cellEntries cells) i name = xs.length := by
  cases hlast with
  | nowhere => exact ⟨[], cells, rfl, rfl, rfl⟩
  | @at_cell before after c hcells =>
    subst hcells
    obtain ⟨-, -, -, next, hc, -⟩ := LinkedChain.path_append.mp h.path
    have hget : (cellEntries (before ++ c :: after))[before.length]? = some c.2 := by
      rw [cellEntries, List.getElem?_map, List.getElem?_append_right (Nat.le_refl _), Nat.sub_self]
      rfl
    have hstart : startSlot cmp chain (some c.1) name =
        if 0 < cmp name c.2.flName then some (.next c.1) else some .head := by
      rw [startSlot, hc]
    rw [hstart]
    simp only [insertStart, hget]
    by_cases hpos : 0 < cmp name c.2.flName
    · refine ⟨before ++ [c], after, by simp, ?_, ?_⟩
      · rw [if_pos hpos, LinkedChain.slotAfter_concat]
      · rw [if_pos hpos, List.length_append, List.length_singleton]
    · exact ⟨[], _, rfl, if_neg hpos, if_neg hpos⟩

/-- The nodes do what the sequence of the entries does. -/
theorem linkFsInsert_refines (cmp : CStr → CStr → Int) (malloc : FsMalloc) (strdup : Nat → Bool)
    (h : LinkedChain.Holds chain cells) (hlast : LastAt cells last i) {count : Nat}
    (hcount : cells.length < count) (new : FsList) :
    linkFsInsert cmp malloc strdup count chain last new = some (none, chain) ∨
      ∃ a chain' cells', linkFsInsert cmp malloc strdup count chain last new = some (some a, chain') ∧
        LinkedChain.Holds chain' cells' ∧ cellEntries cells' = (fsInsert cmp (cellEntries cells) i new).1 ∧
        LastAt cells' (some a) (some (fsInsert cmp (cellEntries cells) i new).2) := by
  obtain ⟨xs, ys, rfl, hstart, hplace⟩ := startSlot_eq cmp h hlast new.flName
  have hys : ys.length < count := by
    rw [List.length_append] at hcount
    omega
  have hsearch := h.search (fun fl => decide (cmp new.flName fl.flName ≤ 0)) hys
  have hsplit := List.takeWhile_append_dropWhile (l := ys)
    (p := fun c => !decide (cmp new.flName c.2.flName ≤ 0))
  have hbefore : (cellEntries ys).takeWhile (fun fl => decide (0 < cmp new.flName fl.flName)) =
      cellEntries (ys.takeWhile fun c => !decide (cmp new.flName c.2.flName ≤ 0)) := by
    rw [cellEntries, List.takeWhile_map]
    refine congrArg (fun p => cellEntries (ys.takeWhile p)) (funext fun c => ?_)
    simp only [Function.comp_apply, ← decide_not, not_le]
  generalize ys.takeWhile (fun c => !decide (cmp new.flName c.2.flName ≤ 0)) = before at *
  generalize ys.dropWhile (fun c => !decide (cmp new.flName c.2.flName ≤ 0)) = after at *
  have hinsert : fsInsert cmp (cellEntries (xs ++ ys)) i new =
      (cellEntries (xs ++ before) ++ new :: cellEntries after, (xs ++ before).length) := by
    have hdrop : (cellEntries (xs ++ ys)).drop xs.length = cellEntries ys := by
      rw [cellEntries, List.map_append, List.drop_left' (List.length_map _)]
      rfl
    have hcells : cellEntries (xs ++ ys) = cellEntries (xs ++ before) ++ cellEntries after := by
      rw [← hsplit, ← List.append_assoc, cellEntries, List.map_append]
      rfl
    have hlen : xs.length + (cellEntries before).length = (cellEntries (xs ++ before)).length := by
      rw [cellEntries, cellEntries, List.length_map, List.length_map, List.length_append]
    rw [fsInsert, hplace]
    simp only [hdrop, hbefore]
    rw [hlen, hcells, List.take_left, List.drop_left, cellEntries, List.length_map]
  rw [hinsert]
  subst hsplit
  rw [← List.append_assoc] at h
  unfold linkFsInsert
  rw [hstart]
  simp only [hsearch]
  cases malloc count chain.nodes with
  | none => exact Or.inl rfl
  | some a =>
    by_cases hdup : strdup count = true
    · simp only [hdup, if_true, h.get]
      refine Or.inr ⟨a, _, _, rfl, h.insert a.2 new, ?_, LastAt.at_cell rfl⟩
      rw [cellEntries, List.map_append]
      rfl
    · simp only [hdup]
      exact Or.inl rfl

end

/-! ## Sorted insertion -/

/-- The comparison orders the names, up to names that are equal in it. -/
structure PreordersOn (cmp : CStr → CStr → Int) (names : List CStr) : Prop where
  total : ∀ x ∈ names, ∀ y ∈ names, cmp x y ≤ 0 ∨ cmp y x ≤ 0
  trans : ∀ x ∈ names, ∀ y ∈ names, ∀ z ∈ names, cmp x y ≤ 0 → cmp y z ≤ 0 → cmp x z ≤ 0

theorem PreordersOn.mono {cmp : CStr → CStr → Int} {names names' : List CStr}
    (h : PreordersOn cmp names) (hsub : names' ⊆ names) : PreordersOn cmp names' :=
  ⟨fun x hx y hy => h.total x (hsub hx) y (hsub hy),
    fun x hx y hy z hz => h.trans x (hsub hx) y (hsub hy) z (hsub hz)⟩

/-- No entry of the list comes after one behind it. -/
def FsAscending (cmp : CStr → CStr → Int) (head : List FsList) : Prop :=
  head.Pairwise fun x y => cmp x.flName y.flName ≤ 0

/-- The entry in front of the first one it does not come after. -/
def inOrder (cmp : CStr → CStr → Int) (head : List FsList) (new : FsList) : List FsList :=
  head.orderedInsert (fun x y => cmp x.flName y.flName ≤ 0) new

section

variable {cmp : CStr → CStr → Int} {head : List FsList} {new : FsList}

theorem inOrder_perm (cmp : CStr → CStr → Int) (head : List FsList) (new : FsList) :
    (inOrder cmp head new).Perm (new :: head) := List.perm_orderedInsert _ _ _

theorem FsAscending.inOrder (hcmp : PreordersOn cmp ((new :: head).map FsList.flName))
    (h : FsAscending cmp head) : FsAscending cmp (inOrder cmp head new) := by
  induction head with
  | nil => exact List.pairwise_singleton _ _
  | cons a head ih =>
    have hnew : new.flName ∈ (new :: a :: head).map FsList.flName := by simp
    have ha : a.flName ∈ (new :: a :: head).map FsList.flName := by simp
    have hrest : (new :: head).map FsList.flName ⊆ (new :: a :: head).map FsList.flName :=
      List.map_subset _ (List.cons_subset_cons new (List.subset_cons_self a head))
    obtain ⟨hfirst, hsorted⟩ := List.pairwise_cons.mp h
    by_cases hle : cmp new.flName a.flName ≤ 0
    · rw [Radmind.inOrder, List.orderedInsert_cons, if_pos hle]
      refine List.pairwise_cons.mpr ⟨fun b hb => ?_, h⟩
      rcases List.mem_cons.mp hb with rfl | hb
      · exact hle
      · refine hcmp.trans _ hnew _ ha _ ?_ hle (hfirst b hb)
        exact List.mem_map_of_mem (List.mem_cons_of_mem new (List.mem_cons_of_mem a hb))
    · rw [Radmind.inOrder, List.orderedInsert_cons, if_neg hle]
      refine List.pairwise_cons.mpr ⟨fun b hb => ?_, ih (hcmp.mono hrest) hsorted⟩
      rcases List.mem_cons.mp ((inOrder_perm cmp head new).mem_iff.mp hb) with rfl | hb
      · exact (hcmp.total _ hnew _ ha).resolve_left hle
      · exact hfirst b hb

/-- The entries before one the new entry comes after are passed over. -/
theorem FsAscending.takeWhile (hcmp : PreordersOn cmp ((new :: head).map FsList.flName))
    (h : FsAscending cmp head) {before after : List FsList} {last : FsList}
    (hhead : head = before ++ last :: after) (hlast : 0 < cmp new.flName last.flName) :
    ∀ fl ∈ before, 0 < cmp new.flName fl.flName := by
  intro fl hfl
  subst hhead
  have hnew : new.flName ∈ (new :: (before ++ last :: after)).map FsList.flName := by simp
  have hmem : ∀ x ∈ before ++ last :: after,
      x.flName ∈ (new :: (before ++ last :: after)).map FsList.flName :=
    fun x hx => List.mem_map_of_mem (List.mem_cons_of_mem new hx)
  have hle : cmp fl.flName last.flName ≤ 0 :=
    (List.pairwise_append.mp h).2.2 fl hfl last List.mem_cons_self
  by_contra hno
  have hback := hcmp.trans _ hnew _ (hmem fl (List.mem_append_left _ hfl)) _
    (hmem last (List.mem_append_right _ List.mem_cons_self)) (Int.not_lt.mp hno) hle
  omega

/-- Wherever `fs_insert` begins to look, the entry comes where it would from the head on. -/
theorem fsInsert_inOrder (hcmp : PreordersOn cmp ((new :: head).map FsList.flName))
    (h : FsAscending cmp head) (last : Option Nat) :
    (fsInsert cmp head last new).1 = inOrder cmp head new := by
  have hpassed : ∀ fl ∈ head.take (insertStart cmp head last new.flName),
      0 < cmp new.flName fl.flName := by
    unfold insertStart
    split
    · simp
    next i =>
    split
    · simp
    next last hi =>
    split
    · next hpos =>
      obtain ⟨hlt, rfl⟩ := List.getElem?_eq_some_iff.mp hi
      have hsplit : head = head.take i ++ head[i] :: head.drop (i + 1) := by
        rw [← List.drop_eq_getElem_cons, List.take_append_drop]
      intro fl hfl
      rw [← List.take_concat_get' _ _ hlt] at hfl
      rcases List.mem_append.mp hfl with hfl | hfl
      · exact h.takeWhile hcmp hsplit hpos fl hfl
      · rw [List.mem_singleton.mp hfl]
        exact hpos
    · simp
  have hle : (fun fl : FsList => decide (0 < cmp new.flName fl.flName)) =
      fun fl => decide ¬ cmp new.flName fl.flName ≤ 0 := by
    simp only [not_le]
  rw [fsInsert_eq, inOrder, List.orderedInsert_eq_take_drop]
  generalize insertStart cmp head last new.flName = current at hpassed ⊢
  have hsplit := List.take_append_drop current head
  generalize head.take current = skipped at hpassed hsplit ⊢
  generalize head.drop current = rest at hsplit ⊢
  subst hsplit
  have hall : ∀ fl ∈ skipped, decide (0 < cmp new.flName fl.flName) = true :=
    fun fl hfl => decide_eq_true (hpassed fl hfl)
  rw [← hle, List.takeWhile_append_of_pos hall, List.dropWhile_append_of_pos hall]

end

/-! ## The loop over a directory -/

section

variable {cmp : CStr → CStr → Int}

/-- The loop puts the entries into the order of the comparison one after the other, with the hint
and without. -/
theorem linkRead_inOrder (hint : Bool) (malloc : FsMalloc) (strdup : Nat → Bool)
    (news : List FsList) (st : LinkedRead)
    {cells : List (Nat × FsList)} {i : Option Nat} (h : LinkedChain.Holds st.chain cells)
    (hnew : LastAt cells st.new i) (hcount : st.count = cells.length)
    (hcmp : PreordersOn cmp ((news ++ cellEntries cells).map FsList.flName))
    (hs : FsAscending cmp (cellEntries cells)) :
    match linkRead hint cmp malloc strdup news st with
    | .error e => e = .malloc
    | .ok st' => ∃ cells', LinkedChain.Holds st'.chain cells' ∧
        cellEntries cells' = news.foldl (inOrder cmp) (cellEntries cells) ∧
        FsAscending cmp (cellEntries cells') := by
  induction news generalizing st cells i with
  | nil => exact ⟨cells, h, rfl, hs⟩
  | cons fl news ih =>
    have hlast : ∃ j, LastAt cells (if hint then st.new else none) j := by
      cases hint with
      | true => exact ⟨i, hnew⟩
      | false => exact ⟨none, LastAt.nowhere⟩
    obtain ⟨j, hlast⟩ := hlast
    have hfl : PreordersOn cmp ((fl :: cellEntries cells).map FsList.flName) :=
      hcmp.mono (List.map_subset _ (by simp))
    have hroom : cells.length < st.count + 1 := by omega
    rw [linkRead]
    rcases linkFsInsert_refines cmp malloc strdup h hlast hroom fl with
      hnull | ⟨a, chain, cells₁, hnode, h₁, hentries, hat⟩
    · rw [hnull]
    · rw [hnode]
      rw [fsInsert_inOrder hfl hs] at hentries
      have hperm : (cellEntries cells₁).Perm (fl :: cellEntries cells) := by
        rw [hentries]
        exact inOrder_perm cmp _ fl
      have hlen : cells₁.length = cells.length + 1 := by
        have := hperm.length_eq
        simpa only [cellEntries, List.length_map, List.length_cons] using this
      have hsorted : FsAscending cmp (cellEntries cells₁) := by
        rw [hentries]
        exact hs.inOrder hfl
      have hrest : PreordersOn cmp ((news ++ cellEntries cells₁).map FsList.flName) := by
        refine hcmp.mono (List.map_subset _ ?_)
        intro x hx
        rcases List.mem_append.mp hx with hx | hx
        · simp [hx]
        · have := hperm.mem_iff.mp hx
          grind
      rw [List.foldl_cons, ← hentries]
      have hcount₁ : st.count + 1 = cells₁.length := by rw [hcount, hlen]
      exact ih ⟨chain, some a, st.count + 1⟩ h₁ hat hcount₁ hrest hsorted

theorem foldl_inOrder_perm (cmp : CStr → CStr → Int) (news head : List FsList) :
    (news.foldl (inOrder cmp) head).Perm (news ++ head) := by
  induction news generalizing head with
  | nil => exact List.Perm.refl head
  | cons fl news ih =>
    refine (ih (inOrder cmp head fl)).trans (((inOrder_perm cmp head fl).append_left news).trans ?_)
    exact List.perm_middle

end

/-- The loop of `fs_walk` reads no link that leads nowhere; when it goes on, its list ascends and has
the names inserted so far, and it is the list that insertion from the head gives. -/
def HintSound (cmp : CStr → CStr → Int) (malloc : FsMalloc) (strdup : Nat → Bool)
    (nodes : Nat → Option (LinkedChain.Node FsList)) (news : List FsList) : Prop :=
  match linkRead true cmp malloc strdup news (.start nodes) with
  | .error e => e = .malloc
  | .ok st => ∃ cells, LinkedChain.Holds st.chain cells ∧
      (cells.map fun c => c.2.flName).Pairwise (fun x y => cmp x y ≤ 0) ∧
      (cells.map fun c => c.2.flName).Perm (news.map FsList.flName) ∧
      ∀ malloc' strdup' nodes' st',
        linkRead false cmp malloc' strdup' news (.start nodes') = .ok st' →
        ∃ cells', LinkedChain.Holds st'.chain cells' ∧
          (cells'.map fun c => c.2.flName) = cells.map fun c => c.2.flName

/-- For every order on the names and every sequence of entries the hint is sound. -/
theorem fs_insert_hint_sound {cmp : CStr → CStr → Int} {news : List FsList}
    (hcmp : PreordersOn cmp (news.map FsList.flName)) (malloc : FsMalloc) (strdup : Nat → Bool)
    (nodes : Nat → Option (LinkedChain.Node FsList)) : HintSound cmp malloc strdup nodes news := by
  unfold HintSound
  have hall : PreordersOn cmp ((news ++ cellEntries []).map FsList.flName) := by
    rw [cellEntries, List.map_nil, List.append_nil]
    exact hcmp
  have hhint := linkRead_inOrder true malloc strdup news (.start nodes)
    (LinkedChain.holds_empty nodes) LastAt.nowhere rfl hall List.Pairwise.nil
  cases hrun : linkRead true cmp malloc strdup news (.start nodes) with
  | error e =>
    rw [hrun] at hhint
    exact hhint
  | ok st =>
    rw [hrun] at hhint
    obtain ⟨cells, h, hentries, hs⟩ := hhint
    have hnames : ∀ cells : List (Nat × FsList),
        (cells.map fun c => c.2.flName) = (cellEntries cells).map FsList.flName := fun cells => by
      rw [cellEntries, List.map_map]
      rfl
    have hperm := foldl_inOrder_perm cmp news (cellEntries [])
    refine ⟨cells, h, ?_, ?_, fun malloc' strdup' nodes' st' hrun' => ?_⟩
    · rw [hnames]
      exact List.pairwise_map.mpr hs
    · rw [hnames, hentries]
      exact (hperm.trans (by rw [cellEntries, List.map_nil, List.append_nil])).map FsList.flName
    · have hhead := linkRead_inOrder false malloc' strdup' news (.start nodes')
        (LinkedChain.holds_empty nodes') LastAt.nowhere rfl hall List.Pairwise.nil
      rw [hrun'] at hhead
      obtain ⟨cells', h', hentries', -⟩ := hhead
      exact ⟨cells', h', by rw [hnames, hnames, hentries, hentries']⟩

/-- Names that arrive out of order, one of them twice. -/
def arrivals : List FsList :=
  [lit "b", lit "a", lit "c", lit "b"].map fun name => ⟨name, .gone []⟩

def nextFree : FsMalloc := fun n nodes => if h : nodes n = none then some ⟨n, h⟩ else none

theorem fs_insert_hint_sound_arrivals :
    HintSound strcmp nextFree (fun _ => true) (fun _ => none) arrivals :=
  fs_insert_hint_sound ⟨by decide, by decide⟩ nextFree (fun _ => true) fun _ => none

end Radmind
