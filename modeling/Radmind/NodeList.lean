import Radmind.Lib.LinkedEnds
import Radmind.PathList

/-!
# The nodes of a list of paths

The operations of `list.c` on the nodes themselves.  They fail where they follow a link that leads
nowhere.  On a list whose links are whole they do what the operations on the sequence of its
paths do.
-/

namespace Radmind

open LinkedEnds (Ends poke)

/-- The answers of `malloc`, by the number of the call.  What it gives is not in use. -/
abbrev NodeMalloc :=
  Nat → (nodes : Nat → Option (LinkedNodes.Node CStr)) → Option { a : Nat // nodes a = none }

/-- A `struct list` with the memory it leads to, and the calls of `malloc` so far. -/
structure NodeList where
  list : Ends CStr
  mallocs : Nat

namespace NodeList

/-- `_list_create_node` -/
def createNode (malloc : NodeMalloc) (path : List Byte) (st : NodeList) : Option Nat × NodeList :=
  if strlen path ≥ maxPathLen then (none, st)
  else
    match malloc st.mallocs st.list.nodes with
    | none => (none, { st with mallocs := st.mallocs + 1 })
    | some a => (some a, ⟨st.list.create a (cstr path), st.mallocs + 1⟩)

/-- `list_new`, on memory in any state. -/
def listNew (nodes : Nat → Option (LinkedNodes.Node CStr)) : NodeList := ⟨Ends.empty nodes, 0⟩

/-- An insertion, with the links it sets. -/
def insertNode (malloc : NodeMalloc) (path : List Byte) (link : Ends CStr → Nat → Option (Ends CStr))
    (st : NodeList) : Option (Int × NodeList) :=
  match createNode malloc path st with
  | (none, st) => some (-1, st)
  | (some a, st) =>
    match link st.list a with
    | none => none
    | some list => some (0, { st with list := list })

/-- `list_insert_head` -/
def listInsertHead (malloc : NodeMalloc) (path : List Byte) (st : NodeList) :
    Option (Int × NodeList) := insertNode malloc path Ends.linkFront st

/-- `list_insert_tail` -/
def listInsertTail (malloc : NodeMalloc) (path : List Byte) (st : NodeList) :
    Option (Int × NodeList) := insertNode malloc path Ends.linkBack st

/-- The end of `list_insert_case`, between `cur` and the node before it. -/
def listInsertMiddle (malloc : NodeMalloc) (path : List Byte) (p cur : Nat) (st : NodeList) :
    Option (Int × NodeList) := insertNode malloc path (fun list a => list.linkBefore a p cur) st

/-- A number of steps that is enough for a walk along the list. -/
def steps (list : Ends CStr) : Nat := list.count.toNat + 1

/-- `list_insert_case` -/
def listInsertCase (malloc : NodeMalloc) (path : List Byte) (caseSensitive : Bool) (st : NodeList) :
    Option (Int × NodeList) :=
  match LinkedEnds.search (fun cur => pathcasecmp cur (cstr path) caseSensitive > 0) st.list.nodes
      (steps st.list) st.list.head with
  | none => none
  | some none => listInsertTail malloc path st
  | some (some cur) =>
    match st.list.nodes cur with
    | none => none
    | some n =>
      match n.prev with
      | none => listInsertHead malloc path st
      | some p => listInsertMiddle malloc path p cur st

/-- `list_insert` -/
def listInsert (malloc : NodeMalloc) (path : List Byte) (st : NodeList) : Option (Int × NodeList) :=
  listInsertCase malloc path true st

/-- `list_pop_head` -/
def listPopHead (list : Ends CStr) : Option (Option Nat × Ends CStr) := list.popFront

/-- `list_pop_tail` -/
def listPopTail (list : Ends CStr) : Option (Option Nat × Ends CStr) := list.popBack

/-- `free` -/
def freeNode (list : Ends CStr) (a : Nat) : Ends CStr :=
  { list with nodes := LinkedNodes.free list.nodes a }

/-- `list_remove_head` and `list_remove_tail`, on what the pop gives. -/
def freePopped : Option (Option Nat × Ends CStr) → Option (Ends CStr)
  | none => none
  | some (none, list) => some list
  | some (some a, list) => some (freeNode list a)

/-- `list_remove_head` -/
def listRemoveHead (list : Ends CStr) : Option (Ends CStr) := freePopped (listPopHead list)

/-- `list_remove_tail` -/
def listRemoveTail (list : Ends CStr) : Option (Ends CStr) := freePopped (listPopTail list)

/-- The loop of `list_clear`. -/
def clearLoop : Nat → Ends CStr → Option (Ends CStr)
  | 0, _ => none
  | fuel + 1, list =>
    match list.tail with
    | none => some list
    | some _ =>
      match listRemoveTail list with
      | none => none
      | some list => clearLoop fuel list

/-- `list_clear` -/
def listClear (list : Ends CStr) : Option (Ends CStr) := clearLoop (steps list) list

/-- The removal in the middle in `list_remove`. -/
def removeMiddle (list : Ends CStr) (cur : Nat) (n : LinkedNodes.Node CStr) : Option (Ends CStr) :=
  match n.prev, n.next with
  | some p, some b =>
    match poke list.nodes p fun m => { m with next := some b } with
    | none => none
    | some nodes =>
      match poke nodes b fun m => { m with prev := some p } with
      | none => none
      | some nodes => some (freeNode { list with nodes := nodes, count := list.count - 1 } cur)
  | _, _ => none

/-- The three ways in which `list_remove` takes out the node at `cur`. -/
def removeNode (list : Ends CStr) (cur : Nat) (n : LinkedNodes.Node CStr) : Option (Ends CStr) :=
  if list.head = some cur then listRemoveHead list
  else if list.tail = some cur then listRemoveTail list
  else removeMiddle list cur n

/-- The loop of `list_remove`, with the count so far. -/
def removeLoop (path : CStr) : Nat → Ends CStr → Option Nat → Int → Option (Int × Ends CStr)
  | 0, _, _, _ => none
  | _ + 1, list, none, count => some (count, list)
  | fuel + 1, list, some cur, count =>
    match list.nodes cur with
    | none => none
    | some n =>
      if pathcmp n.value path = 0 then
        match removeNode list cur n with
        | none => none
        | some list =>
          -- the step of the `for` reads `cur->n_next` after the node was freed
          match list.nodes cur with
          | none => none
          | some n => removeLoop path fuel list n.next (count + 1)
      else removeLoop path fuel list n.next count

/-- `list_remove` -/
def listRemove (list : Ends CStr) (path : List Byte) : Option (Int × Ends CStr) :=
  removeLoop (cstr path) (steps list) list list.head 0

/-- The paths of the cells. -/
def paths (cells : List (Nat × CStr)) : PathList := cells.map Prod.snd

/-- The list is whole and stands for the cells, and each holds a string. -/
structure Whole (list : Ends CStr) (cells : List (Nat × CStr)) : Prop extends LinkedEnds.Holds list cells where
  nulFree : ∀ path ∈ paths cells, NulFree path

section

variable {malloc : NodeMalloc} {st : NodeList} {list : Ends CStr} {cells : List (Nat × CStr)}
  {path : List Byte}

theorem steps_lt (h : LinkedEnds.Holds list cells) : cells.length < steps list := by
  rw [steps, h.count]
  omega

/-- What an insertion gives: −1 and the list as it was, or a list with the paths `inserted`. -/
def Inserts (path : List Byte) (st : NodeList) (inserted : PathList)
    (result : Option (Int × NodeList)) : Prop :=
  ∃ rc st', result = some (rc, st') ∧
    (rc = -1 ∧ st'.list = st.list ∨
      rc = 0 ∧ strlen path < maxPathLen ∧ ∃ cells', Whole st'.list cells' ∧ paths cells' = inserted)

theorem createNode_cases (malloc : NodeMalloc) (path : List Byte) (st : NodeList) :
    (∃ st', createNode malloc path st = (none, st') ∧ st'.list = st.list) ∨
      ∃ a, st.list.nodes a = none ∧ strlen path < maxPathLen ∧
        createNode malloc path st = (some a, ⟨st.list.create a (cstr path), st.mallocs + 1⟩) := by
  by_cases hlen : strlen path ≥ maxPathLen
  · exact Or.inl ⟨st, if_pos hlen, rfl⟩
  have hcreate : createNode malloc path st = match malloc st.mallocs st.list.nodes with
      | none => (none, { st with mallocs := st.mallocs + 1 })
      | some a => (some a.1, ⟨st.list.create a.1 (cstr path), st.mallocs + 1⟩) := if_neg hlen
  cases ha : malloc st.mallocs st.list.nodes with
  | none =>
    rw [ha] at hcreate
    exact Or.inl ⟨_, hcreate, rfl⟩
  | some a =>
    rw [ha] at hcreate
    exact Or.inr ⟨a.1, a.2, Nat.lt_of_not_le hlen, hcreate⟩

/-- An insertion whose links put the new cell in front of `ys`. -/
theorem insertNode_inserts (xs ys : List (Nat × CStr)) (h : Whole st.list cells)
    (hcells : cells = xs ++ ys) {link : Ends CStr → Nat → Option (Ends CStr)}
    (hlink : ∀ a, st.list.nodes a = none → ∃ list, link (st.list.create a (cstr path)) a = some list ∧
      LinkedEnds.Holds list (xs ++ (a, cstr path) :: ys)) :
    Inserts path st (paths xs ++ cstr path :: paths ys) (insertNode malloc path link st) := by
  unfold insertNode
  rcases createNode_cases malloc path st with ⟨st', hcreate, hlist⟩ | ⟨a, ha, hlen, hcreate⟩
  · rw [hcreate]
    exact ⟨-1, st', rfl, Or.inl ⟨rfl, hlist⟩⟩
  · obtain ⟨list, hlist, hholds⟩ := hlink a ha
    have hpaths : paths (xs ++ (a, cstr path) :: ys) = paths xs ++ cstr path :: paths ys := by
      rw [paths, List.map_append]
      rfl
    rw [hcreate]
    simp only [hlist]
    refine ⟨0, _, rfl, Or.inr ⟨rfl, hlen, _, ⟨hholds, fun p hp => ?_⟩, hpaths⟩⟩
    rw [hpaths] at hp
    have hnul := h.nulFree p
    rw [hcells, paths, List.map_append] at hnul
    rcases List.mem_append.mp hp with hp | hp
    · exact hnul (List.mem_append_left _ hp)
    rcases List.mem_cons.mp hp with rfl | hp
    · exact nulFree_cstr path
    · exact hnul (List.mem_append_right _ hp)

theorem listInsertHead_inserts (h : Whole st.list cells) :
    Inserts path st (cstr path :: paths cells) (listInsertHead malloc path st) :=
  insertNode_inserts [] cells h rfl fun _ ha => h.linkFront ha (cstr path)

theorem listInsertTail_inserts (h : Whole st.list cells) :
    Inserts path st (paths cells ++ [cstr path]) (listInsertTail malloc path st) :=
  insertNode_inserts cells [] h (List.append_nil cells).symm
    fun _ ha => h.linkBack ha (cstr path)

/-- The new path goes behind those that do not come after it. -/
theorem listInsertCase_inserts (h : Whole st.list cells) (caseSensitive : Bool) :
    Inserts path st
      (((paths cells).takeWhile fun cur => pathcasecmp cur (cstr path) caseSensitive ≤ 0) ++
        cstr path :: (paths cells).dropWhile fun cur => pathcasecmp cur (cstr path) caseSensitive ≤ 0)
      (listInsertCase malloc path caseSensitive st) := by
  let before : CStr → Bool := fun cur => pathcasecmp cur (cstr path) caseSensitive ≤ 0
  have hstop : (fun c : Nat × CStr => !decide (pathcasecmp c.2 (cstr path) caseSensitive > 0)) =
      before ∘ Prod.snd := by
    funext c
    simp only [before, Function.comp_apply, ← decide_not, gt_iff_lt, not_lt]
  have hsearch := h.seg.search
    (fun cur => decide (pathcasecmp cur (cstr path) caseSensitive > 0)) (steps_lt h.toHolds)
  rw [hstop, ← h.head] at hsearch
  have htake : (paths cells).takeWhile before = paths (cells.takeWhile (before ∘ Prod.snd)) :=
    List.takeWhile_map
  have hdrop : (paths cells).dropWhile before = paths (cells.dropWhile (before ∘ Prod.snd)) :=
    List.dropWhile_map
  have hsplit := (List.takeWhile_append_dropWhile (p := before ∘ Prod.snd) (l := cells)).symm
  show Inserts path st ((paths cells).takeWhile before ++ cstr path :: (paths cells).dropWhile before) _
  rw [htake, hdrop]
  unfold listInsertCase
  rw [hsearch]
  generalize cells.takeWhile (before ∘ Prod.snd) = xs at hsplit
  generalize cells.dropWhile (before ∘ Prod.snd) = ys at hsplit
  subst hsplit
  cases ys with
  | nil =>
    rw [List.append_nil] at h
    exact listInsertTail_inserts h
  | cons c ys =>
    obtain ⟨hxs, hc, -⟩ := LinkedEnds.seg_append.mp h.seg
    rw [LinkedNodes.first_cons]
    simp only [hc]
    rcases List.eq_nil_or_concat xs with rfl | ⟨xs, p, rfl⟩
    · exact listInsertHead_inserts h
    · rw [List.concat_eq_append] at *
      rw [LinkedEnds.last_concat]
      refine insertNode_inserts _ _ h rfl fun a ha => ?_
      rw [List.append_assoc, List.singleton_append] at h ⊢
      exact h.linkBefore ha (cstr path)

theorem Whole.sublist {list' : Ends CStr} {cells' : List (Nat × CStr)} (h : Whole list cells)
    (h' : LinkedEnds.Holds list' cells') (hsub : List.Sublist cells' cells) : Whole list' cells' :=
  ⟨h', fun p hp => h.nulFree p ((hsub.map Prod.snd).subset hp)⟩

theorem listPopHead_whole (h : Whole list cells) :
    ∃ list', listPopHead list = some (LinkedNodes.first cells, list') ∧ Whole list' cells.tail := by
  cases cells with
  | nil =>
    refine ⟨list, ?_, h⟩
    rw [listPopHead, Ends.popFront, h.head]
    rfl
  | cons c cells =>
    obtain ⟨list', hpop, hlist'⟩ := h.popFront
    exact ⟨list', hpop, h.sublist hlist' (List.sublist_cons_self c cells)⟩

theorem listPopTail_whole (h : Whole list cells) :
    ∃ list', listPopTail list = some (LinkedEnds.last cells, list') ∧
      Whole list' cells.dropLast := by
  rcases List.eq_nil_or_concat cells with rfl | ⟨xs, c, rfl⟩
  · refine ⟨list, ?_, h⟩
    rw [listPopTail, Ends.popBack, h.tail]
    rfl
  · rw [List.concat_eq_append] at *
    obtain ⟨list', hpop, hlist'⟩ := h.popBack
    rw [LinkedEnds.last_concat, List.dropLast_concat]
    exact ⟨list', hpop, h.sublist hlist' (List.sublist_append_left xs [c])⟩

theorem listRemoveHead_whole (h : Whole list cells) :
    ∃ list', listRemoveHead list = some list' ∧ Whole list' cells.tail := by
  obtain ⟨list', hpop, hlist'⟩ := listPopHead_whole h
  rw [listRemoveHead, hpop]
  cases cells with
  | nil => exact ⟨list', rfl, hlist'⟩
  | cons c cells =>
    have hc := (List.nodup_cons.mp h.nodup).1
    exact ⟨freeNode list' c.1, rfl, hlist'.free hc, hlist'.nulFree⟩

theorem listRemoveTail_whole (h : Whole list cells) :
    ∃ list', listRemoveTail list = some list' ∧ Whole list' cells.dropLast := by
  obtain ⟨list', hpop, hlist'⟩ := listPopTail_whole h
  rw [listRemoveTail, hpop]
  rcases List.eq_nil_or_concat cells with rfl | ⟨xs, c, rfl⟩
  · exact ⟨list', rfl, hlist'⟩
  · rw [List.concat_eq_append] at *
    rw [List.dropLast_concat] at hlist' ⊢
    rw [LinkedEnds.last_concat]
    exact ⟨freeNode list' c.1, rfl, hlist'.free (LinkedEnds.not_mem_of_nodup h.nodup).1,
      hlist'.nulFree⟩

theorem clearLoop_whole {fuel : Nat} (h : Whole list cells) (hfuel : cells.length < fuel) :
    ∃ list', clearLoop fuel list = some list' ∧ Whole list' [] := by
  induction fuel generalizing list cells with
  | zero => exact absurd hfuel (Nat.not_lt_zero _)
  | succ fuel ih =>
    rw [clearLoop]
    cases htail : list.tail with
    | none =>
      rw [LinkedEnds.last_eq_none.mp (h.tail.symm.trans htail)] at h
      exact ⟨list, rfl, h⟩
    | some t =>
      have hne : cells ≠ [] := by
        rintro rfl
        exact absurd (htail.symm.trans h.tail) nofun
      obtain ⟨list', hremove, hlist'⟩ := listRemoveTail_whole h
      simp only [hremove]
      refine ih hlist' ?_
      have hpos := List.length_pos_iff.mpr hne
      rw [List.length_dropLast]
      omega

theorem listClear_whole (h : Whole list cells) :
    ∃ list', listClear list = some list' ∧ Whole list' [] :=
  clearLoop_whole h (steps_lt h.toHolds)

end

/-! ## Sequences of operations -/

inductive ListOp
  | insertCase (path : List Byte) (caseSensitive : Bool)
  | insertHead (path : List Byte)
  | insertTail (path : List Byte)
  | popHead
  | popTail
  | removeHead
  | removeTail
  | clear

/-- What a call gives back: a code, a node, or nothing. -/
inductive Reply
  | code (rc : Int)
  | node (a : Option Nat)
  | void
  deriving DecidableEq

def coded : Option (Int × NodeList) → Option (Reply × NodeList) :=
  Option.map fun (rc, st) => (.code rc, st)

def popped (st : NodeList) : Option (Option Nat × Ends CStr) → Option (Reply × NodeList) :=
  Option.map fun (a, list) => (.node a, { st with list := list })

def changed (st : NodeList) : Option (Ends CStr) → Option (Reply × NodeList) :=
  Option.map fun list => (.void, { st with list := list })

def ListOp.run (malloc : NodeMalloc) (st : NodeList) : ListOp → Option (Reply × NodeList)
  | .insertCase path caseSensitive => coded (listInsertCase malloc path caseSensitive st)
  | .insertHead path => coded (listInsertHead malloc path st)
  | .insertTail path => coded (listInsertTail malloc path st)
  | .popHead => popped st (listPopHead st.list)
  | .popTail => popped st (listPopTail st.list)
  | .removeHead => changed st (listRemoveHead st.list)
  | .removeTail => changed st (listRemoveTail st.list)
  | .clear => changed st (listClear st.list)

def runOps (malloc : NodeMalloc) : List ListOp → NodeList → Option NodeList
  | [], st => some st
  | op :: ops, st =>
    match op.run malloc st with
    | none => none
    | some (_, st) => runOps malloc ops st

/-- The operations that put nothing in but by `list_insert`. -/
def ListOp.OnlyInserts : ListOp → Prop
  | .insertCase _ caseSensitive => caseSensitive = true
  | .insertHead _ => False
  | .insertTail _ => False
  | _ => True

/-- `l_count` tells how many nodes are met from either end, in opposite orders, and both ends are
NULL just when it is 0. -/
structure Linked (list : Ends CStr) (cells : List (Nat × CStr)) : Prop where
  next : LinkedEnds.Visits list.nodes LinkedNodes.Node.next list.head cells
  prev : LinkedEnds.Visits list.nodes LinkedNodes.Node.prev list.tail cells.reverse
  count : list.count = cells.length
  head : list.head = none ↔ list.count = 0
  tail : list.tail = none ↔ list.count = 0

section

variable {st : NodeList} {list : Ends CStr} {cells : List (Nat × CStr)}

theorem Whole.linked (h : Whole list cells) : Linked list cells := by
  have hcount : list.count = 0 ↔ cells = [] := by
    rw [h.count, Int.natCast_eq_zero, List.length_eq_zero_iff]
  refine ⟨?_, ?_, h.count, ?_, ?_⟩
  · rw [h.head]
    exact h.seg.visits_next
  · rw [h.tail]
    exact h.seg.visits_prev
  · rw [h.head, hcount, LinkedEnds.first_eq_none]
  · rw [h.tail, hcount, LinkedEnds.last_eq_none]

/-- What every operation keeps, and when the list stays sorted. -/
def Keeps (st : NodeList) (cells : List (Nat × CStr)) (sorts : Prop)
    (result : Option (Reply × NodeList)) : Prop :=
  ∃ reply st' cells', result = some (reply, st') ∧ Whole st'.list cells' ∧
    (∀ rc, reply = .code rc → rc ≠ 0 → st'.list = st.list) ∧
    (sorts → PathSorted true (paths cells) → PathSorted true (paths cells'))

theorem Inserts.keeps {path : List Byte} {inserted : PathList} {sorts : Prop}
    {result : Option (Int × NodeList)} (h : Whole st.list cells)
    (hins : Inserts path st inserted result)
    (hsorts : strlen path < maxPathLen → sorts → PathSorted true (paths cells) →
      PathSorted true inserted) :
    Keeps st cells sorts (coded result) := by
  obtain ⟨rc, st', hresult, ⟨hrc, hlist⟩ | ⟨hrc, hlen, cells', hwhole, hpaths⟩⟩ := hins
  · refine ⟨.code rc, st', cells, by rw [hresult]; rfl, by rw [hlist]; exact h,
      fun _ _ _ => hlist, fun _ hs => hs⟩
  · refine ⟨.code rc, st', cells', by rw [hresult]; rfl, hwhole, fun rc' heq hne => ?_,
      fun hs hsorted => by rw [hpaths]; exact hsorts hlen hs hsorted⟩
    cases heq
    exact absurd hrc hne

theorem Whole.keeps {list' : Ends CStr} {cells' : List (Nat × CStr)} {sorts : Prop} {reply : Reply}
    (h : Whole list' cells') (hsub : List.Sublist cells' cells)
    (hreply : ∀ rc, reply ≠ .code rc) :
    Keeps st cells sorts (some (reply, { st with list := list' })) :=
  ⟨reply, _, cells', rfl, h, fun rc heq _ => absurd heq (hreply rc),
    fun _ hs => List.Pairwise.sublist (hsub.map Prod.snd) hs⟩

theorem ListOp.run_keeps (malloc : NodeMalloc) (h : Whole st.list cells) (op : ListOp) :
    Keeps st cells op.OnlyInserts (op.run malloc st) := by
  cases op with
  | insertCase path caseSensitive =>
    refine (listInsertCase_inserts h caseSensitive).keeps h ?_
    rintro hlen rfl hs
    refine PathSorted.insert (fun p (hp : NulFree p) => hp)
      (fun _ _ _ hp hq hr => pathcmp_trans hp hq hr) h.nulFree (nulFree_cstr path) hs ?_
    exact if_neg (Nat.not_le_of_lt hlen)
  | insertHead path => exact (listInsertHead_inserts h).keeps h fun _ hs => hs.elim
  | insertTail path => exact (listInsertTail_inserts h).keeps h fun _ hs => hs.elim
  | popHead =>
    obtain ⟨list', hpop, hlist'⟩ := listPopHead_whole h
    show Keeps st cells _ (popped st (listPopHead st.list))
    rw [hpop]
    exact hlist'.keeps (List.tail_sublist cells) nofun
  | popTail =>
    obtain ⟨list', hpop, hlist'⟩ := listPopTail_whole h
    show Keeps st cells _ (popped st (listPopTail st.list))
    rw [hpop]
    exact hlist'.keeps (List.dropLast_sublist cells) nofun
  | removeHead =>
    obtain ⟨list', hremove, hlist'⟩ := listRemoveHead_whole h
    show Keeps st cells _ (changed st (listRemoveHead st.list))
    rw [hremove]
    exact hlist'.keeps (List.tail_sublist cells) nofun
  | removeTail =>
    obtain ⟨list', hremove, hlist'⟩ := listRemoveTail_whole h
    show Keeps st cells _ (changed st (listRemoveTail st.list))
    rw [hremove]
    exact hlist'.keeps (List.dropLast_sublist cells) nofun
  | clear =>
    obtain ⟨list', hclear, hlist'⟩ := listClear_whole h
    show Keeps st cells _ (changed st (listClear st.list))
    rw [hclear]
    exact hlist'.keeps (List.nil_sublist cells) nofun

/-- Every sequence of operations runs through on a whole list and leaves a whole one. -/
theorem runOps_keeps (malloc : NodeMalloc) (h : Whole st.list cells) (ops : List ListOp) :
    ∃ st' cells', runOps malloc ops st = some st' ∧ Whole st'.list cells' ∧
      ((∀ op ∈ ops, op.OnlyInserts) → PathSorted true (paths cells) →
        PathSorted true (paths cells')) := by
  induction ops generalizing st cells with
  | nil => exact ⟨st, cells, rfl, h, fun _ hs => hs⟩
  | cons op ops ih =>
    obtain ⟨reply, st₁, cells₁, hrun, h₁, -, hsorts₁⟩ := op.run_keeps malloc h
    obtain ⟨st', cells', hops, h', hsorts⟩ := ih h₁
    refine ⟨st', cells', ?_, h', fun honly hs => ?_⟩
    · rw [runOps, hrun]
      exact hops
    · obtain ⟨hop, hrest⟩ := List.forall_mem_cons.mp honly
      exact hsorts hrest (hsorts₁ hop hs)

theorem whole_listNew (nodes : Nat → Option (LinkedNodes.Node CStr)) : Whole (listNew nodes).list [] :=
  ⟨LinkedEnds.holds_empty nodes, fun _ hp => absurd hp List.not_mem_nil⟩

/-- After every sequence of operations from `list_new` on, the links, the ends and the count agree,
an insertion that fails leaves the list as it is, and a list filled by `list_insert` ascends. -/
theorem list_keeps_links (malloc : NodeMalloc) (nodes : Nat → Option (LinkedNodes.Node CStr))
    (ops : List ListOp) :
    ∃ st cells, runOps malloc ops (listNew nodes) = some st ∧ Linked st.list cells ∧
      (∀ op : ListOp, ∃ reply st', op.run malloc st = some (reply, st') ∧
        ∀ rc, reply = .code rc → rc ≠ 0 → st'.list = st.list) ∧
      ((∀ op ∈ ops, op.OnlyInserts) → (paths cells).Pairwise fun p q => pathcmp p q ≤ 0) := by
  obtain ⟨st, cells, hrun, h, hsorts⟩ := runOps_keeps malloc (whole_listNew nodes) ops
  refine ⟨st, cells, hrun, h.linked, fun op => ?_, fun honly => hsorts honly List.Pairwise.nil⟩
  obtain ⟨reply, st', -, hop, -, hfailed, -⟩ := op.run_keeps malloc h
  exact ⟨reply, st', hop, hfailed⟩

/-! ## The sequence of the paths -/

/-- What an operation makes of the sequence of the paths.  An insertion takes place where it
gives back 0. -/
def ListOp.onPaths (reply : Reply) (ps : PathList) : ListOp → PathList
  | .insertCase path caseSensitive =>
    if reply = .code 0 then (Radmind.listInsertCase ps (cstr path) caseSensitive).getD ps else ps
  | .insertHead path => if reply = .code 0 then cstr path :: ps else ps
  | .insertTail path =>
    if reply = .code 0 then (Radmind.listInsertTail ps (cstr path)).getD ps else ps
  | .popHead | .removeHead => ps.tail
  | .popTail | .removeTail => ps.dropLast
  | .clear => []

/-- The operations with what each gives back. -/
def runReplies (malloc : NodeMalloc) : List ListOp → NodeList → Option (List Reply × NodeList)
  | [], st => some ([], st)
  | op :: ops, st =>
    match op.run malloc st with
    | none => none
    | some (reply, st) => (runReplies malloc ops st).map (Prod.map (reply :: ·) id)

/-- The operations on the sequence of the paths. -/
def replay : List ListOp → List Reply → PathList → PathList
  | op :: ops, reply :: replies, ps => replay ops replies (op.onPaths reply ps)
  | _, _, ps => ps

section

variable {st : NodeList} {cells : List (Nat × CStr)}

/-- The list that is left is whole and holds the paths. -/
def Refines (after : Reply → PathList) (result : Option (Reply × NodeList)) : Prop :=
  ∃ reply st' cells', result = some (reply, st') ∧ Whole st'.list cells' ∧
    paths cells' = after reply

theorem Inserts.refines {path : List Byte} {inserted : PathList} {after : Reply → PathList}
    {result : Option (Int × NodeList)} (h : Whole st.list cells)
    (hins : Inserts path st inserted result) (hrefused : after (.code (-1)) = paths cells)
    (hdone : strlen path < maxPathLen → after (.code 0) = inserted) :
    Refines after (coded result) := by
  obtain ⟨rc, st', hresult, ⟨rfl, hlist⟩ | ⟨rfl, hlen, cells', hwhole, hpaths⟩⟩ := hins
  · refine ⟨.code (-1), st', cells, by rw [hresult]; rfl, ?_, hrefused.symm⟩
    rw [hlist]
    exact h
  · exact ⟨.code 0, st', cells', by rw [hresult]; rfl, hwhole, hpaths.trans (hdone hlen).symm⟩

theorem Whole.refines {list' : Ends CStr} {cells' : List (Nat × CStr)} {reply : Reply}
    {after : Reply → PathList} (h : Whole list' cells') (hpaths : paths cells' = after reply) :
    Refines after (some (reply, { st with list := list' })) := ⟨reply, _, cells', rfl, h, hpaths⟩

/-- One operation on the nodes does what it does on the sequence of the paths. -/
theorem ListOp.run_refines (malloc : NodeMalloc) (h : Whole st.list cells) (op : ListOp) :
    Refines (fun reply => op.onPaths reply (paths cells)) (op.run malloc st) := by
  have hfailed : Reply.code (-1) ≠ .code 0 := by decide
  have hkept : ∀ ps, (if Reply.code (-1) = .code 0 then ps else paths cells) = paths cells :=
    fun _ => if_neg hfailed
  cases op with
  | insertCase path caseSensitive =>
    refine (listInsertCase_inserts h caseSensitive).refines h (hkept ((Radmind.listInsertCase
      (paths cells) (cstr path) caseSensitive).getD (paths cells))) fun hlen => ?_
    have hnew : Radmind.listInsertCase (paths cells) (cstr path) caseSensitive = some _ :=
      if_neg (Nat.not_le_of_lt hlen)
    simp only [onPaths, if_true, hnew, Option.getD_some]
  | insertHead path =>
    refine (listInsertHead_inserts h).refines h (hkept (cstr path :: paths cells)) fun _ => ?_
    simp only [onPaths, if_true]
  | insertTail path =>
    refine (listInsertTail_inserts h).refines h (hkept ((Radmind.listInsertTail
      (paths cells) (cstr path)).getD (paths cells))) fun hlen => ?_
    have hnew : Radmind.listInsertTail (paths cells) (cstr path) = some _ :=
      if_neg (Nat.not_le_of_lt hlen)
    simp only [onPaths, if_true, hnew, Option.getD_some]
  | popHead =>
    obtain ⟨list', hpop, hlist'⟩ := listPopHead_whole h
    show Refines _ (popped st (listPopHead st.list))
    rw [hpop]
    exact hlist'.refines List.map_tail
  | popTail =>
    obtain ⟨list', hpop, hlist'⟩ := listPopTail_whole h
    show Refines _ (popped st (listPopTail st.list))
    rw [hpop]
    exact hlist'.refines List.map_dropLast
  | removeHead =>
    obtain ⟨list', hremove, hlist'⟩ := listRemoveHead_whole h
    show Refines _ (changed st (listRemoveHead st.list))
    rw [hremove]
    exact hlist'.refines List.map_tail
  | removeTail =>
    obtain ⟨list', hremove, hlist'⟩ := listRemoveTail_whole h
    show Refines _ (changed st (listRemoveTail st.list))
    rw [hremove]
    exact hlist'.refines List.map_dropLast
  | clear =>
    obtain ⟨list', hclear, hlist'⟩ := listClear_whole h
    show Refines _ (changed st (listClear st.list))
    rw [hclear]
    exact hlist'.refines rfl

theorem runReplies_refines (malloc : NodeMalloc) (h : Whole st.list cells) (ops : List ListOp) :
    ∃ replies st' cells', runReplies malloc ops st = some (replies, st') ∧ Whole st'.list cells' ∧
      replies.length = ops.length ∧ paths cells' = replay ops replies (paths cells) := by
  induction ops generalizing st cells with
  | nil => exact ⟨[], st, cells, rfl, h, rfl, rfl⟩
  | cons op ops ih =>
    obtain ⟨reply, st₁, cells₁, hrun, h₁, hpaths₁⟩ := op.run_refines malloc h
    obtain ⟨replies, st', cells', hops, h', hlength, hpaths⟩ := ih h₁
    refine ⟨reply :: replies, st', cells', ?_, h', congrArg Nat.succ hlength, ?_⟩
    · rw [runReplies, hrun]
      simp only [hops]
      rfl
    · rw [hpaths, hpaths₁]
      rfl

end

/-- Every run of the operations from `list_new` on is a run on the sequence of the paths: the nodes
met from the head, and in opposite order from the tail, hold the paths that the sequence has then,
where an insertion that could not be made is left out. -/
theorem nodes_refine_paths (malloc : NodeMalloc) (nodes : Nat → Option (LinkedNodes.Node CStr))
    (ops : List ListOp) :
    ∃ replies st cells, runReplies malloc ops (listNew nodes) = some (replies, st) ∧
      replies.length = ops.length ∧ Linked st.list cells ∧ paths cells = replay ops replies [] := by
  obtain ⟨replies, st, cells, hrun, h, hlength, hpaths⟩ :=
    runReplies_refines malloc (whole_listNew nodes) ops
  exact ⟨replies, st, cells, hrun, hlength, h.linked, hpaths⟩

/-! ## Removal -/

/-- `list_remove` counts the entries that are the path, takes just these out, keeps the order of the
others and leaves the list whole. -/
def RemovesAll (list : Ends CStr) (cells : List (Nat × CStr)) (path : List Byte) : Prop :=
  ∃ list' : Ends CStr,
    listRemove list path = some (((cells.filter fun c => c.2 = cstr path).length : Int), list') ∧
      Whole list' (cells.filter fun c => c.2 ≠ cstr path)

theorem nodes_freeNode (list : Ends CStr) (a : Nat) : (freeNode list a).nodes a = none := if_pos rfl

theorem popFront_head {list' : Ends CStr} {a : Option Nat}
    (h : list.popFront = some (a, list')) : a = list.head := by
  unfold Ends.popFront at h
  grind

theorem popBack_tail {list' : Ends CStr} {a : Option Nat}
    (h : list.popBack = some (a, list')) : a = list.tail := by
  unfold Ends.popBack at h
  grind

theorem freePopped_gone {list' : Ends CStr} {p : Option (Option Nat × Ends CStr)} {cur : Nat}
    (h : freePopped p = some list') (hp : ∀ a list, p = some (a, list) → a = some cur) :
    list'.nodes cur = none := by
  match p with
  | none => cases h
  | some (a, list) =>
    rw [hp a list rfl] at h
    cases h
    exact nodes_freeNode list cur

theorem removeMiddle_gone {list' : Ends CStr} {cur : Nat} {n : LinkedNodes.Node CStr}
    (h : removeMiddle list cur n = some list') : list'.nodes cur = none := by
  unfold removeMiddle at h
  split at h
  · split at h
    · cases h
    · split at h
      · cases h
      · cases h
        exact nodes_freeNode _ cur
  · cases h

/-- Whichever way a node is taken out, it is freed. -/
theorem removeNode_gone {list' : Ends CStr} {cur : Nat} {n : LinkedNodes.Node CStr}
    (h : removeNode list cur n = some list') : list'.nodes cur = none := by
  unfold removeNode at h
  split at h
  · next hhead =>
    exact freePopped_gone h fun a list₁ hp => (popFront_head hp).trans hhead
  · split at h
    · next htail => exact freePopped_gone h fun a list₁ hp => (popBack_tail hp).trans htail
    · exact removeMiddle_gone h

/-- From an entry that is the path on, the loop reads a node it has freed. -/
theorem removeLoop_freed {prev : Option Nat} {path : CStr} (hpath : NulFree path)
    (hseg : LinkedEnds.Seg list.nodes prev cells none)
    (hnul : ∀ p ∈ paths cells, NulFree p) (hmem : path ∈ paths cells) (fuel : Nat) (count : Int) :
    removeLoop path fuel list (LinkedNodes.first cells) count = none := by
  induction cells generalizing prev fuel with
  | nil => exact absurd hmem List.not_mem_nil
  | cons c cells ih =>
    cases fuel with
    | zero => rfl
    | succ fuel =>
      obtain ⟨hc, hrest⟩ := hseg
      obtain ⟨hcnul, hnul⟩ := List.forall_mem_cons.mp hnul
      rw [LinkedNodes.first_cons, removeLoop, hc]
      simp only [pathcmp_eq_zero hcnul hpath]
      by_cases heq : c.2 = path
      · rw [if_pos heq]
        split
        · rfl
        · next list' hremove => rw [removeNode_gone hremove]
      · rw [if_neg heq, Option.or_none]
        refine ih hrest hnul ?_ fuel
        exact (List.mem_cons.mp hmem).resolve_left (Ne.symm heq)

theorem removeLoop_absent {prev : Option Nat} {path : CStr} (hpath : NulFree path)
    (hseg : LinkedEnds.Seg list.nodes prev cells none)
    (hnul : ∀ p ∈ paths cells, NulFree p) (hmem : path ∉ paths cells) {fuel : Nat}
    (hfuel : cells.length < fuel) (count : Int) :
    removeLoop path fuel list (LinkedNodes.first cells) count = some (count, list) := by
  induction cells generalizing prev fuel with
  | nil =>
    cases fuel with
    | zero => exact absurd hfuel (Nat.not_lt_zero _)
    | succ fuel => rfl
  | cons c cells ih =>
    cases fuel with
    | zero => exact absurd hfuel (Nat.not_lt_zero _)
    | succ fuel =>
      obtain ⟨hc, hrest⟩ := hseg
      obtain ⟨hcnul, hnul⟩ := List.forall_mem_cons.mp hnul
      obtain ⟨hne, hmem⟩ := not_or.mp fun h => hmem (List.mem_cons.mpr h)
      rw [LinkedNodes.first_cons, removeLoop, hc]
      simp only [pathcmp_eq_zero hcnul hpath]
      rw [if_neg (Ne.symm hne), Option.or_none]
      exact ih hrest hnul hmem (Nat.lt_of_succ_lt_succ hfuel)

/-- Where `free` erases the node, the removal is safe just on lists without the path. -/
theorem list_remove_safe_iff (h : Whole list cells) (path : List Byte) :
    RemovesAll list cells path ↔ cstr path ∉ paths cells := by
  have hpath := nulFree_cstr path
  constructor
  · rintro ⟨list', hremove, -⟩ hmem
    rw [listRemove, h.head, removeLoop_freed hpath h.seg h.nulFree hmem] at hremove
    cases hremove
  · intro hmem
    have hne : ∀ c ∈ cells, c.2 ≠ cstr path := fun c hc heq =>
      hmem (by rw [← heq]; exact List.mem_map_of_mem hc)
    refine ⟨list, ?_, ?_⟩
    · rw [listRemove, h.head, removeLoop_absent hpath h.seg h.nulFree hmem (steps_lt h.toHolds),
        List.filter_eq_nil_iff.mpr fun c hc => by simpa using hne c hc]
      rfl
    · rw [List.filter_eq_self.mpr fun c hc => by simpa using hne c hc]
      exact h

end

/-- One node on a list of its own. -/
def single (a : Nat) (path : CStr) : Ends CStr :=
  ⟨fun b => if b = a then some ⟨path, none, none⟩ else none, some a, some a, 1⟩

theorem whole_single (a : Nat) (path : CStr) (hpath : NulFree path) :
    Whole (single a path) [(a, path)] :=
  ⟨⟨List.nodup_singleton a, ⟨if_pos rfl, trivial⟩, rfl, rfl, rfl⟩,
    fun p hp => by rw [List.mem_singleton.mp hp]; exact hpath⟩

theorem list_remove_safe_absent :
    RemovesAll (single 1 (lit "./a")) [(1, lit "./a")] (lit "./b") ↔
      cstr (lit "./b") ∉ paths [(1, lit "./a")] :=
  list_remove_safe_iff (whole_single 1 _ (by decide)) (lit "./b")

/-- The only entry of a list is the path. -/
theorem not_list_remove_safe :
    ¬ ∀ (list : Ends CStr) (cells : List (Nat × CStr)) (path : List Byte), Whole list cells →
      RemovesAll list cells path := by
  intro h
  obtain ⟨list', hremove, -⟩ := h _ _ (lit "./a") (whole_single 1 (lit "./a") (by decide))
  have hnone : listRemove (single 1 (lit "./a")) (lit "./a") = none := by decide +kernel
  rw [hnone] at hremove
  cases hremove

end NodeList

end Radmind
