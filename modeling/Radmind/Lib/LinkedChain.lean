import Mathlib.Data.List.Induction
import Radmind.Lib.LinkedNodes

/-!
# Singly linked nodes

Nodes at addresses, each with a link to the next one, and a head.  A slot is a place a link is kept
in: the head, or the link of a node.  A search goes from slot to slot, and a new node is put into
the slot it ends at.
-/

namespace LinkedChain

open LinkedNodes (first first_cons)

variable {α : Type}

structure Node (α : Type) where
  value : α
  next : Option Nat

structure Chain (α : Type) where
  nodes : Nat → Option (Node α)
  head : Option Nat

inductive Slot
  | head
  | next (a : Nat)

/-- The link in a slot, if there is such a slot. -/
def Chain.get (s : Chain α) : Slot → Option (Option Nat)
  | .head => some s.head
  | .next a => (s.nodes a).map Node.next

def Chain.set (s : Chain α) (link : Option Nat) : Slot → Chain α
  | .head => { s with head := link }
  | .next a =>
    { s with nodes := fun b => if b = a then (s.nodes b).map fun n => { n with next := link }
        else s.nodes b }

def Chain.addNode (s : Chain α) (a : Nat) (n : Node α) : Chain α :=
  { s with nodes := fun b => if b = a then some n else s.nodes b }

/-- The walk from a slot on, up to the one before the first value to stop at. -/
def search (stop : α → Bool) (s : Chain α) : Nat → Slot → Option Slot
  | 0, _ => none
  | fuel + 1, slot =>
    match s.get slot with
    | none => none
    | some none => some slot
    | some (some a) =>
      match s.nodes a with
      | none => none
      | some n => if stop n.value then some slot else search stop s fuel (.next a)

/-- The links lead from `p` over the cells to `q`. -/
def Path (nodes : Nat → Option (Node α)) : Option Nat → List (Nat × α) → Option Nat → Prop
  | p, [], q => p = q
  | p, c :: cells, q => p = some c.1 ∧ ∃ next, nodes c.1 = some ⟨c.2, next⟩ ∧ Path nodes next cells q

/-- The cells are what the links lead to from the head on. -/
structure Holds (s : Chain α) (cells : List (Nat × α)) : Prop where
  nodup : (cells.map Prod.fst).Nodup
  path : Path s.nodes s.head cells none

theorem holds_empty (nodes : Nat → Option (Node α)) : Holds ⟨nodes, none⟩ [] :=
  ⟨List.nodup_nil, rfl⟩

/-- The slot behind the cells. -/
def slotAfter (cells : List (Nat × α)) : Slot :=
  match cells.getLast? with
  | none => .head
  | some c => .next c.1

@[simp] theorem slotAfter_nil : slotAfter ([] : List (Nat × α)) = .head := rfl

@[simp] theorem slotAfter_concat (cells : List (Nat × α)) (c : Nat × α) :
    slotAfter (cells ++ [c]) = .next c.1 := by
  rw [slotAfter, List.getLast?_concat]

section

variable {nodes nodes' : Nat → Option (Node α)} {p q : Option Nat} {cells xs ys : List (Nat × α)}

theorem path_append : Path nodes p (xs ++ ys) q ↔ ∃ r, Path nodes p xs r ∧ Path nodes r ys q := by
  induction xs generalizing p with
  | nil => exact ⟨fun h => ⟨p, rfl, h⟩, fun ⟨r, hr, h⟩ => hr ▸ h⟩
  | cons x xs ih =>
    simp only [List.cons_append, Path, ih]
    constructor
    · rintro ⟨hp, next, hx, r, hxs, hys⟩
      exact ⟨r, ⟨hp, next, hx, hxs⟩, hys⟩
    · rintro ⟨r, ⟨hp, next, hx, hxs⟩, hys⟩
      exact ⟨hp, next, hx, r, hxs, hys⟩

theorem Path.first (h : Path nodes p cells none) : p = LinkedNodes.first cells := by
  cases cells with
  | nil => exact h
  | cons c cells => exact h.1

theorem Path.node (h : Path nodes p cells q) : ∀ c ∈ cells, (nodes c.1).isSome := by
  induction cells generalizing p with
  | nil => exact fun c hc => absurd hc List.not_mem_nil
  | cons c cells ih =>
    obtain ⟨-, next, hc, hcells⟩ := h
    exact List.forall_mem_cons.mpr ⟨by rw [hc]; rfl, ih hcells⟩

theorem Path.congr (h : Path nodes p cells q) (heq : ∀ c ∈ cells, nodes' c.1 = nodes c.1) :
    Path nodes' p cells q := by
  induction cells generalizing p with
  | nil => exact h
  | cons c cells ih =>
    obtain ⟨hp, next, hc, hcells⟩ := h
    obtain ⟨heqc, heqs⟩ := List.forall_mem_cons.mp heq
    exact ⟨hp, next, heqc.trans hc, ih hcells heqs⟩

end

section

variable {s : Chain α} {cells xs ys : List (Nat × α)} {a : Nat} {v : α}

theorem Holds.fresh (h : Holds s cells) (ha : s.nodes a = none) : a ∉ cells.map Prod.fst := by
  intro hmem
  obtain ⟨c, hc, rfl⟩ := List.mem_map.mp hmem
  have hnode := h.path.node c hc
  rw [ha] at hnode
  cases hnode

/-- The slot behind some of the cells leads to the rest. -/
theorem Holds.get (h : Holds s (xs ++ ys)) : s.get (slotAfter xs) = some (first ys) := by
  obtain ⟨r, hxs, hys⟩ := path_append.mp h.path
  rcases List.eq_nil_or_concat xs with rfl | ⟨xs, c, rfl⟩
  · exact congrArg some (hxs.trans hys.first)
  · rw [List.concat_eq_append] at *
    obtain ⟨r', -, -, next, hc, hnext⟩ := path_append.mp hxs
    rw [slotAfter_concat, Chain.get, hc, ← hys.first]
    exact congrArg some hnext

theorem Holds.search (stop : α → Bool) (h : Holds s (xs ++ ys)) {fuel : Nat}
    (hfuel : ys.length < fuel) :
    search stop s fuel (slotAfter xs) =
      some (slotAfter (xs ++ ys.takeWhile fun c => !stop c.2)) := by
  induction fuel generalizing xs ys with
  | zero => exact absurd hfuel (Nat.not_lt_zero _)
  | succ fuel ih =>
    rw [LinkedChain.search, h.get]
    cases ys with
    | nil =>
      rw [List.takeWhile_nil, List.append_nil]
      rfl
    | cons c ys =>
      obtain ⟨r, -, -, next, hc, -⟩ := path_append.mp h.path
      rw [first_cons]
      simp only [hc]
      cases hstop : stop c.2 with
      | true =>
        rw [List.takeWhile_cons_of_neg (by rw [hstop]; decide), List.append_nil]
        rfl
      | false =>
        have hassoc : xs ++ c :: ys = (xs ++ [c]) ++ ys := by simp
        rw [hassoc] at h
        have hrest := ih h (Nat.lt_of_succ_lt_succ hfuel)
        rw [slotAfter_concat] at hrest
        rw [List.takeWhile_cons_of_pos (by rw [hstop]; rfl), if_neg (by decide), hrest]
        simp

/-- A new node is put into the slot behind `xs`. -/
theorem Holds.insert (h : Holds s (xs ++ ys)) (ha : s.nodes a = none) (v : α) :
    Holds ((s.addNode a ⟨v, first ys⟩).set (some a) (slotAfter xs)) (xs ++ (a, v) :: ys) := by
  have hfresh := h.fresh ha
  have hnodup := h.nodup
  have hne : ∀ c ∈ xs ++ ys, c.1 ≠ a := fun c hc heq =>
    hfresh (by rw [← heq]; exact List.mem_map_of_mem hc)
  obtain ⟨r, hxs, hys⟩ := path_append.mp h.path
  rw [hys.first] at hxs hys
  refine ⟨?_, ?_⟩
  · rw [List.map_append, List.map_cons]
    refine List.perm_middle.nodup_iff.mpr (List.nodup_cons.mpr ?_)
    rw [← List.map_append]
    exact ⟨hfresh, hnodup⟩
  rcases List.eq_nil_or_concat xs with rfl | ⟨xs, l, rfl⟩
  · refine ⟨rfl, first ys, if_pos rfl, ?_⟩
    exact hys.congr fun c hc => if_neg (hne c hc)
  · rw [List.concat_eq_append] at *
    rw [slotAfter_concat]
    have hla : l.1 ≠ a := hne l (by simp)
    have hother : ∀ c ∈ xs ++ ys, c.1 ≠ l.1 := by
      rw [List.append_assoc, List.singleton_append, List.map_append, List.map_cons] at hnodup
      have hnot := (List.nodup_cons.mp (List.perm_middle.nodup_iff.mp hnodup)).1
      rw [← List.map_append] at hnot
      exact fun c hc heq => hnot (by rw [← heq]; exact List.mem_map_of_mem hc)
    have hkept : ∀ c ∈ xs ++ ys, ((s.addNode a ⟨v, first ys⟩).set (some a) (.next l.1)).nodes c.1 =
        s.nodes c.1 := fun c hc => by
      have hca : c.1 ≠ a := hne c (by
        rcases List.mem_append.mp hc with hc | hc
        · exact List.mem_append_left _ (List.mem_append_left _ hc)
        · exact List.mem_append_right _ hc)
      exact (if_neg (hother c hc)).trans (if_neg hca)
    obtain ⟨r', hfront, hl, next, hnode, hnext⟩ := path_append.mp hxs
    refine path_append.mpr ⟨some a, path_append.mpr ⟨r',
      hfront.congr fun c hc => hkept c (List.mem_append_left _ hc), hl, some a, ?_, rfl⟩, rfl,
      first ys, ?_, ?_⟩
    · show (if l.1 = l.1 then _ else _) = _
      rw [if_pos rfl]
      show ((if l.1 = a then _ else s.nodes l.1) : Option (Node α)).map _ = _
      rw [if_neg hla, hnode]
      rfl
    · exact (if_neg hla.symm).trans (if_pos rfl)
    · exact hys.congr fun c hc => hkept c (List.mem_append_right _ hc)

end

end LinkedChain
