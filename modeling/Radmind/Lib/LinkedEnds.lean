import Mathlib.Data.List.Induction
import Radmind.Lib.LinkedNodes

/-!
# Doubly linked nodes with two ends

A list of nodes with a pointer to its first one, one to its last one, and their number.  `Holds`
says which cells the two pointers stand for, with every link between them.  The operations fail
where they follow a link that leads nowhere.
-/

namespace LinkedEnds

open LinkedNodes (Node setNode free first first_cons)

variable {α : Type}

structure Ends (α : Type) where
  nodes : Nat → Option (Node α)
  head : Option Nat
  tail : Option Nat
  count : Int

def Ends.empty (nodes : Nat → Option (Node α)) : Ends α := ⟨nodes, none, none, 0⟩

/-- The address of the last cell. -/
def last (cells : List (Nat × α)) : Option Nat := cells.getLast?.map Prod.fst

/-- A new node, without links. -/
def addNode (nodes : Nat → Option (Node α)) (a : Nat) (v : α) : Nat → Option (Node α) :=
  fun b => if b = a then some ⟨v, none, none⟩ else nodes b

/-- A new node, not linked to the others yet. -/
def Ends.create (s : Ends α) (a : Nat) (v : α) : Ends α :=
  { s with nodes := addNode s.nodes a v }

/-- A change to the node a link leads to. -/
def poke (nodes : Nat → Option (Node α)) (a : Nat) (f : Node α → Node α) :
    Option (Nat → Option (Node α)) :=
  if (nodes a).isSome then some (setNode nodes a f) else none

/-- The new node at `a` in front of the others. -/
def Ends.linkFront (s : Ends α) (a : Nat) : Option (Ends α) :=
  match s.head with
  | none => some ⟨s.nodes, some a, some a, s.count + 1⟩
  | some h =>
    match poke s.nodes h fun n => { n with prev := some a } with
    | none => none
    | some nodes =>
      match poke nodes a fun n => { n with next := some h } with
      | none => none
      | some nodes => some ⟨nodes, some a, s.tail, s.count + 1⟩

/-- The new node at `a` behind the others. -/
def Ends.linkBack (s : Ends α) (a : Nat) : Option (Ends α) :=
  match s.tail with
  | none => some ⟨s.nodes, some a, some a, s.count + 1⟩
  | some t =>
    match poke s.nodes t fun n => { n with next := some a } with
    | none => none
    | some nodes =>
      match poke nodes a fun n => { n with prev := some t } with
      | none => none
      | some nodes => some ⟨nodes, s.head, some a, s.count + 1⟩

/-- The new node at `a` between the one at `b` and the one before it, at `p`. -/
def Ends.linkBefore (s : Ends α) (a p b : Nat) : Option (Ends α) :=
  match poke s.nodes a fun n => { n with next := some b } with
  | none => none
  | some nodes =>
    match poke nodes p fun n => { n with next := some a } with
    | none => none
    | some nodes =>
      match poke nodes a fun n => { n with prev := some p } with
      | none => none
      | some nodes =>
        match poke nodes b fun n => { n with prev := some a } with
        | none => none
        | some nodes => some ⟨nodes, s.head, s.tail, s.count + 1⟩

/-- The last node taken off, if there is one.  Its memory stays. -/
def Ends.popBack (s : Ends α) : Option (Option Nat × Ends α) :=
  match s.tail with
  | none => some (none, s)
  | some t =>
    if s.count = 1 then some (some t, ⟨s.nodes, none, none, s.count - 1⟩)
    else
      match s.nodes t with
      | none => none
      | some n =>
        match n.prev with
        | none => none
        | some p =>
          match poke s.nodes p fun n => { n with next := none } with
          | none => none
          | some nodes => some (some t, ⟨nodes, s.head, some p, s.count - 1⟩)

/-- The first node taken off, if there is one. -/
def Ends.popFront (s : Ends α) : Option (Option Nat × Ends α) :=
  match s.head with
  | none => some (none, s)
  | some h =>
    if s.count = 1 then some (some h, ⟨s.nodes, none, none, s.count - 1⟩)
    else
      match s.nodes h with
      | none => none
      | some n =>
        match n.next with
        | none => none
        | some b =>
          match poke s.nodes b fun n => { n with prev := none } with
          | none => none
          | some nodes => some (some h, ⟨nodes, some b, s.tail, s.count - 1⟩)

/-- The walk from a link on, up to the first node to stop at. -/
def search (stop : α → Bool) (nodes : Nat → Option (Node α)) : Nat → Option Nat →
    Option (Option Nat)
  | 0, _ => none
  | _ + 1, none => some none
  | fuel + 1, some a =>
    match nodes a with
    | none => none
    | some n => if stop n.value then some (some a) else search stop nodes fuel n.next

/-- The cells that are met on the way along one kind of link. -/
inductive Visits (nodes : Nat → Option (Node α)) (link : Node α → Option Nat) :
    Option Nat → List (Nat × α) → Prop
  | done : Visits nodes link none []
  | step {a : Nat} {n : Node α} {cells : List (Nat × α)} (hnode : nodes a = some n)
      (hrest : Visits nodes link (link n) cells) : Visits nodes link (some a) ((a, n.value) :: cells)

/-! ## Segments -/

/-- The cells are linked one to the next, with `prev` before the first and `next` behind the
last. -/
def Seg (nodes : Nat → Option (Node α)) : Option Nat → List (Nat × α) → Option Nat → Prop
  | _, [], _ => True
  | prev, c :: cells, next =>
    nodes c.1 = some ⟨c.2, (first cells).or next, prev⟩ ∧ Seg nodes (some c.1) cells next

structure Holds (s : Ends α) (cells : List (Nat × α)) : Prop where
  nodup : (cells.map Prod.fst).Nodup
  seg : Seg s.nodes none cells none
  head : s.head = first cells
  tail : s.tail = last cells
  count : s.count = cells.length

theorem holds_empty (nodes : Nat → Option (Node α)) : Holds (Ends.empty nodes) [] :=
  ⟨List.nodup_nil, trivial, rfl, rfl, rfl⟩

section

variable {nodes nodes' : Nat → Option (Node α)} {prev next : Option Nat}
  {cells xs ys : List (Nat × α)} {a : Nat} {v : α}

theorem first_append (xs ys : List (Nat × α)) : first (xs ++ ys) = (first xs).or (first ys) := by
  cases xs with
  | nil => rfl
  | cons x xs => rfl

theorem last_concat (xs : List (Nat × α)) (c : Nat × α) : last (xs ++ [c]) = some c.1 := by
  rw [last, List.getLast?_concat]
  rfl

theorem last_append_cons (xs : List (Nat × α)) (c : Nat × α) (ys : List (Nat × α)) :
    last (xs ++ c :: ys) = last (c :: ys) := by
  rw [last, last, List.getLast?_append, List.getLast?_cons]
  rfl

theorem seg_append : Seg nodes prev (xs ++ ys) next ↔
    Seg nodes prev xs ((first ys).or next) ∧ Seg nodes ((last xs).or prev) ys next := by
  induction xs generalizing prev with
  | nil => exact ⟨fun h => ⟨trivial, h⟩, And.right⟩
  | cons x xs ih =>
    have hlast : (last (x :: xs)).or prev = (last xs).or (some x.1) := by
      cases xs with
      | nil => rfl
      | cons x' xs =>
        rw [last, last, List.getLast?_cons_cons, List.getLast?_cons]
        rfl
    rw [List.cons_append, Seg, Seg, ih, hlast, first_append, Option.or_assoc, and_assoc]

theorem Seg.congr (h : Seg nodes prev cells next) (heq : ∀ c ∈ cells, nodes' c.1 = nodes c.1) :
    Seg nodes' prev cells next := by
  induction cells generalizing prev with
  | nil => trivial
  | cons c cells ih =>
    obtain ⟨hc, hcells⟩ := List.forall_mem_cons.mp heq
    exact ⟨hc.trans h.1, ih h.2 hcells⟩

theorem Seg.node (h : Seg nodes prev cells next) : ∀ c ∈ cells, (nodes c.1).isSome := by
  induction cells generalizing prev with
  | nil => exact fun c hc => absurd hc List.not_mem_nil
  | cons c cells ih =>
    refine List.forall_mem_cons.mpr ⟨?_, ih h.2⟩
    rw [h.1]
    rfl

theorem poke_of_some (h : (nodes a).isSome) (f : Node α → Node α) :
    poke nodes a f = some (setNode nodes a f) := if_pos h

theorem setNode_ne {b : Nat} (h : b ≠ a) (f : Node α → Node α) : setNode nodes a f b = nodes b :=
  if_neg h

theorem setNode_self (f : Node α → Node α) : setNode nodes a f a = (nodes a).map f := if_pos rfl

theorem setNode_of_eq {n : Node α} (h : nodes a = some n) (f : Node α → Node α) :
    setNode nodes a f a = some (f n) := by
  rw [setNode_self, h]
  rfl

theorem poke_of_eq {n : Node α} (h : nodes a = some n) (f : Node α → Node α) :
    poke nodes a f = some (setNode nodes a f) := poke_of_some (by rw [h]; rfl) f

/-- A change to a node that is not among the cells. -/
theorem Seg.setNode (h : Seg nodes prev cells next) (ha : a ∉ cells.map Prod.fst)
    (f : Node α → Node α) : Seg (setNode nodes a f) prev cells next :=
  h.congr fun c hc => setNode_ne (fun heq => ha (by rw [← heq]; exact List.mem_map_of_mem hc)) f

theorem Seg.addNode (h : Seg nodes prev cells next) (ha : a ∉ cells.map Prod.fst) :
    Seg (addNode nodes a v) prev cells next :=
  h.congr fun c hc => if_neg fun heq => ha (by rw [← heq]; exact List.mem_map_of_mem hc)

theorem Seg.free (h : Seg nodes prev cells next) (ha : a ∉ cells.map Prod.fst) :
    Seg (free nodes a) prev cells next :=
  h.congr fun c hc => if_neg fun heq => ha (by rw [← heq]; exact List.mem_map_of_mem hc)

/-- The link before the first cell is set anew. -/
theorem Seg.setPrev {c : Nat × α} (h : Seg nodes prev (c :: cells) next)
    (hc : c.1 ∉ cells.map Prod.fst) (p : Option Nat) :
    Seg (LinkedNodes.setNode nodes c.1 fun n => { n with prev := p }) p (c :: cells) next := by
  refine ⟨?_, h.2.setNode hc _⟩
  rw [setNode_self, h.1]
  rfl

/-- The link behind the last cell is set anew. -/
theorem Seg.setNext {c : Nat × α} (h : Seg nodes prev (xs ++ [c]) next)
    (hc : c.1 ∉ xs.map Prod.fst) (p : Option Nat) :
    Seg (LinkedNodes.setNode nodes c.1 fun n => { n with next := p }) prev (xs ++ [c]) p := by
  obtain ⟨hxs, hlast, -⟩ := seg_append.mp h
  refine seg_append.mpr ⟨hxs.setNode hc _, ?_, trivial⟩
  rw [setNode_self, hlast]
  rfl

theorem addNode_self : addNode nodes a v a = some ⟨v, none, none⟩ := if_pos rfl

theorem addNode_isSome {b : Nat} (h : (nodes b).isSome) : (addNode nodes a v b).isSome := by
  unfold LinkedEnds.addNode
  split
  · rfl
  · exact h

theorem setNode_isSome {b : Nat} (f : Node α → Node α) (h : (nodes b).isSome) :
    (LinkedNodes.setNode nodes a f b).isSome := by
  unfold LinkedNodes.setNode
  split
  · rw [Option.isSome_map]
    exact h
  · exact h

end

section

variable {s : Ends α} {cells xs ys : List (Nat × α)} {a : Nat} {v : α}

theorem Holds.fresh (h : Holds s cells) (ha : s.nodes a = none) : a ∉ cells.map Prod.fst := by
  intro hmem
  obtain ⟨c, hc, rfl⟩ := List.mem_map.mp hmem
  have hnode := h.seg.node c hc
  rw [ha] at hnode
  cases hnode

theorem Holds.linkFront (h : Holds s cells) (ha : s.nodes a = none) (v : α) :
    ∃ s', (s.create a v).linkFront a = some s' ∧ Holds s' ((a, v) :: cells) := by
  have hfresh := h.fresh ha
  have hcount : s.count + 1 = ((a, v) :: cells).length := by
    rw [h.count, List.length_cons]
    rfl
  cases cells with
  | nil =>
    refine ⟨_, by rw [Ends.linkFront, Ends.create, h.head]; rfl, List.nodup_singleton a, ⟨?_, trivial⟩, rfl,
      rfl, hcount⟩
    exact addNode_self
  | cons c cells =>
    have hca : c.1 ≠ a := fun heq => hfresh (by rw [heq.symm]; exact List.mem_cons_self)
    have hseg := (h.seg.addNode (v := v) hfresh).setPrev (List.nodup_cons.mp h.nodup).1 (some a)
    have hnew : (LinkedNodes.setNode (LinkedEnds.addNode s.nodes a v) c.1
        (fun n => { n with prev := some a })) a = some ⟨v, none, none⟩ := by
      rw [setNode_ne hca.symm, addNode_self]
    have hlink : (s.create a v).linkFront a = some ⟨LinkedNodes.setNode (LinkedNodes.setNode
        (LinkedEnds.addNode s.nodes a v) c.1 fun n => { n with prev := some a }) a
          fun n => { n with next := some c.1 }, some a, s.tail, s.count + 1⟩ := by
      rw [Ends.linkFront, Ends.create, h.head, first_cons]
      simp only
      rw [poke_of_some (addNode_isSome (h.seg.node c List.mem_cons_self))]
      simp only
      rw [poke_of_eq hnew]
    refine ⟨_, hlink, List.nodup_cons.mpr ⟨hfresh, h.nodup⟩, ⟨?_, hseg.setNode hfresh _⟩, rfl, ?_,
      hcount⟩
    · exact setNode_of_eq hnew _
    · exact h.tail.trans (last_append_cons [(a, v)] c cells).symm

theorem Holds.linkBack (h : Holds s cells) (ha : s.nodes a = none) (v : α) :
    ∃ s', (s.create a v).linkBack a = some s' ∧ Holds s' (cells ++ [(a, v)]) := by
  have hfresh := h.fresh ha
  have hcount : s.count + 1 = (cells ++ [(a, v)]).length := by
    rw [h.count, List.length_append]
    rfl
  have hnodup : ((cells ++ [(a, v)]).map Prod.fst).Nodup := by
    rw [List.map_append]
    exact List.nodup_append'.mpr ⟨h.nodup, List.nodup_singleton a,
      List.disjoint_singleton.mpr hfresh⟩
  rcases List.eq_nil_or_concat cells with rfl | ⟨xs, c, rfl⟩
  · refine ⟨_, by rw [Ends.linkBack, Ends.create, h.tail]; rfl, hnodup, ⟨?_, trivial⟩, rfl, rfl, hcount⟩
    exact addNode_self
  · rw [List.concat_eq_append] at *
    have hca : c.1 ≠ a := fun heq => hfresh (by rw [heq.symm]; simp)
    have hcxs : c.1 ∉ xs.map Prod.fst := by
      have hn := h.nodup
      rw [List.map_append] at hn
      exact List.disjoint_singleton.mp (List.nodup_append'.mp hn).2.2
    have hseg := (h.seg.addNode (v := v) hfresh).setNext hcxs (some a)
    have hnew : (LinkedNodes.setNode (LinkedEnds.addNode s.nodes a v) c.1
        (fun n => { n with next := some a })) a = some ⟨v, none, none⟩ := by
      rw [setNode_ne hca.symm, addNode_self]
    have hlink : (s.create a v).linkBack a = some ⟨LinkedNodes.setNode (LinkedNodes.setNode
        (LinkedEnds.addNode s.nodes a v) c.1 fun n => { n with next := some a }) a
          fun n => { n with prev := some c.1 }, s.head, some a, s.count + 1⟩ := by
      rw [Ends.linkBack, Ends.create, h.tail, last_concat]
      simp only
      rw [poke_of_some (addNode_isSome (h.seg.node c (by simp)))]
      simp only
      rw [poke_of_eq hnew]
    refine ⟨_, hlink, hnodup, seg_append.mpr ⟨hseg.setNode hfresh _, ?_, trivial⟩, ?_,
      (last_concat (xs ++ [c]) (a, v)).symm, hcount⟩
    · rw [last_concat]
      exact setNode_of_eq hnew _
    · show s.head = _
      rw [h.head, first_append, first_append (xs ++ [c]), first_append, Option.or_assoc]
      rfl

/-- A cell is not among those around it. -/
theorem not_mem_of_nodup {c : Nat × α} (h : ((xs ++ c :: ys).map Prod.fst).Nodup) :
    c.1 ∉ xs.map Prod.fst ∧ c.1 ∉ ys.map Prod.fst := by
  rw [List.map_append, List.map_cons] at h
  have hnot := (List.nodup_cons.mp (List.perm_middle.nodup_iff.mp h)).1
  exact ⟨fun hm => hnot (List.mem_append_left _ hm), fun hm => hnot (List.mem_append_right _ hm)⟩

theorem Holds.linkBefore {p b : Nat × α} (h : Holds s (xs ++ p :: b :: ys))
    (ha : s.nodes a = none) (v : α) :
    ∃ s', (s.create a v).linkBefore a p.1 b.1 = some s' ∧ Holds s' (xs ++ p :: (a, v) :: b :: ys) := by
  have hfresh := h.fresh ha
  have hnodup := h.nodup
  have hmem : ∀ c ∈ xs ++ p :: b :: ys, c.1 ≠ a :=
    fun c hc heq => hfresh (by rw [← heq]; exact List.mem_map_of_mem hc)
  have hpa : p.1 ≠ a := hmem p (by simp)
  have hba : b.1 ≠ a := hmem b (by simp)
  have hsplit : xs ++ p :: b :: ys = (xs ++ [p]) ++ b :: ys := by simp
  have hpxs := (not_mem_of_nodup hnodup).1
  have hpys := (not_mem_of_nodup hnodup).2
  have hb := not_mem_of_nodup (by rw [← hsplit]; exact hnodup)
  have hxsa : a ∉ (xs ++ [p]).map Prod.fst := fun hm => hfresh (by
    rw [hsplit, List.map_append]; exact List.mem_append_left _ hm)
  have hysa : a ∉ (b :: ys).map Prod.fst := fun hm => hfresh (by
    rw [hsplit, List.map_append]; exact List.mem_append_right _ hm)
  have hseg := h.seg
  rw [hsplit] at hseg
  obtain ⟨hxs, hys⟩ := seg_append.mp hseg
  -- the memory after each of the four links
  let nodes₀ := LinkedEnds.addNode s.nodes a v
  let nodes₁ := LinkedNodes.setNode nodes₀ a fun n => { n with next := some b.1 }
  let nodes₂ := LinkedNodes.setNode nodes₁ p.1 fun n => { n with next := some a }
  let nodes₃ := LinkedNodes.setNode nodes₂ a fun n => { n with prev := some p.1 }
  let nodes₄ := LinkedNodes.setNode nodes₃ b.1 fun n => { n with prev := some a }
  have hleft : Seg nodes₄ none (xs ++ [p]) (some a) :=
    ((((hxs.addNode hxsa).setNode hxsa _).setNext hpxs (some a)).setNode hxsa _).setNode hb.1 _
  have hright : Seg nodes₄ (some a) (b :: ys) none :=
    ((((hys.addNode hysa).setNode hysa _).setNode hpys _).setNode hysa _).setPrev hb.2 (some a)
  have h₁ : nodes₁ a = some ⟨v, some b.1, none⟩ := setNode_of_eq addNode_self _
  have h₂ : nodes₂ a = some ⟨v, some b.1, none⟩ := (setNode_ne hpa.symm _).trans h₁
  have hnew : nodes₄ a = some ⟨v, some b.1, some p.1⟩ :=
    (setNode_ne hba.symm _).trans (setNode_of_eq h₂ _)
  have hp₁ : (nodes₁ p.1).isSome :=
    setNode_isSome _ (addNode_isSome (h.seg.node p (by simp)))
  have hb₃ : (nodes₃ b.1).isSome := setNode_isSome _ (setNode_isSome _ (setNode_isSome _
    (addNode_isSome (h.seg.node b (by simp)))))
  have hlink : (s.create a v).linkBefore a p.1 b.1 = some ⟨nodes₄, s.head, s.tail, s.count + 1⟩ := by
    rw [Ends.linkBefore, Ends.create, poke_of_eq addNode_self]
    simp only
    rw [poke_of_some hp₁]
    simp only
    rw [poke_of_eq h₂]
    simp only
    rw [poke_of_some hb₃]
  have hcells : xs ++ p :: (a, v) :: b :: ys = (xs ++ [p]) ++ (a, v) :: b :: ys := by simp
  refine ⟨_, hlink, ?_, ?_, ?_, ?_, ?_⟩
  · rw [hcells, List.map_append, List.map_cons]
    refine List.perm_middle.nodup_iff.mpr (List.nodup_cons.mpr ⟨?_, ?_⟩)
    · rw [← List.map_append, ← hsplit]
      exact hfresh
    · rw [← List.map_append, ← hsplit]
      exact hnodup
  · rw [hcells]
    refine seg_append.mpr ⟨hleft, ?_, hright⟩
    rw [last_concat]
    exact hnew
  · rw [h.head, first_append, first_append]
    rfl
  · show s.tail = _
    rw [h.tail, hsplit, hcells, last_append_cons, last_append_cons]
    exact (last_append_cons [(a, v)] b ys).symm
  · rw [h.count]
    simp only [List.length_append, List.length_cons]
    push_cast
    omega

theorem Holds.popBack {c : Nat × α} (h : Holds s (xs ++ [c])) :
    ∃ s', s.popBack = some (some c.1, s') ∧ Holds s' xs := by
  have hcount := h.count
  rw [List.length_append, List.length_singleton] at hcount
  have hnodup := (h.nodup.sublist ((List.sublist_append_left xs [c]).map Prod.fst))
  rcases List.eq_nil_or_concat xs with rfl | ⟨xs, p, rfl⟩
  · have hone : s.count = 1 := hcount
    refine ⟨⟨s.nodes, none, none, s.count - 1⟩, ?_, List.nodup_nil, trivial, rfl, rfl, ?_⟩
    · rw [Ends.popBack, h.tail]
      exact if_pos hone
    · rw [hone]
      rfl
  rw [List.concat_eq_append] at *
  have hne : s.count ≠ 1 := by
    rw [hcount, List.length_append, List.length_singleton]
    omega
  obtain ⟨hxs, hc, -⟩ := seg_append.mp h.seg
  rw [last_concat] at hc
  have hpxs : p.1 ∉ xs.map Prod.fst := by
    rw [List.append_assoc] at h
    exact (not_mem_of_nodup h.nodup).1
  have hsub : s.count - 1 = (xs ++ [p]).length := by
    rw [hcount]
    push_cast
    exact Int.add_sub_cancel _ _
  refine ⟨⟨LinkedNodes.setNode s.nodes p.1 fun n => { n with next := none }, s.head, some p.1,
    s.count - 1⟩, ?_, hnodup, hxs.setNext hpxs none, ?_, (last_concat xs p).symm, hsub⟩
  · rw [Ends.popBack, h.tail, last_concat]
    simp only
    rw [if_neg hne, hc]
    simp only [Option.some_or]
    rw [poke_of_some (h.seg.node p (by simp))]
  · show s.head = _
    rw [h.head, first_append, first_append, Option.or_assoc]
    rfl

theorem Holds.popFront {c : Nat × α} (h : Holds s (c :: cells)) :
    ∃ s', s.popFront = some (some c.1, s') ∧ Holds s' cells := by
  have hcount := h.count
  rw [List.length_cons] at hcount
  have hnodup := (List.nodup_cons.mp h.nodup).2
  cases cells with
  | nil =>
    have hone : s.count = 1 := hcount
    refine ⟨⟨s.nodes, none, none, s.count - 1⟩, ?_, List.nodup_nil, trivial, rfl, rfl, ?_⟩
    · rw [Ends.popFront, h.head]
      exact if_pos hone
    · rw [hone]
      rfl
  | cons b cells =>
    have hne : s.count ≠ 1 := by
      rw [hcount, List.length_cons]
      omega
    obtain ⟨hc, hrest⟩ := h.seg
    have hsub : s.count - 1 = (b :: cells).length := by
      rw [hcount]
      push_cast
      exact Int.add_sub_cancel _ _
    refine ⟨⟨LinkedNodes.setNode s.nodes b.1 fun n => { n with prev := none }, some b.1, s.tail,
      s.count - 1⟩, ?_, hnodup, hrest.setPrev (List.nodup_cons.mp hnodup).1 none, rfl, ?_, hsub⟩
    · rw [Ends.popFront, h.head, first_cons]
      simp only
      rw [if_neg hne, hc, first_cons]
      simp only [Option.some_or]
      rw [poke_of_some (h.seg.node b (by simp))]
    · exact h.tail.trans (last_append_cons [c] b cells)

/-- Memory that is given back is not the list's. -/
theorem Holds.free (h : Holds s cells) (ha : a ∉ cells.map Prod.fst) :
    Holds { s with nodes := LinkedNodes.free s.nodes a } cells :=
  ⟨h.nodup, h.seg.free ha, h.head, h.tail, h.count⟩

theorem Seg.search {nodes : Nat → Option (Node α)} {prev : Option Nat} (stop : α → Bool)
    (h : Seg nodes prev cells none) {fuel : Nat} (hfuel : cells.length < fuel) :
    search stop nodes fuel (first cells) =
      some (first (cells.dropWhile fun c => !stop c.2)) := by
  induction fuel generalizing prev cells with
  | zero => exact absurd hfuel (Nat.not_lt_zero _)
  | succ fuel ih =>
    cases cells with
    | nil => rfl
    | cons c cells =>
      obtain ⟨hc, hrest⟩ := h
      rw [Option.or_none] at hc
      rw [first_cons, LinkedEnds.search, hc]
      cases hstop : stop c.2 with
      | true => simp [hstop, first_cons]
      | false =>
        rw [List.dropWhile_cons_of_pos (by rw [hstop]; rfl)]
        simp only [hstop, Bool.false_eq_true, if_false]
        exact ih hrest (Nat.lt_of_succ_lt_succ hfuel)

theorem Seg.visits_next {nodes : Nat → Option (Node α)} {prev : Option Nat}
    (h : Seg nodes prev cells none) : Visits nodes Node.next (first cells) cells := by
  induction cells generalizing prev with
  | nil => exact Visits.done
  | cons c cells ih =>
    refine Visits.step h.1 ?_
    rw [Option.or_none]
    exact ih h.2

theorem Seg.visits_prev {nodes : Nat → Option (Node α)} {next : Option Nat}
    (h : Seg nodes none cells next) : Visits nodes Node.prev (last cells) cells.reverse := by
  induction cells using List.reverseRecOn generalizing next with
  | nil => exact Visits.done
  | append_singleton cells c ih =>
    obtain ⟨hcells, hc, -⟩ := seg_append.mp h
    rw [last_concat, List.reverse_append, List.reverse_singleton, List.singleton_append]
    refine Visits.step hc ?_
    rw [Option.or_none]
    exact ih hcells

theorem Visits.unique {nodes : Nat → Option (Node α)} {link : Node α → Option Nat}
    {p : Option Nat} (h : Visits nodes link p xs) (h' : Visits nodes link p ys) : xs = ys := by
  induction h generalizing ys with
  | done =>
    cases h'
    rfl
  | step hnode _ ih =>
    cases h' with
    | step hnode' hrest' =>
      obtain rfl := Option.some.inj (hnode.symm.trans hnode')
      rw [ih hrest']

theorem first_eq_none : first cells = none ↔ cells = [] := by
  cases cells with
  | nil => exact ⟨fun _ => rfl, fun _ => rfl⟩
  | cons c cells => exact ⟨nofun, nofun⟩

theorem last_eq_none : last cells = none ↔ cells = [] := by
  rw [last, Option.map_eq_none_iff, List.getLast?_eq_none_iff]

end

end LinkedEnds
