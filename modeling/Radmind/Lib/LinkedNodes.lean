import Mathlib.Data.List.Nodup

/-!
# Doubly linked nodes

Nodes at addresses, each with a value and links to the node behind it and the one before
it.  `Holds` says which list a head stands for.  The link back from the head may be stale.
-/

namespace LinkedNodes

variable {α : Type}

structure Node (α : Type) where
  value : α
  next : Option Nat
  prev : Option Nat

structure Links (α : Type) where
  nodes : Nat → Option (Node α)
  head : Option Nat

/-- A change to one node, if it is there. -/
def setNode (nodes : Nat → Option (Node α)) (a : Nat) (f : Node α → Node α) :
    Nat → Option (Node α) := fun b => if b = a then (nodes b).map f else nodes b

/-- `free` -/
def free (nodes : Nat → Option (Node α)) (a : Nat) : Nat → Option (Node α) :=
  fun b => if b = a then none else nodes b

def Links.empty : Links α := ⟨fun _ => none, none⟩

/-- A node at a new address, in front of the others. -/
def Links.push (s : Links α) (a : Nat) (v : α) : Links α where
  nodes :=
    let nodes := fun b => if b = a then some ⟨v, s.head, none⟩ else s.nodes b
    match s.head with
    | none => nodes
    | some h => setNode nodes h fun n => { n with prev := some a }
  head := some a

/-- The nodes at `p` and `b` are linked past the one at `a`, and that one is freed. -/
def bridge (nodes : Nat → Option (Node α)) (p a b : Nat) : Nat → Option (Node α) :=
  let nodes := setNode nodes p fun m => { m with next := some b }
  let nodes := setNode nodes b fun m => { m with prev := some p }
  free nodes a

/-- Take out the node `n` at `a`.  No result stands for a link that leads nowhere. -/
def Links.unlink (s : Links α) (a : Nat) (n : Node α) : Option (Links α) :=
  if s.head = some a then some ⟨free s.nodes a, n.next⟩
  else
    match n.prev, n.next with
    | some p, some b =>
      if (s.nodes p).isSome && (s.nodes b).isSome then some ⟨bridge s.nodes p a b, s.head⟩
      else none
    | _, _ => none

/-- Walk along the nodes up to the first one to stop at, and take out those that are hit. -/
def Links.removeLoop (stop hit : α → Bool) : Nat → Links α → Option Nat → Option (Links α)
  | 0, _, _ => none
  | _ + 1, _, none => none
  | fuel + 1, s, some a =>
    match s.nodes a with
    | none => none
    | some n =>
      if stop n.value then some s
      else if hit n.value then
        match s.unlink a n with
        | none => none
        | some s => s.removeLoop stop hit fuel n.next
      else s.removeLoop stop hit fuel n.next

/-- The address of the first cell. -/
def first (cells : List (Nat × α)) : Option Nat := cells.head?.map Prod.fst

/-- The node of a cell that stands between `before` and `after`. -/
structure At (nodes : Nat → Option (Node α)) (before : List (Nat × α)) (c : Nat × α)
    (after : List (Nat × α)) (n : Node α) : Prop where
  node : nodes c.1 = some n
  value : n.value = c.2
  next : n.next = first after
  prev : ∀ p, before.getLast? = some p → n.prev = some p.1

/-- The cells are what the links lead to from the head on, and every link back but that of
the head leads to the cell before. -/
structure Holds (s : Links α) (cells : List (Nat × α)) : Prop where
  nodup : (cells.map Prod.fst).Nodup
  head : s.head = first cells
  at_cell : ∀ before c after, cells = before ++ c :: after → ∃ n, At s.nodes before c after n

theorem holds_empty : Holds (Links.empty : Links α) [] :=
  ⟨List.nodup_nil, rfl, fun before c after h => by simp at h⟩

theorem first_cons (c : Nat × α) (cells : List (Nat × α)) : first (c :: cells) = some c.1 := rfl

section

variable {s : Links α} {cells : List (Nat × α)}

theorem Holds.fresh (h : Holds s cells) {a : Nat} (ha : s.nodes a = none) :
    a ∉ cells.map Prod.fst := by
  intro hmem
  obtain ⟨c, hc, rfl⟩ := List.mem_map.mp hmem
  obtain ⟨before, after, hcells⟩ := List.append_of_mem hc
  obtain ⟨n, hn⟩ := h.at_cell before c after hcells
  rw [hn.node] at ha
  cases ha

theorem push_nodes_of_ne {a b : Nat} {v : α} (hb : b ≠ a) :
    (s.push a v).nodes b = if s.head = some b then
      (s.nodes b).map fun n => { n with prev := some a } else s.nodes b := by
  unfold Links.push
  cases hhead : s.head with
  | none => simp [hb]
  | some h =>
    by_cases hh : b = h
    · subst hh
      simp [setNode, hb]
    · simp [setNode, hb, hh, Ne.symm hh]

theorem push_nodes_self {a : Nat} {v : α} (ha : s.head ≠ some a) :
    (s.push a v).nodes a = some ⟨v, s.head, none⟩ := by
  unfold Links.push
  cases hhead : s.head with
  | none => simp
  | some h =>
    have hh : a ≠ h := fun heq => ha (by rw [hhead, heq])
    simp [setNode, hh]

/-- A cell is not among those before it or behind it. -/
theorem ne_of_nodup {before after : List (Nat × α)} {c d : Nat × α}
    (h : ((before ++ c :: after).map Prod.fst).Nodup) (hd : d ∈ before ++ after) : d.1 ≠ c.1 := by
  have hperm : ((before ++ c :: after).map Prod.fst).Perm
      (c.1 :: (before ++ after).map Prod.fst) := (List.perm_middle.map Prod.fst)
  have hnot := (List.nodup_cons.mp (hperm.nodup_iff.mp h)).1
  intro heq
  exact hnot (List.mem_map.mpr ⟨d, hd, heq⟩)

theorem Holds.push (h : Holds s cells) {a : Nat} (ha : s.nodes a = none) (v : α) :
    Holds (s.push a v) ((a, v) :: cells) := by
  have hfresh := h.fresh ha
  have hhead : s.head ≠ some a := by
    rw [h.head]
    intro heq
    cases cells with
    | nil => cases heq
    | cons c cells => exact hfresh (by rw [← Option.some.inj heq]; simp)
  refine ⟨List.nodup_cons.mpr ⟨hfresh, h.nodup⟩, rfl, fun before c after hsplit => ?_⟩
  cases before with
  | nil =>
    obtain ⟨rfl, rfl⟩ := List.cons.inj hsplit
    exact ⟨⟨v, s.head, none⟩, push_nodes_self hhead, rfl, h.head, by simp⟩
  | cons b before =>
    obtain ⟨rfl, hcells⟩ := List.cons.inj hsplit
    obtain ⟨n, hn⟩ := h.at_cell before c after hcells
    have hne : c.1 ≠ a := fun heq => hfresh (by rw [← heq, hcells]; simp)
    cases before with
    | nil =>
      -- the old head is linked back to the new one
      have hfirst : s.head = some c.1 := by rw [h.head, hcells]; rfl
      refine ⟨{ n with prev := some a }, ?_, hn.value, hn.next, fun p hp => ?_⟩
      · rw [push_nodes_of_ne hne, if_pos hfirst, hn.node]
        rfl
      · obtain rfl : (a, v) = p := Option.some.inj hp
        rfl
    | cons b before =>
      have hfirst : s.head ≠ some c.1 := by
        rw [h.head, hcells]
        intro heq
        have hnodup := h.nodup
        rw [hcells] at hnodup
        exact ne_of_nodup hnodup (List.mem_append_left _ List.mem_cons_self) (Option.some.inj heq)
      refine ⟨n, ?_, hn.value, hn.next, fun p hp => hn.prev p (by rwa [List.getLast?_cons_cons] at hp)⟩
      rw [push_nodes_of_ne hne, if_neg hfirst, hn.node]

/-- The cells before a cell and those behind it have different addresses. -/
theorem apart_of_nodup {before after : List (Nat × α)}
    (h : ((before ++ after).map Prod.fst).Nodup) {d e : Nat × α} (hd : d ∈ before)
    (he : e ∈ after) : d.1 ≠ e.1 := by
  rw [List.map_append] at h
  exact fun heq => (List.nodup_append'.mp h).2.2 (List.mem_map_of_mem hd)
    (heq ▸ List.mem_map_of_mem he)

section

variable {nodes : Nat → Option (Node α)} {p a b d : Nat}

theorem bridge_before (hpa : p ≠ a) (hpb : p ≠ b) : bridge nodes p a b p =
    (nodes p).map fun m => { m with next := some b } := by
  simp [bridge, free, setNode, hpa, hpb]

theorem bridge_behind (hba : b ≠ a) (hbp : b ≠ p) : bridge nodes p a b b =
    (nodes b).map fun m => { m with prev := some p } := by
  simp [bridge, free, setNode, hba, hbp]

theorem bridge_other (hda : d ≠ a) (hdp : d ≠ p) (hdb : d ≠ b) :
    bridge nodes p a b d = nodes d := by
  simp [bridge, free, setNode, hda, hdp, hdb]

end

/-- A node in the middle is taken out by the links of its neighbours. -/
theorem Holds.unlink_middle {front after : List (Nat × α)} {p c b : Nat × α} {n : Node α}
    (h : Holds s (front ++ p :: c :: b :: after)) (hn : s.nodes c.1 = some n) :
    ∃ s', s.unlink c.1 n = some s' ∧ Holds s' (front ++ p :: b :: after) := by
  have hnodup := h.nodup
  have hcells : front ++ p :: c :: b :: after = (front ++ [p]) ++ c :: b :: after := by simp
  obtain ⟨n', hc⟩ := h.at_cell (front ++ [p]) c (b :: after) hcells
  obtain rfl : n' = n := Option.some.inj (hc.node.symm.trans hn)
  obtain ⟨np, hp⟩ := h.at_cell front p (c :: b :: after) rfl
  obtain ⟨nb, hb⟩ := h.at_cell (front ++ [p, c]) b after (by simp)
  have hprev : n'.prev = some p.1 := hc.prev p (by simp)
  have hnext : n'.next = some b.1 := hc.next
  have hhead : s.head ≠ some c.1 := by
    rw [h.head]
    cases front with
    | nil =>
      have hpc : p.1 ≠ c.1 := ne_of_nodup (hcells ▸ hnodup) (by simp)
      simpa [first] using hpc
    | cons f front =>
      have hfc : f.1 ≠ c.1 := ne_of_nodup (hcells ▸ hnodup) (by simp)
      simpa [first] using hfc
  have hunlink : s.unlink c.1 n' = some ⟨bridge s.nodes p.1 c.1 b.1, s.head⟩ := by
    rw [Links.unlink, if_neg hhead, hprev, hnext]
    simp [hp.node, hb.node]
  have hpb : p.1 ≠ b.1 := apart_of_nodup (hcells ▸ hnodup) (by simp) (by simp)
  have hne : ∀ d ∈ front ++ p :: b :: after, d.1 ≠ c.1 :=
    fun d hd => ne_of_nodup (hcells ▸ hnodup) (by simpa using hd)
  refine ⟨_, hunlink, ?_, ?_, fun before d rest hsplit => ?_⟩
  · exact hnodup.sublist ((((List.sublist_cons_self c _).cons_cons p).append_left front).map Prod.fst)
  · show s.head = _
    rw [h.head]
    cases front with
    | nil => rfl
    | cons f front => rfl
  have hdne : d.1 ≠ c.1 := hne d (by rw [hsplit]; simp)
  show ∃ n, At (bridge s.nodes p.1 c.1 b.1) before d rest n
  rcases List.append_eq_append_iff.mp hsplit with ⟨mid, rfl, hmid⟩ | ⟨mid, rfl, hmid⟩
  · cases mid with
    | nil =>
      -- the cell before the one that is taken out
      obtain ⟨rfl, rfl⟩ := List.cons.inj hmid
      refine ⟨{ np with next := some b.1 }, ?_, hp.value, rfl, fun q hq => hp.prev q (by simpa using hq)⟩
      rw [bridge_before hdne hpb, hp.node]
      rfl
    | cons m mid =>
      obtain ⟨rfl, htail⟩ := List.cons.inj hmid
      cases mid with
      | nil =>
        -- the cell behind it
        obtain ⟨rfl, rfl⟩ := List.cons.inj htail
        refine ⟨{ nb with prev := some p.1 }, ?_, hb.value, hb.next, fun q hq => ?_⟩
        · rw [bridge_behind hdne hpb.symm, hb.node]
          rfl
        · obtain rfl : p = q := by simpa using hq
          rfl
      | cons m' mid =>
        obtain ⟨rfl, rfl⟩ := List.cons.inj htail
        obtain ⟨nd, hd⟩ := h.at_cell (front ++ p :: c :: b :: mid) d rest (by simp)
        have hdp : d.1 ≠ p.1 := (apart_of_nodup (hcells ▸ hnodup) (by simp) (by simp)).symm
        have hdb : d.1 ≠ b.1 := by
          have hsplit' : front ++ p :: c :: b :: (mid ++ d :: rest) =
              (front ++ [p, c, b]) ++ (mid ++ d :: rest) := by simp
          exact (apart_of_nodup (hsplit' ▸ hnodup) (by simp) (by simp)).symm
        refine ⟨nd, ?_, hd.value, hd.next, fun q hq => hd.prev q ?_⟩
        · rw [bridge_other hdne hdp hdb, hd.node]
        · rw [← hq]
          simp [List.getLast?_append, List.getLast?_cons]
  · cases mid with
    | nil =>
      obtain ⟨rfl, rfl⟩ := List.cons.inj hmid
      refine ⟨{ np with next := some b.1 }, ?_, hp.value, rfl, fun q hq => hp.prev q (by simpa using hq)⟩
      rw [bridge_before hdne hpb, hp.node]
      rfl
    | cons m mid =>
      -- a cell further up the list
      obtain ⟨rfl, rfl⟩ := List.cons.inj hmid
      obtain ⟨nd, hd⟩ := h.at_cell before d (mid ++ p :: c :: b :: after) (by simp)
      have hsplit' : before ++ d :: mid ++ p :: c :: b :: after =
          (before ++ d :: mid) ++ (p :: c :: b :: after) := rfl
      have hdp : d.1 ≠ p.1 := apart_of_nodup (hsplit' ▸ hnodup) (by simp) (by simp)
      have hdb : d.1 ≠ b.1 := apart_of_nodup (hsplit' ▸ hnodup) (by simp) (by simp)
      refine ⟨nd, ?_, hd.value, ?_, hd.prev⟩
      · rw [bridge_other hdne hdp hdb, hd.node]
      · rw [hd.next]
        cases mid with
        | nil => rfl
        | cons m mid => rfl

theorem Holds.unlink_head {after : List (Nat × α)} {c : Nat × α} {n : Node α}
    (h : Holds s (c :: after)) (hn : s.nodes c.1 = some n) :
    ∃ s', s.unlink c.1 n = some s' ∧ Holds s' after := by
  have hunlink : s.unlink c.1 n = some ⟨free s.nodes c.1, n.next⟩ := by
    rw [Links.unlink, if_pos (show s.head = some c.1 from h.head)]
  obtain ⟨n', hc⟩ := h.at_cell [] c after rfl
  obtain rfl : n' = n := Option.some.inj (hc.node.symm.trans hn)
  refine ⟨_, hunlink, (List.nodup_cons.mp h.nodup).2, hc.next, fun before d rest hsplit => ?_⟩
  obtain ⟨nd, hd⟩ := h.at_cell (c :: before) d rest (by rw [hsplit]; rfl)
  have hdc : d.1 ≠ c.1 := ne_of_nodup (show (([] ++ c :: after).map Prod.fst).Nodup from h.nodup)
    (by rw [hsplit]; simp)
  refine ⟨nd, ?_, hd.value, hd.next, fun q hq => hd.prev q ?_⟩
  · show free s.nodes c.1 d.1 = _
    rw [free, if_neg hdc, hd.node]
  · cases before with
    | nil => cases hq
    | cons b before => exact hq

/-- A node that is taken out is missing from the list, and nothing else changes in it. -/
theorem Holds.unlink {before after : List (Nat × α)} {c : Nat × α} {n : Node α}
    (h : Holds s (before ++ c :: after)) (hn : s.nodes c.1 = some n) (hafter : after ≠ []) :
    ∃ s', s.unlink c.1 n = some s' ∧ Holds s' (before ++ after) := by
  obtain ⟨b, after, rfl⟩ := List.exists_cons_of_ne_nil hafter
  rcases List.eq_nil_or_concat before with rfl | ⟨front, p, rfl⟩
  · exact h.unlink_head hn
  · rw [List.concat_eq_append, List.append_assoc, List.singleton_append] at h
    obtain ⟨s', hs', h'⟩ := h.unlink_middle hn
    refine ⟨s', hs', ?_⟩
    rwa [List.concat_eq_append, List.append_assoc, List.singleton_append]

/-- The walk takes out what is hit before the first cell to stop at. -/
theorem Holds.removeLoop {stop hit : α → Bool} {before rest tail : List (Nat × α)} {z : Nat × α}
    (h : Holds s (before ++ rest ++ z :: tail)) (hrest : ∀ c ∈ rest, stop c.2 = false)
    (hz : stop z.2 = true) {fuel : Nat} (hfuel : rest.length < fuel) :
    ∃ s', s.removeLoop stop hit fuel (first (rest ++ z :: tail)) = some s' ∧
      Holds s' (before ++ rest.filter (fun c => !hit c.2) ++ z :: tail) := by
  induction fuel generalizing s before rest with
  | zero => exact absurd hfuel (Nat.not_lt_zero _)
  | succ fuel ih =>
    cases rest with
    | nil =>
      rw [List.append_nil] at h
      obtain ⟨n, hn⟩ := h.at_cell before z tail rfl
      refine ⟨s, ?_, by simpa using h⟩
      rw [List.nil_append, first_cons, Links.removeLoop, hn.node]
      simp [hn.value, hz]
    | cons c rest =>
      obtain ⟨hc, hrest⟩ := List.forall_mem_cons.mp hrest
      rw [List.append_assoc, List.cons_append] at h
      obtain ⟨n, hn⟩ := h.at_cell before c (rest ++ z :: tail) rfl
      have hfuel' : rest.length < fuel := by simpa using hfuel
      cases hhit : hit c.2 with
      | true =>
        obtain ⟨s₁, hs₁, h₁⟩ := h.unlink hn.node (by simp)
        rw [← List.append_assoc] at h₁
        obtain ⟨s', hs', h'⟩ := ih h₁ hrest hfuel'
        refine ⟨s', ?_, by simpa [hhit] using h'⟩
        rw [List.cons_append, first_cons, Links.removeLoop, hn.node]
        simp [hn.value, hc, hhit, hs₁, hn.next, hs']
      | false =>
        have hassoc : before ++ c :: (rest ++ z :: tail) = before ++ [c] ++ rest ++ z :: tail := by
          simp
        rw [hassoc] at h
        obtain ⟨s', hs', h'⟩ := ih h hrest hfuel'
        refine ⟨s', ?_, by simpa [hhit] using h'⟩
        rw [List.cons_append, first_cons, Links.removeLoop, hn.node]
        simp [hn.value, hc, hhit, hn.next, hs']

end

end LinkedNodes
