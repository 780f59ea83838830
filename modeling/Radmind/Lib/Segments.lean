import Mathlib

/-!
# The segments of a text

A text is cut behind each separator.  What stands behind the last separator is a segment of its
own, one without a separator at its end.
-/

namespace Segments

/-- What stands before a separator, and whether there is one. -/
structure Segment (α : Type) where
  line : List α
  ended : Bool
  deriving DecidableEq, Repr

variable {α : Type} (sep : α)

def Segment.text (s : Segment α) : List α := s.line ++ if s.ended then [sep] else []

/-- The text of some segments, one behind the other. -/
def textOf (ss : List (Segment α)) : List α := ss.flatMap (Segment.text sep)

/-- A segment that a text can have. -/
structure Segment.Valid (s : Segment α) : Prop where
  line : sep ∉ s.line
  nonempty : s.ended = false → s.line ≠ []

variable {sep}

theorem textOf_cons (s : Segment α) (ss : List (Segment α)) :
    textOf sep (s :: ss) = s.text sep ++ textOf sep ss := rfl

theorem Segment.Valid.text_ne_nil {s : Segment α} (h : s.Valid sep) : s.text sep ≠ [] := by
  intro hnil
  obtain ⟨hline, hend⟩ := List.append_eq_nil_iff.mp hnil
  cases hended : s.ended with
  | true =>
    rw [hended] at hend
    cases hend
  | false => exact h.nonempty hended hline

theorem textOf_ne_nil {ss : List (Segment α)} (hvalid : ∀ s ∈ ss, s.Valid sep) (hne : ss ≠ []) :
    textOf sep ss ≠ [] := by
  obtain ⟨s, ss, rfl⟩ := List.exists_cons_of_ne_nil hne
  rw [textOf_cons]
  exact List.append_ne_nil_of_left_ne_nil (hvalid s List.mem_cons_self).text_ne_nil _

/-- Only the last segment can be without a separator. -/
def Closed (ss : List (Segment α)) : Prop := ∀ s ∈ ss.dropLast, s.ended = true

theorem Closed.tail {s : Segment α} {ss : List (Segment α)} (h : Closed (s :: ss)) : Closed ss := by
  cases ss with
  | nil => exact fun s hs => absurd hs List.not_mem_nil
  | cons s' ss => exact fun r hr => h r (List.mem_cons_of_mem _ hr)

variable [DecidableEq α]

variable (sep) in
/-- The segments of a text. -/
def segments : List α → List (Segment α)
  | [] => []
  | c :: t =>
    if c = sep then ⟨[], true⟩ :: segments t
    else
      match segments t with
      | [] => [⟨[c], false⟩]
      | s :: ss => ⟨c :: s.line, s.ended⟩ :: ss

theorem textOf_segments (t : List α) : textOf sep (segments sep t) = t := by
  induction t with
  | nil => rfl
  | cons c t ih =>
    rw [segments]
    split
    · next hc =>
      rw [textOf_cons, ih, hc]
      rfl
    · cases hs : segments sep t with
      | nil =>
        rw [hs] at ih
        rw [← ih]
        rfl
      | cons s ss =>
        rw [hs] at ih
        exact congrArg (c :: ·) ih

theorem valid_of_mem_segments {t : List α} : ∀ s ∈ segments sep t, s.Valid sep := by
  induction t with
  | nil => exact fun s hs => absurd hs List.not_mem_nil
  | cons c t ih =>
    rw [segments]
    split
    · refine List.forall_mem_cons.mpr ⟨⟨List.not_mem_nil, fun h => Bool.noConfusion h⟩, ih⟩
    · next hc =>
      cases hs : segments sep t with
      | nil =>
        refine List.forall_mem_singleton.mpr ⟨?_, fun _ => List.cons_ne_nil c []⟩
        exact fun hm => hc (List.mem_singleton.mp hm).symm
      | cons s ss =>
        rw [hs] at ih
        obtain ⟨hfirst, hrest⟩ := List.forall_mem_cons.mp ih
        refine List.forall_mem_cons.mpr ⟨⟨?_, fun _ => List.cons_ne_nil _ _⟩, hrest⟩
        intro hm
        rcases List.mem_cons.mp hm with heq | hm
        · exact hc heq.symm
        · exact hfirst.line hm

theorem closed_segments (t : List α) : Closed (segments sep t) := by
  have hcons : ∀ (s : Segment α) {ss : List (Segment α)}, (ss ≠ [] → s.ended = true) →
      Closed ss → Closed (s :: ss) := by
    intro s ss hs hss
    cases ss with
    | nil => exact fun r hr => absurd hr List.not_mem_nil
    | cons s' ss => exact List.forall_mem_cons.mpr ⟨hs (List.cons_ne_nil _ _), hss⟩
  induction t with
  | nil => exact fun s hs => absurd hs List.not_mem_nil
  | cons c t ih =>
    rw [segments]
    split
    · exact hcons _ (fun _ => rfl) ih
    · cases hs : segments sep t with
      | nil => exact hcons _ (fun h => absurd rfl h) (fun r hr => absurd hr List.not_mem_nil)
      | cons s ss =>
        rw [hs] at ih
        refine hcons _ (fun hne => ?_) ih.tail
        obtain ⟨s', ss, rfl⟩ := List.exists_cons_of_ne_nil hne
        exact ih s List.mem_cons_self

/-! ## The segments of texts put together -/

theorem segments_ended {line : List α} (hline : sep ∉ line) (t : List α) :
    segments sep (line ++ sep :: t) = ⟨line, true⟩ :: segments sep t := by
  induction line with
  | nil => exact if_pos rfl
  | cons c line ih =>
    rw [List.mem_cons, not_or] at hline
    rw [List.cons_append, segments, if_neg (Ne.symm hline.1), ih hline.2]

theorem segments_open {line : List α} (hline : sep ∉ line) (hne : line ≠ []) :
    segments sep line = [⟨line, false⟩] := by
  induction line with
  | nil => exact absurd rfl hne
  | cons c line ih =>
    rw [List.mem_cons, not_or] at hline
    rw [segments, if_neg (Ne.symm hline.1)]
    cases line with
    | nil => rfl
    | cons d line => rw [ih hline.2 (List.cons_ne_nil _ _)]

/-- Without a separator between them, a line and the first segment of a text are one. -/
theorem length_segments_merged {line t : List α} (hline : sep ∉ line) (ht : t ≠ []) :
    (segments sep (line ++ t)).length = (segments sep t).length := by
  induction line with
  | nil => rfl
  | cons c line ih =>
    rw [List.mem_cons, not_or] at hline
    rw [List.cons_append, segments, if_neg (Ne.symm hline.1)]
    cases hs : segments sep (line ++ t) with
    | nil =>
      have htext : textOf sep (segments sep (line ++ t)) = line ++ t := textOf_segments _
      rw [hs] at htext
      exact absurd htext.symm (List.append_ne_nil_of_right_ne_nil _ ht)
    | cons s ss =>
      have hlen := ih hline.2
      rw [hs] at hlen
      exact hlen

theorem segments_textOf {ss : List (Segment α)} (hvalid : ∀ s ∈ ss, s.Valid sep)
    (hclosed : Closed ss) : segments sep (textOf sep ss) = ss := by
  induction ss with
  | nil => rfl
  | cons s ss ih =>
    obtain ⟨hs, hss⟩ := List.forall_mem_cons.mp hvalid
    obtain ⟨line, ended⟩ := s
    cases ended with
    | true =>
      rw [textOf_cons, Segment.text, List.append_assoc]
      exact (segments_ended hs.line _).trans (congrArg _ (ih hss hclosed.tail))
    | false =>
      cases ss with
      | nil =>
        have htext : textOf sep [⟨line, false⟩] = line := by
          simp [textOf, Segment.text]
        rw [htext, segments_open hs.line (hs.nonempty rfl)]
      | cons s' ss => exact Bool.noConfusion (hclosed _ List.mem_cons_self)

theorem length_segments_textOf_le {ss : List (Segment α)} (hvalid : ∀ s ∈ ss, s.Valid sep) :
    (segments sep (textOf sep ss)).length ≤ ss.length := by
  induction ss with
  | nil => exact Nat.le_refl 0
  | cons s ss ih =>
    obtain ⟨hs, hss⟩ := List.forall_mem_cons.mp hvalid
    have hrest := ih hss
    obtain ⟨line, ended⟩ := s
    cases ended with
    | true =>
      rw [textOf_cons, Segment.text, List.append_assoc]
      rw [show (if true = true then [sep] else []) ++ textOf sep ss = sep :: textOf sep ss from rfl,
        segments_ended hs.line]
      exact Nat.succ_le_succ hrest
    | false =>
      rw [textOf_cons, Segment.text, List.append_assoc]
      by_cases hne : ss = []
      · subst hne
        have hline : segments sep (line ++ ([] ++ textOf sep [])) = [⟨line, false⟩] := by
          rw [show textOf sep ([] : List (Segment α)) = [] from rfl]
          simpa using segments_open hs.line (hs.nonempty rfl)
        exact (congrArg List.length hline).le
      · have hmerged := length_segments_merged hs.line (textOf_ne_nil hss hne)
        exact (hmerged.le.trans hrest).trans (Nat.le_succ _)

/-- Where a segment before the last one is open, a segment is lost. -/
theorem length_segments_textOf_lt {before after : List (Segment α)} {s : Segment α}
    (hvalid : ∀ r ∈ before ++ s :: after, r.Valid sep) (hopen : s.ended = false)
    (hafter : after ≠ []) :
    (segments sep (textOf sep (before ++ s :: after))).length < (before ++ s :: after).length := by
  induction before with
  | nil =>
    obtain ⟨hs, hrest⟩ := List.forall_mem_cons.mp hvalid
    obtain ⟨line, ended⟩ := s
    obtain rfl : ended = false := hopen
    have hmerged := length_segments_merged hs.line (textOf_ne_nil hrest hafter)
    have hle := length_segments_textOf_le hrest
    rw [List.nil_append, textOf_cons, Segment.text, List.append_assoc]
    exact Nat.lt_succ_of_le (hmerged.le.trans hle)
  | cons r before ih =>
    obtain ⟨hr, hrest⟩ := List.forall_mem_cons.mp hvalid
    have hlt := ih hrest
    obtain ⟨line, ended⟩ := r
    rw [List.cons_append, textOf_cons, Segment.text, List.append_assoc]
    cases ended with
    | true =>
      have hended := segments_ended hr.line (textOf sep (before ++ s :: after))
      exact (congrArg List.length hended).trans_lt (Nat.succ_lt_succ hlt)
    | false =>
      have hne : before ++ s :: after ≠ [] := by simp
      have hmerged := length_segments_merged hr.line (textOf_ne_nil hrest hne)
      exact (hmerged.trans_lt hlt).trans (Nat.lt_succ_self _)

end Segments
