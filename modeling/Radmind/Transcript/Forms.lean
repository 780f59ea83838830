import Radmind.Transcript.Parse

/-!
# Absolute and relative paths

`convert_path_type` brings a path into the form of the run.  The root is converted by a branch
of its own, and still the order of the paths is the same in both forms.
-/

namespace Radmind

/-- What is behind the root has no trailing slash. -/
def NoTrailingSlash (q : CStr) : Prop := q.getLast? ≠ some slash

def absolutePath (q : CStr) : CStr := slash :: q

def relativePath (q : CStr) : CStr := if q = [] then [dot] else dot :: slash :: q

/-- Paths of one form: '/' or '/...', or '.' or './...'. -/
def SameForm (p q : CStr) : Prop :=
  ∃ form ∈ [absolutePath, relativePath], ∃ a b, NoTrailingSlash a ∧ NoTrailingSlash b ∧
    p = form a ∧ q = form b

/-- The form of a path. -/
def formatOf (p : CStr) : TranFormat := if p.head? = some slash then .absolute else .relative

theorem formatOf_absolutePath (q : CStr) : formatOf (absolutePath q) = .absolute := rfl

theorem formatOf_relativePath (q : CStr) : formatOf (relativePath q) = .relative := by
  unfold formatOf relativePath
  by_cases hq : q = []
  · rw [if_pos hq]
    rfl
  · rw [if_neg hq]
    rfl

theorem convert_absolute_absolutePath (q : CStr) :
    convertPathType .absolute (absolutePath q) = some (absolutePath q) := by
  have hne : slash ≠ dot := by decide
  cases q with
  | nil => rfl
  | cons c q => simp [convertPathType, absolutePath, hne]

theorem convert_relative_relativePath (q : CStr) :
    convertPathType .relative (relativePath q) = some (relativePath q) := by
  unfold relativePath
  by_cases hq : q = []
  · rw [if_pos hq]
    rfl
  · have hne : dot ≠ slash := by decide
    rw [if_neg hq]
    simp [convertPathType, hne]

theorem convert_relative_absolutePath {q : CStr} (hlen : (relativePath q).length < maxPathLen) :
    convertPathType .relative (absolutePath q) = some (relativePath q) := by
  unfold relativePath at hlen ⊢
  cases q with
  | nil => rfl
  | cons c q =>
    rw [if_neg (List.cons_ne_nil c q)] at hlen ⊢
    simp only [List.length_cons] at hlen
    simp [convertPathType, absolutePath, hlen]

theorem convert_absolute_relativePath {q : CStr} (hlen : (absolutePath q).length < maxPathLen) :
    convertPathType .absolute (relativePath q) = some (absolutePath q) := by
  unfold relativePath
  cases q with
  | nil => rfl
  | cons c q =>
    rw [if_neg (List.cons_ne_nil c q)]
    unfold absolutePath at hlen ⊢
    simp only [convertPathType, List.head?_cons, true_and, if_true, List.getElem?_cons_succ,
      List.getElem?_cons_zero, List.tail_cons]
    rw [if_neg (not_le.mpr hlen)]

theorem pathcmp_cons (c : Byte) (p q : CStr) : pathcmp (c :: p) (c :: q) = pathcmp p q := by
  have hdiff : byteDiff true c c = 0 := by simp [byteDiff]
  unfold pathcmp
  rw [pathcasecmp, if_neg (not_not_intro hdiff)]

theorem pathcmp_nil_cons {c : Byte} {q : CStr} (hq : NulFree (c :: q)) :
    pathcmp [] (c :: q) < 0 ∧ 0 < pathcmp (c :: q) [] := by
  have hneg := (pathcmp_neg nulFree_nil hq).mpr (List.nil_lt_cons _ _)
  exact ⟨hneg, (pathcasecmp_swap true nulFree_nil hq).1.mp hneg⟩

/-- Both forms are in the order of what is behind the root. -/
theorem pathcmp_form_sign {form : CStr → CStr} (hform : form ∈ [absolutePath, relativePath])
    {a b : CStr} (ha : NulFree a) (hb : NulFree b) :
    (pathcmp (form a) (form b)).sign = (pathcmp a b).sign := by
  have hslash : ∀ {c q}, NulFree (c :: q) → NulFree (slash :: c :: q) :=
    fun h => nulFree_cons.mpr ⟨by decide, h⟩
  rcases List.mem_pair.mp hform with rfl | rfl
  · rw [absolutePath, absolutePath, pathcmp_cons]
  · cases a with
    | nil =>
      cases b with
      | nil => simp [relativePath, pathcmp_cons]
      | cons d b =>
        rw [relativePath, relativePath, if_pos rfl, if_neg (List.cons_ne_nil d b), pathcmp_cons,
          Int.sign_eq_neg_one_of_neg (pathcmp_nil_cons (hslash hb)).1,
          Int.sign_eq_neg_one_of_neg (pathcmp_nil_cons hb).1]
    | cons c a =>
      cases b with
      | nil =>
        rw [relativePath, relativePath, if_pos rfl, if_neg (List.cons_ne_nil c a), pathcmp_cons,
          Int.sign_eq_one_of_pos (pathcmp_nil_cons (hslash ha)).2,
          Int.sign_eq_one_of_pos (pathcmp_nil_cons ha).2]
      | cons d b =>
        rw [relativePath, relativePath, if_neg (List.cons_ne_nil c a),
          if_neg (List.cons_ne_nil d b), pathcmp_cons, pathcmp_cons]

/-- Where the result of a conversion fits, it is the other form of the path. -/
theorem convert_form {format : TranFormat} (hformat : format ≠ .unset) {form : CStr → CStr}
    (hform : form ∈ [absolutePath, relativePath]) {a p' : CStr}
    (h : convertPathType format (form a) = some p') :
    p' = (if format = .absolute then absolutePath a else relativePath a) := by
  cases format with
  | unset => exact absurd rfl hformat
  | absolute =>
    rw [if_pos rfl]
    rcases List.mem_pair.mp hform with rfl | rfl
    · rw [convert_absolute_absolutePath] at h
      exact (Option.some.inj h).symm
    · by_cases hlen : (absolutePath a).length < maxPathLen
      · rw [convert_absolute_relativePath hlen] at h
        exact (Option.some.inj h).symm
      · cases a with
        | nil => exact absurd (by decide) hlen
        | cons c a =>
          have hlong : maxPathLen ≤ (slash :: c :: a).length := not_lt.mp hlen
          simp [convertPathType, relativePath] at h
          simp only [List.length_cons] at hlong
          omega
  | relative =>
    rw [if_neg (by simp)]
    rcases List.mem_pair.mp hform with rfl | rfl
    · by_cases hlen : (relativePath a).length < maxPathLen
      · rw [convert_relative_absolutePath hlen] at h
        exact (Option.some.inj h).symm
      · cases a with
        | nil => exact absurd (by decide) hlen
        | cons c a =>
          have hlong : maxPathLen ≤ (dot :: slash :: c :: a).length := by
            simpa [relativePath] using hlen
          simp [convertPathType, absolutePath] at h
          simp only [List.length_cons] at hlong
          omega
    · rw [convert_relative_relativePath] at h
      exact (Option.some.inj h).symm

theorem nulFree_of_form {form : CStr → CStr} (hform : form ∈ [absolutePath, relativePath])
    {a : CStr} (h : NulFree (form a)) : NulFree a := by
  rcases List.mem_pair.mp hform with rfl | rfl
  · exact (nulFree_cons.mp h).2
  · unfold relativePath at h
    by_cases ha : a = []
    · exact ha ▸ nulFree_nil
    · rw [if_neg ha] at h
      exact (nulFree_cons.mp (nulFree_cons.mp h).2).2

/-- Paths of one form are in the same order after a conversion, and a path that fits comes back
from the other form. -/
theorem convertPathType_order {format : TranFormat} (hformat : format ≠ .unset) {p q p' q' : CStr}
    (hform : SameForm p q) (hp : NulFree p) (hq : NulFree q)
    (hconvert : convertPathType format p = some p')
    (hconvert' : convertPathType format q = some q') :
    (pathcmp p' q').sign = (pathcmp p q).sign ∧ SameForm p' q' ∧
      (p.length < maxPathLen → convertPathType (formatOf p) p' = some p) := by
  obtain ⟨form, hform, a, b, ha, hb, rfl, rfl⟩ := hform
  have hpa := nulFree_of_form hform hp
  have hqb := nulFree_of_form hform hq
  have hp' := convert_form hformat hform hconvert
  have hq' := convert_form hformat hform hconvert'
  obtain ⟨form', hform', rfl, rfl⟩ : ∃ form' ∈ [absolutePath, relativePath],
      p' = form' a ∧ q' = form' b := by
    by_cases habs : format = .absolute
    · rw [if_pos habs] at hp' hq'
      exact ⟨absolutePath, by simp, hp', hq'⟩
    · rw [if_neg habs] at hp' hq'
      exact ⟨relativePath, by simp, hp', hq'⟩
  refine ⟨?_, ⟨form', hform', a, b, ha, hb, rfl, rfl⟩, fun hlen => ?_⟩
  · rw [pathcmp_form_sign hform' hpa hqb, pathcmp_form_sign hform hpa hqb]
  · rcases List.mem_pair.mp hform with rfl | rfl
    · rw [formatOf_absolutePath]
      rcases List.mem_pair.mp hform' with rfl | rfl
      · exact convert_absolute_absolutePath a
      · exact convert_absolute_relativePath hlen
    · rw [formatOf_relativePath]
      rcases List.mem_pair.mp hform' with rfl | rfl
      · exact convert_relative_absolutePath hlen
      · exact convert_relative_relativePath a

theorem noTrailingSlash_a : NoTrailingSlash [] ∧ NoTrailingSlash (lit "a") := by
  unfold NoTrailingSlash
  decide

theorem convertPathType_order_root :
    (pathcmp (lit ".") (lit "./a")).sign = (pathcmp (lit "/") (lit "/a")).sign ∧
      SameForm (lit ".") (lit "./a") ∧
      ((lit "/").length < maxPathLen →
        convertPathType (formatOf (lit "/")) (lit ".") = some (lit "/")) :=
  @convertPathType_order .relative (by decide) (lit "/") (lit "/a") _ _
    ⟨absolutePath, by simp, [], lit "a", noTrailingSlash_a.1, noTrailingSlash_a.2, rfl, rfl⟩ (by decide)
    (by decide) rfl rfl

end Radmind
