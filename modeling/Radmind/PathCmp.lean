import Radmind.CString

/-!
# The order of paths

`pathcasecmp` compares two paths byte by byte and puts '/' before every other
byte.  Mapping each byte to its rank turns the comparison into the
lexicographic order on lists of numbers, from which it takes transitivity and
the contiguity of subtrees.
-/

namespace Radmind

/-- A byte as a `char`, which is signed on x86. -/
def schar (c : Byte) : Int := if c < 128 then c.toNat else c.toNat - 256

/-- `tolower( c )` in the C locale, of a `char` promoted to `int`. -/
def tolowerChar (c : Byte) : Int := if 65 ≤ c ∧ c ≤ 90 then schar c + 32 else schar c

/-- The difference `rc` of one round of the loop. -/
def byteDiff (caseSensitive : Bool) (c1 c2 : Byte) : Int :=
  if caseSensitive then (c1.toNat : Int) - c2.toNat else tolowerChar c1 - tolowerChar c2

/-- What the loop returns on a difference `rc` between `c1` and `c2`. -/
def byteVerdict (c1 c2 : Byte) (rc : Int) : Int :=
  if c2 ≠ nul ∧ c1 = slash then -1
  else if c1 ≠ nul ∧ c2 = slash then 1
  else rc

/-- The end of a list is its terminating NUL. -/
def pathcasecmp : CStr → CStr → Bool → Int
  | [], [], _ => 0
  | [], c2 :: _, cs => byteVerdict nul c2 (byteDiff cs nul c2)
  | c1 :: _, [], cs => byteVerdict c1 nul (byteDiff cs c1 nul)
  | c1 :: p1, c2 :: p2, cs =>
    if byteDiff cs c1 c2 ≠ 0 then byteVerdict c1 c2 (byteDiff cs c1 c2)
    else pathcasecmp p1 p2 cs

def pathcmp (p1 p2 : CStr) : Int := pathcasecmp p1 p2 true

/-- `parent` is `none` for a NULL pointer. -/
def ischildcase (child : CStr) (parent : Option CStr) (caseSensitive : Bool) : Bool :=
  match parent with
  | none => true
  | some parent =>
    if parent.length > child.length then false
    else if parent = [slash] then child.head? = some slash
    else
      let same := if caseSensitive then parent = child.take parent.length
        else parent.map tolower = (child.take parent.length).map tolower
      let next := (child.drop parent.length).head?
      same && (next = some slash || next = none)

def ischild (child : CStr) (parent : Option CStr) : Bool := ischildcase child parent true

/-! ## Ranks -/

/-- The number the loop subtracts for a byte. -/
def byteWeight (caseSensitive : Bool) (c : Byte) : Nat :=
  if caseSensitive then c.toNat else (tolower c).toNat

/-- The rank of a byte: '/' before every other one. -/
def byteRank (caseSensitive : Bool) (c : Byte) : Nat :=
  if c = slash then 0 else byteWeight caseSensitive c

def pathKey (caseSensitive : Bool) (p : CStr) : List Nat := p.map (byteRank caseSensitive)

/-- A byte whose weight is its rank in the loop: no NUL, and without regard to
case no byte that a signed `char` makes negative, which sorts before the NUL. -/
def RankedByte (caseSensitive : Bool) (c : Byte) : Prop :=
  c ≠ nul ∧ (caseSensitive = false → c < 128)

/-- The paths `pathcasecmp` orders. -/
def Ranked (caseSensitive : Bool) (p : CStr) : Prop := ∀ c ∈ p, RankedByte caseSensitive c

theorem ranked_nil {cs : Bool} : Ranked cs [] := fun _ h => absurd h List.not_mem_nil

theorem ranked_cons {cs : Bool} {c : Byte} {p : CStr} :
    Ranked cs (c :: p) ↔ RankedByte cs c ∧ Ranked cs p := by
  simp [Ranked]

theorem Ranked.nulFree {cs : Bool} {p : CStr} (h : Ranked cs p) : NulFree p :=
  fun hmem => (h nul hmem).1 rfl

theorem ranked_of_nulFree {p : CStr} (h : NulFree p) : Ranked true p :=
  fun _ hc => ⟨fun e => h (e ▸ hc), by simp⟩

theorem tolower_toNat (c : Byte) :
    (tolower c).toNat = if 65 ≤ c.toNat ∧ c.toNat ≤ 90 then c.toNat + 32 else c.toNat := by
  unfold tolower
  simp only [UInt8.le_iff_toNat_le, show (65 : UInt8).toNat = 65 from rfl,
    show (90 : UInt8).toNat = 90 from rfl]
  split_ifs with h
  · rw [UInt8.toNat_add, show (32 : UInt8).toNat = 32 from rfl]
    omega
  · rfl

theorem tolowerChar_eq {c : Byte} (hc : c < 128) : tolowerChar c = (tolower c).toNat := by
  rw [tolower_toNat]
  simp only [tolowerChar, schar, if_pos hc, UInt8.le_iff_toNat_le,
    show (65 : UInt8).toNat = 65 from rfl, show (90 : UInt8).toNat = 90 from rfl]
  split_ifs <;> simp

theorem byteDiff_eq {cs : Bool} {c1 c2 : Byte} (h1 : cs = false → c1 < 128)
    (h2 : cs = false → c2 < 128) :
    byteDiff cs c1 c2 = (byteWeight cs c1 : Int) - byteWeight cs c2 := by
  cases cs with
  | false => simp [byteDiff, byteWeight, tolowerChar_eq (h1 rfl), tolowerChar_eq (h2 rfl)]
  | true => simp [byteDiff, byteWeight]

theorem byteWeight_eq_slash (cs : Bool) (c : Byte) : byteWeight cs c = 47 ↔ c = slash := by
  have hslash : c = slash ↔ c.toNat = 47 := by
    rw [← UInt8.toNat_inj]
    rfl
  cases cs with
  | false =>
    simp only [byteWeight, Bool.false_eq_true, if_false, tolower_toNat, hslash]
    split_ifs <;> omega
  | true => simp [byteWeight, hslash]

theorem byteWeight_pos (cs : Bool) {c : Byte} (hc : c ≠ nul) : 0 < byteWeight cs c := by
  have hpos : 0 < c.toNat := by
    rw [Nat.pos_iff_ne_zero]
    exact fun h => hc (UInt8.toNat_inj.mp h)
  cases cs with
  | false =>
    simp only [byteWeight, Bool.false_eq_true, if_false, tolower_toNat]
    split_ifs <;> omega
  | true => simpa [byteWeight] using hpos

/-- Bytes with equal weight have equal rank, and conversely. -/
theorem byteRank_eq_iff {cs : Bool} {c1 c2 : Byte} (h1 : c1 ≠ nul) (h2 : c2 ≠ nul) :
    byteRank cs c1 = byteRank cs c2 ↔ byteWeight cs c1 = byteWeight cs c2 := by
  have hp1 := byteWeight_pos cs h1
  have hp2 := byteWeight_pos cs h2
  have hs1 := byteWeight_eq_slash cs c1
  have hs2 := byteWeight_eq_slash cs c2
  unfold byteRank
  split_ifs with e1 e2 e2
  · rw [hs1.mpr e1, hs2.mpr e2]
    simp
  · rw [hs1.mpr e1]
    exact ⟨fun h => absurd h.symm hp2.ne', fun h => absurd (hs2.mp h.symm) e2⟩
  · rw [hs2.mpr e2]
    exact ⟨fun h => absurd h hp1.ne', fun h => absurd (hs1.mp h) e1⟩
  · rfl

/-- On a difference the loop returns the sign of the ranks. -/
theorem byteVerdict_neg {cs : Bool} {c1 c2 : Byte} (h1 : RankedByte cs c1)
    (h2 : RankedByte cs c2) (hne : byteWeight cs c1 ≠ byteWeight cs c2) :
    byteVerdict c1 c2 (byteDiff cs c1 c2) < 0 ↔ byteRank cs c1 < byteRank cs c2 := by
  have hp1 := byteWeight_pos cs h1.1
  have hp2 := byteWeight_pos cs h2.1
  have hs1 := byteWeight_eq_slash cs c1
  have hs2 := byteWeight_eq_slash cs c2
  rw [byteDiff_eq h1.2 h2.2]
  unfold byteVerdict byteRank
  by_cases e1 : c1 = slash
  · have e2 : c2 ≠ slash := fun e => hne (by rw [e1, e])
    simp [e1, e2, h2.1, hp2]
  · by_cases e2 : c2 = slash
    · simp [e1, e2, h1.1]
    · simp only [e1, e2, and_false, if_false]
      omega

theorem byteVerdict_ne_zero {c1 c2 : Byte} {rc : Int} (h : rc ≠ 0) :
    byteVerdict c1 c2 rc ≠ 0 := by
  unfold byteVerdict
  split_ifs <;> simp [h]

/-! ## pathcasecmp is the lexicographic order of the ranks -/

theorem pathcasecmp_spec {cs : Bool} {p q : CStr} (hp : Ranked cs p) (hq : Ranked cs q) :
    (pathcasecmp p q cs < 0 ↔ pathKey cs p < pathKey cs q) ∧
      (pathcasecmp p q cs = 0 ↔ pathKey cs p = pathKey cs q) := by
  induction p generalizing q with
  | nil =>
    cases q with
    | nil => simp [pathcasecmp, pathKey]
    | cons c2 q =>
      have h2 := (ranked_cons.mp hq).1
      have hpos := byteWeight_pos cs h2.1
      have hd : byteDiff cs nul c2 = -byteWeight cs c2 := by
        rw [byteDiff_eq (fun _ => by decide) h2.2]
        cases cs <;> simp [byteWeight, tolower]
      simp only [pathcasecmp, pathKey, byteVerdict, hd, List.map_nil, List.map_cons,
        List.nil_lt_cons, iff_true, show nul ≠ slash by decide, and_false, if_false,
        show ¬(nul ≠ nul) by decide, false_and, reduceCtorEq, iff_false]
      omega
  | cons c1 p ih =>
    have h1 := (ranked_cons.mp hp).1
    cases q with
    | nil =>
      have hpos := byteWeight_pos cs h1.1
      have hd : byteDiff cs c1 nul = byteWeight cs c1 := by
        rw [byteDiff_eq h1.2 (fun _ => by decide)]
        cases cs <;> simp [byteWeight, tolower]
      simp only [pathcasecmp, pathKey, byteVerdict, hd, List.map_nil, List.map_cons,
        List.not_lt_nil, iff_false, show nul ≠ slash by decide, and_false, if_false,
        show ¬(nul ≠ nul) by decide, false_and, reduceCtorEq]
      omega
    | cons c2 q =>
      have h2 := (ranked_cons.mp hq).1
      have ih := ih (ranked_cons.mp hp).2 (ranked_cons.mp hq).2
      simp only [pathKey, List.map_cons, List.cons_lt_cons_iff, List.cons.injEq] at ih ⊢
      rw [byteRank_eq_iff h1.1 h2.1, pathcasecmp]
      by_cases hw : byteWeight cs c1 = byteWeight cs c2
      · have hr : byteRank cs c1 = byteRank cs c2 := (byteRank_eq_iff h1.1 h2.1).mpr hw
        have hd : byteDiff cs c1 c2 = 0 := by rw [byteDiff_eq h1.2 h2.2]; omega
        simp [hd, hw, hr, ih]
      · have hd : byteDiff cs c1 c2 ≠ 0 := by rw [byteDiff_eq h1.2 h2.2]; omega
        rw [if_pos hd]
        simp [hw, byteVerdict_neg h1 h2 hw, byteVerdict_ne_zero hd]

theorem pathcasecmp_neg {cs : Bool} {p q : CStr} (hp : Ranked cs p) (hq : Ranked cs q) :
    pathcasecmp p q cs < 0 ↔ pathKey cs p < pathKey cs q :=
  (pathcasecmp_spec hp hq).1

theorem pathcasecmp_eq_zero {cs : Bool} {p q : CStr} (hp : Ranked cs p) (hq : Ranked cs q) :
    pathcasecmp p q cs = 0 ↔ pathKey cs p = pathKey cs q :=
  (pathcasecmp_spec hp hq).2

theorem pathcasecmp_pos {cs : Bool} {p q : CStr} (hp : Ranked cs p) (hq : Ranked cs q) :
    0 < pathcasecmp p q cs ↔ pathKey cs q < pathKey cs p := by
  have h := pathcasecmp_spec hp hq
  rcases lt_trichotomy (pathKey cs p) (pathKey cs q) with hlt | heq | hgt
  · have := h.1.mpr hlt
    exact ⟨fun _ => by omega, fun h' => absurd h' (not_lt_of_gt hlt)⟩
  · have := h.2.mpr heq
    exact ⟨fun _ => by omega, fun h' => absurd heq h'.ne'⟩
  · refine ⟨fun _ => hgt, fun _ => ?_⟩
    have h1 := h.1.not.mpr (not_lt_of_gt hgt)
    have h2 := h.2.not.mpr hgt.ne'
    omega

theorem byteRank_injective {c1 c2 : Byte} (h1 : c1 ≠ nul) (h2 : c2 ≠ nul)
    (h : byteRank true c1 = byteRank true c2) : c1 = c2 :=
  UInt8.toNat_inj.mp (by simpa [byteWeight] using (byteRank_eq_iff h1 h2).mp h)

/-- With regard to case only equal paths have equal ranks. -/
theorem pathKey_injective {p q : CStr} (hp : NulFree p) (hq : NulFree q)
    (h : pathKey true p = pathKey true q) : p = q := by
  induction p generalizing q with
  | nil => cases q <;> simp_all [pathKey]
  | cons c1 p ih =>
    cases q with
    | nil => simp [pathKey] at h
    | cons c2 q =>
      simp only [pathKey, List.map_cons, List.cons.injEq] at h
      rw [nulFree_cons] at hp hq
      rw [byteRank_injective hp.1 hq.1 h.1, ih hp.2 hq.2 h.2]

theorem pathcmp_neg {p q : CStr} (hp : NulFree p) (hq : NulFree q) :
    pathcmp p q < 0 ↔ pathKey true p < pathKey true q :=
  pathcasecmp_neg (ranked_of_nulFree hp) (ranked_of_nulFree hq)

theorem pathcmp_eq_zero {p q : CStr} (hp : NulFree p) (hq : NulFree q) :
    pathcmp p q = 0 ↔ p = q := by
  rw [pathcmp, pathcasecmp_eq_zero (ranked_of_nulFree hp) (ranked_of_nulFree hq)]
  exact ⟨pathKey_injective hp hq, fun h => by rw [h]⟩

/-! ## Subtrees -/

/-- Below a directory other than '/' lie the directory and the paths that go on
with a '/'. -/
theorem ischild_iff {child d : CStr} (hd : d ≠ [slash]) :
    ischild child (some d) = true ↔ child = d ∨ ∃ r, child = d ++ slash :: r := by
  unfold ischild ischildcase
  by_cases hlen : d.length > child.length
  · simp only [hlen, if_true, Bool.false_eq_true, false_iff, not_or, not_exists]
    exact ⟨fun h => by simp [h] at hlen, fun r h => by simp [h] at hlen⟩
  · simp only [if_neg hlen, if_neg hd, if_true, Bool.and_eq_true, Bool.or_eq_true,
      decide_eq_true_eq]
    constructor
    · rintro ⟨htake, hnext⟩
      have hsplit := List.take_append_drop d.length child
      rw [← htake] at hsplit
      rcases hnext with hnext | hnext
      · rw [List.head?_eq_some_iff] at hnext
        obtain ⟨r, hr⟩ := hnext
        exact .inr ⟨r, by rw [← hsplit, hr]⟩
      · rw [List.head?_eq_none_iff] at hnext
        exact .inl (by rw [← hsplit, hnext, List.append_nil])
    · rintro (rfl | ⟨r, rfl⟩) <;> simp

theorem ischild_root {child : CStr} :
    ischild child (some [slash]) = true ↔ child.head? = some slash := by
  unfold ischild ischildcase
  by_cases hlen : [slash].length > child.length
  · have : child = [] := List.length_eq_zero_iff.mp (by simpa using hlen)
    simp [this]
  · simp only [if_neg hlen, if_true, decide_eq_true_eq]

theorem ischild_self (d : CStr) : ischild d (some d) = true := by
  by_cases hd : d = [slash]
  · simp [hd, ischild_root]
  · exact (ischild_iff hd).mpr (.inl rfl)

theorem ischild_trans {x y z : CStr} (hxy : ischild x (some y) = true)
    (hyz : ischild y (some z) = true) : ischild x (some z) = true := by
  by_cases hz : z = [slash]
  · subst hz
    rw [ischild_root] at hyz ⊢
    by_cases hy : y = [slash]
    · rwa [hy, ischild_root] at hxy
    · rcases (ischild_iff hy).mp hxy with rfl | ⟨r, rfl⟩
      · exact hyz
      · rw [List.head?_append, hyz]
        rfl
  · rw [ischild_iff hz] at hyz ⊢
    rcases hyz with rfl | ⟨r, rfl⟩
    · exact (ischild_iff hz).mp hxy
    · by_cases hy : z ++ slash :: r = [slash]
      · -- only the empty path has '/' below it by a '/'
        have hempty : z = [] ∧ r = [] := by
          cases z with
          | nil => exact ⟨rfl, by simpa using hy⟩
          | cons c z => simp at hy
        obtain ⟨rfl, rfl⟩ := hempty
        obtain ⟨x', rfl⟩ := List.head?_eq_some_iff.mp (ischild_root.mp hxy)
        exact .inr ⟨x', rfl⟩
      · rcases (ischild_iff hy).mp hxy with rfl | ⟨r', rfl⟩
        · exact .inr ⟨r, rfl⟩
        · exact .inr ⟨r ++ slash :: r', by simp⟩

theorem pathKey_append (cs : Bool) (p q : CStr) :
    pathKey cs (p ++ q) = pathKey cs p ++ pathKey cs q := List.map_append

/-- A list between `d` and `d` continued by nothing or a zero continues `d` by
nothing or a zero itself. -/
theorem lex_between {d q s : List Nat} (hdq : ¬ q < d) (hq : ¬ d ++ s < q)
    (hs : s = [] ∨ s.head? = some 0) : ∃ t, q = d ++ t ∧ (t = [] ∨ t.head? = some 0) := by
  induction d generalizing q with
  | nil =>
    refine ⟨q, rfl, ?_⟩
    cases q with
    | nil => exact .inl rfl
    | cons a q =>
      rcases hs with rfl | hs
      · exact absurd (List.nil_lt_cons a q) hq
      · obtain ⟨r, rfl⟩ := List.head?_eq_some_iff.mp hs
        rw [List.nil_append, List.cons_lt_cons_iff, not_or] at hq
        exact .inr (by simpa using hq.1)
  | cons a d ih =>
    cases q with
    | nil => exact absurd (List.nil_lt_cons a d) hdq
    | cons b q =>
      rw [List.cons_append, List.cons_lt_cons_iff, not_or, not_and] at hq
      rw [List.cons_lt_cons_iff, not_or, not_and] at hdq
      have hab : a = b := by omega
      subst hab
      obtain ⟨t, rfl, ht⟩ := ih (hdq.2 rfl) (hq.2 rfl)
      exact ⟨t, rfl, ht⟩

/-- A subtree in terms of ranks. -/
theorem ischild_key {child d : CStr} (hd : d ≠ [slash]) (hcn : NulFree child) (hdn : NulFree d) :
    ischild child (some d) = true ↔
      ∃ t, pathKey true child = pathKey true d ++ t ∧ (t = [] ∨ t.head? = some 0) := by
  rw [ischild_iff hd]
  constructor
  · rintro (rfl | ⟨r, rfl⟩)
    · exact ⟨[], by simp, .inl rfl⟩
    · exact ⟨pathKey true (slash :: r), pathKey_append .., .inr (by simp [pathKey, byteRank])⟩
  · rintro ⟨t, ht, hnext⟩
    obtain ⟨c, r, rfl, hc, rfl⟩ := List.map_eq_append_iff.mp ht
    rw [nulFree_append] at hcn
    obtain rfl := pathKey_injective hcn.1 hdn hc
    rcases hnext with hnext | hnext
    · exact .inl (by simpa using hnext)
    · cases r with
      | nil => simp at hnext
      | cons b r =>
        have hb : byteRank true b = byteRank true slash := by simpa [byteRank] using hnext
        have hbn : b ≠ nul := (nulFree_cons.mp hcn.2).1
        exact .inr ⟨r, by rw [byteRank_injective hbn (by decide) hb]⟩

/-- Every subtree is an interval of the path order. -/
theorem ischild_contiguous {d p q r : CStr} (hd : NulFree d) (hp : NulFree p) (hq : NulFree q)
    (hr : NulFree r) (hpq : pathcmp p q ≤ 0) (hqr : pathcmp q r ≤ 0)
    (hpd : ischild p (some d) = true) (hrd : ischild r (some d) = true) :
    ischild q (some d) = true := by
  have hpq : ¬ pathKey true q < pathKey true p := fun h => by
    have := (pathcasecmp_pos (ranked_of_nulFree hp) (ranked_of_nulFree hq)).mpr h
    unfold pathcmp at hpq
    omega
  have hqr : ¬ pathKey true r < pathKey true q := fun h => by
    have := (pathcasecmp_pos (ranked_of_nulFree hq) (ranked_of_nulFree hr)).mpr h
    unfold pathcmp at hqr
    omega
  by_cases hroot : d = [slash]
  · subst hroot
    rw [ischild_root] at hpd hrd ⊢
    obtain ⟨p', rfl⟩ := List.head?_eq_some_iff.mp hpd
    obtain ⟨r', rfl⟩ := List.head?_eq_some_iff.mp hrd
    cases q with
    | nil => simp [pathKey] at hpq
    | cons c q =>
      rw [pathKey, pathKey, List.map_cons, List.map_cons, List.cons_lt_cons_iff, not_or] at hqr
      have hc : byteRank true c = byteRank true slash := by
        have := hqr.1
        simp only [byteRank, if_true] at this ⊢
        omega
      rw [byteRank_injective (nulFree_cons.mp hq).1 (by decide) hc]
      rfl
  · rw [ischild_key hroot hp hd] at hpd
    rw [ischild_key hroot hr hd] at hrd
    rw [ischild_key hroot hq hd]
    obtain ⟨t, ht, -⟩ := hpd
    obtain ⟨u, hu, hnext⟩ := hrd
    refine lex_between (fun h => ?_) (hu ▸ hqr) hnext
    -- q is not before p, which continues d
    exact hpq (ht ▸ List.Lex.append_right (· < ·) t h)

/-- A directory sorts before everything below it. -/
theorem pathcmp_ischild_neg {d x : CStr} (hd : NulFree d) (hx : NulFree x)
    (hchild : ischild x (some d) = true) (hne : x ≠ d) : pathcmp d x < 0 := by
  rw [pathcmp_neg hd hx]
  -- in both cases `x` goes on where `d` ends
  obtain ⟨c, r, rfl⟩ : ∃ c r, x = d ++ c :: r := by
    by_cases hroot : d = [slash]
    · subst hroot
      obtain ⟨y, rfl⟩ := List.head?_eq_some_iff.mp (ischild_root.mp hchild)
      cases y with
      | nil => exact absurd rfl hne
      | cons c r => exact ⟨c, r, rfl⟩
    · obtain rfl | ⟨r, rfl⟩ := (ischild_iff hroot).mp hchild
      · exact absurd rfl hne
      · exact ⟨slash, r, rfl⟩
  have hlt : pathKey true d ++ [] < pathKey true d ++ pathKey true (c :: r) :=
    List.Lex.append_left (· < ·) (List.nil_lt_cons _ _) (pathKey true d)
  rwa [List.append_nil, ← pathKey_append] at hlt

/-- A directory comes first in its subtree, and the subtree is an interval of the path
order. -/
theorem subtree_contiguous {d : CStr} (hd : NulFree d) :
    (∀ x, NulFree x → ischild x (some d) = true → x ≠ d → pathcmp d x < 0) ∧
      ∀ p q r, NulFree p → NulFree q → NulFree r → pathcmp p q ≤ 0 → pathcmp q r ≤ 0 →
        ischild p (some d) = true → ischild r (some d) = true → ischild q (some d) = true :=
  ⟨fun _ hx => pathcmp_ischild_neg hd hx,
    fun _ _ _ hp hq hr => ischild_contiguous hd hp hq hr⟩

theorem subtree_contiguous_root :
    (∀ x, NulFree x → ischild x (some (lit "/")) = true → x ≠ lit "/" →
        pathcmp (lit "/") x < 0) ∧
      ∀ p q r, NulFree p → NulFree q → NulFree r → pathcmp p q ≤ 0 → pathcmp q r ≤ 0 →
        ischild p (some (lit "/")) = true → ischild r (some (lit "/")) = true →
          ischild q (some (lit "/")) = true :=
  subtree_contiguous (by decide)

/-! ## Where the comparison is no order

Without regard to case the loop subtracts `char`s, and a byte above 127 sorts before
the end of a string.  The end of a string sorts before a '/', and a '/' before every
other byte. -/

/-- The number the loop subtracts. -/
def loopWeight (caseSensitive : Bool) (c : Byte) : Int :=
  if caseSensitive then c.toNat else tolowerChar c

/-- Behind bytes on which the loop sees no difference `p` ends, `q` goes on with a '/'
and `r` with a byte above 127. -/
def endSlashHigh : CStr → CStr → CStr → Bool
  | [], b :: _, c :: _ => b = slash ∧ 128 ≤ c
  | a :: p, b :: q, c :: r =>
    (loopWeight false a = loopWeight false b && loopWeight false b = loopWeight false c) &&
      endSlashHigh p q r
  | _, _, _ => false

/-- The loop goes round in a circle on the three strings. -/
def goesRound (p q r : CStr) : Bool := endSlashHigh p q r || endSlashHigh q r p || endSlashHigh r p q

/-- The order of two weights. -/
def weightBefore (a b : Int) : Prop :=
  a ≠ b ∧ (b ≠ 0 ∧ a = 47 ∨ ¬ (a ≠ 0 ∧ b = 47) ∧ a < b)

/-- The weight of the first byte, which is zero for the end. -/
def headWeight (cs : Bool) (p : CStr) : Int := loopWeight cs (p.headD nul)

theorem byteDiff_eq_sub (cs : Bool) (c1 c2 : Byte) :
    byteDiff cs c1 c2 = loopWeight cs c1 - loopWeight cs c2 := by
  cases cs <;> rfl

theorem loopWeight_eq (cs : Bool) (c : Byte) : (loopWeight cs c = 47 ↔ c = slash) ∧
    (loopWeight cs c = 0 ↔ c = nul) ∧ (loopWeight cs c < 0 ↔ cs = false ∧ 128 ≤ c) := by
  have hlt : c.toNat < 256 := c.toNat_lt
  have hslash : c = slash ↔ c.toNat = 47 := UInt8.toNat_inj.symm
  have hnul : c = nul ↔ c.toNat = 0 := UInt8.toNat_inj.symm
  have hhigh : 128 ≤ c ↔ 128 ≤ c.toNat := UInt8.le_iff_toNat_le
  rw [hslash, hnul, hhigh]
  cases cs with
  | true =>
    simp only [loopWeight, if_true]
    exact ⟨by omega, by omega, by simp⟩
  | false =>
    simp only [loopWeight, Bool.false_eq_true, if_false, tolowerChar, schar,
      UInt8.le_iff_toNat_le, UInt8.lt_iff_toNat_lt]
    have h65 : (65 : Byte).toNat = 65 := rfl
    have h90 : (90 : Byte).toNat = 90 := rfl
    have h128 : (128 : Byte).toNat = 128 := rfl
    rw [h65, h90, h128]
    refine ⟨?_, ?_, ?_⟩
    · split_ifs <;> omega
    · split_ifs <;> omega
    · simp only [true_and]
      split_ifs <;> omega

theorem byteVerdict_weight {cs : Bool} {c1 c2 : Byte}
    (h : loopWeight cs c1 ≠ loopWeight cs c2) :
    (byteVerdict c1 c2 (byteDiff cs c1 c2) < 0 ↔
      weightBefore (loopWeight cs c1) (loopWeight cs c2)) ∧
      byteVerdict c1 c2 (byteDiff cs c1 c2) ≠ 0 := by
  obtain ⟨hs1, hn1, -⟩ := loopWeight_eq cs c1
  obtain ⟨hs2, hn2, -⟩ := loopWeight_eq cs c2
  rw [byteDiff_eq_sub]
  unfold byteVerdict weightBefore
  simp only [ne_eq, ← hs1, ← hs2, ← hn1, ← hn2]
  clear hs1 hs2 hn1 hn2
  split_ifs
  · exact ⟨by omega, by decide⟩
  · exact ⟨by omega, by decide⟩
  · exact ⟨by omega, by omega⟩

/-- Strings whose first weights differ. -/
theorem pathcasecmp_of_ne (cs : Bool) (p q : CStr) (h : headWeight cs p ≠ headWeight cs q) :
    (pathcasecmp p q cs < 0 ↔ weightBefore (headWeight cs p) (headWeight cs q)) ∧
      pathcasecmp p q cs ≠ 0 := by
  cases p with
  | nil =>
    cases q with
    | nil => exact absurd rfl h
    | cons c2 q => exact byteVerdict_weight h
  | cons c1 p =>
    cases q with
    | nil => exact byteVerdict_weight h
    | cons c2 q =>
      have hdiff : byteDiff cs c1 c2 ≠ 0 := by
        rw [byteDiff_eq_sub]
        exact sub_ne_zero.mpr h
      rw [pathcasecmp, if_pos hdiff]
      exact byteVerdict_weight h

/-- Strings whose first weights are equal. -/
theorem pathcasecmp_of_eq {cs : Bool} {p q : CStr} (hp : NulFree p) (hq : NulFree q)
    (h : headWeight cs p = headWeight cs q) : p = [] ∧ q = [] ∨
      ∃ c1 p' c2 q', p = c1 :: p' ∧ q = c2 :: q' ∧ pathcasecmp p q cs = pathcasecmp p' q' cs := by
  have hzero : loopWeight cs nul = 0 := (loopWeight_eq cs nul).2.1.mpr rfl
  cases p with
  | nil =>
    cases q with
    | nil => exact .inl ⟨rfl, rfl⟩
    | cons c2 q =>
      exact absurd ((loopWeight_eq cs c2).2.1.mp (h.symm.trans hzero)) (nulFree_cons.mp hq).1
  | cons c1 p =>
    cases q with
    | nil => exact absurd ((loopWeight_eq cs c1).2.1.mp (h.trans hzero)) (nulFree_cons.mp hp).1
    | cons c2 q =>
      refine .inr ⟨c1, p, c2, q, rfl, rfl, ?_⟩
      have hdiff : byteDiff cs c1 c2 = 0 := by
        rw [byteDiff_eq_sub]
        exact sub_eq_zero.mpr h
      rw [pathcasecmp, if_neg (not_not_intro hdiff)]

/-- Exchanging the strings changes the sign. -/
theorem pathcasecmp_swap (cs : Bool) {p q : CStr} (hp : NulFree p) (hq : NulFree q) :
    (pathcasecmp p q cs < 0 ↔ 0 < pathcasecmp q p cs) ∧
      (pathcasecmp p q cs = 0 ↔ pathcasecmp q p cs = 0) := by
  induction p generalizing q with
  | nil =>
    by_cases h : headWeight cs [] = headWeight cs q
    · rcases pathcasecmp_of_eq hp hq h with ⟨-, rfl⟩ | ⟨_, _, _, _, hnil, -⟩
      · simp [pathcasecmp]
      · exact absurd hnil (by simp)
    · have h1 := pathcasecmp_of_ne _ _ _ h
      have h2 := pathcasecmp_of_ne _ _ _ (Ne.symm h)
      unfold weightBefore at h1 h2
      omega
  | cons c p ih =>
    by_cases h : headWeight cs (c :: p) = headWeight cs q
    · rcases pathcasecmp_of_eq hp hq h with ⟨hnil, -⟩ | ⟨_, _, d, q', hcons, rfl, heq⟩
      · exact absurd hnil (by simp)
      · obtain ⟨rfl, rfl⟩ := List.cons.inj hcons
        have hback := pathcasecmp_of_eq hq hp h.symm
        obtain ⟨_, _, _, _, hd, hc, heq'⟩ := hback.resolve_left (by simp)
        obtain ⟨rfl, rfl⟩ := List.cons.inj hd
        obtain ⟨rfl, rfl⟩ := List.cons.inj hc
        rw [heq, heq']
        exact ih (nulFree_cons.mp hp).2 (nulFree_cons.mp hq).2
    · have h1 := pathcasecmp_of_ne _ _ _ h
      have h2 := pathcasecmp_of_ne _ _ _ (Ne.symm h)
      unfold weightBefore at h1 h2
      omega

/-- Strings that compare equal compare alike with every other string. -/
theorem pathcasecmp_congr (cs : Bool) {p q r : CStr} (hp : NulFree p) (hq : NulFree q)
    (hr : NulFree r) (h : pathcasecmp p q cs = 0) :
    (pathcasecmp p r cs < 0 ↔ pathcasecmp q r cs < 0) ∧
      (pathcasecmp p r cs = 0 ↔ pathcasecmp q r cs = 0) := by
  induction p generalizing q r with
  | nil =>
    have hpq : headWeight cs [] = headWeight cs q := by
      by_contra hne
      exact (pathcasecmp_of_ne _ _ _ hne).2 h
    rcases pathcasecmp_of_eq hp hq hpq with ⟨-, rfl⟩ | ⟨_, _, _, _, hnil, -⟩
    · exact ⟨Iff.rfl, Iff.rfl⟩
    · exact absurd hnil (by simp)
  | cons c p ih =>
    have hpq : headWeight cs (c :: p) = headWeight cs q := by
      by_contra hne
      exact (pathcasecmp_of_ne _ _ _ hne).2 h
    by_cases hpr : headWeight cs (c :: p) = headWeight cs r
    · have hq' := (pathcasecmp_of_eq hp hq hpq).resolve_left (by simp)
      obtain ⟨_, _, d, q', hcons, rfl, heq⟩ := hq'
      obtain ⟨rfl, rfl⟩ := List.cons.inj hcons
      have hr' := (pathcasecmp_of_eq hp hr hpr).resolve_left (by simp)
      obtain ⟨_, _, e, r', hcons, rfl, heq'⟩ := hr'
      obtain ⟨rfl, rfl⟩ := List.cons.inj hcons
      have hqr := (pathcasecmp_of_eq hq hr (hpq.symm.trans hpr)).resolve_left (by simp)
      obtain ⟨_, _, _, _, hcons, hcons', heq''⟩ := hqr
      obtain ⟨rfl, rfl⟩ := List.cons.inj hcons
      obtain ⟨rfl, rfl⟩ := List.cons.inj hcons'
      rw [heq', heq'']
      exact ih (nulFree_cons.mp hp).2 (nulFree_cons.mp hq).2 (nulFree_cons.mp hr).2 (heq ▸ h)
    · have h1 := pathcasecmp_of_ne _ _ _ hpr
      have h2 := pathcasecmp_of_ne _ _ _ (hpq ▸ hpr)
      rw [← hpq] at h2
      exact ⟨h1.1.trans h2.1.symm, ⟨fun h => absurd h h1.2, fun h => absurd h h2.2⟩⟩

/-- Strings that do not all start with one weight go round where an end, a '/' and a
negative weight come together. -/
theorem endSlashHigh_of_ne {p q r : CStr} (hp : NulFree p)
    (h : ¬ (headWeight false p = headWeight false q ∧ headWeight false q = headWeight false r)) :
    endSlashHigh p q r = true ↔
      headWeight false p = 0 ∧ headWeight false q = 47 ∧ headWeight false r < 0 := by
  have hzero : headWeight false [] = 0 := (loopWeight_eq false nul).2.1.mpr rfl
  have hcons : ∀ (c : Byte) (s : CStr), headWeight false (c :: s) = loopWeight false c :=
    fun _ _ => rfl
  cases p with
  | nil =>
    cases q with
    | nil => simp [endSlashHigh, hzero]
    | cons b q =>
      cases r with
      | nil => simp [endSlashHigh, hzero]
      | cons c r =>
        obtain ⟨hb, -, -⟩ := loopWeight_eq false b
        obtain ⟨-, -, hc⟩ := loopWeight_eq false c
        simp [endSlashHigh, hzero, hcons, hb, hc]
  | cons a p =>
    have ha : headWeight false (a :: p) ≠ 0 := fun hc =>
      (nulFree_cons.mp hp).1 ((loopWeight_eq false a).2.1.mp hc)
    refine ⟨fun hround => ?_, fun hc => absurd hc.1 ha⟩
    cases q with
    | nil => simp [endSlashHigh] at hround
    | cons b q =>
      cases r with
      | nil => simp [endSlashHigh] at hround
      | cons c r =>
        simp only [endSlashHigh, Bool.and_eq_true, decide_eq_true_eq] at hround
        exact absurd hround.1 h

/-- With regard to case the ranks order the strings. -/
theorem pathcmp_trans {p q r : CStr} (hp : NulFree p) (hq : NulFree q) (hr : NulFree r)
    (hpq : pathcasecmp p q true ≤ 0) (hqr : pathcasecmp q r true ≤ 0) :
    pathcasecmp p r true ≤ 0 := by
  have hle : ∀ {x y : CStr}, NulFree x → NulFree y →
      (pathcasecmp x y true ≤ 0 ↔ pathKey true x ≤ pathKey true y) := by
    intro x y hx hy
    rw [← not_lt, ← not_lt, pathcasecmp_pos (ranked_of_nulFree hx) (ranked_of_nulFree hy)]
  rw [hle hp hr]
  exact ((hle hp hq).mp hpq).trans ((hle hq hr).mp hqr)

/-- Three strings on which the loop goes on behind their first bytes. -/
theorem goesRound_cons {a b c : Byte} {p q r : CStr}
    (hab : loopWeight false a = loopWeight false b)
    (hbc : loopWeight false b = loopWeight false c) :
    goesRound (a :: p) (b :: q) (c :: r) = goesRound p q r := by
  simp [goesRound, endSlashHigh, hab, hbc]

/-- Three weights come round in a circle. -/
def WeightsRound (a b c : Int) : Prop := a = 0 ∧ b = 47 ∧ c < 0

theorem weightBefore_round {a b c : Int} (h : WeightsRound a b c) :
    weightBefore a b ∧ weightBefore b c ∧ weightBefore c a := by
  unfold WeightsRound at h
  unfold weightBefore
  omega

theorem weightBefore_asymm {a b : Int} (h : weightBefore a b) : ¬ weightBefore b a := by
  unfold weightBefore at h ⊢
  intro h'
  omega

theorem weightBefore_trans {a b c : Int} (h1 : ¬ WeightsRound a b c) (h2 : ¬ WeightsRound b c a)
    (h3 : ¬ WeightsRound c a b) (hac : a ≠ c) (hab : weightBefore a b) (hbc : weightBefore b c) :
    weightBefore a c := by
  unfold WeightsRound at h1 h2 h3
  unfold weightBefore at hab hbc ⊢
  omega

theorem weightBefore_ne {a b : Int} (h : weightBefore a b) : a ≠ b := h.1

theorem pathcasecmp_trans_of_ne {p q r : CStr} (hp : NulFree p) (hq : NulFree q) (hr : NulFree r)
    (h : ¬ (headWeight false p = headWeight false q ∧ headWeight false q = headWeight false r)) :
    (pathcasecmp p q false ≤ 0 → pathcasecmp q r false ≤ 0 → pathcasecmp p r false ≤ 0) ↔
      goesRound p q r = false := by
  have hpq := pathcasecmp_of_ne false p q
  have hqr := pathcasecmp_of_ne false q r
  have hpr := pathcasecmp_of_ne false p r
  have h1 : endSlashHigh p q r = true ↔ WeightsRound _ _ _ := endSlashHigh_of_ne hp h
  have h2 : endSlashHigh q r p = true ↔ WeightsRound _ _ _ := endSlashHigh_of_ne hq (by omega)
  have h3 : endSlashHigh r p q = true ↔ WeightsRound _ _ _ := endSlashHigh_of_ne hr (by omega)
  rw [goesRound, Bool.or_eq_false_iff, Bool.or_eq_false_iff, ← Bool.not_eq_true, ← Bool.not_eq_true,
    ← Bool.not_eq_true, h1, h2, h3]
  clear h1 h2 h3
  generalize headWeight false p = a at *
  generalize headWeight false q = b at *
  generalize headWeight false r = c at *
  constructor
  · intro htrans
    have hnot : ¬ (weightBefore a b ∧ weightBefore b c ∧ weightBefore c a) := by
      intro ⟨hab, hbc, hca⟩
      have hle := htrans ((hpq (weightBefore_ne hab)).1.mpr hab).le
        ((hqr (weightBefore_ne hbc)).1.mpr hbc).le
      have hac := hpr (weightBefore_ne hca).symm
      exact weightBefore_asymm hca (hac.1.mp (lt_of_le_of_ne hle hac.2))
    refine ⟨⟨fun hround => ?_, fun hround => ?_⟩, fun hround => ?_⟩
    · exact hnot (weightBefore_round hround)
    · obtain ⟨hbc, hca, hab⟩ := weightBefore_round hround
      exact hnot ⟨hab, hbc, hca⟩
    · obtain ⟨hca, hab, hbc⟩ := weightBefore_round hround
      exact hnot ⟨hab, hbc, hca⟩
  · intro ⟨⟨hr1, hr2⟩, hr3⟩ hle hle'
    have hbefore : ∀ {x y : Int} {n : Int}, (n < 0 ↔ weightBefore x y) ∧ n ≠ 0 → n ≤ 0 →
        weightBefore x y := fun hn hle => hn.1.mp (lt_of_le_of_ne hle hn.2)
    by_cases hac : a = c
    · -- the two steps cannot both go up
      subst hac
      have hab : a ≠ b := fun hab => h ⟨hab, hab.symm⟩
      exact absurd (hbefore (hqr hab.symm) hle') (weightBefore_asymm (hbefore (hpq hab) hle))
    · refine ((hpr hac).1.mpr ?_).le
      by_cases hab : a = b
      · subst hab
        exact hbefore (hqr hac) hle'
      · by_cases hbc : b = c
        · subst hbc
          exact hbefore (hpq hab) hle
        · exact weightBefore_trans hr1 hr2 hr3 hac (hbefore (hpq hab) hle) (hbefore (hqr hbc) hle')

/-- The order is transitive on three strings unless the loop goes round on them. -/
theorem pathcasecmp_trans_iff {cs : Bool} {p q r : CStr} (hp : NulFree p) (hq : NulFree q)
    (hr : NulFree r) :
    (pathcasecmp p q cs ≤ 0 → pathcasecmp q r cs ≤ 0 → pathcasecmp p r cs ≤ 0) ↔
      cs = true ∨ goesRound p q r = false := by
  cases cs with
  | true => exact ⟨fun _ => .inl rfl, fun _ => pathcmp_trans hp hq hr⟩
  | false =>
    simp only [Bool.false_eq_true, false_or]
    induction p generalizing q r with
    | nil =>
      by_cases h : headWeight false [] = headWeight false q ∧
          headWeight false q = headWeight false r
      · obtain ⟨-, rfl⟩ := (pathcasecmp_of_eq hp hq h.1).resolve_right (by simp)
        obtain ⟨-, rfl⟩ := (pathcasecmp_of_eq hq hr h.2).resolve_right (by simp)
        simp [pathcasecmp, goesRound, endSlashHigh]
      · exact pathcasecmp_trans_of_ne hp hq hr h
    | cons a p ih =>
      by_cases h : headWeight false (a :: p) = headWeight false q ∧
          headWeight false q = headWeight false r
      · obtain ⟨_, _, b, q', hcons, rfl, hpq⟩ :=
          (pathcasecmp_of_eq hp hq h.1).resolve_left (by simp)
        obtain ⟨rfl, rfl⟩ := List.cons.inj hcons
        obtain ⟨_, _, c, r', hcons, rfl, hqr⟩ :=
          (pathcasecmp_of_eq hq hr h.2).resolve_left (by simp)
        obtain ⟨rfl, rfl⟩ := List.cons.inj hcons
        obtain ⟨_, _, _, _, hcons, hcons', hpr⟩ :=
          (pathcasecmp_of_eq hp hr (h.1.trans h.2)).resolve_left (by simp)
        obtain ⟨rfl, rfl⟩ := List.cons.inj hcons
        obtain ⟨rfl, rfl⟩ := List.cons.inj hcons'
        rw [hpq, hqr, hpr, goesRound_cons (a := a) (b := b) (c := c) h.1 h.2]
        exact ih (nulFree_cons.mp hp).2 (nulFree_cons.mp hq).2 (nulFree_cons.mp hr).2
      · exact pathcasecmp_trans_of_ne hp hq hr h

/-- What an order needs of three strings. -/
def OrderedOn (cs : Bool) (p q r : CStr) : Prop :=
  (pathcasecmp p q cs).sign = -(pathcasecmp q p cs).sign ∧
    (pathcasecmp p q cs ≤ 0 → pathcasecmp q r cs ≤ 0 → pathcasecmp p r cs ≤ 0)

end Radmind
