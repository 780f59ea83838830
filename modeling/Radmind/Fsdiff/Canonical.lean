import Radmind.Transcript.Types

/-!
# Canonical paths

`canonicalized_path` edits a path in a static buffer.  Where it puts `./` in front, the path is
moved without its NUL, so what an earlier call left behind it becomes part of the result.
-/

namespace Radmind

/-- Bytes written over a buffer from a position on. -/
def storeAt (buf : List Byte) (pos : Nat) (bytes : List Byte) : List Byte :=
  buf.take pos ++ bytes ++ buf.drop (pos + bytes.length)

/-- `canonicalized_path` with its buffer before and after the call: the path, and
`tran_format`.  An error is the path that is too long. -/
def canonicalizedPath (cpath : List Byte) (path : CStr) :
    Except CStr (CStr × TranFormat × List Byte) :=
  if path.length ≥ maxPathLen then .error path
  else
    let cpath := storeAt cpath 0 (path ++ [nul])
    -- Clip trailing '/'
    let clip := path.length > 1 && cpath.getD (path.length - 1) nul = slash
    let len := if clip then path.length - 1 else path.length
    let cpath := if clip then storeAt cpath len [nul] else cpath
    let first := cpath.getD 0 nul
    if first = slash ∨ first = dot ∧ (len = 1 ∨ cpath.getD 1 nul = slash) then
      .ok (cstr cpath, if first = dot then .relative else .absolute, cpath)
    else if len + 2 ≥ maxPathLen then .error (dot :: slash :: cstr cpath)
    else
      let cpath := storeAt cpath 2 (cpath.take len)
      let cpath := storeAt cpath 0 [dot, slash]
      .ok (cstr cpath, .relative, cpath)

/-- The results for a sequence of paths. -/
def canonicalizedPaths : List Byte → List CStr → Except CStr (List CStr)
  | _, [] => .ok []
  | cpath, path :: paths =>
    match canonicalizedPath cpath path with
    | .error e => .error e
    | .ok (result, _, cpath) =>
      (canonicalizedPaths cpath paths).map fun results => result :: results

/-! ## What the result is to be -/

/-- A path without a trailing slash, unless it is '/'. -/
def clipped (path : CStr) : CStr :=
  if 1 < path.length ∧ path.getLast? = some slash then path.dropLast else path

/-- The path begins with '/', or is '.', or begins with './'. -/
def Qualified (path : CStr) : Prop :=
  path.head? = some slash ∨ path = [dot] ∨ [dot, slash] <+: path

instance (path : CStr) : Decidable (Qualified path) := by
  unfold Qualified
  infer_instance

def canonical (path : CStr) : CStr :=
  if Qualified (clipped path) then clipped path else dot :: slash :: clipped path

/-- The path fits the buffer, with what is put in front of it. -/
def ShortEnough (path : CStr) : Prop :=
  path.length < maxPathLen ∧
    (¬ Qualified (clipped path) → (clipped path).length + 2 < maxPathLen)

/-- The buffer has a NUL where a path with `./` in front ends. -/
def NulBehind (cpath : List Byte) (path : CStr) : Prop :=
  ¬ Qualified (clipped path) → cpath[(clipped path).length + 2]? = some nul

/-- The buffer has that NUL before each call of a sequence. -/
def NulBehindAll : List Byte → List CStr → Prop
  | _, [] => True
  | cpath, path :: paths => NulBehind cpath path ∧
      ∀ result format cpath', canonicalizedPath cpath path = .ok (result, format, cpath') →
        NulBehindAll cpath' paths

/-! ## The buffer -/

theorem length_storeAt {buf bytes : List Byte} {pos : Nat}
    (h : pos + bytes.length ≤ buf.length) : (storeAt buf pos bytes).length = buf.length := by
  simp only [storeAt, List.length_append, List.length_take, List.length_drop]
  omega

theorem storeAt_zero (buf bytes : List Byte) :
    storeAt buf 0 bytes = bytes ++ buf.drop bytes.length := by
  simp [storeAt]

/-- Bytes written behind a text. -/
theorem storeAt_append (pre buf bytes : List Byte) :
    storeAt (pre ++ buf) pre.length bytes = pre ++ (bytes ++ buf.drop bytes.length) := by
  unfold storeAt
  rw [List.take_left, List.append_assoc, List.drop_append, List.drop_of_length_le (by omega),
    List.nil_append, Nat.add_sub_cancel_left]

theorem clipped_of_slash {q : CStr} (hq : q ≠ []) : clipped (q ++ [slash]) = q := by
  have hlen : 1 < (q ++ [slash]).length := by
    have := List.length_pos_iff.mpr hq
    simp
    omega
  rw [clipped, if_pos ⟨hlen, by simp⟩, List.dropLast_concat]

theorem getD_append_length_sub_one {path : CStr} (hpath : path ≠ []) (behind : List Byte) :
    (path ++ behind).getD (path.length - 1) nul = slash ↔ path.getLast? = some slash := by
  have hpos := List.length_pos_iff.mpr hpath
  rw [List.getLast?_eq_getElem?, List.getD_eq_getElem?_getD,
    List.getElem?_append_left (by omega), List.getElem?_eq_getElem (by omega)]
  simp

/-- The buffer after the trailing slash is clipped. -/
theorem clip_buffer (cpath : List Byte) (path : CStr) : ∃ rest,
    (let cpath := storeAt cpath 0 (path ++ [nul])
     let clip := path.length > 1 && cpath.getD (path.length - 1) nul = slash
     let len := if clip then path.length - 1 else path.length
     ((if clip then storeAt cpath len [nul] else cpath), len)) =
      (clipped path ++ nul :: rest, (clipped path).length) ∧
    rest.drop 1 = cpath.drop ((clipped path).length + 2) := by
  simp only
  rw [storeAt_zero, List.length_append, List.length_singleton]
  by_cases hclip : 1 < path.length ∧ path.getLast? = some slash
  · obtain ⟨hlen, hlast⟩ := hclip
    obtain ⟨q, rfl⟩ : ∃ q, path = q ++ [slash] :=
      ⟨path.dropLast, (List.dropLast_append_getLast? slash hlast).symm⟩
    have hq : q ≠ [] := by
      rintro rfl
      exact absurd hlen (by simp)
    have hslash : (q ++ [slash] ++ [nul] ++ cpath.drop ((q ++ [slash]).length + 1)).getD
        ((q ++ [slash]).length - 1) nul = slash := by
      rw [List.append_assoc]
      exact (getD_append_length_sub_one (by simp) _).mpr hlast
    have hlen' : (q ++ [slash]).length - 1 = q.length := by simp
    refine ⟨nul :: cpath.drop (q.length + 2), ?_, ?_⟩
    · rw [hslash, clipped_of_slash hq]
      simp only [decide_eq_true hlen, decide_true, Bool.and_self, if_true, gt_iff_lt, hlen']
      rw [List.append_assoc, List.append_assoc, storeAt_append]
      simp
    · rw [clipped_of_slash hq]
      rfl
  · have hclipped : clipped path = path := by rw [clipped, if_neg hclip]
    have hfalse : (decide (path.length > 1) && decide ((path ++ [nul] ++
        cpath.drop (path.length + 1)).getD (path.length - 1) nul = slash)) = false := by
      rw [Bool.and_eq_false_iff, decide_eq_false_iff_not, decide_eq_false_iff_not]
      by_cases hlen : path.length > 1
      · have hne : path ≠ [] := List.length_pos_iff.mp (by omega)
        refine .inr fun hslash => hclip ⟨hlen, ?_⟩
        rw [List.append_assoc] at hslash
        exact (getD_append_length_sub_one hne _).mp hslash
      · exact .inl hlen
    refine ⟨cpath.drop (path.length + 1), ?_, ?_⟩
    · rw [hfalse, hclipped]
      simp
    · rw [hclipped, List.drop_drop]

/-- The test of the first two characters. -/
theorem qualified_iff (q : CStr) (rest : List Byte) :
    ((q ++ nul :: rest).getD 0 nul = slash ∨ (q ++ nul :: rest).getD 0 nul = dot ∧
      (q.length = 1 ∨ (q ++ nul :: rest).getD 1 nul = slash)) ↔ Qualified q := by
  have hns : nul ≠ slash := by decide
  have hnd : nul ≠ dot := by decide
  unfold Qualified
  match q with
  | [] => simp [hns, hnd]
  | [c] => simp
  | c :: d :: q => simp [eq_comm]

theorem cstr_drop_eq_nil_iff {buf : List Byte} {k : Nat} (hk : k < buf.length) :
    cstr (buf.drop k) = [] ↔ buf[k]? = some nul := by
  rw [List.drop_eq_getElem_cons hk, List.getElem?_eq_getElem hk, Option.some.injEq]
  by_cases hnul : buf[k] = nul
  · simp [hnul]
  · rw [cstr_cons hnul]
    exact iff_of_false (List.cons_ne_nil _ _) hnul

theorem cstr_behind {s : List Byte} (hs : NulFree s) (mem : List Byte) :
    cstr (s ++ mem) = s ++ cstr mem := by
  induction s with
  | nil => rfl
  | cons c s ih =>
    rw [nulFree_cons] at hs
    rw [List.cons_append, cstr_cons hs.1, ih hs.2, List.cons_append]

/-- What a call returns: behind `./` and the path comes what the buffer had there. -/
theorem canonicalizedPath_eq {cpath : List Byte} {path : CStr} (hcpath : cpath.length = maxPathLen)
    (hnul : NulFree path) (hshort : ShortEnough path) : ∃ format cpath',
    canonicalizedPath cpath path = .ok
      (if Qualified (clipped path) then clipped path
       else dot :: slash :: (clipped path ++ cstr (cpath.drop ((clipped path).length + 2))),
       format, cpath') ∧ cpath'.length = maxPathLen := by
  obtain ⟨rest, hclip, hrest⟩ := clip_buffer cpath path
  obtain ⟨hbuf, hlen⟩ := Prod.mk.inj hclip
  have hq : NulFree (clipped path) := by
    unfold clipped
    split
    · exact fun h => hnul (List.dropLast_subset _ h)
    · exact hnul
  have hlength : (clipped path ++ nul :: rest).length = maxPathLen := by
    have hpos : 0 < maxPathLen := by decide
    have hle : (path ++ [nul]).length ≤ cpath.length := by
      simp only [List.length_append, List.length_singleton]
      have := hshort.1
      omega
    rw [← hbuf]
    have hzero := length_storeAt (show 0 + (path ++ [nul]).length ≤ cpath.length by omega)
    split
    · rw [length_storeAt, hzero, hcpath]
      rw [hzero]
      simp only [List.length_append, List.length_singleton] at hle ⊢
      omega
    · rw [hzero, hcpath]
  unfold canonicalizedPath
  rw [if_neg (not_le.mpr hshort.1)]
  simp only at hbuf hlen ⊢
  rw [hbuf, hlen]
  by_cases hqual : Qualified (clipped path)
  · rw [if_pos ((qualified_iff _ rest).mpr hqual), if_pos hqual, cstr_append_nul hq]
    exact ⟨_, _, rfl, hlength⟩
  · have hroom := hshort.2 hqual
    rw [if_neg fun h => hqual ((qualified_iff _ rest).mp h), if_neg hqual,
      if_neg (not_le.mpr hroom), List.take_left]
    have hmoved : storeAt (storeAt (clipped path ++ nul :: rest) 2 (clipped path)) 0
        [dot, slash] = dot :: slash :: (clipped path ++ cpath.drop ((clipped path).length + 2)) := by
      have htwo : ((clipped path ++ nul :: rest).take 2).length = 2 := by
        rw [List.length_take, hlength]
        decide
      have hdrop : (clipped path ++ nul :: rest).drop (2 + (clipped path).length) =
          cpath.drop ((clipped path).length + 2) := by
        rw [Nat.add_comm 2, ← List.drop_drop, List.drop_left, ← hrest]
        rfl
      rw [storeAt_zero]
      unfold storeAt
      rw [List.append_assoc, List.drop_append, List.drop_of_length_le (by simp [htwo]), htwo, hdrop]
      rfl
    have htext : cstr (dot :: slash ::
        (clipped path ++ cpath.drop ((clipped path).length + 2))) =
          dot :: slash :: (clipped path ++ cstr (cpath.drop ((clipped path).length + 2))) := by
      rw [cstr_cons (by decide), cstr_cons (by decide), cstr_behind hq]
    rw [hmoved, htext]
    refine ⟨_, _, rfl, ?_⟩
    simp only [List.length_cons, List.length_append, List.length_drop]
    omega

/-- A result is right exactly where the buffer has a NUL behind it. -/
theorem canonicalizedPath_canonical {cpath : List Byte} {path : CStr}
    (hcpath : cpath.length = maxPathLen) (hnul : NulFree path) (hshort : ShortEnough path) :
    ∃ result format cpath', canonicalizedPath cpath path = .ok (result, format, cpath') ∧
      cpath'.length = maxPathLen ∧ (result = canonical path ↔ NulBehind cpath path) := by
  obtain ⟨format, cpath', hrun, hlen⟩ := canonicalizedPath_eq hcpath hnul hshort
  refine ⟨_, format, cpath', hrun, hlen, ?_⟩
  unfold canonical NulBehind
  by_cases hqual : Qualified (clipped path)
  · rw [if_pos hqual, if_pos hqual]
    exact iff_of_true rfl fun h => absurd hqual h
  · have hroom := hshort.2 hqual
    rw [if_neg hqual, if_neg hqual, List.cons.injEq, List.cons.injEq, List.append_right_eq_self,
      cstr_drop_eq_nil_iff (by omega)]
    exact ⟨fun h _ => h.2.2, fun h => ⟨rfl, rfl, h hqual⟩⟩

theorem canonicalizedPaths_iff {cpath : List Byte} {paths : List CStr}
    (hcpath : cpath.length = maxPathLen) (hnul : ∀ path ∈ paths, NulFree path)
    (hshort : ∀ path ∈ paths, ShortEnough path) : ∃ results,
    canonicalizedPaths cpath paths = .ok results ∧
      (results = paths.map canonical ↔ NulBehindAll cpath paths) := by
  induction paths generalizing cpath with
  | nil => exact ⟨[], rfl, iff_of_true rfl trivial⟩
  | cons path paths ih =>
    obtain ⟨hpath, hrest⟩ := List.forall_mem_cons.mp hnul
    obtain ⟨hshortPath, hshortRest⟩ := List.forall_mem_cons.mp hshort
    obtain ⟨result, format, cpath', hrun, hlen, hright⟩ :=
      canonicalizedPath_canonical hcpath hpath hshortPath
    obtain ⟨results, hruns, hrights⟩ := ih hlen hrest hshortRest
    refine ⟨result :: results, by simp [canonicalizedPaths, hrun, hruns, Except.map], ?_⟩
    rw [List.map_cons, List.cons.injEq, hright, hrights, NulBehindAll]
    refine and_congr_right fun _ => ⟨fun h result' format' cpath'' hrun' => ?_,
      fun h => h result format cpath' hrun⟩
    obtain ⟨-, hsame⟩ := Prod.mk.inj (Except.ok.inj (hrun.symm.trans hrun'))
    obtain ⟨-, rfl⟩ := Prod.mk.inj hsame
    exact h

/-- The buffer of a fresh process. -/
def freshPath : List Byte := List.replicate maxPathLen nul

/-- In a run every result is its path in canonical form exactly where each call that puts `./` in
front finds a NUL behind the path in the buffer. -/
theorem canonicalizedPaths_canonical_iff {paths : List CStr} (hnul : ∀ path ∈ paths, NulFree path)
    (hshort : ∀ path ∈ paths, ShortEnough path) : ∃ results,
    canonicalizedPaths freshPath paths = .ok results ∧
      (results = paths.map canonical ↔ NulBehindAll freshPath paths) :=
  canonicalizedPaths_iff List.length_replicate hnul hshort

instance (path : CStr) : Decidable (ShortEnough path) := by
  unfold ShortEnough
  infer_instance

theorem canonicalizedPaths_canonical_iff_one : ∃ results,
    canonicalizedPaths freshPath [lit "a/"] = .ok results ∧
      (results = [lit "./a"] ↔ NulBehindAll freshPath [lit "a/"]) :=
  canonicalizedPaths_canonical_iff (by decide) (by decide)

/-- What a longer path left behind it becomes part of the next. -/
theorem not_canonicalizedPaths_canonical :
    ¬ ∀ (paths results : List CStr), (∀ path ∈ paths, NulFree path) →
      (∀ path ∈ paths, ShortEnough path) → canonicalizedPaths freshPath paths = .ok results →
      results = paths.map canonical := by
  intro h
  have hrun : canonicalizedPaths freshPath [lit "abc", lit "x"] = .ok [lit "./abc", lit "./xbc"] := by
    decide +kernel
  have heq := h _ _ (by decide) (by decide) hrun
  revert heq
  decide

end Radmind
