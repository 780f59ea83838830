import Radmind.Fsdiff.Walk
import Radmind.Transcript.Complete

/-!
# The walk is in transcript order

The entries of a directory are sorted by `strcmp` on their names.  As no name has a
'/' in it, that is the path order of what lies below them, and a subtree lies between
its root and the next entry.  In a negative directory the paths come from the
transcripts, whose cursors are all behind the path passed last.  Nothing outside the
start path is passed.
-/

namespace Radmind

/-! ## The sorted list of a directory -/

def strKey (s : CStr) : List Nat := s.map UInt8.toNat

theorem toNat_pos {c : Byte} (hc : c ≠ nul) : 0 < c.toNat := by
  refine Nat.pos_of_ne_zero fun h => hc ?_
  rw [← UInt8.toNat_inj, h]
  rfl

theorem strcmp_spec {s t : CStr} (hs : NulFree s) (ht : NulFree t) :
    (strcmp s t < 0 ↔ strKey s < strKey t) ∧ (strcmp s t = 0 ↔ s = t) := by
  induction s generalizing t with
  | nil =>
    cases t with
    | nil => simp [strcmp, strKey]
    | cons b t =>
      have hb := toNat_pos (nulFree_cons.mp ht).1
      simp [strcmp, strKey, hb]
      omega
  | cons a s ih =>
    have ha := nulFree_cons.mp hs
    cases t with
    | nil =>
      have hpos := toNat_pos ha.1
      simp [strcmp, strKey]
      omega
    | cons b t =>
      have hb := nulFree_cons.mp ht
      obtain ⟨hneg, hzero⟩ := ih ha.2 hb.2
      show (strcmp (a :: s) (b :: t) < 0 ↔ a.toNat :: strKey s < b.toNat :: strKey t) ∧ _
      rw [strcmp, List.cons_lt_cons_iff]
      by_cases hab : a = b
      · subst hab
        simp [hneg, hzero]
      · have hne : a.toNat ≠ b.toNat := fun h => hab (UInt8.toNat_inj.mp h)
        have hzero : ¬ a.toNat = b.toNat ∧ (a :: s = b :: t ↔ False) :=
          ⟨hne, by simp [hab]⟩
        rw [if_neg hab, hzero.2]
        simp only [hne, false_and, or_false, iff_false]
        omega

theorem strcmp_neg {s t : CStr} (hs : NulFree s) (ht : NulFree t) :
    strcmp s t < 0 ↔ strKey s < strKey t := (strcmp_spec hs ht).1

theorem strcmp_pos {s t : CStr} (hs : NulFree s) (ht : NulFree t) :
    0 < strcmp s t ↔ strKey t < strKey s := by
  obtain ⟨hneg, hzero⟩ := strcmp_spec hs ht
  have hinj : strKey s = strKey t ↔ s = t :=
    ⟨fun h => List.map_injective_iff.mpr (fun _ _ => UInt8.toNat_inj.mp) h, congrArg strKey⟩
  rw [← hinj] at hzero
  constructor
  · intro h
    rcases lt_trichotomy (strKey s) (strKey t) with hlt | heq | hgt
    · have := hneg.mpr hlt
      omega
    · have := hzero.mpr heq
      omega
    · exact hgt
  · intro h
    have hn : ¬ strcmp s t < 0 := fun h' => lt_asymm h (hneg.mp h')
    have hz : strcmp s t ≠ 0 := fun h' => h.ne' (hzero.mp h')
    omega

/-- A list of entries in the order of their names. -/
structure NameSorted (head : List FsList) : Prop where
  isName : ∀ fl ∈ head, IsName fl.flName
  sorted : head.Pairwise fun a b => strKey a.flName < strKey b.flName

/-- What is left of a sorted list behind the entries before a name comes after it. -/
theorem NameSorted.lt_of_mem_dropWhile {head : List FsList} (h : NameSorted head) {name : CStr}
    (hname : NulFree name) (hne : ∀ fl ∈ head, fl.flName ≠ name) {fl : FsList}
    (hfl : fl ∈ head.dropWhile fun fl => 0 < strcmp name fl.flName) :
    strKey name < strKey fl.flName := by
  obtain ⟨hnames, hsorted⟩ := h
  induction head with
  | nil => simp at hfl
  | cons a head ih =>
    have hnul := (hnames a List.mem_cons_self).2.1
    rw [List.dropWhile_cons] at hfl
    by_cases hpos : 0 < strcmp name a.flName
    · rw [if_pos (by simpa using hpos)] at hfl
      exact ih (fun fl hm => hne fl (List.mem_cons_of_mem _ hm)) hfl
        (fun fl hm => hnames fl (List.mem_cons_of_mem _ hm)) hsorted.of_cons
    · rw [if_neg (by simpa using hpos)] at hfl
      have hlt : strKey name < strKey a.flName := by
        rw [← strcmp_neg hname hnul]
        have := (strcmp_spec hname hnul).2.not.mpr (hne a List.mem_cons_self).symm
        omega
      rcases List.mem_cons.mp hfl with rfl | hm
      · exact hlt
      · exact lt_trans hlt (List.rel_of_pairwise_cons hsorted hm)

/-- The entries before the first one looked at come before the new one. -/
theorem NameSorted.lt_of_mem_take_insertStart {head : List FsList} (h : NameSorted head)
    (last : Option Nat) {name : CStr} (hname : NulFree name) {fl : FsList}
    (hfl : fl ∈ head.take (insertStart strcmp head last name)) :
    strKey fl.flName < strKey name := by
  unfold insertStart at hfl
  split at hfl
  · simp at hfl
  next i =>
  split at hfl
  · simp at hfl
  next a hi =>
  split at hfl
  · next hpos =>
    obtain ⟨hlt, ha⟩ := List.getElem?_eq_some_iff.mp hi
    have hnul := (h.isName a (List.mem_of_getElem? hi)).2.1
    have hlast := (strcmp_pos hname hnul).mp hpos
    obtain ⟨j, hj, hget⟩ := List.mem_iff_getElem.mp hfl
    rw [List.getElem_take] at hget
    rw [List.length_take] at hj
    obtain hji | rfl : j < i ∨ j = i := by omega
    · have := List.pairwise_iff_getElem.mp h.sorted j i (by omega) hlt hji
      rw [hget, ha] at this
      exact lt_trans this hlast
    · rw [← hget, ha]
      exact hlast
  · simp at hfl

/-- The new entry goes between the entries it was compared with. -/
theorem fsInsert_eq (cmp : CStr → CStr → Int) (head : List FsList) (last : Option Nat)
    (new : FsList) :
    (fsInsert cmp head last new).1 =
      (head.take (insertStart cmp head last new.flName) ++
        (head.drop (insertStart cmp head last new.flName)).takeWhile fun fl =>
          0 < cmp new.flName fl.flName) ++
      new :: (head.drop (insertStart cmp head last new.flName)).dropWhile fun fl =>
        0 < cmp new.flName fl.flName := by
  unfold fsInsert
  simp only
  generalize insertStart cmp head last new.flName = current
  generalize hp : (fun fl : FsList => decide (0 < cmp new.flName fl.flName)) = p
  have htake := List.prefix_iff_eq_take.mp (List.takeWhile_prefix p (l := head.drop current))
  have hdrop : (head.drop current).drop ((head.drop current).takeWhile p).length =
      (head.drop current).dropWhile p := by
    have hleft := @List.drop_left _ ((head.drop current).takeWhile p)
      ((head.drop current).dropWhile p)
    rwa [List.takeWhile_append_dropWhile] at hleft
  rw [List.take_add, ← htake, ← List.drop_drop, hdrop]

theorem mem_fsInsert {cmp : CStr → CStr → Int} {head : List FsList} {last : Option Nat}
    {new fl : FsList} : fl ∈ (fsInsert cmp head last new).1 ↔ fl = new ∨ fl ∈ head := by
  unfold fsInsert
  simp only
  generalize insertStart cmp head last new.flName + _ = i
  have hsplit : fl ∈ head ↔ fl ∈ head.take i ∨ fl ∈ head.drop i := by
    rw [← List.mem_append, List.take_append_drop]
  rw [hsplit, List.mem_append, List.mem_cons]
  tauto

/-- `fs_insert` keeps the list sorted, wherever it starts to look. -/
theorem fsInsert_sorted {head : List FsList} (h : NameSorted head) (last : Option Nat)
    {new : FsList} (hnew : IsName new.flName) (hne : ∀ fl ∈ head, fl.flName ≠ new.flName) :
    NameSorted (fsInsert strcmp head last new).1 := by
  have hname := hnew.2.1
  refine ⟨fun fl hfl => ?_, ?_⟩
  · rcases mem_fsInsert.mp hfl with rfl | hfl
    · exact hnew
    · exact h.isName fl hfl
  have hskipped := fun fl => @NameSorted.lt_of_mem_take_insertStart _ h last _ hname fl
  rw [fsInsert_eq]
  generalize insertStart strcmp head last new.flName = current at hskipped ⊢
  have hsuffix : NameSorted (head.drop current) :=
    ⟨fun fl hm => h.isName fl (List.mem_of_mem_drop hm), h.sorted.sublist (List.drop_sublist _ _)⟩
  have hafter := fun fl => @NameSorted.lt_of_mem_dropWhile _ hsuffix _ hname
    (fun fl hm => hne fl (List.mem_of_mem_drop hm)) fl
  have hlooked : ∀ fl ∈ (head.drop current).takeWhile fun fl => 0 < strcmp new.flName fl.flName,
      strKey fl.flName < strKey new.flName := by
    intro fl hfl
    have hpos := List.mem_takeWhile_imp hfl
    have hnul := (hsuffix.isName fl ((List.takeWhile_prefix _).subset hfl)).2.1
    exact (strcmp_pos hname hnul).mp (by simpa using hpos)
  have hsplit : head = (head.take current ++
      (head.drop current).takeWhile (fun fl => 0 < strcmp new.flName fl.flName)) ++
        (head.drop current).dropWhile (fun fl => 0 < strcmp new.flName fl.flName) := by
    rw [List.append_assoc, List.takeWhile_append_dropWhile, List.take_append_drop]
  have hbefore : ∀ fl ∈ head.take current ++
      (head.drop current).takeWhile (fun fl => 0 < strcmp new.flName fl.flName),
      strKey fl.flName < strKey new.flName := fun fl hfl =>
    (List.mem_append.mp hfl).elim (hskipped fl) (hlooked fl)
  have hsorted := h.sorted
  rw [hsplit] at hsorted
  obtain ⟨hsorted₁, hsorted₂, hcross⟩ := List.pairwise_append.mp hsorted
  refine List.pairwise_append.mpr ⟨hsorted₁, List.pairwise_cons.mpr ⟨hafter, hsorted₂⟩, ?_⟩
  intro a ha b hb
  rcases List.mem_cons.mp hb with rfl | hb
  · exact hbefore a ha
  · exact hcross a ha b hb

/-- The list has the entries of the directory other than `.` and `..`. -/
theorem mem_readLoop {cmp : CStr → CStr → Int} {path : CStr} {entries : List (CStr × RadStat)}
    {head head' : List FsList} {last : Option Nat}
    (h : readLoop cmp path head last entries = .ok head') {fl : FsList} :
    fl ∈ head' ↔ fl ∈ head ∨ ∃ de ∈ entries, de.1 ≠ lit "." ∧ de.1 ≠ lit ".." ∧
      de.1 = fl.flName ∧ de.2.found path path = .ok fl.flObject := by
  induction entries generalizing head last with
  | nil =>
    obtain rfl := Except.ok.inj h
    simp
  | cons de entries ih =>
    obtain ⟨name, status⟩ := de
    rw [readLoop] at h
    simp only [List.mem_cons, exists_eq_or_imp]
    split at h
    · next hdots =>
      rw [ih h]
      tauto
    · next hdots =>
      split at h
      · exact absurd h (by simp)
      next o ho =>
      have hfl : fl = ⟨name, o⟩ ↔ name ≠ lit "." ∧ name ≠ lit ".." ∧ name = fl.flName ∧
          status.found path path = .ok fl.flObject := by
        rw [ho]
        obtain ⟨flName, flObject⟩ := fl
        simp only [FsList.mk.injEq, Except.ok.injEq]
        tauto
      have hrest := @ih (fsInsert cmp head last ⟨name, o⟩).1
        (some (fsInsert cmp head last ⟨name, o⟩).2) h
      rw [hrest, mem_fsInsert, hfl, or_assoc, or_left_comm]

theorem readLoop_sorted {path : CStr} {entries : List (CStr × RadStat)} {head head' : List FsList}
    {last : Option Nat} (h : NameSorted head) (hnodup : (entries.map (·.1)).Nodup)
    (hname : ∀ de ∈ entries, IsName de.1)
    (hne : ∀ fl ∈ head, ∀ de ∈ entries, fl.flName ≠ de.1)
    (hread : readLoop strcmp path head last entries = .ok head') : NameSorted head' := by
  induction entries generalizing head last with
  | nil =>
    obtain rfl := Except.ok.inj hread
    exact h
  | cons de entries ih =>
    obtain ⟨name, status⟩ := de
    rw [List.map_cons, List.nodup_cons] at hnodup
    have hname' := fun de hm => hname de (List.mem_cons_of_mem _ hm)
    rw [readLoop] at hread
    split at hread
    · exact ih h hnodup.2 hname'
        (fun fl hfl de hm => hne fl hfl de (List.mem_cons_of_mem _ hm)) hread
    · split at hread
      · exact absurd hread (by simp)
      next o ho =>
      have hnew : IsName (FsList.mk name o).flName := hname _ List.mem_cons_self
      have hs := fsInsert_sorted h last hnew fun fl hfl => hne fl hfl _ List.mem_cons_self
      refine ih hs hnodup.2 hname' (fun fl hfl de hm => ?_) hread
      rcases mem_fsInsert.mp hfl with rfl | hfl
      · exact fun heq => hnodup.1 (List.mem_map.mpr ⟨de, hm, heq.symm⟩)
      · exact hne fl hfl de (List.mem_cons_of_mem _ hm)

theorem readEntries_isName {caseSensitive : Bool} {fs : FileSystem} {path : CStr}
    {head : List FsList} (h : readEntries caseSensitive fs path = .ok head) :
    ∀ fl ∈ head, IsName fl.flName := by
  intro fl hfl
  unfold readEntries at h
  split at h
  · exact absurd h (by simp)
  next entries hdir =>
  obtain hnil | ⟨de, hde, -, -, hname, -⟩ := (mem_readLoop h).mp hfl
  · exact absurd hnil List.not_mem_nil
  · exact hname ▸ fs.isName _ _ hdir de hde

theorem readEntries_sorted {fs : FileSystem} {path : CStr} {head : List FsList}
    (h : readEntries true fs path = .ok head) : NameSorted head := by
  unfold readEntries at h
  split at h
  · exact absurd h (by simp)
  next entries hdir =>
  exact readLoop_sorted ⟨by simp, List.Pairwise.nil⟩ (fs.distinct _ _ hdir)
    (fs.isName _ _ hdir) (by simp) h

/-! ## Subtrees -/

/-- The path of a directory up to the names of its entries. -/
def stem (path : CStr) : CStr := if path.getLast? = some slash then path else path ++ [slash]

theorem childPath_eq (path name : CStr) : childPath path name = stem path ++ name := by
  unfold childPath stem
  split
  · rfl
  · simp

/-- What the walk of `path` may pass. -/
def Inside (path x : CStr) : Prop := x = path ∨ ∃ s, x = stem path ++ s

theorem prefix_stem (path : CStr) : path <+: stem path := by
  unfold stem
  split
  · exact List.prefix_rfl
  · exact List.prefix_append _ _

theorem Inside.prefix {path x : CStr} (h : Inside path x) : path <+: x := by
  rcases h with rfl | ⟨s, rfl⟩
  · exact List.prefix_rfl
  · exact (prefix_stem path).trans (List.prefix_append _ _)

/-- Where the inner path goes on behind the stem of the outer one. -/
theorem Inside.of_stem {path inner x : CStr} {s : CStr} (hinner : inner = stem path ++ s)
    (h : Inside inner x) : Inside path x := by
  obtain ⟨t, rfl⟩ := h.prefix
  exact .inr ⟨s ++ t, by rw [hinner, List.append_assoc]⟩

theorem Inside.trans {path inner x : CStr} (hinner : Inside path inner) (h : Inside inner x) :
    Inside path x := by
  rcases hinner with rfl | ⟨s, hs⟩
  · exact h
  · exact h.of_stem hs

theorem Inside.of_childPath {path name x : CStr} (h : Inside (childPath path name) x) :
    Inside path x := h.of_stem (childPath_eq path name)

theorem inside_of_ischild {path x : CStr} (h : ischild x (some path) = true) : Inside path x := by
  by_cases hroot : path = [slash]
  · subst hroot
    rw [ischild_root] at h
    cases x with
    | nil => simp at h
    | cons c x =>
      obtain rfl := Option.some.inj h
      exact .inr ⟨x, rfl⟩
  · rcases (ischild_iff hroot).mp h with rfl | ⟨r, rfl⟩
    · exact .inl rfl
    · unfold Inside stem
      split
      · exact .inr ⟨slash :: r, rfl⟩
      · exact .inr ⟨r, by simp⟩

theorem pathKey_lt_append (cs : Bool) (p : CStr) {s : CStr} (hs : s ≠ []) :
    pathKey cs p < pathKey cs (p ++ s) := by
  rw [pathKey_append]
  cases s with
  | nil => exact absurd rfl hs
  | cons c s =>
    have hlt : pathKey cs p ++ [] < pathKey cs p ++ pathKey cs (c :: s) :=
      List.Lex.append_left (· < ·) (List.nil_lt_cons _ _) (pathKey cs p)
    rwa [List.append_nil] at hlt

theorem Inside.key_le {path x : CStr} (h : Inside path x) :
    pathKey true path ≤ pathKey true x := by
  obtain ⟨t, rfl⟩ := h.prefix
  cases t with
  | nil => rw [List.append_nil]
  | cons c t => exact (pathKey_lt_append true path (by simp)).le

theorem Inside.key_lt_of_childPath {path name x : CStr} (hname : name ≠ [])
    (h : Inside (childPath path name) x) : pathKey true path < pathKey true x := by
  refine lt_of_lt_of_le ?_ h.key_le
  rw [childPath_eq]
  obtain ⟨s, hs⟩ := prefix_stem path
  rw [← hs, List.append_assoc]
  exact pathKey_lt_append true path (by simp [hname])

/-- What lies below an entry goes on with a '/' behind its name. -/
theorem inside_childPath {path name x : CStr} (hname : IsName name)
    (h : Inside (childPath path name) x) :
    ∃ u, x = stem path ++ (name ++ u) ∧ (u = [] ∨ ∃ s, u = slash :: s) := by
  have hlast : (childPath path name).getLast? ≠ some slash := by
    rw [childPath_eq, List.getLast?_append_of_ne_nil _ hname.1]
    exact fun hs => hname.2.2 (List.mem_of_getLast? hs)
  rcases h with rfl | ⟨s, rfl⟩
  · exact ⟨[], by rw [childPath_eq, List.append_nil], .inl rfl⟩
  · refine ⟨slash :: s, ?_, .inr ⟨s, rfl⟩⟩
    rw [stem, if_neg hlast, childPath_eq]
    simp

/-- The order of two names is that of what lies below them. -/
theorem key_lt_of_names {name name' u u' : CStr} (hn : IsName name) (hn' : IsName name')
    (hlt : strKey name < strKey name') (hu : u = [] ∨ ∃ s, u = slash :: s) :
    pathKey true (name ++ u) < pathKey true (name' ++ u') := by
  obtain ⟨-, hnul, hslash⟩ := hn
  obtain ⟨-, hnul', hslash'⟩ := hn'
  have hrank : ∀ c : Byte, slash ≠ c → byteRank true c = c.toNat := by
    intro c hc
    rw [byteRank, if_neg (Ne.symm hc)]
    rfl
  induction name generalizing name' with
  | nil =>
    cases name' with
    | nil => exact absurd hlt (lt_irrefl _)
    | cons b name' =>
      have hb : 0 < byteRank true b := by
        rw [hrank b fun h => hslash' (h ▸ List.mem_cons_self)]
        exact toNat_pos (nulFree_cons.mp hnul').1
      rcases hu with rfl | ⟨s, rfl⟩
      · exact List.nil_lt_cons _ _
      · exact List.cons_lt_cons_iff.mpr (.inl hb)
  | cons a name ih =>
    cases name' with
    | nil => exact absurd hlt (List.not_lt_nil _)
    | cons b name' =>
      rw [List.mem_cons, not_or] at hslash hslash'
      show byteRank true a :: pathKey true (name ++ u) < byteRank true b :: pathKey true (name' ++ u')
      rw [hrank a hslash.1, hrank b hslash'.1, List.cons_lt_cons_iff]
      rcases List.cons_lt_cons_iff.mp hlt with hab | ⟨hab, hrest⟩
      · exact .inl hab
      · exact .inr ⟨hab, ih hrest (nulFree_cons.mp hnul).2 hslash.2 (nulFree_cons.mp hnul').2
          hslash'.2⟩

theorem key_lt_of_siblings {path name name' x x' : CStr} (hn : IsName name) (hn' : IsName name')
    (hlt : strKey name < strKey name') (hx : Inside (childPath path name) x)
    (hx' : Inside (childPath path name') x') : pathKey true x < pathKey true x' := by
  obtain ⟨u, rfl, hu⟩ := inside_childPath hn hx
  obtain ⟨u', rfl, -⟩ := inside_childPath hn' hx'
  rw [pathKey_append, pathKey_append true (stem path)]
  exact List.Lex.append_left (· < ·) (key_lt_of_names hn hn' hlt hu) _

theorem nulFree_childPath {path name : CStr} (hpath : NulFree path) (hname : IsName name) :
    NulFree (childPath path name) := by
  unfold childPath
  split
  · exact fun hm => (List.mem_append.mp hm).elim hpath hname.2.1
  · intro hm
    rcases List.mem_append.mp hm with hm | hm
    · exact hpath hm
    · exact nulFree_cons.mpr ⟨by decide, hname.2.1⟩ hm

/-! ## The cursors move on -/

/-- `t'` is `t`, or `t` at a later line or at its end. -/
def Transcript.Moves (t t' : Transcript) : Prop :=
  t'.tEof = false → t.tEof = false ∧ (NulFree t.tPinfo.piName →
    NulFree t'.tPinfo.piName ∧ pathKey true t.tPinfo.piName ≤ pathKey true t'.tPinfo.piName)

theorem Transcript.Moves.refl (t : Transcript) : t.Moves t := fun h => ⟨h, fun hn => ⟨hn, le_rfl⟩⟩

theorem Transcript.Moves.trans {t t' t'' : Transcript} (h : t.Moves t') (h' : t'.Moves t'') :
    t.Moves t'' := by
  intro heof
  obtain ⟨heof', hle'⟩ := h' heof
  obtain ⟨heof'', hle⟩ := h heof'
  refine ⟨heof'', fun hn => ?_⟩
  obtain ⟨hn', hle⟩ := hle hn
  obtain ⟨hn'', hle'⟩ := hle' hn'
  exact ⟨hn'', le_trans hle hle'⟩

def Cursors.Moves (c c' : Cursors) : Prop :=
  ∀ (i : Nat) (t' : Transcript), c'.tranHead[i]? = some t' →
    ∃ t : Transcript, c.tranHead[i]? = some t ∧ t.Moves t'

theorem Cursors.Moves.refl (c : Cursors) : c.Moves c := fun _ t ht => ⟨t, ht, .refl t⟩

theorem Cursors.Moves.trans {c c' c'' : Cursors} (h : c.Moves c') (h' : c'.Moves c'') :
    c.Moves c'' := by
  intro i t'' ht''
  obtain ⟨t', ht', hmoves'⟩ := h' i t'' ht''
  obtain ⟨t, ht, hmoves⟩ := h i t' ht'
  exact ⟨t, ht, hmoves.trans hmoves'⟩

/-- Every transcript that is not at its end has a line with a name. -/
def Named (c : Cursors) : Prop := ∀ t ∈ c.tranHead, t.tEof = false → NulFree t.tPinfo.piName

/-- Every transcript that is not at its end has a line behind `path`. -/
def Beyond (path : CStr) (c : Cursors) : Prop :=
  ∀ t ∈ c.tranHead, t.tEof = false → pathKey true path < pathKey true t.tPinfo.piName

theorem Cursors.Moves.named {c c' : Cursors} (h : c.Moves c') (hc : Named c) : Named c' := by
  intro t' ht' heof'
  obtain ⟨i, hi⟩ := List.mem_iff_getElem?.mp ht'
  obtain ⟨t, ht, hmoves⟩ := h i t' hi
  obtain ⟨heof, hle⟩ := hmoves heof'
  exact (hle (hc t (List.mem_of_getElem? ht) heof)).1

theorem Cursors.Moves.beyond {c c' : Cursors} (h : c.Moves c') (hc : Named c) {path : CStr}
    (hb : Beyond path c) : Beyond path c' := by
  intro t' ht' heof'
  obtain ⟨i, hi⟩ := List.mem_iff_getElem?.mp ht'
  obtain ⟨t, ht, hmoves⟩ := h i t' hi
  obtain ⟨heof, hle⟩ := hmoves heof'
  have hmem := List.mem_of_getElem? ht
  exact lt_of_lt_of_le (hb t hmem heof) (hle (hc t hmem heof)).2

section

variable {cfg : SelectConfig} {c c' : Cursors} {i : Nat}

/-- `transcript_parse` goes on to a line behind the current one. -/
theorem transcriptParse_moves {cfg : ParseConfig} (hcs : cfg.caseSensitive = true)
    {buf buf' : List Byte} {t t' : Transcript} (h : transcriptParse cfg buf t = .ok (t', buf')) :
    t.Moves t' ∧ (t'.tEof = false → NulFree t.tPinfo.piName →
      pathKey true t.tPinfo.piName < pathKey true t'.tPinfo.piName) := by
  obtain ⟨-, -, ⟨heof, -⟩ | ⟨heof, -, hnul, hpos⟩⟩ := transcriptParse_cases h
  · exact ⟨fun h => by simp [heof] at h, fun h => by simp [heof] at h⟩
  · rw [hcs] at hpos
    have hlt : NulFree t.tPinfo.piName →
        pathKey true t.tPinfo.piName < pathKey true t'.tPinfo.piName :=
      fun hn => (pathcasecmp_pos (ranked_of_nulFree hnul) (ranked_of_nulFree hn)).mp hpos
    exact ⟨fun h => ⟨heof ▸ h, fun hn => ⟨hnul, (hlt hn).le⟩⟩, fun _ => hlt⟩

/-- The second loop of `transcript_select` leaves no line behind that is not after
`name`. -/
theorem moveAhead_moves {cfg : ParseConfig} (hcs : cfg.caseSensitive = true) {name : CStr}
    {buf buf' : List Byte} {ts ts' : List Transcript}
    (h : moveAhead cfg name buf ts = .ok (ts', buf')) {j : Nat} {t' : Transcript}
    (ht' : ts'[j]? = some t') : ∃ t, ts[j]? = some t ∧ t.Moves t' ∧
      (t'.tEof = false → NulFree name → NulFree t.tPinfo.piName →
        pathKey true name ≤ pathKey true t.tPinfo.piName →
          pathKey true name < pathKey true t'.tPinfo.piName) := by
  induction ts generalizing buf buf' ts' j with
  | nil =>
    obtain ⟨rfl, -⟩ := Prod.mk.inj (Except.ok.inj h)
    simp at ht'
  | cons u ts ih =>
    rw [moveAhead] at h
    split at h
    · exact absurd h (by simp)
    next u' buf₁ hu =>
    split at h
    · exact absurd h (by simp)
    next ts₁ buf₂ hts =>
    obtain ⟨rfl, -⟩ := Prod.mk.inj (Except.ok.inj h)
    cases j with
    | succ j => exact ih hts ht'
    | zero =>
      obtain rfl := Option.some.inj ht'
      refine ⟨u, rfl, ?_⟩
      split at hu
      · next heq =>
        obtain ⟨hmoves, hlt⟩ := transcriptParse_moves hcs hu
        exact ⟨hmoves, fun heof _ hn hle => lt_of_le_of_lt hle (hlt heof hn)⟩
      · next hne =>
        obtain ⟨rfl, -⟩ := Prod.mk.inj (Except.ok.inj hu)
        refine ⟨.refl _, fun _ hname hn hle => lt_of_le_of_ne hle fun hkey => hne ?_⟩
        rw [hcs]
        exact (pathcasecmp_eq_zero (ranked_of_nulFree hname) (ranked_of_nulFree hn)).mpr hkey

/-- The transcript at `i` has the next line, and no other transcript has it. -/
structure Front (c : Cursors) (i : Nat) (t : Transcript) : Prop where
  get : c.tranHead[i]? = some t
  atEnd : t.tEof = true → ∀ u ∈ c.tranHead, u.tEof = true
  least : t.tEof = false → ∀ j u, c.tranHead[j]? = some u → j ≠ i → u.tEof = false →
    pathKey true t.tPinfo.piName < pathKey true u.tPinfo.piName

theorem selectPass_front (hcs : cfg.caseSensitive = true) (hc : Named c) {t : Transcript}
    (h : selectPass cfg c = .ok (c', i, t)) : c.Moves c' ∧ Front c' i t := by
  unfold selectPass at h
  split at h
  · exact absurd h (by simp)
  next head rest hhead =>
  simp only at h
  split at h
  · exact absurd h (by simp)
  next moved buf hm =>
  obtain ⟨rfl, hit⟩ := Prod.mk.inj (Except.ok.inj h)
  obtain ⟨rfl, rfl⟩ := Prod.mk.inj hit
  have hbegins : Begins true c.tranHead (scan cfg.caseSensitive (0, head) 1 rest).1
      (scan cfg.caseSensitive (0, head) 1 rest).2 := by
    have hranked : RankedNames true ([head] ++ rest) := fun t ht heof =>
      ranked_of_nulFree (hc t (hhead ▸ ht) heof)
    rw [hcs, hhead]
    exact @begins_scan true [head] rest (0, head) (begins_head head) hranked
  generalize scan cfg.caseSensitive (0, head) 1 rest = b at hm hbegins ⊢
  obtain ⟨i, t⟩ := b
  simp only at hm hbegins ⊢
  have hi := (List.getElem?_eq_some_iff.mp hbegins.get).1
  have hlen : (c.tranHead.take (i + 1)).length = i + 1 := by
    rw [List.length_take]
    omega
  have hlow : ∀ {j : Nat} {u : Transcript}, j ≤ i →
      (c.tranHead.take (i + 1) ++ moved)[j]? = some u → c.tranHead[j]? = some u := by
    intro j u hj hu
    rwa [List.getElem?_append_left (by omega), List.getElem?_take, if_pos (by omega)] at hu
  have hhigh : ∀ {j : Nat} {u : Transcript}, i < j →
      (c.tranHead.take (i + 1) ++ moved)[j]? = some u → moved[j - (i + 1)]? = some u := by
    intro j u hj hu
    rwa [List.getElem?_append_right (by omega), hlen] at hu
  have hdrop : ∀ {j : Nat} {u : Transcript}, i < j →
      (c.tranHead.drop (i + 1))[j - (i + 1)]? = some u → c.tranHead[j]? = some u := by
    intro j u hj hu
    rwa [List.getElem?_drop, Nat.add_sub_cancel' (by omega)] at hu
  have hmoves : ∀ (j : Nat) (u' : Transcript), (c.tranHead.take (i + 1) ++ moved)[j]? = some u' →
      ∃ u : Transcript, c.tranHead[j]? = some u ∧ u.Moves u' := by
    intro j u' hu'
    by_cases hj : j ≤ i
    · exact ⟨u', hlow hj hu', .refl u'⟩
    · obtain ⟨u, hu, hmoves, -⟩ := moveAhead_moves hcs hm (hhigh (by omega) hu')
      exact ⟨u, hdrop (by omega) hu, hmoves⟩
  refine ⟨hmoves, ?_, fun heof u' hu' => ?_, fun heof j u' hu' hj heof' => ?_⟩
  · show (c.tranHead.take (i + 1) ++ moved)[i]? = some t
    rw [List.getElem?_append_left (by omega), List.getElem?_take, if_pos (by omega), hbegins.get]
  · obtain ⟨j, hj⟩ := List.mem_iff_getElem?.mp hu'
    obtain ⟨u, hu, hmoves⟩ := hmoves j u' hj
    by_contra heof'
    have hueof := (hmoves (by simpa using heof')).1
    simp [(hbegins.atEnd heof).1 u (List.mem_of_getElem? hu)] at hueof
  · have hname := hc t (List.mem_of_getElem? hbegins.get) heof
    by_cases hlt : j < i
    · exact hbegins.first heof j hlt u' (hlow (by omega) hu') heof'
    · obtain ⟨u, hu, hmoves, hahead⟩ := moveAhead_moves hcs hm (hhigh (by omega) hu')
      have hmem := List.mem_of_getElem? (hdrop (by omega) hu)
      have hueof := (hmoves heof').1
      exact hahead heof' hname (hc u hmem hueof) (not_lt.mp (hbegins.least heof u hmem hueof))

theorem advance_moves (hcs : cfg.caseSensitive = true) (h : advance cfg c i = .ok c') :
    c.Moves c' ∧ ∃ t t', c.tranHead[i]? = some t ∧ c'.tranHead = c.tranHead.set i t' ∧
      t.Moves t' ∧ (t'.tEof = false → NulFree t.tPinfo.piName →
        pathKey true t.tPinfo.piName < pathKey true t'.tPinfo.piName) := by
  unfold advance at h
  split at h
  · exact absurd h (by simp)
  next t ht =>
  split at h
  · exact absurd h (by simp)
  next t' buf hparse =>
  obtain rfl := Except.ok.inj h
  obtain ⟨hmoves, hlt⟩ := transcriptParse_moves hcs hparse
  have hi := (List.getElem?_eq_some_iff.mp ht).1
  refine ⟨fun j u hu => ?_, t, t', ht, rfl, hmoves, hlt⟩
  simp only at hu
  by_cases hj : i = j
  · subst hj
    rw [List.getElem?_set_self hi] at hu
    exact ⟨t, ht, Option.some.inj hu ▸ hmoves⟩
  · rw [List.getElem?_set_ne hj] at hu
    exact ⟨u, hu, .refl u⟩

/-- Past the front line all cursors are behind it. -/
theorem Front.beyond (hcs : cfg.caseSensitive = true) (hc : Named c) {t : Transcript}
    (hfront : Front c i t) (heof : t.tEof = false) (h : advance cfg c i = .ok c') :
    Beyond t.tPinfo.piName c' := by
  obtain ⟨-, t₁, t', ht, hset, hmoves, hlt⟩ := advance_moves hcs h
  obtain rfl := Option.some.inj (hfront.get.symm.trans ht)
  have hi := (List.getElem?_eq_some_iff.mp ht).1
  intro u hu hueof
  obtain ⟨j, hj⟩ := List.mem_iff_getElem?.mp hu
  rw [hset] at hj
  by_cases hji : i = j
  · subst hji
    rw [List.getElem?_set_self hi] at hj
    obtain rfl := Option.some.inj hj
    exact hlt hueof (hc t (List.mem_of_getElem? ht) heof)
  · rw [List.getElem?_set_ne hji] at hj
    exact hfront.least heof j u hj (Ne.symm hji) hueof

theorem selectLoop_front (hcs : cfg.caseSensitive = true) {fuel : Nat} (hc : Named c)
    (h : selectLoop cfg fuel c = .ok (c', i)) : c.Moves c' ∧ ∃ t, Front c' i t := by
  induction fuel generalizing c with
  | zero => exact absurd h (by simp [selectLoop])
  | succ fuel ih =>
    rw [selectLoop] at h
    split at h
    · exact absurd h (by simp)
    next c₁ i₁ t hpass =>
    obtain ⟨hmoves, hfront⟩ := selectPass_front hcs hc hpass
    split at h
    · obtain ⟨rfl, rfl⟩ := Prod.mk.inj (Except.ok.inj h)
      exact ⟨hmoves, t, hfront⟩
    · split at h
      · exact absurd h (by simp)
      next c₂ hadv =>
      have hwarn : c₁.Moves (warn cfg t c₁) := by
        intro j u hu
        rw [warn_tranHead] at hu
        exact ⟨u, hu, .refl u⟩
      have hto := (hmoves.trans hwarn).trans (advance_moves hcs hadv).1
      obtain ⟨hrest, hfront'⟩ := ih (hto.named hc) h
      exact ⟨hto.trans hrest, hfront'⟩

theorem transcriptSelect_front (hcs : cfg.caseSensitive = true) (hc : Named c)
    (h : transcriptSelect cfg c = .ok (c', i)) : c.Moves c' ∧ ∃ t, Front c' i t :=
  selectLoop_front hcs hc h

end

theorem printed_move {pr' : Printer} {move m : Move} {x : Except Exit Printer}
    (hx : (match x with
      | .error e => .error e
      | .ok pr => .ok (pr, m) : Except Exit (Printer × Move)) = .ok (pr', move)) : move = m := by
  cases x with
  | error e => simp at hx
  | ok pr => exact (Prod.mk.inj (Except.ok.inj hx)).2.symm

/-- The ways `t_compare` goes on an object. -/
theorem tCompare_cases {cfg : DiffConfig} {pr pr' : Printer} {p : PathInfo} {eof : Bool}
    {t : TranLine} {move : Move} (h : tCompare cfg pr (some p) eof t = .ok (pr', move)) :
    (move = .tran ∧ eof = false ∧ 0 < pathcasecmp p.piName t.pinfo.piName cfg.caseSensitive) ∨
      (move = .fs ∧
        (eof = true ∨ pathcasecmp p.piName t.pinfo.piName cfg.caseSensitive < 0)) ∨
      (move = .both ∧ eof = false ∧
        pathcasecmp p.piName t.pinfo.piName cfg.caseSensitive = 0) := by
  unfold tCompare at h
  simp only at h
  cases eof with
  | true =>
    simp only [if_true, show ¬ (-1 : Int) > 0 by decide, show (-1 : Int) < 0 by decide,
      if_false] at h
    exact .inr (.inl ⟨printed_move h, .inl rfl⟩)
  | false =>
    simp only [Bool.false_eq_true, if_false] at h
    split at h
    · next hgt => exact .inl ⟨printed_move h, rfl, hgt⟩
    · split at h
      · next hlt => exact .inr (.inl ⟨printed_move h, .inr hlt⟩)
      · exact .inr (.inr ⟨printed_move h, rfl, by omega⟩)

/-- The loop of `transcript` ends with all cursors behind the path. -/
theorem compareLoop_beyond {cfg : DiffConfig} (hcs : cfg.caseSensitive = true) {p : PathInfo}
    (hp : NulFree p.piName) {enter enter' fuel : Nat} {r r' : Run} (hc : Named r.cursors)
    (h : compareLoop cfg (some p) enter fuel r = .ok (r', enter')) :
    r.cursors.Moves r'.cursors ∧ Beyond p.piName r'.cursors := by
  induction fuel generalizing r with
  | zero => exact absurd h (by simp [compareLoop])
  | succ fuel ih =>
    rw [compareLoop] at h
    split at h
    · exact absurd h (by simp)
    next c i hsel =>
    obtain ⟨hmoves, t, hfront⟩ := transcriptSelect_front hcs hc hsel
    have hc' := hmoves.named hc
    have hname : t.tEof = false → NulFree t.tPinfo.piName :=
      hc' t (List.mem_of_getElem? hfront.get)
    rw [hfront.get] at h
    simp only at h
    split at h
    · exact absurd h (by simp)
    · next pr hcmp =>
      obtain ⟨rfl, -⟩ := Prod.mk.inj (Except.ok.inj h)
      refine ⟨hmoves, fun u hu hueof => ?_⟩
      have heof : t.tEof = false := by
        by_contra heof
        simp [hfront.atEnd (by simpa using heof) u hu] at hueof
      obtain ⟨hm, -⟩ | ⟨-, hend | hlt⟩ | ⟨hm, -⟩ := tCompare_cases hcmp
      · simp at hm
      · simp [heof] at hend
      · rw [hcs] at hlt
        have hkey := (pathcmp_neg hp (hname heof)).mp hlt
        obtain ⟨j, hj⟩ := List.mem_iff_getElem?.mp hu
        by_cases hji : j = i
        · subst hji
          obtain rfl := Option.some.inj (hfront.get.symm.trans hj)
          exact hkey
        · exact lt_trans hkey (hfront.least heof j u hj hji hueof)
      · simp at hm
    · next pr hcmp =>
      obtain ⟨hm, -⟩ | ⟨hm, -⟩ | ⟨-, heof, heq⟩ := tCompare_cases hcmp
      · simp at hm
      · simp at hm
      split at h
      · exact absurd h (by simp)
      next c' hadv =>
      obtain ⟨rfl, -⟩ := Prod.mk.inj (Except.ok.inj h)
      rw [hcs] at heq
      have hpath : p.piName = t.tPinfo.piName := (pathcmp_eq_zero hp (hname heof)).mp heq
      exact ⟨hmoves.trans (advance_moves hcs hadv).1, hpath ▸ hfront.beyond hcs hc' heof hadv⟩
    · split at h
      · exact absurd h (by simp)
      next c' hadv =>
      have hto := hmoves.trans (advance_moves hcs hadv).1
      obtain ⟨hrest, hbeyond⟩ := ih (r := ⟨c', _⟩) (hto.named hc) h
      exact ⟨hto.trans hrest, hbeyond⟩

/-- Where nothing is excluded a call leaves all cursors behind its path. -/
theorem transcript_beyond {cfg : DiffConfig} (hcs : cfg.caseSensitive = true)
    (hexcl : ∀ path, cfg.tExclude path = false) {e : FsEntry} (he : NulFree e.path) {r r' : Run}
    {enter : Nat} (hc : Named r.cursors) (h : transcript cfg r (some e) = .ok (r', enter)) :
    r.cursors.Moves r'.cursors ∧ Beyond e.path r'.cursors := by
  have hskip : skips cfg e = false := by simp [skips, hexcl]
  unfold transcript at h
  simp only [hskip, Bool.false_eq_true, if_false] at h
  have hp : (describe r.printer.devHead e).2.piName = e.path := describe_name _ e
  rw [← hp] at he ⊢
  have hloop := fun hnamed => compareLoop_beyond hcs he hnamed h
  exact hloop hc

/-! ## The walk -/

/-- The calls of a walk come in ascending order, behind whatever the cursors are
behind before it, and leave the cursors behind them all. -/
structure InOrder (w : Walked) (r : Run) (P : CStr → Prop) : Prop where
  ascending : w.visits.Pairwise fun v v' =>
    pathKey true v.entry.path < pathKey true v'.entry.path
  within : ∀ v ∈ w.visits, NulFree v.entry.path ∧ P v.entry.path
  moves : ∀ r', w.result = .ok r' → r.cursors.Moves r'.cursors ∧
    ∀ v ∈ w.visits, Beyond v.entry.path r'.cursors

theorem InOrder.mono {w : Walked} {r : Run} {P Q : CStr → Prop} (h : InOrder w r P)
    (hPQ : ∀ x, P x → Q x) : InOrder w r Q :=
  ⟨h.ascending, fun v hv => ⟨(h.within v hv).1, hPQ _ (h.within v hv).2⟩, h.moves⟩

theorem inOrder_nil {r : Run} (P : CStr → Prop) {result : Except WalkExit Run}
    (h : ∀ r', result = .ok r' → r.cursors.Moves r'.cursors) : InOrder ⟨[], result⟩ r P :=
  ⟨List.Pairwise.nil, fun _ hv => absurd hv List.not_mem_nil,
    fun r' hr' => ⟨h r' hr', fun _ hv => absurd hv List.not_mem_nil⟩⟩

/-- A walk that goes on behind the paths it has passed. -/
theorem InOrder.andThen {w : Walked} {r : Run} {next : Run → Walked} {P : CStr → Prop}
    (h : InOrder w r P) (hc : Named r.cursors)
    (hnext : ∀ r', w.result = .ok r' → InOrder (next r') r' P ∧
      ∀ v ∈ w.visits, ∀ v' ∈ (next r').visits,
        pathKey true v.entry.path < pathKey true v'.entry.path) :
    InOrder (w.andThen next) r P := by
  obtain ⟨visits, result⟩ := w
  cases result with
  | error e => exact h
  | ok r' =>
    obtain ⟨hn, hcross⟩ := hnext r' rfl
    obtain ⟨hmoves, hbeyond⟩ := h.moves r' rfl
    rw [Walked.andThen_ok]
    refine ⟨List.pairwise_append.mpr ⟨h.ascending, hn.ascending, hcross⟩, fun v hv => ?_,
      fun r'' hr'' => ?_⟩
    · exact (List.mem_append.mp hv).elim (h.within v) (hn.within v)
    · obtain ⟨hmoves', hbeyond'⟩ := hn.moves r'' hr''
      refine ⟨hmoves.trans hmoves', fun v hv => ?_⟩
      rcases List.mem_append.mp hv with hv | hv
      · exact hmoves'.beyond (hmoves.named hc) (hbeyond v hv)
      · exact hbeyond' v hv

/-- What the loops need of the recursive call. -/
def WalksInOrder (walk : FsEntry → Run → Walked) : Prop :=
  ∀ e r, NulFree e.path → Named r.cursors → InOrder (walk e r) r (Inside e.path)

section

variable {cfg : WalkConfig} {fs : FileSystem} {walk : FsEntry → Run → Walked}

theorem negativeLoop_inOrder (hcs : cfg.caseSensitive = true) (hwalk : WalksInOrder walk)
    (path : CStr) (pdel : Bool) (fuel : Nat) {r : Run} (hc : Named r.cursors) :
    InOrder (negativeLoop cfg fs path pdel walk fuel r) r fun x => Inside path x ∧
      ∀ b, Beyond b r.cursors → pathKey true b < pathKey true x := by
  induction fuel generalizing r with
  | zero => exact inOrder_nil _ fun _ h => absurd h (by simp)
  | succ fuel ih =>
    obtain ⟨result, hstop, heq⟩ | ⟨c, i, t, o, hpass⟩ := negativeLoop_cases cfg fs path pdel r
    · rw [heq]
      refine inOrder_nil _ fun r' h => ?_
      obtain ⟨i, hsel⟩ := hstop.ok r' h
      exact (transcriptSelect_front hcs hc hsel).1
    obtain ⟨hmoves, t', hfront⟩ := transcriptSelect_front hcs hc hpass.select
    have hc' := hmoves.named hc
    have hmem := List.mem_of_getElem? hpass.get
    have hchild := hpass.child
    rw [hcs] at hchild
    have hinside : Inside path t.tPinfo.piName := inside_of_ischild hchild
    have hbehind : ∀ b, Beyond b r.cursors → pathKey true b < pathKey true t.tPinfo.piName :=
      fun b hb => hmoves.beyond hc hb t hmem hpass.line
    have hfirst := hwalk (o.entry t.tPinfo.piName pdel) { r with cursors := c }
      (hc' t hmem hpass.line) hc'
    have hgone : InOrder (walk (o.entry t.tPinfo.piName pdel) { r with cursors := c }) r
        fun x => Inside path x ∧ ∀ b, Beyond b r.cursors → pathKey true b < pathKey true x := by
      refine ⟨hfirst.ascending, fun v hv => ?_, fun r' hr' => ?_⟩
      · obtain ⟨hnul, hin⟩ := hfirst.within v hv
        exact ⟨hnul, hinside.trans hin, fun b hb => lt_of_lt_of_le (hbehind b hb) hin.key_le⟩
      · obtain ⟨hmoves', hbeyond⟩ := hfirst.moves r' hr'
        exact ⟨hmoves.trans hmoves', hbeyond⟩
    rw [hpass.round]
    refine hgone.andThen hc fun r' hr' => ?_
    obtain ⟨hmoves', hbeyond⟩ := hgone.moves r' hr'
    have hrest := ih (hmoves'.named hc)
    refine ⟨hrest.mono fun x hx => ⟨hx.1, fun b hb => hx.2 b (hmoves'.beyond hc hb)⟩, ?_⟩
    intro v hv v' hv'
    exact (hrest.within v' hv').2.2 _ (hbeyond v hv)

theorem walkEntries_inOrder (hwalk : WalksInOrder walk) {path : CStr} (hpath : NulFree path)
    (delParent : Bool) {entries : List FsList} (hsorted : NameSorted entries) {r : Run}
    (hc : Named r.cursors) :
    InOrder (walkEntries path delParent walk entries r) r fun x =>
      ∃ fl ∈ entries, Inside (childPath path fl.flName) x := by
  induction entries generalizing r with
  | nil =>
    exact inOrder_nil _ fun r' h => by
      obtain rfl := Except.ok.inj h
      exact .refl _
  | cons cur next ih =>
    have hname := hsorted.isName cur List.mem_cons_self
    have hnext : NameSorted next :=
      ⟨fun fl hfl => hsorted.isName fl (List.mem_cons_of_mem _ hfl), hsorted.sorted.of_cons⟩
    rw [walkEntries]
    split
    · exact inOrder_nil _ fun _ h => absurd h (by simp)
    have hnul := nulFree_childPath hpath hname
    have hfirst := hwalk (cur.flObject.entry (childPath path cur.flName) delParent) r hnul hc
    refine (hfirst.mono fun x hx => ⟨cur, List.mem_cons_self, hx⟩).andThen hc fun r' hr' => ?_
    have hrest := ih hnext ((hfirst.moves r' hr').1.named hc)
    refine ⟨hrest.mono fun x ⟨fl, hfl, hx⟩ => ⟨fl, List.mem_cons_of_mem _ hfl, hx⟩, ?_⟩
    intro v hv v' hv'
    obtain ⟨-, fl, hfl, hin⟩ := hrest.within v' hv'
    exact key_lt_of_siblings hname (hsorted.isName fl (List.mem_cons_of_mem _ hfl))
      (List.rel_of_pairwise_cons hsorted.sorted hfl) (hfirst.within v hv).2 hin

theorem fsWalk_inOrder (hcs : cfg.caseSensitive = true)
    (hexcl : ∀ path, cfg.tExclude path = false) (fuel : Nat) (negative : Bool) :
    WalksInOrder (fsWalk cfg fs fuel negative) := by
  induction fuel generalizing negative with
  | zero => exact fun e r _ _ => inOrder_nil _ fun _ h => absurd h (by simp)
  | succ fuel ih =>
    intro e r he hc
    have hself : Inside e.path e.path := .inl rfl
    -- the call for the object itself
    have hvisit : ∀ {result : Except WalkExit Run}, (∀ r', result = .ok r' →
        r.cursors.Moves r'.cursors ∧ Beyond e.path r'.cursors) →
        InOrder ⟨[⟨e, negative⟩], result⟩ r (Inside e.path) := by
      intro result hresult
      refine ⟨List.pairwise_singleton _ _, fun v hv => ?_, fun r' hr' => ?_⟩
      · obtain rfl := List.mem_singleton.mp hv
        exact ⟨he, hself⟩
      · obtain ⟨hmoves, hbeyond⟩ := hresult r' hr'
        refine ⟨hmoves, fun v hv => ?_⟩
        obtain rfl := List.mem_singleton.mp hv
        exact hbeyond
    have herror : ∀ x, InOrder ⟨[⟨e, negative⟩], .error x⟩ r (Inside e.path) :=
      fun x => hvisit fun r' h => absurd h (by simp)
    rw [fsWalk]
    split
    · exact herror _
    · -- a negative directory
      next r₁ htran =>
      obtain ⟨hmoves, hbeyond⟩ := transcript_beyond hcs hexcl he hc htran
      refine (hvisit fun r' h => ?_).andThen hc fun r' h => ?_
      · obtain rfl := Except.ok.inj h
        exact ⟨hmoves, hbeyond⟩
      obtain rfl := Except.ok.inj h
      have hloop := @negativeLoop_inOrder cfg fs _ hcs (ih true) e.path e.parentMinus fuel _
        (hmoves.named hc)
      refine ⟨hloop.mono fun x hx => hx.1, fun v hv v' hv' => ?_⟩
      obtain rfl := List.mem_singleton.mp hv
      exact (hloop.within v' hv').2.2 _ hbeyond
    · next r₁ htran =>
      refine hvisit fun r' h => ?_
      obtain rfl := Except.ok.inj h
      exact transcript_beyond hcs hexcl he hc htran
    · next r₁ htran =>
      obtain ⟨hmoves, hbeyond⟩ := transcript_beyond hcs hexcl he hc htran
      have hhere : InOrder ⟨[⟨e, negative⟩], .ok r₁⟩ r (Inside e.path) := by
        refine hvisit fun r' h => ?_
        obtain rfl := Except.ok.inj h
        exact ⟨hmoves, hbeyond⟩
      split
      · exact hhere
      split
      · exact herror _
      next entries hread =>
      rw [hcs] at hread
      have hsorted := readEntries_sorted hread
      refine hhere.andThen hc fun r' h => ?_
      obtain rfl := Except.ok.inj h
      have hloop := walkEntries_inOrder (ih false) he r₁.printer.fsMinus hsorted (hmoves.named hc)
      refine ⟨hloop.mono fun x ⟨fl, _, hx⟩ => hx.of_childPath, fun v hv v' hv' => ?_⟩
      obtain rfl := List.mem_singleton.mp hv
      obtain ⟨-, fl, hfl, hin⟩ := hloop.within v' hv'
      exact hin.key_lt_of_childPath (hsorted.isName fl hfl).1
    · exact herror _

end

/-! ## The walk stays beneath its start -/

section

variable {cfg : WalkConfig} {fs : FileSystem} {walk : FsEntry → Run → Walked}

theorem mem_andThen {w : Walked} {next : Run → Walked} {v : Visit}
    (h : v ∈ (w.andThen next).visits) : v ∈ w.visits ∨ ∃ r', v ∈ (next r').visits := by
  obtain ⟨visits, result⟩ := w
  cases result with
  | error e => exact .inl h
  | ok r' => exact (List.mem_append.mp h).imp id fun hv => ⟨r', hv⟩

/-- What the loops need of the recursive call. -/
def WalksInside (walk : FsEntry → Run → Walked) : Prop :=
  ∀ e r, ∀ v ∈ (walk e r).visits, Inside e.path v.entry.path

theorem negativeLoop_inside (hcs : cfg.caseSensitive = true) (hwalk : WalksInside walk)
    (path : CStr) (pdel : Bool) (fuel : Nat) {r : Run} :
    ∀ v ∈ (negativeLoop cfg fs path pdel walk fuel r).visits, Inside path v.entry.path := by
  induction fuel generalizing r with
  | zero => exact fun _ hv => absurd hv List.not_mem_nil
  | succ fuel ih =>
    intro v hv
    obtain ⟨result, -, heq⟩ | ⟨c, i, t, o, hpass⟩ := negativeLoop_cases cfg fs path pdel r
    · rw [heq] at hv
      exact absurd hv List.not_mem_nil
    have hchild := hpass.child
    rw [hcs] at hchild
    rw [hpass.round] at hv
    obtain hv | ⟨r', hv⟩ := mem_andThen hv
    · exact (inside_of_ischild hchild).trans (hwalk _ _ v hv)
    · exact ih v hv

theorem walkEntries_inside (hwalk : WalksInside walk) (path : CStr) (delParent : Bool)
    (entries : List FsList) {r : Run} :
    ∀ v ∈ (walkEntries path delParent walk entries r).visits, Inside path v.entry.path := by
  induction entries generalizing r with
  | nil => exact fun _ hv => absurd hv List.not_mem_nil
  | cons cur next ih =>
    intro v hv
    rw [walkEntries] at hv
    split at hv
    · exact absurd hv List.not_mem_nil
    obtain hv | ⟨r', hv⟩ := mem_andThen hv
    · exact (hwalk _ _ v hv).of_childPath
    · exact ih v hv

theorem fsWalk_inside (hcs : cfg.caseSensitive = true) (fuel : Nat) (negative : Bool) :
    WalksInside (fsWalk cfg fs fuel negative) := by
  induction fuel generalizing negative with
  | zero => exact fun _ _ _ hv => absurd hv List.not_mem_nil
  | succ fuel ih =>
    intro e r v hv
    have hself : v ∈ [(⟨e, negative⟩ : Visit)] → Inside e.path v.entry.path := by
      intro h
      obtain rfl := List.mem_singleton.mp h
      exact .inl rfl
    rw [fsWalk] at hv
    split at hv
    · exact hself hv
    · -- a negative directory
      obtain hv | ⟨r', hv⟩ := mem_andThen hv
      · exact hself hv
      · exact negativeLoop_inside hcs (ih true) _ _ _ v hv
    · exact hself hv
    · split at hv
      · exact hself hv
      split at hv
      · exact hself hv
      obtain hv | ⟨r', hv⟩ := mem_andThen hv
      · exact hself hv
      · exact walkEntries_inside (ih false) _ _ _ v hv
    · exact hself hv

end

/-- Whatever the transcripts list and whatever is excluded, `fsdiff` passes nothing to
`transcript` but the object it starts at and what lies beneath that. -/
theorem fsdiff_stays_beneath {cfg : WalkConfig} (hcs : cfg.caseSensitive = true) (fs : FileSystem)
    (fuel : Nat) (path : CStr) (r : Run) :
    ∀ v ∈ (fsdiff cfg fs fuel path r).visits, Inside path v.entry.path := by
  intro v hv
  unfold fsdiff at hv
  split at hv
  · obtain hv | ⟨r', hv⟩ := mem_andThen hv
    · exact fsWalk_inside hcs fuel false _ r v hv
    · split at hv
      · exact absurd hv List.not_mem_nil
      · exact absurd hv List.not_mem_nil
  · exact absurd hv List.not_mem_nil

theorem named_of_opened {cfg : ParseConfig} (hcs : cfg.caseSensitive = true) {c : Cursors}
    {ts : List Transcript} (hts : c.tranHead = ts ++ [nullTranscript])
    (hopen : ∀ t ∈ ts, Opened cfg t) : Named c := by
  intro t ht heof
  rw [hts] at ht
  rcases List.mem_append.mp ht with ht | ht
  · exact (((hopen t ht).spec hcs).2 heof).1.nulFree
  · obtain rfl := List.mem_singleton.mp ht
    simp [nullTranscript] at heof

/-- The walk passes the paths to `transcript` in the order of the transcripts. -/
theorem fsWalk_ascending {cfg : WalkConfig} (hcs : cfg.caseSensitive = true)
    (hexcl : ∀ path, cfg.tExclude path = false) (fs : FileSystem) {c : Cursors}
    {ts : List Transcript} (hts : c.tranHead = ts ++ [nullTranscript])
    (hopen : ∀ t ∈ ts, Opened cfg.toParseConfig t) (pr : Printer) {e : FsEntry}
    (he : NulFree e.path) (fuel : Nat) :
    (fsWalk cfg fs fuel false e ⟨c, pr⟩).visits.Pairwise fun v v' =>
      pathcmp v.entry.path v'.entry.path < 0 := by
  have h := @fsWalk_inOrder cfg fs hcs hexcl fuel false e ⟨c, pr⟩ he
    (named_of_opened hcs hts hopen)
  refine h.ascending.imp_of_mem fun {v v'} hv hv' hlt => ?_
  exact (pathcmp_neg (h.within v hv).1 (h.within v' hv').1).mpr hlt

/-! ### A name that goes on with a '.' beside one that goes on with a '/' -/

def dirObject : Object :=
  ⟨dirStat, .d, [], [], by decide, by decide, nulFree_nil, maxPathLen_pos⟩

/-- The directories `/a`, `/a/x`, `/a.` and `/b`. -/
def dotFs : FileSystem :=
  .ofDirs (fun _ => .object dirObject)
    [(lit "/", [lit "b", lit ".", lit "a.", lit "..", lit "a"].map (·, .object dirObject)),
      (lit "/a", [lit "x"].map (·, .object dirObject)), (lit "/a.", []), (lit "/a/x", []),
      (lit "/b", [])] (by decide)

def dotConfig : WalkConfig := { twoDiff with skip := false }

theorem fsWalk_ascending_dot :
    (fsWalk dotConfig dotFs 4 false (dirEntry (lit "/")) ⟨twoCursors, .start⟩).visits.Pairwise
      fun v v' => pathcmp v.entry.path v'.entry.path < 0 :=
  fsWalk_ascending rfl (fun _ => rfl) dotFs rfl twoOpened .start (by decide) 4

set_option maxRecDepth 16000 in
/-- The walk from `/a` leaves `/a.` alone. -/
theorem fsdiff_stays_beneath_dot :
    (fsdiff dotConfig dotFs 4 (lit "/a") ⟨twoCursors, .start⟩).visits.length = 2 ∧
      ∀ v ∈ (fsdiff dotConfig dotFs 4 (lit "/a") ⟨twoCursors, .start⟩).visits,
        Inside (lit "/a") v.entry.path :=
  ⟨by decide, fsdiff_stays_beneath rfl dotFs 4 (lit "/a") ⟨twoCursors, .start⟩⟩

set_option maxRecDepth 16000 in
example : (fsWalk dotConfig dotFs 4 false (dirEntry (lit "/")) ⟨twoCursors, .start⟩).visits.map
      (·.entry.path) = [lit "/", lit "/a", lit "/a/x", lit "/a.", lit "/b"] := by
  decide

end Radmind
