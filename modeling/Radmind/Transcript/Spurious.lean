import Radmind.Transcript.Complete

/-!
# Lines that should not be there

An object that matches its line is printed only for the sake of an inode whose first
path was printed.  The code means to print no other, but sets the flag of an inode
from whichever object is current when a line is printed, also when the line is that
of a path which is in the transcripts only.
-/

namespace Radmind

open SortedJoin

/-! ## Matching records -/

/-- The owner, the group and the mode agree. -/
def SameOwner (p t : PathInfo) : Prop :=
  p.piStat.stUid = t.piStat.stUid ∧ p.piStat.stGid = t.piStat.stGid ∧
    tMode &&& p.piStat.stMode = tMode &&& t.piStat.stMode

/-- The type and every attribute that `t_compare` checks for it agree. -/
def Matches (cfg : DiffConfig) (p t : PathInfo) : Prop :=
  p.piType = t.piType ∧
    match p.piType with
    | .a | .f => p.piStat.stSize = t.piStat.stSize ∧
        (cfg.cksum = true → ∃ fs, sumFile cfg p = .ok fs ∧ fs.piCksumB64 = t.piCksumB64) ∧
        (cfg.ignoreTimestamps = false → p.piStat.stMtime = t.piStat.stMtime) ∧ SameOwner p t
    | .d => SameOwner p t ∧ (cfg.apple = true → p.aiData = t.aiData)
    | .D | .p | .s => SameOwner p t
    | .l => p.piLink = t.piLink ∧
        (cfg.haveLchown = true → p.piStat.stUid = t.piStat.stUid ∧
          p.piStat.stGid = t.piStat.stGid) ∧
        (cfg.haveLchmod = true → tMode &&& p.piStat.stMode = tMode &&& t.piStat.stMode)
    | .h => p.piLink = t.piLink
    | .c | .b => p.piStat.stRdev = t.piStat.stRdev ∧ SameOwner p t
    | .X | .unset => True

theorem ownerDiffers_eq_false {p t : PathInfo} : ownerDiffers p t = false ↔ SameOwner p t := by
  simp [ownerDiffers, SameOwner, and_assoc]

section

variable {cfg : DiffConfig} {p : PathInfo} {t : TranLine}

theorem statusIf_eq_none {b : Bool} : statusIf b = none ↔ b = false := by
  cases b <;> simp [statusIf]

theorem compareOwner_eq_none {fs : PathInfo} :
    compareOwner cfg fs t = none ↔ SameOwner fs t.pinfo := by
  rw [← ownerDiffers_eq_false, compareOwner]
  cases ownerDiffers fs t.pinfo with
  | false => simp
  | true =>
    simp only [if_true]
    split <;> simp

theorem sumFile_owner {fs : PathInfo} (h : sumFile cfg p = .ok fs) :
    SameOwner fs t.pinfo ↔ SameOwner p t.pinfo := by
  unfold sumFile at h
  split at h
  · exact absurd h (by simp)
  · obtain rfl := Except.ok.inj h
    rfl

theorem compareFile_eq_none (hpos : t.file.tType ≠ .negative) :
    (∃ fs, compareFile cfg p t = .ok (fs, none)) ↔
      p.piStat.stSize = t.pinfo.piStat.stSize ∧
        (cfg.cksum = true → ∃ fs, sumFile cfg p = .ok fs ∧ fs.piCksumB64 = t.pinfo.piCksumB64) ∧
        (cfg.ignoreTimestamps = false → p.piStat.stMtime = t.pinfo.piStat.stMtime) ∧
        SameOwner p t.pinfo := by
  have htime : (!cfg.ignoreTimestamps && decide (p.piStat.stMtime ≠ t.pinfo.piStat.stMtime)) = false ↔
      (cfg.ignoreTimestamps = false → p.piStat.stMtime = t.pinfo.piStat.stMtime) := by
    cases cfg.ignoreTimestamps <;> simp
  rw [← htime]
  unfold compareFile
  simp only [hpos, if_false]
  generalize (!cfg.ignoreTimestamps && decide (p.piStat.stMtime ≠ t.pinfo.piStat.stMtime)) = late
  by_cases hsize : p.piStat.stSize = t.pinfo.piStat.stSize
  · simp only [hsize, ne_eq, not_true_eq_false, if_false, true_and]
    cases hck : cfg.cksum with
    | false =>
      simp only [Bool.false_eq_true, if_false, false_implies, true_and]
      cases late with
      | false => simpa using compareOwner_eq_none
      | true => simp
    | true =>
      simp only [if_true, true_implies]
      cases hsum : sumFile cfg p with
      | error e => simp
      | ok fs =>
        by_cases hck : fs.piCksumB64 = t.pinfo.piCksumB64
        · cases late with
          | false =>
            simpa [hck, compareOwner_eq_none] using (sumFile_owner (t := t) hsum)
          | true => simp [hck]
        · simp [hck]
  · simp [hsize]

/-- `t_compare` finds nothing to print for records that match, and for no others. -/
theorem matches_iff (hpos : t.file.tType ≠ .negative) (hh : p.piType ≠ .h) :
    Matches cfg p t.pinfo ↔
      p.piType = t.pinfo.piType ∧ ∃ fs, compareFields cfg [] p t = .ok (fs, none) := by
  unfold Matches compareFields
  refine and_congr_right fun htype => ?_
  cases hp : p.piType with
  | h => exact absurd hp hh
  | a | f => exact (compareFile_eq_none hpos).symm
  | X | unset => simp
  | D | p | s => simp [statusIf_eq_none, ownerDiffers_eq_false]
  | d => cases cfg.apple <;> simp [statusIf_eq_none, ownerDiffers_eq_false, hpos]
  | c | b => simp [statusIf_eq_none, ownerDiffers_eq_false, hpos]
  | l =>
    cases cfg.haveLchown <;> cases cfg.haveLchmod <;>
      simp [statusIf_eq_none, hpos, and_assoc]

theorem Matches.differs (hpos : t.file.tType ≠ .negative) (h : Matches cfg p t.pinfo) :
    differs cfg p t = false := by
  have htype := h.1
  rw [Radmind.differs, decide_eq_false (not_not_intro htype), Bool.false_or]
  by_cases hh : p.piType = .h
  · have hlink : p.piLink = t.pinfo.piLink := by simpa [Matches, hh, ← htype] using h
    simp [hh, hlink]
  · obtain ⟨-, fs, hfs⟩ := (matches_iff hpos hh).mp h
    rw [if_neg hh, hfs]

end

/-! ## The lines that are printed -/

/-- A line of the path was printed. -/
def Printed (cfg : DiffConfig) (out : List OutLine) (path : CStr) : Prop :=
  ∃ l ∈ objectLines none out, l.pinfo.key cfg.caseSensitive = pathKey cfg.caseSensitive path

/-- The record `p` matches its line of the merge. -/
def InPlace (cfg : DiffConfig) (M : List (Nat × PathInfo)) (p : PathInfo) : Prop :=
  ∃ x ∈ M, x.2.key cfg.caseSensitive = p.key cfg.caseSensitive ∧ Matches cfg p x.2

/-- A record that matches its line is printed only if it is a hard link and the path
that first named its inode was printed. -/
def NoSpurious (cfg : DiffConfig) (F : List FsEntry) (M : List (Nat × PathInfo))
    (out : List OutLine) : Prop :=
  ∀ p ∈ linkRecords [] (walked cfg F), InPlace cfg M p → Printed cfg out p.piName →
    p.piType = .h ∧ ∃ g, firstLink (walked cfg F) p.piStat = some g ∧ Printed cfg out g.path

/-- A path of the merge alone sorts before the object `g` and after the objects
before it. -/
def MissingBefore (cfg : DiffConfig) (F : List FsEntry) (M : List (Nat × PathInfo))
    (g : FsEntry) : Prop :=
  ∃ u ∈ M, ∃ pre post, linkRecords [] (walked cfg F) = pre ++ g.named :: post ∧
    (∀ p ∈ pre, p.key cfg.caseSensitive < u.2.key cfg.caseSensitive) ∧
    u.2.key cfg.caseSensitive < g.named.key cfg.caseSensitive

/-- No inode with its first path and a further link in place has a missing path right
before the first one. -/
def NoMissingBefore (cfg : DiffConfig) (F : List FsEntry) (M : List (Nat × PathInfo)) : Prop :=
  ∀ p ∈ linkRecords [] (walked cfg F), p.piType = .h → InPlace cfg M p →
    ∀ g, firstLink (walked cfg F) p.piStat = some g → InPlace cfg M g.named →
      ¬ MissingBefore cfg F M g

section

variable {cfg : DiffConfig} {F : List FsEntry} {c : Cursors} {M : List (Nat × PathInfo)}

/-- The first object of an inode keeps its own type. -/
theorem firstLink_named {F : List FsEntry} {st : Stat} {g : FsEntry}
    (h : firstLink F st = some g) : g.named ∈ linkRecords [] F ∧ g.named.piType = g.type := by
  refine ⟨?_, (named_name g).2⟩
  obtain ⟨hg, pre, post, hsplit, hpre⟩ := List.find?_eq_some_iff_append.mp h
  have hsp := firstLink_spec h
  refine mem_linkRecords.mpr ⟨pre, g, post, hsplit, ?_⟩
  rw [List.nil_append]
  obtain ⟨hrec, -⟩ | ⟨g', -, hg', -⟩ := linkRecord_cases pre g
  · exact hrec.symm
  · rw [firstLink_congr pre hsp.2.2.1 hsp.2.2.2] at hg'
    have hnot := hpre g' (firstLink_spec hg').1
    have hfound := List.find?_some hg'
    simp only [hfound, Bool.not_true, Bool.false_eq_true] at hnot

/-- A hard link comes after the first object of its inode. -/
theorem hardlink_after {F : List FsEntry} (hvalid : ∀ e ∈ F, e.Valid) {key : CStr → List Nat}
    (hF : F.Pairwise fun e e' => key e.path < key e'.path) {p : PathInfo}
    (hp : p ∈ linkRecords [] F) (hh : p.piType = .h) {g : FsEntry}
    (hg : firstLink F p.piStat = some g) : key g.path < key p.piName := by
  obtain ⟨pre, e, post, rfl, rfl⟩ := mem_linkRecords.mp hp
  rw [List.nil_append] at hh hg ⊢
  rw [linkRecord_name]
  rw [linkRecord_stat] at hg
  obtain ⟨hrec, -⟩ | ⟨g', -, hg', -⟩ := linkRecord_cases pre e
  · rw [hrec, (named_name e).2] at hh
    exact absurd hh fun hh => (hvalid e (by simp)).known (by simp [hh])
  · rw [firstLink_append, hg', Option.some_or] at hg
    obtain rfl := Option.some.inj hg
    exact (List.pairwise_append.mp hF).2.2 g' (firstLink_spec hg').1 e List.mem_cons_self

/-- A missing path right before an object is printed while the object is current. -/
theorem missingBefore_iff (hT : Transcripts cfg.toSelectConfig c M) (hF : FsWalk cfg F)
    {g : FsEntry} : MissingBefore cfg F M g ↔
      ∃ u ∈ M, .right (some g.named) (lineOf c u) ∈ runEvents cfg F (tranLines c.files M) := by
  have hP := linkRecords_ascending hF
  have hright := fun (u : Nat × PathInfo) (hu : u ∈ M) =>
    (mem_join_right hP hT.holds.lines_ascending (n := some g.named) (y := lineOf c u)).trans
      (and_iff_right (mem_tranLines.mpr ⟨u, hu, rfl⟩))
  refine exists_congr fun u => and_congr_right fun hu => ?_
  rw [runEvents, hright u hu, eq_comm (a := some g.named), List.find?_eq_some_iff_append]
  constructor
  · intro ⟨pre, post, hsplit, hpre, hlt⟩
    rw [hsplit] at hP ⊢
    obtain ⟨-, hpost, -⟩ := List.pairwise_append.mp hP
    refine ⟨fun p hp heq => ?_, by simp only [decide_eq_true_eq]; exact hlt, pre, post, rfl,
      fun p hp => ?_⟩
    · rcases List.mem_append.mp hp with hp | hp
      · exact absurd heq (hpre p hp).ne'
      · rcases List.mem_cons.mp hp with rfl | hp
        · exact absurd heq hlt.ne
        · exact absurd heq (hlt.trans ((List.pairwise_cons.mp hpost).1 p hp)).ne
    · rw [Bool.not_eq_true', decide_eq_false_iff_not]
      exact not_lt_of_gt (hpre p hp)
  · intro ⟨hne, hlt, pre, post, hsplit, hpre⟩
    simp only [decide_eq_true_eq] at hlt
    refine ⟨pre, post, hsplit, fun p hp => ?_, hlt⟩
    have hle := hpre p hp
    rw [Bool.not_eq_true', decide_eq_false_iff_not] at hle
    exact lt_of_le_of_ne (not_lt.mp hle) (hne p (by simp [hsplit, hp])).symm

/-- The transcripts of a run are positive. -/
def Cursors.Positive (c : Cursors) : Prop :=
  ∀ t ∈ c.tranHead, t.tType = .positive ∨ t.tType = .null

theorem Cursors.Positive.type_ne (h : c.Positive) (x : Nat × PathInfo) :
    (lineOf c x).file.tType ≠ .negative := by
  unfold lineOf Cursors.files
  simp only [List.getD_eq_getElem?_getD, List.getElem?_map]
  cases hx : c.tranHead[x.1]? with
  | none => simp
  | some t =>
    rcases h t (List.mem_of_getElem? hx) with ht | ht <;> simp [Transcript.file, ht]

variable (happ : cfg.editPath = .applicable) (hT : Transcripts cfg.toSelectConfig c M)
  (hF : FsWalk cfg F) {r : Run} (hr : transcriptRun cfg ⟨c, .start⟩ F = .ok r)

include happ hT hF hr

/-- A path is printed where its event shows a line. -/
theorem printed_iff {pre post : List DiffEvent} {ev : DiffEvent}
    (hsplit : runEvents cfg F (tranLines c.files M) = pre ++ ev :: post) {path : CStr}
    (hkey : eventKey cfg ev = pathKey cfg.caseSensitive path) :
    Printed cfg r.printer.outtran path ↔ Shows cfg (walked cfg F) pre ev := by
  have heach := (transcriptRun_applied happ hT hF hr).each pre ev post hsplit
  have hprinted : Printed cfg r.printer.outtran path ↔
      ((objectLines none r.printer.outtran).filter fun l =>
        l.pinfo.key cfg.caseSensitive = eventKey cfg ev) ≠ [] := by
    rw [Ne, List.filter_eq_nil_iff, hkey]
    simp [Printed]
  rw [hprinted]
  generalize (objectLines none r.printer.outtran).filter _ = ls at heach
  cases heach with
  | left => simp [Shows]
  | right => simp [Shows]
  | changed hshows => simpa using hshows
  | quiet hshows => simpa using hshows

/-- What `t_compare` found for an object that was not printed. -/
theorem inPlace_of_quiet (hpos : c.Positive) {p : PathInfo} (hh : p.piType ≠ .h)
    {x : Nat × PathInfo} (hx : x ∈ M) {pre post : List DiffEvent}
    (hsplit : runEvents cfg F (tranLines c.files M) = pre ++ .both p (lineOf c x) :: post)
    (hquiet : ¬ Shows cfg (walked cfg F) pre (.both p (lineOf c x))) : InPlace cfg M p := by
  have heach := (transcriptRun_applied happ hT hF hr).each pre _ post hsplit
  have hkey := (runEvents_ok hF hT.holds (.both p (lineOf c x)) (by simp [hsplit])).2
  have htype : p.piType = x.2.piType := by
    by_contra hne
    exact hquiet (.inl (by simpa [differs] using .inl hne))
  refine ⟨x, hx, hkey, ?_⟩
  generalize (objectLines none r.printer.outtran).filter _ = ls at heach
  cases heach with
  | changed hshows => exact absurd hshows hquiet
  | quiet _ hcompared =>
    exact (matches_iff (t := lineOf c x) (hpos.type_ne x) hh).mpr ⟨htype, hcompared hh⟩

/-- A missing path right before the first path of an inode marks the inode, so that a
further link in place is printed and the first path is not. -/
theorem not_noSpurious (hpos : c.Positive) {p : PathInfo}
    (hp : p ∈ linkRecords [] (walked cfg F)) (hh : p.piType = .h) (hplace : InPlace cfg M p)
    {g : FsEntry} (hg : firstLink (walked cfg F) p.piStat = some g)
    (hgplace : InPlace cfg M g.named) (hmissing : MissingBefore cfg F M g) :
    ¬ NoSpurious cfg F M r.printer.outtran := by
  intro hno
  have hP := linkRecords_ascending hF
  have hL := hT.holds.lines_ascending
  have hasc := runEvents_ascending hF hT.holds
  obtain ⟨hgmem, hgtype⟩ := firstLink_named hg
  have hgvalid := hF.valid g (List.mem_filter.mp (firstLink_spec hg).1).1
  have hpkey : ∀ t, eventKey cfg (.both p t) = pathKey cfg.caseSensitive p.piName := fun _ => rfl
  -- the further link is printed
  obtain ⟨x, hx, hkey, hmatch⟩ := hplace
  have hev : .both p (lineOf c x) ∈ runEvents cfg F (tranLines c.files M) :=
    (mem_join_both hP hL).mpr ⟨hp, mem_tranLines.mpr ⟨x, hx, rfl⟩, hkey⟩
  obtain ⟨u, hu, hevu⟩ := (missingBefore_iff hT hF).mp hmissing
  obtain ⟨pre, post, hsplit⟩ := List.append_of_mem hev
  have hbefore : .right (some g.named) (lineOf c u) ∈ pre := by
    have hug : u.2.key cfg.caseSensitive < g.named.key cfg.caseSensitive := by
      have hfound := List.find?_some ((mem_join_right hP hL).mp hevu).2.2.symm
      simp only [decide_eq_true_eq] at hfound
      exact hfound
    have hgp : g.named.key cfg.caseSensitive < p.key cfg.caseSensitive := by
      have := hardlink_after (fun e he => hF.valid e (List.mem_filter.mp he).1)
        (hF.keys.filter _) hp hh hg
      rwa [← (named_name g).1] at this
    rw [hsplit] at hevu hasc
    rcases List.mem_append.mp hevu with hmem | hmem
    · exact hmem
    · rcases List.mem_cons.mp hmem with heq | hmem
      · cases heq
      · have hlt := (List.pairwise_cons.mp (List.pairwise_append.mp hasc).2.1).1 _ hmem
        exact absurd ((hug.trans hgp).trans hlt) (lt_irrefl _)
  have hshows : Shows cfg (walked cfg F) pre (.both p (lineOf c x)) :=
    .inr ⟨hh, g, hg, happ, _, hbefore, g.named, rfl, (named_name g).1⟩
  have hprinted := (printed_iff happ hT hF hr hsplit (hpkey _)).mpr hshows
  -- the first path is not
  obtain ⟨-, g', hg', hgprinted⟩ := hno p hp ⟨x, hx, hkey, hmatch⟩ hprinted
  obtain rfl := Option.some.inj (hg'.symm.trans hg)
  obtain ⟨y, hy, hykey, hymatch⟩ := hgplace
  have hevg : .both g'.named (lineOf c y) ∈ runEvents cfg F (tranLines c.files M) :=
    (mem_join_both hP hL).mpr ⟨hgmem, mem_tranLines.mpr ⟨y, hy, rfl⟩, hykey⟩
  obtain ⟨pre', post', hsplit'⟩ := List.append_of_mem hevg
  have hgkey : eventKey cfg (.both g'.named (lineOf c y)) = pathKey cfg.caseSensitive g'.path := by
    rw [← (named_name g').1]
    rfl
  rcases (printed_iff happ hT hF hr hsplit' hgkey).mp hgprinted with hdiff | ⟨hgh, -⟩
  · rw [Matches.differs (t := lineOf c y) (hpos.type_ne y) hymatch] at hdiff
    simp at hdiff
  · rw [hgtype] at hgh
    exact hgvalid.known (by simp [hgh])

/-- Without a missing path there, a further link in place is printed after the first
path only. -/
theorem noSpurious_of_noMissing (hpos : c.Positive) (hno : NoMissingBefore cfg F M) :
    NoSpurious cfg F M r.printer.outtran := by
  have hP := linkRecords_ascending hF
  have hL := hT.holds.lines_ascending
  intro p hp hplace hprinted
  have hpkey : ∀ t, eventKey cfg (.both p t) = pathKey cfg.caseSensitive p.piName := fun _ => rfl
  obtain ⟨x, hx, hkey, hmatch⟩ := hplace
  have hev : .both p (lineOf c x) ∈ runEvents cfg F (tranLines c.files M) :=
    (mem_join_both hP hL).mpr ⟨hp, mem_tranLines.mpr ⟨x, hx, rfl⟩, hkey⟩
  obtain ⟨pre, post, hsplit⟩ := List.append_of_mem hev
  have hdiff := Matches.differs (t := lineOf c x) (hpos.type_ne x) hmatch
  obtain ⟨hh, g, hg, -, ev, hevpre, htouch⟩ :=
    ((printed_iff happ hT hF hr hsplit (hpkey _)).mp hprinted).resolve_left
      (by simp [hdiff])
  refine ⟨hh, g, hg, ?_⟩
  obtain ⟨hgmem, hgtype⟩ := firstLink_named hg
  have hgvalid := hF.valid g (List.mem_filter.mp (firstLink_spec hg).1).1
  have hgh : g.named.piType ≠ .h := fun hgh => hgvalid.known (by simp [← hgtype, hgh])
  -- the records of one path are one record
  have hsame : ∀ q ∈ linkRecords [] (walked cfg F), q.piName = g.path → q = g.named := by
    intro q hq hpath
    refine PrecedenceMerge.Ascending.eq_of_key_eq hP hq hgmem ?_
    rw [PathInfo.key, hpath, ← (named_name g).1]
    rfl
  have hmem : ev ∈ runEvents cfg F (tranLines c.files M) := by simp [hsplit, hevpre]
  obtain ⟨pre', post', hsplit'⟩ := List.append_of_mem hmem
  cases ev with
  | left q =>
    have hqkey : eventKey cfg (.left q) = pathKey cfg.caseSensitive g.path := by
      rw [← htouch]
      rfl
    exact (printed_iff happ hT hF hr hsplit' hqkey).mpr trivial
  | both q t =>
    have hqkey : eventKey cfg (.both q t) = pathKey cfg.caseSensitive g.path := by
      rw [← htouch.1]
      rfl
    exact (printed_iff happ hT hF hr hsplit' hqkey).mpr (.inl htouch.2)
  | right next t =>
    obtain ⟨q, rfl, hpath⟩ := htouch
    obtain ⟨ht, -, hfind⟩ := (mem_join_right hP hL).mp hmem
    obtain ⟨u, hu, rfl⟩ := mem_tranLines.mp ht
    have hq := hsame q (List.mem_of_find?_eq_some hfind.symm) hpath
    subst hq
    have hmissing := (missingBefore_iff hT hF).mpr ⟨u, hu, hmem⟩
    have hgkey : pathKey cfg.caseSensitive g.path = g.named.key cfg.caseSensitive := by
      rw [← hpath]
      rfl
    by_cases hline : ∃ y ∈ M, y.2.key cfg.caseSensitive = g.named.key cfg.caseSensitive
    · obtain ⟨y, hy, hykey⟩ := hline
      have hevg : .both g.named (lineOf c y) ∈ runEvents cfg F (tranLines c.files M) :=
        (mem_join_both hP hL).mpr ⟨hgmem, mem_tranLines.mpr ⟨y, hy, rfl⟩, hykey⟩
      obtain ⟨pre₁, post₁, hsplit₁⟩ := List.append_of_mem hevg
      by_contra hgprinted
      have hquiet := (printed_iff happ hT hF hr hsplit₁ hgkey.symm).not.mp hgprinted
      exact hno p hp hh ⟨x, hx, hkey, hmatch⟩ g hg
        (inPlace_of_quiet happ hT hF hr hpos hgh hy hsplit₁ hquiet) hmissing
    · have hevg : .left g.named ∈ runEvents cfg F (tranLines c.files M) := by
        refine (mem_join_left hP hL).mpr ⟨hgmem, fun t ht heq => hline ?_⟩
        obtain ⟨y, hy, rfl⟩ := mem_tranLines.mp ht
        exact ⟨y, hy, heq⟩
      obtain ⟨pre₁, post₁, hsplit₁⟩ := List.append_of_mem hevg
      exact (printed_iff happ hT hF hr hsplit₁ hgkey.symm).mpr trivial

end

/-- A whole diff with positive transcripts in applicable mode prints nothing spurious
just where no missing path comes right before an inode that is in place. -/
theorem noSpurious_iff {cfg : DiffConfig} (happ : cfg.editPath = .applicable) {c : Cursors}
    {M : List (Nat × PathInfo)} (hT : Transcripts cfg.toSelectConfig c M) (hpos : c.Positive)
    {F : List FsEntry} (hF : FsWalk cfg F) {r : Run}
    (hr : transcriptRun cfg ⟨c, .start⟩ F = .ok r) :
    NoSpurious cfg F M r.printer.outtran ↔ NoMissingBefore cfg F M := by
  refine ⟨fun hno p hp hh hplace g hg hgplace hmissing => ?_, fun hno => ?_⟩
  · exact not_noSpurious happ hT hF hr hpos hp hh hplace hg hgplace hmissing hno
  · exact noSpurious_of_noMissing happ hT hF hr hpos hno

/-! ### Two links and a directory that is missing

The directory `/a` is missing on the file system and sorts before `/x` and `/y`, two
links to one file that both match. -/

def linkTran : Transcript := opened "d /a 0755 0 0\nf /x 0644 0 0 0 5 -\nh /y /x\n"

def linkCursors : Cursors :=
  { tranHead := [linkTran] ++ [nullTranscript], buf := [], warned := [] }

def linkMerge : List (Nat × PathInfo) :=
  match drain twoConfig linkCursors with
  | .ok (M, _) => M
  | .error _ => []

def linkStat : Stat :=
  { Stat.zero with stIno := 7, stNlink := 2, stMode := 0o100644, stSize := 5 }

def linkEntry (path : CStr) : FsEntry :=
  { path := path, st := linkStat, type := .f, afinfo := [], target := [], parentMinus := false }

def linkObjects : List FsEntry := [linkEntry (lit "/x"), linkEntry (lit "/y")]

def linkRun : Run :=
  match transcriptRun twoDiff ⟨linkCursors, .start⟩ linkObjects with
  | .ok r => r
  | .error _ => ⟨linkCursors, .start⟩

set_option maxRecDepth 8000 in
theorem linkLists : Lists twoConfig.toParseConfig linkTran
    [linkTran.tPinfo, (parsed linkTran).tPinfo, (parsed (parsed linkTran)).tPinfo] :=
  @Lists.line _ _ (parsed linkTran) _ rfl (fun _ => ⟨_, rfl⟩)
    (@Lists.line _ _ (parsed (parsed linkTran)) _ rfl (fun _ => ⟨_, rfl⟩)
      (@Lists.line _ _ (parsed (parsed (parsed linkTran))) _ rfl (fun _ => ⟨_, rfl⟩)
        (.eof rfl rfl)))

set_option maxRecDepth 8000 in
theorem linkTranscripts : Transcripts twoDiff.toSelectConfig linkCursors linkMerge := by
  refine ⟨⟨[linkTran], rfl, fun t ht => ?_⟩, ⟨_, .cons linkLists (.cons (.eof rfl rfl) .nil),
    fun h => absurd h (by decide)⟩, ⟨_, rfl⟩⟩
  obtain rfl := List.mem_singleton.mp ht
  exact ⟨[], _, .positive, lit "/T", lit "T",
    lit "d /a 0755 0 0\nf /x 0644 0 0 0 5 -\nh /y /x\n", rfl⟩

theorem linkStat_isDir : linkStat.isDir = false := by decide

theorem linkWalk : FsWalk twoDiff linkObjects := by
  have hvalid : ∀ path, NulFree path → path.length < maxPathLen → (linkEntry path).Valid := by
    intro path hp hlen
    refine ⟨hp, hlen, nulFree_nil, maxPathLen_pos, ?_, by simp [linkEntry]⟩
    show FileType.f = .d ↔ linkStat.isDir = true
    simp [linkStat_isDir]
  refine ⟨fun e he => ?_, by decide, fun h => absurd h (by decide)⟩
  rcases List.mem_pair.mp he with rfl | rfl
  · exact hvalid _ (by decide) (by decide)
  · exact hvalid _ (by decide) (by decide)

set_option maxRecDepth 8000 in
theorem linkPositive : linkCursors.Positive := by
  unfold Cursors.Positive
  decide

set_option maxRecDepth 16000 in
theorem noSpurious_iff_links :
    NoSpurious twoDiff linkObjects linkMerge linkRun.printer.outtran ↔
      NoMissingBefore twoDiff linkObjects linkMerge :=
  noSpurious_iff rfl linkTranscripts linkPositive linkWalk rfl

set_option maxRecDepth 16000 in
/-- The line of the missing directory sets the flag of the inode of `/x`, and `/y` is
printed. -/
theorem missing_path_marks_links :
    ¬ ∀ (cfg : DiffConfig) (c : Cursors) (M : List (Nat × PathInfo)) (F : List FsEntry) (r : Run),
      cfg.editPath = .applicable → Transcripts cfg.toSelectConfig c M → c.Positive →
      FsWalk cfg F → transcriptRun cfg ⟨c, .start⟩ F = .ok r →
      NoSpurious cfg F M r.printer.outtran := by
  intro h
  have hno := h twoDiff linkCursors linkMerge linkObjects linkRun rfl linkTranscripts linkPositive
    linkWalk rfl ((linkEntry (lit "/y")).further (lit "/x")) (by decide)
    ⟨(0, (parsed (parsed linkTran)).tPinfo), by decide, by decide, by decide,
      show lit "/x" = (parsed (parsed linkTran)).tPinfo.piLink by decide⟩
    (by unfold Printed; decide)
  obtain ⟨-, g, hg, hprinted⟩ := hno
  have hfirst : firstLink (walked twoDiff linkObjects)
      ((linkEntry (lit "/y")).further (lit "/x")).piStat = some (linkEntry (lit "/x")) := by decide
  obtain rfl := Option.some.inj (hfirst.symm.trans hg)
  revert hprinted
  unfold Printed
  decide

end Radmind
