import Radmind.Transcript.Join

/-!
# What a run prints

Each event of the join prints at most one line.  What it prints is settled by the
event alone, but for a hard link, which also depends on the flag of its inode: the
lines printed while the first path of the inode was current set it.
-/

namespace Radmind

open SortedJoin

/-! ## Objects and lines that can be printed -/

/-- An object as `radstat` describes it.  The type is X where the path is gone. -/
structure FsEntry.Valid (e : FsEntry) : Prop where
  nulFree : NulFree e.path
  path_lt : e.path.length < maxPathLen
  target_nulFree : NulFree e.target
  target_lt : e.target.length < maxPathLen
  dir : e.type = .d ↔ e.st.isDir = true
  known : e.type ∉ [.h, .unset]

/-- A record `t_print` has a line for. -/
structure Printable (pi : PathInfo) : Prop where
  name_le : pi.piName.length ≤ maxPathLen
  link_le : pi.piLink.length ≤ maxPathLen
  known : pi.piType ∉ [.X, .unset]

/-- The checksum of every file can be calculated. -/
def SumsWork (cfg : PrintConfig) : Prop :=
  cfg.cksum = true → (∀ path, (cfg.doCksum path).isSome) ∧
    ∀ path afinfo, (cfg.doAcksum path afinfo).isSome

theorem encodeInternal_isSome (b : Bool) {s : CStr} (h : s.length ≤ maxPathLen) :
    encodeInternal b s ≠ none := by
  simp [encodeInternal, Nat.not_lt.mpr h]

theorem FsEntry.Valid.named {e : FsEntry} (h : e.Valid) (hX : e.type ≠ .X) :
    Printable e.named := by
  have hknown : e.type ∉ [.X, .unset] := fun hm =>
    h.known (List.mem_cons_of_mem _ (List.mem_of_ne_of_mem hX hm))
  unfold FsEntry.named
  split
  · exact ⟨h.path_lt.le, h.target_lt.le, hknown⟩
  · exact ⟨h.path_lt.le, Nat.zero_le _, hknown⟩

theorem FsEntry.Valid.further {e : FsEntry} (h : e.Valid) {linkpath : CStr}
    (hl : linkpath.length < maxPathLen) : Printable (e.further linkpath) :=
  ⟨h.path_lt.le, hl.le, by simp [FsEntry.further]⟩

/-- A record on a line is the one it stands for, with a checksum where there was
none. -/
def Carries (pi record : PathInfo) : Prop :=
  record = { pi with piCksumB64 := record.piCksumB64 } ∧
    (pi.piCksumB64.head? ≠ some minus → record = pi)

theorem Carries.refl (pi : PathInfo) : Carries pi pi := ⟨rfl, fun _ => rfl⟩

theorem Carries.name {pi record : PathInfo} (h : Carries pi record) :
    record.piName = pi.piName := by
  rw [h.1]

theorem printCksum_inv {cfg : PrintConfig} {isMinus : Bool} {cur record : PathInfo}
    (h : printCksum cfg isMinus cur = .ok record) :
    Carries cur record ∧ (isMinus = true ∨ cfg.cksum = false → record = cur) := by
  unfold printCksum at h
  split at h
  · next hc =>
    split at h
    · exact absurd h (by simp)
    · obtain rfl := Except.ok.inj h
      refine ⟨⟨rfl, fun hne => absurd hc.1 hne⟩, ?_⟩
      rintro (hm | hm)
      · simp [hm] at hc
      · simp [hm] at hc
  · obtain rfl := Except.ok.inj h
    exact ⟨.refl cur, fun _ => rfl⟩

theorem printCksum_isOk {cfg : PrintConfig} (hsum : SumsWork cfg) (isMinus : Bool)
    (cur : PathInfo) : ∃ record, printCksum cfg isMinus cur = .ok record := by
  unfold printCksum
  split
  · next hc =>
    obtain ⟨hf, ha⟩ := hsum hc.2.1
    have hsome : (if cur.piType = .f then cfg.doCksum cur.piName
        else cfg.doAcksum cur.piName cur.piAfinfo).isSome := by
      split
      · exact hf _
      · exact ha _ _
    obtain ⟨cksum, hcksum⟩ := Option.isSome_iff_exists.mp hsome
    simp only [hcksum]
    exact ⟨_, rfl⟩
  · exact ⟨cur, rfl⟩

/-- Regular files and the files of the Mac. -/
def FileType.isFile (type : FileType) : Bool := type = .a || type = .f

/-- The record on a line has the name and the type of the one it stands for. -/
theorem printRecord_inv {cfg : PrintConfig} {fs : Option PathInfo} {isMinus : Bool} {flag : PrFlag}
    {cur record : PathInfo} (h : printRecord cfg fs isMinus flag cur = .ok record) :
    record.piName = cur.piName ∧ record.piType = cur.piType ∧
      (flag ≠ .statusNeg → if cur.piType.isFile then printCksum cfg isMinus cur = .ok record
        else record = cur) := by
  have hplain : (Except.ok cur : Except Exit PathInfo) = .ok record → record = cur :=
    fun h => (Except.ok.inj h).symm
  unfold printRecord at h
  split at h
  · exact absurd h (by simp)
  cases htype : cur.piType with
  | a | f =>
    simp only [htype] at h
    split at h
    · exact absurd h (by simp)
    next summed hsummed =>
    have hcarries := (printCksum_inv hsummed).1.1
    have hname : summed.piName = cur.piName := by rw [hcarries]
    have htype' : summed.piType = cur.piType := by rw [hcarries]
    unfold printMtime at h
    split at h
    · next hflag =>
      split at h
      · exact absurd h (by simp)
      · obtain rfl := Except.ok.inj h
        exact ⟨hname, htype'.trans htype, fun hne => absurd hflag hne⟩
    · obtain rfl := Except.ok.inj h
      exact ⟨hname, htype'.trans htype, fun _ => by simpa [FileType.isFile] using hsummed⟩
  | l | h =>
    simp only [htype] at h
    split at h
    · exact absurd h (by simp)
    · obtain rfl := hplain h
      exact ⟨rfl, htype, fun _ => by simp [FileType.isFile]⟩
  | X | unset => simp [htype] at h
  | s | D | p | d | c | b =>
    obtain rfl := hplain (by simpa only [htype] using h)
    exact ⟨rfl, htype, fun _ => by simp [FileType.isFile]⟩

theorem printRecord_isOk {cfg : PrintConfig} (hsum : SumsWork cfg) (fs : Option PathInfo)
    (isMinus : Bool) (flag : PrFlag) (hfs : flag = .statusNeg → fs ≠ none) {cur : PathInfo}
    (hcur : Printable cur) : ∃ record, printRecord cfg fs isMinus flag cur = .ok record := by
  have hname := encodeInternal_isSome cfg.shellEscapes hcur.name_le
  have hlink := encodeInternal_isSome cfg.shellEscapes hcur.link_le
  obtain ⟨summed, hsummed⟩ := printCksum_isOk hsum isMinus cur
  unfold printRecord
  rw [if_neg hname]
  cases htype : cur.piType with
  | a | f =>
    simp only [hsummed, printMtime]
    split
    · next hflag =>
      obtain ⟨fs, rfl⟩ := Option.ne_none_iff_exists'.mp (hfs hflag)
      exact ⟨_, rfl⟩
    · exact ⟨_, rfl⟩
  | l | h =>
    simp only [if_neg hlink]
    exact ⟨_, rfl⟩
  | X | unset => exact absurd hcur.known (by simp [htype])
  | s | D | p | d | c | b => exact ⟨_, rfl⟩

/-! ## The table of hard links -/

/-- The first object of a sequence that is a link to the inode. -/
def firstLink (F : List FsEntry) (st : Stat) : Option FsEntry :=
  F.find? fun g => g.linked && (g.st.stDev = st.stDev && g.st.stIno = st.stIno)

/-- The record of an object after the objects `seen`. -/
def linkRecord (seen : List FsEntry) (e : FsEntry) : PathInfo :=
  if e.linked then
    match firstLink seen e.st with
    | some g => e.further g.path
    | none => e.named
  else e.named

/-- The table knows the inodes of the objects `seen` by their first path, and has
the flag set where `marked` holds of it. -/
structure Table (seen : List FsEntry) (marked : FsEntry → Prop) (devHead : List Devlist) :
    Prop where
  absent : ∀ st : Stat, firstLink seen st = none → lookup devHead st.stDev st.stIno = none
  present : ∀ (st : Stat) g, firstLink seen st = some g →
    ∃ i, lookup devHead st.stDev st.stIno = some i ∧ i.iName = g.path ∧ (i.iFlag = true ↔ marked g)

theorem firstLink_spec {F : List FsEntry} {st : Stat} {g : FsEntry} (h : firstLink F st = some g) :
    g ∈ F ∧ g.linked = true ∧ g.st.stDev = st.stDev ∧ g.st.stIno = st.stIno := by
  have := List.find?_some h
  simp only [Bool.and_eq_true, decide_eq_true_eq] at this
  exact ⟨List.mem_of_find?_eq_some h, this.1, this.2.1, this.2.2⟩

theorem firstLink_congr (F : List FsEntry) {st st' : Stat} (hd : st.stDev = st'.stDev)
    (hi : st.stIno = st'.stIno) : firstLink F st = firstLink F st' := by
  simp only [firstLink, hd, hi]

theorem firstLink_append (F G : List FsEntry) (st : Stat) :
    firstLink (F ++ G) st = (firstLink F st).or (firstLink G st) := List.find?_append

theorem firstLink_single (e : FsEntry) (st : Stat) :
    firstLink [e] st =
      if e.linked = true ∧ e.st.stDev = st.stDev ∧ e.st.stIno = st.stIno then some e else none := by
  simp only [firstLink, List.find?_singleton, Bool.and_eq_true, decide_eq_true_eq]

theorem Table.nil : Table [] (fun _ => False) [] := ⟨fun _ _ => rfl, fun _ _ h => by simp [firstLink] at h⟩

theorem Table.congr {seen : List FsEntry} {marked marked' : FsEntry → Prop}
    {devHead : List Devlist} (h : Table seen marked devHead)
    (hm : ∀ g, firstLink seen g.st = some g → (marked g ↔ marked' g)) :
    Table seen marked' devHead := by
  refine ⟨h.absent, fun st g hg => ?_⟩
  obtain ⟨i, hi, hname, hflag⟩ := h.present st g hg
  have hsp := firstLink_spec hg
  exact ⟨i, hi, hname, hflag.trans (hm g (firstLink_congr seen hsp.2.2.1 hsp.2.2.2 ▸ hg))⟩

theorem describe_linked (devHead : List Devlist) {e : FsEntry} (hl : e.linked = true) :
    (describe devHead e).1 = (hardlink devHead e.record).1 ∧
      (describe devHead e).2 = match (hardlink devHead e.record).2 with
        | some linkpath => e.further linkpath
        | none => e.named := by
  unfold describe
  rw [if_pos hl]
  split <;> simp [*]

/-- `describe` gives an object its record and enters it. -/
theorem Table.describe {seen : List FsEntry} {marked : FsEntry → Prop} {devHead : List Devlist}
    (h : Table seen marked devHead) {e : FsEntry} (hfresh : ¬ marked e) :
    (describe devHead e).2 = linkRecord seen e ∧
      Table (seen ++ [e]) marked (describe devHead e).1 := by
  by_cases hl : e.linked = true
  · have hsnd := hardlink_snd devHead e.record
    have hlook := lookup_hardlink devHead e.record
    have hst : e.record.piStat = e.st := rfl
    rw [hst] at hsnd hlook
    have hdesc := describe_linked devHead hl
    refine ⟨?_, ?_⟩
    · rw [hdesc.2, hsnd, linkRecord, if_pos hl]
      cases hg : firstLink seen e.st with
      | none => simp [h.absent e.st hg]
      | some g =>
        obtain ⟨i, hi, hname, -⟩ := h.present e.st g hg
        simp [hi, hname]
    · rw [hdesc.1]
      constructor
      · intro st hnone
        rw [firstLink_append, Option.or_eq_none_iff, firstLink_single] at hnone
        have hne : ¬ (st.stDev = e.st.stDev ∧ st.stIno = e.st.stIno) := fun hs => by
          simp [hl, hs] at hnone
        rw [hlook, if_neg hne, h.absent st hnone.1]
      · intro st g hg
        rw [firstLink_append, firstLink_single] at hg
        by_cases hs : st.stDev = e.st.stDev ∧ st.stIno = e.st.stIno
        · rw [hlook, if_pos hs]
          cases hold : firstLink seen st with
          | some g' =>
            rw [hold] at hg
            obtain rfl := Option.some.inj hg
            obtain ⟨i, hi, hname, hflag⟩ := h.present st g' hold
            exact ⟨i, by rw [hi, Option.getD_some], hname, hflag⟩
          | none =>
            rw [hold, if_pos ⟨hl, hs.1.symm, hs.2.symm⟩] at hg
            obtain rfl := Option.some.inj hg
            rw [h.absent st hold]
            exact ⟨_, rfl, rfl, by simpa using hfresh⟩
        · rw [if_neg fun hc => hs ⟨hc.2.1.symm, hc.2.2.symm⟩, Option.or_none] at hg
          rw [hlook, if_neg hs]
          exact h.present st g hg
  · have hdesc : Radmind.describe devHead e = (devHead, e.named) := by
      unfold Radmind.describe
      rw [if_neg hl]
    have hfirst : ∀ st, firstLink (seen ++ [e]) st = firstLink seen st := fun st => by
      rw [firstLink_append, firstLink_single, if_neg fun hc => hl hc.1, Option.or_none]
    rw [hdesc, linkRecord, if_neg hl]
    exact ⟨rfl, fun st hnone => h.absent st (hfirst st ▸ hnone),
      fun st g hg => h.present st g (hfirst st ▸ hg)⟩

/-- Setting the flag of an inode marks its first path. -/
theorem Table.mark {seen : List FsEntry} {marked : FsEntry → Prop} {devHead : List Devlist}
    (h : Table seen marked devHead) {fs : PathInfo} {g : FsEntry}
    (hg : firstLink seen fs.piStat = some g) :
    ∃ devHead' flag, hardlinkChanged devHead fs true = .ok (devHead', flag) ∧
      Table seen (fun g' => marked g' ∨ g' = g) devHead' := by
  obtain ⟨i, hi, hname, hflag⟩ := h.present fs.piStat g hg
  obtain ⟨devHead', hch, hlook⟩ := hardlinkChanged_spec hi true
  refine ⟨devHead', _, hch, fun st hnone => ?_, fun st g' hg' => ?_⟩
  · rw [hlook]
    split_ifs with hs
    · rw [firstLink_congr seen hs.1 hs.2, hg] at hnone
      exact absurd hnone (by simp)
    · exact h.absent st hnone
  · rw [hlook]
    split_ifs with hs
    · rw [firstLink_congr seen hs.1 hs.2, hg] at hg'
      obtain rfl := Option.some.inj hg'
      exact ⟨_, rfl, hname, by simp [Inolist.mark]⟩
    · obtain ⟨i', hi', hname', hflag'⟩ := h.present st g' hg'
      refine ⟨i', hi', hname', hflag'.trans ⟨.inl, ?_⟩⟩
      rintro (hm | rfl)
      · exact hm
      · have hsp := firstLink_spec hg
        have hsp' := firstLink_spec hg'
        exact absurd ⟨hsp'.2.2.1.symm.trans hsp.2.2.1, hsp'.2.2.2.symm.trans hsp.2.2.2⟩ hs

/-! ## The record of an object -/

theorem linkRecord_cases (seen : List FsEntry) (e : FsEntry) :
    (linkRecord seen e = e.named ∧ (e.linked = true → firstLink seen e.st = none)) ∨
      ∃ g, e.linked = true ∧ firstLink seen e.st = some g ∧ linkRecord seen e = e.further g.path := by
  unfold linkRecord
  by_cases hl : e.linked = true
  · rw [if_pos hl]
    cases hg : firstLink seen e.st with
    | none => exact .inl ⟨rfl, fun _ => rfl⟩
    | some g => exact .inr ⟨g, hl, rfl, rfl⟩
  · rw [if_neg hl]
    exact .inl ⟨rfl, fun h => absurd h hl⟩

theorem named_stat (e : FsEntry) : e.named.piStat = e.st := by
  unfold FsEntry.named
  split <;> rfl

theorem linkRecord_name (seen : List FsEntry) (e : FsEntry) :
    (linkRecord seen e).piName = e.path := by
  rcases linkRecord_cases seen e with ⟨h, -⟩ | ⟨g, -, -, h⟩
  · rw [h, (named_name e).1]
  · rw [h]
    rfl

theorem linkRecord_stat (seen : List FsEntry) (e : FsEntry) :
    (linkRecord seen e).piStat = e.st := by
  rcases linkRecord_cases seen e with ⟨h, -⟩ | ⟨g, -, -, h⟩
  · rw [h, named_stat]
  · rw [h]
    rfl

theorem linkRecord_printable {seen : List FsEntry} (hseen : ∀ g ∈ seen, g.Valid) {e : FsEntry}
    (he : e.Valid) (hX : e.type ≠ .X) : Printable (linkRecord seen e) := by
  rcases linkRecord_cases seen e with ⟨h, -⟩ | ⟨g, -, hg, h⟩
  · rw [h]
    exact he.named hX
  · rw [h]
    exact he.further (hseen g (firstLink_spec hg).1).path_lt

/-- The record of the first link to an inode is the one that marks it. -/
theorem marksLinks_linkRecord (cfg : PrintConfig) (seen : List FsEntry) {e : FsEntry}
    (he : e.Valid) : marksLinks cfg (linkRecord seen e) = true ↔
      cfg.editPath = .applicable ∧ e.linked = true ∧ firstLink seen e.st = none := by
  have hnh : e.type ≠ .h := fun h => he.known (by simp [h])
  have hdir := he.dir
  rcases linkRecord_cases seen e with ⟨h, hfirst⟩ | ⟨g, hl, hg, h⟩
  · rw [h, marksLinks, (named_name e).2, named_stat]
    simp only [FsEntry.linked, Bool.and_eq_true, decide_eq_true_eq, Bool.not_eq_true', ne_eq,
      decide_not, Bool.not_eq_true', decide_eq_false_iff_not] at hfirst ⊢
    constructor
    · rintro ⟨⟨⟨happ, hd⟩, -⟩, hn⟩
      have hd : e.st.isDir = false := by
        by_contra hc
        exact hd (hdir.mpr (by simpa using hc))
      exact ⟨happ, ⟨hd, hn⟩, hfirst ⟨hd, hn⟩⟩
    · rintro ⟨happ, ⟨hd, hn⟩, -⟩
      exact ⟨⟨⟨happ, fun h => by simp [hdir.mp h] at hd⟩, hnh⟩, hn⟩
  · rw [h, hg]
    simp [marksLinks, FsEntry.further]

/-! ## One event -/

/-- Whether `t_compare` sees a difference between two records of one name, the flag
of the inode left aside. -/
def differs (cfg : DiffConfig) (p : PathInfo) (t : TranLine) : Bool :=
  p.piType ≠ t.pinfo.piType ||
    if p.piType = .h then p.piLink ≠ t.pinfo.piLink
    else
      match compareFields cfg [] p t with
      | .ok (_, some _) => true
      | _ => false

/-- The event prints a line while the object at `q` is current. -/
def Touches (cfg : DiffConfig) (q : CStr) : DiffEvent → Prop
  | .left p => p.piName = q
  | .right next _ => ∃ p, next = some p ∧ p.piName = q
  | .both p t => p.piName = q ∧ differs cfg p t = true

/-- The events have set the flag of the inode whose first path is that of `g`. -/
def Marked (cfg : DiffConfig) (evs : List DiffEvent) (g : FsEntry) : Prop :=
  cfg.editPath = .applicable ∧ ∃ ev ∈ evs, Touches cfg g.path ev

/-- The event prints a line, after the events `pre` of the objects `F`. -/
def Shows (cfg : DiffConfig) (F : List FsEntry) (pre : List DiffEvent) : DiffEvent → Prop
  | .left _ => True
  | .right _ _ => True
  | .both p t => differs cfg p t = true ∨
      p.piType = .h ∧ ∃ g, firstLink F p.piStat = some g ∧ Marked cfg pre g

/-- One call of `t_print` with the record it prints. -/
structure PrintedAs (cfg : PrintConfig) (pr : Printer) (fs : Option PathInfo) (t : TranLine)
    (flag : PrFlag) (record : PathInfo) (pr' : Printer) : Prop where
  source : ∃ cur, printCur cfg fs t flag = some cur ∧
    printRecord cfg fs (printMinus cfg fs flag) flag cur = .ok record
  prevTran : pr'.prevTran = (printHeader cfg pr t flag).prevTran
  outtran : pr'.outtran = (printHeader cfg pr t flag).outtran ++
    [.object (printMinus cfg fs flag) ((record.piType = .a || record.piType = .f) &&
      cfg.editPath = .applicable && (flag = .tranOnly || flag = .download)) record]

/-- `fs` is `p`, or a file `p` with its checksum. -/
def Summed (cfg : DiffConfig) (p fs : PathInfo) : Prop :=
  fs = p ∨ (p.piType = .a ∨ p.piType = .f) ∧ cfg.cksum = true ∧ sumFile cfg p = .ok fs

/-- What an event after the events `pre` of the objects `F` prints. -/
inductive Outcome (cfg : DiffConfig) (F : List FsEntry) (pre : List DiffEvent) (pr : Printer) :
    DiffEvent → Printer → Prop
  | left {p record : PathInfo} {pr' : Printer} :
      PrintedAs cfg.print pr (some p) noLine .fsOnly record pr' → Outcome cfg F pre pr (.left p) pr'
  | right {next : Option PathInfo} {t : TranLine} {record : PathInfo} {pr' : Printer} :
      PrintedAs cfg.print pr next t .tranOnly record pr' →
      Outcome cfg F pre pr (.right next t) pr'
  | changed {p fs : PathInfo} {t : TranLine} {flag : PrFlag} {record : PathInfo} {pr' : Printer} :
      Shows cfg F pre (.both p t) → Summed cfg p fs →
      (flag = .download ∨ flag = .status ∨ flag = .statusNeg ∧ cfg.editPath = .applicable) →
      PrintedAs cfg.print pr (some fs) t flag record pr' → Outcome cfg F pre pr (.both p t) pr'
  | quiet {p : PathInfo} {t : TranLine} {pr' : Printer} : ¬ Shows cfg F pre (.both p t) →
      (p.piType ≠ .h → ∃ fs, compareFields cfg [] p t = .ok (fs, none)) →
      pr'.prevTran = pr.prevTran → pr'.outtran = pr.outtran → Outcome cfg F pre pr (.both p t) pr'

theorem Summed.type {cfg : DiffConfig} {p fs : PathInfo} (h : Summed cfg p fs) :
    fs.piType = p.piType ∧ fs.piStat = p.piStat ∧ fs.piName = p.piName ∧ fs.piLink = p.piLink := by
  rcases h with rfl | ⟨-, -, h⟩
  · exact ⟨rfl, rfl, rfl, rfl⟩
  · unfold sumFile at h
    split at h
    · exact absurd h (by simp)
    · obtain rfl := Except.ok.inj h
      exact ⟨rfl, rfl, rfl, rfl⟩

theorem Summed.printable {cfg : DiffConfig} {p fs : PathInfo} (h : Summed cfg p fs)
    (hp : Printable p) : Printable fs := by
  obtain ⟨htype, -, hname, hlink⟩ := h.type
  exact ⟨hname ▸ hp.name_le, hlink ▸ hp.link_le, htype ▸ hp.known⟩

/-! ### `t_print` -/

theorem markLinks_fields {cfg : PrintConfig} {pr pr' : Printer} {fs : Option PathInfo}
    (h : markLinks cfg pr fs = .ok pr') : pr' = { pr with devHead := pr'.devHead } := by
  unfold markLinks at h
  split at h
  · obtain rfl := Except.ok.inj h
    rfl
  split at h
  · split at h
    · exact absurd h (by simp)
    · obtain rfl := Except.ok.inj h
      rfl
  · obtain rfl := Except.ok.inj h
    rfl

theorem printHeader_devHead {cfg : PrintConfig} (pr : Printer) (devHead : List Devlist)
    (t : TranLine) (flag : PrFlag) : printHeader cfg { pr with devHead := devHead } t flag =
      { printHeader cfg pr t flag with devHead := devHead } := by
  unfold printHeader
  split <;> rfl

/-- A call of `t_print` that comes to its end. -/
theorem tPrint_inv {cfg : PrintConfig} {pr pr' : Printer} {fs : Option PathInfo} {t : TranLine}
    {flag : PrFlag} (hflag : flag ≠ .statusMinus) (h : tPrint cfg pr fs t flag = .ok pr') :
    (∃ record, PrintedAs cfg pr fs t flag record pr') ∧
      ∃ marked, markLinks cfg pr fs = .ok marked ∧ pr'.devHead = marked.devHead := by
  unfold tPrint at h
  split at h
  · exact absurd h (by simp)
  next marked hmark =>
  rw [markLinks_fields hmark] at h
  simp only [printHeader_devHead] at h
  split at h
  · exact absurd h (by simp)
  next cur hcur =>
  split at h
  · exact absurd h (by simp)
  next record hrecord =>
  obtain rfl := Except.ok.inj h
  have hdash : decide (flag = .statusMinus) = false := decide_eq_false hflag
  refine ⟨⟨record, ⟨cur, hcur, hrecord⟩, rfl, ?_⟩, marked, hmark, rfl⟩
  simp only [hdash, Bool.and_false, Bool.or_false]

/-- `t_print` comes to its end where the links, the record and its checksum are
fine. -/
theorem tPrint_isOk {cfg : PrintConfig} (hsum : SumsWork cfg) {pr : Printer}
    {fs : Option PathInfo} {t : TranLine} (flag : PrFlag) {marked : Printer}
    (hmark : markLinks cfg pr fs = .ok marked) (hfs : ∀ p, fs = some p → Printable p)
    (hnone : fs = none → flag = .tranOnly) (ht : flag ≠ .fsOnly → Printable t.pinfo) :
    ∃ pr', tPrint cfg pr fs t flag = .ok pr' := by
  -- the record is that of the object or that of the line
  obtain ⟨cur, hcur, hprint⟩ : ∃ cur, printCur cfg fs t flag = some cur ∧ Printable cur := by
    cases fs with
    | none =>
      obtain rfl := hnone rfl
      refine ⟨t.pinfo, ?_, ht (by simp)⟩
      cases hedit : cfg.editPath <;> simp [printCur, printMinus, hedit]
    | some p =>
      have hp := hfs p rfl
      have hX : p.piType ≠ .X := fun h => hp.known (by simp [h])
      unfold printCur
      cases hedit : cfg.editPath with
      | applicable =>
        by_cases hf : flag = .fsOnly
        · exact ⟨p, by simp [hf], hp⟩
        · exact ⟨t.pinfo, by simp [hf], ht hf⟩
      | creatable =>
        by_cases hf : flag = .tranOnly
        · exact ⟨t.pinfo, by simp [printMinus, hedit, hf], ht (by simp [hf])⟩
        · exact ⟨p, by simp [printMinus, hedit, hf, hX], hp⟩
  obtain ⟨record, hrecord⟩ := printRecord_isOk hsum fs (printMinus cfg fs flag) flag
    (fun hf hn => by simp [hnone hn] at hf) hprint
  simp only [tPrint, hmark, hcur, hrecord]
  exact ⟨_, rfl⟩

/-! ### The event of an object -/

/-- The event is one of the events of the object `e`. -/
def About (seen : List FsEntry) (e : FsEntry) : DiffEvent → Prop
  | .left p => p = linkRecord seen e
  | .right next _ => next = some (linkRecord seen e)
  | .both p _ => p = linkRecord seen e

theorem About.touches {cfg : DiffConfig} {seen : List FsEntry} {e : FsEntry} {ev : DiffEvent}
    (h : About seen e ev) {q : CStr} (ht : Touches cfg q ev) : q = e.path := by
  rw [← linkRecord_name seen e]
  cases ev with
  | left p => exact h ▸ ht.symm
  | right next t =>
    obtain ⟨p, hp, hq⟩ := ht
    rw [← hq, Option.some.inj (hp.symm.trans h)]
  | both p t => exact h ▸ ht.1.symm

theorem compareFile_inv {cfg : DiffConfig} {p fs : PathInfo} {t : TranLine} {r : Option PrFlag}
    (htype : p.piType = .a ∨ p.piType = .f) (h : compareFile cfg p t = .ok (fs, r)) :
    Summed cfg p fs ∧ ∀ flag, r = some flag → flag = .download ∨ flag = .status ∨
      flag = .statusNeg ∧ cfg.editPath = .applicable := by
  have howner : ∀ {q : PathInfo} {flag : PrFlag}, compareOwner cfg q t = some flag →
      flag = .download ∨ flag = .status ∨ flag = .statusNeg ∧ cfg.editPath = .applicable := by
    intro q flag hq
    unfold compareOwner at hq
    split_ifs at hq with hd happ
    · exact .inr (.inr ⟨(Option.some.inj hq).symm, happ.2⟩)
    · exact .inr (.inl (Option.some.inj hq).symm)
  have hdone : ∀ {q : PathInfo} {r' : Option PrFlag}, Summed cfg p q →
      (∀ flag, r' = some flag → flag = .download ∨ flag = .status ∨
        flag = .statusNeg ∧ cfg.editPath = .applicable) →
      (Except.ok (q, r') : Except Exit _) = .ok (fs, r) →
      Summed cfg p fs ∧ ∀ flag, r = some flag → flag = .download ∨ flag = .status ∨
        flag = .statusNeg ∧ cfg.editPath = .applicable := by
    intro q r' hq hr heq
    obtain ⟨rfl, rfl⟩ := Prod.mk.inj (Except.ok.inj heq)
    exact ⟨hq, hr⟩
  have hdown : ∀ flag, some PrFlag.download = some flag → flag = .download ∨ flag = .status ∨
      flag = .statusNeg ∧ cfg.editPath = .applicable :=
    fun flag h => .inl (Option.some.inj h).symm
  have hstatus : ∀ flag, some PrFlag.status = some flag → flag = .download ∨ flag = .status ∨
      flag = .statusNeg ∧ cfg.editPath = .applicable :=
    fun flag h => .inr (.inl (Option.some.inj h).symm)
  unfold compareFile at h
  simp only at h
  split at h
  · exact hdone (.inl rfl) (fun flag => howner) h
  split at h
  · exact hdone (.inl rfl) hdown h
  split at h
  · next hck =>
    split at h
    · exact absurd h (by simp)
    next q hq =>
    have hs : Summed cfg p q := .inr ⟨htype, hck, hq⟩
    split at h
    · exact hdone hs hdown h
    split at h
    · exact hdone hs hstatus h
    · exact hdone hs (fun flag => howner) h
  · split at h
    · exact hdone (.inl rfl) hdown h
    · exact hdone (.inl rfl) (fun flag => howner) h

theorem compareFields_inv {cfg : DiffConfig} {devHead : List Devlist} {p fs : PathInfo}
    {t : TranLine} {r : Option PrFlag} (h : compareFields cfg devHead p t = .ok (fs, r)) :
    Summed cfg p fs ∧ ∀ flag, r = some flag → flag = .download ∨ flag = .status ∨
      flag = .statusNeg ∧ cfg.editPath = .applicable := by
  have hstatus : ∀ {b : Bool}, (Except.ok (p, statusIf b) : Except Exit _) = .ok (fs, r) →
      Summed cfg p fs ∧ ∀ flag, r = some flag → flag = .download ∨ flag = .status ∨
        flag = .statusNeg ∧ cfg.editPath = .applicable := by
    intro b h
    obtain ⟨rfl, rfl⟩ := Prod.mk.inj (Except.ok.inj h)
    refine ⟨.inl rfl, fun flag hf => .inr (.inl ?_)⟩
    unfold statusIf at hf
    split_ifs at hf
    exact (Option.some.inj hf).symm
  unfold compareFields at h
  cases htype : p.piType with
  | a => exact compareFile_inv (.inl htype) (by simpa only [htype] using h)
  | f => exact compareFile_inv (.inr htype) (by simpa only [htype] using h)
  | h =>
    have hsome : statusIf true = some .status := rfl
    simp only [htype, ← hsome] at h
    split at h
    · exact hstatus h
    split at h
    · exact absurd h (by simp)
    · exact hstatus h
  | X | unset =>
    have hnone : statusIf false = none := rfl
    simp only [htype, ← hnone] at h
    exact hstatus h
  | d | D | p | s | l | c | b => exact hstatus (by simpa only [htype] using h)

theorem compareFields_devHead {cfg : DiffConfig} {p : PathInfo} (hp : p.piType ≠ .h)
    (devHead : List Devlist) (t : TranLine) :
    compareFields cfg devHead p t = compareFields cfg [] p t := by
  unfold compareFields
  cases htype : p.piType <;> first | rfl | exact absurd htype hp

section

variable {cfg : DiffConfig} {F seen rest : List FsEntry} {e : FsEntry} {pre : List DiffEvent}
  {pr pr' : Printer}

variable (cfg) in
/-- Setting the flags for an object marks it where it is the first of its inode. -/
theorem markLinks_ok {marked : FsEntry → Prop} (he : e.Valid)
    (htable : Table (seen ++ [e]) marked pr.devHead)
    {fs : PathInfo} (htype : fs.piType = (linkRecord seen e).piType)
    (hstat : fs.piStat = (linkRecord seen e).piStat) :
    ∃ devHead, markLinks cfg.print pr (some fs) = .ok { pr with devHead := devHead } ∧
      Table (seen ++ [e])
        (fun g => marked g ∨ (cfg.editPath = .applicable ∧ firstLink seen e.st = none ∧ g = e))
        devHead := by
  have hmarks : marksLinks cfg.print fs = marksLinks cfg.print (linkRecord seen e) := by
    simp only [marksLinks, htype, hstat]
  have hiff := marksLinks_linkRecord cfg.print seen he
  rw [← hmarks] at hiff
  unfold markLinks
  by_cases hm : marksLinks cfg.print fs = true
  · obtain ⟨happ, hl, hfirst⟩ := hiff.mp hm
    have hg : firstLink (seen ++ [e]) fs.piStat = some e := by
      rw [hstat, linkRecord_stat, firstLink_append, hfirst, firstLink_single, if_pos ⟨hl, rfl, rfl⟩]
      rfl
    obtain ⟨devHead, flag, hch, htable'⟩ := htable.mark hg
    refine ⟨devHead, by simp only [hm, if_true, hch], htable'.congr fun g _ => ?_⟩
    exact or_congr_right ⟨fun h => ⟨happ, hfirst, h⟩, fun h => h.2.2⟩
  · refine ⟨pr.devHead, by simp only [hm]; rfl, htable.congr fun g hg => ?_⟩
    refine ⟨.inl, fun h => h.resolve_right fun ⟨happ, hfirst, heq⟩ => hm (hiff.mpr ⟨happ, ?_, hfirst⟩)⟩
    exact heq ▸ (firstLink_spec hg).2.1

/-- The flags after a line printed for an object. -/
theorem Table.print (he : e.Valid) (hnew : ∀ g ∈ seen, g.path ≠ e.path)
    (htable : Table (seen ++ [e]) (Marked cfg pre) pr.devHead) {fs : PathInfo}
    (hfs : Summed cfg (linkRecord seen e) fs) {ev : DiffEvent} (habout : About seen e ev)
    (htouch : Touches cfg e.path ev ∨ (linkRecord seen e).piType = .h) {t : TranLine} {flag : PrFlag}
    (hflag : flag ≠ .statusMinus) (h : tPrint cfg.print pr (some fs) t flag = .ok pr') :
    Table (seen ++ [e]) (Marked cfg (pre ++ [ev])) pr'.devHead := by
  obtain ⟨-, marked, hmark, hdev⟩ := tPrint_inv hflag h
  obtain ⟨devHead, hmark', htable'⟩ := markLinks_ok cfg he htable hfs.type.1 hfs.type.2.1
  obtain rfl := Except.ok.inj (hmark'.symm.trans hmark)
  rw [hdev]
  refine htable'.congr fun g hg => ?_
  have hmarked : Marked cfg (pre ++ [ev]) g ↔
      Marked cfg pre g ∨ (cfg.editPath = .applicable ∧ Touches cfg g.path ev) := by
    simp [Marked, or_and_right, exists_or, and_or_left]
  have hmem := (firstLink_spec hg).1
  rw [hmarked]
  refine or_congr_right ⟨?_, ?_⟩
  · rintro ⟨happ, hfirst, rfl⟩
    refine ⟨happ, htouch.resolve_right fun hh => ?_⟩
    rcases linkRecord_cases seen g with ⟨hn, -⟩ | ⟨g', -, hg', -⟩
    · rw [hn, (named_name g).2] at hh
      exact he.known (by simp [hh])
    · simp [hfirst] at hg'
  · rintro ⟨happ, ht⟩
    have hpath := habout.touches ht
    have heq : g = e := by
      rcases List.mem_append.mp hmem with hm | hm
      · exact absurd hpath (hnew g hm)
      · simpa using hm
    subst heq
    refine ⟨happ, ?_, rfl⟩
    cases hfirst : firstLink seen g.st with
    | none => rfl
    | some g' =>
      rw [firstLink_append, hfirst] at hg
      exact absurd (congrArg FsEntry.path (Option.some.inj hg)) (hnew g' (firstLink_spec hfirst).1)

theorem Table.quiet (htable : Table (seen ++ [e]) (Marked cfg pre) pr.devHead) {ev : DiffEvent}
    (hquiet : ∀ q, ¬ Touches cfg q ev) :
    Table (seen ++ [e]) (Marked cfg (pre ++ [ev])) pr.devHead := by
  refine htable.congr fun g _ => ?_
  simp [Marked, hquiet]

/-- The decision of `t_compare` for a record of an object. -/
theorem compareFields_shows (hF : F = seen ++ e :: rest)
    (htable : Table (seen ++ [e]) (Marked cfg pre) pr.devHead) (he : e.Valid) {t : TranLine}
    (htype : (linkRecord seen e).piType = t.pinfo.piType) {fs : PathInfo} {r : Option PrFlag}
    (h : compareFields cfg pr.devHead (linkRecord seen e) t = .ok (fs, r)) :
    r.isSome = true ↔ Shows cfg F pre (.both (linkRecord seen e) t) := by
  by_cases hh : (linkRecord seen e).piType = .h
  · rcases linkRecord_cases seen e with ⟨hn, -⟩ | ⟨g, -, hg, -⟩
    · rw [hn, (named_name e).2] at hh
      exact absurd hh fun hh => he.known (by simp [hh])
    have hfirst : firstLink (seen ++ [e]) (linkRecord seen e).piStat = some g := by
      rw [linkRecord_stat, firstLink_append, hg, Option.some_or]
    have hfirst' : firstLink F (linkRecord seen e).piStat = some g := by
      rw [hF, linkRecord_stat, firstLink_append, hg, Option.some_or]
    obtain ⟨i, hi, -, hflag⟩ := htable.present _ g hfirst
    obtain ⟨devHead, hchanged, -⟩ := hardlinkChanged_spec hi false
    have hh' : t.pinfo.piType = .h := htype ▸ hh
    have hshows : Shows cfg F pre (.both (linkRecord seen e) t) ↔
        (linkRecord seen e).piLink ≠ t.pinfo.piLink ∨ i.iFlag = true := by
      rw [hflag, Shows, hfirst']
      simp [differs, hh, hh']
    rw [hshows]
    simp only [compareFields, hh, hchanged, Bool.or_false] at h
    split at h
    · next hlink =>
      obtain ⟨-, rfl⟩ := Prod.mk.inj (Except.ok.inj h)
      simp [hlink]
    · next hlink =>
      obtain ⟨-, rfl⟩ := Prod.mk.inj (Except.ok.inj h)
      have hlink : (linkRecord seen e).piLink = t.pinfo.piLink := by simpa using hlink
      cases hf : i.iFlag <;> simp [statusIf, hlink]
  · rw [compareFields_devHead hh] at h
    have hdiff : differs cfg (linkRecord seen e) t = r.isSome := by
      rw [differs, if_neg hh, h, decide_eq_false (not_not_intro htype), Bool.false_or]
      cases r <;> rfl
    simp [Shows, hdiff, hh]

theorem onEvent_inv (hF : F = seen ++ e :: rest) (he : e.Valid) (hnew : ∀ g ∈ seen, g.path ≠ e.path)
    (htable : Table (seen ++ [e]) (Marked cfg pre) pr.devHead) {ev : DiffEvent}
    (habout : About seen e ev) (h : onEvent cfg pr ev = .ok pr') :
    Outcome cfg F pre pr ev pr' ∧ Table (seen ++ [e]) (Marked cfg (pre ++ [ev])) pr'.devHead := by
  cases ev with
  | left p =>
    have hp : p = linkRecord seen e := habout
    subst hp
    obtain ⟨⟨record, hprinted⟩, -⟩ := tPrint_inv (by simp) h
    exact ⟨.left hprinted, htable.print he hnew (.inl rfl) habout (.inl (linkRecord_name seen e))
      (by simp) h⟩
  | right next t =>
    have hnext : next = some (linkRecord seen e) := habout
    subst hnext
    obtain ⟨⟨record, hprinted⟩, -⟩ := tPrint_inv (by simp) h
    exact ⟨.right hprinted, htable.print he hnew (.inl rfl) habout
      (.inl ⟨_, rfl, linkRecord_name seen e⟩) (by simp) h⟩
  | both p t =>
    have hp : p = linkRecord seen e := habout
    subst hp
    rw [onEvent, compareBoth] at h
    split at h
    · next htype =>
      have hdiff : differs cfg (linkRecord seen e) t = true := by simp [differs, htype]
      obtain ⟨⟨record, hprinted⟩, -⟩ := tPrint_inv (by simp) h
      exact ⟨.changed (.inl hdiff) (.inl rfl) (.inl rfl) hprinted, htable.print he hnew (.inl rfl)
        habout (.inl ⟨linkRecord_name seen e, hdiff⟩) (by simp) h⟩
    · next htype =>
      have htype : (linkRecord seen e).piType = t.pinfo.piType := by simpa using htype
      split at h
      · exact absurd h (by simp)
      · next fs hfields =>
        obtain rfl := Except.ok.inj h
        have hshows := compareFields_shows hF htable he htype hfields
        simp only [Option.isSome_none, Bool.false_eq_true, false_iff] at hshows
        have hcompared : (linkRecord seen e).piType ≠ .h →
            ∃ fs, compareFields cfg [] (linkRecord seen e) t = .ok (fs, none) := fun hh =>
          ⟨fs, compareFields_devHead hh pr.devHead t ▸ hfields⟩
        exact ⟨.quiet hshows hcompared rfl rfl, htable.quiet fun q hq => hshows (.inl hq.2)⟩
      · next fs flag hfields =>
        have hshows := compareFields_shows hF htable he htype hfields
        simp only [Option.isSome_some, true_iff] at hshows
        obtain ⟨hsummed, hflag⟩ := compareFields_inv hfields
        have hflag := hflag flag rfl
        have hminus : flag ≠ .statusMinus := by
          rcases hflag with rfl | rfl | ⟨rfl, -⟩ <;> simp
        obtain ⟨⟨record, hprinted⟩, -⟩ := tPrint_inv hminus h
        refine ⟨.changed hshows hsummed hflag hprinted, htable.print he hnew hsummed habout ?_
          hminus h⟩
        exact hshows.imp (fun hd => ⟨linkRecord_name seen e, hd⟩) (·.1)

end

end Radmind
