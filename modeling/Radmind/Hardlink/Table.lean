import Radmind.Hardlink

/-!
# The table over a run

What the table of the inodes is after any number of calls.  The calls are kept, and the table
knows of each inode what the calls for it say.
-/

namespace Radmind

open SortedTable

/-- A call of `hardlink`, or of `hardlink_changed`. -/
inductive TableCall
  | hardlink (pinfo : PathInfo)
  | hardlinkChanged (pinfo : PathInfo) (set : Bool)

/-- The table after a call. -/
def TableCall.run (devHead : List Devlist) : TableCall → Except Exit (List Devlist)
  | .hardlink pinfo => .ok (Radmind.hardlink devHead pinfo).1
  | .hardlinkChanged pinfo set => (Radmind.hardlinkChanged devHead pinfo set).map Prod.fst

/-- The table after calls from the empty table. -/
inductive TableAfter : List TableCall → List Devlist → Prop
  | empty : TableAfter [] []
  | call {calls : List TableCall} {devHead devHead' : List Devlist} {c : TableCall} :
      TableAfter calls devHead → c.run devHead = .ok devHead' →
      TableAfter (calls ++ [c]) devHead'

/-- The call is for the inode. -/
def PathInfo.isInode (dev ino : BitVec 64) (pinfo : PathInfo) : Bool :=
  dev = pinfo.piStat.stDev && ino = pinfo.piStat.stIno

/-- What a call of `hardlink` for the inode was given. -/
def TableCall.given (dev ino : BitVec 64) : TableCall → Option PathInfo
  | .hardlink pinfo => if pinfo.isInode dev ino then some pinfo else none
  | .hardlinkChanged _ _ => none

/-- The call sets the flag of the inode. -/
def TableCall.sets (dev ino : BitVec 64) : TableCall → Bool
  | .hardlink _ => false
  | .hardlinkChanged pinfo set => set && pinfo.isInode dev ino

/-- The earliest call of `hardlink` for an inode. -/
def earliest (calls : List TableCall) (dev ino : BitVec 64) : Option PathInfo :=
  calls.findSome? (TableCall.given dev ino)

/-- Some call set the flag of an inode. -/
def flagged (calls : List TableCall) (dev ino : BitVec 64) : Bool :=
  calls.any (TableCall.sets dev ino)

/-- The devices ascend, and the inodes of each. -/
def Ascends (devHead : List Devlist) : Prop :=
  (devHead.Pairwise fun d e => d.dDev < e.dDev) ∧
    ∀ d ∈ devHead, d.dIlist.Pairwise fun i j => i.iIno < j.iIno

section

variable {devHead : List Devlist} {calls : List TableCall} {dev ino : BitVec 64}

theorem Ascends.iInsert {ilist : List Inolist} (h : ilist.Pairwise fun i j => i.iIno < j.iIno)
    (p : PathInfo) : (Radmind.iInsert ilist p).1.Pairwise fun i j => i.iIno < j.iIno := by
  unfold Radmind.iInsert
  split
  · exact h
  · exact @pairwise_insertNew _ _ _ Inolist.key _ _ h

theorem Ascends.dInsert (h : Ascends devHead) (p : PathInfo) :
    Ascends (Radmind.dInsert devHead p) := by
  refine ⟨@pairwise_insertNew _ _ _ Devlist.key _ _ h.1, fun d hd => ?_⟩
  rcases mem_insertNew hd with rfl | hd
  · exact List.Pairwise.nil
  · exact h.2 d hd

theorem mem_of_locate {κ α : Type} [LinearOrder κ] {key : α → κ} {k : κ} {l : List α} {a : α}
    (h : locate key k l = some a) : a ∈ l := by
  induction l with
  | nil => simp [locate] at h
  | cons b l ih =>
    rw [locate] at h
    split_ifs at h
    · exact Option.some.inj h ▸ List.mem_cons_self
    · exact List.mem_cons_of_mem b (ih h)

theorem Ascends.hardlink (h : Ascends devHead) (p : PathInfo) :
    Ascends (Radmind.hardlink devHead p).1 := by
  have hins := h.dInsert p
  unfold Radmind.hardlink
  simp only
  split
  · next device hdevice =>
    refine ⟨@pairwise_update _ _ _ Devlist.key _ _ _ (fun _ => rfl) hins.1, fun d hd => ?_⟩
    rcases mem_update hd with hd | ⟨e, -, rfl⟩
    · exact hins.2 d hd
    · exact Ascends.iInsert (hins.2 device (mem_of_locate hdevice)) p
  · exact hins

theorem Ascends.hardlinkChanged (h : Ascends devHead) {p : PathInfo} {set flag : Bool}
    {devHead' : List Devlist}
    (hrun : Radmind.hardlinkChanged devHead p set = .ok (devHead', flag)) : Ascends devHead' := by
  unfold Radmind.hardlinkChanged at hrun
  split at hrun
  · exact absurd hrun (by simp)
  split at hrun
  · exact absurd hrun (by simp)
  obtain ⟨rfl, -⟩ := Prod.mk.inj (Except.ok.inj hrun)
  refine ⟨@pairwise_update _ _ _ Devlist.key _ _ _ (fun _ => rfl) h.1, fun d hd => ?_⟩
  rcases mem_update hd with hd | ⟨e, he, rfl⟩
  · exact h.2 d hd
  · exact @pairwise_update _ _ _ Inolist.key _ _ _ (fun _ => rfl) (h.2 e he)

/-- The table is in order, and says of each inode what the calls say. -/
structure Records (calls : List TableCall) (devHead : List Devlist) : Prop where
  ascends : Ascends devHead
  lookup : ∀ dev ino, Radmind.lookup devHead dev ino =
    (earliest calls dev ino).map fun p => ⟨ino, p.piName, flagged calls dev ino⟩
  unflagged : ∀ dev ino, earliest calls dev ino = none → flagged calls dev ino = false

theorem earliest_append (c : TableCall) :
    earliest (calls ++ [c]) dev ino = (earliest calls dev ino).or (c.given dev ino) := by
  unfold earliest
  rw [List.findSome?_append]
  cases h : c.given dev ino with
  | none => simp [h]
  | some p => simp [h]

theorem flagged_append (c : TableCall) :
    flagged (calls ++ [c]) dev ino = (flagged calls dev ino || c.sets dev ino) := by
  simp [flagged]

theorem isInode_iff {p : PathInfo} :
    p.isInode dev ino = true ↔ dev = p.piStat.stDev ∧ ino = p.piStat.stIno := by
  simp [PathInfo.isInode]

theorem hardlinkChanged_unknown {p : PathInfo} {set : Bool}
    (h : lookup devHead p.piStat.stDev p.piStat.stIno = none) :
    ∃ e, hardlinkChanged devHead p set = .error e := by
  unfold lookup at h
  unfold hardlinkChanged
  cases hdev : locate Devlist.key p.piStat.stDev.toNat devHead with
  | none => exact ⟨_, rfl⟩
  | some d =>
    rw [hdev, Option.bind_some] at h
    simp only [h]
    exact ⟨_, rfl⟩

theorem Records.hardlink (h : Records calls devHead) (p : PathInfo) :
    Records (calls ++ [.hardlink p]) (Radmind.hardlink devHead p).1 := by
  refine ⟨h.ascends.hardlink p, fun dev ino => ?_, fun dev ino hnone => ?_⟩
  · rw [lookup_hardlink, earliest_append, flagged_append, h.lookup]
    by_cases hsame : dev = p.piStat.stDev ∧ ino = p.piStat.stIno
    · rw [if_pos hsame, TableCall.given, if_pos (isInode_iff.mpr hsame)]
      cases hfirst : earliest calls dev ino with
      | none =>
        rw [h.unflagged dev ino hfirst]
        simp [TableCall.sets, hsame.2]
      | some q => simp [TableCall.sets]
    · rw [if_neg hsame, TableCall.given, if_neg fun hp => hsame (isInode_iff.mp hp)]
      simp [TableCall.sets]
  · rw [earliest_append, Option.or_eq_none_iff] at hnone
    simp [flagged_append, h.unflagged dev ino hnone.1, TableCall.sets]

theorem Records.hardlinkChanged (h : Records calls devHead) {p : PathInfo} {set flag : Bool}
    {devHead' : List Devlist}
    (hrun : Radmind.hardlinkChanged devHead p set = .ok (devHead', flag)) :
    Records (calls ++ [.hardlinkChanged p set]) devHead' := by
  have hlookup := h.lookup p.piStat.stDev p.piStat.stIno
  cases hfirst : earliest calls p.piStat.stDev p.piStat.stIno with
  | none =>
    obtain ⟨e, he⟩ := @hardlinkChanged_unknown devHead p set (by rw [hlookup, hfirst]; rfl)
    rw [he] at hrun
    cases hrun
  | some q =>
    rw [hfirst, Option.map_some] at hlookup
    obtain ⟨t, ht, hspec⟩ := hardlinkChanged_spec hlookup set
    rw [ht] at hrun
    obtain ⟨rfl, -⟩ := Prod.mk.inj (Except.ok.inj hrun)
    refine ⟨h.ascends.hardlinkChanged ht, fun dev ino => ?_, fun dev ino hnone => ?_⟩
    · rw [hspec, earliest_append, flagged_append, h.lookup]
      by_cases hsame : dev = p.piStat.stDev ∧ ino = p.piStat.stIno
      · obtain ⟨rfl, rfl⟩ := hsame
        rw [if_pos ⟨rfl, rfl⟩, hfirst]
        simp [TableCall.given, TableCall.sets, PathInfo.isInode, Inolist.mark]
      · have hother : p.isInode dev ino = false :=
          Bool.eq_false_iff.mpr fun hp => hsame (isInode_iff.mp hp)
        rw [if_neg hsame]
        simp [TableCall.given, TableCall.sets, hother]
    · rw [earliest_append, Option.or_eq_none_iff] at hnone
      have hother : p.isInode dev ino = false := by
        refine Bool.eq_false_iff.mpr fun hp => ?_
        obtain ⟨rfl, rfl⟩ := isInode_iff.mp hp
        rw [hfirst] at hnone
        exact absurd hnone.1 (by simp)
      simp [flagged_append, h.unflagged dev ino hnone.1, TableCall.sets, hother]

theorem TableAfter.records (h : TableAfter calls devHead) : Records calls devHead := by
  induction h with
  | empty => exact ⟨⟨List.Pairwise.nil, by simp⟩, fun dev ino => rfl, fun dev ino _ => rfl⟩
  | @call calls devHead devHead' c _ hrun ih =>
    cases c with
    | hardlink p =>
      obtain rfl := Except.ok.inj hrun
      exact ih.hardlink p
    | hardlinkChanged p set =>
      have hrun : (Radmind.hardlinkChanged devHead p set).map Prod.fst = .ok devHead' := hrun
      cases hchanged : Radmind.hardlinkChanged devHead p set with
      | error e =>
        rw [hchanged] at hrun
        cases hrun
      | ok r =>
        rw [hchanged] at hrun
        obtain rfl := Except.ok.inj hrun
        exact ih.hardlinkChanged hchanged

end

/-- After any calls the table is in order.  A call of `hardlink` returns what the earliest call
for the inode was given, and a call of `hardlink_changed` for an inode that is known returns
whether it or a call before it sets the flag. -/
theorem hardlink_table {calls : List TableCall} {devHead : List Devlist}
    (h : TableAfter calls devHead) : Ascends devHead ∧
      (∀ p : PathInfo, (hardlink devHead p).2 =
        (earliest calls p.piStat.stDev p.piStat.stIno).map PathInfo.piName) ∧
      ∀ (p : PathInfo) (set : Bool), (earliest calls p.piStat.stDev p.piStat.stIno).isSome →
        ∃ devHead', hardlinkChanged devHead p set =
          .ok (devHead', set || flagged calls p.piStat.stDev p.piStat.stIno) := by
  have hr := h.records
  refine ⟨hr.ascends, fun p => ?_, fun p set hknown => ?_⟩
  · rw [hardlink_snd, hr.lookup, Option.map_map]
    rfl
  · obtain ⟨q, hq⟩ := Option.isSome_iff_exists.mp hknown
    have hlookup := hr.lookup p.piStat.stDev p.piStat.stIno
    rw [hq, Option.map_some] at hlookup
    obtain ⟨devHead', hrun, -⟩ := hardlinkChanged_spec hlookup set
    exact ⟨devHead', by rw [hrun, Bool.or_comm]⟩

/-- A file with two links that has changed. -/
def linkedFile (name : String) : PathInfo :=
  { PathInfo.zero with piName := lit name, piStat := { Stat.zero with stDev := 2, stIno := 5 } }

theorem hardlink_table_linked : ∃ devHead,
    TableAfter [.hardlink (linkedFile "/a"), .hardlinkChanged (linkedFile "/a") true] devHead ∧
      (hardlink devHead (linkedFile "/b")).2 = some (lit "/a") := by
  have hafter := ((TableAfter.empty.call rfl).call rfl :
    TableAfter [.hardlink (linkedFile "/a"), .hardlinkChanged (linkedFile "/a") true] _)
  exact ⟨_, hafter, (hardlink_table hafter).2.1 (linkedFile "/b")⟩

end Radmind
