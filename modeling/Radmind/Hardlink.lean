import Radmind.Lib.SortedTable
import Radmind.Transcript.Types

/-!
# Hard links

The table of the inodes with more than one link seen in a run.  `hardlink` names
the first path of an inode, `hardlink_changed` keeps a flag for it.
-/

namespace Radmind

open SortedTable

structure Inolist where
  iIno : BitVec 64
  iName : CStr
  iFlag : Bool
  deriving DecidableEq, Repr

structure Devlist where
  dDev : BitVec 64
  dIlist : List Inolist
  deriving DecidableEq, Repr

def Inolist.key (i : Inolist) : Nat := i.iIno.toNat

def Devlist.key (d : Devlist) : Nat := d.dDev.toNat

def Devlist.setIlist (ilist : List Inolist) (d : Devlist) : Devlist := { d with dIlist := ilist }

/-- `i_flag` set where `set` is. -/
def Inolist.mark (set : Bool) (i : Inolist) : Inolist := { i with iFlag := i.iFlag || set }

def Devlist.mark (ino : BitVec 64) (set : Bool) (d : Devlist) : Devlist :=
  { d with dIlist := update Inolist.key ino.toNat (Inolist.mark set) d.dIlist }

/-- `i_insert` -/
def iInsert (ilist : List Inolist) (pinfo : PathInfo) : List Inolist × Option CStr :=
  match locate Inolist.key pinfo.piStat.stIno.toNat ilist with
  | some cur => (ilist, some cur.iName)
  | none => (insertNew Inolist.key ⟨pinfo.piStat.stIno, pinfo.piName, false⟩ ilist, none)

/-- `d_insert` -/
def dInsert (devHead : List Devlist) (pinfo : PathInfo) : List Devlist :=
  insertNew Devlist.key ⟨pinfo.piStat.stDev, []⟩ devHead

/-- `hardlink`, with the list from `dev_head` after it.  `d_insert` returns a
device of the list, which `i_insert` changes in place. -/
def hardlink (devHead : List Devlist) (pinfo : PathInfo) : List Devlist × Option CStr :=
  let devHead := dInsert devHead pinfo
  match locate Devlist.key pinfo.piStat.stDev.toNat devHead with
  | some device =>
    let (ilist, name) := iInsert device.dIlist pinfo
    (update Devlist.key pinfo.piStat.stDev.toNat (Devlist.setIlist ilist) devHead, name)
  | none => (devHead, none)

/-- `hardlink_changed` -/
def hardlinkChanged (devHead : List Devlist) (pinfo : PathInfo) (set : Bool) :
    Except Exit (List Devlist × Bool) :=
  match locate Devlist.key pinfo.piStat.stDev.toNat devHead with
  | none => .error (.devNotFound pinfo.piName)
  | some dcur =>
    match locate Inolist.key pinfo.piStat.stIno.toNat dcur.dIlist with
    | none => .error (.inoNotFound pinfo.piName)
    | some icur =>
      .ok (update Devlist.key pinfo.piStat.stDev.toNat (Devlist.mark pinfo.piStat.stIno set) devHead,
        (icur.mark set).iFlag)

/-! ## The table as a map -/

theorem key_setIlist (ilist : List Inolist) (d : Devlist) : (d.setIlist ilist).key = d.key := rfl

theorem key_mark (set : Bool) (i : Inolist) : (i.mark set).key = i.key := rfl

theorem key_markDev (ino : BitVec 64) (set : Bool) (d : Devlist) : (d.mark ino set).key = d.key :=
  rfl

/-- What the table knows about an inode. -/
def lookup (devHead : List Devlist) (dev ino : BitVec 64) : Option Inolist :=
  (locate Devlist.key dev.toNat devHead).bind fun d => locate Inolist.key ino.toNat d.dIlist

@[simp] theorem lookup_nil (dev ino : BitVec 64) : lookup [] dev ino = none := rfl

theorem iInsert_snd (ilist : List Inolist) (p : PathInfo) :
    (iInsert ilist p).2 =
      (locate Inolist.key p.piStat.stIno.toNat ilist).map (·.iName) := by
  unfold iInsert
  split <;> simp [*]

theorem locate_iInsert (ilist : List Inolist) (p : PathInfo) (ino : BitVec 64) :
    locate Inolist.key ino.toNat (iInsert ilist p).1 =
      if ino = p.piStat.stIno then
        some ((locate Inolist.key ino.toNat ilist).getD ⟨p.piStat.stIno, p.piName, false⟩)
      else locate Inolist.key ino.toNat ilist := by
  unfold iInsert
  split
  · next cur h =>
    split_ifs with hino
    · rw [hino, h, Option.getD_some]
    · rfl
  · rw [locate_insertNew]
    simp only [Inolist.key, BitVec.toNat_inj]

/-- Only the inode of the call changes: it is entered if it is new. -/
theorem lookup_hardlink (devHead : List Devlist) (p : PathInfo) (dev ino : BitVec 64) :
    lookup (hardlink devHead p).1 dev ino =
      if dev = p.piStat.stDev ∧ ino = p.piStat.stIno then
        some ((lookup devHead dev ino).getD ⟨p.piStat.stIno, p.piName, false⟩)
      else lookup devHead dev ino := by
  have hdev : locate Devlist.key p.piStat.stDev.toNat (dInsert devHead p) =
      some ((locate Devlist.key p.piStat.stDev.toNat devHead).getD ⟨p.piStat.stDev, []⟩) := by
    rw [dInsert, locate_insertNew]
    simp [Devlist.key]
  have hother : ∀ dev : BitVec 64, dev ≠ p.piStat.stDev →
      locate Devlist.key dev.toNat (dInsert devHead p) =
        locate Devlist.key dev.toNat devHead := by
    intro dev hne
    rw [dInsert, locate_insertNew]
    simp [Devlist.key, BitVec.toNat_inj, hne]
  unfold hardlink lookup
  simp only [hdev]
  rw [locate_update (key_setIlist _), hdev]
  simp only [BitVec.toNat_inj]
  by_cases hd : dev = p.piStat.stDev
  · subst hd
    simp only [if_true, Option.map_some, Option.bind_some, true_and, Devlist.setIlist,
      locate_iInsert]
    cases hl : locate Devlist.key p.piStat.stDev.toNat devHead with
    | none => simp [locate]
    | some d => simp
  · rw [if_neg hd, hother dev hd, if_neg (fun h => hd h.1)]

theorem hardlink_snd (devHead : List Devlist) (p : PathInfo) :
    (hardlink devHead p).2 = (lookup devHead p.piStat.stDev p.piStat.stIno).map (·.iName) := by
  have hdev : locate Devlist.key p.piStat.stDev.toNat (dInsert devHead p) =
      some ((locate Devlist.key p.piStat.stDev.toNat devHead).getD ⟨p.piStat.stDev, []⟩) := by
    rw [dInsert, locate_insertNew]
    simp [Devlist.key]
  unfold hardlink lookup
  simp only [hdev, iInsert_snd]
  cases hl : locate Devlist.key p.piStat.stDev.toNat devHead with
  | none => simp [locate]
  | some d => simp

/-- On an inode of the table the call sets or reads its flag. -/
theorem hardlinkChanged_spec {devHead : List Devlist} {p : PathInfo} {i : Inolist}
    (h : lookup devHead p.piStat.stDev p.piStat.stIno = some i) (set : Bool) :
    ∃ devHead', hardlinkChanged devHead p set = .ok (devHead', i.iFlag || set) ∧
      ∀ dev ino, lookup devHead' dev ino =
        if dev = p.piStat.stDev ∧ ino = p.piStat.stIno then some (i.mark set)
        else lookup devHead dev ino := by
  obtain ⟨d, hd, hi⟩ := Option.bind_eq_some_iff.mp h
  refine ⟨_, by simp only [hardlinkChanged, hd, hi]; rfl, fun dev ino => ?_⟩
  rw [lookup, locate_update (key_markDev _ _)]
  simp only [BitVec.toNat_inj]
  by_cases hdev : dev = p.piStat.stDev
  · subst hdev
    simp only [if_true, hd, Option.map_some, Option.bind_some, true_and, Devlist.mark]
    rw [locate_update (key_mark _)]
    simp only [BitVec.toNat_inj, hi, Option.map_some, lookup, hd, Option.bind_some]
  · simp only [hdev, if_false, false_and, lookup]

end Radmind
