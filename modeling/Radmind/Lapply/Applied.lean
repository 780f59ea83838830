import Radmind.Lapply.Frame
import Radmind.Lapply.Main

/-!
# What a line leaves at its path

`update` compares the words of a line with a `struct stat` and makes only the calls that change
something.  Where the calls do what they say, the object at the path has in the end what the line
lists, if that `struct stat` was about it.
-/

namespace Radmind

open RunRelation

/-- The owner that no object has, and that leaves the owner as it is in `chown`. -/
def noId : BitVec 32 := BitVec.allOnes 32

/-- `chown` of an object. -/
def Stat.chown (st : Stat) (uid gid : BitVec 32) : Stat :=
  { st with
    stUid := if uid = noId then st.stUid else uid
    stGid := if gid = noId then st.stGid else gid
    stMode := st.stMode &&& ~~~setIdBits }

/-- `chmod` of an object. -/
def Stat.chmod (st : Stat) (mode : BitVec 32) : Stat :=
  { st with stMode := st.stMode &&& ~~~tMode ||| mode &&& tMode }

/-- A system whose calls, run as root, do what they say, as `lstat` and `readlink` tell it.  The name
of a temporary file is no symbolic link. -/
structure ObjectOs (σ : Type) extends Os σ where
  readlink : σ → CStr → Option CStr
  owned : ∀ s p st, lstat s p = .found st → st.stUid ≠ noId ∧ st.stGid ≠ noId
  utime_ok : ∀ s p t st, lstat s p = .found st → st.fileType ≠ some .l →
    (sys (.utime p t) s).1 = .ok → lstat (sys (.utime p t) s).2 p = .found { st with stMtime := t }
  chown_ok : ∀ s p uid gid st, lstat s p = .found st → st.fileType ≠ some .l →
    (sys (.chown p uid gid) s).1 = .ok →
      lstat (sys (.chown p uid gid) s).2 p = .found (st.chown uid gid)
  chmod_ok : ∀ s p mode st, lstat s p = .found st → st.fileType ≠ some .l →
    (sys (.chmod p mode) s).1 = .ok → lstat (sys (.chmod p mode) s).2 p = .found (st.chmod mode)
  lchown_ok : ∀ s p uid gid st, lstat s p = .found st → (sys (.lchown p uid gid) s).1 = .ok →
    (∃ st', lstat (sys (.lchown p uid gid) s).2 p = .found st' ∧
      st'.stUid = (st.chown uid gid).stUid ∧ st'.stGid = (st.chown uid gid).stGid) ∧
      readlink (sys (.lchown p uid gid) s).2 p = readlink s p
  lchmod_ok : ∀ s p mode st, lstat s p = .found st → (sys (.lchmod p mode) s).1 = .ok →
    (∃ st', lstat (sys (.lchmod p mode) s).2 p = .found st' ∧ st'.stUid = st.stUid ∧
      st'.stGid = st.stGid) ∧ readlink (sys (.lchmod p mode) s).2 p = readlink s p
  missing : ∀ s p, (∀ st, lstat s p ≠ .found st) → (∀ t, (sys (.utime p t) s).1 ≠ .ok) ∧
    (∀ uid gid, (sys (.chown p uid gid) s).1 ≠ .ok) ∧ ∀ mode, (sys (.chmod p mode) s).1 ≠ .ok
  mkdir_ok : ∀ s p mode, (sys (.mkdir p mode) s).1 = .ok →
    ∃ st, lstat (sys (.mkdir p mode) s).2 p = .found st ∧ st.fileType ≠ some .l
  mkfifo_ok : ∀ s p mode, (sys (.mkfifo p mode) s).1 = .ok →
    ∃ st, lstat (sys (.mkfifo p mode) s).2 p = .found st ∧ st.fileType ≠ some .l
  mknod_ok : ∀ s p mode dev, (sys (.mknod p mode dev) s).1 = .ok →
    ∃ st, lstat (sys (.mknod p mode dev) s).2 p = .found st ∧ st.fileType ≠ some .l ∧
      st.stRdev = dev
  symlink_ok : ∀ s target p, (sys (.symlink target p) s).1 = .ok →
    (∃ st, lstat (sys (.symlink target p) s).2 p = .found st ∧ st.stUid = 0 ∧ st.stGid = 0) ∧
      readlink (sys (.symlink target p) s).2 p = some target
  openTemp_ok : ∀ s p mode, (sys (.openTemp p mode) s).1 = .ok →
    ∃ st, lstat (sys (.openTemp p mode) s).2 p = .found st ∧ st.fileType ≠ some .l
  receive_kept : ∀ s p size st, lstat s p = .found st → st.fileType ≠ some .l →
    ∃ st', lstat (sys (.receive p size) s).2 p = .found st' ∧ st'.fileType ≠ some .l
  close_kept : ∀ s p q, lstat (sys (.close p) s).2 q = lstat s q
  trailer_kept : ∀ s q, lstat (trailer s).2 q = lstat s q
  rename_ok : ∀ s p q, (sys (.rename p q) s).1 = .ok → lstat (sys (.rename p q) s).2 q = lstat s p

/-! ## What a line lists -/

/-- The attributes of a line.  Types that have no such attribute have none. -/
structure Attributes where
  type : FileType
  path : CStr
  uid : BitVec 32
  gid : BitVec 32
  mode : Option (BitVec 32)
  mtime : Option (BitVec 64)
  target : Option CStr
  device : Option (BitVec 32 × BitVec 32)
  deriving DecidableEq

/-- The attributes for the words behind the path. -/
def wordsAttributes (type : FileType) (path : CStr) (buf : List Byte) (words : List (List Byte)) :
    Option Attributes :=
  match type, words with
  | .f, [mode, uid, gid, mtime, _, _] | .a, [mode, uid, gid, mtime, _, _] =>
    some ⟨type, path, lineId uid, lineId gid, some (lineMode mode),
      some (BitVec.ofInt 64 (strtol 10 (cstr mtime))), none, none⟩
  | .d, [mode, uid, gid] | .p, [mode, uid, gid] =>
    some ⟨type, path, lineId uid, lineId gid, some (lineMode mode), none, none, none⟩
  | .b, [mode, uid, gid, maj, min] | .c, [mode, uid, gid, maj, min] =>
    some ⟨type, path, lineId uid, lineId gid, some (lineMode mode), none, none,
      some (atoi (cstr maj), atoi (cstr min))⟩
  -- legacy symlink entries get defaults
  | .l, [target] =>
    (decode buf target).1.map fun target => ⟨type, path, 0, 0, none, none, some target, none⟩
  | .l, [_, uid, gid, target] =>
    (decode buf target).1.map fun target =>
      ⟨type, path, lineId uid, lineId gid, none, none, some target, none⟩
  | _, _ => none

/-- The attributes of a line of type f, a, d, l, p, b or c.  `buf` is the buffer of `decode`. -/
def lineAttributes (buf : List Byte) (targv : List (List Byte)) : Option Attributes :=
  match targv with
  | type :: path :: words =>
    match FileType.ofLetter (type.headD nul), decode buf path with
    | some type, (some path, buf) => wordsAttributes type path buf words
    | _, _ => none
  | _ => none

/-- The object at the path has the listed attributes. -/
def HasAttributes {σ : Type} (os : ObjectOs σ) (s : σ) (l : Attributes) : Prop :=
  ∃ st, os.lstat s l.path = .found st ∧ st.stUid = l.uid ∧ st.stGid = l.gid ∧
    (∀ mode, l.mode = some mode → st.stMode &&& tMode = mode &&& tMode) ∧
    (∀ mtime, l.mtime = some mtime → st.stMtime = mtime) ∧
    (∀ target, l.target = some target → os.readlink s l.path = some target) ∧
    ∀ maj min, l.device = some (maj, min) → major st.stRdev = maj ∧ minor st.stRdev = min

/-- The attributes come to be what the line lists: the owner is one that can be set, a new symbolic
link is given its owner or has it from its creation, and a file that is not downloaded is there.
`st` is what `update` compares with. -/
def Applies (st : Stat) (command : Byte) (present : Bool) (l : Attributes) : Prop :=
  (l.uid ≠ noId ∧ l.gid ≠ noId) ∧
    (l.type = .l → ownerChanges st l.uid l.gid = true ∨ l.uid = 0 ∧ l.gid = 0) ∧
    (l.type = .f ∨ l.type = .a → command = plus ∨ present = true)

section

variable {σ : Type} {os : Os σ} {cfg : LapplyConfig} {w w' : World σ}

/-! ## Steps that returned -/

theorem runIf_ok {c : Bool} {x : Lapply σ Unit} (h : runIf c x w = .ok () w') :
    c = true ∧ x w = .ok () w' ∨ c = false ∧ w' = w := by
  cases c with
  | true => exact .inl ⟨rfl, h⟩
  | false =>
    cases h
    exact .inr ⟨rfl, rfl⟩

theorem sys_ok {c : SysCall} {r : SysResult} (h : sys os c w = .ok r w') :
    r = (os.sys c w.os).1 ∧ w'.os = (os.sys c w.os).2 ∧ w'.st = w.st ∧ w'.buf = w.buf := by
  cases h
  exact ⟨rfl, rfl, rfl, rfl⟩

theorem sysOrFail_ok {c : SysCall} {path : CStr} (h : sysOrFail os c path w = .ok () w') :
    (os.sys c w.os).1 = .ok ∧ w'.os = (os.sys c w.os).2 ∧ w'.st = w.st ∧ w'.buf = w.buf := by
  obtain ⟨r, w₁, hsys, hrest⟩ := bind_eq_ok h
  obtain ⟨hr, hos, hst, hbuf⟩ := sys_ok hsys
  rcases runIf_ok hrest with ⟨-, hthrow⟩ | ⟨hok, rfl⟩
  · cases hthrow
  · exact ⟨hr ▸ of_not_not (of_decide_eq_false hok), hos, hst, hbuf⟩

/-- The `struct stat` and the buffer are the same. -/
def SameVars (w w' : World σ) : Prop := w'.st = w.st ∧ w'.buf = w.buf

instance : Std.Refl (@SameVars σ) := ⟨fun _ => ⟨rfl, rfl⟩⟩

instance : IsTrans (World σ) SameVars := ⟨fun _ _ _ h h' => ⟨h'.1.trans h.1, h'.2.trans h.2⟩⟩

theorem coversCalls_sameVars : CoversCalls os SameVars := fun _ _ => ⟨rfl, rfl⟩

/-- A call that succeeded in the end was made in some state, and left the last one. -/
theorem tryPrefix_ok {c : SysCall} {path : CStr} (h : tryPrefix os cfg c path w = .ok true w') :
    (∃ s, (os.sys c s).1 = .ok ∧ w'.os = (os.sys c s).2) ∧ w'.st = w.st ∧ w'.buf = w.buf := by
  have hvars : SameVars w w' := by
    have hkeeps := tryPrefix_keeps (@coversCalls_sameVars σ os) cfg c path w
    rw [h] at hkeeps
    exact hkeeps
  refine ⟨?_, hvars.1, hvars.2⟩
  obtain ⟨r, w₁, hsys, hrest⟩ := bind_eq_ok h
  obtain ⟨hr, hos, -, -⟩ := sys_ok hsys
  cases r with
  | ok =>
    cases hrest
    exact ⟨w.os, hr.symm, hos⟩
  | failed => cases hrest
  | enoent =>
    simp only at hrest
    split at hrest
    · obtain ⟨ok, w₂, -, hrest⟩ := bind_eq_ok hrest
      split at hrest
      · obtain ⟨r, w₃, hsys, hrest⟩ := bind_eq_ok hrest
        obtain ⟨hr, hos, -, -⟩ := sys_ok hsys
        injection hrest with hrok hw
        subst hw
        exact ⟨w₂.os, hr ▸ of_decide_eq_true hrok, hos⟩
      · cases hrest
    · cases hrest

theorem sysPrefix_ok {c : SysCall} {path : CStr} (h : sysPrefix os cfg c path w = .ok () w') :
    (∃ s, (os.sys c s).1 = .ok ∧ w'.os = (os.sys c s).2) ∧ w'.st = w.st ∧ w'.buf = w.buf := by
  obtain ⟨ok, w₁, htry, hrest⟩ := bind_eq_ok h
  rcases runIf_ok hrest with ⟨-, hthrow⟩ | ⟨hok, rfl⟩
  · cases hthrow
  · rw [Bool.not_eq_false'] at hok
    subst hok
    exact tryPrefix_ok htry

theorem radstatOrFail_ok {path : CStr} (h : radstatOrFail os path w = .ok () w') :
    ∃ st, os.lstat w.os path = .found st ∧ w' = { w with st := st } := by
  obtain ⟨r, w₁, hrad, hrest⟩ := bind_eq_ok h
  unfold radstat at hrad
  cases hlstat : os.lstat w.os path with
  | found st =>
    rw [hlstat] at hrad
    cases hrad
    cases hrest
    exact ⟨st, rfl, rfl⟩
  | enoent =>
    rw [hlstat] at hrad
    cases hrad
    cases hrest
  | enotdir =>
    rw [hlstat] at hrad
    cases hrad
    cases hrest
  | failed =>
    rw [hlstat] at hrad
    cases hrad
    cases hrest

theorem lstatInto_ok {path : CStr} (h : lstatInto os path w = .ok () w') :
    ∃ st, os.lstat w.os path = .found st ∧ w' = { w with st := st } := by
  unfold lstatInto at h
  cases hlstat : os.lstat w.os path with
  | found st =>
    rw [hlstat] at h
    cases h
    exact ⟨st, rfl, rfl⟩
  | enoent =>
    rw [hlstat] at h
    cases h
  | enotdir =>
    rw [hlstat] at h
    cases h
  | failed =>
    rw [hlstat] at h
    cases h

theorem decodeArg_ok {tooLong : Nat → Failure} {word : Option (List Byte)} {path : CStr}
    (h : decodeArg tooLong word w = .ok path w') :
    ∃ mem buf, word = some mem ∧ decode w.buf mem = (some path, buf) ∧
      w' = { w with buf := buf } := by
  unfold decodeArg at h
  cases word with
  | none => cases h
  | some mem =>
    simp only at h
    split at h
    · cases h
    · next path' buf hdecode =>
      cases h
      exact ⟨mem, buf, rfl, hdecode, rfl⟩

end

/-! ## The owner and the mode -/

/-- What `update` makes of an object, with the calls that are needed. -/
def Stat.owned (st : Stat) (mode uid gid : BitVec 32) : Stat :=
  let st' := if ownerChanges st uid gid then st.chown uid gid else st
  if modeChanges st mode uid gid then st'.chmod mode else st'

section

variable {st : Stat} {mode uid gid : BitVec 32}

theorem Stat.chmod_uid (st : Stat) (mode : BitVec 32) : (st.chmod mode).stUid = st.stUid := rfl
theorem Stat.chmod_gid (st : Stat) (mode : BitVec 32) : (st.chmod mode).stGid = st.stGid := rfl

/-- Clearing bits of the mode leaves the type. -/
theorem Stat.fileType_chown : (st.chown uid gid).fileType = st.fileType := by
  have hmask : st.stMode &&& ~~~setIdBits &&& 0o170000 = st.stMode &&& 0o170000 := by
    rw [BitVec.and_assoc]
    congr 1
  unfold Stat.fileType Stat.chown
  simp only [hmask]

theorem Stat.chmod_mode (st : Stat) (mode : BitVec 32) :
    (st.chmod mode).stMode &&& tMode = mode &&& tMode := by
  have hclear : st.stMode &&& ~~~tMode &&& tMode = 0#32 := by
    rw [BitVec.and_assoc, show ~~~tMode &&& tMode = 0#32 from by decide, BitVec.and_zero]
  have hset : mode &&& tMode &&& tMode = mode &&& tMode := by
    rw [BitVec.and_assoc, BitVec.and_self]
  show (st.stMode &&& ~~~tMode ||| mode &&& tMode) &&& tMode = _
  rw [BitVec.and_comm, BitVec.and_or_distrib_left, BitVec.and_comm tMode, BitVec.and_comm tMode,
    hclear, hset, BitVec.zero_or]

/-- The owner is the listed one just where it can be set. -/
theorem Stat.owned_owner (hst : st.stUid ≠ noId ∧ st.stGid ≠ noId) :
    ((st.owned mode uid gid).stUid = uid ∧ (st.owned mode uid gid).stGid = gid) ↔
      uid ≠ noId ∧ gid ≠ noId := by
  have hmode : ∀ st' : Stat, (if modeChanges st mode uid gid then st'.chmod mode else st').stUid =
      st'.stUid ∧ (if modeChanges st mode uid gid then st'.chmod mode else st').stGid = st'.stGid := by
    intro st'
    split
    · exact ⟨rfl, rfl⟩
    · exact ⟨rfl, rfl⟩
  rw [Stat.owned, (hmode _).1, (hmode _).2]
  by_cases hchanges : ownerChanges st uid gid = true
  · rw [if_pos hchanges]
    show ((if uid = noId then st.stUid else uid) = uid ∧
      (if gid = noId then st.stGid else gid) = gid) ↔ _
    constructor
    · rintro ⟨huid, hgid⟩
      constructor
      · rintro rfl
        rw [if_pos rfl] at huid
        exact hst.1 huid
      · rintro rfl
        rw [if_pos rfl] at hgid
        exact hst.2 hgid
    · rintro ⟨huid, hgid⟩
      exact ⟨if_neg huid, if_neg hgid⟩
  · rw [if_neg hchanges]
    rw [ownerChanges, Bool.or_eq_true, not_or, decide_eq_true_iff, decide_eq_true_iff, not_not,
      not_not] at hchanges
    obtain ⟨rfl, rfl⟩ := hchanges
    exact ⟨fun _ => hst, fun _ => ⟨rfl, rfl⟩⟩

theorem Stat.owned_mode : (st.owned mode uid gid).stMode &&& tMode = mode &&& tMode := by
  unfold Stat.owned
  by_cases hmode : modeChanges st mode uid gid = true
  · rw [if_pos hmode]
    exact Stat.chmod_mode _ mode
  · rw [if_neg hmode]
    rw [modeChanges, Bool.or_eq_true, not_or, decide_eq_true_iff, not_not, Bool.and_eq_true,
      decide_eq_true_iff, not_and, not_not] at hmode
    obtain ⟨hlisted, hsetid⟩ := hmode
    have hself : mode &&& tMode = st.stMode &&& tMode := by
      rw [hlisted, BitVec.and_comm tMode, BitVec.and_assoc, BitVec.and_self]
    by_cases hchanges : ownerChanges st uid gid = true
    · -- nothing that `chown` clears is listed
      rw [if_pos hchanges]
      show st.stMode &&& ~~~setIdBits &&& tMode = _
      have hkeep : mode &&& ~~~setIdBits = mode := by
        have hsplit : mode &&& (setIdBits ||| ~~~setIdBits) = mode := by
          rw [show setIdBits ||| ~~~setIdBits = BitVec.allOnes 32 from by decide,
            BitVec.and_allOnes]
        have hclear : mode &&& setIdBits = 0#32 := hsetid hchanges
        rwa [BitVec.and_or_distrib_left, hclear, BitVec.zero_or] at hsplit
      rw [BitVec.and_assoc, BitVec.and_comm (~~~setIdBits), ← BitVec.and_assoc, ← hself,
        BitVec.and_assoc, BitVec.and_comm tMode, ← BitVec.and_assoc, hkeep]
    · rw [if_neg hchanges]
      exact hself.symm

theorem Stat.owned_rest : (st.owned mode uid gid).stMtime = st.stMtime ∧
    (st.owned mode uid gid).stRdev = st.stRdev := by
  unfold Stat.owned
  simp only
  split
  · split
    · exact ⟨rfl, rfl⟩
    · exact ⟨rfl, rfl⟩
  · split
    · exact ⟨rfl, rfl⟩
    · exact ⟨rfl, rfl⟩

end

/-! ## The cases of update -/

section

variable {σ : Type} {os : ObjectOs σ} {cfg : LapplyConfig} {w w' : World σ} {path : CStr} {st : Stat}
  {mode uid gid : BitVec 32}

/-- The owner and the mode are the same. -/
def Stat.SameOwner (st st' : Stat) : Prop :=
  st'.stUid = st.stUid ∧ st'.stGid = st.stGid ∧ st'.stMode = st.stMode

/-- The end of `update`, on an object whose owner and mode are known. -/
theorem updateOwner_ok {r : Updated} (hst : st.SameOwner w.st)
    (hobject : os.lstat w.os path = .found st) (htype : st.fileType ≠ some .l)
    (h : updateOwner os.toOs path mode uid gid w = .ok r w') :
    os.lstat w'.os path = .found (st.owned mode uid gid) := by
  obtain ⟨st₀, w₁, hcurrent, hrest⟩ := bind_eq_ok h
  cases hcurrent
  have howner : ownerChanges w.st uid gid = ownerChanges st uid gid := by
    rw [ownerChanges, ownerChanges, hst.1, hst.2.1]
  have hmode : modeChanges w.st mode uid gid = modeChanges st mode uid gid := by
    rw [modeChanges, modeChanges, howner, hst.2.2]
  rw [howner, hmode] at hrest
  obtain ⟨_, w₁, hchown, hrest⟩ := bind_eq_ok hrest
  obtain ⟨_, w₂, hchmod, hrest⟩ := bind_eq_ok hrest
  cases hrest
  have hfirst : ∃ st₁, os.lstat w₁.os path = .found st₁ ∧ st₁.fileType = st.fileType ∧
      st₁ = if ownerChanges st uid gid then st.chown uid gid else st := by
    rcases runIf_ok hchown with ⟨hc, hcall⟩ | ⟨hc, rfl⟩
    · obtain ⟨hok, hos, -, -⟩ := sysOrFail_ok hcall
      rw [hos, hc]
      exact ⟨_, os.chown_ok _ _ _ _ _ hobject htype hok, Stat.fileType_chown, rfl⟩
    · rw [hc]
      exact ⟨st, hobject, rfl, rfl⟩
  obtain ⟨st₁, hobject₁, htype₁, hst₁⟩ := hfirst
  rw [Stat.owned, ← hst₁]
  rcases runIf_ok hchmod with ⟨hc, hcall⟩ | ⟨hc, rfl⟩
  · obtain ⟨hok, hos, -, -⟩ := sysOrFail_ok hcall
    rw [hos, hc]
    exact os.chmod_ok _ _ _ _ hobject₁ (by rw [htype₁]; exact htype) hok
  · rw [hc]
    exact hobject₁

/-- Without an object no call succeeds, and nothing is made. -/
theorem updateOwner_missing {r : Updated} (hnone : ∀ st, os.lstat w.os path ≠ .found st)
    (h : updateOwner os.toOs path mode uid gid w = .ok r w') : w'.os = w.os := by
  obtain ⟨st₀, w₁, hcurrent, hrest⟩ := bind_eq_ok h
  cases hcurrent
  obtain ⟨_, w₁, hchown, hrest⟩ := bind_eq_ok hrest
  obtain ⟨_, w₂, hchmod, hrest⟩ := bind_eq_ok hrest
  cases hrest
  rcases runIf_ok hchown with ⟨-, hcall⟩ | ⟨-, rfl⟩
  · exact absurd (sysOrFail_ok hcall).1 ((os.missing _ _ hnone).2.1 _ _)
  rcases runIf_ok hchmod with ⟨-, hcall⟩ | ⟨-, rfl⟩
  · exact absurd (sysOrFail_ok hcall).1 ((os.missing _ _ hnone).2.2 _)
  · rfl

/-- Some object was found there. -/
def SeenAt (os : ObjectOs σ) (path : CStr) (st : Stat) : Prop := ∃ s, os.lstat s path = .found st

/-- The end of `update` on an object of which the rest is as listed. -/
theorem applied_owned {s : σ} {l : Attributes} (hobject : os.lstat s l.path =
    .found (st.owned mode l.uid l.gid)) (hseen : SeenAt os path st)
    (hmode : ∀ m, l.mode = some m → mode &&& tMode = m &&& tMode)
    (hmtime : ∀ t, l.mtime = some t → st.stMtime = t) (htarget : l.target = none)
    (hdevice : ∀ maj min, l.device = some (maj, min) →
      major st.stRdev = maj ∧ minor st.stRdev = min) :
    HasAttributes os s l ↔ l.uid ≠ noId ∧ l.gid ≠ noId := by
  obtain ⟨s₀, hs₀⟩ := hseen
  have howner := @Stat.owned_owner st mode l.uid l.gid (os.owned _ _ _ hs₀)
  constructor
  · rintro ⟨st', hst', huid, hgid, -⟩
    rw [hobject] at hst'
    cases hst'
    exact howner.mp ⟨huid, hgid⟩
  · intro hids
    obtain ⟨huid, hgid⟩ := howner.mpr hids
    refine ⟨_, hobject, huid, hgid, fun m hm => ?_, fun t ht => ?_, fun t ht => ?_, ?_⟩
    · rw [Stat.owned_mode]
      exact hmode m hm
    · rw [Stat.owned_rest.1]
      exact hmtime t ht
    · rw [htarget] at ht
      cases ht
    · intro maj min hm
      rw [Stat.owned_rest.2]
      exact hdevice maj min hm

/-- The cases 'a' and 'f', on a file that `st` is about. -/
theorem updateFile_ok {r : Updated} {type name modeWord uidWord gidWord mtime size cksum : List Byte}
    (hobject : os.lstat w.os path = .found w.st) (htype : w.st.fileType ≠ some .l)
    (h : updateFile os.toOs path
      [type, name, modeWord, uidWord, gidWord, mtime, size, cksum] w = .ok r w') :
    ∃ st, SeenAt os path st ∧ st.stMtime = BitVec.ofInt 64 (strtol 10 (cstr mtime)) ∧
      os.lstat w'.os path =
        .found (st.owned (lineMode modeWord) (lineId uidWord) (lineId gidWord)) := by
  obtain ⟨st₀, w₁, hcurrent, hrest⟩ := bind_eq_ok h
  cases hcurrent
  obtain ⟨_, w₁, hutime, howner⟩ := bind_eq_ok hrest
  rcases runIf_ok hutime with ⟨-, hcall⟩ | ⟨hc, rfl⟩
  · obtain ⟨hok, hos, hst, -⟩ := sysOrFail_ok hcall
    have hnew := os.utime_ok _ _ _ _ hobject htype hok
    rw [← hos] at hnew
    refine ⟨_, ⟨_, hnew⟩, rfl, updateOwner_ok ?_ hnew htype howner⟩
    rw [hst]
    exact ⟨rfl, rfl, rfl⟩
  · refine ⟨w₁.st, ⟨_, hobject⟩, ?_, updateOwner_ok ⟨rfl, rfl, rfl⟩ hobject htype howner⟩
    exact (of_not_not (of_decide_eq_false hc)).symm

/-- Without a file nothing is made. -/
theorem updateFile_missing {r : Updated}
    {type name modeWord uidWord gidWord mtime size cksum : List Byte}
    (hnone : ∀ st, os.lstat w.os path ≠ .found st)
    (h : updateFile os.toOs path
      [type, name, modeWord, uidWord, gidWord, mtime, size, cksum] w = .ok r w') :
    w'.os = w.os := by
  obtain ⟨st₀, w₁, hcurrent, hrest⟩ := bind_eq_ok h
  cases hcurrent
  obtain ⟨_, w₁, hutime, howner⟩ := bind_eq_ok hrest
  rcases runIf_ok hutime with ⟨-, hcall⟩ | ⟨-, rfl⟩
  · exact absurd (sysOrFail_ok hcall).1 ((os.missing _ _ hnone).1 _)
  · exact updateOwner_missing hnone howner

/-- What is created is looked at again. -/
theorem createNode_ok {c : SysCall} (h : createNode os.toOs cfg c path w = .ok () w') :
    (∃ s, (os.sys c s).1 = .ok ∧ w'.os = (os.sys c s).2) ∧ os.lstat w'.os path = .found w'.st := by
  obtain ⟨_, w₁, hcall, hlstat⟩ := bind_eq_ok h
  obtain ⟨st, hfound, rfl⟩ := lstatInto_ok hlstat
  exact ⟨(sysPrefix_ok hcall).1, hfound⟩

theorem createDir_ok (h : createDir os.toOs cfg path mode w = .ok () w') :
    (∃ s, (os.sys (.mkdir path mode) s).1 = .ok ∧ w'.os = (os.sys (.mkdir path mode) s).2) ∧
      os.lstat w'.os path = .found w'.st := by
  obtain ⟨_, w₁, hcall, hradstat⟩ := bind_eq_ok h
  obtain ⟨st, hfound, rfl⟩ := radstatOrFail_ok hradstat
  exact ⟨(sysPrefix_ok hcall).1, hfound⟩

/-- The object `update` goes on with: the one that was there, or the one it created. -/
def Standing (os : ObjectOs σ) (path : CStr) (w : World σ) : Prop :=
  os.lstat w.os path = .found w.st ∧ w.st.fileType ≠ some .l

theorem updateDir_ok {r : Updated} {present : Bool} {type name modeWord uidWord gidWord : List Byte}
    (hpresent : present = true → Standing os path w)
    (h : updateDir os.toOs cfg path present [type, name, modeWord, uidWord, gidWord] w = .ok r w') :
    ∃ st, SeenAt os path st ∧ os.lstat w'.os path =
      .found (st.owned (lineMode modeWord) (lineId uidWord) (lineId gidWord)) := by
  obtain ⟨_, w₁, hcreate, hrest⟩ := bind_eq_ok h
  have hstanding : Standing os path w₁ := by
    rcases runIf_ok hcreate with ⟨-, hcreate⟩ | ⟨hc, rfl⟩
    · obtain ⟨⟨s, hok, hos⟩, hfound⟩ := createDir_ok hcreate
      obtain ⟨st, hst, htype⟩ := os.mkdir_ok _ _ _ hok
      rw [← hos, hfound] at hst
      cases hst
      exact ⟨hfound, htype⟩
    · exact hpresent (by simpa using hc)
  exact ⟨w₁.st, ⟨_, hstanding.1⟩, updateOwner_ok ⟨rfl, rfl, rfl⟩ hstanding.1 hstanding.2 hrest⟩

theorem updatePipe_ok {r : Updated} {present : Bool} {type name modeWord uidWord gidWord : List Byte}
    (hpresent : present = true → Standing os path w)
    (h : updatePipe os.toOs cfg path present [type, name, modeWord, uidWord, gidWord] w = .ok r w') :
    ∃ st, SeenAt os path st ∧ os.lstat w'.os path =
      .found (st.owned (lineMode modeWord ||| 0o010000) (lineId uidWord) (lineId gidWord)) := by
  obtain ⟨_, w₁, hcreate, hrest⟩ := bind_eq_ok h
  have hstanding : Standing os path w₁ := by
    rcases runIf_ok hcreate with ⟨-, hcreate⟩ | ⟨hc, rfl⟩
    · obtain ⟨⟨s, hok, hos⟩, hfound⟩ := createNode_ok hcreate
      obtain ⟨st, hst, htype⟩ := os.mkfifo_ok _ _ _ hok
      rw [← hos, hfound] at hst
      cases hst
      exact ⟨hfound, htype⟩
    · exact hpresent (by simpa using hc)
  exact ⟨w₁.st, ⟨_, hstanding.1⟩, updateOwner_ok ⟨rfl, rfl, rfl⟩ hstanding.1 hstanding.2 hrest⟩

theorem major_minor_makedev (maj min : BitVec 32) :
    major (makedev maj min) = maj ∧ minor (makedev maj min) = min := by
  constructor
  · refine BitVec.eq_of_getLsbD_eq fun i hi => ?_
    simp only [makedev, major, BitVec.getLsbD_append, BitVec.getLsbD_extractLsb']
    grind
  · refine BitVec.eq_of_getLsbD_eq fun i hi => ?_
    simp only [makedev, minor, BitVec.getLsbD_append, BitVec.getLsbD_extractLsb']
    grind

/-- A device that is another one is made anew. -/
theorem updateDevice_ok {r : Updated} {bits : BitVec 32} {present : Bool}
    {type name modeWord uidWord gidWord maj min : List Byte}
    (hpresent : present = true → Standing os path w)
    (h : updateDevice os.toOs cfg bits path present
      [type, name, modeWord, uidWord, gidWord, maj, min] w = .ok r w') :
    ∃ st mode, SeenAt os path st ∧ (mode = lineMode modeWord ∨ mode = lineMode modeWord ||| bits) ∧
      (major st.stRdev = atoi (cstr maj) ∧ minor st.stRdev = atoi (cstr min)) ∧
      os.lstat w'.os path = .found (st.owned mode (lineId uidWord) (lineId gidWord)) := by
  obtain ⟨st₀, w₁, hcurrent, hrest⟩ := bind_eq_ok h
  cases hcurrent
  obtain ⟨_, w₁, hunlink, hcalls⟩ := bind_eq_ok hrest
  obtain ⟨_, w₂, hcreate, howner⟩ := bind_eq_ok hcalls
  rcases runIf_ok hcreate with ⟨-, hcreate⟩ | ⟨hc, rfl⟩
  · obtain ⟨⟨s, hok, hos⟩, hfound⟩ := createNode_ok hcreate
    obtain ⟨st, hst, htype, hdev⟩ := os.mknod_ok _ _ _ _ hok
    rw [← hos, hfound] at hst
    cases hst
    refine ⟨w₂.st, _, ⟨_, hfound⟩, ?_, ?_, updateOwner_ok ⟨rfl, rfl, rfl⟩ hfound htype howner⟩
    · split
      · exact .inl rfl
      · exact .inr rfl
    · rw [hdev]
      exact major_minor_makedev _ _
  · rw [Bool.not_eq_false', Bool.and_eq_true, Bool.not_eq_true', Bool.or_eq_false_iff,
      decide_eq_false_iff_not, decide_eq_false_iff_not, not_not, not_not] at hc
    obtain ⟨hthere, hminor, hmajor⟩ := hc
    obtain ⟨hfound, htype⟩ := hpresent hthere
    rcases runIf_ok hunlink with ⟨hother, -⟩ | ⟨-, rfl⟩
    · rw [Bool.and_eq_true, Bool.or_eq_true, decide_eq_true_iff, decide_eq_true_iff] at hother
      rcases hother.2 with hno | hno
      · exact absurd hminor hno
      · exact absurd hmajor hno
    · refine ⟨w₂.st, _, ⟨_, hfound⟩, ?_, ⟨hmajor, hminor⟩,
        updateOwner_ok ⟨rfl, rfl, rfl⟩ hfound htype howner⟩
      split
      · exact .inl rfl
      · exact .inr rfl

/-- A new symbolic link belongs to root, and `lchown` is left out where `st` says so. -/
theorem updateLink_ok {r : Updated} {present : Bool} {target : List Byte}
    (hlchown : cfg.haveLchown = true)
    (h : updateLink os.toOs cfg path present mode uid gid target w = .ok r w') :
    ∃ st d_target, (decode w.buf target).1 = some d_target ∧ os.lstat w'.os path = .found st ∧
      os.readlink w'.os path = some d_target ∧
      (st.stUid = uid ∧ st.stGid = gid ↔
        (uid ≠ noId ∧ gid ≠ noId) ∧ (ownerChanges w.st uid gid = true ∨ uid = 0 ∧ gid = 0)) := by
  obtain ⟨_, w₁, hunlink, h₁⟩ := bind_eq_ok h
  have hvars : w₁.st = w.st ∧ w₁.buf = w.buf := by
    rcases runIf_ok hunlink with ⟨-, hcall⟩ | ⟨-, rfl⟩
    · exact (sysOrFail_ok hcall).2.2
    · exact ⟨rfl, rfl⟩
  obtain ⟨d_target, w₂, hdecode, h₂⟩ := bind_eq_ok h₁
  obtain ⟨mem, buf, hmem, htarget, rfl⟩ := decodeArg_ok hdecode
  cases hmem
  obtain ⟨_, w₃, hsymlink, h₃⟩ := bind_eq_ok h₂
  obtain ⟨⟨s, hok, hos⟩, hst, -⟩ := sysPrefix_ok hsymlink
  obtain ⟨⟨st, hfound, huid, hgid⟩, hreadlink⟩ := os.symlink_ok _ _ _ hok
  rw [← hos] at hfound hreadlink
  obtain ⟨st₀, w₄, hcurrent, h₄⟩ := bind_eq_ok h₃
  cases hcurrent
  have hzero : (0 : BitVec 32) ≠ noId := by decide
  rw [hst, hlchown, Bool.true_and] at h₄
  simp only [hvars.1] at h₄
  rw [hvars.2] at htarget
  have htarget : (decode w.buf target).1 = some d_target := congrArg Prod.fst htarget
  obtain ⟨_, w₅, hchown, h₅⟩ := bind_eq_ok h₄
  obtain ⟨_, w₆, hchmod, h₆⟩ := bind_eq_ok h₅
  cases h₆
  -- the owner after `lchown`, where it is called
  have howned : ∃ st₁, os.lstat w₅.os path = .found st₁ ∧
      os.readlink w₅.os path = some d_target ∧ (st₁.stUid = uid ∧ st₁.stGid = gid ↔
        (uid ≠ noId ∧ gid ≠ noId) ∧ (ownerChanges w.st uid gid = true ∨ uid = 0 ∧ gid = 0)) := by
    rcases runIf_ok hchown with ⟨hc, hcall⟩ | ⟨hc, rfl⟩
    · obtain ⟨hok, hos, -, -⟩ := sysOrFail_ok hcall
      obtain ⟨⟨st₁, hfound₁, huid₁, hgid₁⟩, hreadlink₁⟩ := os.lchown_ok _ _ _ _ _ hfound hok
      rw [← hos] at hfound₁ hreadlink₁
      refine ⟨st₁, hfound₁, hreadlink₁.trans hreadlink, ?_⟩
      rw [huid₁, hgid₁, hc]
      show ((if uid = noId then st.stUid else uid) = uid ∧
        (if gid = noId then st.stGid else gid) = gid) ↔ _
      rw [huid, hgid]
      constructor
      · rintro ⟨hu, hg⟩
        refine ⟨⟨?_, ?_⟩, .inl rfl⟩
        · rintro rfl
          rw [if_pos rfl] at hu
          exact hzero hu
        · rintro rfl
          rw [if_pos rfl] at hg
          exact hzero hg
      · rintro ⟨⟨hu, hg⟩, -⟩
        exact ⟨if_neg hu, if_neg hg⟩
    · refine ⟨st, hfound, hreadlink, ?_⟩
      rw [huid, hgid, hc]
      constructor
      · rintro ⟨rfl, rfl⟩
        exact ⟨⟨hzero, hzero⟩, .inr ⟨rfl, rfl⟩⟩
      · rintro ⟨-, hchange | ⟨rfl, rfl⟩⟩
        · cases hchange
        · exact ⟨rfl, rfl⟩
  obtain ⟨st₁, hfound₁, hreadlink₁, howner⟩ := howned
  rcases runIf_ok hchmod with ⟨-, hcall⟩ | ⟨-, rfl⟩
  · obtain ⟨hok, hos, -, -⟩ := sysOrFail_ok hcall
    obtain ⟨⟨st₂, hfound₂, huid₂, hgid₂⟩, hreadlink₂⟩ := os.lchmod_ok _ _ _ _ hfound₁ hok
    rw [← hos] at hfound₂ hreadlink₂
    refine ⟨st₂, d_target, htarget, hfound₂, hreadlink₂.trans hreadlink₁, ?_⟩
    rw [huid₂, hgid₂]
    exact howner
  · exact ⟨st₁, d_target, htarget, hfound₁, hreadlink₁, howner⟩

/-- A file that is retrieved stands at its temporary name. -/
theorem retrFile_ok {temppath temppath' trancksum : CStr} {size : Int}
    (hfound : os.lstat w.os temppath = .found st) (htype : st.fileType ≠ some .l)
    (h : retrFile os.toOs cfg temppath size trancksum w = .ok (.file temppath') w') :
    temppath' = temppath ∧ ∃ st', os.lstat w'.os temppath = .found st' ∧ st'.fileType ≠ some .l := by
  obtain ⟨received, w₁, hreceive, h₁⟩ := bind_eq_ok h
  obtain ⟨-, hos₁, -, -⟩ := sys_ok hreceive
  obtain ⟨st₁, hfound₁, htype₁⟩ := os.receive_kept w.os temppath size st hfound htype
  rw [← hos₁] at hfound₁
  have hdrop : ∀ {r : Retrieved} {w₀ w₀' : World σ}, (∀ t, r ≠ .file t) →
      dropTemp os.toOs temppath r w₀ ≠ .ok (.file temppath') w₀' := by
    intro r w₀ w₀' hr hdrop
    obtain ⟨_, _, -, hreturn⟩ := bind_eq_ok hdrop
    injection hreturn with hr'
    exact hr _ hr'
  split at h₁
  · obtain ⟨_, _, -, h₂⟩ := bind_eq_ok h₁
    exact absurd h₂ (hdrop fun t => nofun)
  obtain ⟨closed, w₂, hclose, h₂⟩ := bind_eq_ok h₁
  obtain ⟨-, hos₂, -, -⟩ := sys_ok hclose
  split at h₂
  · exact absurd h₂ (hdrop fun t => nofun)
  obtain ⟨dot, w₃, htrailer, h₃⟩ := bind_eq_ok h₂
  have hfound₃ : os.lstat w₃.os temppath = .found st₁ := by
    cases htrailer
    show os.lstat (os.trailer w₂.os).2 temppath = _
    rw [os.trailer_kept, hos₂, os.close_kept]
    exact hfound₁
  split at h₃
  · exact absurd h₃ (hdrop fun t => nofun)
  obtain ⟨sum, w₄, hdigest, h₄⟩ := bind_eq_ok h₃
  cases hdigest
  split at h₄
  · exact absurd h₄ (hdrop fun t => nofun)
  · cases h₄
    exact ⟨rfl, st₁, hfound₃, htype₁⟩

theorem retr_ok {line : Nat} {desc temppath trancksum : CStr} {tempmode : BitVec 32} {transize : Int}
    (h : retr os.toOs cfg line desc path tempmode transize trancksum w = .ok (.file temppath) w') :
    ∃ st, os.lstat w'.os temppath = .found st ∧ st.fileType ≠ some .l := by
  unfold retr at h
  split at h
  · cases h
  obtain ⟨answer, w₁, -, h₁⟩ := bind_eq_ok h
  cases answer with
  | lost => cases h₁
  | refused => cases h₁
  | size size =>
    simp only at h₁
    split at h₁
    · cases h₁
    split at h₁
    · cases h₁
    obtain ⟨ok, w₂, hopen, h₂⟩ := bind_eq_ok h₁
    cases ok with
    | false => cases h₂
    | true =>
      obtain ⟨⟨s, hok, hos⟩, -, -⟩ := tryPrefix_ok hopen
      obtain ⟨st, hfound, htype⟩ := os.openTemp_ok _ _ _ hok
      rw [← hos] at hfound
      obtain ⟨rfl, hlast⟩ := retrFile_ok hfound htype h₂
      exact hlast

/-- What a line lists, by its type and the number of its words. -/
theorem wordsAttributes_cases {type : FileType} {buf : List Byte} {words : List (List Byte)} {l : Attributes}
    (h : wordsAttributes type path buf words = some l) :
    (∃ m u g t s c, (type = .f ∨ type = .a) ∧ words = [m, u, g, t, s, c] ∧
      l = ⟨type, path, lineId u, lineId g, some (lineMode m),
        some (BitVec.ofInt 64 (strtol 10 (cstr t))), none, none⟩) ∨
    (∃ m u g, (type = .d ∨ type = .p) ∧ words = [m, u, g] ∧
      l = ⟨type, path, lineId u, lineId g, some (lineMode m), none, none, none⟩) ∨
    (∃ m u g maj min, (type = .b ∨ type = .c) ∧ words = [m, u, g, maj, min] ∧
      l = ⟨type, path, lineId u, lineId g, some (lineMode m), none, none,
        some (atoi (cstr maj), atoi (cstr min))⟩) ∨
    type = .l ∧ ∃ t d_target, (decode buf t).1 = some d_target ∧
      ((words = [t] ∧ l = ⟨type, path, 0, 0, none, none, some d_target, none⟩) ∨
        ∃ m u g, words = [m, u, g, t] ∧
          l = ⟨type, path, lineId u, lineId g, none, none, some d_target, none⟩) := by
  unfold wordsAttributes at h
  split at h
  · cases h
    exact .inl ⟨_, _, _, _, _, _, .inl rfl, rfl, rfl⟩
  · cases h
    exact .inl ⟨_, _, _, _, _, _, .inr rfl, rfl, rfl⟩
  · cases h
    exact .inr (.inl ⟨_, _, _, .inl rfl, rfl, rfl⟩)
  · cases h
    exact .inr (.inl ⟨_, _, _, .inr rfl, rfl, rfl⟩)
  · cases h
    exact .inr (.inr (.inl ⟨_, _, _, _, _, .inl rfl, rfl, rfl⟩))
  · cases h
    exact .inr (.inr (.inl ⟨_, _, _, _, _, .inr rfl, rfl, rfl⟩))
  · obtain ⟨d_target, htarget, rfl⟩ := Option.map_eq_some_iff.mp h
    exact .inr (.inr (.inr ⟨rfl, _, d_target, htarget, .inl ⟨rfl, rfl⟩⟩))
  · obtain ⟨d_target, htarget, rfl⟩ := Option.map_eq_some_iff.mp h
    exact .inr (.inr (.inr ⟨rfl, _, d_target, htarget, .inr ⟨_, _, _, rfl, rfl⟩⟩))
  · cases h

/-- `update`, on what is said to be there. -/
theorem update_applies_iff {r : Updated} {present : Bool} {command : Byte} {type : FileType}
    {typeWord pathWord : List Byte} {words : List (List Byte)} {l : Attributes}
    (hlchown : cfg.haveLchown = true) (hcommand : command ≠ plus)
    (htype : FileType.ofLetter (typeWord.headD nul) = some type)
    (hl : wordsAttributes type path w.buf words = some l)
    (hpresent : present = true → os.lstat w.os path = .found w.st ∧ w.st.fileType = some type)
    (habsent : present = false → ∀ st, os.lstat w.os path ≠ .found st)
    (h : update os.toOs cfg path present (typeWord :: pathWord :: words) w = .ok r w') :
    HasAttributes os w'.os l ↔ Applies w.st command present l := by
  unfold update at h
  simp only [List.headD_cons, htype] at h
  have hstanding : type ≠ .l → present = true → Standing os path w := by
    intro hne hthere
    obtain ⟨hfound, hfile⟩ := hpresent hthere
    exact ⟨hfound, by rw [hfile]; exact fun heq => hne (Option.some.inj heq)⟩
  have hcommon : ∀ l : Attributes, l.type ≠ .l → (l.type = .f ∨ l.type = .a → present = true) →
      (Applies w.st command present l ↔ l.uid ≠ noId ∧ l.gid ≠ noId) := by
    intro l hne hfile
    exact ⟨fun h => h.1, fun h => ⟨h, fun heq => absurd heq hne, fun hf => .inr (hfile hf)⟩⟩
  rcases wordsAttributes_cases hl with ⟨m, u, g, t, s, c, hfa, rfl, rfl⟩ | ⟨m, u, g, hdp, rfl, rfl⟩ |
    ⟨m, u, g, maj, min, hbc, rfl, rfl⟩ | ⟨rfl, t, d_target, htarget, hlink⟩
  · have hne : type ≠ .l := by
      rcases hfa with rfl | rfl
      · exact nofun
      · exact nofun
    have hupdate : updateFile os.toOs path [typeWord, pathWord, m, u, g, t, s, c] w = .ok r w' := by
      rcases hfa with rfl | rfl
      · exact h
      · exact h
    cases present with
    | true =>
      obtain ⟨hfound, hnolink⟩ := hstanding hne rfl
      obtain ⟨st, hseen, hmtime, hlast⟩ := updateFile_ok hfound hnolink hupdate
      rw [hcommon _ hne fun _ => rfl]
      refine applied_owned hlast hseen ?_ ?_ rfl nofun
      · rintro m' ⟨⟩
        rfl
      · rintro t' ⟨⟩
        exact hmtime
    | false =>
      have hos := updateFile_missing (habsent rfl) hupdate
      constructor
      · rintro ⟨st, hst, -⟩
        rw [hos] at hst
        exact absurd hst (habsent rfl st)
      · rintro ⟨-, -, hfile⟩
        rcases hfile hfa with hplus | hno
        · exact absurd hplus hcommand
        · cases hno
  · have hne : type ≠ .l ∧ type ≠ .f ∧ type ≠ .a := by
      rcases hdp with rfl | rfl
      · exact ⟨nofun, nofun, nofun⟩
      · exact ⟨nofun, nofun, nofun⟩
    rw [hcommon _ hne.1 (by rintro (hf | hf) <;> [exact absurd hf hne.2.1; exact absurd hf hne.2.2])]
    rcases hdp with rfl | rfl
    · obtain ⟨st, hseen, hlast⟩ := updateDir_ok (hstanding hne.1) h
      exact applied_owned hlast hseen (by rintro m' ⟨⟩; rfl) nofun rfl nofun
    · obtain ⟨st, hseen, hlast⟩ := updatePipe_ok (hstanding hne.1) h
      refine applied_owned hlast hseen ?_ nofun rfl nofun
      rintro m' ⟨⟩
      rw [BitVec.and_comm, BitVec.and_or_distrib_left, BitVec.and_comm tMode]
      show _ ||| 0#32 = _
      exact BitVec.or_zero
  · have hne : type ≠ .l ∧ type ≠ .f ∧ type ≠ .a := by
      rcases hbc with rfl | rfl
      · exact ⟨nofun, nofun, nofun⟩
      · exact ⟨nofun, nofun, nofun⟩
    rw [hcommon _ hne.1 (by rintro (hf | hf) <;> [exact absurd hf hne.2.1; exact absurd hf hne.2.2])]
    have hdevice : ∃ bits : BitVec 32, bits &&& tMode = 0#32 ∧ updateDevice os.toOs cfg bits path present
        [typeWord, pathWord, m, u, g, maj, min] w = .ok r w' := by
      rcases hbc with rfl | rfl
      · exact ⟨_, by decide, h⟩
      · exact ⟨_, by decide, h⟩
    obtain ⟨bits, hbits, hupdate⟩ := hdevice
    obtain ⟨st, mode, hseen, hmode, hdev, hlast⟩ := updateDevice_ok (hstanding hne.1) hupdate
    refine applied_owned hlast hseen ?_ nofun rfl ?_
    · rintro m' ⟨⟩
      rcases hmode with rfl | rfl
      · rfl
      · rw [BitVec.and_comm, BitVec.and_or_distrib_left, BitVec.and_comm tMode,
          BitVec.and_comm tMode, hbits, BitVec.or_zero]
    · rintro maj' min' ⟨⟩
      exact hdev
  · have hassemble : ∀ {mode uid gid : BitVec 32},
        updateLink os.toOs cfg path present mode uid gid t w = .ok r w' →
        (HasAttributes os w'.os ⟨.l, path, uid, gid, none, none, some d_target, none⟩ ↔
          Applies w.st command present ⟨.l, path, uid, gid, none, none, some d_target, none⟩) := by
      intro mode uid gid hupdate
      obtain ⟨st, d_target', htarget', hlast, hreadlink, howner⟩ := updateLink_ok hlchown hupdate
      rw [htarget] at htarget'
      cases htarget'
      constructor
      · rintro ⟨st', hst', huid, hgid, -⟩
        rw [hlast] at hst'
        cases hst'
        obtain ⟨hids, hroot⟩ := howner.mp ⟨huid, hgid⟩
        exact ⟨hids, fun _ => hroot, fun hf => by rcases hf with hf | hf <;> cases hf⟩
      · rintro ⟨hids, hroot, -⟩
        obtain ⟨huid, hgid⟩ := howner.mpr ⟨hids, hroot rfl⟩
        refine ⟨st, hlast, huid, hgid, nofun, nofun, ?_, nofun⟩
        rintro t' ⟨⟩
        exact hreadlink
    rcases hlink with ⟨rfl, rfl⟩ | ⟨m, u, g, rfl, rfl⟩
    · exact hassemble h
    · exact hassemble h

/-- A file that was retrieved takes the place of the old one, with the listed attributes. -/
theorem installFile_ok {present : Bool} {temppath : CStr}
    {typeWord pathWord m u g t s c : List Byte}
    (htype : FileType.ofLetter (typeWord.headD nul) = some .f)
    (htemp : ∃ st, os.lstat w.os temppath = .found st ∧ st.fileType ≠ some .l)
    (h : installFile os.toOs cfg temppath path present [typeWord, pathWord, m, u, g, t, s, c] w =
      .ok () w') :
    ∃ st, SeenAt os temppath st ∧ st.stMtime = BitVec.ofInt 64 (strtol 10 (cstr t)) ∧
      os.lstat w'.os path = .found (st.owned (lineMode m) (lineId u) (lineId g)) := by
  obtain ⟨st₀, hfound, hnolink⟩ := htemp
  obtain ⟨_, w₁, hradstat, h₁⟩ := bind_eq_ok h
  obtain ⟨st, hst, rfl⟩ := radstatOrFail_ok hradstat
  rw [hfound] at hst
  cases hst
  obtain ⟨r, w₂, hupdate, h₂⟩ := bind_eq_ok h₁
  unfold update at hupdate
  simp only [List.headD_cons, htype] at hupdate
  obtain ⟨st, hseen, hmtime, hlast⟩ := updateFile_ok hfound hnolink hupdate
  refine ⟨st, hseen, hmtime, ?_⟩
  cases r with
  | ok =>
    obtain ⟨hok, hos, -, -⟩ := sysOrFail_ok h₂
    rw [hos, os.rename_ok _ _ _ hok]
    exact hlast
  | notCreated =>
    -- only sockets and doors are not created
    exfalso
    obtain ⟨_, w₃, -, h₃⟩ := bind_eq_ok hupdate
    obtain ⟨_, w₄, -, h₄⟩ := bind_eq_ok h₃
    obtain ⟨_, w₅, -, h₅⟩ := bind_eq_ok h₄
    obtain ⟨_, w₆, -, h₆⟩ := bind_eq_ok h₅
    obtain ⟨_, w₇, -, h₇⟩ := bind_eq_ok h₆
    cases h₇

/-- A download of a file, of the type 'f' alone. -/
theorem download_ok {line : Nat} {tran : CStr} {present : Bool} {typeWord : List Byte}
    {words : List (List Byte)}
    (h : download os.toOs cfg line tran path present (typeWord :: words) w = .ok () w') :
    FileType.ofLetter (typeWord.headD nul) = some .f ∧ ∃ (temppath : CStr) (w₁ : World σ),
      (∃ st, os.lstat w₁.os temppath = .found st ∧ st.fileType ≠ some .l) ∧
      installFile os.toOs cfg temppath path present (typeWord :: words) w₁ = .ok () w' := by
  obtain ⟨linenum, w₁, hcurrent, h₁⟩ := bind_eq_ok h
  cases hcurrent
  obtain ⟨_, w₂, hletter, h₂⟩ := bind_eq_ok h₁
  rcases runIf_ok hletter with ⟨-, hthrow⟩ | ⟨hfa, rfl⟩
  · cases hthrow
  obtain ⟨_, w₃, hsum, h₃⟩ := bind_eq_ok h₂
  rcases runIf_ok hsum with ⟨-, hthrow⟩ | ⟨-, rfl⟩
  · cases hthrow
  obtain ⟨desc, w₄, -, h₄⟩ := bind_eq_ok h₃
  split at h₄
  · cases h₄
  next hno =>
  have hf : typeWord.headD nul = 102 := by
    by_contra hne
    exact of_decide_eq_false hfa ⟨hne, hno⟩
  obtain ⟨r, w₅, hretr, h₅⟩ := bind_eq_ok h₄
  refine ⟨by rw [hf]; rfl, ?_⟩
  cases r with
  | lost => cases h₅
  | refused => cases h₅
  | file temppath => exact ⟨temppath, w₅, retr_ok hretr, h₅⟩

end

/-- What main has found out before a line: an object of the type of the line is there, or none. -/
def Prepared {σ : Type} (os : ObjectOs σ) (s : σ) (present : Bool) (l : Attributes) : Prop :=
  if present then ∃ st, os.lstat s l.path = .found st ∧ st.fileType = some l.type
  else ∀ st, os.lstat s l.path ≠ .found st

/-- The `struct stat` that `update` works with: of the object, or the one passed where there is
none. -/
def statPassed {σ : Type} (os : ObjectOs σ) (w : World σ) (present : Bool) (path : CStr) : Stat :=
  match present, os.lstat w.os path with
  | true, .found st => st
  | _, _ => w.st

/-- Where `do_line` returns success, the object at the path has what the line lists just in the
cases of `Applies`. -/
theorem doLine_applies_iff {σ : Type} (os : ObjectOs σ) (cfg : LapplyConfig)
    (hlchown : cfg.haveLchown = true) {line : Nat} {tline tran : CStr} {present : Bool}
    {w w' : World σ} {l : Attributes} (hlisted : lineAttributes w.buf (signedWords tline).2 = some l)
    (hprepared : Prepared os w.os present l)
    (hok : doLine os.toOs cfg line tline tran present w = .ok () w') :
    HasAttributes os w'.os l ↔
      Applies (statPassed os w present l.path) (signedWords tline).1 present l := by
  unfold doLine at hok
  generalize signedWords tline = split at hlisted hok
  obtain ⟨command, targv⟩ := split
  simp only at hlisted hok
  unfold lineAttributes at hlisted
  split at hlisted
  swap
  · cases hlisted
  next typeWord pathWord words =>
  split at hlisted
  swap
  · cases hlisted
  next type path buf htype hdecode =>
  obtain ⟨path', w₁, hpath, h₁⟩ := bind_eq_ok hok
  obtain ⟨mem, buf', hmem, hdecode', rfl⟩ := decodeArg_ok hpath
  cases hmem
  rw [hdecode] at hdecode'
  cases hdecode'
  have hsame : l.path = path ∧ l.type = type := by
    rcases wordsAttributes_cases hlisted with ⟨_, _, _, _, _, _, -, -, rfl⟩ | ⟨_, _, _, -, -, rfl⟩ |
      ⟨_, _, _, _, _, -, -, rfl⟩ | ⟨rfl, _, _, -, ⟨-, rfl⟩ | ⟨_, _, _, -, rfl⟩⟩
    all_goals exact ⟨rfl, rfl⟩
  rw [Prepared, hsame.1, hsame.2] at hprepared
  rw [hsame.1]
  split at h₁
  · next hplus =>
    obtain ⟨hf, temppath, w₂, htemp, hinstall⟩ := download_ok h₁
    rw [htype] at hf
    cases hf
    rcases wordsAttributes_cases hlisted with ⟨m, u, g, t, s, c, -, rfl, rfl⟩ | ⟨_, _, _, hdp, -⟩ |
      ⟨_, _, _, _, _, hbc, -⟩ | ⟨hl, -⟩
    · obtain ⟨st, hseen, hmtime, hlast⟩ := installFile_ok htype htemp hinstall
      have happlied := @applied_owned σ os temppath st (lineMode m) w'.os
        ⟨.f, path, lineId u, lineId g, some (lineMode m),
          some (BitVec.ofInt 64 (strtol 10 (cstr t))), none, none⟩ hlast hseen
        (by rintro m' ⟨⟩; rfl) (by rintro t' ⟨⟩; exact hmtime) rfl nofun
      rw [happlied]
      exact ⟨fun hids => ⟨hids, nofun, fun _ => .inl hplus⟩, fun h => h.1⟩
    · rcases hdp with hd | hp
      · cases hd
      · cases hp
    · rcases hbc with hb | hc
      · cases hb
      · cases hc
    · cases hl
  · next hplus =>
    obtain ⟨_, w₂, hradstat, h₂⟩ := bind_eq_ok h₁
    obtain ⟨r, w₃, hupdate, h₃⟩ := bind_eq_ok h₂
    cases h₃
    rcases runIf_ok hradstat with ⟨rfl, hradstat⟩ | ⟨rfl, rfl⟩
    · rw [if_pos rfl] at hprepared
      obtain ⟨st, hst, hfile⟩ := hprepared
      obtain ⟨st', hst', rfl⟩ := radstatOrFail_ok hradstat
      have heq : st' = st := Lstat.found.inj (hst'.symm.trans hst)
      have hpassed : statPassed os w true path = st' := by
        simp only [statPassed, hst, heq]
      rw [hpassed]
      subst heq
      exact update_applies_iff (w := { w with buf := buf, st := st' }) hlchown hplus htype hlisted
        (fun _ => ⟨hst, hfile⟩) (fun h => by cases h) hupdate
    · rw [if_neg nofun] at hprepared
      show HasAttributes os w'.os l ↔ Applies w.st command false l
      exact update_applies_iff (w := { w with buf := buf }) hlchown hplus htype hlisted nofun
        (fun _ => hprepared) hupdate

/-! ## A symbolic link -/

/-- A symbolic link with an owner. -/
structure OwnedLink where
  st : Stat
  target : CStr
  owned : st.stUid ≠ noId ∧ st.stGid ≠ noId
  deriving DecidableEq

theorem Stat.chown_owned {st : Stat} (h : st.stUid ≠ noId ∧ st.stGid ≠ noId) (uid gid : BitVec 32) :
    (st.chown uid gid).stUid ≠ noId ∧ (st.chown uid gid).stGid ≠ noId := by
  show (if uid = noId then st.stUid else uid) ≠ noId ∧ (if gid = noId then st.stGid else gid) ≠ noId
  constructor
  · split
    · exact h.1
    · next hne => exact hne
  · split
    · exact h.2
    · next hne => exact hne

def OwnedLink.lchown (link : OwnedLink) (uid gid : BitVec 32) : OwnedLink :=
  ⟨link.st.chown uid gid, link.target, Stat.chown_owned link.owned uid gid⟩

/-- A symbolic link as root creates it. -/
def OwnedLink.new (target : CStr) : OwnedLink :=
  ⟨{ Stat.zero with stMode := 0o120777 }, target, by decide⟩

/-- The calls on symbolic links, on the one path of the system. -/
def linkSys (path : CStr) (c : SysCall) (s : Option OwnedLink) : SysResult × Option OwnedLink :=
  match c, s with
  | .unlink p, some link => if p = path then (.ok, none) else (.enoent, some link)
  | .symlink target p, none => if p = path then (.ok, some (.new target)) else (.failed, none)
  | .lchown p uid gid, some link =>
    if p = path then (.ok, some (link.lchown uid gid)) else (.failed, some link)
  | _, s => (.failed, s)

/-- A system with one path, at which there is a symbolic link or nothing. -/
def linkOs (path : CStr) : ObjectOs (Option OwnedLink) where
  sys := linkSys path
  lstat s p := if p = path then
      match s with
      | some link => .found link.st
      | none => .enoent
    else .enoent
  stat _ _ := none
  request _ s := (.lost, s)
  digest _ := []
  trailer s := (false, s)
  fclose _ := true
  closesn _ := true
  readlink s p := if p = path then s.map (·.target) else none
  owned s p st h := by
    split at h
    · split at h
      · next link =>
        cases h
        exact link.owned
      · cases h
    · cases h
  utime_ok s _ _ _ _ _ h := by cases s <;> cases h
  chown_ok s _ _ _ _ _ _ h := by cases s <;> cases h
  chmod_ok s _ _ _ _ _ h := by cases s <;> cases h
  lchown_ok s p uid gid st hfound h := by
    cases s with
    | none => cases h
    | some link =>
      by_cases hp : p = path
      · subst hp
        simp only [linkSys, if_pos] at hfound ⊢
        cases hfound
        exact ⟨⟨_, rfl, rfl, rfl⟩, rfl⟩
      · simp only [linkSys, if_neg hp] at h
        cases h
  lchmod_ok s _ _ _ _ h := by cases s <;> cases h
  missing s p _ := by
    refine ⟨fun t h => ?_, fun uid gid h => ?_, fun mode h => ?_⟩
    · cases s <;> cases h
    · cases s <;> cases h
    · cases s <;> cases h
  mkdir_ok s _ _ h := by cases s <;> cases h
  mkfifo_ok s _ _ h := by cases s <;> cases h
  mknod_ok s _ _ _ h := by cases s <;> cases h
  symlink_ok s target p h := by
    cases s with
    | some link => cases h
    | none =>
      by_cases hp : p = path
      · subst hp
        simp only [linkSys, if_pos]
        exact ⟨⟨_, rfl, rfl, rfl⟩, rfl⟩
      · simp only [linkSys, if_neg hp] at h
        cases h
  openTemp_ok s _ _ h := by cases s <;> cases h
  receive_kept s p size st hfound htype := by
    cases s with
    | none => exact ⟨st, hfound, htype⟩
    | some link => exact ⟨st, hfound, htype⟩
  close_kept s _ _ := by cases s <;> rfl
  trailer_kept _ _ := rfl
  rename_ok s _ _ h := by cases s <;> cases h

/-- A symbolic link of a user. -/
def userLink : OwnedLink :=
  ⟨{ Stat.zero with stMode := 0o120777, stUid := 500, stGid := 500 }, lit "old", by decide⟩

def userLinkLine : CStr := lit "l /l 0777 500 500 new"

def userLinkAttributes : Attributes := ⟨.l, lit "/l", 500, 500, none, none, some (lit "new"), none⟩

/-- Where there was nothing the link is given to its user. -/
theorem doLine_applies_new :
    HasAttributes (linkOs (lit "/l")) (endState (doLine (linkOs (lit "/l")).toOs plainConfig 1 userLinkLine []
      false (World.start none true))).os userLinkAttributes ↔
        Applies Stat.zero nul false userLinkAttributes := by
  have hnone : Prepared (linkOs (lit "/l")) none false userLinkAttributes := by
    rw [Prepared, if_neg nofun]
    intro st hst
    cases hst
  exact doLine_applies_iff (linkOs (lit "/l")) plainConfig rfl (by decide +kernel) hnone
    (eq_ok_of_isOk (by decide +kernel))

/-- Where the user had another link, the new one is left to root. -/
theorem not_doLine_applies :
    ¬ ∀ (σ : Type) (os : ObjectOs σ) (cfg : LapplyConfig), cfg.haveLchown = true →
      ∀ (line : Nat) (tline tran : CStr) (present : Bool) (w w' : World σ) (l : Attributes),
        lineAttributes w.buf (signedWords tline).2 = some l → Prepared os w.os present l →
          doLine os.toOs cfg line tline tran present w = .ok () w' → HasAttributes os w'.os l := by
  intro h
  have happlied := h (Option OwnedLink) (linkOs (lit "/l")) plainConfig rfl 1 userLinkLine [] true
    (World.start (some userLink) true) _ userLinkAttributes (by decide +kernel) ⟨_, rfl, by decide +kernel⟩
    (eq_ok_of_isOk (by decide +kernel))
  have hlast : (endState (doLine (linkOs (lit "/l")).toOs plainConfig 1 userLinkLine [] true
      (World.start (some userLink) true))).os = some (.new (lit "new")) := by decide +kernel
  rw [hlast] at happlied
  obtain ⟨st, hfound, huid, -⟩ := happlied
  cases hfound
  exact absurd huid (by decide)

end Radmind
