import Radmind.Lapply.Update
import Radmind.Lib.RunRelation

/-!
# What carrying out a line leaves alone

Nothing below `main` sets the variables of `main`, and all it adds to the trace are
system calls and the request for the file of the line.
-/

namespace Radmind

open RunRelation

variable {σ : Type}

/-- What an event does to the system. -/
def Action.evolve (os : Os σ) (s : σ) : Action → σ
  | call c _ => (os.sys c s).2
  | request _ _ desc => (os.request desc s).2
  | trailer => (os.trailer s).2
  | _ => s

/-- The system behind a piece of the trace. -/
def stateAfter (os : Os σ) (s : σ) (evs : List Action) : σ := evs.foldl (Action.evolve os) s

theorem stateAfter_append (os : Os σ) (s : σ) (evs evs' : List Action) :
    stateAfter os s (evs ++ evs') = stateAfter os (stateAfter os s evs) evs' := List.foldl_append

/-- System calls, and what the server sends behind a file. -/
def Action.System : Action → Prop
  | call _ _ => True
  | trailer => True
  | _ => False

/-- The variables of `main` are the same, and what was added to the trace has a property
that may depend on two of them. -/
structure Frame (os : Os σ) (P : Bool → Nat → Action → Prop) (w w' : World σ) : Prop where
  head : w'.head = w.head
  transcript : w'.transcript = w.transcript
  special : w'.special = w.special
  linenum : w'.linenum = w.linenum
  change : w'.change = w.change
  trace : ∃ evs, w'.trace = w.trace ++ evs ∧ w'.os = stateAfter os w.os evs ∧
    ∀ ev ∈ evs, P w.special w.linenum ev

variable {os : Os σ} {P : Bool → Nat → Action → Prop}

/-- What the callees write. -/
theorem frame_set (w : World σ) (buf : List Byte) (network : Bool) (st : Stat) :
    Frame os P w { w with buf := buf, network := network, st := st } :=
  ⟨rfl, rfl, rfl, rfl, rfl, [], by simp, rfl, by simp⟩

instance : Std.Refl (Frame os P) := ⟨fun w => frame_set w w.buf w.network w.st⟩

theorem Frame.trans {w w' w'' : World σ} (h : Frame os P w w') (h' : Frame os P w' w'') :
    Frame os P w w'' := by
  obtain ⟨evs, hevs, hos, hP⟩ := h.trace
  obtain ⟨evs', hevs', hos', hP'⟩ := h'.trace
  refine ⟨h'.head.trans h.head, h'.transcript.trans h.transcript, h'.special.trans h.special,
    h'.linenum.trans h.linenum, h'.change.trans h.change, evs ++ evs', ?_, ?_, ?_⟩
  · rw [hevs', hevs, List.append_assoc]
  · rw [stateAfter_append, ← hos, hos']
  · intro ev hev
    rcases List.mem_append.mp hev with hev | hev
    · exact hP ev hev
    · rw [h.special, h.linenum] at hP'
      exact hP' ev hev

instance : IsTrans (World σ) (Frame os P) := ⟨fun _ _ _ => Frame.trans⟩

/-! ## Relations over the calls -/

/-- The relation holds over what the callees of `main` write, and over every call they make
but the request for a file. -/
structure Covers (os : Os σ) (R : World σ → World σ → Prop) : Prop where
  set (w : World σ) (buf : List Byte) (network : Bool) (st : Stat) :
    R w { w with buf := buf, network := network, st := st }
  call (w : World σ) (c : SysCall) :
    R w { w with os := (os.sys c w.os).2, trace := w.trace ++ [.call c (os.sys c w.os).1] }
  trailer (w : World σ) :
    R w { w with os := (os.trailer w.os).2, trace := w.trace ++ [.trailer] }

/-- The relation holds over every system call. -/
def CoversCalls (os : Os σ) (R : World σ → World σ → Prop) : Prop :=
  ∀ w c, R w { w with os := (os.sys c w.os).2, trace := w.trace ++ [.call c (os.sys c w.os).1] }

theorem Covers.calls {R : World σ → World σ → Prop} (h : Covers os R) : CoversCalls os R := h.call

theorem covers_frame (hcall : ∀ special linenum ev, ev.System → P special linenum ev) :
    Covers os (Frame os P) where
  set := frame_set
  call w c := by
    refine ⟨rfl, rfl, rfl, rfl, rfl, [.call c (os.sys c w.os).1], rfl, rfl, ?_⟩
    intro ev hev
    rw [List.mem_singleton.mp hev]
    exact hcall _ _ _ trivial
  trailer w := by
    refine ⟨rfl, rfl, rfl, rfl, rfl, [.trailer], rfl, rfl, ?_⟩
    intro ev hev
    rw [List.mem_singleton.mp hev]
    exact hcall _ _ _ trivial

section

variable {R : World σ → World σ → Prop}

section

variable [Std.Refl R]

theorem keeps_runIf {c : Bool} {x : Lapply σ Unit} (h : Keeps R x) : Keeps R (runIf c x) :=
  h.ite (keeps_pure ())

theorem parentStat_keeps (parent : Option Stat) (path : CStr) :
    Keeps R (parentStat os parent path) := by
  cases parent with
  | some st => exact keeps_pure _
  | none => exact Keeps.ite (keeps_pure _) fun w => refl w

theorem wrongArguments_keeps [IsTrans (World σ) R] {α : Type} : Keeps R (wrongArguments : Lapply σ α) := by
  refine Keeps.bind (fun w => refl w) fun linenum => ?_
  exact keeps_throw _

end

/-! ## System calls -/

section

variable (hC : CoversCalls os R)

include hC

theorem sys_keeps (c : SysCall) : Keeps R (sys os c) := fun w => hC w c

variable [Std.Refl R]

theorem sysIf_keeps (needed : Bool) (c : SysCall) : Keeps R (sysIf os needed c) :=
  (sys_keeps hC c).ite (keeps_pure _)

variable [IsTrans (World σ) R]

theorem sysOrFail_keeps (c : SysCall) (path : CStr) : Keeps R (sysOrFail os c path) :=
  (sys_keeps hC c).bind fun _ => keeps_runIf (keeps_throw _)

variable (cfg : LapplyConfig)

theorem inheritOwner_keeps (path : CStr) (parent : Stat) :
    Keeps R (inheritOwner os cfg path parent) := by
  refine (sysIf_keeps hC _ _).bind fun r => ?_
  refine Keeps.ite (keeps_pure _) ?_
  exact (sysIf_keeps hC _ _).bind fun _ => keeps_pure _

theorem mkprefixLoop_keeps (parent : Option Stat) (paths : List CStr) :
    Keeps R (mkprefixLoop os cfg parent paths) := by
  induction paths generalizing parent with
  | nil => exact keeps_pure _
  | cons path paths ih =>
    refine (sys_keeps hC _).bind fun r => ?_
    refine Keeps.ite ?_ ?_
    · refine Keeps.bind (fun w => refl w) fun st => ?_
      cases st with
      | none => exact keeps_pure _
      | some st => exact (ih parent).ite (keeps_pure _)
    · refine (parentStat_keeps parent path).bind fun st => ?_
      cases st with
      | none => exact keeps_pure _
      | some st =>
        refine (inheritOwner_keeps hC cfg path st).bind fun ok => ?_
        exact (ih (some st)).ite (keeps_pure _)

theorem tryPrefix_keeps (c : SysCall) (path : CStr) :
    Keeps R (tryPrefix os cfg c path) := by
  refine (sys_keeps hC c).bind fun r => ?_
  cases r with
  | ok => exact keeps_pure _
  | failed => exact keeps_pure _
  | enoent =>
    refine Keeps.ite ?_ (keeps_pure _)
    refine (mkprefixLoop_keeps hC cfg none _).bind fun ok => ?_
    refine Keeps.ite ?_ (keeps_pure _)
    exact (sys_keeps hC c).bind fun _ => keeps_pure _

theorem sysPrefix_keeps (c : SysCall) (path : CStr) :
    Keeps R (sysPrefix os cfg c path) :=
  (tryPrefix_keeps hC cfg c path).bind fun _ => keeps_runIf (keeps_throw _)

end

variable (hR : Covers os R)

include hR

theorem lostNetwork_keeps {α : Type} (e : Failure) :
    Keeps R (lostNetwork e : Lapply σ α) :=
  fun w => hR.set w w.buf false w.st

theorem trailer_keeps : Keeps R (trailer os) := hR.trailer

variable [Std.Refl R]

theorem decodeArg_keeps (tooLong : Nat → Failure) (word : Option (List Byte)) :
    Keeps R (decodeArg tooLong word : Lapply σ CStr) := by
  intro w
  cases word with
  | none => exact refl w
  | some mem =>
    unfold decodeArg
    rcases hd : decode w.buf mem with ⟨_ | path, buf⟩
    · simp only [hd]
      exact hR.set w buf w.network w.st
    · simp only [hd]
      exact hR.set w buf w.network w.st

theorem radstat_keeps (path : CStr) : Keeps R (radstat os path) := by
  intro w
  unfold radstat
  cases os.lstat w.os path with
  | found st => exact hR.set w w.buf w.network st
  | enoent => exact hR.set w w.buf w.network _
  | enotdir => exact hR.set w w.buf w.network _
  | failed => exact refl w

theorem lstatInto_keeps (path : CStr) : Keeps R (lstatInto os path) := by
  intro w
  unfold lstatInto
  cases os.lstat w.os path with
  | found st => exact hR.set w w.buf w.network st
  | enoent => exact refl w
  | enotdir => exact refl w
  | failed => exact refl w

variable [IsTrans (World σ) R] (cfg : LapplyConfig)

theorem radstatOrFail_keeps (path : CStr) : Keeps R (radstatOrFail os path) := by
  refine (radstat_keeps hR path).bind fun r => ?_
  cases r with
  | found type => exact keeps_pure ()
  | enoent => exact keeps_throw _
  | failed => exact keeps_throw _

/-! ## update -/

theorem updateOwner_keeps (path : CStr) (mode uid gid : BitVec 32) :
    Keeps R (updateOwner os path mode uid gid) := by
  refine Keeps.bind (fun w => refl w) fun st => ?_
  refine (keeps_runIf (sysOrFail_keeps hR.calls _ _)).bind fun _ => ?_
  exact (keeps_runIf (sysOrFail_keeps hR.calls _ _)).bind fun _ => keeps_pure _

theorem updateFile_keeps (path : CStr) (targv : List (List Byte)) :
    Keeps R (updateFile os path targv) := by
  unfold updateFile
  split
  · refine Keeps.bind (fun w => refl w) fun st => ?_
    refine (keeps_runIf (sysOrFail_keeps hR.calls _ _)).bind fun _ => ?_
    exact updateOwner_keeps hR _ _ _ _
  · exact wrongArguments_keeps

theorem updateDir_keeps (path : CStr) (present : Bool) (targv : List (List Byte)) :
    Keeps R (updateDir os cfg path present targv) := by
  unfold updateDir
  split
  · refine (keeps_runIf ?_).bind fun _ => updateOwner_keeps hR _ _ _ _
    exact (sysPrefix_keeps hR.calls cfg _ _).bind fun _ => radstatOrFail_keeps hR path
  · exact wrongArguments_keeps

theorem updateHard_keeps (path : CStr) (targv : List (List Byte)) :
    Keeps R (updateHard os cfg path targv) := by
  unfold updateHard
  split
  · refine (decodeArg_keeps hR _ _).bind fun target => ?_
    exact (sysPrefix_keeps hR.calls cfg _ _).bind fun _ => keeps_pure _
  · exact wrongArguments_keeps

theorem updateLink_keeps (path : CStr) (present : Bool) (mode uid gid : BitVec 32)
    (target : List Byte) : Keeps R (updateLink os cfg path present mode uid gid target) := by
  refine (keeps_runIf (sysOrFail_keeps hR.calls _ _)).bind fun _ => ?_
  refine (decodeArg_keeps hR _ _).bind fun target => ?_
  refine (sysPrefix_keeps hR.calls cfg _ _).bind fun _ => ?_
  refine Keeps.bind (fun w => refl w) fun st => ?_
  refine (keeps_runIf (sysOrFail_keeps hR.calls _ _)).bind fun _ => ?_
  exact (keeps_runIf (sysOrFail_keeps hR.calls _ _)).bind fun _ => keeps_pure _

theorem createNode_keeps (c : SysCall) (path : CStr) :
    Keeps R (createNode os cfg c path) :=
  (sysPrefix_keeps hR.calls cfg c path).bind fun _ => lstatInto_keeps hR path

theorem updatePipe_keeps (path : CStr) (present : Bool) (targv : List (List Byte)) :
    Keeps R (updatePipe os cfg path present targv) := by
  unfold updatePipe
  split
  · exact (keeps_runIf (createNode_keeps hR cfg _ _)).bind fun _ =>
      updateOwner_keeps hR _ _ _ _
  · exact wrongArguments_keeps

theorem updateDevice_keeps (bits : BitVec 32) (path : CStr) (present : Bool)
    (targv : List (List Byte)) : Keeps R (updateDevice os cfg bits path present targv) := by
  unfold updateDevice
  split
  · refine Keeps.bind (fun w => refl w) fun st => ?_
    refine (keeps_runIf (sysOrFail_keeps hR.calls _ _)).bind fun _ => ?_
    exact (keeps_runIf (createNode_keeps hR cfg _ _)).bind fun _ =>
      updateOwner_keeps hR _ _ _ _
  · exact wrongArguments_keeps

theorem updateSocket_keeps (path : CStr) (present : Bool) (targv : List (List Byte)) :
    Keeps R (updateSocket os path present targv) := by
  unfold updateSocket
  split
  · exact (updateOwner_keeps hR _ _ _ _).ite (keeps_pure _)
  · exact wrongArguments_keeps

theorem update_keeps (path : CStr) (present : Bool) (targv : List (List Byte)) :
    Keeps R (update os cfg path present targv) := by
  unfold update
  split
  · exact updateFile_keeps hR path targv
  · exact updateFile_keeps hR path targv
  · exact updateDir_keeps hR cfg path present targv
  · exact updateHard_keeps hR cfg path targv
  · split
    · exact updateLink_keeps hR cfg path present _ _ _ _
    · exact updateLink_keeps hR cfg path present _ _ _ _
    · exact wrongArguments_keeps
  · exact updatePipe_keeps hR cfg path present targv
  · exact updateDevice_keeps hR cfg _ path present targv
  · exact updateDevice_keeps hR cfg _ path present targv
  · exact updateSocket_keeps hR path present targv
  · exact updateSocket_keeps hR path present targv
  · exact Keeps.bind (fun w => refl w) fun linenum => keeps_throw _

/-! ## retr and do_line -/

theorem dropTemp_keeps (temppath : CStr) (r : Retrieved) :
    Keeps R (dropTemp os temppath r) :=
  (sys_keeps hR.calls _).bind fun _ => keeps_pure _

theorem retrFile_keeps (temppath : CStr) (size : Int) (trancksum : CStr) :
    Keeps R (retrFile os cfg temppath size trancksum) := by
  refine (sys_keeps hR.calls _).bind fun received => ?_
  refine Keeps.ite ?_ ?_
  · exact (sys_keeps hR.calls _).bind fun _ => dropTemp_keeps hR _ _
  refine (sys_keeps hR.calls _).bind fun closed => ?_
  refine (dropTemp_keeps hR _ _).ite ?_
  refine (trailer_keeps hR).bind fun dot => ?_
  refine (dropTemp_keeps hR _ _).ite ?_
  refine Keeps.bind (fun w => refl w) fun cksum => ?_
  exact (dropTemp_keeps hR _ _).ite (keeps_pure _)

/-- The path of a line as the line spells it. -/
def lineWord (tline : CStr) : CStr := cstr ((signedWords tline).2.getD 1 [])

/-- The request of `retr`, if there is one, is for the description it is given. -/
theorem retr_keeps {w : World σ} {line : Nat} {desc : CStr} (path : CStr) (tempmode : BitVec 32)
    (transize : Int) (trancksum : CStr) (hreq : R w (endState (request os line desc w))) :
    R w (endState (retr os cfg line desc path tempmode transize trancksum w)) := by
  unfold retr
  split_ifs
  · exact refl w
  · refine keeps_bind_first hreq fun answer => ?_
    cases answer with
    | lost => exact keeps_pure _
    | refused => exact keeps_pure _
    | size size =>
      refine Keeps.ite (keeps_pure _) (Keeps.ite (keeps_pure _) ?_)
      refine (tryPrefix_keeps hR.calls cfg _ _).bind fun ok => ?_
      exact (retrFile_keeps hR cfg _ _ _).ite (keeps_pure _)

theorem installFile_keeps (temppath path : CStr) (present : Bool) (targv : List (List Byte)) :
    Keeps R (installFile os cfg temppath path present targv) := by
  refine (radstatOrFail_keeps hR temppath).bind fun _ => ?_
  refine (update_keeps hR cfg _ _ _).bind fun r => ?_
  cases r with
  | ok => exact sysOrFail_keeps hR.calls _ _
  | notCreated => exact keeps_pure _

/-- The request for the file of a '+' line is covered too. -/
def CoversRequest (os : Os σ) (R : World σ → World σ → Prop) (line : Nat) (tran tline : CStr) :
    Prop :=
  (signedWords tline).1 = plus →
    ∀ w, R w (endState (request os line (pathdesc w.special tran (lineWord tline)) w))

theorem download_keeps {line : Nat} {tran tline : CStr} (hreq : CoversRequest os R line tran tline)
    (path : CStr) (present : Bool) (hplus : (signedWords tline).1 = plus) :
    Keeps R
      (download os cfg line tran path present (signedWords tline).2) := by
  refine Keeps.bind (fun w => refl w) fun linenum => ?_
  refine (keeps_runIf (keeps_throw _)).bind fun _ => ?_
  refine (keeps_runIf (keeps_throw _)).bind fun _ => ?_
  intro w
  refine keeps_bind_at ?_ fun desc w' hdesc => ?_
  · unfold requestDesc
    dsimp only
    split_ifs
    · exact refl w
    · exact refl w
  obtain ⟨rfl, rfl⟩ : desc = pathdesc w.special tran (lineWord tline) ∧ w' = w := by
    unfold requestDesc at hdesc
    dsimp only at hdesc
    split_ifs at hdesc
    injection hdesc with h1 h2
    exact ⟨h1.symm, h2.symm⟩
  split_ifs
  · exact lostNetwork_keeps hR _ w'
  · refine keeps_bind_first (retr_keeps hR cfg _ _ _ _ (hreq hplus w')) fun r => ?_
    cases r with
    | lost => exact lostNetwork_keeps hR _
    | refused => exact keeps_throw _
    | file temppath => exact installFile_keeps hR cfg _ _ _ _

theorem doLine_keeps {line : Nat} {tran tline : CStr} (hreq : CoversRequest os R line tran tline)
    (present : Bool) : Keeps R (doLine os cfg line tline tran present) := by
  refine (decodeArg_keeps hR _ _).bind fun path => ?_
  split_ifs with hplus
  · exact download_keeps hR cfg hreq path present hplus
  · refine (keeps_runIf (radstatOrFail_keeps hR path)).bind fun _ => ?_
    exact (update_keeps hR cfg _ _ _).bind fun _ => keeps_pure _

end

/-! ## The frame of a line -/

/-- What carrying out a line adds to the trace: system calls, and for a '+' line the
request for its file. -/
def LineEvent (line : Nat) (tran tline : CStr) (special : Bool) (linenum : Nat) (ev : Action) :
    Prop :=
  ev.System ∨ (signedWords tline).1 = plus ∧
    ev = .request line linenum (pathdesc special tran (lineWord tline))

theorem lineEvent_system (line : Nat) (tran tline : CStr) (special : Bool) (linenum : Nat)
    (ev : Action) (h : ev.System) : LineEvent line tran tline special linenum ev := .inl h

theorem doLine_frame (os : Os σ) (cfg : LapplyConfig) (line : Nat) (tline tran : CStr)
    (present : Bool) :
    Keeps (Frame os (LineEvent line tran tline)) (doLine os cfg line tline tran present) := by
  refine doLine_keeps (covers_frame (lineEvent_system _ _ _)) cfg (fun hplus w => ?_) present
  refine ⟨rfl, rfl, rfl, rfl, rfl, [.request line w.linenum _], rfl, rfl, ?_⟩
  intro ev hev
  rw [List.mem_singleton.mp hev]
  exact .inr ⟨hplus, rfl⟩

end Radmind
