import Radmind.Command.Loop
import Radmind.Lib.LabelledRun

/-!
# The daemon

The loop of `main` in daemon.c accepts connections and forks a child for each of them.  It
counts them in `connections`, and takes off the children that have ended when a SIGCHLD has
come in.  Signals that are pending at the same time are delivered as one.
-/

namespace Radmind

open LabelledRun

/-- Where the daemon is in its loop: at its head, in the loop over `wait3`, before `accept`,
behind it, and at an `exit`. -/
inductive DaemonPlace
  | top | waiting | accepting | forking | stopped
  deriving DecidableEq, Repr

/-- A child that was forked and not waited for. -/
structure Child where
  pid : Nat
  ended : Bool
  deriving DecidableEq, Repr

/-- The daemon, its children, and whether a SIGCHLD is pending. -/
structure Daemon where
  place : DaemonPlace
  connections : Int
  childSignal : Nat
  pending : Bool
  children : List Child
  deriving DecidableEq, Repr

def Daemon.start : Daemon :=
  { place := .top, connections := 0, childSignal := 0, pending := false, children := [] }

/-- A child ends, a signal is delivered, or the daemon makes a step. -/
inductive DaemonEvent
  | childEnds (pid : Nat)
  | signal
  | setupFails
  | loopHead
  | waited (pid : Nat)
  | noneEnded
  | waitFails
  | acceptFails
  | accepted
  | forkFails
  | forked (pid : Nat)
  deriving DecidableEq, Repr

/-- A step, where it is possible. -/
def Daemon.step (s : Daemon) : DaemonEvent → Option Daemon
  | .childEnds pid =>
    if ⟨pid, false⟩ ∈ s.children then
      some { s with
        pending := true
        children := s.children.map fun c => if c = ⟨pid, false⟩ then ⟨pid, true⟩ else c }
    else none
  -- chld
  | .signal =>
    if s.pending then some { s with pending := false, childSignal := s.childSignal + 1 } else none
  -- the setup of TLS on a SIGUSR1
  | .setupFails => if s.place = .top then some { s with place := .stopped } else none
  | .loopHead =>
    if s.place = .top then
      some (if s.childSignal > 0 then { s with place := .waiting, childSignal := 0 }
        else { s with place := .accepting })
    else none
  | .waited pid =>
    if s.place = .waiting ∧ ⟨pid, true⟩ ∈ s.children then
      some { s with
        connections := s.connections - 1, children := s.children.erase ⟨pid, true⟩ }
    else none
  -- 0, or -1 and ECHILD
  | .noneEnded =>
    if s.place = .waiting ∧ ∀ c ∈ s.children, c.ended = false then
      some { s with place := .accepting }
    else none
  | .waitFails => if s.place = .waiting then some { s with place := .stopped } else none
  | .acceptFails => if s.place = .accepting then some { s with place := .top } else none
  | .accepted =>
    if s.place = .accepting then
      some { s with place := .forking, connections := s.connections + 1 }
    else none
  | .forkFails => if s.place = .forking then some { s with place := .top } else none
  | .forked pid =>
    if s.place = .forking ∧ ∀ c ∈ s.children, c.pid ≠ pid then
      some { s with place := .top, children := s.children ++ [⟨pid, false⟩] }
    else none

/-- The state behind a list of events. -/
def daemon (events : List DaemonEvent) : Option Daemon := run Daemon.step .start events

/-! ## Counting -/

/-- The children, and a connection that is not forked for yet. -/
def Daemon.counted (s : Daemon) : Int :=
  s.children.length + if s.place = .forking then 1 else 0

/-- A failed fork is the one step after which the counter is off by one more. -/
theorem step_counted {s s' : Daemon} {e : DaemonEvent} (h : s.step e = some s') :
    s'.connections - s'.counted =
      s.connections - s.counted + if e = .forkFails then 1 else 0 := by
  cases e with
  | childEnds pid =>
    obtain ⟨-, rfl⟩ := of_guard h
    simp [Daemon.counted]
  | signal =>
    obtain ⟨-, rfl⟩ := of_guard h
    simp [Daemon.counted]
  | setupFails =>
    obtain ⟨hplace, rfl⟩ := of_guard h
    simp [Daemon.counted, hplace]
  | loopHead =>
    obtain ⟨hplace, rfl⟩ := of_guard h
    by_cases hsignal : s.childSignal > 0
    · simp [Daemon.counted, hplace, hsignal]
    · simp [Daemon.counted, hplace, hsignal]
  | waited pid =>
    obtain ⟨⟨hplace, hmem⟩, rfl⟩ := of_guard h
    have hpos := List.length_pos_of_mem hmem
    have hlen := List.length_erase_of_mem hmem
    simp only [Daemon.counted, hplace, reduceCtorEq, if_false]
    omega
  | noneEnded =>
    obtain ⟨⟨hplace, -⟩, rfl⟩ := of_guard h
    simp [Daemon.counted, hplace]
  | waitFails =>
    obtain ⟨hplace, rfl⟩ := of_guard h
    simp [Daemon.counted, hplace]
  | acceptFails =>
    obtain ⟨hplace, rfl⟩ := of_guard h
    simp [Daemon.counted, hplace]
  | accepted =>
    obtain ⟨hplace, rfl⟩ := of_guard h
    simp only [Daemon.counted, hplace, reduceCtorEq, if_false, if_true]
    omega
  | forkFails =>
    obtain ⟨hplace, rfl⟩ := of_guard h
    simp only [Daemon.counted, hplace, reduceCtorEq, if_false, if_true]
    omega
  | forked pid =>
    obtain ⟨⟨hplace, -⟩, rfl⟩ := of_guard h
    simp only [Daemon.counted, hplace, reduceCtorEq, if_false, if_true, List.length_append,
      List.length_singleton]
    omega

/-- Behind every run the counter is the children, and one for each fork that failed. -/
theorem daemon_connections {events : List DaemonEvent} {s : Daemon}
    (h : daemon events = some s) : s.connections = s.counted + events.count .forkFails := by
  refine run_invariant
    (P := fun (events : List DaemonEvent) (s : Daemon) =>
      s.connections = s.counted + events.count .forkFails) rfl (fun events s e s' hs hstep => ?_) h
  have hoff := step_counted hstep
  rw [List.count_append, List.count_singleton]
  by_cases he : e = .forkFails
  · simp only [he, if_true, beq_self_eq_true] at hoff ⊢
    omega
  · simp only [he, if_false, beq_iff_eq, Nat.cast_add] at hoff ⊢
    omega

/-! ## Refusals -/

open Server Interaction

/-- The settings of a child that is forked for a connection now. -/
def Daemon.child (s : Daemon) (cfg : ServerConfig) (maxconnections : Nat) : ServerConfig :=
  { cfg with connections := s.connections.toNat, maxconnections := maxconnections }

/-- `cmdloop` finds too many connections. -/
def Busy (cfg : ServerConfig) : Prop :=
  cfg.maxconnections ≠ 0 ∧ cfg.connections > cfg.maxconnections

/-- A busy server refuses the client before anything else. -/
theorem cmdloop_busy {cfg : ServerConfig} (h : Busy cfg) (rounds : Nat) :
    cmdloop cfg rounds = (do
      setTable (if cfg.authlevel = 0 then .noauth else .notls)
      reply 420 (lit "Server busy")
      exit 1) := by
  have hbusy : (cfg.maxconnections ≠ 0 && cfg.connections > cfg.maxconnections : Bool) = true := by
    simpa [Busy] using h
  unfold cmdloop
  simp only [hbusy, if_true]

/-- Settings without any option. -/
def plainServer : ServerConfig :=
  { authlevel := 0, checkuser := false, havePam := false, haveZlib := false, maxZlibLevel := 0
    rapExtensions := false, connections := 0, maxconnections := 0, version := []
    remoteHost := [], remoteAddr := [], wildcard := fun _ _ _ => false }

/-- The connections of a daemon at the head of its loop are its children. -/
def Counts (s : Daemon) : Prop := s.connections = s.children.length

instance (s : Daemon) : Decidable (Counts s) := inferInstanceAs (Decidable (_ = _))

/-- A child is refused only where there are more than `m` children with it. -/
def RefusesLate (s : Daemon) : Prop :=
  ∀ (cfg : ServerConfig) (m : Nat), 0 < m → Busy (s.child cfg m) → m < s.children.length

/-- At the head of the loop the counter is right, and so is the refusal of a child that was
just forked, if no fork has failed. -/
theorem daemon_counts_iff {events : List DaemonEvent} {s : Daemon} (h : daemon events = some s)
    (htop : s.place = .top) :
    (Counts s ↔ .forkFails ∉ events) ∧
      ∀ before pid, events = before ++ [.forked pid] → (RefusesLate s ↔ .forkFails ∉ events) := by
  have hconnections := daemon_connections h
  rw [Daemon.counted, if_neg (by rw [htop]; decide)] at hconnections
  rw [← List.count_eq_zero]
  constructor
  · unfold Counts
    omega
  · rintro before pid rfl
    have hchild : 0 < s.children.length := by
      obtain ⟨s₁, -, hlast⟩ := run_concat_eq_some h
      obtain ⟨-, rfl⟩ := of_guard hlast
      simp
    constructor
    · intro hlate
      by_contra hfailed
      -- a limit of as many connections as there are children
      have hbusy : ∀ cfg, Busy (s.child cfg s.children.length) := by
        intro cfg
        simp only [Busy, Daemon.child]
        omega
      exact Nat.lt_irrefl _ (hlate plainServer s.children.length hchild (hbusy _))
    · intro hnone cfg m _ hbusy
      have hmore := hbusy.2
      simp only [Daemon.child] at hmore
      omega

/-- The state with one child. -/
def oneChild (connections : Int) : Daemon :=
  { place := .top, connections := connections, childSignal := 0, pending := false
    children := [⟨7, false⟩] }

/-- A pass of the loop in which a child is forked. -/
def oneFork : List DaemonEvent := [.loopHead, .accepted, .forked 7]

theorem daemon_counts_one :
    (Counts (oneChild 1) ↔ .forkFails ∉ oneFork) ∧
      ∀ before pid, oneFork = before ++ [.forked pid] →
        (RefusesLate (oneChild 1) ↔ .forkFails ∉ oneFork) :=
  daemon_counts_iff (by decide) rfl

/-- After a failed fork the only child there is counts as two, and a limit of one connection
refuses it. -/
theorem not_daemon_counts :
    ¬ (∀ events s, daemon events = some s → s.place = .top → Counts s) ∧
      ¬ ∀ events pid s, daemon (events ++ [.forked pid]) = some s → RefusesLate s := by
  constructor
  · intro h
    have hcounts := h [.loopHead, .accepted, .forkFails]
      { Daemon.start with connections := 1 } (by decide) rfl
    exact absurd hcounts (by decide)
  · intro h
    have hlate := h [.loopHead, .accepted, .forkFails, .loopHead, .accepted] 7 (oneChild 2)
      (by decide)
    exact absurd (hlate plainServer 1 (by decide) ⟨by decide, by decide⟩) (by decide)

end Radmind
