import Radmind.Command.Stages
import Radmind.Lib.LabelledRun

/-!
# Pipelined stores

lcreate sends one STOR after the other, and reads the replies whenever there are some.  What
reply it expects next it tells from `respcount`.  The steps of the STORs are numbered: step
`2 * i` is the 350 of STOR `i`, step `2 * i + 1` is its 250.
-/

namespace Radmind

namespace Server

open Interaction

/-! ## The replies of the server -/

/-- What the server says next; nothing is known of it behind an error. -/
inductive Phase
  | ready | storing | astray
  deriving DecidableEq, Repr

def Phase.answer : Phase → Nat → Option Phase
  | .ready, code =>
    if code = 350 then some .storing else if IsError code then some .astray else none
  | .storing, code =>
    if code = 250 then some .ready else if IsError code then some .astray else none
  | .astray, _ => some .astray

/-- The codes of the replies of a trace. -/
def codes (trace : Trace) : List Nat :=
  trace.filterMap fun e => match e.call with
    | .reply code _ => some code
    | _ => none

def phase (trace : Trace) : Option Phase := (codes trace).foldlM Phase.answer .ready

/-- The phases a stage can be in. -/
def Stage.Has : Stage → Phase → Prop
  | _, .astray => True
  | .idle, ph | .named _ _, ph | .fileNamed _ _, ph | .making _ _, ph | .created _ _ _, ph =>
    ph = .ready
  | .storing _ _ _ _, ph | .closed _ _, ph | .agreed _ _, ph | .unmatched _, ph => ph = .storing
  | .refused _, _ => False
  | .failing, _ => True

theorem phase_concat (trace : Trace) (e : Event Answer) :
    phase (trace ++ [e]) = (phase trace).bind fun ph => match e.call with
      | .reply code _ => ph.answer code
      | _ => some ph := by
  unfold phase codes
  rw [List.filterMap_append, List.foldlM_append]
  congr 1
  funext ph
  obtain ⟨c, a⟩ := e
  cases c <;> simp

theorem Phase.answer_error (ph : Phase) {code : Nat} (h : IsError code) :
    ph.answer code = some .astray := by
  have h350 : code ≠ 350 := by unfold IsError at h; omega
  have h250 : code ≠ 250 := by unfold IsError at h; omega
  cases ph with
  | ready => rw [Phase.answer, if_neg h350, if_pos h]
  | storing => rw [Phase.answer, if_neg h250, if_pos h]
  | astray => rfl

theorem Stage.has_astray (stage : Stage) : stage.Has .astray := by
  cases stage <;> trivial

/-- A reply leads to the next phase, and no other call leads out of it. -/
theorem moves_phase {xscript : Option (CStr × CStr)} {stage : Stage} {c : Call} {a : Answer c}
    {p' : Progress} {ph : Phase} (h : Moves xscript stage c a p') (hph : stage.Has ph) :
    ∃ ph', (match c with
      | .reply code _ => ph.answer code
      | _ => some ph) = some ph' ∧ p'.stage.Has ph' := by
  by_cases hastray : ph = .astray
  · subst hastray
    refine ⟨.astray, ?_, p'.stage.has_astray⟩
    cases c <;> rfl
  cases h with
  | storing =>
    obtain rfl : ph = .ready := by
      cases ph with
      | ready => rfl
      | storing => cases hph
      | astray => exact absurd rfl hastray
    exact ⟨.storing, rfl, rfl⟩
  | stored =>
    obtain rfl : ph = .storing := by
      cases ph with
      | ready => cases hph
      | storing => rfl
      | astray => exact absurd rfl hastray
    exact ⟨.ready, rfl, rfl⟩
  | mismatch hcode => exact ⟨.astray, ph.answer_error hcode, Stage.has_astray _⟩
  | error _ hcode => exact ⟨.astray, ph.answer_error hcode, Stage.has_astray _⟩
  | _ =>
    refine ⟨ph, rfl, ?_⟩
    cases ph <;> first | exact hph | trivial

/-- Behind every run of STORs the replies are 350 and 250 by turns up to the first error. -/
theorem stores_phase {cfg : ServerConfig} {lines : List (CStr × (Session → Session))}
    {trace : Trace} {r : Option (Unit × Session)} (hrun : Runs (stores cfg lines .start) trace r) :
    (phase trace).isSome = true := by
  obtain ⟨p, hat⟩ := exists_at hrun
  have hphase : ∀ (trace : Trace) (p : Progress), At p trace →
      ∃ ph, phase trace = some ph ∧ p.stage.Has ph := by
    intro trace
    induction trace using List.reverseRecOn with
    | nil =>
      intro p hp
      obtain rfl : Progress.start = p := Option.some.inj hp
      exact ⟨.ready, rfl, rfl⟩
    | append_singleton before e ih =>
      intro p hp
      unfold At at hp
      rw [progress_concat] at hp
      obtain ⟨⟨xscript, stage⟩, hbefore, hnext⟩ := Option.bind_eq_some_iff.mp hp
      obtain ⟨ph, hph, hhas⟩ := ih _ hbefore
      obtain ⟨ph', hanswer, hhas'⟩ := moves_phase (moves_of_next hnext) hhas
      refine ⟨ph', ?_, hhas'⟩
      rw [phase_concat, hph]
      exact hanswer
  obtain ⟨ph, hph, -⟩ := hphase trace p hat
  rw [hph]
  rfl

end Server
end Radmind

namespace Radmind
namespace Lcreate

open Server LabelledRun

/-! ## lcreate and the server -/

/-- A reply, with the step it answers; what comes behind an error answers none. -/
structure Reply where
  step : Option Nat
  line : CStr
  deriving DecidableEq, Repr

/-- Where `stor_response` was called. -/
inductive Caller
  | line | done | failed
  deriving DecidableEq, Repr

/-- Where `main` of lcreate is.  The flag says that it is the transcript that is stored. -/
inductive Place
  | transcript
  | sending (tran : Bool)
  | sent (tran : Bool)
  | top
  | line
  | responding (caller : Caller)
  | done
  | failed
  | closing
  | exited (status : Nat)
  deriving DecidableEq, Repr

/-- The STORs that were begun and ended, the replies that `stor_response` has read, the server
with the number of steps it has answered, and the replies that were not read yet. -/
structure Pipeline where
  place : Place
  respcount : Int
  begun : Nat
  ended : Nat
  read : List Reply
  phase : Phase
  handled : Nat
  inbox : List Reply
  deriving DecidableEq, Repr

/-- lcreate has logged in. -/
def Pipeline.start : Pipeline :=
  { place := .transcript, respcount := 0, begun := 0, ended := 0, read := []
    phase := .ready, handled := 0, inbox := [] }

/-- Where lcreate goes on when `stor_response` has returned 0. -/
def Caller.back : Caller → Place
  | .line => .line
  | .done => .done
  | .failed => .failed

inductive PipeEvent
  /-- the STOR line is on its way -/
  | stor
  /-- `stor_applefile` fails before it sends anything -/
  | unsent
  /-- all the data and the '.' -/
  | dot
  /-- the function that stores a file returns 0, or -1 -/
  | stored
  | fails
  | fgets
  | eof
  | skip
  /-- `stor_response` finds no data, or nothing to wait for -/
  | noData
  | counted
  | receive
  /-- no line can be read, or `select` fails -/
  | lost
  /-- the loops behind `done` and `stor_failed` -/
  | next
  | closed
  | die (status : Nat)
  /-- the server replies -/
  | answer (code : Nat) (text : CStr)
  deriving DecidableEq, Repr

/-- The byte that `stor_response` expects. -/
def expected (respcount : Int) : Byte := if respcount % 2 ≠ 0 then 50 else 51

/-- `stor_response` with a line to read. -/
def Pipeline.receive (s : Pipeline) : Option Pipeline :=
  match s.inbox with
  | [] => none
  | r :: rest =>
    if r.line.head? = some (expected s.respcount) then
      some { s with respcount := s.respcount - 1, read := s.read ++ [r], inbox := rest }
    else some { s with place := .exited 2, inbox := rest }

/-- A reply of the server.  It answers the STOR line or the '.', which it has to have got, or is
an error. -/
def Pipeline.answer (s : Pipeline) (code : Nat) (text : CStr) : Option Pipeline :=
  let line := printInt code ++ space :: text
  match s.phase with
  | .astray => some { s with inbox := s.inbox ++ [⟨none, line⟩] }
  | ph =>
    match ph.answer code with
    | none => none
    | some .astray => some { s with phase := .astray, inbox := s.inbox ++ [⟨some s.handled, line⟩] }
    | some ph' =>
      if s.handled < s.begun + s.ended then
        some { s with
          phase := ph', handled := s.handled + 1, inbox := s.inbox ++ [⟨some s.handled, line⟩] }
      else none

/-- A step, where it is possible. -/
def Pipeline.step (tranOnly : Bool) (s : Pipeline) : PipeEvent → Option Pipeline
  | .stor =>
    match s.place with
    | .transcript =>
      some { s with place := .sending true, respcount := s.respcount + 2, begun := s.begun + 1 }
    | .line => some { s with place := .sending false, begun := s.begun + 1 }
    | _ => none
  | .unsent =>
    if s.place = .line then some { s with place := .failed, respcount := s.respcount + 2 } else none
  | .dot =>
    match s.place with
    | .sending tran => some { s with place := .sent tran, ended := s.ended + 1 }
    | _ => none
  | .stored =>
    match s.place with
    | .sent true => some { s with place := if tranOnly then .done else .top }
    | .sent false => some { s with place := .top, respcount := s.respcount + 2 }
    | _ => none
  | .fails =>
    match s.place with
    | .sending true | .sent true => some { s with place := .failed }
    | .sending false | .sent false =>
      some { s with place := .failed, respcount := s.respcount + 2 }
    | _ => none
  | .fgets =>
    if s.place = .top then
      some { s with place := if s.respcount > 0 then .responding .line else .line }
    else none
  | .eof => if s.place = .top then some { s with place := .done } else none
  | .skip => if s.place = .line then some { s with place := .top } else none
  | .noData =>
    match s.place with
    | .responding caller =>
      if s.respcount > 0 then some { s with place := caller.back } else none
    | _ => none
  | .counted =>
    match s.place with
    | .responding caller =>
      if s.respcount > 0 then none else some { s with place := caller.back }
    | _ => none
  | .receive =>
    match s.place with
    | .responding _ => if s.respcount > 0 then s.receive else none
    | _ => none
  | .lost =>
    match s.place with
    | .responding _ => if s.respcount > 0 then some { s with place := .exited 2 } else none
    | _ => none
  | .next =>
    match s.place with
    | .done => some { s with place := if s.respcount > 0 then .responding .done else .closing }
    | .failed => some { s with place := if s.respcount > 0 then .responding .failed else .exited 2 }
    | _ => none
  | .closed => if s.place = .closing then some { s with place := .exited 0 } else none
  | .die status =>
    match s.place with
    | .transcript | .sending _ | .sent _ | .line | .closing =>
      if status ≠ 0 then some { s with place := .exited status } else none
    | _ => none
  | .answer code text => s.answer code text

/-- The state behind a list of events. -/
def pipeline (tranOnly : Bool) (events : List PipeEvent) : Option Pipeline :=
  run (Pipeline.step tranOnly) .start events

/-! ## Replies in order -/

/-- The byte that the reply to a step begins with. -/
def stepByte (n : Nat) : Byte := if n % 2 = 0 then 51 else 50

/-- The reply to a step. -/
def Answers (n : Nat) (r : Reply) : Prop := r.step = some n ∧ r.line.head? = some (stepByte n)

/-- An error where a reply to the step was due. -/
def Breaks (n : Nat) (r : Reply) : Prop :=
  r.step = some n ∧ r.line.head? ≠ some 50 ∧ r.line.head? ≠ some 51

/-- The replies to the steps from one on. -/
def InOrder (n : Nat) (rs : List Reply) : Prop :=
  ∀ i r, rs[i]? = some r → Answers (n + i) r

theorem inOrder_nil (n : Nat) : InOrder n [] := fun i r h => by cases h

theorem InOrder.tail {n : Nat} {r : Reply} {rs : List Reply} (h : InOrder n (r :: rs)) :
    InOrder (n + 1) rs := by
  intro i r' hr'
  have := h (i + 1) r' hr'
  rwa [← Nat.add_assoc, Nat.add_right_comm] at this

theorem InOrder.snoc {n : Nat} {rs : List Reply} {r : Reply} (h : InOrder n rs)
    (hr : Answers (n + rs.length) r) : InOrder n (rs ++ [r]) := by
  intro i r' hr'
  rcases Nat.lt_trichotomy i rs.length with hi | rfl | hi
  · rw [List.getElem?_append_left hi] at hr'
    exact h i r' hr'
  · rw [List.getElem?_append_right le_rfl, Nat.sub_self] at hr'
    obtain rfl : r = r' := Option.some.inj hr'
    exact hr
  · rw [List.getElem?_append_right hi.le, List.getElem?_eq_none (by simp; omega)] at hr'
    cases hr'

theorem head_line {code : Nat} (text : CStr) :
    (printInt code ++ space :: text).head? = (printInt code ++ [space]).head? := by
  cases printInt code with
  | nil => rfl
  | cons c cs => rfl

/-- An error begins with neither byte. -/
theorem head_error {code : Nat} (h : IsError code) (text : CStr) :
    (printInt code ++ space :: text).head? ≠ some 50 ∧
      (printInt code ++ space :: text).head? ≠ some 51 := by
  have hall : ∀ i < 200, (printInt (400 + i : Nat) ++ [space]).head? ≠ some 50 ∧
      (printInt (400 + i : Nat) ++ [space]).head? ≠ some 51 := by decide +kernel
  have hcode := hall (code - 400) (by unfold IsError at h; omega)
  rw [Nat.add_sub_cancel' h.1] at hcode
  rw [head_line text]
  exact hcode

/-! ## What every step keeps -/

def Place.Running : Place → Prop
  | .exited _ => False
  | _ => True

/-- The STORs begun and ended. -/
def Balanced (s : Pipeline) : Prop :=
  match s.place with
  | .sending _ => s.begun = s.ended + 1
  | .failed | .responding .failed => s.ended ≤ s.begun ∧ s.begun ≤ s.ended + 1
  | .exited _ => True
  | _ => s.begun = s.ended

/-- `respcount` is what is still to be read of the STORs that were counted. -/
def Counted (s : Pipeline) : Prop :=
  match s.place with
  | .sending false | .sent false => s.respcount + 2 + s.read.length = 2 * s.begun
  | .failed | .responding .failed => ∃ k : Int, s.respcount + s.read.length = 2 * k
  | .closing => s.respcount ≤ 0 ∧ s.respcount + s.read.length = 2 * s.begun
  | .exited status => status = 0 → s.read.length = 2 * s.begun ∧ s.ended = s.begun
  | _ => s.respcount + s.read.length = 2 * s.begun

/-- The replies on their way: `goods` are in order, and there is an error behind them where the
server is astray. -/
structure Mail (s : Pipeline) (goods tail : List Reply) : Prop where
  inbox : s.inbox = goods ++ tail
  order : InOrder s.read.length goods
  handled : s.handled = s.read.length + goods.length
  sent : s.handled ≤ s.begun + s.ended
  ready : s.phase = .ready → s.handled % 2 = 0
  storing : s.phase = .storing → s.handled % 2 = 1
  good : s.phase ≠ .astray → tail = []
  broken : s.phase = .astray → ∃ r rest, tail = r :: rest ∧ Breaks s.handled r

structure Sound (s : Pipeline) : Prop where
  balanced : Balanced s
  counted : Counted s
  read : InOrder 0 s.read
  mail : s.place.Running → ∃ goods tail, Mail s goods tail

theorem sound_start : Sound .start where
  balanced := rfl
  counted := rfl
  read := inOrder_nil 0
  mail _ := ⟨[], [], rfl, inOrder_nil 0, rfl, le_rfl, fun _ => rfl, nofun, fun _ => rfl, nofun⟩

section

variable {s s' : Pipeline}

/-- The counter has the parity of the replies that were read. -/
theorem Sound.parity (h : Sound s) (hrun : s.place.Running) :
    ∃ k : Int, s.respcount + s.read.length = 2 * k := by
  have hcounted := h.counted
  unfold Counted at hcounted
  split at hcounted
  · exact ⟨s.begun - 1, by omega⟩
  · exact ⟨s.begun - 1, by omega⟩
  · exact hcounted
  · exact hcounted
  · exact ⟨s.begun, hcounted.2⟩
  · next hplace =>
    rw [hplace] at hrun
    exact hrun.elim
  · exact ⟨s.begun, hcounted⟩

/-- A step of lcreate that reads nothing leaves the replies as they are. -/
theorem Mail.keep {goods tail : List Reply} (h : Mail s goods tail) (hinbox : s'.inbox = s.inbox)
    (hread : s'.read = s.read) (hphase : s'.phase = s.phase) (hhandled : s'.handled = s.handled)
    (hsent : s.begun + s.ended ≤ s'.begun + s'.ended) : Mail s' goods tail where
  inbox := hinbox.trans h.inbox
  order := hread ▸ h.order
  handled := by rw [hhandled, hread, h.handled]
  sent := by rw [hhandled]; exact h.sent.trans hsent
  ready hp := by rw [hhandled]; exact h.ready (hphase ▸ hp)
  storing hp := by rw [hhandled]; exact h.storing (hphase ▸ hp)
  good hp := h.good (hphase ▸ hp)
  broken hp := by rw [hhandled]; exact h.broken (hphase ▸ hp)

theorem Sound.keep (h : Sound s) (hrun : s.place.Running) (hinbox : s'.inbox = s.inbox)
    (hread : s'.read = s.read) (hphase : s'.phase = s.phase) (hhandled : s'.handled = s.handled)
    (hsent : s.begun + s.ended ≤ s'.begun + s'.ended) (hbalanced : Balanced s')
    (hcounted : Counted s') : Sound s' where
  balanced := hbalanced
  counted := hcounted
  read := hread ▸ h.read
  mail _ := by
    obtain ⟨goods, tail, hmail⟩ := h.mail hrun
    exact ⟨goods, tail, hmail.keep hinbox hread hphase hhandled hsent⟩

/-- `stor_response` reads the reply it expects, or the error. -/
theorem Sound.receive (h : Sound s) {caller : Caller} (hplace : s.place = .responding caller)
    (hstep : s.receive = some s') : Sound s' := by
  have hrun : s.place.Running := by rw [hplace]; trivial
  obtain ⟨k, hparity⟩ := h.parity hrun
  obtain ⟨goods, tail, hmail⟩ := h.mail hrun
  have hexpected : expected s.respcount = stepByte s.read.length := by
    unfold expected stepByte
    by_cases heven : s.read.length % 2 = 0
    · rw [if_pos heven, if_neg (by omega)]
    · rw [if_neg heven, if_pos (by omega)]
  unfold Pipeline.receive at hstep
  have hinbox := hmail.inbox
  cases goods with
  | nil =>
    have hastray : s.phase = .astray := by
      by_contra hne
      rw [hinbox, hmail.good hne] at hstep
      cases hstep
    obtain ⟨r, rest, rfl, -, hne, hne'⟩ := hmail.broken hastray
    rw [hinbox] at hstep
    have hother : r.line.head? ≠ some (expected s.respcount) := by
      unfold expected
      split_ifs
      · exact hne
      · exact hne'
    simp only [List.nil_append, if_neg hother] at hstep
    obtain rfl := Option.some.inj hstep
    exact ⟨trivial, fun hzero => absurd hzero (by decide), h.read, fun hrun' => False.elim hrun'⟩
  | cons r goods =>
    rw [hinbox] at hstep
    have hanswers : Answers s.read.length r := hmail.order 0 r rfl
    simp only [List.cons_append, hexpected, if_pos hanswers.2] at hstep
    obtain rfl := Option.some.inj hstep
    have hlen : (s.read ++ [r]).length = s.read.length + 1 := by
      rw [List.length_append, List.length_singleton]
    refine ⟨?_, ?_, h.read.snoc (by rwa [Nat.zero_add]), fun _ => ⟨goods, tail, ?_⟩⟩
    · have hbalanced := h.balanced
      unfold Balanced at hbalanced ⊢
      simp only [hplace] at hbalanced ⊢
      exact hbalanced
    · have hcounted := h.counted
      unfold Counted at hcounted ⊢
      simp only [hplace, hlen] at hcounted ⊢
      cases caller with
      | failed =>
        obtain ⟨k, hk⟩ := hcounted
        exact ⟨k, by omega⟩
      | line => simp only at hcounted ⊢; omega
      | done => simp only at hcounted ⊢; omega
    · refine ⟨rfl, ?_, ?_, hmail.sent, hmail.ready, hmail.storing, hmail.good, hmail.broken⟩
      · show InOrder (s.read ++ [r]).length goods
        rw [hlen]
        exact hmail.order.tail
      · show s.handled = (s.read ++ [r]).length + goods.length
        rw [hlen, hmail.handled, List.length_cons]
        omega

/-- The reply that the next step is due. -/
theorem Mail.answered {goods tail : List Reply} (h : Mail s goods tail) {ph : Phase} {line : CStr}
    (hgood : s.phase ≠ .astray) (hline : line.head? = some (stepByte s.handled))
    (hsent : s.handled < s.begun + s.ended) (hready : ph = .ready → (s.handled + 1) % 2 = 0)
    (hstoring : ph = .storing → (s.handled + 1) % 2 = 1) (hph : ph ≠ .astray) :
    Mail { s with phase := ph, handled := s.handled + 1, inbox := s.inbox ++ [⟨some s.handled, line⟩] }
      (goods ++ [⟨some s.handled, line⟩]) [] where
  inbox := by rw [h.inbox, h.good hgood, List.append_nil, List.append_nil]
  order := h.order.snoc (h.handled ▸ ⟨rfl, hline⟩)
  handled := by
    have hhandled := h.handled
    rw [List.length_append, List.length_singleton]
    show s.handled + 1 = s.read.length + (goods.length + 1)
    omega
  sent := hsent
  ready := hready
  storing := hstoring
  good _ := rfl
  broken hp := absurd hp hph

/-- An error where a reply is due. -/
theorem Mail.broke {goods tail : List Reply} (h : Mail s goods tail) {line : CStr}
    (hgood : s.phase ≠ .astray) (hline : line.head? ≠ some 50 ∧ line.head? ≠ some 51) :
    Mail { s with phase := .astray, inbox := s.inbox ++ [⟨some s.handled, line⟩] } goods
      [⟨some s.handled, line⟩] where
  inbox := by rw [h.inbox, h.good hgood, List.append_nil]
  order := h.order
  handled := h.handled
  sent := h.sent
  ready := nofun
  storing := nofun
  good hp := absurd rfl hp
  broken _ := ⟨⟨some s.handled, line⟩, [], rfl, rfl, hline⟩

/-- The server keeps to the order whenever it replies. -/
theorem Sound.answer (h : Sound s) {code : Nat} {text : CStr}
    (hstep : s.answer code text = some s') : Sound s' := by
  have hrest : s'.place = s.place ∧ s'.respcount = s.respcount ∧ s'.begun = s.begun ∧
      s'.ended = s.ended ∧ s'.read = s.read ∧
      (s.place.Running → ∃ goods tail, Mail s' goods tail) := by
    unfold Pipeline.answer at hstep
    dsimp only at hstep
    have herror : s.phase ≠ .astray → IsError code → s' = { s with
        phase := .astray
        inbox := s.inbox ++ [⟨some s.handled, printInt code ++ space :: text⟩] } →
        s.place.Running → ∃ goods tail, Mail s' goods tail := by
      intro hgood hcode hs' hrun
      obtain ⟨goods, tail, hmail⟩ := h.mail hrun
      subst hs'
      exact ⟨goods, _, hmail.broke hgood (head_error hcode text)⟩
    cases hphase : s.phase with
    | astray =>
      rw [hphase] at hstep
      obtain rfl := Option.some.inj hstep
      refine ⟨rfl, rfl, rfl, rfl, rfl, fun hrun => ?_⟩
      obtain ⟨goods, tail, hmail⟩ := h.mail hrun
      obtain ⟨r, rest, rfl, hbreaks⟩ := hmail.broken hphase
      refine ⟨goods, r :: rest ++ [⟨none, printInt code ++ space :: text⟩], ?_, hmail.order, hmail.handled, hmail.sent,
        nofun, nofun, fun hgood => absurd rfl hgood, fun _ => ⟨r, _, rfl, hbreaks⟩⟩
      rw [hmail.inbox, List.append_assoc]
    | ready =>
      have hgood : s.phase ≠ .astray := by rw [hphase]; decide
      rw [hphase] at hstep
      dsimp only [Phase.answer] at hstep
      by_cases hcode : code = 350
      · subst hcode
        rw [if_pos rfl] at hstep
        obtain ⟨hsent, rfl⟩ := of_guard hstep
        refine ⟨rfl, rfl, rfl, rfl, rfl, fun hrun => ?_⟩
        obtain ⟨goods, tail, hmail⟩ := h.mail hrun
        have heven := hmail.ready hphase
        refine ⟨_, _, hmail.answered hgood ?_ hsent nofun (fun _ => by omega) (by decide)⟩
        rw [head_line, stepByte, if_pos heven]
        decide
      · rw [if_neg hcode] at hstep
        by_cases hbad : IsError code
        · rw [if_pos hbad] at hstep
          obtain rfl := Option.some.inj hstep
          exact ⟨rfl, rfl, rfl, rfl, rfl, herror hgood hbad rfl⟩
        · rw [if_neg hbad] at hstep
          cases hstep
    | storing =>
      have hgood : s.phase ≠ .astray := by rw [hphase]; decide
      rw [hphase] at hstep
      dsimp only [Phase.answer] at hstep
      by_cases hcode : code = 250
      · subst hcode
        rw [if_pos rfl] at hstep
        obtain ⟨hsent, rfl⟩ := of_guard hstep
        refine ⟨rfl, rfl, rfl, rfl, rfl, fun hrun => ?_⟩
        obtain ⟨goods, tail, hmail⟩ := h.mail hrun
        have hodd := hmail.storing hphase
        refine ⟨_, _, hmail.answered hgood ?_ hsent (fun _ => by omega) nofun (by decide)⟩
        rw [head_line, stepByte, if_neg (by omega)]
        decide
      · rw [if_neg hcode] at hstep
        by_cases hbad : IsError code
        · rw [if_pos hbad] at hstep
          obtain rfl := Option.some.inj hstep
          exact ⟨rfl, rfl, rfl, rfl, rfl, herror hgood hbad rfl⟩
        · rw [if_neg hbad] at hstep
          cases hstep
  obtain ⟨hplace, hrespcount, hbegun, hended, hread, hmail⟩ := hrest
  refine ⟨?_, ?_, hread ▸ h.read, fun hrun => hmail (hplace ▸ hrun)⟩
  · have hbalanced := h.balanced
    unfold Balanced at hbalanced ⊢
    rwa [hplace, hbegun, hended]
  · have hcounted := h.counted
    unfold Counted at hcounted ⊢
    rwa [hplace, hrespcount, hbegun, hended, hread]

/-- `stor_response` returns 0. -/
theorem Sound.back (h : Sound s) {caller : Caller} (hplace : s.place = .responding caller) :
    Sound { s with place := caller.back } := by
  have hbalanced := h.balanced
  have hcounted := h.counted
  unfold Balanced at hbalanced
  unfold Counted at hcounted
  simp only [hplace] at hbalanced hcounted
  cases caller <;>
    exact h.keep (by rw [hplace]; trivial) rfl rfl rfl rfl le_rfl hbalanced hcounted

theorem Sound.exit (h : Sound s) {status : Nat} (hstatus : status ≠ 0) :
    Sound { s with place := .exited status } :=
  ⟨trivial, fun hzero => absurd hzero hstatus, h.read, fun hrun => False.elim hrun⟩

/-- The step of lcreate that exits leaves nothing to be read of what it sent. -/
theorem Sound.complete (h : Sound s) (hplace : s.place = .closing) :
    s.read.length = 2 * s.begun ∧ s.ended = s.begun := by
  obtain ⟨goods, tail, hmail⟩ := h.mail (by rw [hplace]; trivial)
  have hbalanced := h.balanced
  have hcounted := h.counted
  unfold Balanced at hbalanced
  unfold Counted at hcounted
  simp only [hplace] at hbalanced hcounted
  have hhandled := hmail.handled
  have hsent := hmail.sent
  omega

theorem Sound.step {tranOnly : Bool} {e : PipeEvent} (h : Sound s)
    (hstep : s.step tranOnly e = some s') : Sound s' := by
  have hbalanced := h.balanced
  have hcounted := h.counted
  unfold Balanced at hbalanced
  unfold Counted at hcounted
  cases e with
  | answer code text => exact h.answer hstep
  | receive =>
    simp only [Pipeline.step] at hstep
    split at hstep
    · next caller hplace =>
      split_ifs at hstep with hpos
      exact h.receive hplace hstep
    · cases hstep
  | stor =>
    simp only [Pipeline.step] at hstep
    split at hstep
    · next hplace =>
      obtain rfl := Option.some.inj hstep
      simp only [hplace] at hbalanced hcounted
      refine h.keep (by rw [hplace]; trivial) rfl rfl rfl rfl (by dsimp only; omega) ?_ ?_
      · show s.begun + 1 = s.ended + 1
        omega
      · show s.respcount + 2 + s.read.length = 2 * (s.begun + 1 : Nat)
        omega
    · next hplace =>
      obtain rfl := Option.some.inj hstep
      simp only [hplace] at hbalanced hcounted
      refine h.keep (by rw [hplace]; trivial) rfl rfl rfl rfl (by dsimp only; omega) ?_ ?_
      · show s.begun + 1 = s.ended + 1
        omega
      · show s.respcount + 2 + s.read.length = 2 * (s.begun + 1 : Nat)
        omega
    · cases hstep
  | unsent =>
    obtain ⟨hplace, rfl⟩ := of_guard hstep
    simp only [hplace] at hbalanced hcounted
    refine h.keep (by rw [hplace]; trivial) rfl rfl rfl rfl le_rfl ?_ ?_
    · show s.ended ≤ s.begun ∧ s.begun ≤ s.ended + 1
      omega
    · exact ⟨s.begun + 1, by dsimp only; omega⟩
  | dot =>
    simp only [Pipeline.step] at hstep
    split at hstep
    · next tran hplace =>
      obtain rfl := Option.some.inj hstep
      simp only [hplace] at hbalanced hcounted
      refine h.keep (by rw [hplace]; trivial) rfl rfl rfl rfl (by dsimp only; omega) hbalanced ?_
      cases tran with
      | true => exact hcounted
      | false => exact hcounted
    · cases hstep
  | stored =>
    simp only [Pipeline.step] at hstep
    split at hstep
    · next hplace =>
      obtain rfl := Option.some.inj hstep
      simp only [hplace] at hbalanced hcounted
      refine h.keep (by rw [hplace]; trivial) rfl rfl rfl rfl le_rfl ?_ ?_
      · cases tranOnly with
        | true => exact hbalanced
        | false => exact hbalanced
      · cases tranOnly with
        | true => exact hcounted
        | false => exact hcounted
    · next hplace =>
      obtain rfl := Option.some.inj hstep
      simp only [hplace] at hbalanced hcounted
      exact h.keep (by rw [hplace]; trivial) rfl rfl rfl rfl le_rfl hbalanced hcounted
    · cases hstep
  | fails =>
    simp only [Pipeline.step] at hstep
    split at hstep
    · next hplace =>
      obtain rfl := Option.some.inj hstep
      simp only [hplace] at hbalanced hcounted
      refine h.keep (by rw [hplace]; trivial) rfl rfl rfl rfl le_rfl ?_ ⟨s.begun, hcounted⟩
      show s.ended ≤ s.begun ∧ s.begun ≤ s.ended + 1
      omega
    · next hplace =>
      obtain rfl := Option.some.inj hstep
      simp only [hplace] at hbalanced hcounted
      refine h.keep (by rw [hplace]; trivial) rfl rfl rfl rfl le_rfl ?_ ⟨s.begun, hcounted⟩
      show s.ended ≤ s.begun ∧ s.begun ≤ s.ended + 1
      omega
    · next hplace =>
      obtain rfl := Option.some.inj hstep
      simp only [hplace] at hbalanced hcounted
      refine h.keep (by rw [hplace]; trivial) rfl rfl rfl rfl le_rfl ?_ ⟨s.begun, hcounted⟩
      show s.ended ≤ s.begun ∧ s.begun ≤ s.ended + 1
      omega
    · next hplace =>
      obtain rfl := Option.some.inj hstep
      simp only [hplace] at hbalanced hcounted
      refine h.keep (by rw [hplace]; trivial) rfl rfl rfl rfl le_rfl ?_ ⟨s.begun, hcounted⟩
      show s.ended ≤ s.begun ∧ s.begun ≤ s.ended + 1
      omega
    · cases hstep
  | fgets =>
    obtain ⟨hplace, rfl⟩ := of_guard hstep
    simp only [hplace] at hbalanced hcounted
    refine h.keep (by rw [hplace]; trivial) rfl rfl rfl rfl le_rfl ?_ ?_
    · by_cases hpos : s.respcount > 0
      · simpa only [Balanced, hpos, if_true] using hbalanced
      · simpa only [Balanced, hpos, if_false] using hbalanced
    · by_cases hpos : s.respcount > 0
      · simpa only [Counted, hpos, if_true] using hcounted
      · simpa only [Counted, hpos, if_false] using hcounted
  | eof =>
    obtain ⟨hplace, rfl⟩ := of_guard hstep
    simp only [hplace] at hbalanced hcounted
    exact h.keep (by rw [hplace]; trivial) rfl rfl rfl rfl le_rfl hbalanced hcounted
  | skip =>
    obtain ⟨hplace, rfl⟩ := of_guard hstep
    simp only [hplace] at hbalanced hcounted
    exact h.keep (by rw [hplace]; trivial) rfl rfl rfl rfl le_rfl hbalanced hcounted
  | noData =>
    simp only [Pipeline.step] at hstep
    split at hstep
    · next caller hplace =>
      obtain ⟨-, rfl⟩ := of_guard hstep
      exact h.back hplace
    · cases hstep
  | counted =>
    simp only [Pipeline.step] at hstep
    split at hstep
    · next caller hplace =>
      split_ifs at hstep
      obtain rfl := Option.some.inj hstep
      exact h.back hplace
    · cases hstep
  | lost =>
    simp only [Pipeline.step] at hstep
    split at hstep
    · obtain ⟨-, rfl⟩ := of_guard hstep
      exact h.exit (by decide)
    · cases hstep
  | next =>
    simp only [Pipeline.step] at hstep
    split at hstep
    · next hplace =>
      obtain rfl := Option.some.inj hstep
      simp only [hplace] at hbalanced hcounted
      refine h.keep (by rw [hplace]; trivial) rfl rfl rfl rfl le_rfl ?_ ?_
      · by_cases hpos : s.respcount > 0
        · simpa only [Balanced, hpos, if_true] using hbalanced
        · simpa only [Balanced, hpos, if_false] using hbalanced
      · by_cases hpos : s.respcount > 0
        · simpa only [Counted, hpos, if_true] using hcounted
        · simpa only [Counted, hpos, if_false] using ⟨not_lt.mp hpos, hcounted⟩
    · next hplace =>
      obtain rfl := Option.some.inj hstep
      by_cases hpos : s.respcount > 0
      · simp only [hplace] at hbalanced hcounted
        simp only [hpos, if_true]
        exact h.keep (by rw [hplace]; trivial) rfl rfl rfl rfl le_rfl hbalanced hcounted
      · simp only [hpos, if_false]
        exact h.exit (by decide)
    · cases hstep
  | closed =>
    obtain ⟨hplace, rfl⟩ := of_guard hstep
    exact ⟨trivial, fun _ => h.complete hplace, h.read, fun hrun => False.elim hrun⟩
  | die status =>
    simp only [Pipeline.step] at hstep
    split at hstep
    · obtain ⟨hstatus, rfl⟩ := of_guard hstep
      exact h.exit hstatus
    · obtain ⟨hstatus, rfl⟩ := of_guard hstep
      exact h.exit hstatus
    · obtain ⟨hstatus, rfl⟩ := of_guard hstep
      exact h.exit hstatus
    · obtain ⟨hstatus, rfl⟩ := of_guard hstep
      exact h.exit hstatus
    · obtain ⟨hstatus, rfl⟩ := of_guard hstep
      exact h.exit hstatus
    · cases hstep

end

/-! ## Every run -/

theorem sound_pipeline {tranOnly : Bool} {events : List PipeEvent} {s : Pipeline}
    (h : pipeline tranOnly events = some s) : Sound s :=
  run_invariant (P := fun _ s => Sound s) sound_start (fun _ _ _ _ hs hstep => hs.step hstep) h

/-- The next reply answers the oldest step that has no answer, and unless it is an error it
begins with a '3' or a '2' by the parity of `respcount`. -/
def NextInStep (s : Pipeline) : Prop :=
  ∀ r rest, s.inbox = r :: rest → r.step = some s.read.length ∧
    ((r.line.head? = some 51 ∨ r.line.head? = some 50) →
      (r.line.head? = some 51 ↔ s.respcount % 2 = 0) ∧
        (r.line.head? = some 50 ↔ s.respcount % 2 = 1))

/-- Every STOR was ended, and answered by a 3xx and a 2xx. -/
def AllAnswered (s : Pipeline) : Prop :=
  s.ended = s.begun ∧ ∀ i < s.begun,
    (∃ r ∈ s.read, r.step = some (2 * i) ∧ r.line.head? = some 51) ∧
      ∃ r ∈ s.read, r.step = some (2 * i + 1) ∧ r.line.head? = some 50

theorem Sound.nextInStep {s : Pipeline} (h : Sound s) (hrun : s.place.Running) :
    NextInStep s := by
  obtain ⟨k, hparity⟩ := h.parity hrun
  obtain ⟨goods, tail, hmail⟩ := h.mail hrun
  intro r rest hinbox
  cases goods with
  | nil =>
    have hastray : s.phase = .astray := by
      by_contra hne
      have hnil := hmail.inbox
      rw [hmail.good hne, hinbox] at hnil
      cases hnil
    obtain ⟨r', rest', rfl, hstep, htwo, hthree⟩ := hmail.broken hastray
    have hhead := hmail.inbox
    rw [hinbox, List.nil_append] at hhead
    obtain ⟨rfl, -⟩ := List.cons.inj hhead
    have hhandled := hmail.handled
    rw [List.length_nil, Nat.add_zero] at hhandled
    exact ⟨hhandled ▸ hstep, fun hgood => (hgood.elim hthree htwo).elim⟩
  | cons g goods =>
    have hhead := hmail.inbox
    rw [hinbox, List.cons_append] at hhead
    obtain ⟨rfl, -⟩ := List.cons.inj hhead
    obtain ⟨hstep, hline⟩ : Answers s.read.length r := hmail.order 0 r rfl
    refine ⟨hstep, fun _ => ?_⟩
    rw [hline]
    unfold stepByte
    by_cases heven : s.read.length % 2 = 0
    · rw [if_pos heven]
      exact ⟨iff_of_true rfl (by omega), iff_of_false (by decide) (by omega)⟩
    · rw [if_neg heven]
      exact ⟨iff_of_false (by decide) (by omega), iff_of_true rfl (by omega)⟩

theorem Sound.allAnswered {s : Pipeline} (h : Sound s) (hplace : s.place = .exited 0) :
    AllAnswered s := by
  have hcounted := h.counted
  unfold Counted at hcounted
  simp only [hplace] at hcounted
  obtain ⟨hlen, hended⟩ := hcounted trivial
  have hread : ∀ n, n < s.read.length → ∃ r ∈ s.read, r.step = some n ∧
      r.line.head? = some (stepByte n) := by
    intro n hn
    have hanswers := h.read n s.read[n] (List.getElem?_eq_getElem hn)
    rw [Nat.zero_add] at hanswers
    exact ⟨s.read[n], List.getElem_mem hn, hanswers⟩
  refine ⟨hended, fun i hi => ⟨?_, ?_⟩⟩
  · have hthree := hread (2 * i) (by omega)
    rwa [stepByte, if_pos (by omega)] at hthree
  · have htwo := hread (2 * i + 1) (by omega)
    rwa [stepByte, if_neg (by omega)] at htwo

/-- In every run of lcreate and the server, the replies come in step with `respcount`, and
lcreate exits with 0 only where all it sent was stored.  The server is one that replies as
`f_stor` does. -/
theorem responses_in_step (tranOnly : Bool) (events : List PipeEvent) (s : Pipeline)
    (h : pipeline tranOnly events = some s) :
    (s.place.Running → NextInStep s) ∧ (s.place = .exited 0 → AllAnswered s) ∧
      ∀ (cfg : ServerConfig) (lines : List (CStr × (Session → Session))) (trace : Trace)
        (r : Option (Unit × Session)), Interaction.Runs (stores cfg lines .start) trace r →
          (phase trace).isSome = true := by
  have hsound := sound_pipeline h
  exact ⟨hsound.nextInStep, hsound.allAnswered, fun _ _ _ _ hrun => stores_phase hrun⟩

/-- A transcript that is stored. -/
def oneStored : List PipeEvent :=
  [.stor, .answer 350 (lit "Storing file"), .dot, .stored, .answer 250 (lit "File stored"), .next,
    .receive, .receive, .counted, .next, .closed]

def oneStoredEnd : Pipeline :=
  { place := .exited 0, respcount := 0, begun := 1, ended := 1
    read := [⟨some 0, lit "350 Storing file"⟩, ⟨some 1, lit "250 File stored"⟩]
    phase := .ready, handled := 2, inbox := [] }

theorem responses_in_step_one :
    pipeline true oneStored = some oneStoredEnd ∧ AllAnswered oneStoredEnd := by
  have hrun : pipeline true oneStored = some oneStoredEnd := by decide +kernel
  exact ⟨hrun, (responses_in_step true oneStored oneStoredEnd hrun).2.1 rfl⟩

end Lcreate
end Radmind
