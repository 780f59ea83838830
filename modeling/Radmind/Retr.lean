import Radmind.Applefile.Retr

/-!
# Retrieving a file

`retr` writes what the server sends to a file of a temporary name, which may be there already, and
removes that file where it fails once it has opened it.
-/

namespace Radmind
namespace Temp

open FailingState

/-- The arguments and settings of a call. -/
structure Args where
  path : CStr
  pid : BitVec 32
  transize : Int
  cksum : Bool
  trancksum : CStr
  createPrefix : Bool
  /-- the digest of the bytes in base64 -/
  digest : List Byte → CStr

/-- What the calls it makes come to, and what the server answers. -/
structure Answers where
  reply : Option CStr
  amount : Nat → Nat
  succeeds : LocalCall → Bool
  noEntry : Bool
  getline : List Byte → Option CStr

def Args.call (args : Args) (answers : Answers) : RetrCall where
  path := args.path
  pid := args.pid
  transize := args.transize
  cksum := args.cksum
  trancksum := args.trancksum
  createPrefix := args.createPrefix
  reply := answers.reply
  amount := answers.amount
  succeeds := answers.succeeds
  noEntry := answers.noEntry
  getline := answers.getline
  digest := args.digest

/-- What the server has to deliver still, the file of the temporary name, the offset of the
descriptor, and whether the file was opened. -/
structure State where
  net : RetrState
  file : Option (List Byte)
  offset : Nat
  opened : Bool

abbrev Run (α : Type) := Act Int State α

def onNet {α : Type} (m : Retr α) : Run α := onPart State.net (fun st net => { st with net := net }) m

/-- Bytes written into a file at an offset. -/
def writeAt (offset : Nat) (buf file : List Byte) : List Byte :=
  file.take offset ++ buf ++ file.drop (offset + buf.length)

/-- `open` with `O_WRONLY | O_CREAT`.  What the file holds stays. -/
def openFile (call : RetrCall) : Run Unit := do
  onNet (openTemp call)
  modify fun st => { st with file := some (st.file.getD []), offset := 0, opened := true }

/-- `write` -/
def writeFile (call : RetrCall) (buf : List Byte) : Run Unit := do
  let st ← get
  check (call.succeeds (.write st.net.body.length)) (-1)
  set { st with
    file := st.file.map (writeAt st.offset buf)
    offset := st.offset + buf.length }

/-- The loop over the bytes of the file.  Their number bounds its rounds. -/
def copyFile (call : RetrCall) : Nat → Nat → Run Unit
  | 0, _ => pure ()
  | fuel + 1, size =>
    if size = 0 then pure ()
    else do
      let buf ← onNet (snetRead call (min 8192 size))
      writeFile call buf
      copyFile call fuel (size - buf.length)

/-- What comes behind the file: the line that must be '.', and the checksum. -/
def endFile (call : RetrCall) : Run Unit := do
  check (call.succeeds .closeData) (-1)
  let line ← onNet (snetGetline call)
  check (line = [dot]) (-1)
  let st ← get
  check (!call.cksum || call.digest st.net.body = call.trancksum) 1

/-- The labels `error2` and `error1`. -/
def unlinkTemp (e : Int) : Run Unit := do
  modify fun st => { st with file := none }
  throw e

/-- `retr`, where the server announces the size with `sizeLine`. -/
def retr (call : RetrCall) (sizeLine : CStr) : Run Unit := do
  check (!(call.cksum && call.trancksum = [minus])) 1
  check (call.succeeds .writeRetr) (-1)
  check call.reply.isSome (-1)
  check ((call.reply.getD []).head? = some 50) 1
  let size := strtol 10 sizeLine
  check (!(0 ≤ call.transize ∧ size ≠ call.transize)) (-1)
  check ((temppath call).length < maxPathLen) (-1)
  openFile call
  tryCatch (do copyFile call size.toNat size.toNat; endFile call) unlinkTemp

/-- The state in which the size line has been read. -/
def start (prior : Option (List Byte)) (stream : List Byte) : State :=
  ⟨retrStart stream, prior, 0, false⟩

/-- On success the file holds the announced bytes of the stream and nothing else, the line behind
them is '.', and size and checksum are those of the transcript.  A call that fails once the file was
opened leaves none. -/
def Exact (call : RetrCall) (sizeLine : CStr) (prior : Option (List Byte)) (stream : List Byte) :
    Prop :=
  Meets (retr call sizeLine) (start prior stream)
    (fun _ st => ∃ n : Nat, strtol 10 sizeLine = n ∧ n ≤ stream.length ∧
      st.file = some (stream.take n) ∧ call.getline (stream.drop n) = some [dot] ∧
      (0 ≤ call.transize → call.transize = n) ∧
      (call.cksum = true → call.digest (stream.take n) = call.trancksum))
    (fun rc st => rc ≠ 0 ∧ (st.opened = true → st.file = none))

/-- Nothing of a file that is there lies behind the announced size. -/
def Covers (sizeLine : CStr) (prior : Option (List Byte)) : Prop :=
  0 ≤ strtol 10 sizeLine ∧ ∀ old, prior = some old → old.length ≤ strtol 10 sizeLine

/-- The call does not come to its end whatever the server sends. -/
def Refused (args : Args) (sizeLine : CStr) : Prop :=
  args.cksum = true ∧ args.trancksum = [minus] ∨
    0 ≤ args.transize ∧ strtol 10 sizeLine ≠ args.transize ∨
    maxPathLen ≤ (args.path ++ lit ".radmind." ++ printInt args.pid.toInt).length ∨
    args.cksum = true ∧ ∀ sent : List Byte, sent.length = (strtol 10 sizeLine).toNat →
      args.digest sent ≠ args.trancksum

/-! ## What a step leaves -/

/-- `n` bytes were read and written over what the file held. -/
structure Written (stream old : List Byte) (n : Nat) (st : State) : Prop where
  reading : Reading stream n st.net
  file : st.file = some (stream.take n ++ old.drop n)
  offset : st.offset = n
  opened : st.opened = true

/-- Nothing fails, and the stream has `len` bytes. -/
structure Delivers (call : RetrCall) (stream : List Byte) (len : Nat) : Prop where
  succeeds : ∀ c, call.succeeds c = true
  amount : ∀ n, 0 < call.amount n
  length : len ≤ stream.length

section

variable {call : RetrCall} {stream old : List Byte} {n : Nat} {st : State}

theorem meets_onNet {α : Type} {m : Retr α} {post : α → State → Prop} {fail : Int → State → Prop} :
    Meets (onNet m) st post fail ↔
      Meets m st.net (fun a net => post a { st with net := net })
        (fun e net => fail e { st with net := net }) := meets_onPart

theorem writeAt_take {file buf : List Byte} (hn : n ≤ stream.length)
    (hfile : file = stream.take n ++ old.drop n) {k : Nat} (hbuf : buf = (stream.drop n).take k)
    (hk : k ≤ (stream.drop n).length) :
    writeAt n buf file = stream.take (n + k) ++ old.drop (n + k) := by
  have hlen : (stream.take n).length = n := by
    rw [List.length_take, Nat.min_eq_left hn]
  have hbuflen : buf.length = k := by
    rw [hbuf, List.length_take, Nat.min_eq_left hk]
  have htake : file.take n = stream.take n := by
    rw [hfile, List.take_left' hlen]
  have hdrop : file.drop (n + k) = old.drop (n + k) := by
    rw [hfile, ← List.drop_drop, List.drop_left' hlen, List.drop_drop]
  rw [writeAt, hbuflen, htake, hdrop, hbuf, ← List.take_add]

/-- The loop writes the bytes it is given, or something fails on the way. -/
theorem meets_copyFile {fuel size : Nat} (hfuel : size ≤ fuel) (h : Written stream old n st) :
    Meets (copyFile call fuel size) st (fun _ st' => Written stream old (n + size) st')
      (fun e st' => e = -1 ∧ st'.opened = true ∧ ¬ Delivers call stream (n + size)) := by
  induction fuel generalizing size n st with
  | zero =>
    obtain rfl := Nat.le_zero.mp hfuel
    exact h
  | succ fuel ih =>
    rw [copyFile]
    by_cases hsize : size = 0
    · rw [if_pos hsize, meets_pure, hsize]
      exact h
    rw [if_neg hsize, meets_bind, meets_onNet]
    refine (meets_snetRead h.reading (min 8192 size)).mono ?_ ?_
    swap
    · rintro e net ⟨rfl, hzero, -⟩
      refine ⟨rfl, h.opened, fun hdelivers => ?_⟩
      have hamount := hdelivers.amount n
      have hlen := hdelivers.length
      unfold delivered at hzero
      omega
    rintro buf net ⟨hpos, hbuf, hnet⟩
    have hle : delivered call stream n (min 8192 size) ≤ size ∧
        delivered call stream n (min 8192 size) ≤ (stream.drop n).length := by
      rw [List.length_drop]
      unfold delivered
      omega
    generalize delivered call stream n (min 8192 size) = k at hpos hbuf hnet hle
    have hlen : buf.length = k := by
      rw [hbuf, List.length_take, Nat.min_eq_left hle.2]
    rw [meets_bind, writeFile, meets_bind, meets_get, meets_check_bind]
    split_ifs with hwrite
    swap
    · exact ⟨rfl, h.opened, fun hdelivers => hwrite (hdelivers.succeeds _)⟩
    rw [meets_set]
    have hwritten : Written stream old (n + k) { st with
        net := net
        file := st.file.map (writeAt st.offset buf)
        offset := st.offset + buf.length } := by
      refine ⟨hnet, ?_, ?_, h.opened⟩
      · show st.file.map (writeAt st.offset buf) = _
        rw [h.file, h.offset, Option.map_some, writeAt_take h.reading.le rfl hbuf hle.2]
      · show st.offset + buf.length = n + k
        rw [h.offset, hlen]
    have hsum : n + k + (size - buf.length) = n + size := by omega
    rw [← hsum]
    exact ih (by omega) hwritten

theorem body_eq_take {net : RetrState} (h : Reading stream n net) : net.body = stream.take n := by
  rw [← h.split, List.take_left' h.length]

theorem meets_endFile (h : Written stream old n st) :
    Meets (endFile call) st
      (fun _ st' => st'.file = st.file ∧ call.getline (stream.drop n) = some [dot] ∧
        (call.cksum = true → call.digest (stream.take n) = call.trancksum))
      (fun e st' => e ≠ 0 ∧ st'.opened = true ∧
        ¬ (call.succeeds .closeData = true ∧ call.getline (stream.drop n) = some [dot] ∧
          (call.cksum = true → call.digest (stream.take n) = call.trancksum))) := by
  unfold endFile
  rw [meets_check_bind]
  split_ifs with hclose
  swap
  · exact ⟨by decide, h.opened, fun hall => hclose hall.1⟩
  rw [meets_bind, meets_onNet, snetGetline, meets_bind, meets_get, meets_bind, meets_set,
    h.reading.stream_eq]
  cases hline : call.getline (stream.drop n) with
  | none => exact ⟨by decide, h.opened, fun hall => by cases hall.2.1⟩
  | some line =>
    rw [meets_pure, meets_check_bind]
    split_ifs with hdot
    swap
    · refine ⟨by decide, h.opened, fun hall => hdot ?_⟩
      exact decide_eq_true (Option.some.inj hall.2.1)
    have hdot : line = [dot] := of_decide_eq_true hdot
    rw [meets_bind, meets_get, meets_check]
    have hdigest : (!call.cksum || call.digest st.net.body = call.trancksum) = true ↔
        (call.cksum = true → call.digest (stream.take n) = call.trancksum) := by
      rw [body_eq_take h.reading]
      cases call.cksum <;> simp
    split_ifs with hcksum
    · exact ⟨rfl, by rw [hdot], hdigest.mp (by simpa using hcksum)⟩
    · exact ⟨by decide, h.opened, fun hall => hcksum (by simpa using hdigest.mpr hall.2.2)⟩

/-- Everything the call looks at is as it should be. -/
structure Arrives (call : RetrCall) (sizeLine : CStr) (stream : List Byte) : Prop where
  minus : ¬ (call.cksum = true ∧ call.trancksum = [minus])
  reply : (call.reply.getD []).head? = some 50
  transize : 0 ≤ call.transize → strtol 10 sizeLine = call.transize
  short : (temppath call).length < maxPathLen
  delivers : Delivers call stream (strtol 10 sizeLine).toNat
  getline : call.getline (stream.drop (strtol 10 sizeLine).toNat) = some [dot]
  digest : call.cksum = true →
    call.digest (stream.take (strtol 10 sizeLine).toNat) = call.trancksum

/-- What a call comes to, whatever is there before it. -/
theorem meets_retr (call : RetrCall) (sizeLine : CStr) (prior : Option (List Byte))
    (stream : List Byte) :
    Meets (retr call sizeLine) (start prior stream)
      (fun _ st => (strtol 10 sizeLine).toNat ≤ stream.length ∧
        st.file = some (stream.take (strtol 10 sizeLine).toNat ++
          (prior.getD []).drop (strtol 10 sizeLine).toNat) ∧
        call.getline (stream.drop (strtol 10 sizeLine).toNat) = some [dot] ∧
        (call.cksum = true →
          call.digest (stream.take (strtol 10 sizeLine).toNat) = call.trancksum) ∧
        ¬ (call.cksum = true ∧ call.trancksum = [minus]) ∧
        (0 ≤ call.transize → strtol 10 sizeLine = call.transize) ∧
        (temppath call).length < maxPathLen)
      (fun rc st => rc ≠ 0 ∧ (st.opened = true → st.file = none) ∧
        ¬ Arrives call sizeLine stream) := by
  have hclosed : (start prior stream).opened = true → (start prior stream).file = none :=
    fun h => by cases h
  unfold retr
  refine Meets.checked (fun hno => ⟨by decide, hclosed, fun ha => ?_⟩) fun hminus => ?_
  · exact ha.minus (by simpa using hno)
  refine Meets.checked (fun hno => ⟨by decide, hclosed, fun ha => ?_⟩) fun _ => ?_
  · exact absurd ((ha.delivers.succeeds _).symm.trans hno) (by decide)
  refine Meets.checked (fun hno => ⟨by decide, hclosed, fun ha => ?_⟩) fun _ => ?_
  · have hreply := ha.reply
    cases hcall : call.reply with
    | none =>
      rw [hcall] at hreply
      cases hreply
    | some line =>
      rw [hcall] at hno
      cases hno
  refine Meets.checked (fun hno => ⟨by decide, hclosed, fun ha => ?_⟩) fun _ => ?_
  · exact of_decide_eq_false hno ha.reply
  refine Meets.checked (fun hno => ⟨by decide, hclosed, fun ha => ?_⟩) fun htransize => ?_
  · have hboth : 0 ≤ call.transize ∧ strtol 10 sizeLine ≠ call.transize := by simpa using hno
    exact hboth.2 (ha.transize hboth.1)
  refine Meets.checked (fun hno => ⟨by decide, hclosed, fun ha => ?_⟩) fun hshort => ?_
  · exact of_decide_eq_false hno ha.short
  have hminus : ¬ (call.cksum = true ∧ call.trancksum = [minus]) := by
    rintro ⟨hcksum, heq⟩
    rw [hcksum, heq] at hminus
    cases hminus
  have htransize : 0 ≤ call.transize → strtol 10 sizeLine = call.transize := by
    intro hpos
    by_contra hne
    rw [decide_eq_true (show 0 ≤ call.transize ∧ _ from ⟨hpos, hne⟩)] at htransize
    cases htransize
  have hshort : (temppath call).length < maxPathLen := of_decide_eq_true hshort
  rw [meets_bind, openFile, meets_bind, meets_onNet]
  refine (meets_openTemp (reading_start stream)).mono ?_ ?_
  swap
  · rintro e net ⟨rfl, -, hopen⟩
    refine ⟨by decide, hclosed, fun ha => ?_⟩
    exact absurd ((ha.delivers.succeeds _).symm.trans hopen) (by decide)
  intro _ net hnet
  rw [meets_modify, meets_tryCatch, meets_bind]
  have hopened : Written stream (prior.getD []) 0 ⟨net, some (prior.getD []), 0, true⟩ :=
    ⟨hnet, rfl, rfl, rfl⟩
  have hcopy := @meets_copyFile call stream _ _ _ _ _ (le_refl (strtol 10 sizeLine).toNat) hopened
  rw [Nat.zero_add] at hcopy
  refine hcopy.mono ?_ ?_
  swap
  · rintro e st ⟨rfl, -, hno⟩
    rw [unlinkTemp, meets_bind, meets_modify, meets_throw]
    exact ⟨by decide, fun _ => rfl, fun ha => hno ha.delivers⟩
  intro _ st hst
  have hlen : (strtol 10 sizeLine).toNat ≤ stream.length := hst.reading.le
  refine (meets_endFile hst).mono ?_ ?_
  · rintro _ st' ⟨hfile, hline, hdigest⟩
    exact ⟨hlen, hfile.trans hst.file, hline, hdigest, hminus, htransize, hshort⟩
  · rintro e st' ⟨he, -, hno⟩
    rw [unlinkTemp, meets_bind, meets_modify, meets_throw]
    exact ⟨he, fun _ => rfl, fun ha => hno ⟨ha.delivers.succeeds _, ha.getline, ha.digest⟩⟩

end

/-! ## What is there before -/

/-- What `retr` leaves is what was sent for every answer of the server just where a file that is
left over does not reach behind the announced size, or the call never comes to its end. -/
theorem retr_exact_iff (args : Args) (sizeLine : CStr) (prior : Option (List Byte)) :
    (∀ answers stream, Exact (args.call answers) sizeLine prior stream) ↔
      Covers sizeLine prior ∨ Refused args sizeLine := by
  constructor
  · intro hexact
    by_contra hnot
    obtain ⟨hcovers, hrefused⟩ := not_or.mp hnot
    unfold Refused at hrefused
    simp only [not_or, not_and, not_forall, not_not, not_le] at hrefused
    obtain ⟨hminus, htransize, hshort, hdigest⟩ := hrefused
    -- a server that sends what the transcript lists
    obtain ⟨sent, hlen, hsent⟩ : ∃ sent : List Byte,
        sent.length = (strtol 10 sizeLine).toNat ∧
          (args.cksum = true → args.digest sent = args.trancksum) := by
      by_cases hcksum : args.cksum = true
      · obtain ⟨sent, hlen, heq⟩ := hdigest hcksum
        exact ⟨sent, hlen, fun _ => heq⟩
      · exact ⟨List.replicate _ nul, List.length_replicate, fun h => absurd h hcksum⟩
    let answers : Answers := ⟨some (lit "2"), fun _ => 1, fun _ => true, false, fun _ => some [dot]⟩
    have htake : sent.take (strtol 10 sizeLine).toNat = sent := List.take_of_length_le hlen.le
    have harrives : Arrives (args.call answers) sizeLine sent := by
      refine ⟨fun h => hminus h.1 h.2, rfl, htransize, hshort, ⟨fun _ => rfl, fun _ => Nat.one_pos,
        hlen.ge⟩, rfl, fun h => ?_⟩
      rw [htake]
      exact hsent h
    have hboth := (hexact answers sent).and (meets_retr (args.call answers) sizeLine prior sent)
    obtain ⟨hok, herror⟩ := meets_iff.mp hboth
    rcases hrun : (retr (args.call answers) sizeLine).result (start prior sent) with ⟨rc | _, st⟩
    · exact (herror rc st hrun).2.2.2 harrives
    · obtain ⟨⟨n, hn, hle, hfile, -⟩, -, hfile', -⟩ := hok _ st hrun
      have hn' : (strtol 10 sizeLine).toNat = n := by omega
      rw [hn'] at hfile' hlen
      refine hcovers ⟨by omega, fun old hold => ?_⟩
      rw [hold, hfile, Option.getD_some] at hfile'
      have hrest := congrArg List.length (Option.some.inj hfile')
      rw [List.length_append, List.length_drop] at hrest
      omega
  · rintro h answers stream
    refine (meets_retr (args.call answers) sizeLine prior stream).mono ?_ ?_
    · rintro _ st ⟨hlen, hfile, hline, hdigest, hminus, htransize, hshort⟩
      rcases h with ⟨hpos, hold⟩ | hrefused
      · have hn : strtol 10 sizeLine = ((strtol 10 sizeLine).toNat : Int) := by omega
        refine ⟨(strtol 10 sizeLine).toNat, hn, hlen, ?_, hline, fun h => ?_, hdigest⟩
        · have hnone : (prior.getD []).drop (strtol 10 sizeLine).toNat = [] := by
            rw [List.drop_eq_nil_iff]
            cases prior with
            | none => exact Nat.zero_le _
            | some old =>
              have := hold old rfl
              rw [Option.getD_some]
              omega
          rw [hfile, hnone, List.append_nil]
        · rw [← hn]
          exact (htransize h).symm
      · exfalso
        rcases hrefused with hm | ⟨hpos, hne⟩ | hlong | ⟨hcksum, hno⟩
        · exact hminus hm
        · exact hne (htransize hpos)
        · exact absurd hshort (Nat.not_lt_of_le hlong)
        · refine hno _ ?_ (hdigest hcksum)
          rw [List.length_take, Nat.min_eq_left hlen]
    · rintro rc st ⟨hrc, hnone, -⟩
      exact ⟨hrc, hnone⟩

/-- The arguments of a call without checksums, for a file of unknown size. -/
def plainArgs : Args :=
  ⟨lit "/k", 1, -1, false, lit "-", false, fun _ => []⟩

def plainAnswers : Answers :=
  ⟨some (lit "2"), fun _ => 8192, fun _ => true, false, fun _ => some [dot]⟩

/-- Three bytes are sent, and a file of four is left over. -/
theorem not_retr_exact :
    ¬ ∀ (args : Args) (answers : Answers) (sizeLine : CStr) (prior : Option (List Byte))
      (stream : List Byte), Exact (args.call answers) sizeLine prior stream := by
  intro h
  have hrun := h plainArgs plainAnswers (lit "3") (some (lit "abcd")) (lit "xyz")
  obtain ⟨hok, -⟩ := meets_iff.mp hrun
  have hfile : ((retr (plainArgs.call plainAnswers) (lit "3")).result
      (start (some (lit "abcd")) (lit "xyz"))).2.file = some (lit "xyzd") := by decide +kernel
  have hdone : ((retr (plainArgs.call plainAnswers) (lit "3")).result
      (start (some (lit "abcd")) (lit "xyz"))).1.toBool = true := by decide +kernel
  rcases hres : (retr (plainArgs.call plainAnswers) (lit "3")).result
    (start (some (lit "abcd")) (lit "xyz")) with ⟨rc | _, st⟩
  · rw [hres] at hdone
    cases hdone
  · obtain ⟨n, hn, -, hexact, -⟩ := hok _ st hres
    have hthree : n = 3 := by
      have hsize : strtol 10 (lit "3") = 3 := by decide +kernel
      omega
    rw [hres] at hfile
    rw [hthree] at hexact
    exact absurd (hfile.symm.trans hexact) (by decide)

end Temp
end Radmind
