import Radmind.Lcksum.Run
import Radmind.Lib.FailingState

/-!
# Retrieving an applefile

`retr_applefile` reads a header, three entries and the Finder information, then as many bytes
of resource fork as the entries say, and the rest of the announced size as data fork.  What the
server sends is a stream of bytes; each `snet_read` delivers some of those that are left.
-/

namespace Radmind

open FailingState

/-- What happens outside `retr_applefile` on the client, beside `snet_read`.  A write is numbered
by the bytes read so far. -/
inductive LocalCall
  | writeRetr | openTemp | mkPrefix | reopenTemp | openRsrc | closeRsrc | closeData | setattrlist
  | write (read : Nat)
  deriving DecidableEq, Repr

/-- The arguments and settings of a call, and what the calls it makes come to. -/
structure RetrCall where
  path : CStr
  pid : BitVec 32
  transize : Int
  cksum : Bool
  trancksum : CStr
  createPrefix : Bool
  /-- the reply to RETR, `none` for a timeout or a closed connection -/
  reply : Option CStr
  /-- the most bytes that `snet_read` delivers behind those read so far, 0 for a failure -/
  amount : Nat → Nat
  succeeds : LocalCall → Bool
  /-- `errno == ENOENT` where the temporary file cannot be opened -/
  noEntry : Bool
  /-- the line `snet_getline` finds at the front of the stream -/
  getline : List Byte → Option CStr
  /-- the digest of the bytes in base64 -/
  digest : List Byte → CStr

/-- The stream the server has still to deliver, the bytes read from it as the file's, the forks
written, and whether the line behind the file was asked for. -/
structure RetrState where
  stream : List Byte
  body : List Byte
  rsrc : List Byte
  data : List Byte
  asked : Bool
  deriving DecidableEq, Repr

abbrev Retr (α : Type) := Act Int RetrState α

/-- `snet_read`, with the way out that every call of it here has: -1. -/
def snetRead (call : RetrCall) (len : Nat) : Retr (List Byte) := do
  let st ← get
  let n := min len (min (call.amount st.body.length) st.stream.length)
  check (n ≠ 0) (-1)
  set { st with stream := st.stream.drop n, body := st.body ++ st.stream.take n }
  pure (st.stream.take n)

/-- `snet_getline` for the line behind the file. -/
def snetGetline (call : RetrCall) : Retr CStr := do
  let st ← get
  set { st with asked := true }
  match call.getline st.stream with
  | none => throw (-1)
  | some line => pure line

inductive Fork
  | rsrc | data
  deriving DecidableEq, Repr

/-- `write` -/
def writeFork (call : RetrCall) (fork : Fork) (buf : List Byte) : Retr Unit := do
  let st ← get
  check (call.succeeds (.write st.body.length)) (-1)
  match fork with
  | .rsrc => set { st with rsrc := st.rsrc ++ buf }
  | .data => set { st with data := st.data ++ buf }

/-- The two loops that copy a fork.  The bytes to read bound their rounds. -/
def copyFork (call : RetrCall) (fork : Fork) : Nat → Nat → Retr Unit
  | 0, _ => pure ()
  | fuel + 1, size =>
    if size = 0 then pure ()
    else do
      let buf ← snetRead call (min 8192 size)
      writeFork call fork buf
      copyFork call fork fuel (size - buf.length)

/-- The temporary file opened, behind `mkprefix` where its directory is missing. -/
def openTemp (call : RetrCall) : Retr Unit :=
  if call.succeeds .openTemp then pure ()
  else do
    check (call.createPrefix && call.noEntry) (-1)
    check (call.succeeds .mkPrefix) (-1)
    check (call.succeeds .reopenTemp) (-1)

def temppath (call : RetrCall) : CStr := call.path ++ lit ".radmind." ++ printInt call.pid.toInt

/-- `_PATH_RSRCFORKSPEC` -/
def rsrcForkSpec : CStr := lit "/..namedfork/rsrc"

/-- The header, the temporary file, the entries and the Finder information.  The entries are
what is returned. -/
def retrHeader (call : RetrCall) : Retr (List Byte) := do
  let ah ← snetRead call 26
  check (ah.length = 26 ∧ ah = asHeader) (-1)
  check ((temppath call).length < maxPathLen) (-1)
  openTemp call
  let ents ← snetRead call 36
  check (ents.length = 36) (-1)
  let finfo ← snetRead call 32
  check (finfo.length = 32) (-1)
  pure ents

/-- `ae_ents[ AS_RFE ].ae_length` -/
def rsrcLength (ents : List Byte) : Nat := (asEntry (ents.drop 12)).aeLength.toNat

def retrRsrc (call : RetrCall) (ents : List Byte) : Retr Unit :=
  if rsrcLength ents > 0 then do
    check ((temppath call ++ rsrcForkSpec).length < maxPathLen) (-1)
    check (call.succeeds .openRsrc) (-1)
    copyFork call .rsrc (rsrcLength ents) (rsrcLength ents)
    check (call.succeeds .closeRsrc) (-1)
  else pure ()

/-- What comes behind the forks: the line that must be '.', and the checksum. -/
def retrTrailer (call : RetrCall) : Retr Unit := do
  check (call.succeeds .closeData) (-1)
  check (call.succeeds .setattrlist) (-1)
  let line ← snetGetline call
  check (line = [dot]) (-1)
  let st ← get
  check (!call.cksum || call.digest st.body = call.trancksum) 1

/-- `retr_applefile`, where the server announces the size with `sizeLine`. -/
def retrApplefile (call : RetrCall) (sizeLine : CStr) : Retr Unit := do
  check (!(call.cksum && call.trancksum = [minus])) 1
  check (call.succeeds .writeRetr) (-1)
  check call.reply.isSome (-1)
  check ((call.reply.getD []).head? = some 50) 1
  let size := strtol 10 sizeLine
  check (!(0 ≤ call.transize ∧ size ≠ call.transize)) (-1)
  -- the comparison is one of unsigned numbers
  check (94 ≤ size % 2 ^ 64) (-1)
  let ents ← retrHeader call
  retrRsrc call ents
  let rest := (size - 94 - rsrcLength ents).toNat
  copyFork call .data rest rest
  retrTrailer call

/-- The state in which the size line has been read. -/
def retrStart (stream : List Byte) : RetrState :=
  { stream := stream, body := [], rsrc := [], data := [], asked := false }

/-- The bytes read as the file's are no more than announced, and exactly those before the line
behind the file is asked for.  Where it is not asked for, the call fails. -/
def ReadsAnnounced (call : RetrCall) (sizeLine : CStr) (stream : List Byte) : Prop :=
  let r := (retrApplefile call sizeLine).result (retrStart stream)
  r.2.body <+: stream ∧ r.2.body.length ≤ max (strtol 10 sizeLine) 0 ∧
    (r.2.asked = true → r.2.body.length = strtol 10 sizeLine) ∧
      (r.2.asked = false → ∃ rc, r.1 = .error rc ∧ rc ≠ 0)

/-- No byte behind the announced ones can be taken for one of the file: there is none, or the
file is not read at all, or the resource fork leaves something for the data fork. -/
def LengthsAgree (sizeLine : CStr) (stream : List Byte) : Prop :=
  let size := strtol 10 sizeLine
  stream.length ≤ max size 0 ∨
    0 ≤ size ∧ (size < 94 ∨ stream.take 26 ≠ asHeader ∨
      rsrcLength ((stream.drop 26).take 36) ≤ size - 94)

/-! ## What a step reads -/

/-- `n` bytes of the stream have been read. -/
structure Reading (stream : List Byte) (n : Nat) (st : RetrState) : Prop where
  split : st.body ++ st.stream = stream
  length : st.body.length = n
  asked : st.asked = false

section

variable {call : RetrCall} {stream : List Byte} {n : Nat} {st : RetrState}

theorem reading_start (stream : List Byte) : Reading stream 0 (retrStart stream) := ⟨rfl, rfl, rfl⟩

theorem Reading.body (h : Reading stream n st) : st.body <+: stream := ⟨st.stream, h.split⟩

theorem Reading.stream_eq (h : Reading stream n st) : st.stream = stream.drop n := by
  rw [← h.split, ← h.length, List.drop_left]

theorem Reading.le (h : Reading stream n st) : n ≤ stream.length := by
  rw [← h.length]
  exact h.body.length_le

theorem Reading.advance (h : Reading stream n st) {k : Nat} (hk : k ≤ (stream.drop n).length) :
    Reading stream (n + k)
      { st with stream := st.stream.drop k, body := st.body ++ st.stream.take k } := by
  refine ⟨?_, ?_, h.asked⟩
  · show st.body ++ st.stream.take k ++ st.stream.drop k = stream
    rw [List.append_assoc, List.take_append_drop, h.split]
  · show (st.body ++ st.stream.take k).length = n + k
    rw [List.length_append, h.length, h.stream_eq, List.length_take, Nat.min_eq_left hk]

/-- The number of bytes that `snet_read` delivers. -/
def delivered (call : RetrCall) (stream : List Byte) (n len : Nat) : Nat :=
  min len (min (call.amount n) (stream.length - n))

theorem meets_snetRead (h : Reading stream n st) (len : Nat) :
    Meets (snetRead call len) st
      (fun buf st' => 0 < delivered call stream n len ∧
        buf = (stream.drop n).take (delivered call stream n len) ∧
          Reading stream (n + delivered call stream n len) st')
      (fun e st' => e = -1 ∧ delivered call stream n len = 0 ∧ Reading stream n st') := by
  have hn : min len (min (call.amount st.body.length) st.stream.length) =
      delivered call stream n len := by
    rw [h.length, h.stream_eq, List.length_drop]
    rfl
  have hle : delivered call stream n len ≤ (stream.drop n).length := by
    rw [List.length_drop]
    unfold delivered
    omega
  unfold snetRead
  rw [meets_bind, meets_get]
  simp only [hn]
  rw [meets_check_bind]
  by_cases hzero : delivered call stream n len = 0
  · rw [if_neg (by simpa using hzero)]
    exact ⟨rfl, hzero, h⟩
  · rw [if_pos (by simpa using hzero), meets_bind, meets_set, meets_pure, h.stream_eq]
    have hadvance := h.advance hle
    rw [h.stream_eq] at hadvance
    exact ⟨Nat.pos_of_ne_zero hzero, rfl, hadvance⟩

theorem meets_writeFork (h : Reading stream n st) (fork : Fork) (buf : List Byte) :
    Meets (writeFork call fork buf) st (fun _ st' => Reading stream n st')
      (fun e st' => e = -1 ∧ Reading stream n st' ∧ call.succeeds (.write n) = false) := by
  unfold writeFork
  rw [meets_bind, meets_get, meets_check_bind, h.length]
  by_cases hwrite : call.succeeds (.write n) = true
  · rw [if_pos hwrite]
    cases fork
    · exact ⟨h.split, h.length, h.asked⟩
    · exact ⟨h.split, h.length, h.asked⟩
  · rw [if_neg hwrite]
    exact ⟨rfl, h, by simpa using hwrite⟩

/-- A loop reads the size it is given, or fails on the way. -/
theorem meets_copyFork (fork : Fork) {fuel size : Nat} (hfuel : size ≤ fuel)
    (h : Reading stream n st) :
    Meets (copyFork call fork fuel size) st (fun _ st' => Reading stream (n + size) st')
      (fun e st' => e = -1 ∧ ∃ m, n ≤ m ∧ m ≤ n + size ∧ Reading stream m st') := by
  induction fuel generalizing size n st with
  | zero =>
    obtain rfl := Nat.le_zero.mp hfuel
    exact h
  | succ fuel ih =>
    rw [copyFork]
    by_cases hsize : size = 0
    · rw [if_pos hsize, meets_pure, hsize]
      exact h
    rw [if_neg hsize]
    refine Meets.bind ((meets_snetRead h (min 8192 size)).mono (fun _ _ => id) ?_) ?_
    · rintro e st' ⟨rfl, -, hst'⟩
      exact ⟨rfl, n, le_rfl, Nat.le_add_right n size, hst'⟩
    rintro buf st' ⟨hpos, hbuf, hst'⟩
    have hle : delivered call stream n (min 8192 size) ≤ size := by
      unfold delivered
      omega
    have hlen : buf.length = delivered call stream n (min 8192 size) := by
      rw [hbuf, List.length_take, List.length_drop]
      unfold delivered
      omega
    generalize delivered call stream n (min 8192 size) = k at hpos hle hlen hst'
    refine Meets.bind ((meets_writeFork hst' fork buf).mono (fun _ _ => id) ?_) ?_
    · rintro e st'' ⟨rfl, hst'', -⟩
      exact ⟨rfl, n + k, by omega, by omega, hst''⟩
    intro _ st'' hst''
    refine (ih (by omega) hst'').mono ?_ ?_
    · intro _ t ht
      rwa [hlen, Nat.add_assoc, Nat.add_sub_cancel' hle] at ht
    · rintro e t ⟨rfl, m, hm, hm', ht⟩
      exact ⟨rfl, m, by omega, by omega, ht⟩

theorem meets_openTemp (h : Reading stream n st) :
    Meets (openTemp call) st (fun _ st' => Reading stream n st')
      (fun e st' => e = -1 ∧ Reading stream n st' ∧ call.succeeds .openTemp = false) := by
  unfold openTemp
  by_cases hopen : call.succeeds .openTemp = true
  · rw [if_pos hopen]
    exact h
  have hfalse : call.succeeds .openTemp = false := by simpa using hopen
  rw [if_neg hopen, meets_check_bind, meets_check_bind, meets_check]
  split_ifs
  · exact h
  · exact ⟨rfl, h, hfalse⟩
  · exact ⟨rfl, h, hfalse⟩
  · exact ⟨rfl, h, hfalse⟩

/-- The fixed parts are the 94 bytes in front, and the entries are where they should be. -/
theorem meets_retrHeader (h : Reading stream 0 st) :
    Meets (retrHeader call) st
      (fun ents st' => Reading stream 94 st' ∧ stream.take 26 = asHeader ∧
        ents = (stream.drop 26).take 36)
      (fun e st' => e = -1 ∧ ∃ m, m ≤ 94 ∧ Reading stream m st') := by
  have hdeliver : ∀ {n len : Nat}, delivered call stream n len ≤ len := by
    intro n len
    unfold delivered
    omega
  unfold retrHeader
  refine Meets.bind ((meets_snetRead h 26).mono (fun _ _ => id) ?_) ?_
  · rintro e st' ⟨rfl, -, hst'⟩
    exact ⟨rfl, 0, by omega, hst'⟩
  rintro ah st₁ ⟨-, hah, hst₁⟩
  rw [meets_check_bind]
  have hle₁ : 0 + delivered call stream 0 26 ≤ 94 := by have := @hdeliver 0 26; omega
  by_cases hheader : ah.length = 26 ∧ ah = asHeader
  swap
  · rw [if_neg (by simpa using hheader)]
    exact ⟨rfl, _, hle₁, hst₁⟩
  rw [if_pos (by simpa using hheader), meets_check_bind]
  have h26 : delivered call stream 0 26 = 26 := by
    have hlen := hheader.1
    rw [hah, List.length_take] at hlen
    have := @hdeliver 0 26
    omega
  rw [h26] at hah hst₁
  by_cases hname : (temppath call).length < maxPathLen
  swap
  · rw [if_neg (by simpa using hname)]
    exact ⟨rfl, 26, by omega, hst₁⟩
  rw [if_pos (by simpa using hname)]
  refine Meets.bind ((meets_openTemp hst₁).mono (fun _ _ => id) ?_) ?_
  · rintro e st' ⟨rfl, hst', -⟩
    exact ⟨rfl, 26, by omega, hst'⟩
  intro _ st₂ hst₂
  refine Meets.bind ((meets_snetRead hst₂ 36).mono (fun _ _ => id) ?_) ?_
  · rintro e st' ⟨rfl, -, hst'⟩
    exact ⟨rfl, 26, by omega, hst'⟩
  rintro ents st₃ ⟨-, hents, hst₃⟩
  rw [meets_check_bind]
  have hle₃ : delivered call stream (0 + 26) 36 ≤ 36 := hdeliver
  by_cases hlen₃ : ents.length = 36
  swap
  · rw [if_neg (by simpa using hlen₃)]
    exact ⟨rfl, _, by omega, hst₃⟩
  rw [if_pos (by simpa using hlen₃)]
  have h36 : delivered call stream (0 + 26) 36 = 36 := by
    rw [hents, List.length_take] at hlen₃
    omega
  rw [h36] at hents hst₃
  refine Meets.bind ((meets_snetRead hst₃ 32).mono (fun _ _ => id) ?_) ?_
  · rintro e st' ⟨rfl, -, hst'⟩
    exact ⟨rfl, 62, by omega, hst'⟩
  rintro finfo st₄ ⟨-, hfinfo, hst₄⟩
  rw [meets_check_bind]
  have hle₄ : delivered call stream (0 + 26 + 36) 32 ≤ 32 := hdeliver
  by_cases hlen₄ : finfo.length = 32
  swap
  · rw [if_neg (by simpa using hlen₄)]
    exact ⟨rfl, _, by omega, hst₄⟩
  rw [if_pos (by simpa using hlen₄)]
  have h32 : delivered call stream (0 + 26 + 36) 32 = 32 := by
    rw [hfinfo, List.length_take] at hlen₄
    omega
  rw [h32] at hst₄
  exact ⟨hst₄, hah.symm.trans hheader.2, hents⟩

theorem meets_retrRsrc (h : Reading stream n st) (ents : List Byte) :
    Meets (retrRsrc call ents) st (fun _ st' => Reading stream (n + rsrcLength ents) st')
      (fun e st' => e = -1 ∧ ∃ m, n ≤ m ∧ m ≤ n + rsrcLength ents ∧ Reading stream m st') := by
  unfold retrRsrc
  by_cases hpos : rsrcLength ents > 0
  swap
  · rw [if_neg hpos, meets_pure, Nat.eq_zero_of_not_pos hpos]
    exact h
  have hstop : ∃ m, n ≤ m ∧ m ≤ n + rsrcLength ents ∧ Reading stream m st :=
    ⟨n, le_rfl, Nat.le_add_right n _, h⟩
  rw [if_pos hpos, meets_check_bind, meets_check_bind]
  split_ifs
  · refine Meets.bind (meets_copyFork .rsrc le_rfl h) ?_
    intro _ st' hst'
    rw [meets_check]
    split_ifs
    · exact hst'
    · exact ⟨rfl, _, Nat.le_add_right n _, le_rfl, hst'⟩
  · exact ⟨rfl, hstop⟩
  · exact ⟨rfl, hstop⟩

/-- What holds when the call is over: `n` bytes were read, whether or not the line behind them
was. -/
structure Ended (stream : List Byte) (n : Nat) (st : RetrState) : Prop where
  body : st.body <+: stream
  length : st.body.length = n

theorem Reading.ended (h : Reading stream n st) : Ended stream n st := ⟨h.body, h.length⟩

theorem meets_retrTrailer (h : Reading stream n st) :
    Meets (retrTrailer call) st (fun _ st' => Ended stream n st' ∧ st'.asked = true)
      (fun e st' => e ≠ 0 ∧ Ended stream n st') := by
  unfold retrTrailer
  rw [meets_check_bind, meets_check_bind]
  split_ifs
  · rw [meets_bind, snetGetline, meets_bind, meets_get, meets_bind, meets_set]
    have hended : Ended stream n { st with asked := true } := ⟨h.body, h.length⟩
    cases call.getline st.stream with
    | none => exact ⟨by decide, hended⟩
    | some line =>
      rw [meets_pure, meets_check_bind, meets_bind, meets_get, meets_check]
      split_ifs
      · exact ⟨hended, rfl⟩
      · exact ⟨by decide, hended⟩
      · exact ⟨by decide, hended⟩
  · exact ⟨by decide, h.ended⟩
  · exact ⟨by decide, h.ended⟩

/-- What is promised of the bytes read when the call is over. -/
structure Announced (size : Int) (stream : List Byte) (st : RetrState) : Prop where
  body : st.body <+: stream
  length : st.body.length ≤ max size 0
  exact : st.asked = true → st.body.length = size

theorem Reading.announced {size : Int} (h : Reading stream n st) (hn : n ≤ max size 0) :
    Announced size stream st :=
  ⟨h.body, h.length ▸ hn, fun hasked => absurd (h.asked.symm.trans hasked) Bool.false_ne_true⟩

theorem Ended.announced {size : Int} (h : Ended stream n st) (hn : n = size) :
    Announced size stream st := by
  have hlen := h.length
  exact ⟨h.body, by omega, fun _ => by omega⟩

theorem readsAnnounced_of_meets {sizeLine : CStr}
    (h : Meets (retrApplefile call sizeLine) (retrStart stream)
      (fun _ st' => Announced (strtol 10 sizeLine) stream st' ∧ st'.asked = true)
      (fun e st' => e ≠ 0 ∧ Announced (strtol 10 sizeLine) stream st')) :
    ReadsAnnounced call sizeLine stream := by
  obtain ⟨hok, herror⟩ := meets_iff.mp h
  unfold ReadsAnnounced
  rcases hr : (retrApplefile call sizeLine).result (retrStart stream) with ⟨rc | _, st'⟩
  · obtain ⟨hrc, hst'⟩ := herror rc st' hr
    exact ⟨hst'.body, hst'.length, hst'.exact, fun _ => ⟨rc, rfl, hrc⟩⟩
  · obtain ⟨hst', hasked⟩ := hok _ st' hr
    refine ⟨hst'.body, hst'.length, hst'.exact, fun hnot => ?_⟩
    exact absurd (hnot.symm.trans hasked) Bool.false_ne_true

/-- Where the lengths agree, the call reads what was announced. -/
theorem readsAnnounced_of_agree {sizeLine : CStr} (h : LengthsAgree sizeLine stream) :
    ReadsAnnounced call sizeLine stream := by
  apply readsAnnounced_of_meets
  unfold LengthsAgree at h
  unfold retrApplefile
  generalize strtol 10 sizeLine = size at h ⊢
  simp only at h ⊢
  have hstart : Announced size stream (retrStart stream) :=
    (reading_start stream).announced (by omega)
  have hminus : (-1 : Int) ≠ 0 := by decide
  refine Meets.check_bind ⟨by decide, hstart⟩ fun _ => ?_
  refine Meets.check_bind ⟨hminus, hstart⟩ fun _ => ?_
  refine Meets.check_bind ⟨hminus, hstart⟩ fun _ => ?_
  refine Meets.check_bind ⟨by decide, hstart⟩ fun _ => ?_
  refine Meets.check_bind ⟨hminus, hstart⟩ fun _ => ?_
  refine Meets.check_bind ⟨hminus, hstart⟩ fun hlong => ?_
  have hmod : 94 ≤ size % 2 ^ 64 := of_decide_eq_true hlong
  have hcase : stream.length ≤ max size 0 ∨ 94 ≤ size ∧ (stream.take 26 ≠ asHeader ∨
      rsrcLength ((stream.drop 26).take 36) ≤ size - 94) := by
    rcases h with h | ⟨hpos, hsmall | hfits⟩
    · exact .inl h
    · omega
    · by_cases hsize : 94 ≤ size
      · exact .inr ⟨hsize, hfits⟩
      · omega
  refine Meets.bind ((meets_retrHeader (reading_start stream)).mono (fun _ _ => id) ?_) ?_
  · rintro e st' ⟨rfl, m, hm, hst'⟩
    have hle := hst'.le
    exact ⟨hminus, hst'.announced (by omega)⟩
  rintro ents st₁ ⟨hst₁, hheader, rfl⟩
  generalize (stream.drop 26).take 36 = ents at hcase ⊢
  replace hcase : stream.length ≤ max size 0 ∨ 94 ≤ size ∧ rsrcLength ents ≤ size - 94 :=
    hcase.imp id fun h => ⟨h.1, h.2.resolve_left (not_not_intro hheader)⟩
  refine Meets.bind ((meets_retrRsrc hst₁ ents).mono (fun _ _ => id) ?_) ?_
  · rintro e st' ⟨rfl, m, -, hm, hst'⟩
    have hle := hst'.le
    exact ⟨hminus, hst'.announced (by omega)⟩
  intro _ st₂ hst₂
  refine Meets.bind ((meets_copyFork .data le_rfl hst₂).mono (fun _ _ => id) ?_) ?_
  · rintro e st' ⟨rfl, m, -, hm, hst'⟩
    have hle := hst'.le
    exact ⟨hminus, hst'.announced (by omega)⟩
  intro _ st₃ hst₃
  have hle := hst₃.le
  refine (meets_retrTrailer hst₃).mono ?_ ?_
  · intro _ st' ⟨hst', hasked⟩
    exact ⟨hst'.announced (by omega), hasked⟩
  · intro e st' ⟨he, hst'⟩
    exact ⟨he, hst'.announced (by omega)⟩

/-! ## A client that gets everything -/

/-- Nothing fails on the client, and `snet_read` delivers what it can. -/
structure Unhindered (call : RetrCall) : Prop where
  cksum : call.cksum = false
  reply : (call.reply.getD []).head? = some 50
  transize : call.transize < 0
  amount : ∀ n, 8192 ≤ call.amount n
  succeeds : ∀ c, call.succeeds c = true
  short : (temppath call ++ rsrcForkSpec).length < maxPathLen

theorem Unhindered.delivered (hcall : Unhindered call) {len : Nat} (hlen : len ≤ 8192) :
    delivered call stream n len = min len (stream.length - n) := by
  have hamount := hcall.amount n
  unfold Radmind.delivered
  omega

/-- A read fails only at the end of the stream. -/
theorem meets_snetRead_all (hcall : Unhindered call) (h : Reading stream n st) {len : Nat}
    (hpos : 0 < len) (hlen : len ≤ 8192) :
    Meets (snetRead call len) st
      (fun buf st' => n < stream.length ∧
        buf = (stream.drop n).take (min len (stream.length - n)) ∧
          Reading stream (n + min len (stream.length - n)) st')
      (fun _ st' => n = stream.length ∧ Reading stream n st') := by
  refine (meets_snetRead h len).mono ?_ ?_
  · rintro buf st' ⟨hsome, hbuf, hst'⟩
    rw [hcall.delivered hlen] at hsome hbuf hst'
    exact ⟨by omega, hbuf, hst'⟩
  · rintro e st' ⟨-, hzero, hst'⟩
    have hle := h.le
    rw [hcall.delivered hlen] at hzero
    exact ⟨by omega, hst'⟩

theorem meets_copyFork_all (hcall : Unhindered call) (fork : Fork) {fuel size : Nat}
    (hfuel : size ≤ fuel) (h : Reading stream n st) :
    Meets (copyFork call fork fuel size) st (fun _ st' => Reading stream (n + size) st')
      (fun _ st' => Reading stream stream.length st') := by
  induction fuel generalizing size n st with
  | zero =>
    obtain rfl := Nat.le_zero.mp hfuel
    exact h
  | succ fuel ih =>
    rw [copyFork]
    by_cases hsize : size = 0
    · rw [if_pos hsize, meets_pure, hsize]
      exact h
    rw [if_neg hsize]
    refine Meets.bind ((meets_snetRead_all hcall h (by omega) (by omega)).mono
      (fun _ _ => id) ?_) ?_
    · rintro _ st' ⟨rfl, hst'⟩
      exact hst'
    rintro buf st' ⟨hmore, hbuf, hst'⟩
    have hlen : buf.length = min (min 8192 size) (stream.length - n) := by
      rw [hbuf, List.length_take, List.length_drop]
      omega
    refine Meets.bind ((meets_writeFork hst' fork buf).mono (fun _ _ => id) ?_) ?_
    · rintro e st'' ⟨-, -, hfalse⟩
      exact absurd (hfalse.symm.trans (hcall.succeeds _)) Bool.false_ne_true
    intro _ st'' hst''
    have hsum : n + min (min 8192 size) (stream.length - n) + (size - buf.length) = n + size := by
      omega
    rw [← hsum]
    exact ih (by omega) hst''

/-- The header is read to its end, to the end of the stream, or up to where it is wrong. -/
theorem meets_retrHeader_all (hcall : Unhindered call) (h : Reading stream 0 st) :
    Meets (retrHeader call) st
      (fun ents st' => Reading stream 94 st' ∧ ents = (stream.drop 26).take 36)
      (fun _ st' => ∃ m, Reading stream m st' ∧ (stream.length = 0 ∨ 0 < m) ∧
        (m = stream.length ∨ stream.take 26 ≠ asHeader)) := by
  have hname : (temppath call).length < maxPathLen := by
    have hshort := hcall.short
    rw [List.length_append] at hshort
    omega
  unfold retrHeader
  refine Meets.bind ((meets_snetRead_all hcall h (by omega) (by omega)).mono (fun _ _ => id) ?_) ?_
  · rintro _ st' ⟨hend, hst'⟩
    exact ⟨0, hst', .inl hend.symm, .inl hend⟩
  rintro ah st₁ ⟨hsome, hah, hst₁⟩
  have hlen₁ : ah.length = min 26 stream.length := by
    rw [hah, List.length_take, List.length_drop]
    omega
  rw [meets_check_bind]
  by_cases hheader : ah.length = 26 ∧ ah = asHeader
  swap
  · rw [if_neg (by simpa using hheader)]
    refine ⟨_, hst₁, .inr (by omega), ?_⟩
    by_cases hlen : ah.length = 26
    · right
      intro heq
      have h26 : min 26 (stream.length - 0) = 26 := by omega
      rw [h26] at hah
      exact hheader ⟨hlen, hah.trans heq⟩
    · left
      omega
  rw [if_pos (by simpa using hheader)]
  have h26 : 0 + min 26 (stream.length - 0) = 26 := by omega
  rw [h26] at hst₁
  rw [meets_check_bind, if_pos (decide_eq_true hname)]
  refine Meets.bind ((meets_openTemp hst₁).mono (fun _ _ => id) ?_) ?_
  · rintro e st' ⟨-, -, hfalse⟩
    exact absurd (hfalse.symm.trans (hcall.succeeds _)) Bool.false_ne_true
  intro _ st₂ hst₂
  refine Meets.bind ((meets_snetRead_all hcall hst₂ (by omega) (by omega)).mono
    (fun _ _ => id) ?_) ?_
  · rintro e st' ⟨hend, hst'⟩
    exact ⟨26, hst', .inr (by omega), .inl hend⟩
  rintro ents st₃ ⟨-, hents, hst₃⟩
  have hlen₃ : ents.length = min 36 (stream.length - 26) := by
    rw [hents, List.length_take, List.length_drop]
    omega
  rw [meets_check_bind]
  by_cases h36 : ents.length = 36
  swap
  · rw [if_neg (by simpa using h36)]
    exact ⟨_, hst₃, .inr (by omega), .inl (by omega)⟩
  have hents' : min 36 (stream.length - 26) = 36 := by omega
  rw [hents'] at hents hst₃
  rw [if_pos (by simpa using h36)]
  refine Meets.bind ((meets_snetRead_all hcall hst₃ (by omega) (by omega)).mono
    (fun _ _ => id) ?_) ?_
  · rintro e st' ⟨hend, hst'⟩
    exact ⟨62, hst', .inr (by omega), .inl hend⟩
  rintro finfo st₄ ⟨-, hfinfo, hst₄⟩
  have hlen₄ : finfo.length = min 32 (stream.length - 62) := by
    rw [hfinfo, List.length_take, List.length_drop]
    omega
  rw [meets_check_bind]
  by_cases h32 : finfo.length = 32
  swap
  · rw [if_neg (by simpa using h32)]
    exact ⟨_, hst₄, .inr (by omega), .inl (by omega)⟩
  have hfinfo' : 26 + 36 + min 32 (stream.length - (26 + 36)) = 94 := by omega
  rw [hfinfo'] at hst₄
  rw [if_pos (by simpa using h32)]
  exact ⟨hst₄, hents⟩

theorem meets_retrRsrc_all (hcall : Unhindered call) (h : Reading stream n st) (ents : List Byte) :
    Meets (retrRsrc call ents) st (fun _ st' => Reading stream (n + rsrcLength ents) st')
      (fun _ st' => Reading stream stream.length st') := by
  unfold retrRsrc
  by_cases hpos : rsrcLength ents > 0
  · rw [if_pos hpos, meets_check_bind, if_pos (decide_eq_true hcall.short), meets_check_bind,
      if_pos (hcall.succeeds _)]
    refine Meets.bind (meets_copyFork_all hcall .rsrc le_rfl h) ?_
    intro _ st' hst'
    rw [meets_check, if_pos (hcall.succeeds _)]
    exact hst'
  · rw [if_neg hpos, meets_pure, Nat.eq_zero_of_not_pos hpos]
    exact h

theorem strtol_range (base : Nat) (s : CStr) : -2 ^ 63 ≤ strtol base s ∧ strtol base s < 2 ^ 63 := by
  have hclamp : ∀ z, -2 ^ 63 ≤ clampLong z ∧ clampLong z < 2 ^ 63 := by
    intro z
    unfold clampLong
    omega
  unfold strtol
  split
  · exact hclamp _
  · exact hclamp _
  · exact hclamp _

/-- Where the lengths do not agree, bytes behind the announced ones are read as the file's. -/
theorem meets_retrApplefile_all (hcall : Unhindered call) {sizeLine : CStr}
    (h : ¬ LengthsAgree sizeLine stream) :
    Meets (retrApplefile call sizeLine) (retrStart stream)
      (fun _ st' => max (strtol 10 sizeLine) 0 < st'.body.length)
      (fun _ st' => max (strtol 10 sizeLine) 0 < st'.body.length) := by
  obtain ⟨hlo, hhi⟩ := strtol_range 10 sizeLine
  unfold LengthsAgree at h
  unfold retrApplefile
  generalize strtol 10 sizeLine = size at h hlo hhi ⊢
  simp only [not_or, not_and, not_le, not_lt, not_not] at h ⊢
  obtain ⟨hlong, hover⟩ := h
  have hreply : call.reply.isSome = true := by
    have hreply := hcall.reply
    cases hr : call.reply with
    | none =>
      rw [hr] at hreply
      cases hreply
    | some line => rfl
  have htransize : (!decide (0 ≤ call.transize ∧ size ≠ call.transize)) = true := by
    have hneg := hcall.transize
    rw [decide_eq_false (by omega)]
    rfl
  have hmod : 94 ≤ size % 2 ^ 64 := by
    by_cases hpos : 0 ≤ size
    · have hsize := (hover hpos).1
      omega
    · omega
  rw [meets_check_bind, if_pos (by rw [hcall.cksum]; rfl), meets_check_bind,
    if_pos (hcall.succeeds _), meets_check_bind, if_pos hreply, meets_check_bind,
    if_pos (decide_eq_true hcall.reply), meets_check_bind, if_pos htransize, meets_check_bind,
    if_pos (decide_eq_true hmod)]
  refine Meets.bind ((meets_retrHeader_all hcall (reading_start stream)).mono
    (fun _ _ => id) ?_) ?_
  · rintro e st' ⟨m, hst', hsome, hend⟩
    have hlen := hst'.length
    by_cases hpos : 0 ≤ size
    · have hm : m = stream.length := hend.resolve_right (not_not_intro (hover hpos).2.1)
      omega
    · omega
  rintro ents st₁ ⟨hst₁, rfl⟩
  have hover₁ : max size 0 < 94 + rsrcLength ((stream.drop 26).take 36) := by
    by_cases hpos : 0 ≤ size
    · have hrsrc := (hover hpos).2.2
      omega
    · omega
  generalize (stream.drop 26).take 36 = ents at hover₁ ⊢
  refine Meets.bind ((meets_retrRsrc_all hcall hst₁ ents).mono (fun _ _ => id) ?_) ?_
  · intro e st' hst'
    have hlen := hst'.length
    omega
  intro _ st₂ hst₂
  refine Meets.bind ((meets_copyFork .data le_rfl hst₂).mono (fun _ _ => id) ?_) ?_
  · rintro e st' ⟨-, m, hm, -, hst'⟩
    have hlen := hst'.length
    omega
  intro _ st₃ hst₃
  refine (meets_retrTrailer hst₃).mono ?_ ?_
  · rintro _ st' ⟨hst', -⟩
    have hlen := hst'.length
    omega
  · rintro e st' ⟨-, hst'⟩
    have hlen := hst'.length
    omega

end

/-- A call on which nothing fails. -/
def plainCall : RetrCall where
  path := lit "/f"
  pid := 1
  transize := -1
  cksum := false
  trancksum := []
  createPrefix := false
  reply := some (lit "2")
  amount _ := 8192
  succeeds _ := true
  noEntry := false
  getline _ := none
  digest _ := []

theorem unhindered_plainCall : Unhindered plainCall where
  cksum := rfl
  reply := by decide
  transize := by decide
  amount _ := le_rfl
  succeeds _ := rfl
  short := by decide +kernel

theorem agree_of_readsAnnounced {sizeLine : CStr} {stream : List Byte}
    (h : ReadsAnnounced plainCall sizeLine stream) : LengthsAgree sizeLine stream := by
  by_contra hnot
  obtain ⟨hok, herror⟩ := meets_iff.mp (meets_retrApplefile_all unhindered_plainCall hnot)
  obtain ⟨-, hlen, -⟩ := h
  rcases hr : (retrApplefile plainCall sizeLine).result (retrStart stream) with ⟨rc | _, st'⟩
  · have hover : max (strtol 10 sizeLine) 0 < st'.body.length := herror rc st' hr
    rw [hr] at hlen
    exact absurd hlen (not_le_of_gt hover)
  · have hover : max (strtol 10 sizeLine) 0 < st'.body.length := hok _ st' hr
    rw [hr] at hlen
    exact absurd hlen (not_le_of_gt hover)

/-- `retr_applefile` reads what the server announced, on every client, exactly where the lengths
in the stream agree with it. -/
theorem retr_applefile_reads_iff (sizeLine : CStr) (stream : List Byte) :
    (∀ call, ReadsAnnounced call sizeLine stream) ↔ LengthsAgree sizeLine stream :=
  ⟨fun h => agree_of_readsAnnounced (h plainCall), fun h _ => readsAnnounced_of_agree h⟩

/-- An applefile of 94 bytes whose entries give the resource fork one byte, with the line behind
it. -/
def overlongFile : List Byte :=
  asHeader ++ List.replicate 12 0 ++ (List.replicate 11 0 ++ [1]) ++ List.replicate 12 0 ++
    List.replicate 32 0 ++ lit ".\r\n"

/-- The '.' behind the file is read as its resource fork. -/
theorem not_retr_applefile_reads :
    ¬ ∀ (sizeLine : CStr) (stream : List Byte) (call : RetrCall),
      ReadsAnnounced call sizeLine stream := by
  intro h
  have hagree := agree_of_readsAnnounced (h (lit "94") overlongFile plainCall)
  revert hagree
  unfold LengthsAgree
  decide +kernel

end Radmind
