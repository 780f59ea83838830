import Radmind.Applefile.Retr
import Radmind.Applefile.Sizes
import Radmind.Lib.ByteOrder
import Radmind.Transcript.Kfile

/-!
# The checksum of an applefile

Five loops build the stream of bytes whose digest is the checksum of an applefile: `do_acksum`
and `stor_applefile` from the forks on the client, `retr_applefile` and `do_fcksum` from the
file of the server, and `copy_file` of t2pkg from either.  The host is little-endian.
-/

namespace Radmind

open ByteOrder FailingState

namespace Applefile

/-! ## The file -/

/-- A file on the client whose lengths and offsets fit in the entries. -/
structure ForkedFile where
  finfo : List Byte
  rsrc : List Byte
  data : List Byte
  finfo_length : finfo.length = 32
  rsrc_fits : 94 + rsrc.length < 2 ^ 32
  data_fits : data.length < 2 ^ 32

/-- Four bytes in network order. -/
def netBytes (n : Nat) : List Byte := (leBytes 4 n).reverse

def netEntry (aeId aeOffset aeLength : Nat) : List Byte :=
  netBytes aeId ++ netBytes aeOffset ++ netBytes aeLength

namespace ForkedFile

/-- The three big-endian entries. -/
def netEntries (file : ForkedFile) : List Byte :=
  netEntry 9 62 32 ++ netEntry 2 94 file.rsrc.length ++
    netEntry 1 (94 + file.rsrc.length) file.data.length

/-- The file as the server stores it. -/
def image (file : ForkedFile) : List Byte :=
  asHeader ++ file.netEntries ++ file.finfo ++ file.rsrc ++ file.data

def total (file : ForkedFile) : Nat := 94 + file.rsrc.length + file.data.length

def rsrcLen (file : ForkedFile) : BitVec 64 := BitVec.ofNat 64 file.rsrc.length

def dataLen (file : ForkedFile) : BitVec 64 := BitVec.ofNat 64 file.data.length

/-- `afinfo->as_ents` as `radstat` leaves them. -/
def asEnts (file : ForkedFile) : AsEntry × AsEntry × AsEntry := asEntries file.rsrcLen file.dataLen

end ForkedFile

/-! ## The memory of a little-endian host -/

def htonl (x : BitVec 32) : BitVec 32 := BitVec.ofNat 32 (swap 4 x.toNat)

/-- `as_entry_netswap` -/
def asEntryNetswap (e : AsEntry) : AsEntry := ⟨htonl e.aeId, htonl e.aeOffset, htonl e.aeLength⟩

def entsNetswap (ents : AsEntry × AsEntry × AsEntry) : AsEntry × AsEntry × AsEntry :=
  (asEntryNetswap ents.1, asEntryNetswap ents.2.1, asEntryNetswap ents.2.2)

def entryBytes (e : AsEntry) : List Byte :=
  leBytes 4 e.aeId.toNat ++ leBytes 4 e.aeOffset.toNat ++ leBytes 4 e.aeLength.toNat

def entsBytes (ents : AsEntry × AsEntry × AsEntry) : List Byte :=
  entryBytes ents.1 ++ entryBytes ents.2.1 ++ entryBytes ents.2.2

def hostLong (mem : List Byte) : BitVec 32 := BitVec.ofNat 32 (ofLe (mem.take 4))

def hostEntry (mem : List Byte) : AsEntry :=
  ⟨hostLong mem, hostLong (mem.drop 4), hostLong (mem.drop 8)⟩

/-- The entries that `read` puts into `as_ents`. -/
def hostEnts (mem : List Byte) : AsEntry × AsEntry × AsEntry :=
  (hostEntry mem, hostEntry (mem.drop 12), hostEntry (mem.drop 24))

/-- `AS_MAGIC`, `AS_VERSION`, the filler and `AS_NENTRIES` of a little-endian host. -/
def headerBytes : List Byte :=
  leBytes 4 0x00160500 ++ leBytes 4 0x00000200 ++ List.replicate 16 0 ++ leBytes 2 0x0300

theorem headerBytes_eq : headerBytes = asHeader := by decide

/-! ## The digest -/

inductive SumCall
  | openSrc | openDst | openRsrc | openRsrcDst | fstat | getattrlist | setattrlist
  | closeData | closeDst | closeRsrc | closeRsrcDst
  | writePath | writeSize | writeDot
  | send (sent : Nat)
  | read (fork : Fork) (left : Nat)
  | write (fork : Fork) (left : Nat)
  deriving DecidableEq, Repr

/-- The settings of a run, the line of the transcript, and what the calls of the run come to. -/
structure SumRun where
  path : CStr
  dst : CStr
  transize : Int
  trancksum : CStr
  cksum : Bool
  force : Bool
  succeeds : SumCall → Bool
  /-- the most bytes `read` gives where so many are left, at least one -/
  amount : Nat → Nat
  /-- the digest of the bytes in base64 -/
  digest : List Byte → CStr

/-- What `EVP_DigestUpdate` was given, and `snet_write`, and what the digest was of. -/
structure SumState where
  fed : List Byte
  sent : List Byte
  summed : Option (List Byte)
  deriving DecidableEq, Repr

abbrev Summing (α : Type) := Act Int SumState α

/-- `EVP_DigestUpdate` -/
def feed (cksum : Bool) (buf : List Byte) : Summing Unit :=
  modify fun st => if cksum then { st with fed := st.fed ++ buf } else st

/-- `EVP_DigestFinal` -/
def digestFinal : Summing (List Byte) := do
  let st ← get
  set { st with summed := some st.fed }
  pure st.fed

/-- `read`, with the way out where it fails. -/
def readSome (run : SumRun) (fork : Fork) (e : Int) (len : Nat) (rest : List Byte) :
    Summing (List Byte) := do
  check (run.succeeds (.read fork rest.length)) e
  pure (rest.take (max 1 (min len (run.amount rest.length))))

/-- Where a loop puts what it reads. -/
inductive Out
  | nowhere
  | server
  | fork (fork : Fork)
  deriving DecidableEq, Repr

def put (run : SumRun) (left : Nat) (buf : List Byte) : Out → Summing Unit
  | .nowhere => pure ()
  | .server => do
    let st ← get
    check (run.succeeds (.send st.sent.length)) (-1)
    set { st with sent := st.sent ++ buf }
  | .fork fork => check (run.succeeds (.write fork left)) (-1)

/-- The loops that read a fork to its end.  They return the bytes read. -/
def sumLoop (run : SumRun) (fork : Fork) (out : Out) (cksum : Bool) (e : Int) :
    Nat → List Byte → Summing Nat
  | 0, _ => pure 0
  | fuel + 1, rest => do
    let buf ← readSome run fork e 8192 rest
    if buf = [] then pure 0
    else do
      put run rest.length buf out
      feed cksum buf
      let n ← sumLoop run fork out cksum e fuel (rest.drop buf.length)
      pure (buf.length + n)

/-- A whole fork. -/
def sumFork (run : SumRun) (fork : Fork) (out : Out) (cksum : Bool) (e : Int)
    (content : List Byte) : Summing Nat :=
  sumLoop run fork out cksum e (content.length + 1) content

/-! ## do_fcksum and do_acksum -/

/-- `do_fcksum` -/
def doFcksum (run : SumRun) (content : List Byte) : Summing Nat := do
  let size ← sumFork run .data .nowhere true (-1) content
  let _ ← digestFinal
  pure size

/-- The resource fork in `do_acksum`. -/
def acksumRsrc (run : SumRun) (file : ForkedFile) : Summing Nat :=
  if 0 < file.asEnts.2.1.aeLength.toNat then do
    check ((run.path ++ rsrcForkSpec).length < maxPathLen) (-1)
    check (run.succeeds .openRsrc) (-1)
    let rsize ← sumFork run .rsrc .nowhere true (-1) file.rsrc
    check (run.succeeds .closeRsrc) (-1)
    pure rsize
  else pure 0

/-- `do_acksum` -/
def doAcksum (run : SumRun) (file : ForkedFile) : Summing Nat := do
  feed true headerBytes
  feed true (entsBytes (entsNetswap file.asEnts))
  feed true file.finfo
  let rsize ← acksumRsrc run file
  check (run.succeeds .openSrc) (-1)
  let dsize ← sumFork run .data .nowhere true (-1) file.data
  check (run.succeeds .closeData) (-1)
  let _ ← digestFinal
  -- the entries count as `sizeof( 3 * sizeof( struct as_entry ))`
  pure (26 + 8 + 32 + rsize + dsize)

/-! ## stor_applefile -/

/-- A piece of known size sent to the server and summed. -/
def sendPiece (run : SumRun) (piece : List Byte) : Summing Unit := do
  put run 0 piece .server
  feed run.cksum piece

/-- The resource fork in `stor_applefile`. -/
def storRsrc (run : SumRun) (file : ForkedFile) : Summing Nat :=
  if 0 < file.asEnts.2.1.aeLength.toNat then sumFork run .rsrc .server run.cksum 2 file.rsrc
  else pure 0

/-- `stor_applefile`; `exit( 2 )` is the error 2. -/
def storApplefile (run : SumRun) (file : ForkedFile) : Summing Unit := do
  check (!(run.cksum && run.trancksum = [minus])) 2
  let asSize : Int := (asSize file.rsrcLen file.dataLen).toNat
  check (asSize = run.transize || run.force) 2
  let rsrcLen := file.asEnts.2.1.aeLength.toNat
  let ents := entsNetswap file.asEnts
  check (run.succeeds .openSrc) 2
  check (rsrcLen = 0 || (run.path ++ rsrcForkSpec).length < maxPathLen) (-1)
  check (rsrcLen = 0 || run.succeeds .openRsrc) 2
  check (run.succeeds .writePath) 2
  check (run.succeeds .writeSize) 2
  sendPiece run headerBytes
  sendPiece run (entsBytes ents)
  sendPiece run file.finfo
  let rsize ← storRsrc run file
  let dsize ← sumFork run .data .server run.cksum 2 file.data
  check (asSize - 26 - 36 - 32 - rsize - dsize = 0) 2
  check (run.succeeds .writeDot) (-1)
  check (run.succeeds .closeData) 2
  check (ents.2.1.aeLength.toNat = 0 || run.succeeds .closeRsrc) 2
  if run.cksum then do
    let fed ← digestFinal
    check (run.trancksum = run.digest fed || run.force) 2
  else pure ()

/-! ## copy_file of t2pkg -/

/-- The loop over a resource fork of `rsize` bytes in an applesingle file. -/
def decodeLoop (run : SumRun) : Nat → Nat → List Byte → Summing (List Byte)
  | 0, _, rest => pure rest
  | fuel + 1, rsize, rest =>
    if rsize = 0 then pure rest
    else do
      let buf ← readSome run .data (-1) (min 8192 rsize) rest
      check (buf ≠ []) (-1)
      put run rest.length buf (.fork .rsrc)
      feed run.cksum buf
      decodeLoop run fuel (rsize - buf.length) (rest.drop buf.length)

/-- The branch for an applesingle file of the server.  It returns the rest of the file, and what
is taken off `size`. -/
def copyServer (run : SumRun) (content : List Byte) : Summing (List Byte × Int) := do
  let header ← readSome run .data 2 26 content
  check (header.length = 26 && header = headerBytes) (-1)
  feed run.cksum header
  let content := content.drop 26
  let mem ← readSome run .data (-1) 36 content
  check (mem.length = 36) (-1)
  let ents := entsNetswap (hostEnts mem)
  feed run.cksum (entsBytes ents)
  check (ents.1.aeId = 9 && ents.2.1.aeId = 2 && ents.2.2.aeId = 1) (-1)
  let content := content.drop 36
  let finfo ← readSome run .data (-1) 32 content
  check (finfo.length = 32) (-1)
  feed run.cksum finfo
  check (finfo = List.replicate 32 0 || run.succeeds .setattrlist) (-1)
  let content := content.drop 32
  check (run.succeeds .openRsrcDst) (-1)
  let rsize := ents.2.1.aeLength.toNat
  let content ← decodeLoop run rsize rsize content
  check (run.succeeds .closeRsrcDst) (-1)
  pure (content, 26 + 36 + 32 + rsize)

/-- The branch for a file of the client with its forks. -/
def copyClient (run : SumRun) (finfo rsrc : List Byte) (rsrcLen stSize : BitVec 64) :
    Summing Int := do
  feed run.cksum headerBytes
  feed run.cksum (entsBytes (entsNetswap (asEntries rsrcLen (stSize - (26 + 36 + 32 + rsrcLen)))))
  check (finfo = List.replicate 32 0 || run.succeeds .setattrlist) (-1)
  feed run.cksum finfo
  if 0 < rsrcLen.toInt then do
    check ((run.path ++ rsrcForkSpec).length < maxPathLen) (-1)
    check (run.succeeds .openRsrc) (-1)
    check (run.succeeds .openRsrcDst) (-1)
    let rsize ← sumFork run .rsrc (.fork .rsrc) run.cksum (-1) rsrc
    check (run.succeeds .closeRsrc) (-1)
    check (run.succeeds .closeRsrcDst) (-1)
    pure (26 + 36 + 32 + rsize)
  else pure (26 + 36 + 32)

/-- The data fork, and the end of `copy_file`. -/
def copyData (run : SumRun) (content : List Byte) (size : Int) : Summing Unit := do
  let dsize ← sumFork run .data (.fork .data) run.cksum 2 content
  check (run.succeeds .closeData) (-1)
  check (run.succeeds .closeDst) (-1)
  check (size - dsize = 0) (-1)
  if run.cksum then do
    let fed ← digestFinal
    check (run.trancksum = run.digest fed || run.force) (-1)
  else pure ()

/-- `copy_file` for a line of type 'a'.  What `src` is depends on `where`: the file as the server
stores it, or one with forks. -/
def copyFile (run : SumRun) (place : Location) (file : ForkedFile) : Summing Unit := do
  check (!(run.cksum && run.trancksum = [minus])) (-1)
  check (run.succeeds .openSrc) (-1)
  check (run.succeeds .openDst) (-1)
  check (run.succeeds .fstat) (-1)
  check ((run.dst ++ rsrcForkSpec).length < maxPathLen) (-1)
  match place with
  | .server =>
    let size : Int := file.image.length
    check (size = run.transize || run.force) (-1)
    let (content, n) ← copyServer run file.image
    copyData run content (size - n)
  | .client =>
    check (run.succeeds .getattrlist) (-1)
    let stSize : BitVec 64 := file.dataLen + (32 + file.rsrcLen + 36 + 26)
    check (stSize.toInt = run.transize || run.force) (-1)
    let n ← copyClient run file.finfo file.rsrc file.rsrcLen stSize
    copyData run file.data (stSize.toInt - n)

/-! ## The readers -/

inductive Reader
  | doAcksum
  | storApplefile
  | retrApplefile
  | doFcksum
  | copyFile (place : Location)
  deriving DecidableEq, Repr

/-- What a reader runs under.  Behind the file, the server sends more to `retr_applefile`. -/
def Reader.Setting : Reader → Type
  | .retrApplefile => RetrCall × List Byte
  | _ => SumRun

def sumStart : SumState := { fed := [], sent := [], summed := none }

/-- `retr_applefile` feeds the digest every piece it reads, as it reads it, and asks for the
digest behind the line that ends the file. -/
def retrSummed (call : RetrCall) (behind : List Byte) (file : ForkedFile) : Option (List Byte) :=
  match (retrApplefile call (printInt file.image.length)).result
      (retrStart (file.image ++ behind)) with
  | (.ok _, st) => if call.cksum then some st.body else none
  | (.error e, st) => if call.cksum && st.asked && e = 1 then some st.body else none

/-- The bytes the digest is of, where the run comes to `EVP_DigestFinal`. -/
def Reader.summed : (reader : Reader) → reader.Setting → ForkedFile → Option (List Byte)
  | .doAcksum, run, file => ((Applefile.doAcksum run file).result sumStart).2.summed
  | .storApplefile, run, file => ((Applefile.storApplefile run file).result sumStart).2.summed
  | .retrApplefile, (call, behind), file => retrSummed call behind file
  | .doFcksum, run, file => ((Applefile.doFcksum run file.image).result sumStart).2.summed
  | .copyFile place, run, file => ((Applefile.copyFile run place file).result sumStart).2.summed

/-- The digest is one of the stored image in every run, and for a file whose size has 32 bits
there is a run that comes to it. -/
def SumsImage (reader : Reader) (file : ForkedFile) : Prop :=
  (∀ setting bs, reader.summed setting file = some bs → bs = file.image) ∧
    (file.total < 2 ^ 32 → ∃ setting, (reader.summed setting file).isSome = true)

/-! ## The bytes of the entries -/

theorem htonl_bytes (x : BitVec 32) : leBytes 4 (htonl x).toNat = netBytes x.toNat := by
  have hlt : swap 4 x.toNat < 2 ^ 32 := swap_lt 4 x.toNat
  rw [htonl, BitVec.toNat_ofNat, Nat.mod_eq_of_lt hlt, leBytes_swap]
  rfl

theorem entryBytes_netswap (e : AsEntry) :
    entryBytes (asEntryNetswap e) = netEntry e.aeId.toNat e.aeOffset.toNat e.aeLength.toNat := by
  rw [entryBytes, asEntryNetswap, htonl_bytes, htonl_bytes, htonl_bytes]
  rfl

namespace ForkedFile

variable (file : ForkedFile)

theorem rsrcLen_toNat : file.rsrcLen.toNat = file.rsrc.length := by
  have h := file.rsrc_fits
  rw [rsrcLen, BitVec.toNat_ofNat]
  omega

theorem dataLen_toNat : file.dataLen.toNat = file.data.length := by
  have h := file.data_fits
  rw [dataLen, BitVec.toNat_ofNat]
  omega

theorem rsrcLen_toInt : file.rsrcLen.toInt = file.rsrc.length := by
  have h := file.rsrc_fits
  rw [BitVec.toInt_eq_toNat_of_lt (by rw [rsrcLen_toNat]; omega), rsrcLen_toNat]

theorem asEnts_rsrc : file.asEnts.2.1.aeLength.toNat = file.rsrc.length := by
  have h := file.rsrc_fits
  show (file.rsrcLen.setWidth 32).toNat = _
  rw [BitVec.toNat_setWidth, rsrcLen_toNat]
  omega

/-- The entries that `radstat` makes, swapped, are those of the image. -/
theorem asEnts_bytes : entsBytes (entsNetswap file.asEnts) = file.netEntries := by
  have hr := file.rsrc_fits
  have hd := file.data_fits
  have hoffset : file.asEnts.2.2.aeOffset.toNat = 94 + file.rsrc.length := by
    have h94 : (26 + 3 * 12 + 32 : BitVec 32) = BitVec.ofNat 32 94 := by decide
    show (26 + 3 * 12 + 32 + file.rsrcLen.setWidth 32 : BitVec 32).toNat = _
    rw [h94, BitVec.toNat_add, BitVec.toNat_setWidth, rsrcLen_toNat, BitVec.toNat_ofNat]
    omega
  have hlength : file.asEnts.2.2.aeLength.toNat = file.data.length := by
    show (file.dataLen.setWidth 32).toNat = _
    rw [BitVec.toNat_setWidth, dataLen_toNat]
    omega
  rw [entsBytes, entsNetswap, entryBytes_netswap, entryBytes_netswap, entryBytes_netswap,
    file.asEnts_rsrc, hoffset, hlength]
  rfl

theorem netEntries_length : file.netEntries.length = 36 := by
  simp [netEntries, netEntry, netBytes]

theorem image_length : file.image.length = file.total := by
  have hheader : asHeader.length = 26 := by decide
  simp only [image, total, List.length_append, netEntries_length, finfo_length, hheader]

end ForkedFile

/-! ## What a step does -/

/-- Nothing fails, and every piece is read at once. -/
structure SumRun.Calm (run : SumRun) : Prop where
  path : (run.path ++ rsrcForkSpec).length < maxPathLen
  dst : (run.dst ++ rsrcForkSpec).length < maxPathLen
  listed : run.trancksum ≠ [minus]
  cksum : run.cksum = true
  force : run.force = true
  succeeds : ∀ c, run.succeeds c = true
  amount : ∀ left, 8192 ≤ run.amount left

/-- The digest has not been asked for. -/
structure Building (cksum : Bool) (fed sent : List Byte) (st : SumState) : Prop where
  fed : cksum = true → st.fed = fed
  sent : st.sent = sent
  summed : st.summed = none

/-- How a run may fail: something is not as it should be, or the size does not fit, and a digest
is one of `img`. -/
def Cut (run : SumRun) (fits : Prop) (img : List Byte) (st : SumState) : Prop :=
  ¬ (run.Calm ∧ fits) ∧ ∀ bs, st.summed = some bs → bs = img

/-- What a loop adds to the bytes sent. -/
def Out.sends : Out → List Byte → List Byte
  | .server, buf => buf
  | _, _ => []

theorem Out.sends_append (out : Out) (a b : List Byte) :
    out.sends (a ++ b) = out.sends a ++ out.sends b := by
  cases out <;> rfl

theorem Out.sends_nil (out : Out) : out.sends [] = [] := by
  cases out <;> rfl

theorem building_start (cksum : Bool) : Building cksum [] [] sumStart := ⟨fun _ => rfl, rfl, rfl⟩

section

variable {run : SumRun} {fits : Prop} {file : ForkedFile} {img : List Byte} {cksum : Bool}
  {fed sent : List Byte} {st : SumState} {α : Type}

theorem Building.cut (h : Building cksum fed sent st) (hcalm : ¬ run.Calm) :
    Cut run fits img st := by
  refine ⟨fun hboth => hcalm hboth.1, fun bs hbs => ?_⟩
  rw [h.summed] at hbs
  cases hbs

/-- A test that a calm run passes. -/
theorem Building.check (h : Building cksum fed sent st) {ok : Bool} {e : Int}
    {f : Unit → Summing α} {post : α → SumState → Prop} (hcalm : run.Calm → ok = true)
    (hok : ok = true → Meets (f ()) st post fun _ st' => Cut run fits img st') :
    Meets (check ok e >>= f) st post fun _ st' => Cut run fits img st' := by
  apply Meets.checked
  · intro hfalse
    apply h.cut
    intro hrun
    exact Bool.false_ne_true (hfalse.symm.trans (hcalm hrun))
  · exact hok

theorem Building.feed (h : Building cksum fed sent st) (buf : List Byte)
    {f : Unit → Summing α} {post : α → SumState → Prop} {fail : Int → SumState → Prop}
    (hf : ∀ st', Building cksum (fed ++ buf) sent st' → Meets (f ()) st' post fail) :
    Meets (Applefile.feed cksum buf >>= f) st post fail := by
  rw [Applefile.feed, meets_bind, meets_modify]
  apply hf
  cases cksum with
  | false => exact ⟨nofun, h.sent, h.summed⟩
  | true =>
    refine ⟨fun _ => ?_, h.sent, h.summed⟩
    show st.fed ++ buf = fed ++ buf
    rw [h.fed rfl]

theorem meets_put (h : Building cksum fed sent st) (left : Nat) (buf : List Byte) (out : Out) :
    Meets (put run left buf out) st
      (fun _ st' => Building cksum fed (sent ++ out.sends buf) st')
      (fun _ st' => Cut run fits img st') := by
  cases out with
  | nowhere =>
    rw [put, meets_pure]
    show Building cksum fed (sent ++ []) st
    rwa [List.append_nil]
  | server =>
    rw [put, meets_bind, meets_get]
    refine h.check (fun hrun => hrun.succeeds _) fun _ => ?_
    rw [meets_set, Out.sends, ← h.sent]
    exact ⟨h.fed, rfl, h.summed⟩
  | fork fork =>
    rw [put, meets_check]
    split_ifs with hok
    · show Building cksum fed (sent ++ []) st
      rwa [List.append_nil]
    · exact h.cut fun hrun => hok (hrun.succeeds _)

theorem meets_readSome (h : Building cksum fed sent st) (fork : Fork) (e : Int) (len : Nat)
    (rest : List Byte) :
    Meets (readSome run fork e len rest) st
      (fun buf st' => st' = st ∧ buf = rest.take buf.length ∧ (rest ≠ [] → buf ≠ []) ∧
        buf.length ≤ max 1 len ∧ (run.Calm → 1 ≤ len → len ≤ 8192 → buf = rest.take len))
      (fun _ st' => Cut run fits img st') := by
  unfold readSome
  refine h.check (fun hrun => hrun.succeeds _) fun _ => ?_
  rw [meets_pure]
  refine ⟨rfl, ?_, ?_, ?_, ?_⟩
  · rw [List.length_take, ← List.take_take, List.take_length]
  · intro hrest hnil
    rw [List.take_eq_nil_iff] at hnil
    exact hnil.elim (by omega) hrest
  · rw [List.length_take]
    omega
  · intro hrun hpos hle
    have hamount := hrun.amount rest.length
    have hlen : max 1 (min len (run.amount rest.length)) = len := by omega
    rw [hlen]

/-- A loop reads and feeds all that is left. -/
theorem meets_sumLoop (fork : Fork) (out : Out) (e : Int) {fuel : Nat} {rest : List Byte}
    (hfuel : rest.length < fuel) (h : Building cksum fed sent st) :
    Meets (sumLoop run fork out cksum e fuel rest) st
      (fun n st' => n = rest.length ∧ Building cksum (fed ++ rest) (sent ++ out.sends rest) st')
      (fun _ st' => Cut run fits img st') := by
  induction fuel generalizing rest fed sent st with
  | zero => exact absurd hfuel (Nat.not_lt_zero _)
  | succ fuel ih =>
    rw [sumLoop]
    refine Meets.bind (meets_readSome h fork e 8192 rest) ?_
    rintro buf st' ⟨rfl, hbuf, hsome, -, -⟩
    by_cases hnil : buf = []
    · have hrest : rest = [] := by
        by_contra hne
        exact hsome hne hnil
      rw [if_pos hnil, meets_pure, hrest, Out.sends_nil, List.append_nil, List.append_nil]
      exact ⟨rfl, h⟩
    · rw [if_neg hnil]
      have hpos : 0 < buf.length := List.length_pos_iff.mpr hnil
      have hsplit : buf ++ rest.drop buf.length = rest := by
        conv_lhs => rw [hbuf, List.length_take]
        rw [hbuf]
        simp
      refine Meets.bind (meets_put h rest.length buf out) ?_
      intro _ st₁ h₁
      apply h₁.feed
      intro st₂ h₂
      have hlen : buf.length + (rest.drop buf.length).length = rest.length := by
        rw [← List.length_append, hsplit]
      refine Meets.bind (ih (by omega) h₂) ?_
      rintro n st₃ ⟨rfl, h₃⟩
      rw [List.append_assoc, hsplit, List.append_assoc, ← Out.sends_append, hsplit] at h₃
      rw [meets_pure]
      exact ⟨hlen, h₃⟩

theorem meets_sumFork (fork : Fork) (out : Out) (e : Int) (content : List Byte)
    (h : Building cksum fed sent st) :
    Meets (sumFork run fork out cksum e content) st
      (fun n st' => n = content.length ∧
        Building cksum (fed ++ content) (sent ++ out.sends content) st')
      (fun _ st' => Cut run fits img st') :=
  meets_sumLoop fork out e (Nat.lt_succ_self _) h

/-- The run is over, with a digest of `img` if it takes any. -/
def Done (run : SumRun) (img : List Byte) (st : SumState) : Prop :=
  (run.cksum = true → st.summed = some img) ∧ ∀ bs, st.summed = some bs → bs = img

theorem meets_digestFinal (h : Building cksum fed sent st) (hcksum : cksum = true)
    {fail : Int → SumState → Prop} :
    Meets digestFinal st (fun bs st' => bs = fed ∧ st'.summed = some fed ∧ st'.sent = sent) fail := by
  rw [digestFinal, meets_bind, meets_get, meets_bind, meets_set, meets_pure, h.fed hcksum]
  exact ⟨rfl, rfl, h.sent⟩

theorem done_of_summed (h : st.summed = some img) : Done run img st := by
  refine ⟨fun _ => h, fun bs hbs => ?_⟩
  rw [h] at hbs
  exact (Option.some.inj hbs).symm

/-- The checksum compared with the one of the transcript. -/
theorem Building.compare (h : Building run.cksum fed sent st) (e : Int) :
    Meets (if run.cksum then do
        let bs ← digestFinal
        FailingState.check (run.trancksum = run.digest bs || run.force) e
      else pure ()) st
      (fun _ st' => Done run fed st' ∧ st'.sent = sent) (fun _ st' => Cut run fits fed st') := by
  split_ifs with hcksum
  · refine Meets.bind (meets_digestFinal h hcksum) ?_
    rintro bs st' ⟨-, hsummed, hsent⟩
    have hdone : Done run fed st' := done_of_summed hsummed
    rw [meets_check]
    split_ifs with hok
    · exact ⟨hdone, hsent⟩
    · refine ⟨fun hboth => hok ?_, hdone.2⟩
      rw [hboth.1.force, Bool.or_true]
  · rw [meets_pure]
    refine ⟨⟨fun hon => absurd hon hcksum, fun bs hbs => ?_⟩, h.sent⟩
    rw [h.summed] at hbs
    cases hbs

/-! ## The readers of the forks -/

theorem meets_doFcksum (run : SumRun) (fits : Prop) (content : List Byte) :
    Meets (doFcksum run content) sumStart
      (fun n st' => n = content.length ∧ Done run content st')
      (fun _ st' => Cut run fits content st') := by
  unfold doFcksum
  refine Meets.bind (meets_sumFork .data .nowhere (-1) content (building_start true)) ?_
  rintro n st' ⟨rfl, h⟩
  refine Meets.bind (meets_digestFinal h rfl) ?_
  rintro bs st'' ⟨-, hsummed, -⟩
  rw [meets_pure]
  exact ⟨rfl, done_of_summed hsummed⟩

theorem meets_acksumRsrc (h : Building true fed sent st) :
    Meets (acksumRsrc run file) st
      (fun n st' => n = file.rsrc.length ∧ Building true (fed ++ file.rsrc) sent st')
      (fun _ st' => Cut run fits img st') := by
  unfold acksumRsrc
  rw [file.asEnts_rsrc]
  split_ifs with hpos
  · refine h.check (fun hrun => decide_eq_true hrun.path) fun _ => ?_
    refine h.check (fun hrun => hrun.succeeds _) fun _ => ?_
    refine Meets.bind (meets_sumFork .rsrc .nowhere (-1) file.rsrc h) ?_
    rintro n st' ⟨rfl, h'⟩
    refine h'.check (fun hrun => hrun.succeeds _) fun _ => ?_
    rw [meets_pure]
    exact ⟨rfl, h'.fed, h'.sent.trans (List.append_nil sent), h'.summed⟩
  · have hnil : file.rsrc = [] := List.eq_nil_of_length_eq_zero (by omega)
    rw [meets_pure, hnil, List.append_nil]
    exact ⟨rfl, h⟩

/-- The digest is right, though the size returned is 28 bytes less than those fed. -/
theorem meets_doAcksum (run : SumRun) (fits : Prop) (file : ForkedFile) :
    Meets (doAcksum run file) sumStart
      (fun n st' => n + 28 = file.total ∧ Done run file.image st')
      (fun _ st' => Cut run fits file.image st') := by
  unfold doAcksum
  apply (building_start true).feed
  intro st₁ h₁
  apply h₁.feed
  intro st₂ h₂
  apply h₂.feed
  intro st₃ h₃
  rw [List.nil_append, headerBytes_eq, file.asEnts_bytes] at h₃
  refine Meets.bind (meets_acksumRsrc h₃) ?_
  rintro n st₄ ⟨rfl, h₄⟩
  refine h₄.check (fun hrun => hrun.succeeds _) fun _ => ?_
  refine Meets.bind (meets_sumFork .data .nowhere (-1) file.data h₄) ?_
  rintro n st₅ ⟨rfl, h₅⟩
  refine h₅.check (fun hrun => hrun.succeeds _) fun _ => ?_
  refine Meets.bind (meets_digestFinal h₅ rfl) ?_
  rintro bs st₆ ⟨-, hsummed, -⟩
  rw [meets_pure]
  refine ⟨?_, done_of_summed hsummed⟩
  unfold ForkedFile.total
  omega

theorem asSize_exact (h : file.total < 2 ^ 32) :
    (asSize file.rsrcLen file.dataLen).toNat = file.total := by
  rw [asSize_toNat, file.rsrcLen_toNat, file.dataLen_toNat]
  exact Nat.mod_eq_of_lt h

theorem Building.sendPiece (h : Building run.cksum fed sent st) (piece : List Byte)
    {f : Unit → Summing α} {post : α → SumState → Prop}
    (hf : ∀ st', Building run.cksum (fed ++ piece) (sent ++ piece) st' →
      Meets (f ()) st' post fun _ st' => Cut run fits img st') :
    Meets (Applefile.sendPiece run piece >>= f) st post fun _ st' => Cut run fits img st' := by
  unfold Applefile.sendPiece
  rw [bind_assoc]
  refine Meets.bind (meets_put h 0 piece .server) ?_
  intro _ st₁ h₁
  exact h₁.feed piece hf

theorem meets_storRsrc (h : Building run.cksum fed sent st) :
    Meets (storRsrc run file) st
      (fun n st' => n = file.rsrc.length ∧
        Building run.cksum (fed ++ file.rsrc) (sent ++ file.rsrc) st')
      (fun _ st' => Cut run fits img st') := by
  unfold storRsrc
  rw [file.asEnts_rsrc]
  split_ifs with hpos
  · exact meets_sumFork .rsrc .server 2 file.rsrc h
  · have hnil : file.rsrc = [] := List.eq_nil_of_length_eq_zero (by omega)
    rw [meets_pure, hnil, List.append_nil, List.append_nil]
    exact ⟨rfl, h⟩

/-- What is sent and what is summed are the same. -/
theorem meets_storApplefile (run : SumRun) (file : ForkedFile) :
    Meets (storApplefile run file) sumStart
      (fun _ st' => Done run file.image st' ∧ st'.sent = file.image)
      (fun _ st' => Cut run (file.total < 2 ^ 32) file.image st') := by
  have h := building_start run.cksum
  unfold storApplefile
  refine h.check (fun hrun => ?_) fun _ => ?_
  · rw [decide_eq_false hrun.listed, Bool.and_false]
    rfl
  refine h.check (fun hrun => by rw [hrun.force, Bool.or_true]) fun _ => ?_
  refine h.check (fun hrun => hrun.succeeds _) fun _ => ?_
  refine h.check (fun hrun => by rw [decide_eq_true hrun.path, Bool.or_true]) fun _ => ?_
  refine h.check (fun hrun => by rw [hrun.succeeds, Bool.or_true]) fun _ => ?_
  refine h.check (fun hrun => hrun.succeeds _) fun _ => ?_
  refine h.check (fun hrun => hrun.succeeds _) fun _ => ?_
  apply h.sendPiece
  intro st₁ h₁
  apply h₁.sendPiece
  intro st₂ h₂
  apply h₂.sendPiece
  intro st₃ h₃
  rw [List.nil_append, headerBytes_eq, file.asEnts_bytes] at h₃
  refine Meets.bind (meets_storRsrc h₃) ?_
  rintro n st₄ ⟨rfl, h₄⟩
  refine Meets.bind (meets_sumFork .data .server 2 file.data h₄) ?_
  rintro n st₅ ⟨rfl, h₅⟩
  have hsent : st₅.sent = file.image := h₅.sent
  apply Meets.checked
  · intro hfalse
    refine ⟨fun hboth => ?_, fun bs hbs => ?_⟩
    · have hsize := asSize_exact hboth.2
      refine of_decide_eq_false hfalse ?_
      rw [hsize]
      unfold ForkedFile.total
      omega
    · rw [h₅.summed] at hbs
      cases hbs
  intro _
  refine h₅.check (fun hrun => hrun.succeeds _) fun _ => ?_
  refine h₅.check (fun hrun => hrun.succeeds _) fun _ => ?_
  refine h₅.check (fun hrun => by rw [hrun.succeeds, Bool.or_true]) fun _ => ?_
  exact h₅.compare 2

end

end Applefile

end Radmind
