import Radmind.Applefile.Streams

/-!
# One checksum for one applefile

The readers of an applefile sum the file as the server stores it, but for `copy_file` of t2pkg:
it swaps the entries of a file of the server before it sums them.
-/

namespace Radmind

open ByteOrder FailingState

namespace Applefile

section

variable {run : SumRun} {fits : Prop} {file : ForkedFile} {img : List Byte} {cksum : Bool}
  {fed sent : List Byte} {st : SumState} {α : Type}

/-! ## copy_file -/

theorem htonl_hostLong (n : Nat) (rest : List Byte) :
    htonl (hostLong (netBytes n ++ rest)) = BitVec.ofNat 32 n := by
  have hlen : (netBytes n).length = 4 := by rw [netBytes, List.length_reverse, leBytes_length]
  have hlt : swap 4 n < 2 ^ 32 := swap_lt 4 n
  have hhost : hostLong (netBytes n ++ rest) = BitVec.ofNat 32 (swap 4 n) := by
    rw [hostLong, List.take_left' hlen]
    rfl
  rw [hhost, htonl, BitVec.toNat_ofNat, Nat.mod_eq_of_lt hlt, swap_swap]
  apply BitVec.eq_of_toNat_eq
  rw [BitVec.toNat_ofNat, BitVec.toNat_ofNat]
  exact Nat.mod_mod n (2 ^ 32)

theorem hostEntry_netswap (aeId aeOffset aeLength : Nat) (rest : List Byte) :
    asEntryNetswap (hostEntry (netEntry aeId aeOffset aeLength ++ rest)) =
      ⟨BitVec.ofNat 32 aeId, BitVec.ofNat 32 aeOffset, BitVec.ofNat 32 aeLength⟩ := by
  have hlen : ∀ n, (netBytes n).length = 4 := fun n => by
    rw [netBytes, List.length_reverse, leBytes_length]
  have hfirst : (netEntry aeId aeOffset aeLength ++ rest) =
      netBytes aeId ++ (netBytes aeOffset ++ (netBytes aeLength ++ rest)) := by
    simp only [netEntry, List.append_assoc]
  have hdrop : ∀ mem : List Byte, mem.drop 8 = (mem.drop 4).drop 4 := fun mem => by
    rw [List.drop_drop]
  rw [asEntryNetswap, hostEntry, hfirst]
  dsimp only
  rw [hdrop, List.drop_left' (hlen aeId), List.drop_left' (hlen aeOffset), htonl_hostLong,
    htonl_hostLong, htonl_hostLong]

/-- What `copy_file` has in memory where it has swapped the entries of a stored file: the bytes of
numbers of the host. -/
def ForkedFile.hostEntries (file : ForkedFile) : AsEntry × AsEntry × AsEntry :=
  (⟨9, 62, 32⟩, ⟨2, 94, BitVec.ofNat 32 file.rsrc.length⟩,
    ⟨1, BitVec.ofNat 32 (94 + file.rsrc.length), BitVec.ofNat 32 file.data.length⟩)

/-- The bytes that `copy_file` sums of a stored file. -/
def ForkedFile.serverSum (file : ForkedFile) : List Byte :=
  asHeader ++ entsBytes file.hostEntries ++ file.finfo ++ file.rsrc ++ file.data

theorem hostEnts_netswap (file : ForkedFile) :
    entsNetswap (hostEnts file.netEntries) = file.hostEntries := by
  have hlen : ∀ a b c, (netEntry a b c).length = 12 := by
    intro a b c
    simp [netEntry, netBytes]
  have hnet : file.netEntries = netEntry 9 62 32 ++ (netEntry 2 94 file.rsrc.length ++
      (netEntry 1 (94 + file.rsrc.length) file.data.length ++ [])) := by
    rw [List.append_nil, ← List.append_assoc]
    rfl
  have hdrop : ∀ mem : List Byte, mem.drop 24 = (mem.drop 12).drop 12 := fun mem => by
    rw [List.drop_drop]
  rw [hnet, entsNetswap, hostEnts]
  dsimp only
  rw [hdrop, List.drop_left' (hlen _ _ _), List.drop_left' (hlen _ _ _), hostEntry_netswap,
    hostEntry_netswap, hostEntry_netswap]
  rfl

/-- A piece of known size read. -/
theorem Building.readPiece (h : Building cksum fed sent st) (fork : Fork) (e : Int) {len : Nat}
    (hpos : 1 ≤ len) (hle : len ≤ 8192) {rest : List Byte} (hlen : len ≤ rest.length)
    {f : List Byte → Summing α} {post : α → SumState → Prop}
    (hf : ∀ buf, buf = rest.take buf.length → (run.Calm → buf.length = len) →
      Meets (f buf) st post fun _ st' => Cut run fits img st') :
    Meets (readSome run fork e len rest >>= f) st post fun _ st' => Cut run fits img st' := by
  refine Meets.bind (meets_readSome h fork e len rest) ?_
  rintro buf st' ⟨rfl, hbuf, -, -, hcalm⟩
  apply hf buf hbuf
  intro hrun
  rw [hcalm hrun hpos hle, List.length_take, Nat.min_eq_left hlen]

theorem meets_decodeLoop {fuel rsize : Nat} {rest : List Byte} (hfuel : rsize ≤ fuel)
    (hrest : rsize ≤ rest.length) (h : Building run.cksum fed sent st) :
    Meets (decodeLoop run fuel rsize rest) st
      (fun rest' st' => rest' = rest.drop rsize ∧
        Building run.cksum (fed ++ rest.take rsize) sent st')
      (fun _ st' => Cut run fits img st') := by
  induction fuel generalizing rsize rest fed st with
  | zero =>
    obtain rfl := Nat.le_zero.mp hfuel
    rw [decodeLoop, meets_pure, List.take_zero, List.append_nil]
    exact ⟨rfl, h⟩
  | succ fuel ih =>
    rw [decodeLoop]
    by_cases hzero : rsize = 0
    · subst hzero
      rw [if_pos rfl, meets_pure, List.take_zero, List.append_nil]
      exact ⟨rfl, h⟩
    rw [if_neg hzero]
    refine Meets.bind (meets_readSome h .data (-1) (min 8192 rsize) rest) ?_
    rintro buf st' ⟨rfl, hbuf, hsome, hle, -⟩
    have hne : rest ≠ [] := List.length_pos_iff.mp (by omega)
    refine h.check (fun _ => decide_eq_true (hsome hne)) fun hnil => ?_
    have hpos : 0 < buf.length := List.length_pos_iff.mpr (of_decide_eq_true hnil)
    refine Meets.bind (meets_put h rest.length buf (.fork .rsrc)) ?_
    intro _ st₁ h₁
    replace h₁ : Building run.cksum fed sent st₁ :=
      ⟨h₁.fed, h₁.sent.trans (List.append_nil sent), h₁.summed⟩
    apply h₁.feed
    intro st₂ h₂
    refine (ih (by omega) (by rw [List.length_drop]; omega) h₂).mono ?_ fun _ _ => id
    rintro rest' st₃ ⟨rfl, h₃⟩
    have hrsize : buf.length + (rsize - buf.length) = rsize := by omega
    have hsplit : buf ++ (rest.drop buf.length).take (rsize - buf.length) = rest.take rsize := by
      conv_rhs => rw [← hrsize, List.take_add, ← hbuf]
    rw [List.drop_drop, hrsize]
    rw [List.append_assoc, hsplit] at h₃
    exact ⟨rfl, h₃⟩

theorem meets_copyServer (h : Building run.cksum [] sent st) :
    Meets (copyServer run file.image) st
      (fun r st' => r = (file.data, 94 + (file.rsrc.length : Int)) ∧
        Building run.cksum (asHeader ++ entsBytes file.hostEntries ++ file.finfo ++ file.rsrc)
          sent st')
      (fun _ st' => Cut run fits img st') := by
  have hlen := file.image_length
  have hheader : asHeader.length = 26 := by decide
  have hfinfo := file.finfo_length
  unfold ForkedFile.total at hlen
  have himage : file.image = asHeader ++ (file.netEntries ++ (file.finfo ++
      (file.rsrc ++ file.data))) := by
    simp only [ForkedFile.image, List.append_assoc]
  have hdrop : file.image.drop 26 = file.netEntries ++ (file.finfo ++ (file.rsrc ++ file.data)) := by
    rw [himage, List.drop_left' hheader]
  unfold copyServer
  refine h.readPiece .data 2 (by omega) (by omega) (by omega) fun header hbuf hcalm => ?_
  refine h.check (fun hrun => ?_) fun hok => ?_
  · rw [hcalm hrun, himage, List.take_left' hheader] at hbuf
    rw [hbuf, headerBytes_eq]
    decide
  rw [Bool.and_eq_true, decide_eq_true_iff, decide_eq_true_iff, headerBytes_eq] at hok
  apply h.feed
  intro st₁ h₁
  rw [hok.2, List.nil_append] at h₁
  dsimp only
  rw [hdrop]
  refine h₁.readPiece .data (-1) (by omega) (by omega)
    (by simp only [List.length_append, file.netEntries_length]; omega) fun mem hbuf hcalm => ?_
  refine h₁.check (fun hrun => decide_eq_true (hcalm hrun)) fun hok => ?_
  rw [of_decide_eq_true hok, List.take_left' file.netEntries_length] at hbuf
  rw [hbuf, hostEnts_netswap, List.drop_left' file.netEntries_length]
  apply h₁.feed
  intro st₂ h₂
  refine h₂.check (fun _ => rfl) fun _ => ?_
  refine h₂.readPiece .data (-1) (by omega) (by omega)
    (by simp only [List.length_append]; omega) fun finfo hbuf hcalm => ?_
  refine h₂.check (fun hrun => decide_eq_true (hcalm hrun)) fun hok => ?_
  rw [of_decide_eq_true hok, List.take_left' hfinfo] at hbuf
  rw [hbuf, List.drop_left' hfinfo]
  apply h₂.feed
  intro st₃ h₃
  refine h₃.check (fun hrun => by rw [hrun.succeeds, Bool.or_true]) fun _ => ?_
  refine h₃.check (fun hrun => hrun.succeeds _) fun _ => ?_
  have hrsize : file.hostEntries.2.1.aeLength.toNat = file.rsrc.length := by
    have hfits := file.rsrc_fits
    show (BitVec.ofNat 32 file.rsrc.length).toNat = _
    rw [BitVec.toNat_ofNat]
    omega
  rw [hrsize]
  refine Meets.bind (meets_decodeLoop le_rfl (by simp only [List.length_append]; omega) h₃) ?_
  rintro content st₄ ⟨rfl, h₄⟩
  rw [List.take_left' rfl] at h₄
  rw [List.drop_left' rfl]
  refine h₄.check (fun hrun => hrun.succeeds _) fun _ => ?_
  rw [meets_pure]
  exact ⟨rfl, h₄⟩

theorem meets_copyClient (h : Building run.cksum [] sent st) {stSize : BitVec 64}
    (hsize : stSize = file.dataLen + (32 + file.rsrcLen + 36 + 26)) :
    Meets (copyClient run file.finfo file.rsrc file.rsrcLen stSize) st
      (fun n st' => n = 94 + (file.rsrc.length : Int) ∧
        Building run.cksum (asHeader ++ file.netEntries ++ file.finfo ++ file.rsrc) sent st')
      (fun _ st' => Cut run fits img st') := by
  have hents : entsBytes (entsNetswap (asEntries file.rsrcLen
      (stSize - (26 + 36 + 32 + file.rsrcLen)))) = file.netEntries := by
    have hdata : stSize - (26 + 36 + 32 + file.rsrcLen) = file.dataLen := by
      rw [hsize]
      bv_omega
    rw [hdata]
    exact file.asEnts_bytes
  unfold copyClient
  apply h.feed
  intro st₁ h₁
  apply h₁.feed
  intro st₂ h₂
  refine h₂.check (fun hrun => by rw [hrun.succeeds, Bool.or_true]) fun _ => ?_
  apply h₂.feed
  intro st₃ h₃
  rw [List.nil_append, headerBytes_eq, hents] at h₃
  rw [file.rsrcLen_toInt]
  split_ifs with hpos
  · refine h₃.check (fun hrun => decide_eq_true hrun.path) fun _ => ?_
    refine h₃.check (fun hrun => hrun.succeeds _) fun _ => ?_
    refine h₃.check (fun hrun => hrun.succeeds _) fun _ => ?_
    refine Meets.bind (meets_sumFork .rsrc (.fork .rsrc) (-1) file.rsrc h₃) ?_
    rintro n st₄ ⟨rfl, h₄⟩
    refine h₄.check (fun hrun => hrun.succeeds _) fun _ => ?_
    refine h₄.check (fun hrun => hrun.succeeds _) fun _ => ?_
    rw [meets_pure]
    exact ⟨rfl, h₄.fed, h₄.sent.trans (List.append_nil sent), h₄.summed⟩
  · have hnil : file.rsrc = [] := List.eq_nil_of_length_eq_zero (by omega)
    rw [meets_pure, hnil, List.append_nil]
    exact ⟨rfl, h₃⟩

theorem meets_copyData (h : Building run.cksum fed sent st) {size : Int}
    (hsize : size = file.data.length) :
    Meets (copyData run file.data size) st
      (fun _ st' => Done run (fed ++ file.data) st')
      (fun _ st' => Cut run fits (fed ++ file.data) st') := by
  unfold copyData
  refine Meets.bind (meets_sumFork .data (.fork .data) 2 file.data h) ?_
  rintro n st₁ ⟨rfl, h₁⟩
  refine h₁.check (fun hrun => hrun.succeeds _) fun _ => ?_
  refine h₁.check (fun hrun => hrun.succeeds _) fun _ => ?_
  refine h₁.check (fun _ => decide_eq_true (by omega)) fun _ => ?_
  exact (h₁.compare (-1)).mono (fun _ _ hdone => hdone.1) fun _ _ => id

/-- The bytes that `copy_file` sums. -/
def ForkedFile.copySum (file : ForkedFile) : Location → List Byte
  | .client => file.image
  | .server => file.serverSum

theorem meets_copyFile (run : SumRun) (fits : Prop) (place : Location) (file : ForkedFile) :
    Meets (copyFile run place file) sumStart
      (fun _ st' => Done run (file.copySum place) st')
      (fun _ st' => Cut run fits (file.copySum place) st') := by
  have h := building_start run.cksum
  have hfits := file.rsrc_fits
  have hdata := file.data_fits
  unfold copyFile
  refine h.check (fun hrun => ?_) fun _ => ?_
  · rw [decide_eq_false hrun.listed, Bool.and_false]
    rfl
  refine h.check (fun hrun => hrun.succeeds _) fun _ => ?_
  refine h.check (fun hrun => hrun.succeeds _) fun _ => ?_
  refine h.check (fun hrun => hrun.succeeds _) fun _ => ?_
  refine h.check (fun hrun => decide_eq_true hrun.dst) fun _ => ?_
  cases place with
  | server =>
    dsimp only
    refine h.check (fun hrun => by rw [hrun.force, Bool.or_true]) fun _ => ?_
    refine Meets.bind (meets_copyServer h) ?_
    rintro r st₁ ⟨rfl, h₁⟩
    refine meets_copyData h₁ ?_
    rw [file.image_length]
    unfold ForkedFile.total
    omega
  | client =>
    dsimp only
    refine h.check (fun hrun => hrun.succeeds _) fun _ => ?_
    refine h.check (fun hrun => by rw [hrun.force, Bool.or_true]) fun _ => ?_
    have hsize : (file.dataLen + (32 + file.rsrcLen + 36 + 26)).toInt = file.total := by
      have hnat : (file.dataLen + (32 + file.rsrcLen + 36 + 26)).toNat = file.total := by
        have hr := file.rsrcLen_toNat
        have hd := file.dataLen_toNat
        unfold ForkedFile.total
        bv_omega
      rw [BitVec.toInt_eq_toNat_of_lt, hnat]
      rw [hnat]
      unfold ForkedFile.total
      omega
    refine Meets.bind (meets_copyClient h rfl) ?_
    rintro n st₁ ⟨rfl, h₁⟩
    refine meets_copyData h₁ ?_
    rw [hsize]
    unfold ForkedFile.total
    omega

end

/-! ## retr_applefile -/

theorem netLong_netBytes (n : Nat) : netLong (netBytes n) = BitVec.ofNat 32 n := by
  apply BitVec.eq_of_toNat_eq
  show (UInt8.toBitVec _ ++ UInt8.toBitVec _ ++ UInt8.toBitVec _ ++ UInt8.toBitVec _ :
    BitVec 32).toNat = _
  have hor : ∀ {m k : Nat}, k < 2 ^ 8 → m <<< 8 ||| k = m * 256 + k := by
    intro m k hk
    rw [← Nat.shiftLeft_add_eq_or_of_lt hk, Nat.shiftLeft_eq]
  rw [BitVec.toNat_append, BitVec.toNat_append, BitVec.toNat_append, hor (BitVec.isLt _),
    hor (BitVec.isLt _), hor (BitVec.isLt _), BitVec.toNat_ofNat]
  simp only [UInt8.toNat_toBitVec, UInt8.toNat_ofNat']
  omega

theorem rsrcLength_netEntries (file : ForkedFile) :
    rsrcLength file.netEntries = file.rsrc.length := by
  have hlen : ∀ n, (netBytes n).length = 4 := fun n => by
    rw [netBytes, List.length_reverse, leBytes_length]
  have hentry : (netEntry 9 62 32).length = 12 := by
    simp only [netEntry, List.length_append, hlen]
  have hfits := file.rsrc_fits
  have hdrop : file.netEntries.drop 12 = netEntry 2 94 file.rsrc.length ++
      netEntry 1 (94 + file.rsrc.length) file.data.length := by
    rw [ForkedFile.netEntries, List.append_assoc, List.drop_left' hentry]
  have hlength : (((file.netEntries.drop 12).drop 8).take 4) = netBytes file.rsrc.length := by
    have hfour : (netBytes 2 ++ netBytes 94).length = 8 := by
      rw [List.length_append, hlen, hlen]
    rw [hdrop, netEntry, List.append_assoc, List.drop_left' hfour, List.take_left' (hlen _)]
  rw [rsrcLength, asEntry, hlength, netLong_netBytes, BitVec.toNat_ofNat]
  omega

/-- The entries of the stored file agree with its length. -/
theorem image_agrees (file : ForkedFile) (behind : List Byte) :
    LengthsAgree (printInt file.image.length) (file.image ++ behind) ∧
      strtol 10 (printInt file.image.length) = file.image.length := by
  have hlen := file.image_length
  have hr := file.rsrc_fits
  have hd := file.data_fits
  have hheader : asHeader.length = 26 := by decide
  unfold ForkedFile.total at hlen
  have hsize : strtol 10 (printInt file.image.length) = file.image.length :=
    strtol_printInt (by omega) (by omega)
  have hents : ((file.image ++ behind).drop 26).take 36 = file.netEntries := by
    simp only [ForkedFile.image, List.append_assoc]
    rw [List.drop_left' hheader, List.take_left' file.netEntries_length]
  refine ⟨?_, hsize⟩
  unfold LengthsAgree
  dsimp only
  rw [hsize, hents, rsrcLength_netEntries]
  right
  exact ⟨by omega, .inr (.inr (by omega))⟩

theorem retrSummed_image {call : RetrCall} {behind bs : List Byte} {file : ForkedFile}
    (h : retrSummed call behind file = some bs) : bs = file.image := by
  obtain ⟨hagree, hsize⟩ := image_agrees file behind
  obtain ⟨hbody, -, hexact, hfails⟩ := @readsAnnounced_of_agree call _ _ hagree
  have hwhole : ∀ st : RetrState, st.body <+: file.image ++ behind → st.body.length =
      strtol 10 (printInt file.image.length) → st.body = file.image := by
    intro st hprefix hlength
    rw [hsize] at hlength
    rw [List.prefix_iff_eq_take.mp hprefix, List.take_left' (by omega)]
  unfold retrSummed at h
  rcases hr : (retrApplefile call (printInt file.image.length)).result
    (retrStart (file.image ++ behind)) with ⟨e | _, st⟩
  · rw [hr] at h hbody hexact
    dsimp only at h hbody hexact
    split_ifs at h with hasked
    rw [Bool.and_eq_true, Bool.and_eq_true] at hasked
    rw [← Option.some.inj h]
    exact hwhole st hbody (hexact hasked.1.2)
  · rw [hr] at h hbody hexact hfails
    dsimp only at h hbody hexact hfails
    split_ifs at h with hcksum
    have hasked : st.asked = true := by
      by_contra hnot
      obtain ⟨rc, hrc, -⟩ := hfails (Bool.eq_false_of_not_eq_true hnot)
      cases hrc
    rw [← Option.some.inj h]
    exact hwhole st hbody (hexact hasked)

/-- Nothing fails on the client, and the checksum of the transcript is the digest. -/
structure Complete (call : RetrCall) : Prop where
  unhindered : Unhindered { call with cksum := false }
  listed : call.trancksum ≠ [minus]
  line : ∀ stream, call.getline stream = some [dot]
  digest : ∀ bs, call.digest bs = call.trancksum

theorem copyFork_cksum (call : RetrCall) (fork : Fork) (fuel size : Nat) :
    copyFork call fork fuel size = copyFork { call with cksum := false } fork fuel size := by
  induction fuel generalizing size with
  | zero => rfl
  | succ fuel ih =>
    simp only [copyFork, ih]
    rfl

theorem retrRsrc_cksum (call : RetrCall) (ents : List Byte) :
    retrRsrc call ents = retrRsrc { call with cksum := false } ents := by
  unfold retrRsrc
  rw [copyFork_cksum]
  rfl

section

variable {call : RetrCall} {stream : List Byte} {n : Nat} {st : RetrState}

theorem Complete.header (h : Complete call) (htake : stream.take 26 = asHeader)
    (hlong : 94 < stream.length) :
    Meets (retrHeader call) (retrStart stream)
      (fun ents st' => Reading stream 94 st' ∧ ents = (stream.drop 26).take 36)
      (fun _ _ => False) := by
  have hall := meets_retrHeader_all h.unhindered (reading_start stream)
  have hbound := @meets_retrHeader { call with cksum := false } _ _ (reading_start stream)
  refine (hall.and hbound).mono (fun _ _ hboth => hboth.1) ?_
  rintro e st' ⟨⟨m, hm, -, hend⟩, -, m', hm', hst'⟩
  have hsame : m = m' := hm.length.symm.trans hst'.length
  have hat := hend.resolve_right (not_not_intro htake)
  omega

theorem Complete.rsrc (h : Complete call) (hst : Reading stream n st) {ents : List Byte}
    (hlong : n + rsrcLength ents < stream.length) :
    Meets (retrRsrc call ents) st (fun _ st' => Reading stream (n + rsrcLength ents) st')
      (fun _ _ => False) := by
  have hall := meets_retrRsrc_all h.unhindered hst ents
  have hbound := @meets_retrRsrc { call with cksum := false } _ _ _ hst ents
  rw [retrRsrc_cksum]
  refine (hall.and hbound).mono (fun _ _ hboth => hboth.1) ?_
  rintro e st' ⟨hst', -, m', -, hm', hst''⟩
  have hsame := hst'.length.symm.trans hst''.length
  omega

theorem Complete.fork (h : Complete call) (hst : Reading stream n st) {size : Nat}
    (hlong : n + size < stream.length) :
    Meets (copyFork call .data size size) st (fun _ st' => Reading stream (n + size) st')
      (fun _ _ => False) := by
  have hall := meets_copyFork_all h.unhindered .data (le_refl size) hst
  have hbound := @meets_copyFork { call with cksum := false } _ _ _ .data _ _ (le_refl size) hst
  rw [copyFork_cksum]
  refine (hall.and hbound).mono (fun _ _ hboth => hboth.1) ?_
  rintro e st' ⟨hst', -, m', -, hm', hst''⟩
  have hsame := hst'.length.symm.trans hst''.length
  omega

theorem Complete.trailer (h : Complete call) :
    Meets (retrTrailer call) st (fun _ _ => True) (fun _ _ => False) := by
  unfold retrTrailer snetGetline
  rw [meets_check_bind, if_pos (h.unhindered.succeeds _), meets_check_bind,
    if_pos (h.unhindered.succeeds _), meets_bind, meets_bind, meets_get, meets_bind, meets_set,
    h.line]
  show Meets (check _ _ >>= _) _ _ _
  rw [meets_check_bind, if_pos (decide_eq_true rfl), meets_bind, meets_get, meets_check, h.digest,
    decide_eq_true rfl, Bool.or_true, if_pos rfl]
  trivial

/-- The call comes to its end where there is something behind the file. -/
theorem Complete.ends (h : Complete call) (file : ForkedFile) {behind : List Byte}
    (hbehind : behind ≠ []) :
    Meets (retrApplefile call (printInt file.image.length)) (retrStart (file.image ++ behind))
      (fun _ _ => True) (fun _ _ => False) := by
  have hlen := file.image_length
  have hsize := (image_agrees file behind).2
  have hheader : asHeader.length = 26 := by decide
  have hpos : 0 < behind.length := List.length_pos_iff.mpr hbehind
  have hr := file.rsrc_fits
  have hd := file.data_fits
  unfold ForkedFile.total at hlen
  have hstream : (file.image ++ behind).length = file.image.length + behind.length :=
    List.length_append
  have htake : (file.image ++ behind).take 26 = asHeader := by
    simp only [ForkedFile.image, List.append_assoc]
    rw [List.take_left' hheader]
  have hents : ((file.image ++ behind).drop 26).take 36 = file.netEntries := by
    simp only [ForkedFile.image, List.append_assoc]
    rw [List.drop_left' hheader, List.take_left' file.netEntries_length]
  generalize file.image ++ behind = stream at hstream htake hents
  have hlisted : (!(call.cksum && decide (call.trancksum = [minus]))) = true := by
    rw [decide_eq_false h.listed, Bool.and_false]
    rfl
  have hreply := h.unhindered.reply
  have hsome : call.reply.isSome = true := by
    cases hr : call.reply with
    | none =>
      rw [show ({ call with cksum := false } : RetrCall).reply = none from hr] at hreply
      cases hreply
    | some line => rfl
  have htransize : (!decide (0 ≤ call.transize ∧ (file.image.length : Int) ≠ call.transize)) =
      true := by
    have hneg : call.transize < 0 := h.unhindered.transize
    rw [decide_eq_false (by omega)]
    rfl
  have hmod : (94 : Int) ≤ (file.image.length : Int) % 2 ^ 64 := by omega
  unfold retrApplefile
  rw [hsize]
  dsimp only
  rw [meets_check_bind, if_pos hlisted, meets_check_bind, if_pos (h.unhindered.succeeds _),
    meets_check_bind, if_pos hsome, meets_check_bind, if_pos (decide_eq_true hreply),
    meets_check_bind, if_pos htransize, meets_check_bind, if_pos (decide_eq_true hmod)]
  refine Meets.bind (h.header htake (by omega)) ?_
  rintro ents st₁ ⟨hst₁, rfl⟩
  rw [hents, rsrcLength_netEntries]
  refine Meets.bind (h.rsrc hst₁ (by rw [rsrcLength_netEntries]; omega)) ?_
  intro _ st₂ hst₂
  rw [rsrcLength_netEntries] at hst₂
  refine Meets.bind (h.fork hst₂ (by omega)) ?_
  intro _ st₃ _
  exact h.trailer

theorem Complete.summed (h : Complete call) (hcksum : call.cksum = true) (file : ForkedFile)
    {behind : List Byte} (hbehind : behind ≠ []) :
    (retrSummed call behind file).isSome = true := by
  have herror := (meets_iff.mp (h.ends file hbehind)).2
  unfold retrSummed
  rcases hr : (retrApplefile call (printInt file.image.length)).result
    (retrStart (file.image ++ behind)) with ⟨e | _, st⟩
  · exact (herror e st hr).elim
  · dsimp only
    rw [if_pos hcksum]
    rfl

theorem sumsImage_retr (h : Complete call) (hcksum : call.cksum = true) (file : ForkedFile) :
    SumsImage .retrApplefile file := by
  refine ⟨fun setting bs hbs => retrSummed_image hbs, fun _ => ?_⟩
  exact ⟨(call, [dot]), h.summed hcksum file (List.cons_ne_nil dot [])⟩

end

/-- A call that sums, on a client where nothing fails. -/
def summingCall : RetrCall :=
  { plainCall with
    cksum := true
    getline := fun _ => some [dot] }

theorem complete_summingCall : Complete summingCall where
  unhindered :=
    { cksum := rfl
      reply := unhindered_plainCall.reply
      transize := unhindered_plainCall.transize
      amount := unhindered_plainCall.amount
      succeeds := unhindered_plainCall.succeeds
      short := unhindered_plainCall.short }
  listed := by decide
  line _ := rfl
  digest _ := rfl

/-! ## One checksum -/

section

variable {fits : Prop} {img : List Byte} {β : Type} {n : Summing β}

theorem eq_of_summed {run : SumRun}
    (h : Meets n sumStart (fun _ st' => Done run img st') (fun _ st' => Cut run fits img st'))
    {bs : List Byte} (hbs : (n.result sumStart).2.summed = some bs) : bs = img := by
  obtain ⟨hok, herror⟩ := meets_iff.mp h
  rcases hr : n.result sumStart with ⟨e | a, st'⟩
  · rw [hr] at hbs
    exact (herror e st' hr).2 bs hbs
  · rw [hr] at hbs
    exact (hok a st' hr).2 bs hbs

/-- A calm run comes to the digest. -/
theorem summed_of_calm {run : SumRun} (hrun : run.Calm)
    (h : Meets n sumStart (fun _ st' => Done run img st') (fun _ st' => Cut run fits img st'))
    (hfits : fits) : (n.result sumStart).2.summed = some img := by
  obtain ⟨hok, herror⟩ := meets_iff.mp h
  rcases hr : n.result sumStart with ⟨e | a, st'⟩
  · exact absurd ⟨hrun, hfits⟩ (herror e st' hr).1
  · exact (hok a st' hr).1 hrun.cksum

end

/-- The first byte of the entries decides. -/
theorem serverSum_ne (file : ForkedFile) : file.serverSum ≠ file.image := by
  intro h
  have hheader : asHeader.length = 26 := by decide
  have hbyte : ∀ rest : List Byte, (asHeader ++ rest).drop 26 = rest := fun rest =>
    List.drop_left' hheader
  have hdrop := congrArg (List.drop 26) h
  simp only [ForkedFile.serverSum, ForkedFile.image, List.append_assoc, hbyte] at hdrop
  have hfirst := congrArg List.head? hdrop
  have hhost : ∀ rest, (entsBytes file.hostEntries ++ rest).head? = some 9 := fun _ => rfl
  have hnet : ∀ rest, (file.netEntries ++ rest).head? = some 0 := fun _ => rfl
  rw [hhost, hnet] at hfirst
  cases hfirst

section

variable {run : SumRun} {file : ForkedFile}

theorem sumsImage_doFcksum (hrun : run.Calm) : SumsImage .doFcksum file := by
  have h : ∀ run, Meets (doFcksum run file.image) sumStart (fun _ st' => Done run file.image st')
      (fun _ st' => Cut run True file.image st') := fun run =>
    (meets_doFcksum run True file.image).mono (fun _ _ hdone => hdone.2) fun _ _ => id
  refine ⟨fun setting bs => eq_of_summed (h setting), fun _ => ⟨run, ?_⟩⟩
  exact Option.isSome_of_eq_some (summed_of_calm hrun (h run) trivial)

theorem sumsImage_doAcksum (hrun : run.Calm) : SumsImage .doAcksum file := by
  have h : ∀ run, Meets (doAcksum run file) sumStart (fun _ st' => Done run file.image st')
      (fun _ st' => Cut run True file.image st') := fun run =>
    (meets_doAcksum run True file).mono (fun _ _ hdone => hdone.2) fun _ _ => id
  refine ⟨fun setting bs => eq_of_summed (h setting), fun _ => ⟨run, ?_⟩⟩
  exact Option.isSome_of_eq_some (summed_of_calm hrun (h run) trivial)

theorem sumsImage_storApplefile (hrun : run.Calm) : SumsImage .storApplefile file := by
  have h : ∀ run, Meets (storApplefile run file) sumStart
      (fun _ st' => Done run file.image st')
      (fun _ st' => Cut run (file.total < 2 ^ 32) file.image st') := fun run =>
    (meets_storApplefile run file).mono (fun _ _ hdone => hdone.1) fun _ _ => id
  refine ⟨fun setting bs => eq_of_summed (h setting), fun hfits => ⟨run, ?_⟩⟩
  exact Option.isSome_of_eq_some (summed_of_calm hrun (h run) hfits)

theorem sumsImage_copyFile_iff (hrun : run.Calm) (place : Location) :
    SumsImage (.copyFile place) file ↔ file.copySum place = file.image := by
  have h := fun run => meets_copyFile run True place file
  have hcalm := summed_of_calm hrun (h run) trivial
  constructor
  · intro hsums
    exact hsums.1 run _ hcalm
  · intro himage
    rw [himage] at h hcalm
    exact ⟨fun setting bs => eq_of_summed (h setting), fun _ =>
      ⟨run, Option.isSome_of_eq_some hcalm⟩⟩

end

/-- A run on which nothing fails. -/
def calmRun : SumRun where
  path := lit "/f"
  dst := lit "/g"
  transize := 0
  trancksum := []
  cksum := true
  force := true
  succeeds _ := true
  amount _ := 8192
  digest _ := []

theorem calm_calmRun : calmRun.Calm where
  path := by decide +kernel
  dst := by decide +kernel
  listed := by decide
  cksum := rfl
  force := rfl
  succeeds _ := rfl
  amount _ := le_rfl

/-- The digest is one of the stored image for every reader but t2pkg's for a file of the server,
which is one for no file. -/
theorem one_checksum_iff (reader : Reader) (file : ForkedFile) :
    SumsImage reader file ↔ reader ≠ .copyFile .server := by
  cases reader with
  | doAcksum => exact iff_of_true (sumsImage_doAcksum calm_calmRun) (by decide)
  | storApplefile => exact iff_of_true (sumsImage_storApplefile calm_calmRun) (by decide)
  | retrApplefile => exact iff_of_true (sumsImage_retr complete_summingCall rfl file) (by decide)
  | doFcksum => exact iff_of_true (sumsImage_doFcksum calm_calmRun) (by decide)
  | copyFile place =>
    rw [sumsImage_copyFile_iff calm_calmRun]
    cases place with
    | client => exact iff_of_true rfl (by decide)
    | server => exact iff_of_false (serverSum_ne file) (not_not_intro rfl)

/-- A file of 94 bytes. -/
def emptyForks : ForkedFile where
  finfo := List.replicate 32 0
  rsrc := []
  data := []
  finfo_length := by decide
  rsrc_fits := by decide
  data_fits := by decide

/-- t2pkg's digest of a file of the server is not one of that file. -/
theorem not_one_checksum : ¬ ∀ reader file, SumsImage reader file := by
  intro h
  have hserver := h (.copyFile .server) emptyForks
  rw [sumsImage_copyFile_iff calm_calmRun] at hserver
  exact serverSum_ne emptyForks hserver

end Applefile

end Radmind
