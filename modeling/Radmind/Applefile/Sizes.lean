import Radmind.Lcksum.Run

/-!
# The size of an applesingle file

An applesingle file is a header, three entries, the Finder information, the resource fork
and the data fork.  `radstat` computes its size from the forks, and `ckapplefile` from the
entries, both with 32 bits.
-/

namespace Radmind

/-! ## radstat -/

/-- The entries `radstat` makes for a file with these forks. -/
def asEntries (rsrcLen stSize : BitVec 64) : AsEntry × AsEntry × AsEntry :=
  let fie : AsEntry := { aeId := 9, aeOffset := 26 + 3 * 12, aeLength := 32 }
  let rfe : AsEntry :=
    { aeId := 2, aeOffset := fie.aeOffset + fie.aeLength, aeLength := rsrcLen.setWidth 32 }
  let dfe : AsEntry :=
    { aeId := 1, aeOffset := rfe.aeOffset + rfe.aeLength, aeLength := stSize.setWidth 32 }
  (fie, rfe, dfe)

/-- `as_size`, which becomes the `st_size` of an applefile. -/
def asSize (rsrcLen stSize : BitVec 64) : BitVec 64 :=
  let dfe := (asEntries rsrcLen stSize).2.2
  (dfe.aeOffset + dfe.aeLength).setWidth 64

theorem asSize_toNat (rsrcLen stSize : BitVec 64) :
    (asSize rsrcLen stSize).toNat = (94 + rsrcLen.toNat + stSize.toNat) % 2 ^ 32 := by
  have h94 : (26 + 3 * 12 + 32 : BitVec 32) = BitVec.ofNat 32 94 := by decide
  simp only [asSize, asEntries, h94, BitVec.toNat_setWidth, BitVec.toNat_add, BitVec.toNat_ofNat]
  omega

theorem asSize_exact_iff (rsrcLen stSize : BitVec 64) :
    (asSize rsrcLen stSize).toNat = 62 + 32 + rsrcLen.toNat + stSize.toNat ↔
      62 + 32 + rsrcLen.toNat + stSize.toNat < 2 ^ 32 := by
  rw [asSize_toNat]
  omega

/-! ## ckapplefile -/

/-- The entries of a file. -/
def fileEntries (content : List Byte) : AsEntry × AsEntry × AsEntry :=
  let ents := (content.drop 26).take 36
  (asEntry ents, asEntry (ents.drop 12), asEntry (ents.drop 24))

/-- A file passes the checks of `ckapplefile`, which compare offsets modulo 2 ^ 32. -/
structure PassesChecks (content : List Byte) : Prop where
  header : content.take 26 = asHeader
  entries : ((content.drop 26).take 36).length = 36
  ids : (fileEntries content).1.aeId = 9 ∧ (fileEntries content).2.1.aeId = 2 ∧
    (fileEntries content).2.2.aeId = 1
  finfo : (fileEntries content).1.aeOffset = 62
  rsrc : (fileEntries content).2.1.aeOffset =
    (fileEntries content).1.aeOffset + (fileEntries content).1.aeLength
  data : (fileEntries content).2.2.aeOffset =
    (fileEntries content).2.1.aeOffset + (fileEntries content).2.1.aeLength

/-- The size and the offsets of an accepted file are the sums of its lengths. -/
def EntriesExact (content : List Byte) : Prop :=
  ∀ size, ckapplefile content = some size →
    size = 26 + 36 + (fileEntries content).1.aeLength.toNat +
        (fileEntries content).2.1.aeLength.toNat + (fileEntries content).2.2.aeLength.toNat ∧
      (fileEntries content).2.1.aeOffset.toNat =
        (fileEntries content).1.aeOffset.toNat + (fileEntries content).1.aeLength.toNat ∧
      (fileEntries content).2.2.aeOffset.toNat =
        (fileEntries content).2.1.aeOffset.toNat + (fileEntries content).2.1.aeLength.toNat

/-- None of the sums needs more than 32 bits. -/
def SumsFit (content : List Byte) : Prop :=
  (fileEntries content).1.aeLength.toNat + (fileEntries content).2.1.aeLength.toNat +
      (fileEntries content).2.2.aeLength.toNat < 2 ^ 32 ∧
    (fileEntries content).1.aeOffset.toNat + (fileEntries content).1.aeLength.toNat < 2 ^ 32 ∧
    (fileEntries content).2.1.aeOffset.toNat + (fileEntries content).2.1.aeLength.toNat < 2 ^ 32

theorem ckapplefile_eq (content : List Byte) :
    ckapplefile content =
      let (fie, rfe, dfe) := fileEntries content
      if content.take 26 ≠ asHeader then none
      else if ((content.drop 26).take 36).length ≠ 36 then none
      else if fie.aeId ≠ 9 ∨ rfe.aeId ≠ 2 ∨ dfe.aeId ≠ 1 then none
      else if fie.aeOffset ≠ 62 then none
      else if rfe.aeOffset ≠ fie.aeOffset + fie.aeLength then none
      else if dfe.aeOffset ≠ rfe.aeOffset + rfe.aeLength then none
      else some (62 + (fie.aeLength + rfe.aeLength + dfe.aeLength).toNat) := rfl

theorem ckapplefile_eq_some_iff (content : List Byte) (size : Int) :
    ckapplefile content = some size ↔ PassesChecks content ∧
      size = 62 + ((fileEntries content).1.aeLength + (fileEntries content).2.1.aeLength +
        (fileEntries content).2.2.aeLength).toNat := by
  rw [ckapplefile_eq]
  dsimp only
  constructor
  · intro h
    split_ifs at h with hheader hlen hids hfinfo hrsrc hdata
    rw [ne_eq, not_not] at hheader hlen hfinfo hrsrc hdata
    rw [not_or, not_or, ne_eq, ne_eq, ne_eq, not_not, not_not, not_not] at hids
    exact ⟨⟨hheader, hlen, hids, hfinfo, hrsrc, hdata⟩, (Option.some.inj h).symm⟩
  · rintro ⟨h, rfl⟩
    have hids := h.ids
    rw [if_neg (not_not.mpr h.header), if_neg (not_not.mpr h.entries), if_neg (by tauto),
      if_neg (not_not.mpr h.finfo), if_neg (not_not.mpr h.rsrc), if_neg (not_not.mpr h.data)]

theorem entriesExact_iff (content : List Byte) :
    EntriesExact content ↔ (PassesChecks content → SumsFit content) := by
  unfold EntriesExact SumsFit
  simp only [ckapplefile_eq_some_iff]
  constructor
  · intro h hpasses
    obtain ⟨hsize, hrsrc, hdata⟩ := h _ ⟨hpasses, rfl⟩
    have hlt₁ := (fileEntries content).2.1.aeOffset.isLt
    have hlt₂ := (fileEntries content).2.2.aeOffset.isLt
    simp only [BitVec.toNat_add] at hsize
    omega
  · rintro h size ⟨hpasses, rfl⟩
    obtain ⟨hsum, hrsrc, hdata⟩ := h hpasses
    have hoffset := congrArg BitVec.toNat hpasses.rsrc
    have hoffset' := congrArg BitVec.toNat hpasses.data
    rw [BitVec.toNat_add] at hoffset hoffset'
    simp only [BitVec.toNat_add]
    omega

/-- The sizes are exact where they need no more than 32 bits. -/
theorem applesingle_sizes_iff (rsrcLen stSize : BitVec 64) (content : List Byte) :
    ((asSize rsrcLen stSize).toNat = 62 + 32 + rsrcLen.toNat + stSize.toNat ↔
        62 + 32 + rsrcLen.toNat + stSize.toNat < 2 ^ 32) ∧
      (EntriesExact content ↔ (PassesChecks content → SumsFit content)) :=
  ⟨asSize_exact_iff rsrcLen stSize, entriesExact_iff content⟩

/-- A resource fork that ends at 2 ^ 32, behind which the data fork is said to start at 0. -/
def wrappedFile : List Byte :=
  asHeader ++ [0, 0, 0, 9, 0, 0, 0, 62, 0, 0, 0, 32] ++
    [0, 0, 0, 2, 0, 0, 0, 94, 0xff, 0xff, 0xff, 0xa2] ++ [0, 0, 0, 1, 0, 0, 0, 0, 0, 0, 0, 0]

/-- A data fork of 2 ^ 32 bytes has the size of an empty one, and the data fork of the file
above passes. -/
theorem not_applesingle_sizes :
    asSize 0 (2 ^ 32) = asSize 0 0 ∧ ckapplefile wrappedFile = some (2 ^ 32) ∧
      ¬ (∀ rsrcLen stSize : BitVec 64,
        (asSize rsrcLen stSize).toNat = 62 + 32 + rsrcLen.toNat + stSize.toNat) ∧
      ¬ ∀ content, EntriesExact content := by
  refine ⟨by decide, by decide, fun h => ?_, fun h => ?_⟩
  · exact absurd (h 0 (2 ^ 32)) (by decide)
  · exact absurd (h wrappedFile (2 ^ 32) (by decide)).2.2 (by decide)

end Radmind
