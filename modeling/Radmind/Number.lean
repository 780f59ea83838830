import Radmind.CString

/-!
# Numbers in transcripts

`strtol` and `atoi` read what the `%lo`, `%d` and `%lld` conversions of
`t_print` write.  A number that fits its type survives the trip, also with the
padding of its column around it.
-/

namespace Radmind

/-- `isspace` in the C locale. -/
def isspace (c : Byte) : Bool := c = space ∨ (9 ≤ c ∧ c ≤ 13)

/-- The digits at the front of a string, read onto `acc`. -/
def strtolDigits (base acc : Nat) : CStr → Nat
  | [] => acc
  | c :: s =>
    if 48 ≤ c.toNat ∧ c.toNat < 48 + base then strtolDigits base (acc * base + (c.toNat - 48)) s
    else acc

/-- The range of a 64 bit `long`. -/
def clampLong (z : Int) : Int := max (-2 ^ 63) (min (2 ^ 63 - 1) z)

/-- `strtol( s, NULL, base )` and `strtoll`, for a base up to ten. -/
def strtol (base : Nat) (s : CStr) : Int :=
  match s.dropWhile isspace with
  | minus :: s => clampLong (-strtolDigits base 0 s)
  | plus :: s => clampLong (strtolDigits base 0 s)
  | s => clampLong (strtolDigits base 0 s)

/-- `atoi`, a `strtol` cut to 32 bits. -/
def atoi (s : CStr) : BitVec 32 := BitVec.ofInt 32 (strtol 10 s)

/-! ## Printing -/

def digitByte (d : Nat) : Byte := UInt8.ofNat (48 + d)

/-- The digits of a number, the most significant one first. -/
def printNat (base n : Nat) : CStr :=
  if n = 0 then [digitByte 0] else (Nat.digits base n).reverse.map digitByte

/-- `%d` and `%lld`. -/
def printInt (z : Int) : CStr :=
  if z < 0 then minus :: printNat 10 z.natAbs else printNat 10 z.natAbs

/-- Left padding with a fill byte up to a column width. -/
def padLeft (fill : Byte) (width : Nat) (s : CStr) : CStr :=
  List.replicate (width - s.length) fill ++ s

/-- `%-<width>s`. -/
def padRight (width : Nat) (s : CStr) : CStr :=
  s ++ List.replicate (width - s.length) space

/-- `%.4lo`. -/
def printMode (mode : BitVec 32) : CStr := padLeft (digitByte 0) 4 (printNat 8 mode.toNat)

/-! ## Reading what was printed -/

theorem digitByte_toNat {d : Nat} (hd : d < 10) : (digitByte d).toNat = 48 + d := by
  rw [digitByte, UInt8.toNat_ofNat']
  omega

/-- A byte of a printed number. -/
def IsDigit (c : Byte) : Prop := 48 ≤ c.toNat ∧ c.toNat < 58

theorem isDigit_digitByte {d : Nat} (hd : d < 10) : IsDigit (digitByte d) := by
  rw [IsDigit, digitByte_toNat hd]
  omega

theorem isDigit_of_mem_printNat {base n : Nat} (h2 : 2 ≤ base) (h10 : base ≤ 10) :
    ∀ c ∈ printNat base n, IsDigit c := by
  intro c hc
  unfold printNat at hc
  split at hc
  · rw [List.mem_singleton] at hc
    exact hc ▸ isDigit_digitByte (by omega)
  · obtain ⟨d, hd, rfl⟩ := List.mem_map.mp hc
    have := Nat.digits_lt_base (by omega) (List.mem_reverse.mp hd)
    exact isDigit_digitByte (by omega)

theorem printNat_ne_nil (base n : Nat) : printNat base n ≠ [] := by
  unfold printNat
  split
  · simp
  · next h => simpa using Nat.digits_ne_nil_iff_ne_zero.mpr h

theorem strtolDigits_cons {base d : Nat} (h10 : base ≤ 10) (hd : d < base) (acc : Nat)
    (s : CStr) : strtolDigits base acc (digitByte d :: s) = strtolDigits base (acc * base + d) s := by
  rw [strtolDigits, digitByte_toNat (by omega), if_pos (by omega)]
  congr 2
  omega

theorem strtolDigits_reverse {base : Nat} (h10 : base ≤ 10) {ds : List Nat}
    (hds : ∀ d ∈ ds, d < base) (acc : Nat) (s : CStr) :
    strtolDigits base acc (ds.reverse.map digitByte ++ s) =
      strtolDigits base (acc * base ^ ds.length + Nat.ofDigits base ds) s := by
  induction ds generalizing s with
  | nil => simp
  | cons d ds ih =>
    have hd : d < base := hds d List.mem_cons_self
    rw [List.reverse_cons, List.map_append, List.append_assoc,
      ih (fun d hd => hds d (List.mem_cons_of_mem _ hd)), List.map_singleton,
      List.singleton_append, strtolDigits_cons h10 hd, Nat.ofDigits_cons, List.length_cons]
    congr 1
    ring

theorem strtolDigits_printNat {base : Nat} (h2 : 2 ≤ base) (h10 : base ≤ 10) (n : Nat) :
    strtolDigits base 0 (printNat base n) = n := by
  unfold printNat
  split
  · next h =>
    rw [strtolDigits_cons h10 (by omega), h]
    simp [strtolDigits]
  · have hlt : ∀ d ∈ Nat.digits base n, d < base := fun d hd => Nat.digits_lt_base (by omega) hd
    have := strtolDigits_reverse h10 hlt 0 []
    rw [List.append_nil] at this
    rw [this, Nat.ofDigits_digits]
    simp [strtolDigits]

/-- Leading zeros do not count. -/
theorem strtolDigits_zeros {base : Nat} (h1 : 0 < base) (h10 : base ≤ 10) (k : Nat) (s : CStr) :
    strtolDigits base 0 (List.replicate k (digitByte 0) ++ s) = strtolDigits base 0 s := by
  induction k with
  | zero => rfl
  | succ k ih =>
    rw [List.replicate_succ, List.cons_append, strtolDigits_cons h10 h1]
    simpa using ih

theorem clampLong_eq {z : Int} (hlo : -2 ^ 63 ≤ z) (hhi : z < 2 ^ 63) : clampLong z = z := by
  unfold clampLong
  omega

/-- `strtol` on a string that starts with a digit. -/
theorem strtol_digit {base : Nat} {c : Byte} (hc : IsDigit c) (s : CStr) :
    strtol base (c :: s) = clampLong (strtolDigits base 0 (c :: s)) := by
  have hns : isspace c = false := by
    have h : ¬ c.toNat = 32 ∧ ¬ c.toNat ≤ 13 := by
      unfold IsDigit at hc
      omega
    simp only [isspace, decide_eq_false_iff_not, not_or, not_and]
    exact ⟨fun e => h.1 (e ▸ rfl), fun _ e => h.2 e⟩
  have hm : c ≠ minus := by rintro rfl; exact absurd hc.1 (by decide)
  have hp : c ≠ plus := by rintro rfl; exact absurd hc.1 (by decide)
  unfold strtol
  rw [List.dropWhile_cons_of_neg (by simp [hns])]
  split
  · next h => exact absurd (List.cons.inj h).1 hm
  · next h => exact absurd (List.cons.inj h).1 hp
  · rfl

theorem strtol_printInt {z : Int} (hlo : -2 ^ 63 ≤ z) (hhi : z < 2 ^ 63) :
    strtol 10 (printInt z) = z := by
  unfold printInt
  split
  · next h =>
    change clampLong (-strtolDigits 10 0 (printNat 10 z.natAbs)) = z
    rw [strtolDigits_printNat (by omega) le_rfl, clampLong_eq] <;> omega
  · next h =>
    obtain ⟨c, s, hcs⟩ := List.exists_cons_of_ne_nil (printNat_ne_nil 10 z.natAbs)
    have hc := isDigit_of_mem_printNat (show 2 ≤ 10 by omega) le_rfl (n := z.natAbs) c
      (hcs ▸ List.mem_cons_self)
    rw [hcs, strtol_digit hc, ← hcs, strtolDigits_printNat (by omega) le_rfl, clampLong_eq] <;> omega

theorem atoi_printInt (b : BitVec 32) : atoi (printInt b.toInt) = b := by
  have hlo := b.le_toInt
  have hhi := b.toInt_lt
  rw [atoi, strtol_printInt (by omega) (by omega), BitVec.ofInt_toInt]

theorem ofInt_strtol_printInt (b : BitVec 64) :
    BitVec.ofInt 64 (strtol 10 (printInt b.toInt)) = b := by
  have hlo := b.le_toInt
  have hhi := b.toInt_lt
  rw [strtol_printInt (by omega) (by omega), BitVec.ofInt_toInt]

theorem strtol_printMode (mode : BitVec 32) : strtol 8 (printMode mode) = mode.toNat := by
  have hdig : ∀ c ∈ printMode mode, IsDigit c := by
    intro c hc
    rcases List.mem_append.mp hc with hc | hc
    · exact List.eq_of_mem_replicate hc ▸ isDigit_digitByte (by omega)
    · exact isDigit_of_mem_printNat (by omega) (by omega) c hc
  have hval : strtolDigits 8 0 (printMode mode) = mode.toNat := by
    rw [printMode, padLeft, strtolDigits_zeros (by omega) (by omega),
      strtolDigits_printNat (by omega) (by omega)]
  have hne : printMode mode ≠ [] := by
    simp [printMode, padLeft, printNat_ne_nil]
  obtain ⟨c, s, hcs⟩ := List.exists_cons_of_ne_nil hne
  have hlt := mode.isLt
  rw [hcs] at hval ⊢
  rw [strtol_digit (hdig c (hcs ▸ List.mem_cons_self)), hval, clampLong_eq] <;> omega

/-! ## Device numbers -/

/-- `makedev`, with the layout of the GNU C library. -/
def makedev (major minor : BitVec 32) : BitVec 64 :=
  major.extractLsb' 12 20 ++ minor.extractLsb' 8 24 ++ major.extractLsb' 0 12 ++
    minor.extractLsb' 0 8

def major (dev : BitVec 64) : BitVec 32 := dev.extractLsb' 44 20 ++ dev.extractLsb' 8 12

def minor (dev : BitVec 64) : BitVec 32 := dev.extractLsb' 20 24 ++ dev.extractLsb' 0 8

theorem makedev_major_minor (dev : BitVec 64) : makedev (major dev) (minor dev) = dev := by
  refine BitVec.eq_of_getLsbD_eq fun i hi => ?_
  simp only [makedev, major, minor, BitVec.getLsbD_append, BitVec.getLsbD_extractLsb']
  grind

end Radmind
