import Radmind.CString

/-!
# Base64

The tables of the source are shifts of one alphabet: `etab_high6[ b ]` is the
letter of `b >> 2`, `dtab_high6[ c ]` the value of `c` shifted left by two, and
so on.
-/

namespace Radmind

def b64Alphabet : CStr := lit "ABCDEFGHIJKLMNOPQRSTUVWXYZabcdefghijklmnopqrstuvwxyz0123456789+/"

/-- The letter of a six bit value. -/
def b64Letter (v : Byte) : Byte := b64Alphabet.getD v.toNat nul

/-- The value of a letter, zero for every other byte. -/
def b64Value (c : Byte) : Byte :=
  if c ∈ b64Alphabet then UInt8.ofNat (b64Alphabet.idxOf c) else 0

def etabHigh6 (b : Byte) : Byte := b64Letter (b >>> 2)
def etabHigh24 (b : Byte) : Byte := b64Letter ((b &&& 3) <<< 4 ||| b >>> 4)
def etabLow42 (b : Byte) : Byte := b64Letter ((b &&& 15) <<< 2 ||| b >>> 6)
def etabLow6 (b : Byte) : Byte := b64Letter (b &&& 63)

def dtabHigh6 (c : Byte) : Byte := b64Value c <<< 2
def dtabHigh2 (c : Byte) : Byte := b64Value c >>> 4
def dtabHigh4 (c : Byte) : Byte := b64Value c <<< 4
def dtabLow4 (c : Byte) : Byte := b64Value c >>> 2
def dtabLow2 (c : Byte) : Byte := b64Value c <<< 6
def dtabLow6 (c : Byte) : Byte := b64Value c

/-- `base64_e`, the text without its NUL. -/
def base64E : List Byte → CStr
  | d0 :: d1 :: d2 :: d =>
    etabHigh6 d0 :: etabHigh24 (d0 &&& 0x03 ||| d1 &&& 0xF0) ::
      etabLow42 (d1 &&& 0x0F ||| d2 &&& 0xC0) :: etabLow6 d2 :: base64E d
  | [d0, d1] =>
    [etabHigh6 d0, etabHigh24 (d0 &&& 0x03 ||| d1 &&& 0xF0), etabLow42 (d1 &&& 0x0F), 61]
  | [d0] => [etabHigh6 d0, etabHigh24 (d0 &&& 0x03), 61, 61]
  | [] => []

/-- `base64_d`, the bytes it writes.  A `char` above 127 is negative and would
index the tables in front of their start. -/
def base64D : CStr → Option (List Byte)
  | e0 :: e1 :: e2 :: e3 :: e =>
    if e0 < 128 ∧ e1 < 128 ∧ e2 < 128 ∧ e3 < 128 then
      (base64D e).map fun d =>
        (dtabHigh6 e0 ||| dtabHigh2 e1) :: (dtabHigh4 e1 ||| dtabLow4 e2) ::
          (dtabLow2 e2 ||| dtabLow6 e3) :: d
    else none
  | _ => some []

/-- Three bytes for every four characters. -/
theorem length_base64D {e : CStr} {d : List Byte} (h : base64D e = some d) :
    d.length = e.length / 4 * 3 := by
  fun_induction base64D e generalizing d with
  | case1 e0 e1 e2 e3 e hlow ih =>
    obtain ⟨d', hd, rfl⟩ := Option.map_eq_some_iff.mp h
    have := ih hd
    simp only [List.length_cons]
    omega
  | case2 => exact absurd h (by simp)
  | case3 e hshort =>
    obtain rfl := Option.some.inj h
    have hlen : e.length < 4 := by
      match e, hshort with
      | [], _ | [_], _ | [_, _], _ | [_, _, _], _ => simp
      | e0 :: e1 :: e2 :: e3 :: e, hshort => exact absurd rfl (hshort e0 e1 e2 e3 e)
    simp only [List.length_nil]
    omega

theorem b64Letter_mem {v : Byte} (h : v < 64) : b64Letter v ∈ b64Alphabet := by
  have hlen : b64Alphabet.length = 64 := by decide
  have hv : v.toNat < 64 := UInt8.lt_iff_toNat_lt.mp h
  rw [b64Letter, List.getD_eq_getElem _ _ (by omega)]
  exact List.getElem_mem _

/-- The encoding tables are read below 64. -/
theorem etab_lt (b : Byte) : b >>> 2 < 64 ∧ (b &&& 3) <<< 4 ||| b >>> 4 < 64 ∧
    (b &&& 15) <<< 2 ||| b >>> 6 < 64 ∧ b &&& 63 < 64 := by
  have h : ∀ v : BitVec 8, v >>> 2 < 64#8 ∧ (v &&& 3#8) <<< 4 ||| v >>> 4 < 64#8 ∧
      (v &&& 15#8) <<< 2 ||| v >>> 6 < 64#8 ∧ v &&& 63#8 < 64#8 := by decide
  exact h b.toBitVec

/-- The characters of an encoding. -/
theorem mem_base64E {d : List Byte} : ∀ c ∈ base64E d, c ∈ b64Alphabet ∨ c = 61 := by
  have hhigh6 : ∀ b, etabHigh6 b ∈ b64Alphabet := fun b => b64Letter_mem (etab_lt b).1
  have hhigh24 : ∀ b, etabHigh24 b ∈ b64Alphabet := fun b => b64Letter_mem (etab_lt b).2.1
  have hlow42 : ∀ b, etabLow42 b ∈ b64Alphabet := fun b => b64Letter_mem (etab_lt b).2.2.1
  have hlow6 : ∀ b, etabLow6 b ∈ b64Alphabet := fun b => b64Letter_mem (etab_lt b).2.2.2
  intro c hc
  induction d using base64E.induct with
  | case1 d0 d1 d2 d ih =>
    simp only [base64E, List.mem_cons] at hc
    obtain rfl | rfl | rfl | rfl | hc := hc
    · exact .inl (hhigh6 _)
    · exact .inl (hhigh24 _)
    · exact .inl (hlow42 _)
    · exact .inl (hlow6 _)
    · exact ih hc
  | case2 d0 d1 =>
    simp only [base64E, List.mem_cons, List.not_mem_nil, or_false] at hc
    obtain rfl | rfl | rfl | rfl := hc
    · exact .inl (hhigh6 _)
    · exact .inl (hhigh24 _)
    · exact .inl (hlow42 _)
    · exact .inr rfl
  | case3 d0 =>
    simp only [base64E, List.mem_cons, List.not_mem_nil, or_false] at hc
    obtain rfl | rfl | rfl | rfl := hc
    · exact .inl (hhigh6 _)
    · exact .inl (hhigh24 _)
    · exact .inr rfl
    · exact .inr rfl
  | case4 => exact absurd hc List.not_mem_nil

theorem base64E_ne_nil {d : List Byte} (hd : d ≠ []) : base64E d ≠ [] := by
  match d with
  | [] => exact absurd rfl hd
  | [_] => simp [base64E]
  | [_, _] => simp [base64E]
  | _ :: _ :: _ :: _ => simp [base64E]

/-! ## The round trip -/

/-- `SZ_BASE64_E` -/
def szBase64E (x : Nat) : Nat := (x + 2) / 3 * 4 + 1

/-- The value of the letter of a six bit value is that value. -/
theorem b64Value_b64Letter {v : Byte} (h : v < 64) : b64Value (b64Letter v) = v := by
  have hall : ∀ v : BitVec 8, v < 64#8 → (b64Value (b64Letter ⟨v⟩)).toBitVec = v := by
    decide +kernel
  exact UInt8.toBitVec_inj.mp (hall v.toBitVec h)

/-- Three bytes cut into six bit values and put together. -/
theorem sextets (d0 d1 d2 : BitVec 8) :
    let x := d0 &&& 3#8 ||| d1 &&& 0xF0#8
    let y := d1 &&& 15#8 ||| d2 &&& 0xC0#8
    (d0 >>> 2) <<< 2 ||| ((x &&& 3#8) <<< 4 ||| x >>> 4) >>> 4 = d0 ∧
      ((x &&& 3#8) <<< 4 ||| x >>> 4) <<< 4 ||| ((y &&& 15#8) <<< 2 ||| y >>> 6) >>> 2 = d1 ∧
      ((y &&& 15#8) <<< 2 ||| y >>> 6) <<< 6 ||| d2 &&& 63#8 = d2 := by
  refine ⟨?_, ?_, ?_⟩
  all_goals
    ext i hi
    simp only [BitVec.getElem_or, BitVec.getElem_and, BitVec.getElem_shiftLeft,
      BitVec.getElem_ushiftRight, BitVec.getLsbD_or, BitVec.getLsbD_and,
      BitVec.getLsbD_shiftLeft, BitVec.getLsbD_ushiftRight]
    interval_cases i <;> simp

/-- The tables of one direction undo those of the other. -/
theorem dtab_etab (d0 d1 d2 : Byte) :
    let e1 := etabHigh24 (d0 &&& 0x03 ||| d1 &&& 0xF0)
    let e2 := etabLow42 (d1 &&& 0x0F ||| d2 &&& 0xC0)
    dtabHigh6 (etabHigh6 d0) ||| dtabHigh2 e1 = d0 ∧
      dtabHigh4 e1 ||| dtabLow4 e2 = d1 ∧ dtabLow2 e2 ||| dtabLow6 (etabLow6 d2) = d2 := by
  obtain ⟨h0, h1, h2⟩ := sextets d0.toBitVec d1.toBitVec d2.toBitVec
  have hhigh6 := b64Value_b64Letter (etab_lt d0).1
  have hhigh24 := b64Value_b64Letter (etab_lt (d0 &&& 0x03 ||| d1 &&& 0xF0)).2.1
  have hlow42 := b64Value_b64Letter (etab_lt (d1 &&& 0x0F ||| d2 &&& 0xC0)).2.2.1
  have hlow6 := b64Value_b64Letter (etab_lt d2).2.2.2
  simp only [dtabHigh6, dtabHigh2, dtabHigh4, dtabLow4, dtabLow2, dtabLow6, etabHigh6, etabHigh24,
    etabLow42, etabLow6, hhigh6, hhigh24, hlow42, hlow6]
  exact ⟨UInt8.toBitVec_inj.mp h0, UInt8.toBitVec_inj.mp h1, UInt8.toBitVec_inj.mp h2⟩

theorem b64_ascii {c : Byte} (h : c ∈ b64Alphabet ∨ c = 61) : c < 128 ∧ c ≠ nul := by
  rcases h with h | rfl
  · have hall : ∀ c ∈ b64Alphabet, c < 128 ∧ c ≠ nul := by decide +kernel
    exact hall c h
  · decide

/-- A block of four characters is decoded to three bytes. -/
theorem base64D_block {e0 e1 e2 e3 : Byte} {e : CStr} {d : List Byte}
    (h : ∀ c ∈ [e0, e1, e2, e3], c < 128) (hd : base64D e = some d) :
    base64D (e0 :: e1 :: e2 :: e3 :: e) =
      some ((dtabHigh6 e0 ||| dtabHigh2 e1) :: (dtabHigh4 e1 ||| dtabLow4 e2) ::
        (dtabLow2 e2 ||| dtabLow6 e3) :: d) := by
  simp only [List.forall_mem_cons] at h
  rw [base64D, if_pos ⟨h.1, h.2.1, h.2.2.1, h.2.2.2.1⟩, hd]
  rfl

/-- A text encoded and decoded is itself, up to the end of the last block. -/
theorem base64D_base64E (d : List Byte) : ∃ behind, base64D (base64E d) = some (d ++ behind) := by
  have hascii : ∀ c ∈ base64E d, c < 128 := fun c hc => (b64_ascii (mem_base64E c hc)).1
  induction d using base64E.induct with
  | case1 d0 d1 d2 d ih =>
    rw [base64E] at hascii ⊢
    simp only [List.forall_mem_cons] at hascii
    obtain ⟨h0, h1, h2, h3, hrest⟩ := hascii
    obtain ⟨behind, hd⟩ := ih hrest
    obtain ⟨hd0, hd1, hd2⟩ := dtab_etab d0 d1 d2
    refine ⟨behind, ?_⟩
    rw [base64D_block (by simp [h0, h1, h2, h3]) hd, hd0, hd1, hd2]
    rfl
  | case2 d0 d1 =>
    rw [base64E] at hascii ⊢
    obtain ⟨hd0, hd1, -⟩ := dtab_etab d0 d1 0
    have hlow : d1 &&& 0x0F ||| (0 : Byte) &&& 0xC0 = d1 &&& 0x0F := by simp
    rw [hlow] at hd1
    rw [base64D_block hascii rfl, hd0, hd1]
    exact ⟨_, rfl⟩
  | case3 d0 =>
    rw [base64E] at hascii ⊢
    obtain ⟨hd0, -, -⟩ := dtab_etab d0 0 0
    have hhigh : d0 &&& 0x03 ||| (0 : Byte) &&& 0xF0 = d0 &&& 0x03 := by simp
    rw [hhigh] at hd0
    rw [base64D_block hascii rfl, hd0]
    exact ⟨_, rfl⟩
  | case4 => exact ⟨[], rfl⟩

theorem length_base64E (d : List Byte) : (base64E d).length = (d.length + 2) / 3 * 4 := by
  induction d using base64E.induct with
  | case1 d0 d1 d2 d ih =>
    simp only [base64E, List.length_cons, ih]
    omega
  | case2 d0 d1 => simp [base64E]
  | case3 d0 => simp [base64E]
  | case4 => rfl

/-- What is encoded has its size and no NUL, and decoding it gives the bytes back. -/
theorem base64_roundTrip (d : List Byte) :
    (base64E d).length = 4 * ((d.length + 2) / 3) ∧ NulFree (base64E d) ∧
      (base64E d ++ [nul]).length = szBase64E d.length ∧
      ∃ d', base64D (base64E d) = some d' ∧ d'.length = 3 * ((d.length + 2) / 3) ∧
        d'.take d.length = d := by
  have hlen := length_base64E d
  refine ⟨by omega, fun hnul => (b64_ascii (mem_base64E nul hnul)).2 rfl, ?_, ?_⟩
  · rw [List.length_append, hlen]
    rfl
  · obtain ⟨behind, hd⟩ := base64D_base64E d
    refine ⟨d ++ behind, hd, ?_, List.take_left⟩
    rw [length_base64D hd, hlen]
    omega

end Radmind
