import Radmind.Code

/-!
# The buffers of code.c

`encode` refuses strings that are longer than half of its buffer, and `decode` stops
before it writes a character past the end of its own.  Neither leaves room for the NUL
of a string that just fits.
-/

namespace Radmind

/-! ## The encoders -/

/-- The characters that `encode_internal` writes an escape for. -/
def isEscaped (c : Byte) : Bool :=
  c = space ∨ c = tab ∨ c = newline ∨ c = creturn ∨ c = bslash

theorem length_encodeByte (b : Bool) (c : Byte) :
    (encodeByte b c).length = if isEscaped c then 2 else 1 := by
  by_cases h : isEscaped c = true
  · rw [if_pos h]
    simp only [isEscaped, decide_eq_true_eq] at h
    rcases h with rfl | rfl | rfl | rfl | rfl
    · cases b <;> rfl
    · rfl
    · rfl
    · rfl
    · rfl
  · rw [if_neg h]
    simp only [isEscaped, decide_eq_true_eq, not_or] at h
    simp [encodeByte, h]

theorem length_flatMap_encodeByte (b : Bool) (line : CStr) :
    (line.flatMap (encodeByte b)).length = line.length + line.countP isEscaped := by
  induction line with
  | nil => rfl
  | cons c line ih =>
    rw [List.flatMap_cons, List.length_append, ih, length_encodeByte, List.countP_cons,
      List.length_cons]
    split_ifs <;> omega

/-- What an encoder writes, with the NUL, stays in its buffer. -/
def EncodeFits (b : Bool) (line : CStr) : Prop :=
  ∀ out, encodeInternal b line = some out → out.length + 1 ≤ 2 * maxPathLen

/-- The longest string that is accepted does not fit if every character gets an escape. -/
theorem encodeFits_iff (b : Bool) (line : CStr) :
    EncodeFits b line ↔ ¬ (line.length = maxPathLen ∧ ∀ c ∈ line, isEscaped c = true) := by
  have hcount := List.countP_le_length (p := isEscaped) (l := line)
  rw [← List.countP_eq_length, EncodeFits, encodeInternal]
  by_cases hlong : line.length > maxPathLen
  · simp only [if_pos hlong, reduceCtorEq, false_implies, implies_true, true_iff]
    omega
  · simp only [if_neg hlong, Option.some.injEq, forall_eq', length_flatMap_encodeByte]
    omega

/-! ## The decoder -/

/-- The rounds of the loop of `decode` on a string in memory, if the buffer were larger. -/
def rounds : List Byte → Nat
  | [] => 0
  | [c] => if c = nul then 0 else 1
  | c :: e :: mem =>
    if c = nul then 0
    else if c = bslash then rounds mem + 1
    else rounds (e :: mem) + 1

/-- The loop writes one character in each round, and gives up behind a full buffer. -/
theorem decodeLoop_rounds (room : Nat) (mem cells : List Byte) :
    (decodeLoop room mem cells).result.map List.length =
      if rounds mem ≤ room then some (rounds mem) else none := by
  have hpush : ∀ (d : Decoded) (c : Byte) (n k room : Nat),
      d.result.map List.length = (if k ≤ room then some k else none) →
      (d.push c n).result.map List.length =
        if k + 1 ≤ room + 1 then some (k + 1) else none := by
    intro d c n k room h
    rw [Decoded.push_result, Option.map_map]
    show d.result.map (Nat.succ ∘ List.length) = _
    rw [← Option.map_map, h]
    by_cases hk : k ≤ room
    · rw [if_pos hk, if_pos (by omega)]
      rfl
    · rw [if_neg hk, if_neg (by omega)]
      rfl
  induction room, mem, cells using decodeLoop.induct with
  | case1 room cells => simp [decodeLoop, rounds]
  | case2 mem cells => cases mem <;> simp [decodeLoop, rounds]
  | case3 c mem cells hc =>
    have hpos : 0 < rounds (c :: mem) := by
      cases mem with
      | nil => simp [rounds, hc]
      | cons e mem =>
        rw [rounds, if_neg hc]
        split_ifs <;> omega
    rw [if_neg (by omega)]
    simp [decodeLoop, hc]
  | case4 room cells => simp [decodeLoop, rounds]
  | case5 room cells _ ih =>
    rw [decodeLoop, if_neg (by decide), if_pos rfl]
    exact hpush _ _ _ 0 room (by simpa [rounds] using ih)
  | case6 room c cells hc hb ih =>
    rw [decodeLoop, if_neg hc, if_neg hb]
    rw [show rounds [c] = 0 + 1 by simp [rounds, hc]]
    exact hpush _ _ _ 0 room (by simpa [rounds] using ih)
  | case7 room e mem cells => simp [decodeLoop, rounds]
  | case8 room e mem cells _ ih =>
    rw [decodeLoop_escape, show rounds (bslash :: e :: mem) = rounds mem + 1 from rfl]
    exact hpush _ _ _ _ room ih
  | case9 room c e mem cells hc hb ih =>
    rw [decodeLoop, if_neg hc, if_neg hb, rounds, if_neg hc, if_neg hb]
    exact hpush _ _ _ _ room ih

/-- The number of bytes of the buffer that a call writes, with the NUL behind a string. -/
def decodeWrites (buf mem : List Byte) : Nat :=
  match (decodeLoop maxPathLen mem buf).result with
  | some line => line.length + 1
  | none => maxPathLen

/-- What a successful `decode` writes, with the NUL, stays in its buffer, and what it
returns is shorter than that. -/
def DecodeFits (buf mem : List Byte) : Prop :=
  ∀ path, (decode buf mem).1 = some path →
    decodeWrites buf mem ≤ maxPathLen ∧ path.length < maxPathLen

theorem decodeFits_iff (buf mem : List Byte) :
    DecodeFits buf mem ↔ ¬ (strlen mem ≤ 2 * maxPathLen ∧ rounds mem = maxPathLen) := by
  have hrounds := decodeLoop_rounds maxPathLen mem buf
  unfold DecodeFits decode decodeWrites
  by_cases hlong : strlen mem > 2 * maxPathLen
  · simp only [if_pos hlong, reduceCtorEq, false_implies, implies_true, true_iff]
    omega
  rw [if_neg hlong]
  cases hresult : (decodeLoop maxPathLen mem buf).result with
  | none =>
    rw [hresult] at hrounds
    have hmore : ¬ rounds mem ≤ maxPathLen := fun h => by simp [h] at hrounds
    simp only [hresult, Option.map_none, reduceCtorEq, false_implies, implies_true, true_iff]
    omega
  | some line =>
    rw [hresult] at hrounds
    have hle : rounds mem ≤ maxPathLen := by
      by_contra h
      simp [h] at hrounds
    have hline : line.length = rounds mem := by simpa [hle] using hrounds
    have hcstr : (cstr line).length ≤ line.length := (List.takeWhile_prefix _).length_le
    simp only [hresult, Option.map_some, Option.some.injEq, forall_eq']
    omega

/-! ## Both -/

/-- The functions of code.c keep to their buffers but on a string of `MAXPATHLEN` characters
that all get an escape, and on one that decodes to `MAXPATHLEN` characters. -/
theorem codec_fits_iff (b : Bool) (line : CStr) (buf mem : List Byte) :
    (EncodeFits b line ↔ ¬ (line.length = maxPathLen ∧ ∀ c ∈ line, isEscaped c = true)) ∧
      (DecodeFits buf mem ↔ ¬ (strlen mem ≤ 2 * maxPathLen ∧ rounds mem = maxPathLen)) :=
  ⟨encodeFits_iff b line, decodeFits_iff buf mem⟩

theorem rounds_replicate (n : Nat) : rounds (List.replicate n 97) = n := by
  induction n with
  | zero => rfl
  | succ n ih =>
    cases n with
    | zero => rfl
    | succ n =>
      rw [List.replicate_succ, List.replicate_succ, rounds, if_neg (by decide), if_neg (by decide),
        ← List.replicate_succ, ih]

/-- `MAXPATHLEN` spaces are encoded, and as many letters decoded, with the NUL outside of the
buffer. -/
theorem not_codec_fits :
    (¬ ∀ (b : Bool) (line : CStr), EncodeFits b line) ∧
      ¬ ∀ buf mem : List Byte, DecodeFits buf mem := by
  constructor
  · intro h
    refine (encodeFits_iff _ _).mp (h false (List.replicate maxPathLen space)) ?_
    refine ⟨List.length_replicate, fun c hc => ?_⟩
    rw [List.eq_of_mem_replicate hc]
    decide
  · intro h
    refine (decodeFits_iff _ _).mp (h [] (List.replicate maxPathLen 97)) ⟨?_, ?_⟩
    · have hle := (@List.takeWhile_prefix _ (List.replicate maxPathLen 97) (· ≠ nul)).length_le
      rw [List.length_replicate] at hle
      exact le_trans hle (by omega)
    · exact rounds_replicate maxPathLen

end Radmind
