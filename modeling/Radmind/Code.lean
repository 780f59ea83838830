import Radmind.CString

/-!
# Escaping of paths

`encode` and `decode` of code.c.  `decode` writes into one static buffer, which
every call of the process shares, so the buffer is an argument and a result: a
list of its bytes, the bytes beyond the list being zero as in a fresh process.
-/

namespace Radmind

/-- The switch of `encode_internal` on one byte. -/
def encodeByte (shellSpaces : Bool) (c : Byte) : List Byte :=
  if c = space then [bslash, if shellSpaces then space else 98]
  else if c = tab then [bslash, 116]
  else if c = newline then [bslash, 110]
  else if c = creturn then [bslash, 114]
  else if c = bslash then [bslash, bslash]
  else [c]

def encodeInternal (shellSpaces : Bool) (line : CStr) : Option CStr :=
  if line.length > maxPathLen then none else some (line.flatMap (encodeByte shellSpaces))

def encode (line : CStr) : Option CStr := encodeInternal false line

def encodeSpace (line : CStr) : Option CStr := encodeInternal true line

/-- The inner switch of `decode`: what `*temp` holds after the escape `c`, when
it held `stale` before.  The default case writes nothing. -/
def unescape (c stale : Byte) : Byte :=
  if c = 110 then newline
  else if c = 116 then tab
  else if c = 98 ∨ c = space then space
  else if c = 114 then creturn
  else if c = bslash then bslash
  else stale

/-- The bytes `decode` gives an escape of their own. -/
def isEscape (c : Byte) : Bool :=
  c = 110 ∨ c = 116 ∨ c = 98 ∨ c = space ∨ c = 114 ∨ c = bslash

theorem unescape_of_isEscape {c : Byte} (hc : isEscape c = true) (a b : Byte) :
    unescape c a = unescape c b := by
  simp only [isEscape, decide_eq_true_eq] at hc
  unfold unescape
  split_ifs <;> first | rfl | (exfalso; tauto)

theorem unescape_of_not_isEscape {c : Byte} (hc : isEscape c = false) (a : Byte) :
    unescape c a = a := by
  simp only [isEscape, decide_eq_false_iff_not, not_or] at hc
  simp [unescape, hc]

theorem unescape_ne_nul {c stale : Byte} (hc : isEscape c = true) : unescape c stale ≠ nul := by
  simp only [isEscape, decide_eq_true_eq] at hc
  unfold unescape
  split_ifs <;> first | decide | (exfalso; tauto)

/-- What one run of the copying loop leaves: the bytes written, or NULL when
the buffer overflowed, the buffer from the starting position on, and the number
of bytes of the argument's memory it looked at. -/
structure Decoded where
  result : Option (List Byte)
  buf : List Byte
  reads : Nat
  deriving DecidableEq

/-- A run of the loop seen from one position earlier. -/
def Decoded.push (c : Byte) (n : Nat) (d : Decoded) : Decoded :=
  { result := d.result.map (c :: ·), buf := c :: d.buf, reads := n + d.reads }

@[simp] theorem Decoded.push_result (c : Byte) (n : Nat) (d : Decoded) :
    (d.push c n).result = d.result.map (c :: ·) := rfl

@[simp] theorem Decoded.push_reads (c : Byte) (n : Nat) (d : Decoded) :
    (d.push c n).reads = n + d.reads := rfl

@[simp] theorem Decoded.push_buf (c : Byte) (n : Nat) (d : Decoded) :
    (d.push c n).buf = c :: d.buf := rfl

/-- The loop of `decode` from the pointer `line` on, with `room` bytes left in
the buffer and `cells` what the buffer holds there.  Memory ends where the list
does, which reads as zero. -/
def decodeLoop : Nat → List Byte → List Byte → Decoded
  | _, [], cells => { result := some [], buf := nul :: cells.tail, reads := 1 }
  | 0, c :: _, cells =>
    if c = nul then { result := some [], buf := nul :: cells.tail, reads := 1 }
    -- temp has reached the end of the buffer
    else { result := none, buf := cells, reads := 1 }
  | room + 1, [c], cells =>
    if c = nul then { result := some [], buf := nul :: cells.tail, reads := 1 }
    else if c = bslash then
      (decodeLoop room [] cells.tail).push (unescape nul (cells.headD nul)) 2
    else (decodeLoop room [] cells.tail).push c 1
  | room + 1, c :: e :: line, cells =>
    if c = nul then { result := some [], buf := nul :: cells.tail, reads := 1 }
    else if c = bslash then
      -- line++ skips the escape even when it is the terminating NUL
      (decodeLoop room line cells.tail).push (unescape e (cells.headD nul)) 2
    else (decodeLoop room (e :: line) cells.tail).push c 1

/-- One call of `decode`: the string returned, or NULL, and the static buffer
left behind for the next call. -/
def decode (buf mem : List Byte) : Option CStr × List Byte :=
  if strlen mem > 2 * maxPathLen then (none, buf)
  else
    let d := decodeLoop maxPathLen mem buf
    (d.result.map cstr, d.buf)

theorem nulFree_of_decode {buf mem : List Byte} {path : CStr}
    (h : (decode buf mem).1 = some path) : NulFree path := by
  unfold decode at h
  split_ifs at h
  obtain ⟨result, -, rfl⟩ := Option.map_eq_some_iff.mp h
  exact nulFree_cstr result

/-- The number of bytes at and after the pointer that `decode` looks at. -/
def decodeReads (buf mem : List Byte) : Nat :=
  if strlen mem > 2 * maxPathLen then strlen mem + 1
  else max (strlen mem + 1) (decodeLoop maxPathLen mem buf).reads

/-- The static buffer after a history of calls, starting from a fresh process. -/
def decodeHistory (calls : List (List Byte)) : List Byte :=
  calls.foldl (fun buf mem => (decode buf mem).2) []

/-! ## The string a call returns -/

/-- The number of characters a string decodes to. -/
def units : CStr → Nat
  | [] => 0
  | [_] => 1
  | c :: e :: s => if c = bslash then units s + 1 else units (e :: s) + 1

/-- A backslash at the very end escapes the terminating NUL. -/
def dangling : CStr → Bool
  | [] => false
  | [c] => c = bslash
  | c :: e :: s => if c = bslash then dangling s else dangling (e :: s)

/-- Every backslash starts one of the escapes `decode` knows. -/
def wellEscaped : CStr → Bool
  | [] => true
  | [c] => c ≠ bslash
  | c :: e :: s => if c = bslash then isEscape e && wellEscaped s else wellEscaped (e :: s)

/-- The bytes written for a string without dangling backslash, over a buffer
that held `cells`. -/
def decodedOver : List Byte → CStr → List Byte
  | _, [] => []
  | _, [c] => [c]
  | cells, c :: e :: s =>
    if c = bslash then unescape e (cells.headD nul) :: decodedOver cells.tail s
    else c :: decodedOver cells.tail (e :: s)

/-- The string a well escaped string stands for. -/
def decoded (s : CStr) : CStr := decodedOver [] s

theorem units_le_length (s : CStr) : units s ≤ s.length := by
  fun_induction units s <;> (simp_all; try omega)

theorem not_dangling_of_wellEscaped {s : CStr} (h : wellEscaped s = true) :
    dangling s = false := by
  fun_induction dangling s <;> simp_all [wellEscaped]

theorem decodedOver_eq_decoded {s : CStr} (h : wellEscaped s = true) (cells : List Byte) :
    decodedOver cells s = decoded s := by
  suffices ∀ cells cells', decodedOver cells s = decodedOver cells' s from this _ _
  fun_induction wellEscaped s with
  | case1 => intros; rfl
  | case2 => intros; rfl
  | case3 e s ih =>
    intro cells cells'
    rw [Bool.and_eq_true] at h
    simp only [decodedOver, if_true]
    rw [ih h.2 cells.tail cells'.tail, unescape_of_isEscape h.1]
  | case4 c e s hc ih =>
    intro cells cells'
    simp only [decodedOver, if_neg hc]
    rw [ih h cells.tail cells'.tail]

theorem decodeLoop_nul (room : Nat) (rest cells : List Byte) :
    decodeLoop room (nul :: rest) cells =
      { result := some [], buf := nul :: cells.tail, reads := 1 } := by
  cases room <;> cases rest <;> simp [decodeLoop]

theorem decodeLoop_plain {c : Byte} (hc : c ≠ nul) (hb : c ≠ bslash) (room : Nat)
    (line cells : List Byte) :
    decodeLoop (room + 1) (c :: line) cells = (decodeLoop room line cells.tail).push c 1 := by
  cases line <;> simp [decodeLoop, hc, hb]

theorem decodeLoop_escape (room : Nat) (e : Byte) (line cells : List Byte) :
    decodeLoop (room + 1) (bslash :: e :: line) cells =
      (decodeLoop room line cells.tail).push (unescape e (cells.headD nul)) 2 := by
  rw [decodeLoop, if_neg (by decide), if_pos rfl]

theorem decodeLoop_full {c : Byte} (hc : c ≠ nul) (line cells : List Byte) :
    decodeLoop 0 (c :: line) cells = { result := none, buf := cells, reads := 1 } := by
  simp [decodeLoop, hc]

/-- More characters than the buffer has room for give NULL, before the end of
the string is reached. -/
theorem decodeLoop_overflow {s : CStr} (hs : NulFree s) {room : Nat} (h : room < units s)
    (rest cells : List Byte) :
    (decodeLoop room (s ++ nul :: rest) cells).result = none ∧
      (decodeLoop room (s ++ nul :: rest) cells).reads ≤ s.length := by
  induction room generalizing s cells with
  | zero =>
    cases s with
    | nil => simp [units] at h
    | cons c s =>
      rw [nulFree_cons] at hs
      simp [decodeLoop_full hs.1]
  | succ room ih =>
    match s, hs, h with
    | [], _, h => simp [units] at h
    | [c], _, h => simp [units] at h
    | c :: e :: s, hs, h =>
      simp only [nulFree_cons] at hs
      by_cases hc : c = bslash
      · subst hc
        have hu : room < units s := by simpa [units] using h
        have := ih hs.2.2 hu cells.tail
        simp only [List.cons_append, decodeLoop_escape, Decoded.push_result,
          Decoded.push_reads, this.1, Option.map_none, List.length_cons]
        exact ⟨trivial, by omega⟩
      · have hu : room < units (e :: s) := by simpa [units, hc] using h
        have := ih (nulFree_cons.mpr hs.2) hu cells.tail
        rw [List.cons_append, decodeLoop_plain hs.1 hc]
        simp only [Decoded.push_result, Decoded.push_reads, this.1, Option.map_none]
        exact ⟨trivial, by simp only [List.length_cons] at this ⊢; omega⟩

/-- A string that fits and does not dangle is copied to its terminator. -/
theorem decodeLoop_fits {s : CStr} (hs : NulFree s) (hd : dangling s = false) {room : Nat}
    (h : units s ≤ room) (rest cells : List Byte) :
    decodeLoop room (s ++ nul :: rest) cells =
      { result := some (decodedOver cells s),
        buf := decodedOver cells s ++ nul :: cells.drop (units s + 1),
        reads := s.length + 1 } := by
  induction room generalizing s cells with
  | zero =>
    match s, h with
    | [], _ => simp [decodeLoop_nul, decodedOver, units]
    | [c], h => simp [units] at h
    | c :: e :: s, h => simp only [units] at h; split at h <;> omega
  | succ room ih =>
    match s, hs, hd, h with
    | [], _, _, _ => simp [decodeLoop_nul, decodedOver, units]
    | [c], hs, hd, _ =>
      have hb : c ≠ bslash := by simpa [dangling] using hd
      have htail : cells.tail.tail = cells.drop 2 := by
        rw [← List.drop_one, ← List.drop_one, List.drop_drop]
      simp [decodeLoop_plain (nulFree_cons.mp hs).1 hb, decodeLoop_nul, decodedOver, units,
        Decoded.push, htail]
    | c :: e :: s, hs, hd, h =>
      simp only [nulFree_cons] at hs
      by_cases hc : c = bslash
      · subst hc
        have := ih hs.2.2 (by simpa [dangling] using hd) (by simpa [units] using h) cells.tail
        rw [List.cons_append, List.cons_append, decodeLoop_escape, this]
        simp [Decoded.push, decodedOver, units, Nat.add_comm 2]
      · have := ih (nulFree_cons.mpr hs.2) (by simpa [dangling, hc] using hd)
          (by simpa [units, hc] using h) cells.tail
        rw [List.cons_append, decodeLoop_plain hs.1 hc, this]
        simp [Decoded.push, decodedOver, units, hc, Nat.add_comm 1]

/-- A dangling backslash carries the pointer past the terminator. -/
theorem decodeLoop_dangling {s : CStr} (hs : NulFree s) (hd : dangling s = true) {room : Nat}
    (h : units s ≤ room) (rest cells : List Byte) :
    s.length + 1 < (decodeLoop room (s ++ nul :: rest) cells).reads := by
  induction room generalizing s cells with
  | zero =>
    match s, hd, h with
    | [], hd, _ => simp [dangling] at hd
    | [c], _, h => simp [units] at h
    | c :: e :: s, _, h => simp only [units] at h; split at h <;> omega
  | succ room ih =>
    match s, hs, hd, h with
    | [], _, hd, _ => simp [dangling] at hd
    | [c], _, hd, _ =>
      have hc : c = bslash := by simpa [dangling] using hd
      subst hc
      have hpos : 0 < (decodeLoop room rest cells.tail).reads := by
        unfold decodeLoop
        split <;> (try split_ifs) <;> simp
      simp only [List.cons_append, List.nil_append, decodeLoop_escape, Decoded.push_reads,
        List.length_singleton]
      omega
    | c :: e :: s, hs, hd, h =>
      simp only [nulFree_cons] at hs
      by_cases hc : c = bslash
      · subst hc
        have := ih hs.2.2 (by simpa [dangling] using hd) (by simpa [units] using h) cells.tail
        simp only [List.cons_append, decodeLoop_escape, Decoded.push_reads, List.length_cons]
        omega
      · have := ih (nulFree_cons.mpr hs.2) (by simpa [dangling, hc] using hd)
          (by simpa [units, hc] using h) cells.tail
        rw [List.cons_append, decodeLoop_plain hs.1 hc]
        simp only [Decoded.push_reads, List.length_cons] at this ⊢
        omega

/-! ## Strings without escapes -/

theorem units_of_plain {s : CStr} (h : ∀ c ∈ s, c ≠ bslash) : units s = s.length := by
  fun_induction units s <;> simp_all

theorem not_dangling_of_plain {s : CStr} (h : ∀ c ∈ s, c ≠ bslash) : dangling s = false := by
  fun_induction dangling s <;> simp_all

theorem decodedOver_of_plain {s : CStr} (h : ∀ c ∈ s, c ≠ bslash) (cells : List Byte) :
    decodedOver cells s = s := by
  fun_induction decodedOver cells s <;> simp_all

/-! ## Round trip -/

theorem encodeByte_nulFree (b : Bool) {c : Byte} (hc : c ≠ nul) : NulFree (encodeByte b c) := by
  unfold encodeByte
  split_ifs <;> simp +decide [hc]

theorem encode_nulFree {b : Bool} {s : CStr} (hs : NulFree s) :
    NulFree (s.flatMap (encodeByte b)) := by
  intro h
  obtain ⟨c, hc, hmem⟩ := List.mem_flatMap.mp h
  exact encodeByte_nulFree b (fun e => hs (e ▸ hc)) hmem

/-- An encoded byte is one escape, or one byte that is no backslash. -/
theorem encodeByte_cases (b : Bool) (c : Byte) :
    (∃ e, encodeByte b c = [bslash, e] ∧ isEscape e = true ∧ ∀ stale, unescape e stale = c) ∨
      (encodeByte b c = [c] ∧ c ≠ bslash ∧ c ≠ space ∧ c ≠ tab ∧ c ≠ newline) := by
  unfold encodeByte
  split_ifs with h₁ _ h₂ h₃ h₄ h₅
  · exact .inl ⟨space, rfl, by decide, fun _ => h₁.symm⟩
  · exact .inl ⟨98, rfl, by decide, fun _ => h₁.symm⟩
  · exact .inl ⟨116, rfl, by decide, fun _ => h₂.symm⟩
  · exact .inl ⟨110, rfl, by decide, fun _ => h₃.symm⟩
  · exact .inl ⟨114, rfl, by decide, fun _ => h₄.symm⟩
  · exact .inl ⟨bslash, rfl, by decide, fun _ => h₅.symm⟩
  · exact .inr ⟨rfl, h₅, h₁, h₂, h₃⟩

theorem wellEscaped_cons_plain {c : Byte} (hc : c ≠ bslash) (s : CStr) :
    wellEscaped (c :: s) = wellEscaped s := by
  cases s <;> simp [wellEscaped, hc]

theorem units_cons_plain {c : Byte} (hc : c ≠ bslash) (s : CStr) :
    units (c :: s) = units s + 1 := by
  cases s <;> simp [units, hc]

theorem decodedOver_cons_plain {c : Byte} (hc : c ≠ bslash) (cells s : List Byte) :
    decodedOver cells (c :: s) = c :: decodedOver cells.tail s := by
  cases s <;> simp [decodedOver, hc]

theorem wellEscaped_encode (b : Bool) (s : CStr) :
    wellEscaped (s.flatMap (encodeByte b)) = true := by
  induction s with
  | nil => rfl
  | cons c s ih =>
    rw [List.flatMap_cons]
    rcases encodeByte_cases b c with ⟨e, he, hesc, -⟩ | ⟨he, hc, -⟩
    · simp [he, wellEscaped, hesc, ih]
    · rw [he, List.singleton_append, wellEscaped_cons_plain hc, ih]

theorem units_encode (b : Bool) (s : CStr) : units (s.flatMap (encodeByte b)) = s.length := by
  induction s with
  | nil => rfl
  | cons c s ih =>
    rw [List.flatMap_cons]
    rcases encodeByte_cases b c with ⟨e, he, -, -⟩ | ⟨he, hc, -⟩
    · simp [he, units, ih]
    · rw [he, List.singleton_append, units_cons_plain hc, ih, List.length_cons]

theorem decodedOver_encode (b : Bool) (cells : List Byte) (s : CStr) :
    decodedOver cells (s.flatMap (encodeByte b)) = s := by
  induction s generalizing cells with
  | nil => rfl
  | cons c s ih =>
    rw [List.flatMap_cons]
    rcases encodeByte_cases b c with ⟨e, he, -, hu⟩ | ⟨he, hc, -⟩
    · simp [he, decodedOver, hu, ih]
    · rw [he, List.singleton_append, decodedOver_cons_plain hc, ih]

theorem length_encode_le (b : Bool) (s : CStr) :
    (s.flatMap (encodeByte b)).length ≤ 2 * s.length := by
  induction s with
  | nil => simp
  | cons c s ih =>
    have : (encodeByte b c).length ≤ 2 := by
      rcases encodeByte_cases b c with ⟨e, he, -⟩ | ⟨he, -⟩ <;> simp [he]
    simp only [List.flatMap_cons, List.length_append, List.length_cons]
    omega

/-- A string that is short enough and well escaped decodes to its own meaning,
whatever the buffer held and whatever follows it in memory. -/
theorem decode_wellEscaped {s : CStr} (hs : NulFree s) (hw : wellEscaped s = true)
    (hlen : s.length ≤ 2 * maxPathLen) (hu : units s ≤ maxPathLen) (buf rest : List Byte) :
    (decode buf (s ++ nul :: rest)).1 = some (cstr (decoded s)) := by
  unfold decode strlen
  rw [cstr_append_nul hs, if_neg (by omega),
    decodeLoop_fits hs (not_dangling_of_wellEscaped hw) hu]
  simp [decodedOver_eq_decoded hw]

/-- `decode` undoes both encoders. -/
theorem decode_encodeInternal {b : Bool} {s e : CStr} (hs : NulFree s)
    (he : encodeInternal b s = some e) (buf rest : List Byte) :
    (decode buf (e ++ nul :: rest)).1 = some s := by
  unfold encodeInternal at he
  split at he
  · cases he
  · rename_i hlen
    obtain rfl := Option.some.inj he
    have hlen := length_encode_le b s
    rw [decode_wellEscaped (encode_nulFree hs) (wellEscaped_encode b s) (by omega)
      (by rw [units_encode]; omega), decoded, decodedOver_encode, cstr_of_nulFree hs]

/-! ## Independence of the history -/

/-- The value of a call on `s` is fixed by `s`: two calls after any two
histories, with anything behind the terminator, agree and do not look past it. -/
def DecodeDetermined (s : CStr) : Prop :=
  ∀ (calls calls' : List (List Byte)) (rest rest' : List Byte),
    (decode (decodeHistory calls) (s ++ nul :: rest)).1 =
        (decode (decodeHistory calls') (s ++ nul :: rest')).1 ∧
      decodeReads (decodeHistory calls) (s ++ nul :: rest) ≤ s.length + 1

/-- A call that leaves `n` copies of one byte at the front of the buffer. -/
def fillCall (n : Nat) (a : Byte) : List Byte := List.replicate n a ++ [nul]

theorem decodeHistory_fillCall {n : Nat} (hn : n ≤ maxPathLen) {a : Byte} (ha : a ≠ nul)
    (hb : a ≠ bslash) : decodeHistory [fillCall n a] = List.replicate n a ++ [nul] := by
  have hs : NulFree (List.replicate n a) := fun h => ha (List.eq_of_mem_replicate h).symm
  have hplain : ∀ c ∈ List.replicate n a, c ≠ bslash := fun c hc =>
    List.eq_of_mem_replicate hc ▸ hb
  have hu : units (List.replicate n a) = n := by
    rw [units_of_plain hplain, List.length_replicate]
  have hlen : ¬ strlen (fillCall n a) > 2 * maxPathLen := by
    rw [strlen, fillCall, cstr_append_nul hs, List.length_replicate]
    omega
  simp only [decodeHistory, List.foldl_cons, List.foldl_nil, decode, if_neg hlen]
  rw [fillCall, decodeLoop_fits hs (not_dangling_of_plain hplain) (by rw [hu]; exact hn),
    decodedOver_of_plain hplain]
  simp

/-- Over a buffer of one repeated byte every unknown escape shows that byte. -/
theorem decodedOver_fill_ne {s : CStr} (hd : dangling s = false) (hw : wellEscaped s = false)
    {a b : Byte} (hab : a ≠ b) {n : Nat} (hn : units s ≤ n) (t t' : List Byte) :
    decodedOver (List.replicate n a ++ t) s ≠ decodedOver (List.replicate n b ++ t') s := by
  induction n generalizing s with
  | zero =>
    match s, hn with
    | [], _ => simp [wellEscaped] at hw
    | [c], hn => simp [units] at hn
    | c :: e :: s, hn => simp only [units] at hn; split at hn <;> omega
  | succ n ih =>
    match s, hd, hw, hn with
    | [], _, hw, _ => simp [wellEscaped] at hw
    | [c], hd, hw, _ => simp_all [wellEscaped, dangling]
    | c :: e :: s, hd, hw, hn =>
      simp only [List.replicate_succ, List.cons_append]
      by_cases hc : c = bslash
      · simp only [units, dangling, wellEscaped, hc, if_true, Bool.and_eq_false_iff] at hn hd hw
        simp only [decodedOver, hc, if_true, List.headD_cons, List.tail_cons]
        by_cases he : isEscape e = true
        · have hw' : wellEscaped s = false := by simpa [he] using hw
          exact fun h => ih hd hw' (by omega) (List.cons.inj h).2
        · rw [Bool.not_eq_true] at he
          intro h
          rw [unescape_of_not_isEscape he, unescape_of_not_isEscape he] at h
          exact hab (List.cons.inj h).1
      · simp only [units, dangling, wellEscaped, hc, if_false] at hn hd hw
        simp only [decodedOver, hc, if_false, List.tail_cons]
        exact fun h => ih hd hw (by omega) (List.cons.inj h).2

theorem decodedOver_fill_nulFree {s : CStr} (hs : NulFree s) {a : Byte} (ha : a ≠ nul)
    {n : Nat} (hn : units s ≤ n) (t : List Byte) :
    NulFree (decodedOver (List.replicate n a ++ t) s) := by
  induction n generalizing s with
  | zero =>
    match s, hn with
    | [], _ => exact nulFree_nil
    | [c], hn => simp [units] at hn
    | c :: e :: s, hn => simp only [units] at hn; split at hn <;> omega
  | succ n ih =>
    match s, hs, hn with
    | [], _, _ => exact nulFree_nil
    | [c], hs, _ => exact hs
    | c :: e :: s, hs, hn =>
      simp only [nulFree_cons] at hs
      simp only [List.replicate_succ, List.cons_append]
      by_cases hc : c = bslash
      · simp only [units, hc, if_true] at hn
        simp only [decodedOver, hc, if_true, List.headD_cons, List.tail_cons, nulFree_cons]
        refine ⟨?_, ih hs.2.2 (by omega)⟩
        by_cases he : isEscape e = true
        · exact unescape_ne_nul he
        · rwa [unescape_of_not_isEscape (by simpa using he)]
      · simp only [units, hc, if_false] at hn
        simp only [decodedOver, hc, if_false, List.tail_cons, nulFree_cons]
        exact ⟨hs.1, ih (nulFree_cons.mpr hs.2) (by omega)⟩

/-- The static buffer shows through exactly where the switch has no case: a call
is independent of the history iff the string is refused for its length or every
backslash in it starts a known escape. -/
theorem decode_determined_iff {s : CStr} (hs : NulFree s) :
    DecodeDetermined s ↔
      2 * maxPathLen < s.length ∨ maxPathLen < units s ∨ wellEscaped s = true := by
  have hcs : ∀ rest, strlen (s ++ nul :: rest) = s.length := fun rest => by
    rw [strlen, cstr_append_nul hs]
  constructor
  · intro hdet
    by_contra hcon
    simp only [not_or, not_lt, Bool.not_eq_true] at hcon
    obtain ⟨hlen, hu, hw⟩ := hcon
    have hd : dangling s = false := by
      by_contra hd
      have hread := (hdet [] [] [] []).2
      have := decodeLoop_dangling hs (by simpa using hd) hu [] (decodeHistory [])
      rw [decodeReads, hcs, if_neg (by omega)] at hread
      omega
    have hcall := (hdet [fillCall (units s) 65] [fillCall (units s) 66] [] []).1
    rw [decodeHistory_fillCall hu (by decide) (by decide),
      decodeHistory_fillCall hu (by decide) (by decide)] at hcall
    unfold decode at hcall
    rw [hcs, if_neg (by omega), if_neg (by omega), decodeLoop_fits hs hd hu,
      decodeLoop_fits hs hd hu] at hcall
    simp only [Option.map_some, Option.some.injEq] at hcall
    rw [cstr_of_nulFree (decodedOver_fill_nulFree hs (by decide) le_rfl _),
      cstr_of_nulFree (decodedOver_fill_nulFree hs (by decide) le_rfl _)] at hcall
    exact decodedOver_fill_ne hd hw (by decide) le_rfl _ _ hcall
  · intro hcond calls calls' rest rest'
    by_cases hlen : 2 * maxPathLen < s.length
    · simp [decode, decodeReads, hcs, hlen]
    by_cases hu : maxPathLen < units s
    · have h := decodeLoop_overflow hs hu rest (decodeHistory calls)
      have h' := decodeLoop_overflow hs hu rest' (decodeHistory calls')
      simp only [decode, decodeReads, hcs, if_neg hlen, h.1, h'.1, Option.map_none]
      exact ⟨trivial, by omega⟩
    · have hw : wellEscaped s = true := by tauto
      rw [decode_wellEscaped hs hw (by omega) (by omega),
        decode_wellEscaped hs hw (by omega) (by omega), decodeReads, hcs, if_neg hlen,
        decodeLoop_fits hs (not_dangling_of_wellEscaped hw) (by omega)]
      exact ⟨rfl, by simp⟩

theorem decode_determined_iff_encoded :
    NulFree (lit "a\\b") ∧
      (DecodeDetermined (lit "a\\b") ↔
        2 * maxPathLen < (lit "a\\b").length ∨ maxPathLen < units (lit "a\\b") ∨
          wellEscaped (lit "a\\b") = true) :=
  ⟨by decide, decode_determined_iff (by decide)⟩

/-- `\q` returns the empty string in a fresh process and `A` after a call on `A`. -/
theorem decode_unknown_escape_stale :
    ¬ ∀ s : CStr, NulFree s → DecodeDetermined s := by
  intro h
  have := (h (lit "\\q") (by decide) [] [lit "A" ++ [nul]] [] []).1
  revert this
  decide

end Radmind
