import Mathlib

/-!
# Bytes and C strings

A `char *` is modelled by the memory it points at: the list of bytes from the
pointer on, the terminating NUL and whatever follows it included.  A `CStr` is
the value of such a string, the bytes before the NUL.  `cstr` reads the second
off the first.
-/

namespace Radmind

abbrev Byte := UInt8

abbrev CStr := List Byte

@[match_pattern] abbrev nul : Byte := 0
@[match_pattern] abbrev tab : Byte := 9
@[match_pattern] abbrev newline : Byte := 10
@[match_pattern] abbrev creturn : Byte := 13
@[match_pattern] abbrev space : Byte := 32
@[match_pattern] abbrev hash : Byte := 35
@[match_pattern] abbrev plus : Byte := 43
@[match_pattern] abbrev minus : Byte := 45
@[match_pattern] abbrev dot : Byte := 46
@[match_pattern] abbrev slash : Byte := 47
@[match_pattern] abbrev colon : Byte := 58
@[match_pattern] abbrev bslash : Byte := 92

/-- A string constant of the source. -/
def lit (s : String) : CStr := s.toList.map Char.toUInt8

/-- `MAXPATHLEN` of `sys/param.h` on Linux. -/
def maxPathLen : Nat := 4096

theorem maxPathLen_pos : 0 < maxPathLen := by decide

/-- The string at a pointer. -/
def cstr (mem : List Byte) : CStr := mem.takeWhile (· ≠ nul)

def strlen (mem : List Byte) : Nat := (cstr mem).length

/-- A value some C string can hold. -/
def NulFree (s : List Byte) : Prop := nul ∉ s

instance (s : List Byte) : Decidable (NulFree s) :=
  inferInstanceAs (Decidable (nul ∉ s))

@[simp] theorem nulFree_nil : NulFree [] := List.not_mem_nil

@[simp] theorem nulFree_cons {c : Byte} {s : List Byte} :
    NulFree (c :: s) ↔ c ≠ nul ∧ NulFree s := by
  simp [NulFree, eq_comm]

@[simp] theorem nulFree_append {s t : List Byte} :
    NulFree (s ++ t) ↔ NulFree s ∧ NulFree t := by
  simp [NulFree]

@[simp] theorem cstr_nil : cstr [] = [] := rfl

@[simp] theorem cstr_nul (mem : List Byte) : cstr (nul :: mem) = [] := rfl

theorem cstr_cons {c : Byte} (hc : c ≠ nul) (mem : List Byte) :
    cstr (c :: mem) = c :: cstr mem := by
  simp [cstr, hc]

theorem head?_cstr {mem : List Byte} (h : cstr mem ≠ []) : (cstr mem).head? = mem.head? := by
  cases mem with
  | nil => exact absurd rfl h
  | cons c mem =>
    have hc : c ≠ nul := by
      rintro rfl
      exact h rfl
    rw [cstr_cons hc]
    rfl

theorem nulFree_cstr (mem : List Byte) : NulFree (cstr mem) := by
  intro h
  simpa using List.mem_takeWhile_imp h

/-- Reading a string stops at its own NUL, whatever lies behind it. -/
theorem cstr_append_nul {s : List Byte} (hs : NulFree s) (mem : List Byte) :
    cstr (s ++ nul :: mem) = s := by
  induction s with
  | nil => rfl
  | cons c s ih =>
    rw [nulFree_cons] at hs
    rw [List.cons_append, cstr_cons hs.1, ih hs.2]

theorem cstr_append_of_mem {mem : List Byte} (h : nul ∈ mem) (rest : List Byte) :
    cstr (mem ++ rest) = cstr mem := by
  obtain ⟨s, t, rfl, hs⟩ := List.eq_append_cons_of_mem h
  rw [List.append_assoc, List.cons_append, cstr_append_nul hs, cstr_append_nul hs]

theorem cstr_of_nulFree {s : List Byte} (hs : NulFree s) : cstr s = s := by
  induction s with
  | nil => rfl
  | cons c s ih =>
    rw [nulFree_cons] at hs
    rw [cstr_cons hs.1, ih hs.2]

/-- `strncmp( prefix, s, strlen( prefix )) == 0`. -/
def hasPrefix (pre s : CStr) : Bool := pre.isPrefixOf s

/-- `strstr( s, needle ) != NULL`. -/
def strstr (s needle : CStr) : Bool := s.tails.any (hasPrefix needle)

theorem hasPrefix_iff {pre s : CStr} : hasPrefix pre s = true ↔ pre <+: s :=
  List.isPrefixOf_iff_prefix

theorem strstr_iff {s needle : CStr} : strstr s needle = true ↔ needle <:+: s := by
  simp only [strstr, List.any_eq_true, List.mem_tails, hasPrefix_iff,
    List.infix_iff_prefix_suffix]
  exact ⟨fun ⟨t, hs, hp⟩ => ⟨t, hp, hs⟩, fun ⟨t, hp, hs⟩ => ⟨t, hs, hp⟩⟩

/-- `tolower` in the C locale. -/
def tolower (c : Byte) : Byte := if 65 ≤ c ∧ c ≤ 90 then c + 32 else c

/-- `strcasecmp( s, t ) == 0`. -/
def strcaseeq (s t : CStr) : Bool := s.map tolower = t.map tolower

end Radmind
