import Mathlib

/-!
# Bytes of a number

A number in a word of memory, least byte first.  The other order is the list reversed.
-/

namespace ByteOrder

/-- The `n` low bytes of a number, least first. -/
def leBytes : Nat → Nat → List UInt8
  | 0, _ => []
  | n + 1, x => UInt8.ofNat x :: leBytes n (x / 256)

/-- The number with these bytes, least first. -/
def ofLe : List UInt8 → Nat
  | [] => 0
  | b :: bs => b.toNat + 256 * ofLe bs

@[simp] theorem leBytes_length (n x : Nat) : (leBytes n x).length = n := by
  induction n generalizing x with
  | zero => rfl
  | succ n ih => rw [leBytes, List.length_cons, ih]

theorem ofLe_lt (bs : List UInt8) : ofLe bs < 256 ^ bs.length := by
  induction bs with
  | nil => exact Nat.one_pos
  | cons b bs ih =>
    have hb : b.toNat < 256 := b.toNat_lt
    rw [ofLe, List.length_cons, Nat.pow_succ]
    omega

theorem leBytes_ofLe (bs : List UInt8) : leBytes bs.length (ofLe bs) = bs := by
  induction bs with
  | nil => rfl
  | cons b bs ih =>
    have hb : b.toNat < 256 := b.toNat_lt
    have hlow : UInt8.ofNat (b.toNat + 256 * ofLe bs) = b := by
      apply UInt8.toNat_inj.mp
      rw [UInt8.toNat_ofNat']
      omega
    have hhigh : (b.toNat + 256 * ofLe bs) / 256 = ofLe bs := by omega
    rw [List.length_cons, ofLe, leBytes, hlow, hhigh, ih]

theorem ofLe_leBytes (n x : Nat) : ofLe (leBytes n x) = x % 256 ^ n := by
  induction n generalizing x with
  | zero => rw [leBytes, ofLe, Nat.pow_zero, Nat.mod_one]
  | succ n ih =>
    rw [leBytes, ofLe, ih, UInt8.toNat_ofNat']
    show x % 256 + 256 * (x / 256 % 256 ^ n) = x % 256 ^ (n + 1)
    rw [Nat.pow_succ, Nat.mul_comm (256 ^ n), Nat.mod_mul]

/-- The number whose bytes are those of another in the other order. -/
def swap (n x : Nat) : Nat := ofLe (leBytes n x).reverse

theorem swap_lt (n x : Nat) : swap n x < 256 ^ n := by
  have h := ofLe_lt (leBytes n x).reverse
  rwa [List.length_reverse, leBytes_length] at h

theorem leBytes_swap (n x : Nat) : leBytes n (swap n x) = (leBytes n x).reverse := by
  have h := leBytes_ofLe (leBytes n x).reverse
  rwa [List.length_reverse, leBytes_length] at h

theorem swap_swap (n x : Nat) : swap n (swap n x) = x % 256 ^ n := by
  show ofLe (leBytes n (swap n x)).reverse = _
  rw [leBytes_swap, List.reverse_reverse, ofLe_leBytes]

end ByteOrder
