-- SUMMARY: Unsigned machine arithmetic on `Nat`.
import Mathlib.Tactic.Ring

/-!
# Unsigned words

Values of the unsigned C types are natural numbers. Every operation that can
leave the range of its type goes through the truncation of that type.
-/

namespace OpenSys

/-- Truncation to `uint64_t`. -/
def u64 (n : Nat) : Nat := n % 2 ^ 64

/-- Truncation to `uint32_t`. -/
def u32 (n : Nat) : Nat := n % 2 ^ 32

/-- `n--` on a `uint64_t`. -/
def dec64 (n : Nat) : Nat := u64 (n + (2 ^ 64 - 1))

/-- `a - b` on `uint64_t`, for `b` in range. -/
def sub64 (a b : Nat) : Nat := u64 (a + (2 ^ 64 - b))

/-- `((x) + (a) - 1) & ~((a) - 1)` on `uint64_t`, for `a` a power of two. -/
def alignUp (x a : Nat) : Nat := u64 (x + a - 1) / a * a

theorem u64_of_lt {n : Nat} (h : n < 2 ^ 64) : u64 n = n := Nat.mod_eq_of_lt h

theorem u64_lt (n : Nat) : u64 n < 2 ^ 64 := Nat.mod_lt _ (by norm_num)

theorem dec64_of_pos {n : Nat} (h : 0 < n) (hlt : n < 2 ^ 64) : dec64 n = n - 1 := by
  unfold dec64 u64
  omega

theorem sub64_of_le {a b : Nat} (h : b ≤ a) (hlt : a < 2 ^ 64) : sub64 a b = a - b := by
  unfold sub64 u64
  omega

end OpenSys
