import Mathlib

/-!
# Byte strings and C integers

`rstr_t` is an owned, length-prefixed byte buffer; equality is length-then-`memcmp`, which is
equality of lists. Machine integers are integers reduced into their C range: `int64_t`
arithmetic wraps modulo `2^64`, as the compiled code does for the unchecked multiplications
in the parsers, and `(int)` of a byte count keeps its low 32 bits. The decimal text that
`snprintf` writes is computed digit by digit, most significant first.
-/

namespace MiniRedis

/-- `rstr_t`: a binary-safe byte string. -/
abbrev Bytes := List UInt8

/-- The bytes of an ASCII string literal of the source. -/
def ascii (s : String) : Bytes := s.toList.map Char.toUInt8

/-- The line terminator `"\r\n"`. -/
def crlf : Bytes := [13, 10]

/-- The line terminator is two bytes. -/
@[simp] theorem length_crlf : crlf.length = 2 := rfl

/-- `strlen`: the bytes of a C string up to its first NUL. -/
def cString (s : Bytes) : Bytes := s.takeWhile (· != 0)

/-- `INT64_MAX`. -/
def int64Max : Int := 2 ^ 63 - 1

/-- `INT64_MIN`. -/
def int64Min : Int := -2 ^ 63

/-- `INT_MAX`, the largest byte count an `int` return value carries unchanged. -/
def intMax : Nat := 2 ^ 31 - 1

/-- `int64_t` arithmetic: the two's-complement value of `x` modulo `2^64`. -/
def int64 (x : Int) : Int := x.bmod (2 ^ 64)

/-- `(int)n` for a `size_t` byte count: its two's-complement value modulo `2^32`. -/
def toCInt (n : Nat) : Int := (n : Int).bmod (2 ^ 32)

/-- A value in the `int64_t` range is its own `int64_t` reduction. -/
theorem int64_of_mem {x : Int} (lo : int64Min ≤ x) (hi : x ≤ int64Max) : int64 x = x := by
  unfold int64 Int.bmod
  unfold int64Min int64Max at *
  dsimp only
  split <;> omega

/-- Every `int64_t` result lies in the `int64_t` range. -/
theorem int64_mem (x : Int) : int64Min ≤ int64 x ∧ int64 x ≤ int64Max := by
  unfold int64 Int.bmod int64Min int64Max
  dsimp only
  split <;> omega

/-- Reducing before or after one multiply-add step gives the same `int64_t`. -/
theorem int64_mul_add (x : Int) (a b : Int) : int64 (int64 x * a + b) = int64 (x * a + b) := by
  unfold int64
  rw [Int.bmod_add_bmod_congr.symm.trans (by rw [Int.bmod_mul_bmod]), Int.bmod_add_bmod_congr]

/-- Reducing twice is reducing once. -/
@[simp] theorem int64_int64 (x : Int) : int64 (int64 x) = int64 x := Int.bmod_bmod

/-- Reducing before or after a multiplication gives the same `int64_t`. -/
theorem int64_mul (x a : Int) : int64 (int64 x * a) = int64 (x * a) := by
  simpa using int64_mul_add x a 0

/-- A positive count up to `INT_MAX` survives the `(int)` conversion. -/
theorem toCInt_of_le {n : Nat} (h : n ≤ intMax) : toCInt n = n := by
  unfold toCInt Int.bmod intMax at *
  dsimp only
  split <;> omega

/-- Whatever `(int)n` gives, a positive result is at most `n`. -/
theorem toCInt_le {n : Nat} (h : 0 < toCInt n) : (toCInt n).toNat ≤ n := by
  unfold toCInt Int.bmod at *
  dsimp only at *
  split at * <;> omega

/-- `digitsAux fuel n acc`: the decimal digits of `n` in front of `acc`, as `%d` writes them. -/
def digitsAux : Nat → Nat → Bytes → Bytes
  | 0, _, acc => acc
  | fuel + 1, n, acc =>
    let acc := (n % 10 + 48).toUInt8 :: acc
    if n / 10 = 0 then acc else digitsAux fuel (n / 10) acc

/-- The decimal text of a natural number (`%zu`), most significant digit first. -/
def natDecimal (n : Nat) : Bytes := digitsAux (n + 1) n []

/-- The decimal text of a signed integer (`%d`, `PRId64`): a `-` before a negative one. -/
def intDecimal (i : Int) : Bytes :=
  if i < 0 then 45 :: natDecimal i.natAbs else natDecimal i.toNat

end MiniRedis
