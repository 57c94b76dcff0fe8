/-!
# Exact numbers

A finite number held as `mantissa * 10 ^ exponent` with no zero at the end of the mantissa.
Integers, decimals and binary floating-point numbers all have this form, and two of them denote
one number exactly when their forms agree.
-/

namespace Redaction.Number

structure Exact where
  mantissa : Int
  exponent : Int
deriving Repr, DecidableEq

/-- Takes at most `fuel` zeros off the end of a decimal numeral; also says how many it took. -/
def trimZeros : Nat → Nat → Nat × Nat
  | 0, n => (n, 0)
  | fuel + 1, n =>
    if n % 10 = 0 then
      let (m, zeros) := trimZeros fuel (n / 10)
      (m, zeros + 1)
    else (n, 0)

theorem trimZeros_restores (fuel n : Nat) :
    (trimZeros fuel n).1 * Nat.pow 10 (trimZeros fuel n).2 = n := by
  induction fuel generalizing n with
  | zero => simp [trimZeros]
  | succ fuel ih =>
    unfold trimZeros
    split
    · next h =>
      have := ih (n / 10)
      change _ * (Nat.pow 10 (trimZeros fuel (n / 10)).2 * 10) = n
      rw [← Nat.mul_assoc, this]
      omega
    · simp

/-- The normal form of `mantissa * 10 ^ exponent`. A number has at most as many zeros at its end as
binary digits. -/
def Exact.of (mantissa exponent : Int) : Exact :=
  if mantissa = 0 then ⟨0, 0⟩
  else
    let (m, zeros) := trimZeros (mantissa.natAbs.log2 + 1) mantissa.natAbs
    ⟨mantissa.sign * m, exponent + zeros⟩

/-- The integer that a number is, unless it has a fractional part. -/
def Exact.toInt? (x : Exact) : Option Int :=
  if 0 ≤ x.exponent then some (x.mantissa * Int.pow 10 x.exponent.toNat) else none

theorem Exact.toInt?_of (n : Int) : (Exact.of n 0).toInt? = some n := by
  unfold Exact.of
  split
  · next h => simp [Exact.toInt?, h]
  · have h := trimZeros_restores (n.natAbs.log2 + 1) n.natAbs
    simp only [Exact.toInt?, Int.zero_add, Int.natCast_nonneg, ↓reduceIte, Option.some.injEq,
      Int.toNat_natCast]
    have h' := congrArg (fun k : Nat => (k : Int)) h
    have hpow (k : Nat) : ((Nat.pow 10 k : Nat) : Int) = Int.pow 10 k := Int.natCast_pow 10 k
    simp only [Int.natCast_mul, hpow] at h'
    rw [Int.mul_assoc]
    exact (congrArg (n.sign * ·) h').trans (Int.sign_mul_natAbs n)

end Redaction.Number
