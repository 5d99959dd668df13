import Mathlib

/-! Conversions between C integer types, as functions on the integers the types
represent. A value outside the target range wraps around. -/
namespace PracticeSuite.CInt

def Fits (width : Nat) (n : Int) : Prop := -(2:Int)^(width-1) ≤ n ∧ n < (2:Int)^(width-1)
instance (width n) : Decidable (Fits width n) := by unfold Fits; infer_instance

abbrev IntValue := {n : Int // Fits 32 n}

/- Arithmetic on int is undefined where the result does not fit. -/
def checked (n : Int) : Option Int := if Fits 32 n then some n else none

theorem checkedSome {n m : Int} (fits : checked n = some m) : m = n := by
  unfold checked at fits
  split at fits
  · exact (Option.some.inj fits).symm
  · cases fits

theorem checkedFits {n m : Int} (fits : checked n = some m) : Fits 32 m := by
  unfold checked at fits
  split at fits
  · rename_i inside
    rwa [← Option.some.inj fits]
  · cases fits

def toInt (n : Int) : Int := n.bmod (2^32)

theorem toIntFits (n : Int) : Fits 32 (toInt n) := by
  unfold Fits toInt Int.bmod
  dsimp only
  split <;> omega

theorem toIntEq {n : Int} (fits : Fits 32 n) : toInt n = n := by
  unfold Fits at fits
  unfold toInt Int.bmod
  dsimp only
  split <;> omega

def clampLong (n : Int) : Int := max (-(2:Int)^63) (min n ((2:Int)^63 - 1))

end PracticeSuite.CInt
