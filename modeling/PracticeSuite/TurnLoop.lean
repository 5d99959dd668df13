import Mathlib.Data.Int.ModEq

/-! Loops that bring an integer towards a range by whole turns, one from below and one from
above. A sum or difference outside the integers that fit is an overflow and gives nothing. -/
namespace PracticeSuite.TurnLoop

section
variable (fits : Int → Prop) [DecidablePred fits] {turn : Int}

def raise (positive : 0 < turn) (low n : Int) : Option Int :=
  if n < low then if fits (n + turn) then raise positive low (n + turn) else none else some n
termination_by (low - n).toNat

def lower (positive : 0 < turn) (high n : Int) : Option Int :=
  if high < n then if fits (n - turn) then lower positive high (n - turn) else none else some n
termination_by (n - high).toNat

def wrap (positive : 0 < turn) (low high n : Int) : Option Int := (raise fits positive low n).bind (lower fits positive high)

end

section
variable {turn : Int}

def wrapped (turn high n : Int) : Int := high - (high - n) % turn

theorem wrappedCongruent (high n : Int) : wrapped turn high n ≡ n [ZMOD turn] := by
  have difference := (Int.ModEq.refl high).sub (Int.mod_modEq (high - n) turn)
  rwa [sub_sub_cancel] at difference

theorem wrappedSame {n m : Int} (same : n ≡ m [ZMOD turn]) (high : Int) : wrapped turn high n = wrapped turn high m := by
  have difference : (high - n) % turn = (high - m) % turn := (Int.ModEq.refl high).sub same
  unfold wrapped
  rw [difference]

theorem wrappedInside {high n : Int} (least : high - turn < n) (most : n ≤ high) : wrapped turn high n = n := by
  unfold wrapped
  rw [Int.emod_eq_of_lt (by omega) (by omega)]
  omega

end

section
variable {fits : Int → Prop} [DecidablePred fits] {turn : Int} (positive : 0 < turn)
include positive

theorem raiseEq {low n : Int} (room : ∀ m, n ≤ m → m < low + turn → fits m) :
    raise fits positive low n = some (if n < low then low + (n - low) % turn else n) := by
  fun_induction raise fits positive low n with
  | case1 n below fit ih =>
    rw [ih fun m least most => room m (by omega) most,if_pos below]
    have same : (n + turn - low) % turn = (n - low) % turn := by
      rw [show n + turn - low = n - low + turn by omega,Int.add_emod_right]
    split
    · rw [same]
    · rw [← same,Int.emod_eq_of_lt (by omega) (by omega)]
      congr 1
      omega
  | case2 n below overflow => exact absurd (room (n + turn) (by omega) (by omega)) overflow
  | case3 n above => rw [if_neg above]

theorem lowerEq {high n : Int} (room : ∀ m, m ≤ n → high - turn < m → fits m) :
    lower fits positive high n = some (if high < n then high - (high - n) % turn else n) := by
  fun_induction lower fits positive high n with
  | case1 n above fit ih =>
    rw [ih fun m most least => room m (by omega) least,if_pos above]
    have same : (high - (n - turn)) % turn = (high - n) % turn := by
      rw [show high - (n - turn) = high - n + turn by omega,Int.add_emod_right]
    split
    · rw [same]
    · rw [← same,Int.emod_eq_of_lt (by omega) (by omega)]
      congr 1
      omega
  | case2 n above overflow => exact absurd (room (n - turn) (by omega) (by omega)) overflow
  | case3 n below => rw [if_neg below]

theorem wrapEq {low high n : Int} (overlap : high - turn < low) (raised : ∀ m, n ≤ m → m < low + turn → fits m)
    (lowered : ∀ m, m ≤ max n (low + turn) → high - turn < m → fits m) :
    wrap fits positive low high n = some (wrapped turn high n) := by
  have second : ∀ {m : Int}, low ≤ m → m ≤ max n (low + turn) → lower fits positive high m = some (wrapped turn high m) := by
    intro m least most
    rw [lowerEq positive fun k below => lowered k (by omega)]
    split
    · rfl
    · rw [wrappedInside (by omega) (by omega)]
  rw [wrap,raiseEq positive raised,Option.bind_some]
  split
  · have least := Int.emod_nonneg (n - low) positive.ne'
    have most := Int.emod_lt_of_pos (n - low) positive
    rw [second (by omega) (by omega)]
    have same : low + (n - low) % turn ≡ n [ZMOD turn] := by
      have sum := (Int.ModEq.refl low).add (Int.mod_modEq (n - low) turn)
      rwa [add_sub_cancel] at sum
    rw [wrappedSame same]
  · exact second (by omega) (by omega)

end

end PracticeSuite.TurnLoop
