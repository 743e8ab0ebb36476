import StyleImports.Text.Basic

/-!
# Ratios in decimals

A ratio is kept with fifty-three binary digits, as double precision keeps it, and written with a
fixed number of decimal places. Both steps round to the nearest value, and a half to the even one.
-/

set_option autoImplicit false

namespace StyleImports.Decimal

/-- The natural number nearest to a quotient, of two the even one. -/
def roundDiv (num den : Nat) : Nat :=
  let rest := num % den
  if 2 * rest < den then num / den
  else if den < 2 * rest then num / den + 1
  else num / den + num / den % 2

/-- The number `mantissa / 2 ^ scale`. -/
structure Binary where
  mantissa : Nat
  scale : Nat
  deriving DecidableEq, Repr

namespace Binary

/-- The scale at which a positive ratio has fifty-three digits before the point. -/
def scaleOf (num den : Nat) : Nat :=
  let wide := 53 + den.log2 - num.log2
  if (num <<< wide) / den < 1 <<< 53 then wide else wide - 1

/-- The nearest number of fifty-three binary digits to a ratio below `2 ^ 53`; zero over anything
is zero. -/
def ofRatio (num den : Nat) : Binary :=
  if num = 0 then ⟨0, 0⟩
  else
    let scale := scaleOf num den
    ⟨roundDiv (num <<< scale) den, scale⟩

/-- A multiple, rounded again. -/
def times (b : Binary) (n : Nat) : Binary := ofRatio (b.mantissa * n) (1 <<< b.scale)

/-- The number with a fixed number of places after the point. -/
def fixed (places : Nat) (b : Binary) : Text :=
  let unit := Nat.pow 10 places
  let units := roundDiv (b.mantissa * unit) (1 <<< b.scale)
  let digits := Text.ofNat (units % unit)
  Text.ofNat (units / unit) ++
    '.' :: (List.replicate (places - digits.length) '0' ++ digits)

end Binary

/-- A rounded quotient is at most half a unit away from the quotient. -/
theorem roundDiv_near {num den : Nat} (h : 0 < den) :
    2 * num ≤ 2 * (roundDiv num den * den) + den ∧
      2 * (roundDiv num den * den) ≤ 2 * num + den := by
  have hdiv : num / den * den + num % den = num := by
    rw [Nat.mul_comm]; exact Nat.div_add_mod num den
  have hlt : num % den < den := Nat.mod_lt _ h
  have hbit : num / den % 2 * den ≤ den := by
    rcases Nat.mod_two_eq_zero_or_one (num / den) with hb | hb <;> simp [hb]
  simp only [roundDiv]
  generalize hq : num / den * den = whole at *
  split
  · rw [hq]; omega
  · split
    · rw [Nat.add_mul, hq]; omega
    · rw [Nat.add_mul, hq]
      rcases Nat.mod_two_eq_zero_or_one (num / den) with hb | hb <;> simp only [hb] <;> omega

end StyleImports.Decimal
