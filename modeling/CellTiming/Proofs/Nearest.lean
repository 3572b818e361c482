import CellTiming.Proofs.FloatBits

/-! Reading decimal text. A quotient that lies in the neighbourhood of a number is read
as that number, however many digits it is written with. -/
namespace CellTiming.Decimal

section Rounding

variable {num den scaled n left shift mantissa : Nat}

theorem nearestWhole_eq (positive : 0 < den) (low : 2 * (n * den) ≤ 2 * num + den)
    (high : 2 * num ≤ 2 * (n * den) + den)
    (odd : n % 2 = 1 → 2 * (n * den) < 2 * num + den ∧ 2 * num < 2 * (n * den) + den) :
    nearestWhole num den = n := by
  have division : num / den * den + num % den = num := Nat.div_add_mod' num den
  have rest : num % den < den := Nat.mod_lt num positive
  have most : n ≤ num / den + 1 := by
    by_contra above
    have product : (num / den + 2) * den ≤ n * den := Nat.mul_le_mul_right den (by omega)
    rw [Nat.add_mul] at product
    omega
  have least : num / den ≤ n := by
    by_contra below
    have product : (n + 1) * den ≤ num / den * den := Nat.mul_le_mul_right den (by omega)
    rw [Nat.add_mul] at product
    omega
  simp only [nearestWhole]
  by_cases floor : n = num / den
  · rw [floor] at low high odd
    split <;> omega
  · have next : n = num / den + 1 := by omega
    rw [next, Nat.add_mul] at low high odd
    split <;> omega

/-- The last place of a quotient whose leading bit is known. -/
theorem shift_eq (positive : 0 < den) (below : scaled < 2 ^ 53 * (den * 2 ^ shift))
    (full : shift = 0 ∨ 2 ^ 52 * (den * 2 ^ shift) ≤ scaled) :
    (scaled / den).log2 - 52 = shift := by
  have less : scaled / den < 2 ^ (53 + shift) := by
    rw [Nat.div_lt_iff_lt_mul positive, Nat.pow_add, Nat.mul_assoc, Nat.mul_comm (2 ^ shift)]
    exact below
  rcases full with rfl | full
  · by_cases none : scaled / den = 0
    · rw [none]
      rfl
    · have most := (Nat.log2_lt none).mpr less
      omega
  · have large : 2 ^ (52 + shift) ≤ scaled / den := by
      rw [Nat.le_div_iff_mul_le positive, Nat.pow_add, Nat.mul_assoc, Nat.mul_comm (2 ^ shift)]
      exact full
    have some_ : scaled / den ≠ 0 := Nat.ne_of_gt (Nat.lt_of_lt_of_le (Nat.two_pow_pos _) large)
    have least := (Nat.le_log2 some_).mpr large
    have most := (Nat.log2_lt some_).mpr less
    omega

/-- Just below a power of two the last place is half as large, and rounding up carries. -/
theorem carries {place : Nat} (positive : 0 < den)
    (low : (4 * 2 ^ 52 - 1) * (den * 2 ^ (place + 1)) ≤ 4 * scaled)
    (below : scaled < 2 ^ 52 * (den * 2 ^ (place + 1))) :
    (scaled / den).log2 - 52 = place ∧ nearestWhole scaled (den * 2 ^ place) = 2 ^ 53 := by
  have half : den * 2 ^ (place + 1) = 2 * (den * 2 ^ place) := by ring
  have finer : 0 < den * 2 ^ place := Nat.mul_pos positive (Nat.two_pow_pos place)
  rw [half] at low below
  constructor
  · refine shift_eq positive ?_ (.inr ?_) <;> omega
  · refine nearestWhole_eq finer ?_ ?_ ?_ <;> omega

/-- Between the half-way points to its neighbours a quotient is read as the number of
the mantissa and the shift. -/
theorem nearest_eq {negative : Bool} (positive : 0 < den) (small : mantissa < 2 ^ 53)
    (normal : shift = 0 ∨ 2 ^ 52 ≤ mantissa) (finite : shift * 2 ^ 52 + mantissa < infinityBits)
    (scale : num * 2 ^ finestPlace = scaled)
    (ends : left = if mantissa = 2 ^ 52 ∧ 0 < shift then 4 * mantissa - 1 else 4 * mantissa - 2)
    (low : left * (den * 2 ^ shift) ≤ 4 * scaled)
    (high : 4 * scaled ≤ (4 * mantissa + 2) * (den * 2 ^ shift))
    (odd : mantissa % 2 = 1 → left * (den * 2 ^ shift) < 4 * scaled ∧
      4 * scaled < (4 * mantissa + 2) * (den * 2 ^ shift)) :
    nearest negative num den = ofMagnitude negative (shift * 2 ^ 52 + mantissa) := by
  have read {place whole : Nat} (shifts : (scaled / den).log2 - 52 = place)
      (rounds : nearestWhole scaled (den * 2 ^ place) = whole)
      (same : place * 2 ^ 52 + whole = shift * 2 ^ 52 + mantissa) :
      nearest negative num den = ofMagnitude negative (shift * 2 ^ 52 + mantissa) := by
    rw [nearest, Nat.pow_eq, scale, shifts, Nat.pow_eq, Nat.pow_eq, rounds, same,
      Nat.min_eq_right (Nat.le_of_lt finite)]
  have grid : 0 < den * 2 ^ shift := Nat.mul_pos positive (Nat.two_pow_pos shift)
  have above : (4 * mantissa + 2) * (den * 2 ^ shift) =
      4 * (mantissa * (den * 2 ^ shift)) + 2 * (den * 2 ^ shift) := by ring
  have under : 4 * (mantissa * (den * 2 ^ shift)) ≤
      (4 * mantissa - 2) * (den * 2 ^ shift) + 2 * (den * 2 ^ shift) := by
    rw [← Nat.add_mul, ← Nat.mul_assoc]
    exact Nat.mul_le_mul_right _ (by omega)
  have below : scaled < 2 ^ 53 * (den * 2 ^ shift) := by
    have bound := Nat.mul_le_mul_right (den * 2 ^ shift) (show mantissa + 1 ≤ 2 ^ 53 by omega)
    rw [Nat.add_mul] at bound
    omega
  have least : (4 * mantissa - 2) * (den * 2 ^ shift) ≤ left * (den * 2 ^ shift) := by
    refine Nat.mul_le_mul_right _ ?_
    rw [ends]
    split <;> omega
  by_cases full : shift = 0 ∨ 2 ^ 52 * (den * 2 ^ shift) ≤ scaled
  · refine read (shift_eq positive below full) (nearestWhole_eq grid ?_ ?_ ?_) rfl
    · omega
    · omega
    · intro uneven
      have strict := odd uneven
      omega
  -- Only the half place below a power of two is rounded up to that power.
  · have power : mantissa = 2 ^ 52 := by
      by_contra other
      have more := Nat.mul_le_mul_right (den * 2 ^ shift)
        (show 4 * 2 ^ 52 ≤ 4 * mantissa - 2 by omega)
      omega
    rw [ends, if_pos ⟨power, by omega⟩, power] at low
    obtain ⟨place, rfl⟩ : ∃ place, shift = place + 1 := ⟨shift - 1, by omega⟩
    obtain ⟨shifts, rounds⟩ := carries positive low (by omega)
    exact read shifts rounds (by omega)

end Rounding

section Powers

variable (base : Nat) (exponent : Int)

/-- A power is a number of lower powers. -/
theorem power_sub (places : Nat) :
    (power base (exponent - places)).1 * base ^ places * (power base exponent).2 =
      (power base exponent).1 * (power base (exponent - places)).2 := by
  simp only [power, Nat.pow_eq]
  rw [← Nat.pow_add, ← Nat.pow_add, ← Nat.pow_add]
  congr 1
  omega

variable {base}

theorem power_pos (some_ : 0 < base) :
    0 < (power base exponent).1 ∧ 0 < (power base exponent).2 :=
  ⟨Nat.pow_pos some_, Nat.pow_pos some_⟩

theorem parts_pos {unit parts : Nat} (powers : power base exponent = (unit, parts))
    (some_ : 0 < base) : 0 < unit ∧ 0 < parts := by
  have positive := power_pos exponent some_
  rwa [powers] at positive

theorem lt_ten_pow_digitCount (n : Nat) : n < 10 ^ digitCount n :=
  (Nat.length_toDigits_le_iff (by decide) Nat.length_toDigits_pos).mp (Nat.le_refl _)

theorem ten_pow_digitCount_le {n : Nat} (some_ : 0 < n) : 10 ^ (digitCount n - 1) ≤ n := by
  by_cases single : digitCount n - 1 = 0
  · rw [single]
    exact some_
  · by_contra below
    have shorter := (Nat.length_toDigits_le_iff (by decide : 1 < 10) (Nat.pos_of_ne_zero single)).mpr
      (Nat.lt_of_not_le below)
    change digitCount n ≤ digitCount n - 1 at shorter
    omega

theorem two_pow_le_ten_pow {n k : Nat} (less : n ≤ 48 * k) : 2 ^ n ≤ 10 ^ (16 * k) := by
  refine Nat.le_trans (Nat.pow_le_pow_right (by decide) less) ?_
  rw [Nat.pow_mul, Nat.pow_mul]
  exact Nat.pow_le_pow_left (by decide) k

end Powers

section Reading

variable {x : Float} {num den : Nat}

theorem magnitude_eq (finite : magnitudeBits x < infinityBits) :
    ∃ shift mantissa : Nat, magnitudeBits x = shift * 2 ^ 52 + mantissa ∧ mantissa < 2 ^ 53 ∧
      (shift = 0 ∨ 2 ^ 52 ≤ mantissa) ∧ magnitude x =
        neighbourhood mantissa ((shift : Int) - finestPlace) (decide (mantissa = 2 ^ 52 ∧ 0 < shift)) := by
  change x.toBits.toNat % 2 ^ 63 < 2047 * 2 ^ 52 at finite
  change ∃ shift mantissa : Nat, x.toBits.toNat % 2 ^ 63 = _ ∧ _
  simp only [magnitude, Nat.pow_eq]
  by_cases subnormal : x.toBits.toNat / 2 ^ 52 % 2 ^ 11 = 0
  · refine ⟨0, x.toBits.toNat % 2 ^ 52, by omega, by omega, .inl rfl, ?_⟩
    rw [if_pos subnormal]
    simp
  · refine ⟨x.toBits.toNat / 2 ^ 52 % 2 ^ 11 - 1, 2 ^ 52 + x.toBits.toNat % 2 ^ 52, by omega,
      by omega, .inr (by omega), ?_⟩
    rw [if_neg subnormal]
    congr 1
    · omega
    · rw [Bool.eq_iff_iff]
      simp

/-- A neighbourhood counts in quarters of the last place of its number. -/
theorem unit_eq {shift unit parts : Nat}
    (powers : power 2 ((shift : Int) - finestPlace - 2) = (unit, parts)) :
    unit * (4 * 2 ^ finestPlace) = 2 ^ shift * parts := by
  have lower := power_sub 2 shift (finestPlace + 2)
  rw [show (shift : Int) - ((finestPlace + 2 : Nat) : Int) = shift - finestPlace - 2 by omega,
    powers] at lower
  simpa [power, Nat.pow_add, Nat.mul_comm] using lower

theorem bounds_of_contains {shift mantissa left : Nat} {narrow : Bool}
    (ends : left = if narrow then 4 * mantissa - 1 else 4 * mantissa - 2)
    (within : (neighbourhood mantissa ((shift : Int) - finestPlace) narrow).contains num den = true) :
    left * (den * 2 ^ shift) ≤ 4 * (num * 2 ^ finestPlace) ∧
      4 * (num * 2 ^ finestPlace) ≤ (4 * mantissa + 2) * (den * 2 ^ shift) ∧
      (mantissa % 2 = 1 → left * (den * 2 ^ shift) < 4 * (num * 2 ^ finestPlace) ∧
        4 * (num * 2 ^ finestPlace) < (4 * mantissa + 2) * (den * 2 ^ shift)) := by
  obtain ⟨unit, parts, powers⟩ :
      ∃ unit parts, power 2 ((shift : Int) - finestPlace - 2) = (unit, parts) := ⟨_, _, rfl⟩
  have some_ : 0 < parts := (parts_pos _ powers (by decide)).2
  have relation := unit_eq powers
  have factor : 0 < 4 * 2 ^ finestPlace := Nat.mul_pos (by decide) (Nat.two_pow_pos _)
  have grid (side : Nat) :
      side * (unit * den) * (4 * 2 ^ finestPlace) = side * (den * 2 ^ shift) * parts := by
    rw [Nat.mul_assoc, Nat.mul_right_comm unit, relation]
    ring
  have value : num * parts * (4 * 2 ^ finestPlace) = 4 * (num * 2 ^ finestPlace) * parts := by ring
  have above {side : Nat} : side * (unit * den) ≤ num * parts ↔
      side * (den * 2 ^ shift) ≤ 4 * (num * 2 ^ finestPlace) := by
    rw [← Nat.mul_le_mul_right_iff factor, grid, value, Nat.mul_le_mul_right_iff some_]
  have below {side : Nat} : num * parts ≤ side * (unit * den) ↔
      4 * (num * 2 ^ finestPlace) ≤ side * (den * 2 ^ shift) := by
    rw [← Nat.mul_le_mul_right_iff factor, grid, value, Nat.mul_le_mul_right_iff some_]
  simp only [Neighbourhood.contains, neighbourhood, powers, ← ends] at within
  split at within
  next even =>
    rw [Bool.and_eq_true, decide_eq_true_eq, decide_eq_true_eq] at within
    refine ⟨above.mp within.1, below.mp within.2, fun uneven => ?_⟩
    simp [uneven] at even
  next =>
    rw [Bool.and_eq_true, decide_eq_true_eq, decide_eq_true_eq] at within
    obtain ⟨low, high⟩ := within
    rw [← Nat.not_le, below, Nat.not_le] at low
    rw [← Nat.not_le, above, Nat.not_le] at high
    exact ⟨Nat.le_of_lt low, Nat.le_of_lt high, fun _ => ⟨low, high⟩⟩

/-- What lies in the neighbourhood of a number is read as that number. -/
theorem nearest_of_contains (finite : magnitudeBits x < infinityBits) (positive : 0 < den)
    (within : (magnitude x).contains num den = true) : nearest (isNegative x) num den = x := by
  obtain ⟨shift, mantissa, code, small, normal, shape⟩ := magnitude_eq finite
  rw [shape] at within
  obtain ⟨low, high, odd⟩ := bounds_of_contains rfl within
  refine (nearest_eq positive small normal (code ▸ finite) rfl ?_ low high odd).trans ?_
  · simp
  · rw [← code]
    exact ofMagnitude_magnitudeBits (Nat.le_of_lt finite)

section Digits

variable {negative : Bool}

theorem nearest_small (small : 2 * (num * 2 ^ finestPlace) < den) :
    nearest negative num den = ofMagnitude negative 0 := by
  have zero : ofMagnitude negative (0 * 2 ^ 52 + 0) = ofMagnitude negative 0 := by
    rw [Nat.zero_mul, Nat.add_zero]
  have least : 0 * (den * 2 ^ 0) ≤ 4 * (num * 2 ^ finestPlace) := by omega
  rw [← zero]
  exact nearest_eq (by omega) (by decide) (.inl rfl) (by decide) rfl (by simp) least (by omega)
    (by simp)

theorem nearest_large {places : Nat} (far : 2047 + 52 ≤ places) (positive : 0 < den)
    (large : den * 2 ^ places ≤ num * 2 ^ finestPlace) :
    nearest negative num den = ofMagnitude negative infinityBits := by
  have quotient : 2 ^ places ≤ num * 2 ^ finestPlace / den := by
    rw [Nat.le_div_iff_mul_le positive, Nat.mul_comm]
    exact large
  have some_ : num * 2 ^ finestPlace / den ≠ 0 :=
    Nat.ne_of_gt (Nat.lt_of_lt_of_le (Nat.two_pow_pos _) quotient)
  have most := (Nat.le_log2 some_).mpr quotient
  have limit : infinityBits = 2047 * 2 ^ 52 := rfl
  simp only [nearest, Nat.pow_eq]
  rw [Nat.min_eq_left]
  have shift : 2047 ≤ (num * 2 ^ finestPlace / den).log2 - 52 := by omega
  have product := Nat.mul_le_mul_right (2 ^ 52) shift
  omega

theorem finestPlace_eq : finestPlace = 1074 := by
  rw [finestPlace]

section Far

variable {digits k : Nat} {places : Int}

theorem nearest_below (far : (digitCount digits : Int) + places < -(16 * k : Nat))
    (deep : finestPlace + 1 ≤ 48 * k) :
    nearest negative (digits * (power 10 places).1) (power 10 places).2 =
      ofMagnitude negative 0 := by
  have less := lt_ten_pow_digitCount digits
  have small : 2 * 2 ^ finestPlace ≤ 10 ^ (16 * k) := by
    rw [← Nat.pow_succ']
    exact two_pow_le_ten_pow deep
  have few : 10 ^ (digitCount digits + 16 * k) ≤ (power 10 places).2 :=
    Nat.pow_le_pow_right (by decide) (by omega)
  have unit : (power 10 places).1 = 1 := by
    have none : places.toNat = 0 := by omega
    simp [power, none]
  apply nearest_small
  calc 2 * (digits * (power 10 places).1 * 2 ^ finestPlace)
      = digits * (2 * 2 ^ finestPlace) := by rw [unit]; ring
    _ ≤ digits * 10 ^ (16 * k) := Nat.mul_le_mul_left _ small
    _ < 10 ^ digitCount digits * 10 ^ (16 * k) :=
      Nat.mul_lt_mul_of_pos_right less (Nat.pow_pos (by decide))
    _ = 10 ^ (digitCount digits + 16 * k) := (Nat.pow_add _ _ _).symm
    _ ≤ (power 10 places).2 := few

theorem nearest_above (some_ : 0 < digits) (far : (16 * k : Nat) < (digitCount digits : Int) + places)
    (high : 2047 + 52 ≤ 48 * k + finestPlace) :
    nearest negative (digits * (power 10 places).1) (power 10 places).2 =
      ofMagnitude negative infinityBits := by
  have least := ten_pow_digitCount_le some_
  have many : (power 10 places).2 * 10 ^ (16 * k) ≤
      10 ^ (digitCount digits - 1) * (power 10 places).1 := by
    simp only [power, Nat.pow_eq]
    rw [← Nat.pow_add, ← Nat.pow_add]
    exact Nat.pow_le_pow_right (by decide) (by omega)
  refine nearest_large high (power_pos places (by decide)).2 ?_
  calc (power 10 places).2 * 2 ^ (48 * k + finestPlace)
      = (power 10 places).2 * 2 ^ (48 * k) * 2 ^ finestPlace := by rw [Nat.pow_add, Nat.mul_assoc]
    _ ≤ (power 10 places).2 * 10 ^ (16 * k) * 2 ^ finestPlace :=
      Nat.mul_le_mul_right _ (Nat.mul_le_mul_left _ (two_pow_le_ten_pow (Nat.le_refl _)))
    _ ≤ 10 ^ (digitCount digits - 1) * (power 10 places).1 * 2 ^ finestPlace :=
      Nat.mul_le_mul_right _ many
    _ ≤ digits * (power 10 places).1 * 2 ^ finestPlace :=
      Nat.mul_le_mul_right _ (Nat.mul_le_mul_right _ least)

/-- A point too far away is told apart, but rounding would find the same. -/
theorem ofDigits_eq_nearest (whole fraction : List Char) (exponent : Int) :
    ofDigits negative whole fraction exponent =
      nearest negative
        (natOfDigits (whole ++ fraction) * (power 10 (exponent - fraction.length)).1)
        (power 10 (exponent - fraction.length)).2 := by
  simp only [ofDigits]
  generalize natOfDigits (whole ++ fraction) = digits
  generalize exponent - (fraction.length : Int) = places
  change (if digits = 0 ∨ (digitCount digits : Int) + places < -400 then _
    else if 400 < (digitCount digits : Int) + places then _ else _) = _
  split
  next low =>
    rcases low with rfl | far
    · exact (nearest_small (by simpa using (power_pos places (by decide)).2)).symm
    · exact (nearest_below (k := 25) far (by rw [finestPlace_eq]; decide)).symm
  next high =>
    split
    next far =>
      exact (nearest_above (k := 25) (by omega) far (by rw [finestPlace_eq]; decide)).symm
    next => rfl

end Far

end Digits

end Reading

end CellTiming.Decimal
