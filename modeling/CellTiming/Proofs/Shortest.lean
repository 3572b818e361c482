import CellTiming.Proofs.Nearest

/-! The shortest digits of a number. A grid that is finer than the neighbourhood has a
point in it, and seventeen digits make the grid so fine. Whole numbers with at most sixteen
digits are points of the grid of the whole numbers, all others lie between them. -/
namespace CellTiming.Decimal

section Search

variable {tie : Tie} {n : Neighbourhood} {exponent : Int} {s : Scientific}

theorem contains_of_nearestOnGrid (found : nearestOnGrid tie n exponent = some s) :
    s.exponent = exponent ∧
      n.contains (s.digits * (power 10 exponent).1) (power 10 exponent).2 = true := by
  simp only [nearestOnGrid] at found
  split at found
  next low high =>
    cases found
    refine ⟨rfl, ?_⟩
    split
    · exact low
    · exact high
  next low _ =>
    cases found
    exact ⟨rfl, low⟩
  next _ high =>
    cases found
    exact ⟨rfl, high⟩
  next => cases found

/-- One of the neighbouring points on the grid is enough. -/
theorem isSome_nearestOnGrid {unit parts grid gridParts floor : Nat}
    (scale : power 2 n.exponent = (unit, parts)) (steps : power 10 exponent = (grid, gridParts))
    (point : n.value * (unit * gridParts) / (grid * parts) = floor)
    (inside : n.contains (floor * grid) gridParts = true ∨
      n.contains ((floor + 1) * grid) gridParts = true) :
    (nearestOnGrid tie n exponent).isSome = true := by
  simp only [nearestOnGrid, scale, steps, point]
  rcases inside with low | high
  · rw [low]
    cases n.contains ((floor + 1) * grid) gridParts <;> rfl
  · rw [high]
    cases n.contains (floor * grid) gridParts <;> rfl

/-- The search ends at the first grid with a point, if not before the last. -/
theorem coarsest_of_isSome {finer : Nat} {start place : Int} (above : start - finer ≤ place)
    (below : place ≤ start) (some_ : (nearestOnGrid tie n place).isSome = true) :
    ∃ exponent, place ≤ exponent ∧
      nearestOnGrid tie n exponent = some (coarsest tie n finer start) := by
  induction finer generalizing start with
  | zero =>
    have same : place = start := by omega
    subst same
    obtain ⟨found, eq⟩ := Option.isSome_iff_exists.mp some_
    exact ⟨place, Int.le_refl _, by rw [coarsest, eq, Option.getD_some]⟩
  | succ finer ih =>
    rw [coarsest]
    cases here : nearestOnGrid tie n start with
    | some found => exact ⟨start, below, here⟩
    | none =>
      have other : place ≠ start := by
        rintro rfl
        rw [here] at some_
        cases some_
      exact ih (by omega) (by omega)

theorem contains_of_lt {num den unit parts : Nat} (scale : power 2 n.exponent = (unit, parts))
    (low : n.low * (unit * den) < num * parts) (high : num * parts < n.high * (unit * den)) :
    n.contains num den = true := by
  simp only [Neighbourhood.contains, scale]
  split
  · simp [Nat.le_of_lt low, Nat.le_of_lt high]
  · simp [low, high]

/-- A step shorter than the neighbourhood does not pass over it. -/
theorem isSome_of_fine {mantissa left : Nat} {place : Int} {narrow : Bool}
    {unit parts grid gridParts : Nat} (some_ : 0 < mantissa)
    (scale : power 2 (place - 2) = (unit, parts)) (steps : power 10 exponent = (grid, gridParts))
    (ends : left = if narrow then 1 else 2)
    (fine : grid * parts < (left + 2) * (unit * gridParts)) :
    (nearestOnGrid tie (neighbourhood mantissa place narrow) exponent).isSome = true := by
  have positive : 0 < grid * parts ∧ 0 < unit * gridParts := by
    have ten := parts_pos exponent steps (by decide)
    have two := parts_pos (place - 2) scale (by decide)
    exact ⟨Nat.mul_pos ten.1 two.2, Nat.mul_pos two.1 ten.2⟩
  obtain ⟨floor, point⟩ : ∃ floor, 4 * mantissa * (unit * gridParts) / (grid * parts) = floor :=
    ⟨_, rfl⟩
  have division := Nat.div_add_mod' (4 * mantissa * (unit * gridParts)) (grid * parts)
  have rest := Nat.mod_lt (4 * mantissa * (unit * gridParts)) positive.1
  rw [point] at division
  have low : (neighbourhood mantissa place narrow).low * (unit * gridParts) +
      left * (unit * gridParts) = 4 * mantissa * (unit * gridParts) := by
    rw [← Nat.add_mul]
    congr 1
    simp only [neighbourhood, ends]
    split <;> omega
  have high : (neighbourhood mantissa place narrow).high * (unit * gridParts) =
      4 * mantissa * (unit * gridParts) + 2 * (unit * gridParts) := Nat.add_mul _ _ _
  have first : floor * grid * parts = floor * (grid * parts) := Nat.mul_assoc _ _ _
  have second : (floor + 1) * grid * parts = floor * (grid * parts) + grid * parts := by ring
  have fine : grid * parts < left * (unit * gridParts) + 2 * (unit * gridParts) := by
    rwa [Nat.add_mul] at fine
  have more : 1 ≤ left := by
    rw [ends]
    split <;> decide
  have wide := Nat.mul_le_mul_right (unit * gridParts) more
  refine isSome_nearestOnGrid scale steps point ?_
  by_cases near : 4 * mantissa * (unit * gridParts) % (grid * parts) < left * (unit * gridParts)
  · left
    refine contains_of_lt scale ?_ ?_ <;> omega
  · right
    refine contains_of_lt scale ?_ ?_ <;> omega

end Search

theorem power_of_nonneg {base : Nat} {exponent : Int} (nonneg : 0 ≤ exponent) :
    power base exponent = (base ^ exponent.toNat, 1) := by
  have none : (-exponent).toNat = 0 := by omega
  rw [power, none]
  rfl

theorem power_of_nonpos {base : Nat} {exponent : Int} (nonpos : exponent ≤ 0) :
    power base exponent = (1, base ^ (-exponent).toNat) := by
  have none : exponent.toNat = 0 := by omega
  rw [power, none]
  rfl

section Lead

variable {num den : Nat}

/-- No number is below the power of ten of its leading digit. -/
theorem leadingExponent_le (some_ : 0 < num) (positive : 0 < den) :
    (power 10 (leadingExponent num den)).1 * den ≤
      num * (power 10 (leadingExponent num den)).2 := by
  rw [leadingExponent]
  split
  next whole =>
    have count : 0 < digitCount (num / den) := Nat.length_toDigits_pos
    have exponent : ((digitCount (num / den) : Int) - 1).toNat = digitCount (num / den) - 1 := by
      omega
    rw [power_of_nonneg (by omega), exponent, Nat.mul_one]
    exact (Nat.le_div_iff_mul_le positive).mp (ten_pow_digitCount_le (Nat.div_pos whole positive))
  next =>
    obtain ⟨ceiling, quotient⟩ : ∃ ceiling, (den + num - 1) / num = ceiling := ⟨_, rfl⟩
    have division := Nat.div_add_mod (den + num - 1) num
    have rest := Nat.mod_lt (den + num - 1) some_
    rw [quotient] at division ⊢
    have most : ceiling ≤ 10 ^ digitCount (ceiling - 1) := by
      have below := lt_ten_pow_digitCount (ceiling - 1)
      omega
    rw [power_of_nonpos (by omega), Int.neg_neg, Int.toNat_natCast, Nat.one_mul]
    calc den ≤ num * ceiling := by omega
      _ ≤ num * 10 ^ digitCount (ceiling - 1) := Nat.mul_le_mul_left num most

theorem leadingExponent_bounds {places : Nat} (positive : 0 < den) (least : den ≤ num)
    (some_ : 0 < places) (small : num < 10 ^ places * den) :
    0 ≤ leadingExponent num den ∧ leadingExponent num den < places := by
  have count : 0 < digitCount (num / den) := Nat.length_toDigits_pos
  have most : digitCount (num / den) ≤ places :=
    (Nat.length_toDigits_le_iff (by decide) some_).mpr
      ((Nat.div_lt_iff_lt_mul positive).mpr small)
  rw [leadingExponent, if_pos least]
  omega

end Lead

section Whole

variable {tie : Tie} {n : Neighbourhood} {unit parts : Nat}

theorem contains_scale {num den k : Nat} (some_ : 0 < k) :
    n.contains (num * k) (den * k) = n.contains num den := by
  obtain ⟨unit, parts, powers⟩ : ∃ unit parts, power 2 n.exponent = (unit, parts) := ⟨_, _, rfl⟩
  have side (m : Nat) : m * (unit * (den * k)) = m * (unit * den) * k := by ring
  have value : num * k * parts = num * parts * k := by ring
  simp only [Neighbourhood.contains, powers, side, value, Nat.mul_le_mul_right_iff some_,
    Nat.mul_lt_mul_right some_]

/-- A whole number is a point of the grid of all whole numbers. -/
theorem isSome_of_whole (scale : power 2 n.exponent = (unit, parts))
    (whole : parts ∣ n.value * unit) (low : n.low < n.value) (high : n.value < n.high) :
    (nearestOnGrid tie n 0).isSome = true := by
  have positive := parts_pos n.exponent scale (by decide)
  refine isSome_nearestOnGrid scale rfl rfl (.inl (contains_of_lt scale ?_ ?_))
  all_goals
    simp only [Int.toNat_zero, Int.neg_zero, Nat.pow_eq, Nat.pow_zero, Nat.mul_one, Nat.one_mul,
      Nat.div_mul_cancel whole]
    exact Nat.mul_lt_mul_of_pos_right ‹_› positive.1

theorem le_of_contains {num den : Nat} (scale : power 2 n.exponent = (unit, parts))
    (within : n.contains num den = true) :
    n.low * (unit * den) ≤ num * parts ∧ num * parts ≤ n.high * (unit * den) := by
  simp only [Neighbourhood.contains, scale] at within
  split at within
  next => simpa using within
  next =>
    rw [Bool.and_eq_true, decide_eq_true_eq, decide_eq_true_eq] at within
    exact ⟨Nat.le_of_lt within.1, Nat.le_of_lt within.2⟩

/-- The neighbourhood of a number with a fraction is too small for a whole number. -/
theorem whole_of_contains {mantissa num : Nat} {place : Int} {narrow : Bool}
    (scale : power 2 (place - 2) = (unit, parts))
    (within : (neighbourhood mantissa place narrow).contains num 1 = true) :
    parts ∣ 4 * mantissa := by
  obtain ⟨rfl, rfl⟩ := Prod.mk.inj scale.symm
  by_cases fraction : place < 0
  · -- below one, the quarters are so small that only the number itself is a multiple of four
    obtain ⟨quarters, same⟩ : 4 ∣ (2 : Nat).pow (-(place - 2)).toNat :=
      Nat.pow_dvd_pow 2 (by omega : 2 ≤ (-(place - 2)).toNat)
    have single : (place - 2).toNat = 0 := by omega
    obtain ⟨low, high⟩ := le_of_contains rfl within
    simp only [neighbourhood, single, Nat.pow_eq, Nat.pow_zero, Nat.mul_one] at low high
    rw [← Nat.pow_eq, same, Nat.mul_left_comm] at low high
    have exact_ : num * quarters = mantissa := by
      split at low <;> omega
    exact ⟨num, by rw [same, ← exact_]; ring⟩
  · have few : (-(place - 2)).toNat ≤ 2 := by omega
    exact Nat.dvd_mul_right_of_dvd (Nat.pow_dvd_pow 2 few) mantissa

end Whole

section Shortest

variable {tie : Tie} {x : Float}

theorem isWhole_iff {unit parts : Nat} (scale : power 2 (magnitude x).exponent = (unit, parts)) :
    isWhole x = true ↔ parts ∣ (magnitude x).value := by
  obtain ⟨rfl, rfl⟩ := Prod.mk.inj scale.symm
  simp [isWhole, Nat.dvd_iff_mod_eq_zero]

/-- The grid of seventeen digits is finer than the neighbourhood. -/
theorem isSome_of_lead {mantissa left unit parts : Nat} {place lead : Int} {narrow : Bool}
    (some_ : 0 < mantissa) (scale : power 2 (place - 2) = (unit, parts))
    (ends : left = if narrow then 1 else 2) (few : 4 * mantissa < (left + 2) * 10 ^ 16)
    (leads : (power 10 lead).1 * parts ≤ 4 * mantissa * unit * (power 10 lead).2) :
    (nearestOnGrid tie (neighbourhood mantissa place narrow) (lead - 16)).isSome = true := by
  obtain ⟨grid, gridParts, steps⟩ :
      ∃ grid gridParts, power 10 (lead - 16) = (grid, gridParts) := ⟨_, _, rfl⟩
  have finer : grid * 10 ^ 16 * (power 10 lead).2 = (power 10 lead).1 * gridParts := by
    have finer := power_sub 10 lead 16
    rwa [Nat.cast_ofNat, steps] at finer
  have positive : 0 < (power 10 lead).2 := (power_pos lead (by decide)).2
  have some' := (parts_pos (lead - 16) steps (by decide)).2
  have unit' := (parts_pos (place - 2) scale (by decide)).1
  refine isSome_of_fine some_ scale steps ends ?_
  generalize power 10 lead = leading at *
  have factor : 0 < 10 ^ 16 * leading.2 := Nat.mul_pos (by decide) positive
  have rest : 0 < unit * leading.2 * gridParts := Nat.mul_pos (Nat.mul_pos unit' positive) some'
  rw [← Nat.mul_lt_mul_right factor]
  calc grid * parts * (10 ^ 16 * leading.2)
      = grid * 10 ^ 16 * leading.2 * parts := by ring
    _ = leading.1 * parts * gridParts := by rw [finer, Nat.mul_right_comm]
    _ ≤ 4 * mantissa * unit * leading.2 * gridParts := Nat.mul_le_mul_right _ leads
    _ = 4 * mantissa * (unit * leading.2 * gridParts) := by ring
    _ < (left + 2) * 10 ^ 16 * (unit * leading.2 * gridParts) :=
      Nat.mul_lt_mul_of_pos_right few rest
    _ = (left + 2) * (unit * gridParts) * (10 ^ 16 * leading.2) := by ring

theorem digits_of_coarsest {n : Neighbourhood} {start place : Int} {s : Scientific}
    (result : coarsest tie n mostDigits start = s) (above : start - mostDigits ≤ place)
    (below : place ≤ start) (some_ : (nearestOnGrid tie n place).isSome = true) :
    place ≤ s.exponent ∧
      n.contains (s.digits * (power 10 s.exponent).1) (power 10 s.exponent).2 = true := by
  obtain ⟨exponent, least, found⟩ := coarsest_of_isSome above below some_
  obtain ⟨same, within⟩ := contains_of_nearestOnGrid found
  rw [result] at same within
  rw [same]
  exact ⟨least, within⟩

theorem low_lt {mantissa : Nat} {place : Int} {narrow : Bool} (some_ : 0 < mantissa) :
    (neighbourhood mantissa place narrow).low < 4 * mantissa := by
  simp only [neighbourhood]
  split <;> omega

/-- The bits of a number below ten to the sixteenth power. -/
theorem lt_of_bits {shift mantissa unit parts : Nat} (small : mantissa < 2 ^ 53)
    (full : shift = 0 ∨ 2 ^ 52 ≤ mantissa)
    (scale : power 2 ((shift : Int) - finestPlace - 2) = (unit, parts))
    (below : shift * 2 ^ 52 + mantissa < (finestPlace + 1) * 2 ^ 52 + 5 * 10 ^ 15) :
    4 * mantissa * unit < 10 ^ 16 * parts := by
  have relation := unit_eq scale
  have factor : 0 < 4 * 2 ^ finestPlace := Nat.mul_pos (by decide) (Nat.two_pow_pos _)
  have some_ := (parts_pos _ scale (by decide)).2
  have product : mantissa * 2 ^ shift < 10 ^ 16 * 2 ^ finestPlace := by
    by_cases least : shift ≤ finestPlace
    · calc mantissa * 2 ^ shift ≤ mantissa * 2 ^ finestPlace :=
            Nat.mul_le_mul_left _ (Nat.pow_le_pow_right (by decide) least)
        _ < 10 ^ 16 * 2 ^ finestPlace := Nat.mul_lt_mul_of_pos_right (by omega) (Nat.two_pow_pos _)
    · obtain rfl : shift = finestPlace + 1 := by omega
      calc mantissa * 2 ^ (finestPlace + 1) = 2 * mantissa * 2 ^ finestPlace := by ring
        _ < 10 ^ 16 * 2 ^ finestPlace := Nat.mul_lt_mul_of_pos_right (by omega) (Nat.two_pow_pos _)
  rw [← Nat.mul_lt_mul_right factor]
  calc 4 * mantissa * unit * (4 * 2 ^ finestPlace)
      = 4 * mantissa * (unit * (4 * 2 ^ finestPlace)) := Nat.mul_assoc _ _ _
    _ = 4 * parts * (mantissa * 2 ^ shift) := by rw [relation]; ring
    _ < 4 * parts * (10 ^ 16 * 2 ^ finestPlace) :=
      Nat.mul_lt_mul_of_pos_left product (Nat.mul_pos (by decide) some_)
    _ = 10 ^ 16 * parts * (4 * 2 ^ finestPlace) := by ring

theorem contains_zero {place : Int} {narrow : Bool} {den : Nat} :
    (neighbourhood 0 place narrow).contains 0 den = true := by
  cases narrow <;> simp [Neighbourhood.contains, neighbourhood]

section Digits

variable {mantissa unit parts : Nat} {place : Int} {narrow : Bool} {s : Scientific}

/-- The search comes to the grid of the whole numbers, if not to a coarser one before. -/
theorem digits_of_whole (scale : power 2 (place - 2) = (unit, parts)) (some_ : 0 < mantissa)
    (whole : parts ∣ 4 * mantissa) (below : 4 * mantissa * unit < 10 ^ 16 * parts)
    (result : coarsest tie (neighbourhood mantissa place narrow) mostDigits
      (leadingExponent (4 * mantissa * unit) parts + 1) = s) :
    (neighbourhood mantissa place narrow).contains (s.digits * (power 10 s.exponent).1)
        (power 10 s.exponent).2 = true ∧ 0 ≤ s.exponent := by
  obtain ⟨positive, positive'⟩ := parts_pos (place - 2) scale (by decide)
  have value : 0 < 4 * mantissa * unit := Nat.mul_pos (by omega) positive
  obtain ⟨least, most⟩ := leadingExponent_bounds positive'
    (Nat.le_of_dvd value (whole.mul_right unit)) (by decide) below
  have found : (nearestOnGrid tie (neighbourhood mantissa place narrow) 0).isSome = true :=
    isSome_of_whole scale (whole.mul_right unit) (low_lt some_)
      (Nat.lt_add_of_pos_right (by decide))
  exact (digits_of_coarsest result (by rw [mostDigits]; omega) (by omega) found).symm

/-- The search comes to the grid of seventeen digits, and ends at one finer than that of the
whole numbers. -/
theorem digits_of_fraction {left : Nat} (scale : power 2 (place - 2) = (unit, parts))
    (some_ : 0 < mantissa) (fraction : ¬ parts ∣ 4 * mantissa)
    (ends : left = if narrow then 1 else 2) (few : 4 * mantissa < (left + 2) * 10 ^ 16)
    (result : coarsest tie (neighbourhood mantissa place narrow) mostDigits
      (leadingExponent (4 * mantissa * unit) parts + 1) = s) :
    (neighbourhood mantissa place narrow).contains (s.digits * (power 10 s.exponent).1)
        (power 10 s.exponent).2 = true ∧ ¬ 0 ≤ s.exponent := by
  obtain ⟨positive, positive'⟩ := parts_pos (place - 2) scale (by decide)
  have value : 0 < 4 * mantissa * unit := Nat.mul_pos (by omega) positive
  have found : (nearestOnGrid tie (neighbourhood mantissa place narrow)
      (leadingExponent (4 * mantissa * unit) parts - 16)).isSome = true :=
    isSome_of_lead some_ scale ends few (leadingExponent_le value positive')
  obtain ⟨_, within⟩ := digits_of_coarsest result (by rw [mostDigits]; omega) (by omega) found
  refine ⟨within, fun exponent => fraction ?_⟩
  rw [power_of_nonneg exponent] at within
  exact whole_of_contains scale within

end Digits

/-- The digits of a number lie in its neighbourhood, and they reach behind the point just
if the number has a fraction. -/
theorem digits_of_shortest (small : magnitudeBits x < infinityBits)
    (below : isWhole x = true → magnitudeBits x < (finestPlace + 1) * 2 ^ 52 + 5 * 10 ^ 15) :
    (magnitude x).contains ((shortest tie x).digits * (power 10 (shortest tie x).exponent).1)
        (power 10 (shortest tie x).exponent).2 = true ∧
      (0 ≤ (shortest tie x).exponent ↔ isWhole x = true) := by
  obtain ⟨shift, mantissa, code, few, full, shape⟩ := magnitude_eq small
  obtain ⟨unit, parts, scale⟩ : ∃ unit parts, power 2 (magnitude x).exponent = (unit, parts) :=
    ⟨_, _, rfl⟩
  obtain ⟨narrow, same⟩ : ∃ narrow, decide (mantissa = 2 ^ 52 ∧ 0 < shift) = narrow := ⟨_, rfl⟩
  have whole := isWhole_iff scale
  rw [same] at shape
  simp only [shortest, scale]
  rw [shape] at scale whole ⊢
  change power 2 ((shift : Int) - finestPlace - 2) = (unit, parts) at scale
  change isWhole x = true ↔ parts ∣ 4 * mantissa at whole
  split
  next zero =>
    change 4 * mantissa = 0 at zero
    obtain rfl : mantissa = 0 := by omega
    refine ⟨?_, iff_of_true (Int.le_refl 0) (whole.mpr (Nat.dvd_zero parts))⟩
    rw [Nat.zero_mul]
    exact contains_zero
  next some_ =>
    change 4 * mantissa ≠ 0 at some_
    by_cases integral : isWhole x = true
    · have limit := below integral
      rw [code] at limit
      obtain ⟨within, exponent⟩ := digits_of_whole scale (by omega) (whole.mp integral)
        (lt_of_bits few full scale limit) rfl
      exact ⟨within, iff_of_true exponent integral⟩
    · have bound : 4 * mantissa < ((if narrow then 1 else 2) + 2) * 10 ^ 16 := by
        split
        next isNarrow =>
          rw [isNarrow, decide_eq_true_eq] at same
          omega
        next => omega
      obtain ⟨within, exponent⟩ :=
        digits_of_fraction scale (by omega) (mt whole.mpr integral) rfl bound rfl
      exact ⟨within, iff_of_false exponent integral⟩

end Shortest

end CellTiming.Decimal
