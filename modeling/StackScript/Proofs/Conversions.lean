import StackScript.Binary32

/-! # What the conversions compute

Every finite binary32 number is a whole multiple of the smallest positive one. Counted in this unit,
numbers are integers, and both conversions can be described in exact arithmetic: the one to binary32
takes the nearest number, and the one to integers drops the fraction. -/

namespace StackScript.Binary32

/-! ## Numbers in units -/

/-- How many units make one. The unit is the smallest positive number. -/
def unitsPerOne : Nat := 1 <<< 149

/-- The magnitude of a finite number in units. -/
def magnitude (cell : Cell) : Nat :=
  if exponentField cell = 0 then fractionField cell
  else (hiddenBit + fractionField cell) <<< (exponentField cell - 1)

/-- A finite number in units. -/
def units (cell : Cell) : Int :=
  if isNegative cell then -(magnitude cell : Int) else magnitude cell

/-- Neither infinite nor NaN. -/
def IsFinite (cell : Cell) : Prop := exponentField cell ≠ 255

instance : DecidablePred IsFinite :=
  fun cell => inferInstanceAs (Decidable (exponentField cell ≠ 255))

/-- How far a number is from an integer, in units. -/
def distance (n : Int) (cell : Cell) : Nat := (units cell - n * unitsPerOne).natAbs

/-- No finite number is closer to the integer, and one that is as close is the same number unless
the fraction is even. A zero is positive. -/
structure IsNearest (n : Int) (cell : Cell) : Prop where
  finite : IsFinite cell
  nearest : ∀ other, IsFinite other → distance n cell ≤ distance n other
  even : ∀ other, IsFinite other → distance n cell = distance n other →
    units other = units cell ∨ fractionField cell % 2 = 0
  sign : isNegative cell = decide (n < 0)

theorem hiddenBit_eq : hiddenBit = 8388608 := rfl

theorem signBit_eq : signBit = 2147483648 := rfl

theorem fractionField_lt (cell : Cell) : fractionField cell < hiddenBit :=
  Nat.mod_lt _ (by decide)

theorem exponentField_lt (cell : Cell) : exponentField cell < 256 :=
  Nat.mod_lt _ (by decide)

/-- The exponent and fraction fields as one number, which orders the magnitudes. -/
def magnitudeField (cell : Cell) : Nat := exponentField cell * hiddenBit + fractionField cell

theorem magnitudeField_lt (cell : Cell) : magnitudeField cell < signBit := by
  have hexponent := exponentField_lt cell
  have hfraction := fractionField_lt cell
  rw [magnitudeField, signBit_eq]
  rw [hiddenBit_eq] at *
  omega

theorem toNat_eq (cell : Cell) :
    cell.toNat = (isNegative cell).toNat * signBit + magnitudeField cell := by
  have hcell := cell.isLt
  have hsign : (isNegative cell).toNat = cell.toNat / 2147483648 := by
    rw [isNegative, BitVec.msb_eq_decide]
    by_cases hneg : 2 ^ (32 - 1) ≤ cell.toNat
    · rw [decide_eq_true hneg, Bool.toNat_true]
      omega
    · rw [decide_eq_false hneg, Bool.toNat_false]
      omega
  rw [hsign, magnitudeField, exponentField, fractionField, Nat.shiftRight_eq_div_pow, signBit_eq,
    hiddenBit_eq]
  omega

/-- A cell is put together from its sign and the rest. -/
theorem fields_ofNat (negative : Bool) {m : Nat} (hm : m < signBit) :
    isNegative (BitVec.ofNat 32 (negative.toNat * signBit + m)) = negative ∧
      magnitudeField (BitVec.ofNat 32 (negative.toNat * signBit + m)) = m := by
  have hcell := toNat_eq (BitVec.ofNat 32 (negative.toNat * signBit + m))
  have hfield := magnitudeField_lt (BitVec.ofNat 32 (negative.toNat * signBit + m))
  rw [BitVec.toNat_ofNat] at hcell
  generalize BitVec.ofNat 32 _ = cell at *
  rw [signBit_eq] at *
  have hsame : (isNegative cell).toNat = negative.toNat ∧ magnitudeField cell = m := by
    have hneg := negative.toNat_lt
    have hneg' := (isNegative cell).toNat_lt
    omega
  refine ⟨?_, hsame.2⟩
  cases negative with
  | false => exact Bool.toNat_eq_zero.1 hsame.1
  | true => exact Bool.toNat_eq_one.1 hsame.1

theorem fields_of_magnitudeField {cell : Cell} {exponent fraction : Nat}
    (hfraction : fraction < hiddenBit)
    (h : magnitudeField cell = exponent * hiddenBit + fraction) :
    exponentField cell = exponent ∧ fractionField cell = fraction := by
  have hcell := fractionField_lt cell
  rw [magnitudeField] at h
  rw [hiddenBit_eq] at *
  omega

/-- A magnitude is below the power of two to which the exponent field belongs. -/
theorem magnitude_lt (cell : Cell) : magnitude cell < hiddenBit <<< exponentField cell := by
  have hfraction := fractionField_lt cell
  rw [magnitude]
  split
  case isTrue hzero => rwa [hzero, Nat.shiftLeft_zero]
  case isFalse hpos =>
    rw [Nat.shiftLeft_eq, Nat.shiftLeft_eq]
    have hsplit : 2 ^ exponentField cell = 2 * 2 ^ (exponentField cell - 1) := by
      rw [← Nat.pow_add_one', Nat.sub_add_cancel (Nat.pos_of_ne_zero hpos)]
    rw [hsplit, ← Nat.mul_assoc]
    exact Nat.mul_lt_mul_of_pos_right (by omega) (Nat.two_pow_pos _)

theorem shiftLeft_le_shiftLeft {m k : Nat} (h : m ≤ k) (n : Nat) : n <<< m ≤ n <<< k := by
  rw [Nat.shiftLeft_eq, Nat.shiftLeft_eq]
  exact Nat.mul_le_mul_left _ (Nat.pow_le_pow_right (by decide) h)

theorem magnitude_lt_of_magnitudeField_lt {a b : Cell} (h : magnitudeField a < magnitudeField b) :
    magnitude a < magnitude b := by
  have ha := magnitude_lt a
  have hfraction := fractionField_lt b
  have hfraction' := fractionField_lt a
  have hcases : exponentField a < exponentField b ∨
      exponentField a = exponentField b ∧ fractionField a < fractionField b := by
    rw [magnitudeField, magnitudeField] at h
    rw [hiddenBit_eq] at *
    omega
  rcases hcases with hexponent | ⟨hexponent, hless⟩
  · calc magnitude a
        < hiddenBit <<< exponentField a := ha
      _ ≤ hiddenBit <<< (exponentField b - 1) := shiftLeft_le_shiftLeft (by omega) _
      _ ≤ magnitude b := by
        rw [magnitude, if_neg (by omega), Nat.shiftLeft_eq, Nat.shiftLeft_eq]
        exact Nat.mul_le_mul_right _ (Nat.le_add_right _ _)
  · rw [magnitude, magnitude, hexponent]
    split
    · exact hless
    · rw [Nat.shiftLeft_eq, Nat.shiftLeft_eq]
      exact Nat.mul_lt_mul_of_pos_right (by omega) (Nat.two_pow_pos _)

/-- A magnitude is a multiple of a power of two, or has no more than 23 bits above it. -/
theorem dvd_or_lt_magnitude (cell : Cell) (k : Nat) :
    1 <<< k ∣ magnitude cell ∨ magnitude cell < hiddenBit <<< k := by
  by_cases hk : exponentField cell ≤ k
  · exact .inr (Nat.lt_of_lt_of_le (magnitude_lt cell) (shiftLeft_le_shiftLeft hk _))
  · left
    rw [magnitude, if_neg (by omega), Nat.one_shiftLeft, Nat.shiftLeft_eq]
    exact Nat.dvd_mul_left_of_dvd (Nat.pow_dvd_pow 2 (by omega)) _

/-! ## The nearest number is unique -/

/-- Between two numbers of one sign with even fractions lies another one. -/
theorem exists_between {a b : Cell} (hsign : isNegative a = isNegative b) (hb : IsFinite b)
    (heven : fractionField a % 2 = 0) (heven' : fractionField b % 2 = 0)
    (hlt : magnitudeField a < magnitudeField b) :
    ∃ c, IsFinite c ∧
      (units a < units c ∧ units c < units b ∨ units b < units c ∧ units c < units a) := by
  have hfield := magnitudeField_lt b
  -- The neighbour below the larger one has an odd fraction, so it is not the smaller one.
  obtain ⟨hsignc, hfieldc⟩ := fields_ofNat (isNegative b) (m := magnitudeField b - 1) (by omega)
  generalize BitVec.ofNat 32 _ = c at hsignc hfieldc
  have hc : IsFinite c ∧ magnitudeField a < magnitudeField c := by
    have hexponent := exponentField_lt b
    have hfraction := fractionField_lt b
    rw [IsFinite] at *
    simp only [magnitudeField, hiddenBit_eq] at *
    omega
  have habove := magnitude_lt_of_magnitudeField_lt hc.2
  have hbelow : magnitude c < magnitude b := magnitude_lt_of_magnitudeField_lt (by omega)
  refine ⟨c, hc.1, ?_⟩
  rw [units, units, units, hsign, hsignc]
  split <;> omega

theorem IsNearest.not_lt {n : Int} {a b : Cell} (ha : IsNearest n a) (hb : IsNearest n b) :
    ¬ magnitudeField a < magnitudeField b := by
  intro hlt
  have htie : distance n a = distance n b :=
    Nat.le_antisymm (ha.nearest b hb.finite) (hb.nearest a ha.finite)
  have hsign : isNegative a = isNegative b := ha.sign.trans hb.sign.symm
  have hne : units a ≠ units b := by
    have hmagnitude := magnitude_lt_of_magnitudeField_lt hlt
    rw [units, units, hsign]
    split <;> omega
  have heven := (ha.even b hb.finite htie).resolve_left hne.symm
  have heven' := (hb.even a ha.finite htie.symm).resolve_left hne
  obtain ⟨c, hfinite, hbetween⟩ := exists_between hsign hb.finite heven heven' hlt
  have hnearest := ha.nearest c hfinite
  rw [distance, distance] at htie hnearest
  omega

theorem IsNearest.unique {n : Int} {a b : Cell} (ha : IsNearest n a) (hb : IsNearest n b) :
    a = b := by
  have hfield : magnitudeField a = magnitudeField b := by
    have := ha.not_lt hb
    have := hb.not_lt ha
    omega
  apply BitVec.eq_of_toNat_eq
  rw [toNat_eq, toNat_eq b, hfield, ha.sign, hb.sign]

/-! ## From integers -/

/-- A multiple of a number is one of two neighbouring ones, or at least one step beyond them. -/
theorem multiple_cases (k q : Int) (d : Nat) :
    k * d + d ≤ q * d ∨ k = q ∧ k * d = q * d ∨ k = q + 1 ∧ k * d = q * d + d ∨
      q * d + 2 * d ≤ k * d := by
  have hd : (0 : Int) ≤ d := Int.natCast_nonneg d
  have hnext : (q + 1) * d = q * d + d := by rw [Int.add_mul, Int.one_mul]
  by_cases hlow : k + 1 ≤ q
  · have h := Int.mul_le_mul_of_nonneg_right hlow hd
    rw [Int.add_mul] at h
    omega
  by_cases hhigh : q + 2 ≤ k
  · have h := Int.mul_le_mul_of_nonneg_right hhigh hd
    rw [Int.add_mul] at h
    omega
  obtain rfl | rfl : k = q ∨ k = q + 1 := by omega
  · exact .inr (.inl ⟨rfl, rfl⟩)
  · exact .inr (.inr (.inl ⟨rfl, hnext⟩))

/-- The other integer is no closer to the target than the value. If it is as close, then it is the
same one or the value is marked as even. -/
def Beats (target value : Int) (even : Prop) (other : Int) : Prop :=
  (value - target).natAbs ≤ (other - target).natAbs ∧
    ((value - target).natAbs = (other - target).natAbs → other = value ∨ even)

theorem Beats.mul_right {target value other : Int} {even : Prop} (h : Beats target value even other)
    {u : Nat} (hu : 0 < u) : Beats (target * u) (value * u) even (other * u) := by
  have hscale (k : Int) : (k * u - target * u).natAbs = (k - target).natAbs * u := by
    rw [← Int.sub_mul, Int.natAbs_mul, Int.natAbs_natCast]
  rw [Beats, hscale, hscale]
  refine ⟨Nat.mul_le_mul_right _ h.1, fun htie => ?_⟩
  apply (h.2 (Nat.eq_of_mul_eq_mul_right hu htie)).imp_left
  intro hsame
  rw [hsame]

/-- Of the multiples of a power of two the rounded one is the nearest. -/
theorem shiftRounded_beats (n shift : Nat) (k : Int) :
    Beats n (shiftRounded n shift * (1 <<< shift : Nat)) (shiftRounded n shift % 2 = 0)
      (k * (1 <<< shift : Nat)) := by
  have hpos : 0 < 1 <<< shift := by
    rw [Nat.one_shiftLeft]
    exact Nat.two_pow_pos shift
  rw [Beats, shiftRounded]
  generalize 1 <<< shift = d at hpos
  have hn := Nat.div_add_mod' n d
  have hmod := Nat.mod_lt n hpos
  have hcases := multiple_cases k (n / d : Nat) d
  generalize n / d = q at hn hcases
  have hnext : ((q + 1 : Nat) : Int) * d = q * d + d := by
    rw [Int.natCast_add, Int.add_mul, Int.natCast_one, Int.one_mul]
  have hn' : (n : Int) = q * d + (n % d : Nat) := by
    rw [← Int.natCast_mul, ← Int.natCast_add, hn]
  rw [hn']
  generalize n % d = r at hmod
  split
  case isTrue hup =>
    simp only [Bool.or_eq_true, Bool.and_eq_true, decide_eq_true_eq, beq_iff_eq] at hup
    rw [hnext]
    omega
  case isFalse hdown =>
    simp only [Bool.or_eq_true, Bool.and_eq_true, decide_eq_true_eq, beq_iff_eq] at hdown
    omega

/-- The significand of an integer, before a carry. -/
def significand (n : Nat) : Nat :=
  if n.log2 ≤ 23 then n <<< (23 - n.log2) else shiftRounded n (n.log2 - 23)

theorem magnitudeBits_of_ne_zero {n : Nat} (hn : n ≠ 0) :
    magnitudeBits n = (n.log2 + 127) * hiddenBit + (significand n - hiddenBit) := by
  rw [magnitudeBits, if_neg (by simpa using hn)]
  rfl

/-- A significand has 24 bits, or is the next power of two. -/
theorem significand_bounds {n : Nat} (hn : n ≠ 0) :
    hiddenBit ≤ significand n ∧ significand n ≤ 2 * hiddenBit := by
  have hlow := Nat.log2_self_le hn
  have hhigh : n < 2 ^ n.log2 * 2 := Nat.lt_log2_self
  rw [significand]
  split
  case isTrue hexact =>
    have hpow : 2 ^ n.log2 * 2 ^ (23 - n.log2) = hiddenBit := by
      rw [← Nat.pow_add, show n.log2 + (23 - n.log2) = 23 by omega]
      rfl
    rw [Nat.shiftLeft_eq, ← hpow, ← Nat.mul_assoc, Nat.mul_comm 2]
    exact ⟨Nat.mul_le_mul_right _ hlow, Nat.mul_le_mul_right _ (Nat.le_of_lt hhigh)⟩
  case isFalse hrounded =>
    have hpow : hiddenBit * 2 ^ (n.log2 - 23) = 2 ^ n.log2 := by
      rw [show hiddenBit = 2 ^ 23 from rfl, ← Nat.pow_add]
      congr 1
      omega
    have hquotient : hiddenBit ≤ n / 2 ^ (n.log2 - 23) ∧ n / 2 ^ (n.log2 - 23) < 2 * hiddenBit := by
      rw [Nat.le_div_iff_mul_le (Nat.two_pow_pos _), Nat.div_lt_iff_lt_mul (Nat.two_pow_pos _),
        Nat.mul_assoc, hpow, Nat.mul_comm 2]
      exact ⟨hlow, hhigh⟩
    rw [shiftRounded, Nat.one_shiftLeft]
    split <;> omega

/-- No number is closer than the rounded multiple: it is a multiple as well, or it has no more than
23 bits above the power of two. -/
theorem shiftRounded_beats_units {n shift : Nat} (hn : hiddenBit <<< shift ≤ n) {w : Int}
    (hw : ∀ k, 1 <<< k ∣ w.natAbs ∨ w.natAbs < hiddenBit <<< k) :
    Beats (n * unitsPerOne) (shiftRounded n shift * (1 <<< shift : Nat) * unitsPerOne)
      (shiftRounded n shift % 2 = 0) w := by
  have hplace : 1 <<< (shift + 149) = 1 <<< shift * unitsPerOne := by
    rw [Nat.shiftLeft_add, Nat.shiftLeft_eq]
    rfl
  rcases hw (shift + 149) with hdvd | hlt
  · obtain ⟨k, hk⟩ := Int.ofNat_dvd_left.2 hdvd
    rw [hplace, Int.natCast_mul, Int.mul_comm, ← Int.mul_assoc] at hk
    rw [hk]
    exact (shiftRounded_beats n shift k).mul_right (by decide)
  · -- What has fewer bits lies below the least significand in its place, which is a multiple too.
    have hunits : 0 < unitsPerOne := by decide
    have hleast := ((shiftRounded_beats n shift hiddenBit).mul_right hunits).1
    rw [Nat.shiftLeft_eq, ← Nat.one_shiftLeft] at hn hlt
    rw [hplace, ← Nat.mul_assoc] at hlt
    have hbelow := Nat.mul_le_mul_right unitsPerOne hn
    rw [← Int.natCast_mul hiddenBit, ← Int.natCast_mul (hiddenBit * 1 <<< shift),
      ← Int.natCast_mul n] at hleast
    rw [Beats, ← Int.natCast_mul n]
    omega

/-- The significand of an integer in its place is nearest to the integer, among all numbers with no
more bits than a significand has. -/
theorem significand_beats {n : Nat} (hn : n ≠ 0) {w : Int}
    (hw : ∀ k, 1 <<< k ∣ w.natAbs ∨ w.natAbs < hiddenBit <<< k) :
    Beats (n * unitsPerOne) (significand n <<< (n.log2 + 126) : Nat) (significand n % 2 = 0) w := by
  by_cases hexact : n.log2 ≤ 23
  · have hvalue : significand n <<< (n.log2 + 126) = n * unitsPerOne := by
      rw [significand, if_pos hexact, ← Nat.shiftLeft_add,
        show 23 - n.log2 + (n.log2 + 126) = 149 by omega, Nat.shiftLeft_eq]
      rfl
    rw [Beats, hvalue, Int.natCast_mul]
    omega
  · have hvalue : significand n <<< (n.log2 + 126) =
        shiftRounded n (n.log2 - 23) * 1 <<< (n.log2 - 23) * unitsPerOne := by
      rw [significand, if_neg hexact, show n.log2 + 126 = n.log2 - 23 + 149 by omega,
        Nat.shiftLeft_add, Nat.shiftLeft_eq, Nat.shiftLeft_eq, Nat.one_shiftLeft]
      rfl
    have hlow : hiddenBit <<< (n.log2 - 23) ≤ n := by
      rw [Nat.shiftLeft_eq, show hiddenBit = 2 ^ 23 from rfl, ← Nat.pow_add,
        show 23 + (n.log2 - 23) = n.log2 by omega]
      exact Nat.log2_self_le hn
    rw [hvalue, significand, if_neg hexact, Int.natCast_mul, Int.natCast_mul]
    exact shiftRounded_beats_units hlow hw

/-- What the bits of an integer stand for. A significand that is the next power of two is carried
into the exponent field and leaves a fraction of zero. -/
theorem fields_ofInt {n : Int} (hn : n ≠ 0) (hlog : n.natAbs.log2 ≤ 126) :
    isNegative (ofInt n) = decide (n < 0) ∧ IsFinite (ofInt n) ∧
      magnitude (ofInt n) = significand n.natAbs <<< (n.natAbs.log2 + 126) ∧
      fractionField (ofInt n) % 2 = significand n.natAbs % 2 := by
  have hn' : n.natAbs ≠ 0 := Int.natAbs_ne_zero.2 hn
  have hbits : ofInt n = BitVec.ofNat 32 ((decide (n < 0)).toNat * signBit +
      magnitudeBits n.natAbs) := by
    rw [ofInt]
    by_cases hneg : n < 0 <;> simp [hneg]
  obtain ⟨hlow, hhigh⟩ := significand_bounds hn'
  have hsmall : magnitudeBits n.natAbs < signBit := by
    rw [magnitudeBits_of_ne_zero hn', signBit_eq]
    rw [hiddenBit_eq] at *
    omega
  obtain ⟨hsign, hfield⟩ := fields_ofNat (decide (n < 0)) hsmall
  rw [← hbits] at hsign hfield
  rw [magnitudeBits_of_ne_zero hn'] at hfield
  have heven : hiddenBit % 2 = 0 := by decide
  by_cases hcarry : significand n.natAbs = 2 * hiddenBit
  · have hcarried : (n.natAbs.log2 + 127) * hiddenBit + (2 * hiddenBit - hiddenBit) =
        (n.natAbs.log2 + 128) * hiddenBit + 0 := by
      rw [hiddenBit_eq]
      omega
    rw [hcarry, hcarried] at hfield
    obtain ⟨hexponent, hfraction⟩ := fields_of_magnitudeField (by decide) hfield
    refine ⟨hsign, ?_, ?_, ?_⟩
    · rw [IsFinite, hexponent]
      omega
    · rw [magnitude, hexponent, hfraction, hcarry, if_neg (by omega), Nat.add_zero,
        show n.natAbs.log2 + 128 - 1 = 1 + (n.natAbs.log2 + 126) by omega, Nat.shiftLeft_add,
        Nat.shiftLeft_eq hiddenBit, Nat.mul_comm]
    · rw [hfraction, hcarry]
      omega
  · obtain ⟨hexponent, hfraction⟩ := fields_of_magnitudeField (by omega) hfield
    refine ⟨hsign, ?_, ?_, ?_⟩
    · rw [IsFinite, hexponent]
      omega
    · rw [magnitude, hexponent, hfraction, if_neg (by omega), Nat.add_sub_cancel' hlow]
      rfl
    · rw [hfraction]
      omega

/-- A number in units, with the sign turned around for a negative integer. -/
def unitsAlong (n : Int) (cell : Cell) : Int := if n < 0 then -units cell else units cell

theorem distance_eq (n : Int) (cell : Cell) :
    distance n cell = (unitsAlong n cell - n.natAbs * unitsPerOne).natAbs := by
  rw [distance, unitsAlong]
  split
  case isTrue hneg =>
    rw [Int.ofNat_natAbs_of_nonpos (Int.le_of_lt hneg), ← Int.natAbs_neg, Int.neg_mul]
    congr 1
    omega
  case isFalse hpos => rw [Int.natAbs_of_nonneg (Int.not_lt.1 hpos)]

theorem natAbs_unitsAlong (n : Int) (cell : Cell) :
    (unitsAlong n cell).natAbs = magnitude cell := by
  rw [unitsAlong, units]
  split <;> split <;> simp

/-- An integer becomes the nearest number, and a tie goes to the even fraction. -/
theorem isNearest_ofInt {n : Int} (hlog : n.natAbs.log2 ≤ 126) : IsNearest n (ofInt n) := by
  by_cases hn : n = 0
  · subst hn
    refine ⟨by decide, fun other _ => ?_, fun other _ _ => .inr (by decide), by decide⟩
    have hzero : distance 0 (ofInt 0) = 0 := by decide
    omega
  obtain ⟨hsign, hfinite, hmagnitude, hparity⟩ := fields_ofInt hn hlog
  have halong : unitsAlong n (ofInt n) =
      (significand n.natAbs <<< (n.natAbs.log2 + 126) : Nat) := by
    rw [unitsAlong, units, hsign, hmagnitude]
    by_cases hneg : n < 0 <;> simp [hneg]
  have hbeats (other : Cell) :
      Beats (n.natAbs * unitsPerOne) (unitsAlong n (ofInt n)) (significand n.natAbs % 2 = 0)
        (unitsAlong n other) := by
    rw [halong]
    apply significand_beats (Int.natAbs_ne_zero.2 hn)
    intro k
    rw [natAbs_unitsAlong]
    exact dvd_or_lt_magnitude other k
  simp only [Beats, ← distance_eq] at hbeats
  refine ⟨hfinite, fun other _ => (hbeats other).1, fun other _ htie => ?_, hsign⟩
  rw [hparity]
  apply ((hbeats other).2 htie).imp_left
  intro hsame
  rw [unitsAlong, unitsAlong] at hsame
  split at hsame <;> omega

/-- The conversion to binary32 gives the nearest number, and a tie goes to the even fraction. -/
theorem ofIntCell_eq_iff (cell result : Cell) :
    ofIntCell cell = result ↔ IsNearest cell.toInt result := by
  have hlog : cell.toInt.natAbs.log2 ≤ 126 := by
    have hrange : cell.toInt.natAbs < 2 ^ 32 := by
      have hcell := cell.isLt
      rw [BitVec.toInt_eq_toNat_cond]
      split <;> omega
    by_cases hzero : cell.toInt.natAbs = 0
    · rw [hzero]
      decide
    · have hless := (Nat.log2_lt hzero).2 hrange
      omega
  constructor
  · rintro rfl
    exact isNearest_ofInt hlog
  · exact (isNearest_ofInt hlog).unique

/-- Of two numbers that are as close, the one with the even fraction is taken. -/
example : ofIntCell 16777217 = 0x4B800000 ∧ ofIntCell 16777219 = 0x4B800002 := by decide

/-! ## To integers -/

/-- The closest 32-bit integer. -/
def saturate (n : Int) : Int := max (-(signBit : Int)) (min n (signBit - 1))

/-- The integer part is the quotient by the units that make one. -/
theorem truncatedMagnitude_eq (cell : Cell) :
    truncatedMagnitude cell = magnitude cell / unitsPerOne := by
  have hfraction := fractionField_lt cell
  have hpow (k : Nat) : 0 < 2 ^ k := Nat.two_pow_pos k
  rw [truncatedMagnitude, magnitude, show unitsPerOne = 2 ^ 149 from rfl]
  generalize exponentField cell = exponent
  generalize fractionField cell = fraction at hfraction
  by_cases hsmall : exponent < 127
  · rw [if_pos hsmall, eq_comm, Nat.div_eq_zero_iff_lt (hpow 149)]
    split
    · exact Nat.lt_trans hfraction (by decide)
    · rw [Nat.shiftLeft_eq]
      calc (hiddenBit + fraction) * 2 ^ (exponent - 1)
          < 2 ^ 24 * 2 ^ (exponent - 1) :=
            Nat.mul_lt_mul_of_pos_right (by rw [hiddenBit_eq] at *; omega) (hpow _)
        _ ≤ 2 ^ 24 * 2 ^ 125 :=
            Nat.mul_le_mul_left _ (Nat.pow_le_pow_right (by decide) (by omega))
        _ = 2 ^ 149 := rfl
  rw [if_neg hsmall, if_neg (show exponent ≠ 0 by omega), Nat.shiftLeft_eq _ (exponent - 1)]
  by_cases hwhole : 150 ≤ exponent
  · rw [if_pos hwhole, show exponent - 1 = exponent - 150 + 149 by omega, Nat.pow_add,
      ← Nat.mul_assoc, Nat.mul_div_cancel _ (hpow 149), Nat.shiftLeft_eq]
  · have hsplit : 2 ^ 149 = 2 ^ (150 - exponent) * 2 ^ (exponent - 1) := by
      rw [← Nat.pow_add]
      congr 1
      omega
    rw [if_neg hwhole, Nat.shiftRight_eq_div_pow, hsplit, Nat.mul_div_mul_right _ _ (hpow _)]

theorem toInt_bounds (cell : Cell) : -(signBit : Int) ≤ toInt cell ∧ toInt cell < signBit := by
  rw [toInt, signBit_eq]
  split
  · decide
  · split <;> omega

/-- A number loses its fraction and is brought into the range of 32-bit integers. An infinity
becomes an end of the range, and NaN becomes zero. -/
theorem toInt_toIntCell (cell : Cell) :
    (toIntCell cell).toInt =
      if isNaN cell then 0
      else if isInfinite cell then if isNegative cell then -(signBit : Int) else signBit - 1
      else saturate ((units cell).tdiv unitsPerOne) := by
  obtain ⟨hlow, hhigh⟩ := toInt_bounds cell
  rw [toIntCell, BitVec.toInt_ofInt, Int.bmod_eq_of_le hlow hhigh, toInt]
  split
  case isTrue => rfl
  case isFalse =>
    by_cases hinfinite : isInfinite cell
    · rw [if_pos hinfinite]
      simp only [isInfinite, Bool.and_eq_true, beq_iff_eq] at hinfinite
      have hlarge : signBit ≤ truncatedMagnitude cell := by
        rw [truncatedMagnitude, hinfinite.1, hinfinite.2]
        decide
      split <;> omega
    · have hneg : (-(magnitude cell : Int)).tdiv unitsPerOne = -truncatedMagnitude cell := by
        rw [truncatedMagnitude_eq, Int.neg_tdiv, Int.ofNat_tdiv]
      have hpos : (magnitude cell : Int).tdiv unitsPerOne = truncatedMagnitude cell := by
        rw [truncatedMagnitude_eq, Int.ofNat_tdiv]
      rw [if_neg hinfinite, units, saturate, signBit_eq]
      split
      · rw [hneg]
        omega
      · rw [hpos]
        omega

/-- The fraction is lost on either side of zero, and what is too large becomes the largest. -/
example : toIntCell 0xC0200000 = -2 ∧ toIntCell 0x4F000000 = 0x7FFFFFFF := by decide

end StackScript.Binary32
