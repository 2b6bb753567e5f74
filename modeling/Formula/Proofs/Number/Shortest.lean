import Formula.Proofs.Number.Rounding

/-!
# `Formula.Proofs.Number.Shortest`: seventeen digits read back

The shortest decimal of a magnitude is found by trying more and more digits.
A grid of decimals has one that rounds to the magnitude as soon as its step is
less than the interval around the magnitude is wide, and with seventeen digits
it is.

* `Significant.value`: the exact value of a decimal.
* `readsBack_iff`: the test of a decimal is whether it rounds to the
  magnitude.
* `leadingExponent_spec`: the power of ten of the first digit.
* `gridBelow_spec`: the two neighbours of a magnitude on a grid.
* `exists_readsBack`: one of them rounds to the magnitude, on a grid of
  seventeen digits.
* `shortest_spec`: so does the shortest decimal, and it has at most seventeen
  digits; `le_exponent_shortest`: no decimal that does has fewer.
-/

set_option autoImplicit false

namespace Formula

/-! ### Decimals -/

/-- The value of a decimal. -/
def Significant.value (d : Significant) : ℚ := d.digits * 10 ^ d.exponent

/-- One has quanta. -/
theorem unitQuanta_pos : 0 < unitQuanta := by
  unfold unitQuanta
  apply Nat.pow_pos
  decide

/-- The same among the rationals. -/
theorem cast_unitQuanta_pos : (0 : ℚ) < unitQuanta := by exact_mod_cast unitQuanta_pos

/-- Powers of ten are positive. -/
theorem ten_zpow_pos (e : Int) : (0 : ℚ) < 10 ^ e := zpow_pos (by norm_num) e

/-- So are both parts of a power of ten. -/
theorem tenPower_pos (e : Int) : 0 < (tenPower e).1 ∧ 0 < (tenPower e).2 :=
  ⟨Nat.pow_pos (by decide), Nat.pow_pos (by decide)⟩

/-- A power of ten as the ratio of its two factors. -/
theorem tenPower_spec (e : Int) : ((tenPower e).1 : ℚ) = 10 ^ e * (tenPower e).2 := by
  show ((10 ^ e.toNat : Nat) : ℚ) = 10 ^ e * ((10 ^ (-e).toNat : Nat) : ℚ)
  push_cast
  rw [← zpow_natCast, ← zpow_natCast, ← zpow_add₀ (by norm_num)]
  congr 1
  omega

/-- The test of an interval, by two comparisons with its ends. -/
theorem insideEnds_iff {x lower upper : ℚ} (h : lower < upper) (ends : Bool) :
    insideEnds ends (cmp x lower) (cmp x upper) = true ↔
      lower ≤ x ∧ x ≤ upper ∧ (x = lower ∨ x = upper → ends = true) := by
  -- Below, at the lower end, between, at the upper end, above.
  rcases lt_trichotomy x lower with hlow | rfl | hlow
  · have hout : ¬lower ≤ x := not_le.2 hlow
    rw [(cmp_eq_lt_iff _ _).2 hlow]
    simp [insideEnds, hout]
  · rw [cmp_self_eq_eq, (cmp_eq_lt_iff _ _).2 h]
    simp [insideEnds, h.le]
  · rw [(cmp_eq_gt_iff _ _).2 hlow]
    rcases lt_trichotomy x upper with hhigh | rfl | hhigh
    · rw [(cmp_eq_lt_iff _ _).2 hhigh]
      simp [insideEnds, hlow.le, hhigh.le, hlow.ne', hhigh.ne]
    · rw [cmp_self_eq_eq]
      simp [insideEnds, h.le]
    · have hout : ¬x ≤ upper := not_le.2 hhigh
      rw [(cmp_eq_gt_iff _ _).2 hhigh]
      simp [insideEnds, hout]

/-- The interval is not empty. -/
theorem lowerEnd_lt_upperEnd (q : Nat) : (lowerEnd q : ℚ) < upperEnd q := by
  have hulp := ulp_pos q
  have hlt : lowerEnd q < upperEnd q := by
    unfold lowerEnd upperEnd
    split <;> omega
  exact_mod_cast hlt

namespace Significant

/-- The comparison of whole numbers is one of values. -/
theorem compareQuarters_eq (d : Significant) (quarters : Nat) :
    d.compareQuarters quarters = cmp (4 * (d.value * unitQuanta)) (quarters : ℚ) := by
  have hdown : (0 : ℚ) < (tenPower d.exponent).2 := by exact_mod_cast (tenPower_pos d.exponent).2
  -- Both sides are multiplied by the denominator of the power of ten, so that whole numbers are
  -- compared.
  have hleft : ((d.digits * (tenPower d.exponent).1 * (4 * unitQuanta) : Nat) : ℚ)
      = 4 * (d.value * unitQuanta) * (tenPower d.exponent).2 := by
    push_cast
    rw [tenPower_spec, Significant.value]
    ring
  have hright : ((quarters * (tenPower d.exponent).2 : Nat) : ℚ)
      = quarters * (tenPower d.exponent).2 := by push_cast; ring
  unfold compareQuarters
  dsimp only
  rw [← cmp_eq_compare, ← (Nat.strictMono_cast (α := ℚ)).cmp_map_eq, hleft, hright,
    cmp_mul_pos_right hdown]

/-- A decimal reads back as the magnitude that it rounds to. -/
theorem readsBack_iff (d : Significant) (q : Nat) :
    d.readsBack q = true ↔ RoundsTo q (d.value * unitQuanta) := by
  unfold readsBack
  rw [compareQuarters_eq, compareQuarters_eq, insideEnds_iff (lowerEnd_lt_upperEnd q)]
  exact ⟨fun h => ⟨h.1, h.2.1, h.2.2⟩, fun h => ⟨h.below, h.above, h.even⟩⟩

end Significant

/-! ### The leading digit -/

/-- The codes of the digits. -/
theorem toNat_of_isDigit {c : Char} (h : c.isDigit = true) : 48 ≤ c.toNat ∧ c.toNat ≤ 57 := by
  simp only [Char.isDigit, ge_iff_le, Bool.and_eq_true, decide_eq_true_eq] at h
  exact ⟨UInt32.le_iff_toNat_le.1 h.1, UInt32.le_iff_toNat_le.1 h.2⟩

/-- A number has a digit at least. -/
theorem decimalLength_pos (n : Nat) : 0 < decimalLength n := Nat.length_toDigits_pos

/-- A positive number lies between the powers of ten that its digits tell. -/
theorem decimalLength_spec {n : Nat} (hn : 0 < n) :
    10 ^ (decimalLength n - 1) ≤ n ∧ n < 10 ^ decimalLength n := by
  refine ⟨?_, (Nat.length_toDigits_le_iff (by decide) (decimalLength_pos n)).1 le_rfl⟩
  by_contra hlt
  rcases Nat.eq_zero_or_pos (decimalLength n - 1) with hzero | hpos
  · rw [hzero] at hlt
    omega
  · have hle := (Nat.length_toDigits_le_iff (by decide) hpos).2 (Nat.lt_of_not_le hlt)
    unfold decimalLength at hle hpos
    omega

/-- A number below a power of ten has no more digits than that. -/
theorem decimalLength_le {n k : Nat} (hk : 0 < k) (h : n < 10 ^ k) : decimalLength n ≤ k :=
  (Nat.length_toDigits_le_iff (by decide) hk).2 h

/-- The unit in powers of ten is at most the magnitude from its first digit on,
and more than it from the digit before. -/
theorem leadingExponent_spec {q : Nat} (hq : 0 < q) :
    (10 : ℚ) ^ leadingExponent q * unitQuanta ≤ q ∧
      (q : ℚ) < 10 ^ (leadingExponent q + 1) * unitQuanta := by
  have hunit := unitQuanta_pos
  unfold leadingExponent
  by_cases hlarge : unitQuanta ≤ q
  · rw [if_pos hlarge]
    -- The digits of the whole part, counted from the point to the left.
    have hpos : 0 < q / unitQuanta := Nat.div_pos hlarge hunit
    have hlen := decimalLength_pos (q / unitQuanta)
    obtain ⟨hlow, hhigh⟩ := decimalLength_spec hpos
    generalize decimalLength (q / unitQuanta) = length at *
    have hlow' := (Nat.le_div_iff_mul_le hunit).1 hlow
    have hhigh' := (Nat.div_lt_iff_lt_mul hunit).1 hhigh
    have hprev : (length : Int) - 1 = (length - 1 : Nat) := by omega
    have hnext : (length : Int) - 1 + 1 = (length : Nat) := by omega
    rw [hnext, hprev, zpow_natCast, zpow_natCast]
    constructor
    · exact_mod_cast hlow'
    · exact_mod_cast hhigh'
  · rw [if_neg hlarge]
    -- Below one, the digits of the inverse count the places from the point to the right.
    have hpos : 0 < (unitQuanta - 1) / q := Nat.div_pos (by omega) hq
    have hlen := decimalLength_pos ((unitQuanta - 1) / q)
    obtain ⟨hlow, hhigh⟩ := decimalLength_spec hpos
    generalize decimalLength ((unitQuanta - 1) / q) = length at *
    have hlow' := (Nat.le_div_iff_mul_le hq).1 hlow
    have hhigh' := (Nat.div_lt_iff_lt_mul hq).1 hhigh
    have hten : (0 : ℚ) < 10 ^ length := by positivity
    have hprev : -(length : Int) + 1 = -(length - 1 : Nat) := by omega
    have hten' : (0 : ℚ) < 10 ^ (length - 1) := by positivity
    rw [hprev, zpow_neg, zpow_neg, zpow_natCast, zpow_natCast, inv_mul_le_iff₀ hten,
      lt_inv_mul_iff₀ hten']
    have hreach : unitQuanta ≤ 10 ^ length * q := by omega
    have hless : 10 ^ (length - 1) * q < unitQuanta := by omega
    constructor
    · exact_mod_cast hreach
    · exact_mod_cast hless

/-! ### The grid -/

/-- The step of the grid of `10 ^ e`, in quanta. -/
def gridStep (e : Int) : ℚ := 10 ^ e * unitQuanta

/-- The steps of a grid are positive. -/
theorem gridStep_pos (e : Int) : 0 < gridStep e := mul_pos (ten_zpow_pos e) cast_unitQuanta_pos

/-- A coarser grid has whole steps of a finer one. -/
theorem gridStep_add (e : Int) (n : Nat) : gridStep (e + n) = 10 ^ n * gridStep e := by
  unfold gridStep
  rw [zpow_add₀ (by norm_num), zpow_natCast]
  ring

/-- The quanta of significant digits are so many steps of their grid. -/
theorem Significant.value_mul_unitQuanta (d : Significant) :
    d.value * unitQuanta = d.digits * gridStep d.exponent := by
  unfold Significant.value gridStep
  ring

/-- The magnitude lies between the multiple of the step and the next one. -/
theorem gridBelow_spec (q : Nat) (e : Int) :
    ((gridBelow q e).1 : ℚ) * gridStep e ≤ q ∧ (q : ℚ) < ((gridBelow q e).1 + 1) * gridStep e := by
  obtain ⟨hup, hdown⟩ := tenPower_pos e
  have hpower := tenPower_spec e
  have hstep : 0 < unitQuanta * (tenPower e).1 := Nat.mul_pos unitQuanta_pos hup
  have hbelow : (gridBelow q e).1 = q * (tenPower e).2 / (unitQuanta * (tenPower e).1) := rfl
  have hlow := (Nat.le_div_iff_mul_le hstep).1 hbelow.le
  have hnext : q * (tenPower e).2 / (unitQuanta * (tenPower e).1) < (gridBelow q e).1 + 1 := by
    omega
  have hhigh := (Nat.div_lt_iff_lt_mul hstep).1 hnext
  generalize (gridBelow q e).1 = below at *
  have hdown' : (0 : ℚ) < (tenPower e).2 := by exact_mod_cast hdown
  have hlow' : (below : ℚ) * (unitQuanta * (tenPower e).1) ≤ q * (tenPower e).2 := by
    exact_mod_cast hlow
  have hhigh' : (q : ℚ) * (tenPower e).2 < (below + 1) * (unitQuanta * (tenPower e).1) := by
    exact_mod_cast hhigh
  rw [hpower] at hlow' hhigh'
  -- The step of the grid, with the power of ten as a ratio.
  have hswap (x : ℚ) : x * (unitQuanta * (10 ^ e * (tenPower e).2))
      = x * gridStep e * (tenPower e).2 := by
    unfold gridStep
    ring
  rw [hswap] at hlow' hhigh'
  exact ⟨le_of_mul_le_mul_right hlow' hdown', lt_of_mul_lt_mul_right hhigh' hdown'.le⟩

/-- A decimal on its own grid next to a magnitude. -/
def Significant.Borders (d : Significant) (q : Nat) : Prop :=
  d.digits = (gridBelow q d.exponent).1 ∨ d.digits = (gridBelow q d.exponent).1 + 1

/-- A choice is one of the two neighbours, and one that reads back. -/
theorem choice_eq_some {low high near d : Significant} {lowReads highReads : Bool}
    (hnear : near = low ∨ near = high) (h : choice low high near lowReads highReads = some d) :
    d = low ∧ lowReads = true ∨ d = high ∧ highReads = true := by
  cases lowReads <;> cases highReads <;> simp [choice] at h <;> subst h
  · exact .inr ⟨rfl, rfl⟩
  · exact .inl ⟨rfl, rfl⟩
  · exact hnear.imp (fun heq => ⟨heq, rfl⟩) (fun heq => ⟨heq, rfl⟩)

/-- The nearer one is one of the two. -/
theorem nearer_eq (tie : Tie) (low high : Significant) (half : Ordering) :
    nearer tie low high half = low ∨ nearer tie low high half = high := by
  -- On a tie the rule decides, and it names one of them as well.
  cases half with
  | lt => exact .inl rfl
  | gt => exact .inr rfl
  | eq =>
      cases tie with
      | up => exact .inr rfl
      | toEven =>
          unfold nearer
          dsimp only
          split
          · exact .inl rfl
          · exact .inr rfl

/-- What is found on a grid reads back. -/
theorem nearestOnGrid_eq_some {tie : Tie} {q : Nat} {e : Int} {d : Significant}
    (h : nearestOnGrid tie q e = some d) :
    d.exponent = e ∧ d.Borders q ∧ d.readsBack q = true := by
  rcases choice_eq_some (nearer_eq tie _ _ _) h with ⟨rfl, hreads⟩ | ⟨rfl, hreads⟩
  · exact ⟨rfl, .inl rfl, hreads⟩
  · exact ⟨rfl, .inr rfl, hreads⟩

/-- Where nothing is found on a grid, none of the two neighbours reads back. -/
theorem nearestOnGrid_eq_none {tie : Tie} {q : Nat} {e : Int} (h : nearestOnGrid tie q e = none)
    {d : Significant} (hd : d.exponent = e) (hborders : d.Borders q) : d.readsBack q = false := by
  obtain ⟨digits, e'⟩ := d
  obtain rfl : e' = e := hd
  have hnone : ∀ {low high near : Significant} {lowReads highReads : Bool},
      choice low high near lowReads highReads = none → lowReads = false ∧ highReads = false := by
    intro low high near lowReads highReads hchoice
    cases lowReads <;> cases highReads <;> simp [choice] at hchoice ⊢
  obtain ⟨hlow, hhigh⟩ := hnone h
  -- If neither border reads back, this one does not.
  rcases hborders with hdigits | hdigits
  · obtain rfl : digits = (gridBelow q e').1 := hdigits
    exact hlow
  · obtain rfl : digits = (gridBelow q e').1 + 1 := hdigits
    exact hhigh

/-! ### Seventeen digits -/

/-- A magnitude in units of its last bit, and how wide its interval is. -/
theorem interval_width {q : Nat} (hq : Fits q) (hpos : 0 < q) :
    (q : ℚ) < 2 ^ 53 * ulp q ∧ 4 * ulp q ≤ (upperEnd q - lowerEnd q : ℚ) ∨
      (q : ℚ) ≤ 2 ^ 52 * ulp q ∧ 3 * ulp q ≤ (upperEnd q - lowerEnd q : ℚ) := by
  rw [cast_upperEnd, cast_lowerEnd hq hpos]
  -- The interval is narrower where the binade begins, and there the number is a power of two.
  by_cases hnarrow : narrowBelow q = true
  · -- A power of two: its significand is the least one.
    refine .inr ⟨?_, by rw [if_pos hnarrow]; linarith⟩
    unfold narrowBelow at hnarrow
    rw [Bool.and_eq_true, decide_eq_true_iff, beq_iff_eq] at hnarrow
    obtain ⟨hulp, hpower⟩ := hnarrow
    have hbits : excessBits q ≠ 0 := by
      intro hzero
      unfold ulp at hulp
      rw [hzero] at hulp
      exact absurd hulp (by decide)
    have hlog : q.log2 = 52 + excessBits q := by
      unfold excessBits at hbits ⊢
      omega
    rw [hlog, Nat.pow_eq] at hpower
    rw [cast_ulp, ← pow_add]
    exact_mod_cast hpower.le
  · refine .inl ⟨?_, by rw [if_neg hnarrow]; linarith⟩
    rw [cast_ulp, ← pow_add]
    exact_mod_cast lt_of_excessBits q

/-- With seventeen digits the step is less than the interval is wide, so that one
of the two neighbours is inside. -/
theorem exists_readsBack {q : Nat} (hq : Fits q) (hpos : 0 < q) {e : Int}
    (he : 10 ^ 16 * gridStep e ≤ q) :
    ∃ d : Significant, d.exponent = e ∧ d.Borders q ∧ d.readsBack q = true := by
  by_contra hnone
  obtain ⟨hlow, hhigh⟩ := gridBelow_spec q e
  have hulp : (0 : ℚ) < ulp q := by exact_mod_cast ulp_pos q
  have hends := le_cast_lowerEnd hq hpos
  have hends' : (lowerEnd q : ℚ) ≤ 4 * q := by
    rw [cast_lowerEnd hq hpos]
    split <;> linarith
  have hends'' := cast_upperEnd q
  have hout : ∀ n : Nat, (n = (gridBelow q e).1 ∨ n = (gridBelow q e).1 + 1) →
      ¬RoundsTo q (n * gridStep e) := by
    intro n hn hround
    refine hnone ⟨⟨n, e⟩, rfl, hn, ?_⟩
    rw [Significant.readsBack_iff, Significant.value_mul_unitQuanta]
    exact hround
  -- The lower neighbour is not above the magnitude, so it lies below the interval.
  have hlow' : 4 * ((gridBelow q e).1 * gridStep e) ≤ (lowerEnd q : ℚ) := by
    by_contra hin
    exact hout _ (.inl rfl) ⟨by linarith, by linarith, fun hend => by rcases hend <;> linarith⟩
  have hhigh' : (upperEnd q : ℚ) ≤ 4 * (((gridBelow q e).1 + 1) * gridStep e) := by
    by_contra hin
    refine hout _ (.inr rfl) ?_
    rw [Nat.cast_succ]
    exact ⟨by linarith, by linarith, fun hend => by rcases hend <;> linarith⟩
  have hstep : (upperEnd q - lowerEnd q : ℚ) ≤ 4 * gridStep e := by linarith
  rcases interval_width hq hpos with ⟨hsmall, hwide⟩ | ⟨hsmall, hwide⟩ <;> linarith

/-! ### The shortest decimal -/

/-- Trying more digits ends where something is found, and does not go beyond a
grid on which there is something. -/
theorem shortestFrom_spec (tie : Tie) {q : Nat} {goal : Int}
    (hgoal : ∃ d : Significant, d.exponent = goal ∧ d.Borders q ∧ d.readsBack q = true)
    (tries : Nat) (e : Int) (hle : goal ≤ e) (htries : e < goal + tries) :
    (shortestFrom tie q tries e).readsBack q = true ∧ (shortestFrom tie q tries e).Borders q ∧
      goal ≤ (shortestFrom tie q tries e).exponent ∧
      (shortestFrom tie q tries e).exponent ≤ e := by
  induction tries generalizing e with
  | zero => omega
  | succ tries ih =>
      rw [shortestFrom]
      cases hfound : nearestOnGrid tie q e with
      | some d =>
          obtain ⟨he, hborders, hreads⟩ := nearestOnGrid_eq_some hfound
          rw [Option.getD_some]
          exact ⟨hreads, hborders, he ▸ hle, he.le⟩
      | none =>
          -- On the grid of the goal something would have been found.
          have hne : e ≠ goal := by
            rintro rfl
            obtain ⟨d, he, hborders, hreads⟩ := hgoal
            rw [nearestOnGrid_eq_none hfound he hborders] at hreads
            exact absurd hreads (by decide)
          obtain ⟨hreads, hborders, hge, hle'⟩ := ih (e - 1) (by omega) (by omega)
          rw [Option.getD_none]
          exact ⟨hreads, hborders, hge, by omega⟩

/-- On the grid sixteen places below the first digit the step is small enough. -/
theorem seventeenDigits_step {q : Nat} (hpos : 0 < q) :
    10 ^ 16 * gridStep (leadingExponent q - 16) ≤ q := by
  have hstep := gridStep_add (leadingExponent q - 16) 16
  rw [show leadingExponent q - 16 + (16 : Nat) = leadingExponent q by omega] at hstep
  rw [← hstep]
  exact (leadingExponent_spec hpos).1

/-- The shortest decimal rounds to the magnitude and borders on it, and has at most
seventeen digits. -/
theorem shortest_spec (tie : Tie) {q : Nat} (hq : Fits q) (hpos : 0 < q) :
    (shortest tie q).readsBack q = true ∧ (shortest tie q).Borders q ∧
      leadingExponent q - 16 ≤ (shortest tie q).exponent ∧
      (shortest tie q).exponent ≤ leadingExponent q :=
  shortestFrom_spec tie (exists_readsBack hq hpos (seventeenDigits_step hpos)) 17
    (leadingExponent q) (by omega) (by omega)

/-- It has no more digits than any decimal that borders on the magnitude and reads
back. -/
theorem le_exponent_shortest (tie : Tie) {q : Nat} {d : Significant} (hborders : d.Borders q)
    (hreads : d.readsBack q = true) (hge : leadingExponent q - 16 ≤ d.exponent)
    (hle : d.exponent ≤ leadingExponent q) : d.exponent ≤ (shortest tie q).exponent :=
  (shortestFrom_spec tie ⟨d, rfl, hborders, hreads⟩ 17 (leadingExponent q) hle (by omega)).2.2.1

/-- The digits of a decimal that borders on a magnitude, from how far its grid lies
below the first digit. -/
theorem Significant.Borders.digits_bounds {d : Significant} {q n : Nat} (h : d.Borders q)
    (hpos : 0 < q) (hn : leadingExponent q = d.exponent + n) :
    10 ^ n ≤ d.digits ∧ d.digits ≤ 10 ^ (n + 1) := by
  obtain ⟨hlow, hhigh⟩ := gridBelow_spec q d.exponent
  obtain ⟨hfirst, hbefore⟩ := leadingExponent_spec hpos
  have hstep := gridStep_pos d.exponent
  have hfirst' : 10 ^ n * gridStep d.exponent ≤ q := by
    rw [← gridStep_add, ← hn]
    exact hfirst
  have hbefore' : q < 10 ^ (n + 1) * gridStep d.exponent := by
    rw [← gridStep_add, Nat.cast_succ, ← add_assoc, ← hn]
    exact hbefore
  -- The step just below the number has between so many digits, and the border is this step or
  -- the next.
  have hge : 10 ^ n < (gridBelow q d.exponent).1 + 1 := by
    have := lt_of_mul_lt_mul_right (hfirst'.trans_lt hhigh) hstep.le
    exact_mod_cast this
  have hlt : (gridBelow q d.exponent).1 < 10 ^ (n + 1) := by
    have := lt_of_mul_lt_mul_right (hlow.trans_lt hbefore') hstep.le
    exact_mod_cast this
  rcases h with h | h <;> omega

end Formula
