/-!
# `Formula.Number.Basic`: double precision numbers

A number of a formula is a double: not a number, one of the two
infinities, or a sign with a magnitude. Every finite double is a whole
multiple of `2 ^ -1074`, the least positive one, so a magnitude is kept
as that whole number of *quanta*. All arithmetic on finite numbers is
then exact arithmetic on natural numbers, followed by one rounding.

* `Fits`: the natural numbers of quanta that are magnitudes of doubles,
  those with at most 53 significant bits below the overflow limit.
* `roundQuanta`: the nearest number of quanta with 53 significant bits,
  a tie going to the even significand.
* `Number.ofRatio`: the double nearest to an exact ratio.
* `Number.key`: where a number stands on the line, the basis of every
  comparison. The two zeros stand at the same place, and not a number
  stands nowhere.
-/

set_option autoImplicit false

namespace Formula

/-- A quantum is two to the minus this. -/
def quantumBits : Nat := 1074

/-- Every finite double lies below two to the power of this. -/
def rangeBits : Nat := 1024

/-- The number of quanta in one. -/
def unitQuanta : Nat := Nat.pow 2 quantumBits

/-- The least number of quanta that is too large for a finite double. -/
def quantaLimit : Nat := Nat.pow 2 (rangeBits + quantumBits)

/-- There are finite magnitudes. -/
theorem quantaLimit_pos : 0 < quantaLimit := by
  unfold quantaLimit
  apply Nat.pow_pos
  decide

/-- The least number that has more significant bits than a double. -/
def significandLimit : Nat := Nat.pow 2 53

/-- A number of quanta is the magnitude of a double when it lies below
the limit and has at most 53 significant bits. -/
def Fits (n : Nat) : Prop :=
  n < quantaLimit ∧
    ∃ significand shift, significand < significandLimit ∧ n = significand * Nat.pow 2 shift

/-- The magnitude of a finite double, in quanta. -/
structure Magnitude where
  quanta : Nat
  fits : Fits quanta
deriving DecidableEq

/-- A double precision number. -/
inductive Number where
  /-- not a number -/
  | nan
  | infinite (negative : Bool)
  | finite (negative : Bool) (magnitude : Magnitude)
deriving DecidableEq

/-! ### Rounding -/

/-- `num / den` to the nearest natural number, a tie to the even one. -/
def roundHalfEven (num den : Nat) : Nat :=
  let q := num / den
  let r := num % den
  if 2 * r < den then q
  else if den < 2 * r then q + 1
  else q + q % 2

/-- How many low bits of a number of quanta are below the precision of
a double of that size. -/
def excessBits (n : Nat) : Nat := n.log2 - 52

/-- The nearest number of quanta to `num / den` that has at most 53
significant bits, a tie going to the even significand. -/
def roundQuanta (num den : Nat) : Nat :=
  let shift := excessBits (num / den)
  roundHalfEven num (den * Nat.pow 2 shift) * Nat.pow 2 shift

/-- Rounding goes up to the next natural number at the most. -/
theorem roundHalfEven_le (num den : Nat) : roundHalfEven num den ≤ num / den + 1 := by
  unfold roundHalfEven
  simp only
  split
  · omega
  · split <;> omega

/-- The rounded significand has at most 53 bits, or is the power of two
just above them. -/
theorem roundHalfEven_excessBits_le (num den : Nat) :
    roundHalfEven num (den * Nat.pow 2 (excessBits (num / den))) ≤ significandLimit := by
  have hle := roundHalfEven_le num (den * Nat.pow 2 (excessBits (num / den)))
  rw [← Nat.div_div_eq_div_mul] at hle
  -- Without the excess bits the quotient has at most 53 of them.
  have hlog : num / den < Nat.pow 2 ((num / den).log2 + 1) := Nat.lt_log2_self
  have hpow : Nat.pow 2 ((num / den).log2 + 1) ≤ Nat.pow 2 (53 + excessBits (num / den)) := by
    apply Nat.pow_le_pow_right (by decide)
    unfold excessBits
    omega
  have hlt : num / den / Nat.pow 2 (excessBits (num / den)) < significandLimit := by
    apply Nat.div_lt_of_lt_mul
    rw [Nat.mul_comm]
    exact Nat.lt_of_lt_of_le hlog (Nat.le_trans hpow (Nat.le_of_eq (Nat.pow_add 2 53 _)))
  omega

/-- A rounded magnitude below the limit is one of a double. -/
theorem fits_roundQuanta {num den : Nat} (h : roundQuanta num den < quantaLimit) :
    Fits (roundQuanta num den) := by
  refine ⟨h, ?_⟩
  have hle := roundHalfEven_excessBits_le num den
  by_cases hlt : roundHalfEven num (den * Nat.pow 2 (excessBits (num / den))) < significandLimit
  · exact ⟨_, _, hlt, rfl⟩
  -- Rounded up to the next power of two, the significand takes one bit more off.
  · refine ⟨Nat.pow 2 52, excessBits (num / den) + 1, by decide, ?_⟩
    have heq : roundHalfEven num (den * Nat.pow 2 (excessBits (num / den))) = significandLimit :=
      Nat.le_antisymm hle (Nat.le_of_not_lt hlt)
    have hlimit : significandLimit = Nat.pow 2 52 * 2 := rfl
    have hsucc : Nat.pow 2 (excessBits (num / den) + 1) = Nat.pow 2 (excessBits (num / den)) * 2 :=
      rfl
    unfold roundQuanta
    simp only
    rw [heq, hlimit, hsucc, Nat.mul_assoc, Nat.mul_comm 2]

/-- The magnitude zero. -/
def Magnitude.zero : Magnitude := ⟨0, quantaLimit_pos, 0, 0, by decide, rfl⟩

/-! ### Making numbers -/

namespace Number

/-- The double nearest to `num / den` quanta with the given sign;
infinite when that is beyond the largest finite double. -/
def ofRatio (negative : Bool) (num den : Nat) : Number :=
  if h : roundQuanta num den < quantaLimit then
    .finite negative ⟨roundQuanta num den, fits_roundQuanta h⟩
  else
    .infinite negative

/-- The zero of the given sign. -/
def zeroOf (negative : Bool) : Number := .finite negative .zero

/-- Positive zero. -/
def zero : Number := zeroOf false

instance : Inhabited Number := ⟨zero⟩

/-- The double nearest to a signed number of `1 / den` quanta. A zero
gets the sign `zeroNegative`. -/
def ofSignedRatio (num : Int) (den : Nat) (zeroNegative : Bool) : Number :=
  if num = 0 then zeroOf zeroNegative else ofRatio (decide (num < 0)) num.natAbs den

/-- The double nearest to a natural number. -/
def ofNat (n : Nat) : Number := ofRatio false (n * unitQuanta) 1

/-- The double nearest to an integer. -/
def ofInt (n : Int) : Number := ofSignedRatio (n * unitQuanta) 1 false

/-- The number one. -/
def one : Number := ofNat 1

/-! ### Classes -/

/-- Whether this is not a number. -/
def isNaN : Number → Bool
  | .nan => true
  | _ => false

/-- Whether the number is neither infinite nor undefined. -/
def isFinite : Number → Bool
  | .finite _ _ => true
  | _ => false

/-- Whether the sign is a minus, also before zero. -/
def isNegative : Number → Bool
  | .nan => false
  | .infinite negative => negative
  | .finite negative _ => negative

/-- Whether the number is one of the two zeros. -/
def isZero : Number → Bool
  | .finite _ m => m.quanta == 0
  | _ => false

/-! ### The line -/

/-- `n` with the given sign. -/
def signed (negative : Bool) (n : Nat) : Int :=
  if negative then -(n : Int) else n

/-- Where a number stands on the line, in quanta: the infinities stand
at the overflow limit, beyond every finite number, and `nan` stands
nowhere. -/
def key : Number → Option Int
  | .nan => none
  | .infinite negative => some (signed negative quantaLimit)
  | .finite negative m => some (signed negative m.quanta)

/-- Numeric equality: `nan` equals nothing, and the zeros are equal. -/
def equal (x y : Number) : Bool :=
  match x.key, y.key with
  | some a, some b => decide (a = b)
  | _, _ => false

/-- Numeric order: false when either side is `nan`. -/
def less (x y : Number) : Bool :=
  match x.key, y.key with
  | some a, some b => decide (a < b)
  | _, _ => false

end Number

end Formula
