import Mathlib

/-! # Prices — IEEE 754 doubles as the book compares them

    A price is a `double`, and the book does nothing with prices but compare
    them and copy them.  So a price is its 64-bit pattern, and the comparisons
    are those of binary64: every comparison with a NaN is false, the two zeros
    are equal, and the other values are ordered by sign and magnitude. -/

namespace OsxPrice

/-- A binary64 value, by its bit pattern. -/
structure Double where
  bits : BitVec 64
  deriving DecidableEq, Repr, Inhabited

namespace Double

/-- Exponent and fraction, the sign left out. -/
def magnitude (d : Double) : Nat := d.bits.toNat % 2 ^ 63

def isNegative (d : Double) : Bool := decide (2 ^ 63 ≤ d.bits.toNat)

/-- The exponent is all ones and the fraction is not zero. -/
def isNaN (d : Double) : Bool := decide (0x7FF0000000000000 < d.magnitude)

/-- The place of a value that is not a NaN in the order. -/
def key (d : Double) : Int :=
  if d.isNegative then -(d.magnitude : Int) else d.magnitude

/-- `std::numeric_limits<double>::quiet_NaN()`. -/
def quietNaN : Double := ⟨0x7FF8000000000000⟩

instance : LT Double :=
  ⟨fun a b => a.isNaN = false ∧ b.isNaN = false ∧ a.key < b.key⟩

instance : LE Double :=
  ⟨fun a b => a.isNaN = false ∧ b.isNaN = false ∧ a.key ≤ b.key⟩

instance : BEq Double :=
  ⟨fun a b => !a.isNaN && !b.isNaN && a.key == b.key⟩

instance : DecidableLT Double :=
  fun a b => inferInstanceAs
    (Decidable (a.isNaN = false ∧ b.isNaN = false ∧ a.key < b.key))

instance : DecidableLE Double :=
  fun a b => inferInstanceAs
    (Decidable (a.isNaN = false ∧ b.isNaN = false ∧ a.key ≤ b.key))

/-- With NaN comparing false, `<` is still transitive. -/
instance : IsTrans Double (fun a b => a < b) :=
  ⟨fun _ _ _ h h' => ⟨h.1, h'.2.1, Int.lt_trans h.2.2 h'.2.2⟩⟩

instance : IsTrans Double (fun a b => a > b) :=
  ⟨fun _ _ _ h h' => ⟨h'.1, h.2.1, Int.lt_trans h'.2.2 h.2.2⟩⟩

/-! ## Comparisons away from NaN -/

variable {a b : Double}

theorem lt_iff (ha : a.isNaN = false) (hb : b.isNaN = false) :
    a < b ↔ a.key < b.key :=
  ⟨fun h => h.2.2, fun h => ⟨ha, hb, h⟩⟩

theorem le_iff (ha : a.isNaN = false) (hb : b.isNaN = false) :
    a ≤ b ↔ a.key ≤ b.key :=
  ⟨fun h => h.2.2, fun h => ⟨ha, hb, h⟩⟩

theorem beq_eq (ha : a.isNaN = false) (hb : b.isNaN = false) :
    (a == b) = (a.key == b.key) := by
  show (!a.isNaN && !b.isNaN && a.key == b.key) = _
  rw [ha, hb]
  rfl

end Double

end OsxPrice
