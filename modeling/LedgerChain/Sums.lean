/-!
# Sums of heights and weights

The height of a block is a number of 64 bits, and the weight of a chain one of 128 bits.  What comes
out of a sum is said by `Sums`: the sum itself as long as it fits, and anything otherwise.

* `Sums.unbounded` : every sum fits.  This is what is meant where nothing else is said.  A chain that
  starts at height zero has no other sums before it has 2 ^ 64 blocks.
* `Sums.wrapping` : a sum that does not fit starts again from zero.

Where overflow is checked for at run time, the program stops instead, and no sum comes out.

The test for one height being one above another differs from that in 64 bits only where the lower one
is the greatest height (`height_eq_succ_iff`, `height_le_succ_iff`).
-/

namespace LedgerChain

/-- How heights and weights are added, and heights subtracted. -/
class Sums where
  addHeights : Nat → Nat → Nat
  subHeights : Nat → Nat → Nat
  addWeights : Nat → Nat → Nat
  addHeights_eq : ∀ {a b}, a + b < UInt64.size → addHeights a b = a + b
  subHeights_eq : ∀ {a b}, b ≤ a → subHeights a b = a - b
  addWeights_eq : ∀ {a b}, a + b < Nat.pow 2 128 → addWeights a b = a + b

namespace Sums

/-- Sums of natural numbers. -/
instance unbounded : Sums where
  addHeights := (· + ·)
  subHeights := (· - ·)
  addWeights := (· + ·)
  addHeights_eq _ := rfl
  subHeights_eq _ := rfl
  addWeights_eq _ := rfl

/-- Sums in 64 and 128 bits, without a check. -/
@[reducible]
def wrapping : Sums where
  addHeights a b := (a + b) % UInt64.size
  subHeights a b := if b ≤ a then a - b else a + UInt64.size - b
  addWeights a b := (a + b) % Nat.pow 2 128
  addHeights_eq := Nat.mod_eq_of_lt
  subHeights_eq h := if_pos h
  addWeights_eq := Nat.mod_eq_of_lt

@[simp] theorem addHeights_unbounded (a b : Nat) : addHeights a b = a + b := rfl

@[simp] theorem subHeights_unbounded (a b : Nat) : subHeights a b = a - b := rfl

@[simp] theorem addWeights_unbounded (a b : Nat) : addWeights a b = a + b := rfl

end Sums

theorem height_eq_succ_iff {a b : UInt64} :
    a.toNat = b.toNat + 1 ↔ a = b + 1 ∧ b.toNat < UInt64.size - 1 := by
  have ha := a.toNat_lt
  have hb := b.toNat_lt
  rw [← UInt64.toNat_inj, UInt64.toNat_add, UInt64.toNat_one, UInt64.size]
  omega

theorem height_le_succ_iff {a b : UInt64} :
    a.toNat ≤ b.toNat + 1 ↔ a ≤ b + 1 ∨ b.toNat = UInt64.size - 1 := by
  have ha := a.toNat_lt
  have hb := b.toNat_lt
  rw [UInt64.le_iff_toNat_le, UInt64.toNat_add, UInt64.toNat_one, UInt64.size]
  omega

end LedgerChain
