import Mathlib.Data.UInt
import Mathlib.Order.Lattice

/-!
# Machine words

Counters and ring positions are `uint64_t` and `size_t`, which are the same
64-bit words; their order is the unsigned one. A comparison of a `size_t` with an
`int` reads the `int` as a `size_t`.
-/

namespace MachineWords

instance linearOrderUInt64 : LinearOrder UInt64 where
  le_refl := UInt64.le_refl
  le_trans := fun _ _ _ => UInt64.le_trans
  le_antisymm := fun _ _ => UInt64.le_antisymm
  le_total := UInt64.le_total
  lt_iff_le_not_ge := fun a b => by
    rw [UInt64.lt_iff_toNat_lt, UInt64.le_iff_toNat_le, UInt64.le_iff_toNat_le]
    omega
  toDecidableLE := inferInstance
  toDecidableEq := inferInstance
  toDecidableLT := inferInstance

def toSize (i : Int) : Nat := (i % 2 ^ 64).toNat

theorem toSize_of_nonneg {i : Int} (h0 : 0 ≤ i) (h : i < 2 ^ 64) : toSize i = i.toNat := by
  rw [toSize, Int.emod_eq_of_lt h0 h]

/-- The successor is the least larger word, except at the largest one. -/
theorem succ_le_iff {k a : UInt64} (h : k + 1 ≠ 0) : k + 1 ≤ a ↔ k < a := by
  have hk : k.toNat + 1 < 2 ^ 64 := by
    by_contra hge
    apply h
    apply UInt64.toNat_inj.mp
    have := k.toNat_lt
    have hmax : k.toNat + 1 = 2 ^ 64 := by omega
    simp [UInt64.toNat_add, hmax]
  rw [UInt64.le_iff_toNat_le, UInt64.lt_iff_toNat_lt, UInt64.toNat_add]
  have hone : (1 : UInt64).toNat = 1 := rfl
  rw [hone, Nat.mod_eq_of_lt hk]
  omega

theorem le_of_succ_eq_zero {k : UInt64} (h : k + 1 = 0) (a : UInt64) : a ≤ k := by
  have hk : k.toNat + 1 = 2 ^ 64 := by
    have hz := congrArg UInt64.toNat h
    rw [UInt64.toNat_add] at hz
    have hone : (1 : UInt64).toNat = 1 := rfl
    have := k.toNat_lt
    rw [hone] at hz
    simp only [UInt64.toNat_zero] at hz
    omega
  rw [UInt64.le_iff_toNat_le]
  have := a.toNat_lt
  omega

end MachineWords
