import BoundedTables.BloomFilter.Probe
import Mathlib.Logic.Function.Basic

/-!
# Mixing loses nothing

A mix alternates two kinds of step, and each can be taken back. Folding the upper bits of a word
onto its lower ones undoes itself, as a shift by more than half a word has nothing left to shift
again (`fold_involutive`). Multiplying by an odd number is undone by multiplying by its inverse
modulo `2 ^ 64` (`mul_mul_cancel`). So `unmix64` leads from every word back to the only one that
mixes to it, and the start of a probe sequence tells its hash (`mix64_bijective`).
-/

namespace BoundedTables.Probe

/-- Fold the upper bits of a word onto its lower ones. -/
def fold (h : UInt64) : UInt64 := h ^^^ (h >>> 33)

/-- The word that mixes to this one. Its multipliers are the inverses of those of the mix. -/
def unmix64 (h : UInt64) : UInt64 :=
  fold (fold (fold h * 0x9cb4b2f8129337db) * 0x4f74430c22a54005)

/-- Mixing folds a word three times, with a multiplication between each two of them. -/
theorem mix64_eq (h : UInt64) :
    mix64 h = fold (fold (fold h * 0xff51afd7ed558ccd) * 0xc4ceb9fe1a85ec53) := rfl

/-- Two shifts by more than half a word leave nothing of it. -/
theorem shift_shift (h : UInt64) : h >>> 33 >>> 33 = 0 := by
  apply UInt64.toNat_inj.mp
  rw [UInt64.toNat_shiftRight, UInt64.toNat_shiftRight, ← Nat.shiftRight_add]
  exact Nat.shiftRight_eq_zero _ _ (Nat.lt_trans h.toNat_lt (by decide))

/-- Folding twice changes nothing. -/
theorem fold_involutive : Function.Involutive fold := by
  intro h
  calc fold (fold h)
      = h ^^^ (h >>> 33) ^^^ ((h >>> 33) ^^^ (h >>> 33 >>> 33)) := by
        rw [fold, fold, UInt64.shiftRight_xor]
    _ = h ^^^ (h >>> 33) ^^^ (h >>> 33) := by rw [shift_shift, UInt64.xor_zero]
    _ = h := by rw [UInt64.xor_assoc, UInt64.xor_self, UInt64.xor_zero]

/-- A multiplier with an inverse loses nothing of a word. -/
theorem mul_mul_cancel {a b : UInt64} (hinverse : a * b = 1) (h : UInt64) : h * a * b = h := by
  rw [UInt64.mul_assoc, hinverse, UInt64.mul_one]

/-- Unmixing takes a mixed word back to the word. -/
theorem unmix64_mix64 : Function.LeftInverse unmix64 mix64 := by
  intro h
  have hfirst : (0xff51afd7ed558ccd : UInt64) * 0x4f74430c22a54005 = 1 := by decide
  have hsecond : (0xc4ceb9fe1a85ec53 : UInt64) * 0x9cb4b2f8129337db = 1 := by decide
  rw [unmix64, mix64_eq, fold_involutive, mul_mul_cancel hsecond, fold_involutive,
    mul_mul_cancel hfirst, fold_involutive]

/-- Mixing takes an unmixed word back to the word. -/
theorem mix64_unmix64 : Function.RightInverse unmix64 mix64 := by
  intro h
  have hfirst : (0x4f74430c22a54005 : UInt64) * 0xff51afd7ed558ccd = 1 := by decide
  have hsecond : (0x9cb4b2f8129337db : UInt64) * 0xc4ceb9fe1a85ec53 = 1 := by decide
  rw [unmix64, mix64_eq, fold_involutive, mul_mul_cancel hfirst, fold_involutive,
    mul_mul_cancel hsecond, fold_involutive]

/-- The first position is the start of the sequence, reduced to the number of bits. -/
theorem positions_head? (hash : UInt64) (hashCount bitCount : Nat) :
    (positions hash (hashCount + 1) bitCount).head? = some ((start hash).toNat % bitCount) := by
  have hpoint : start hash + UInt64.ofNat 0 * step hash = start hash := by
    show start hash + 0 * step hash = _
    rw [UInt64.zero_mul, UInt64.add_zero]
  rw [positions, List.range_succ_eq_map, List.map_cons, List.head?_cons, position, hpoint]

/-- Mixing permutes the words: no two of them mix to the same one, and each is the mix of some word,
which `unmix64` finds. So different hashes start their probe sequences at different words. Only the
reduction to the number of bits can make their first positions coincide. -/
theorem mix64_bijective :
    Function.Bijective mix64 ∧
    (∀ w, mix64 (unmix64 w) = w ∧ unmix64 (mix64 w) = w) ∧
    (∀ a b, start a = start b ↔ a = b) ∧
    (∀ hash hashCount bitCount,
      (positions hash (hashCount + 1) bitCount).head? = some ((start hash).toNat % bitCount)) :=
  ⟨⟨unmix64_mix64.injective, mix64_unmix64.surjective⟩,
    fun w => ⟨mix64_unmix64 w, unmix64_mix64 w⟩,
    fun _ _ => unmix64_mix64.injective.eq_iff,
    positions_head?⟩

end BoundedTables.Probe
