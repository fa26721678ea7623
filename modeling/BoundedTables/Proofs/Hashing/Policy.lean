import BoundedTables.Hashing.Policy

/-!
# What monitoring leaves alone

Recording a lookup changes counters and the journal, but never the comparer. Equal keys of a
lawful comparer have equal masked hashes, and both built-in comparers are lawful: they take no two
keys for equal.
-/

namespace BoundedTables.Hashing

variable {κ : Type}

@[simp] theorem KeyHasher.record_comparer (h : KeyHasher κ) (visited : Nat) (j : Journal) :
    (h.record visited j).1.comparer = h.comparer := by
  unfold KeyHasher.record
  cases h.monitor <;> rfl

/-- Equal keys have equal masked hashes. -/
theorem Comparer.Lawful.code_eq {c : Comparer κ} (hc : c.Lawful) {a b : κ}
    (h : c.equals a b = true) : c.code a = c.code b := by
  rw [Comparer.code, hc.hash_eq a b h, Comparer.code]

/-- Any hash respects the equality of values. -/
theorem Comparer.lawful_of_decide [DecidableEq κ] {c : Comparer κ}
    (h : ∀ a b, c.equals a b = decide (a = b)) : c.Lawful where
  refl a := by simp [h]
  symm a b := by simp [h, eq_comm]
  trans a b d := by
    simp only [h, decide_eq_true_eq]
    exact Eq.trans
  hash_eq a b := by
    simp only [h, decide_eq_true_eq]
    exact congrArg c.hash

/-- The natural comparer is lawful, whatever the hash of bytes is. -/
theorem Comparer.natural_lawful [ByteHash] [ByteKey κ] [DecidableEq κ] :
    (Comparer.natural : Comparer κ).Lawful :=
  lawful_of_decide fun _ _ => rfl

/-- A comparer that takes no two keys for equal. -/
def Comparer.Exact [DecidableEq κ] (c : Comparer κ) : Prop :=
  ∀ a b, c.equals a b = decide (a = b)

/-- An exact comparer is lawful. -/
theorem Comparer.Exact.lawful [DecidableEq κ] {c : Comparer κ} (h : c.Exact) : c.Lawful :=
  lawful_of_decide h

end BoundedTables.Hashing
