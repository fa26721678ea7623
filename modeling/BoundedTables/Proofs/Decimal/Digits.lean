import BoundedTables.Decimal.Scan
import BoundedTables.Decimal.Text

/-!
# Digits read back

The digits of a number are read back as the number, and a number that is not zero has no zero in
front. A `DigitRun` without such a zero is a `Numeral`.
-/

namespace BoundedTables.Decimal

variable {cs : List Char} {n : Nat}

/-- Some digits, at least one. -/
structure DigitRun (cs : List Char) : Prop where
  nonempty : cs ≠ []
  digits : ∀ c ∈ cs, c.isDigit = true

/-- Some digits, the first of them no zero unless it is the only one. -/
structure Numeral (cs : List Char) : Prop extends DigitRun cs where
  leading : cs = ['0'] ∨ cs.head? ≠ some '0'

/-- Digits are read on from the number that the digits in front of them denote. -/
theorem foldDigits_append (base start : Nat) (cs ds : List Char) :
    foldDigits base start (cs ++ ds) = foldDigits base (foldDigits base start cs) ds :=
  List.foldl_append

/-- Decimal digits denote the number that the standard library reads. -/
theorem foldDigits_eq_ofDigitChars (start : Nat) (cs : List Char) :
    foldDigits 10 start cs = Nat.ofDigitChars 10 cs start := by
  have hstep : (fun n c => n * 10 + digitValue c) = fun n c => 10 * n + (c.toNat - '0'.toNat) := by
    funext n c
    rw [Nat.mul_comm]
    rfl
  rw [foldDigits, hstep, Nat.ofDigitChars_eq_foldl]

/-- The decimal digits of a number denote it. -/
theorem foldDigits_toDigits (n : Nat) : foldDigits 10 0 (Nat.toDigits 10 n) = n := by
  rw [foldDigits_eq_ofDigitChars, Nat.ofDigitChars_ten_toDigits]

/-- The decimal digits of a number are digits. -/
theorem isDigit_of_mem_toDigits {c : Char} (h : c ∈ Nat.toDigits 10 n) : c.isDigit = true :=
  Nat.isDigit_of_mem_toDigits (by decide) (by decide) h

/-- A digit that is not zero is not written as one. -/
theorem digitChar_ne_zero (hpos : 0 < n) (hlt : n < 10) : n.digitChar ≠ '0' := by
  have hall : ∀ d < 10, 0 < d → d.digitChar ≠ '0' := by decide
  exact hall n hlt hpos

/-- A number that is not zero has no zero in front. -/
theorem head?_toDigits (hpos : 0 < n) : (Nat.toDigits 10 n).head? ≠ some '0' := by
  induction n using Nat.strongRecOn with
  | ind n ih =>
      rw [Nat.toDigits_eq_if (by decide)]
      split
      · rename_i hlt
        simpa using digitChar_ne_zero hpos hlt
      · have hquotient := ih (n / 10) (by omega) (by omega)
        obtain ⟨c, rest, hcons⟩ := List.exists_cons_of_ne_nil (Nat.toDigits_ne_nil (b := 10)
          (n := n / 10))
        rw [hcons] at hquotient ⊢
        exact hquotient

/-- The decimal digits of a number have no zero in front. -/
theorem numeral_toDigits (n : Nat) : Numeral (Nat.toDigits 10 n) where
  nonempty := Nat.toDigits_ne_nil
  digits _ := isDigit_of_mem_toDigits
  leading := by
    rcases Nat.eq_zero_or_pos n with rfl | hpos
    · exact .inl rfl
    · exact .inr (head?_toDigits hpos)

/-- Digits go on behind others. -/
theorem DigitRun.append (h : DigitRun cs) {ds : List Char} (hds : ∀ c ∈ ds, c.isDigit = true) :
    DigitRun (cs ++ ds) where
  nonempty := List.append_ne_nil_of_left_ne_nil h.nonempty ds
  digits := by
    intro c hc
    rcases List.mem_append.mp hc with hc | hc
    · exact h.digits c hc
    · exact hds c hc

/-- Digits go on behind a numeral that is not zero. -/
theorem Numeral.append (h : Numeral cs) (hhead : cs.head? ≠ some '0') {ds : List Char}
    (hds : ∀ c ∈ ds, c.isDigit = true) : Numeral (cs ++ ds) where
  toDigitRun := h.toDigitRun.append hds
  leading := by
    obtain ⟨c, rest, rfl⟩ := List.exists_cons_of_ne_nil h.nonempty
    exact .inr hhead

/-- The digits in front of a place are a numeral. -/
theorem Numeral.take (h : Numeral cs) (hn : 0 < n) : Numeral (cs.take n) := by
  obtain ⟨c, rest, rfl⟩ := List.exists_cons_of_ne_nil h.nonempty
  obtain ⟨n, rfl⟩ := Nat.exists_eq_succ_of_ne_zero (Nat.pos_iff_ne_zero.mp hn)
  refine ⟨⟨by simp, fun d hd => h.digits d (List.mem_of_mem_take hd)⟩, ?_⟩
  rcases h.leading with hzero | hhead
  · obtain ⟨rfl, rfl⟩ := List.cons.inj hzero
    exact .inl (by simp)
  · exact .inr (by simpa using hhead)

/-- Digits have no case. -/
theorem toLower_of_isDigit {c : Char} (h : c.isDigit = true) : c.toLower = c := by
  have hcode : c.val.toNat ≤ 57 := by
    simp only [Char.isDigit, Bool.and_eq_true, decide_eq_true_eq] at h
    exact UInt32.le_iff_toNat_le.mp h.2
  refine dif_neg fun hupper => ?_
  have hletter : 65 ≤ c.val.toNat := UInt32.le_iff_toNat_le.mp hupper.1
  omega

/-- Zeros are digits. -/
theorem isDigit_zeros {count : Nat} : ∀ c ∈ zeros count, c.isDigit = true := by
  intro c hc
  rw [List.eq_of_mem_replicate hc]
  rfl

/-- Zeros denote zero. -/
theorem foldDigits_zeros {count : Nat} : foldDigits 10 0 (zeros count) = 0 := by
  induction count with
  | zero => rfl
  | succ count ih => exact ih

/-- A sign is split off, and a digit is none. -/
theorem splitSign_minus (cs : List Char) : splitSign ('-' :: cs) = (true, cs) := rfl

/-- A run of digits has no sign. -/
theorem DigitRun.splitSign (h : DigitRun cs) (ds : List Char) :
    splitSign (cs ++ ds) = (false, cs ++ ds) := by
  obtain ⟨c, rest, rfl⟩ := List.exists_cons_of_ne_nil h.nonempty
  have hdigit := h.digits c List.mem_cons_self
  unfold Decimal.splitSign
  split
  · rename_i heq
    obtain ⟨rfl, -⟩ := List.cons.inj heq
    cases hdigit
  · rename_i heq
    obtain ⟨rfl, -⟩ := List.cons.inj heq
    cases hdigit
  · rfl

end BoundedTables.Decimal
