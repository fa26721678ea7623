import BoundedTables.Toml.Text
import BoundedTables.Toml.Value
import BoundedTables.Proofs.Decimal.Digits
import BoundedTables.Proofs.Toml.Token

/-!
# Written numbers read back

What an integer and a double are written as, cut into words, and what these words are read as. An
integer is a numeral behind its sign. A double has a fraction as well, and `Decimal.float?` and the
document read the same number from the two.
-/

namespace BoundedTables.Toml

open Decimal Binary64

variable {negative : Bool} {cs whole fraction : List Char} {ts : List Token}

/-- Digits behind their sign. -/
def signed (negative : Bool) (cs : List Char) : List Char := if negative then '-' :: cs else cs

/-- An integer is written in decimal digits, behind a sign if it is negative. -/
theorem toList_intText (n : Int) :
    (intText n).toList = signed (decide (n < 0)) (Nat.toDigits 10 n.natAbs) := by
  unfold intText signed natText
  split <;> simp_all

/-- The sign in front of digits is split off, whatever follows them. -/
theorem splitSign_signed_append (h : DigitRun cs) (ds : List Char) :
    splitSign (signed negative cs ++ ds) = (negative, cs ++ ds) := by
  cases negative
  · exact h.splitSign ds
  · exact splitSign_minus (cs ++ ds)

/-- The sign in front of digits is split off. -/
theorem splitSign_signed (h : DigitRun cs) : splitSign (signed negative cs) = (negative, cs) := by
  have happend : splitSign (signed negative cs ++ []) = _ := splitSign_signed_append h []
  simpa using happend

/-! ## Words -/

/-- Digits are letters of a word. -/
theorem isLetter_of_isDigit {c : Char} (h : c.isDigit = true) : Token.isLetter c = true := by
  simp [Token.isLetter, Char.isAlphanum, h]

/-- Signed digits are letters of a word. -/
theorem isLetter_signed (negative : Bool) (h : ∀ c ∈ cs, c.isDigit = true) :
    ∀ c ∈ signed negative cs, Token.isLetter c = true := by
  intro c hc
  cases negative
  · exact isLetter_of_isDigit (h c hc)
  · rcases List.mem_cons.mp hc with rfl | hc
    · rfl
    · exact isLetter_of_isDigit (h c hc)

/-- Some digits behind their sign are not empty. -/
theorem signed_ne_nil (negative : Bool) (h : cs ≠ []) : signed negative cs ≠ [] := by
  cases negative
  · exact h
  · exact List.cons_ne_nil '-' cs

/-- A digit is no letter of an exponent or a date. -/
theorem isDigit_cases {c : Char} (h : c.isDigit = true) :
    Number.isExponentMark c = false ∧ c ≠ 'T' ∧ c ≠ 't' ∧ c ≠ '-' ∧ c ≠ '_' := by
  refine ⟨?_, ?_, ?_, ?_, ?_⟩
  · rw [Bool.eq_false_iff]
    intro hmark
    rcases (by simpa [Number.isExponentMark] using hmark : c = 'e' ∨ c = 'E') with rfl | rfl <;>
      cases h
  all_goals
    rintro rfl
    cases h

/-- Signed digits have no exponent. -/
theorem any_isExponentMark_signed (h : ∀ c ∈ cs, c.isDigit = true) :
    (signed negative cs).any Number.isExponentMark = false := by
  have hdigits : cs.any Number.isExponentMark = false :=
    List.any_eq_false.mpr fun c hc => by simp [(isDigit_cases (h c hc)).1]
  cases negative
  · exact hdigits
  · exact hdigits

/-- Signed digits start like a number. -/
theorem startsNumber_signed (h : DigitRun cs) : Value.startsNumber (signed negative cs) = true := by
  obtain ⟨c, rest, rfl⟩ := List.exists_cons_of_ne_nil h.nonempty
  have hdigit := h.digits c List.mem_cons_self
  cases negative <;> simp [signed, Value.startsNumber, hdigit]

/-- Signed digits do not start like a date or a time. -/
theorem startsMoment_signed (h : DigitRun cs) :
    Value.startsMoment (signed negative cs) = false := by
  have hletters : (signed negative cs).any (fun c => c = 'T' || c = 't') = false := by
    have hdigits : cs.any (fun c => c = 'T' || c = 't') = false :=
      List.any_eq_false.mpr fun c hc => by simp [(isDigit_cases (h.digits c hc)).2.1,
        (isDigit_cases (h.digits c hc)).2.2.1]
    cases negative
    · exact hdigits
    · exact hdigits
  have hdash : ((signed negative cs).drop 1).contains '-' = false := by
    rw [Bool.eq_false_iff, ne_eq, List.contains_iff_mem]
    intro hmem
    have hcs : '-' ∈ cs := by
      cases negative
      · exact List.mem_of_mem_drop hmem
      · exact hmem
    exact (isDigit_cases (h.digits '-' hcs)).2.2.2.1 rfl
  rw [Value.startsMoment, hletters, hdash]
  rfl

/-- A word that starts a number, and no date, is read as a number. -/
theorem Value.ofWord?_number (hstart : Value.startsNumber cs = true)
    (hmoment : Value.startsMoment cs = false) (hcolon : ts.head? ≠ some (.mark ':')) :
    Value.ofWord? cs ts = (Number.ofWord? cs ts).map fun (t, ts) => (.scalar t, ts) := by
  unfold Value.ofWord?
  split
  · cases hstart
  · cases hstart
  · simp [hstart, hmoment, hcolon]

/-! ## Digits -/

/-- Digits without underscores are read to their end. -/
theorem Number.groups?_digits (h : DigitRun cs) :
    Number.groups? Char.isDigit cs = some (cs, []) := by
  induction cs with
  | nil => exact absurd rfl h.nonempty
  | cons c cs ih =>
      obtain ⟨hc, hcs⟩ := List.forall_mem_cons.mp h.digits
      cases cs with
      | nil => simp [Number.groups?, hc]
      | cons d cs =>
          obtain ⟨hd, -⟩ := List.forall_mem_cons.mp hcs
          have hgap : d ≠ '_' := (isDigit_cases hd).2.2.2.2
          rw [Number.groups?.eq_def]
          simp [hc, hd, ih ⟨List.cons_ne_nil d cs, hcs⟩]

/-- Digits are read to their end, if zeros may come first. -/
theorem Number.digits?_digits (h : DigitRun cs) : Number.digits? true cs = some (cs, []) := by
  simp [Number.digits?, Number.groups?_digits h]

/-- A numeral is read to its end, even if no zero may come first. -/
theorem Number.digits?_numeral (h : Numeral cs) : Number.digits? false cs = some (cs, []) := by
  simp only [Number.digits?, Number.groups?_digits h.toDigitRun, Option.bind_eq_bind,
    Option.bind_some]
  rcases h.leading with rfl | hhead
  · rfl
  · split
    · exact absurd rfl hhead
    · rfl

/-! ## Numbers -/

/-- A numeral is written in base ten, and where a fraction follows it is a double. -/
theorem Number.ofWord?_signed (h : Numeral cs) :
    Number.ofWord? (signed negative cs) ts =
      match ts with
      | .mark '.' :: .word fraction :: ts =>
          Number.double? (signed negative cs) (some fraction) ts
      | .mark '.' :: _ => none
      | _ => ((Number.special? (signed negative cs)).or
          (Number.integer? (signed negative cs))).map (·, ts) := by
  have hbase : ∀ {c : Char} {rest : List Char}, signed negative cs = '0' :: c :: rest → False := by
    intro c rest hword
    cases negative with
    | true => cases (List.cons.inj hword).1
    | false =>
        rcases h.leading with rfl | hhead
        · cases hword
        · exact hhead (by rw [show cs = '0' :: c :: rest from hword]; rfl)
  unfold Number.ofWord?
  split
  · exact (hbase ‹_›).elim
  · exact (hbase ‹_›).elim
  · exact (hbase ‹_›).elim
  · rw [any_isExponentMark_signed h.digits]
    rfl

/-- Signed digits are no special number. -/
theorem Number.special?_signed (h : DigitRun cs) : Number.special? (signed negative cs) = none := by
  unfold Number.special?
  rw [splitSign_signed h]
  split
  · rename_i heq
    cases heq
    cases h.digits 'i' List.mem_cons_self
  · rename_i heq
    cases heq
    cases h.digits 'n' List.mem_cons_self
  · rfl

/-- An integer is read back from its digits. -/
theorem Number.integer?_intText {n : Int} (hword : isSignedWord n = true) :
    Number.integer? (intText n).toList = some (.int n) := by
  have hnumeral := numeral_toDigits n.natAbs
  have hvalue : (if n < 0 then -(n.natAbs : Int) else n.natAbs) = n := by split <;> omega
  rw [toList_intText]
  simp only [Number.integer?, splitSign_signed hnumeral.toDigitRun, Number.digits?_numeral hnumeral,
    foldDigits_toDigits, Option.bind_eq_bind, Option.bind_some, if_true, decide_eq_true_eq, hvalue]
  rw [Number.fitting?, if_pos hword]

/-! ## Doubles -/

/-- What a document reads from a whole part and a fraction. -/
theorem Number.double?_signed (hwhole : Numeral whole) (hfraction : DigitRun fraction) :
    Number.double? (signed negative whole) (some fraction) ts =
      (Number.finite? (ofDecimal negative (foldDigits 10 0 (whole ++ fraction))
        (-fraction.length))).map (·, ts) := by
  simp only [Number.double?, splitSign_signed hwhole.toDigitRun, Number.digits?_numeral hwhole,
    Number.digits?_digits hfraction, Number.exponent?, Option.bind_eq_bind, Option.bind_some,
    Int.zero_sub]
  exact (Option.map_eq_bind ..).symm

/-- What is read from the same characters apart from a document. -/
theorem float?_signed (hwhole : DigitRun whole) (hfraction : DigitRun fraction) :
    float? (signed negative whole ++ '.' :: fraction) =
      some (ofDecimal negative (foldDigits 10 0 (whole ++ fraction)) (-fraction.length)) := by
  have hpoint : Token.Behind Char.isDigit ('.' :: fraction) := Token.behind_cons rfl
  have hend : Token.Behind Char.isDigit [] := Token.behind_nil _
  have hnumber : unsignedFloat? negative (whole ++ '.' :: fraction) =
      some (ofDecimal negative (foldDigits 10 0 (whole ++ fraction)) (-fraction.length)) := by
    have htake : fraction.takeWhile Char.isDigit = fraction := by
      simpa using Token.takeWhile_append_behind hfraction.digits hend
    have hdrop : fraction.dropWhile Char.isDigit = [] := by
      simpa using Token.dropWhile_append_behind hfraction.digits hend
    simp [unsignedFloat?, Token.takeWhile_append_behind hwhole.digits hpoint,
      Token.dropWhile_append_behind hwhole.digits hpoint, htake, hdrop, hwhole.nonempty,
      exponent?, foldDigits_append]
  obtain ⟨c, rest, rfl⟩ := List.exists_cons_of_ne_nil hwhole.nonempty
  have hdigit := hwhole.digits c List.mem_cons_self
  have hword : ∀ {s : String}, String.ofList ((c :: rest ++ '.' :: fraction).map Char.toLower) = s →
      s.toList.head? = some c := by
    rintro _ rfl
    simp [toLower_of_isDigit hdigit]
  unfold float?
  rw [splitSign_signed_append hwhole]
  dsimp only
  split
  · cases hword ‹_›
    cases hdigit
  · cases hword ‹_›
    cases hdigit
  · cases hword ‹_›
    cases hdigit
  · exact hnumber

/-- The decimal form of a positive number: a whole part and a fraction. The whole part has a zero
in front only if all digits are zeros. -/
theorem positional_eq (d : Digits) : ∃ whole fraction : List Char,
    (positional ".0" d).toList = whole ++ '.' :: fraction ∧
      DigitRun whole ∧ DigitRun fraction ∧
      (Numeral whole ∨ foldDigits 10 0 (whole ++ fraction) = 0) := by
  have hdigits := numeral_toDigits d.digits
  unfold positional
  dsimp only
  split
  · refine ⟨Nat.toDigits 10 d.digits ++ zeros d.exponent.natAbs, ['0'], by simp,
      hdigits.toDigitRun.append isDigit_zeros, ⟨by simp, by simp⟩, ?_⟩
    rcases Nat.eq_zero_or_pos d.digits with hzero | hpos
    · right
      rw [foldDigits_append, foldDigits_append, foldDigits_toDigits, hzero, foldDigits_zeros]
      rfl
    · exact .inl (hdigits.append (head?_toDigits hpos) isDigit_zeros)
  · split
    · rename_i hexponent hplaces
      rw [List.splitAt_eq]
      refine ⟨_, _, String.toList_ofList, (hdigits.take (by omega)).toDigitRun, ⟨?_, ?_⟩,
        .inl (hdigits.take (by omega))⟩
      · refine List.ne_nil_of_length_pos ?_
        rw [List.length_drop]
        omega
      · exact fun c hc => hdigits.digits c (List.mem_of_mem_drop hc)
    · refine ⟨['0'], _, String.toList_ofList, ⟨by simp, by simp⟩, ⟨?_, ?_⟩,
        .inl ⟨⟨by simp, by simp⟩, .inl rfl⟩⟩
      · exact List.append_ne_nil_of_right_ne_nil _ hdigits.nonempty
      · intro c hc
        rcases List.mem_append.mp hc with hc | hc
        · exact isDigit_zeros c hc
        · exact hdigits.digits c hc

/-- A finite double has a sign, a whole part and a fraction. -/
theorem toList_floatText {x : Float} {mantissa : Nat} {exponent : Int}
    (hread : read x = .finite negative mantissa exponent) : ∃ whole fraction : List Char,
      (floatText x).toList = signed negative whole ++ '.' :: fraction ∧
        DigitRun whole ∧ DigitRun fraction ∧
        (Numeral whole ∨ mantissa ≠ 0 ∧ foldDigits 10 0 (whole ++ fraction) = 0) := by
  unfold floatText FloatFormat.text
  simp only [hread]
  split
  · have hzero : Numeral ['0'] := ⟨⟨by simp, by simp⟩, .inl rfl⟩
    exact ⟨['0'], ['0'], by cases negative <;> rfl, hzero.toDigitRun, hzero.toDigitRun, .inl hzero⟩
  · rename_i hmantissa
    obtain ⟨whole, fraction, htext, hwhole, hfraction, hleading⟩ :=
      positional_eq (shortest FloatFormat.fractional.tie mantissa exponent)
    refine ⟨whole, fraction, ?_, hwhole, hfraction, hleading.imp_right fun h => ⟨hmantissa, h⟩⟩
    have hwrite : ((FloatFormat.fractional.write
        (shortest FloatFormat.fractional.tie mantissa exponent)).toList) =
          whole ++ '.' :: fraction := htext
    cases negative <;> simp [hwrite, signed]

end BoundedTables.Toml
