import BoundedTables.Proofs.Toml.Number

/-!
# Written scalars read back

A scalar's written form is cut into tokens that `Value.read?` reads as the scalar again
(`Spells`). Two kinds of scalars need more than to be written. A double has to be the one that its
digits denote, and of texts only those are considered that stand between double quotes as they
are.
-/

namespace BoundedTables.Toml

open Decimal Binary64

/-- A scalar that its written form leads back to. -/
def Legible : Tree → Prop
  | .float x => float? (floatText x).toList = some x
  | .text s => ∀ c ∈ s.toList, Token.isSafe c = true
  | _ => True

/-- A text at the end of a line is cut into tokens from which a scalar is read. -/
structure Spells (text : List Char) (ts : List Token) (v : Tree) : Prop where
  unspaced : Token.Behind Token.isBlank text
  cuts : ∀ {cs : List Char} {us : List Token},
    Token.Cuts ('\n' :: cs) us → Token.Cuts (text ++ '\n' :: cs) (ts ++ us)
  reads : ∀ (fuel : Nat) (us : List Token),
    Value.read? (fuel + 1) (ts ++ .lineEnd :: us) = some (.scalar v, .lineEnd :: us)

variable {text letters whole fraction : List Char} {ts us : List Token} {v : Tree} {n : Int}
  {x : Float} {s : String}

/-- Blanks in front of a scalar end there, also in front of one that is written as nothing. -/
theorem Spells.behind (h : Spells text ts v) (cs : List Char) :
    Token.Behind Token.isBlank (text ++ '\n' :: cs) := by
  cases text with
  | nil => exact Token.behind_cons rfl
  | cons c text => exact Token.behind_cons (h.unspaced c rfl)

/-- A word does not start with a blank. -/
theorem behind_isBlank_of_isLetter (h : ∀ c ∈ letters, Token.isLetter c = true) :
    Token.Behind Token.isBlank letters :=
  fun c hc => (Token.isLetter_cases (h c (List.mem_of_mem_head? hc))).2.1

/-! ## Words -/

/-- A value of one word. -/
theorem Spells.word (hletters : ∀ c ∈ letters, Token.isLetter c = true) (hne : letters ≠ [])
    (hreads : ∀ us, Value.ofWord? letters (.lineEnd :: us) = some (.scalar v, .lineEnd :: us)) :
    Spells letters [.word letters] v where
  unspaced := behind_isBlank_of_isLetter hletters
  cuts h := .word hletters hne (Token.behind_cons rfl) h
  reads fuel us := by
    rw [List.singleton_append, Value.read?]
    exact hreads us

/-- A flag is written as a word from which it is read. -/
theorem Spells.bool (b : Bool) :
    Spells (toString b).toList [.word (toString b).toList] (.bool b) := by
  cases b
  · exact .word (List.all_eq_true.mp (by decide)) (by decide) fun us => rfl
  · exact .word (List.all_eq_true.mp (by decide)) (by decide) fun us => rfl

/-- A word that spells an infinity, or what is not a number. -/
theorem Spells.special (hletters : ∀ c ∈ letters, Token.isLetter c = true)
    (hstart : Value.startsNumber letters = true) (hmoment : Value.startsMoment letters = false)
    (hreads : ∀ us, Number.ofWord? letters (.lineEnd :: us) = some (v, .lineEnd :: us)) :
    Spells letters [.word letters] v := by
  refine .word hletters (by rintro rfl; cases hstart) fun us => ?_
  rw [Value.ofWord?_number hstart hmoment (by simp), hreads us]
  rfl

/-- An integer within a signed word is written as a word from which it is read. -/
theorem Spells.int (hword : isSignedWord n = true) :
    Spells (intText n).toList [.word (intText n).toList] (.int n) := by
  have hnumeral := numeral_toDigits n.natAbs
  have hreads := Number.integer?_intText hword
  rw [toList_intText] at hreads ⊢
  refine .special (isLetter_signed _ hnumeral.digits) (startsNumber_signed hnumeral.toDigitRun)
    (startsMoment_signed hnumeral.toDigitRun) fun us => ?_
  rw [Number.ofWord?_signed hnumeral, Number.special?_signed hnumeral.toDigitRun, hreads]
  rfl

/-! ## Doubles -/

/-- The double nearest to zero is zero, with its sign. -/
theorem read_zero (negative : Bool) : read (nearest negative 0 1) =
    .finite negative 0 leastExponent := by
  cases negative <;> decide +kernel

/-- A whole part and a fraction spell a double that is not too large. -/
theorem Spells.decimal {negative : Bool} (hwhole : Numeral whole) (hfraction : DigitRun fraction)
    (hreads : float? (signed negative whole ++ '.' :: fraction) = some x)
    {mantissa : Nat} {exponent : Int} (hfinite : read x = .finite negative mantissa exponent) :
    Spells (signed negative whole ++ '.' :: fraction)
      [.word (signed negative whole), .mark '.', .word fraction] (.float x) where
  unspaced := by
    obtain ⟨c, rest, heq⟩ := List.exists_cons_of_ne_nil (signed_ne_nil negative
      hwhole.nonempty)
    have hc := isLetter_signed negative hwhole.digits c (by simp [heq])
    rw [heq]
    exact Token.behind_cons (Token.isLetter_cases hc).2.1
  cuts h := by
    have hdigits := Token.Cuts.word (fun c hc => isLetter_of_isDigit (hfraction.digits c hc))
      hfraction.nonempty (Token.behind_cons rfl) h
    have hpoint := Token.Cuts.mark (c := '.') rfl hdigits
    have hall := Token.Cuts.word (isLetter_signed negative hwhole.digits)
      (signed_ne_nil negative hwhole.nonempty) (Token.behind_cons rfl) hpoint
    simpa using hall
  reads fuel us := by
    have hvalue := (float?_signed hwhole.toDigitRun hfraction).symm.trans hreads
    simp only [Option.some.injEq] at hvalue
    rw [List.cons_append, Value.read?, Value.ofWord?_number (startsNumber_signed hwhole.toDigitRun)
      (startsMoment_signed hwhole.toDigitRun) (by simp), Number.ofWord?_signed hwhole]
    simp [Number.double?_signed hwhole hfraction, hvalue, Number.finite?, hfinite]

/-- A double that its digits denote is read back from them. -/
theorem Spells.float (h : float? (floatText x).toList = some x) :
    ∃ ts, Spells (floatText x).toList ts (.float x) := by
  cases hread : read x with
  | nan =>
      have htext : floatText x = "nan" := by simp [floatText, FloatFormat.text, hread]
      rw [htext] at h ⊢
      obtain rfl : 0.0 / 0.0 = x := Option.some.inj h
      exact ⟨_, .special (List.all_eq_true.mp (by decide)) (by decide) (by decide) fun us => rfl⟩
  | infinite negative =>
      have htext : floatText x = if negative then "-inf" else "inf" := by
        simp [floatText, FloatFormat.text, hread]
      rw [htext] at h ⊢
      cases negative with
      | false =>
          obtain rfl : infinity false = x := Option.some.inj h
          exact ⟨_, .special (List.all_eq_true.mp (by decide)) (by decide) (by decide)
            fun us => rfl⟩
      | true =>
          obtain rfl : infinity true = x := Option.some.inj h
          exact ⟨_, .special (List.all_eq_true.mp (by decide)) (by decide) (by decide)
            fun us => rfl⟩
  | finite negative mantissa exponent =>
      obtain ⟨whole, fraction, htext, hwhole, hfraction, hnumeral | ⟨hmantissa, hzero⟩⟩ :=
        toList_floatText hread
      · rw [htext] at h ⊢
        exact ⟨_, .decimal hnumeral hfraction h hread⟩
      · -- Nothing but zeros would be read as zero, which this double is not.
        rw [htext, float?_signed hwhole hfraction, hzero] at h
        obtain rfl : nearest negative 0 1 = x := Option.some.inj h
        rw [read_zero] at hread
        cases hread
        exact absurd rfl hmantissa

/-! ## Texts -/

/-- A character that does not occur has no run. -/
theorem longestRun_eq_zero {c : Char} (h : c ∉ text) : longestRun c text = 0 := by
  unfold longestRun
  dsimp only
  induction text with
  | nil => rfl
  | cons d text ih =>
      obtain ⟨hd, htext⟩ := not_or.mp (mt List.mem_cons.mpr h)
      rw [List.foldl_cons, if_neg (Ne.symm hd)]
      exact ih htext

/-- A safe character is no control character, and is not escaped. -/
theorem escape?_safe (multiline : Bool) {c : Char} (h : Token.isSafe c = true) :
    isControl c = false ∧ c ≠ '\n' ∧ escape? multiline c = none := by
  simp only [Token.isSafe, Bool.and_eq_true, decide_eq_true_eq, bne_iff_ne] at h
  obtain ⟨⟨⟨hcode, hdelete⟩, -⟩, hescape⟩ := h
  have hcontrol : isControl c = false := by simp [isControl, hdelete, Nat.not_lt.mpr hcode]
  have hother : ∀ {d : Char}, d.toNat < 32 → c ≠ d := by
    rintro _ hd rfl
    omega
  have hend : c ≠ '\n' := hother (by decide)
  have htab : c ≠ '\t' := hother (by decide)
  have hreturn : c ≠ '\r' := hother (by decide)
  have hback : c.toNat ≠ 8 := by omega
  have hfeed : c.toNat ≠ 12 := by omega
  refine ⟨hcontrol, hend, ?_⟩
  simp [escape?, hend, htab, hreturn, hescape, hback, hfeed, hcontrol]

/-- Safe characters are not escaped. -/
theorem escapeAll_safe {q : Quoting} (h : ∀ c ∈ text, Token.isSafe c = true) :
    escapeAll q 0 text = text := by
  induction text with
  | nil => rfl
  | cons c text ih =>
      obtain ⟨hc, htext⟩ := List.forall_mem_cons.mp h
      rw [escapeAll, if_neg (Token.isSafe_cases hc).1, (escape?_safe q.multiline hc).2.2, ih htext]
      rfl

/-- Double quotes stand around a safe text, and nothing in it is escaped. -/
theorem quote_safe (h : ∀ c ∈ s.toList, Token.isSafe c = true) :
    (quote s).toList = '"' :: s.toList ++ ['"'] := by
  have hcontrol : s.toList.any isControl = false :=
    List.any_eq_false.mpr fun c hc => by simp [(escape?_safe false (h c hc)).1]
  have hescape : '\\' ∉ s.toList := fun hc => (Token.isSafe_cases (h _ hc)).2.1 rfl
  have hend : '\n' ∉ s.toList := fun hc => (escape?_safe false (h _ hc)).2.1 rfl
  have hrun : longestRun '"' s.toList = 0 :=
    longestRun_eq_zero fun hc => (Token.isSafe_cases (h _ hc)).1 rfl
  have hfits : (Quoting.basic false).fits s.toList = true := by
    simp [Quoting.fits, Quoting.basic, hcontrol, hescape, hend, hrun]
  have hquoting : quoting s.toList = .basic false := by
    simp [quoting, hfits]
  simp only [quote, hquoting]
  simp [Quoting.basic, Quoting.marks, escapeAll_safe h]

/-- A text of safe characters is written in quotes, and read from within them. -/
theorem Spells.string (h : ∀ c ∈ s.toList, Token.isSafe c = true) :
    Spells (quote s).toList [.string false s] (.text s) := by
  rw [quote_safe h]
  refine ⟨?_, fun hcuts => ?_, fun fuel us => rfl⟩
  · exact Token.behind_cons rfl
  · have hstring := Token.Cuts.string h (Token.behind_cons rfl) hcuts
    simpa using hstring

/-- Every scalar that is written, and that its written form leads back to, is read back. -/
theorem spells_of_scalar? {s : String} (h : scalar? v = some s) (hlegible : Legible v) :
    ∃ ts, Spells s.toList ts v := by
  cases v with
  | bool b =>
      obtain rfl := Option.some.inj h
      exact ⟨_, .bool b⟩
  | int n =>
      by_cases hword : isSignedWord n = true
      · rw [scalar?, if_pos hword] at h
        obtain rfl := Option.some.inj h
        exact ⟨_, .int hword⟩
      · rw [scalar?, if_neg hword] at h
        cases h
  | float x =>
      obtain rfl := Option.some.inj h
      exact Spells.float hlegible
  | text s =>
      obtain rfl := Option.some.inj h
      exact ⟨_, .string hlegible⟩
  | nil | list | table => cases h

end BoundedTables.Toml
