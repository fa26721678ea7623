import BoundedTables.Toml.Token

/-!
# Texts cut into tokens

`Cuts cs ts` builds a text up from its end, together with its tokens: each token is put in front of
a text that does not go on with it. What is built so is scanned into these tokens (`Cuts.scan?`).
Of strings, only those on one line that need no escapes are built.
-/

namespace BoundedTables.Toml.Token

/-- A character that stands for itself between double quotes. -/
def isSafe (c : Char) : Bool := 32 ≤ c.toNat && c.toNat != 127 && c != '"' && c != '\\'

/-- No character with a property comes first. -/
def Behind (p : Char → Bool) (cs : List Char) : Prop := ∀ c ∈ cs.head?, p c = false

/-- A text and its tokens. -/
inductive Cuts : List Char → List Token → Prop
  | nil : Cuts [] []
  | lineEnd {cs : List Char} {ts : List Token} (rest : Cuts cs ts) :
      Cuts ('\n' :: cs) (.lineEnd :: ts)
  | blanks {run cs : List Char} {ts : List Token} (blank : ∀ c ∈ run, isBlank c = true)
      (nonempty : run ≠ []) (behind : Behind isBlank cs) (rest : Cuts cs ts) :
      Cuts (run ++ cs) (.blanks run :: ts)
  | mark {c : Char} {cs : List Char} {ts : List Token} (mark : isMark c = true)
      (rest : Cuts cs ts) :
      Cuts (c :: cs) (.mark c :: ts)
  | word {letters cs : List Char} {ts : List Token} (letter : ∀ c ∈ letters, isLetter c = true)
      (nonempty : letters ≠ []) (behind : Behind isLetter cs) (rest : Cuts cs ts) :
      Cuts (letters ++ cs) (.word letters :: ts)
  | string {text cs : List Char} {ts : List Token} (safe : ∀ c ∈ text, isSafe c = true)
      (behind : Behind (· = '"') cs) (rest : Cuts cs ts) :
      Cuts ('"' :: text ++ '"' :: cs) (.string false (String.ofList text) :: ts)

variable {c : Char} {cs run text : List Char} {ts : List Token}

/-! ## Kinds of characters -/

/-- At the end of a text, no character comes first. -/
theorem behind_nil (p : Char → Bool) : Behind p [] := by rintro _ ⟨⟩

/-- The character that comes first decides. -/
theorem behind_cons {p : Char → Bool} (h : p c = false) : Behind p (c :: cs) := by
  rintro _ ⟨⟩
  exact h

/-- A blank is a space or a tab. -/
theorem isBlank_cases (h : isBlank c = true) : c = ' ' ∨ c = '\t' := by
  simpa [isBlank] using h

/-- A mark is one of nine characters. -/
theorem isMark_cases (h : isMark c = true) :
    c ∈ ['=', '.', ',', ':', '+', '\x7b', '\x7d', '[', ']'] := by
  simpa [isMark] using h

/-- A character of a word is of no other kind. -/
theorem isLetter_cases (h : isLetter c = true) :
    c ≠ '\n' ∧ isBlank c = false ∧ c ≠ '#' ∧ isMark c = false := by
  refine ⟨?_, ?_, ?_, ?_⟩
  · rintro rfl
    cases h
  · rw [Bool.eq_false_iff]
    intro hblank
    rcases isBlank_cases hblank with rfl | rfl <;> cases h
  · rintro rfl
    cases h
  · rw [Bool.eq_false_iff]
    intro hmark
    have hmem := isMark_cases hmark
    simp only [List.mem_cons, List.not_mem_nil, or_false] at hmem
    rcases hmem with rfl | rfl | rfl | rfl | rfl | rfl | rfl | rfl | rfl <;> cases h

/-- A run is taken as a whole when what follows does not go on with it. -/
theorem takeWhile_append_behind {p : Char → Bool} (hall : ∀ c ∈ run, p c = true)
    (hbehind : Behind p cs) : (run ++ cs).takeWhile p = run := by
  rw [List.takeWhile_append_of_pos hall]
  cases cs with
  | nil => simp
  | cons c cs => rw [List.takeWhile_cons_of_neg (by simp [hbehind c rfl]), List.append_nil]

/-- A run is dropped as a whole when what follows does not go on with it. -/
theorem dropWhile_append_behind {p : Char → Bool} (hall : ∀ c ∈ run, p c = true)
    (hbehind : Behind p cs) : (run ++ cs).dropWhile p = cs := by
  rw [List.dropWhile_append_of_pos hall]
  cases cs with
  | nil => rfl
  | cons c cs => rw [List.dropWhile_cons_of_neg (by simp [hbehind c rfl])]

/-- A safe character is none of those that a quoted text treats apart. -/
theorem isSafe_cases (h : isSafe c = true) : c ≠ '"' ∧ c ≠ '\\' ∧ c ≠ '\r' ∧ isPlain c = true := by
  simp only [isSafe, Bool.and_eq_true, decide_eq_true_eq, bne_iff_ne] at h
  obtain ⟨⟨⟨hcode, hdelete⟩, hquote⟩, hescape⟩ := h
  refine ⟨hquote, hescape, ?_, by simp [isPlain, isCommentChar, hcode, hdelete]⟩
  rintro rfl
  revert hcode
  decide

/-! ## Scanning -/

/-- Safe characters are read up to the closing quote. -/
theorem enclosed?_safe (hsafe : ∀ c ∈ text, isSafe c = true) {fuel : Nat}
    (hfuel : text.length < fuel) (read cs : List Char) :
    enclosed? '"' false fuel read (text ++ '"' :: cs) =
      some (String.ofList (read.reverse ++ text), cs) := by
  induction text generalizing fuel read with
  | nil =>
      obtain ⟨fuel, rfl⟩ := Nat.exists_eq_succ_of_ne_zero (Nat.ne_of_gt hfuel)
      simp [enclosed?]
  | cons c text ih =>
      obtain ⟨fuel, rfl⟩ := Nat.exists_eq_succ_of_ne_zero (Nat.ne_zero_of_lt hfuel)
      obtain ⟨hquote, hescape, -, hplain⟩ := isSafe_cases (hsafe c List.mem_cons_self)
      have hrest := ih (fun d hd => hsafe d (List.mem_cons_of_mem c hd))
        (Nat.lt_of_succ_lt_succ hfuel) (c :: read)
      simp [enclosed?, hquote, hescape, hplain, hrest]

/-- A safe string is read up to its closing quote. -/
theorem string?_safe (hsafe : ∀ c ∈ text, isSafe c = true) (hbehind : Behind (· = '"') cs) :
    string? '"' (text ++ '"' :: cs) = some (.string false (String.ofList text), cs) := by
  have hsingle : decide ((text ++ '"' :: cs).take 2 = ['"', '"']) = false := by
    refine decide_eq_false fun htwo => ?_
    cases text with
    | nil =>
        cases cs with
        | nil => cases htwo
        | cons c cs =>
            have hc := hbehind c rfl
            obtain rfl : c = '"' := by simpa using htwo
            cases hc
    | cons c text =>
        obtain ⟨hquote, -⟩ := isSafe_cases (hsafe c List.mem_cons_self)
        exact hquote (List.cons.inj htwo).1
  unfold string?
  simp only [hsingle, Bool.not_false, if_true]
  rw [enclosed?_safe hsafe (by rw [List.length_append]; omega)]
  rfl

/-- A text is scanned into its tokens. -/
theorem Cuts.scanAll? (h : Cuts cs ts) {fuel : Nat} (hfuel : cs.length ≤ fuel) (read : List Token) :
    scanAll? fuel read cs = some (read.reverse ++ ts) := by
  induction h generalizing fuel read with
  | nil => cases fuel <;> simp [Token.scanAll?]
  | lineEnd _ ih =>
      obtain ⟨fuel, rfl⟩ := Nat.exists_eq_succ_of_ne_zero (Nat.ne_zero_of_lt hfuel)
      rw [Token.scanAll?, if_pos rfl, ih (Nat.le_of_succ_le_succ hfuel)]
      simp
  | @blanks run cs ts hblank hne hbehind _ ih =>
      obtain ⟨c, run, rfl⟩ := List.exists_cons_of_ne_nil hne
      obtain ⟨fuel, rfl⟩ := Nat.exists_eq_succ_of_ne_zero (Nat.ne_zero_of_lt hfuel)
      obtain ⟨hc, hrun⟩ := List.forall_mem_cons.mp hblank
      have hline : c ≠ '\n' := by rcases isBlank_cases hc with rfl | rfl <;> decide
      rw [List.cons_append, Token.scanAll?, if_neg hline, if_pos hc,
        takeWhile_append_behind hrun hbehind, dropWhile_append_behind hrun hbehind,
        ih (by simp at hfuel; omega)]
      simp
  | @mark c cs ts hmark _ ih =>
      obtain ⟨fuel, rfl⟩ := Nat.exists_eq_succ_of_ne_zero (Nat.ne_zero_of_lt hfuel)
      have hothers : c ≠ '\n' ∧ isBlank c = false ∧ c ≠ '#' := by
        have hmem := isMark_cases hmark
        simp only [List.mem_cons, List.not_mem_nil, or_false] at hmem
        rcases hmem with rfl | rfl | rfl | rfl | rfl | rfl | rfl | rfl | rfl <;> decide
      rw [Token.scanAll?, if_neg hothers.1, if_neg (by simp [hothers.2.1]), if_neg hothers.2.2,
        if_pos hmark, ih (Nat.le_of_succ_le_succ hfuel)]
      simp
  | @word letters cs ts hletter hne hbehind _ ih =>
      obtain ⟨c, letters, rfl⟩ := List.exists_cons_of_ne_nil hne
      obtain ⟨fuel, rfl⟩ := Nat.exists_eq_succ_of_ne_zero (Nat.ne_zero_of_lt hfuel)
      obtain ⟨hc, hletters⟩ := List.forall_mem_cons.mp hletter
      obtain ⟨hline, hblank, hcomment, hmark⟩ := isLetter_cases hc
      rw [List.cons_append, Token.scanAll?, if_neg hline, if_neg (by simp [hblank]),
        if_neg hcomment, if_neg (by simp [hmark]), if_pos hc,
        takeWhile_append_behind hletters hbehind, dropWhile_append_behind hletters hbehind,
        ih (by simp at hfuel; omega)]
      simp
  | @string text cs ts hsafe hbehind _ ih =>
      obtain ⟨fuel, rfl⟩ := Nat.exists_eq_succ_of_ne_zero (Nat.ne_zero_of_lt hfuel)
      rw [List.cons_append, Token.scanAll?, if_neg (by decide), if_neg (by decide),
        if_neg (by decide), if_neg (by decide), if_neg (by decide), if_pos (.inl rfl),
        string?_safe hsafe hbehind, Option.bind_some]
      dsimp only
      rw [ih (by simp at hfuel; omega)]
      simp

/-! ## What is scanned is the text itself -/

/-- No text that is built so has a carriage return. -/
theorem Cuts.no_return (h : Cuts cs ts) : '\r' ∉ cs := by
  induction h with
  | nil => simp
  | lineEnd _ ih => simpa using ih
  | blanks hblank _ _ _ ih =>
      rw [List.mem_append]
      rintro (hmem | hmem)
      · cases hblank _ hmem
      · exact ih hmem
  | mark hmark _ ih =>
      rw [List.mem_cons]
      rintro (rfl | hmem)
      · cases hmark
      · exact ih hmem
  | word hletter _ _ _ ih =>
      rw [List.mem_append]
      rintro (hmem | hmem)
      · cases hletter _ hmem
      · exact ih hmem
  | string hsafe _ _ ih =>
      rw [List.mem_append]
      rintro (hmem | hmem)
      · rcases List.mem_cons.mp hmem with hquote | hmem
        · cases hquote
        · exact (isSafe_cases (hsafe _ hmem)).2.2.1 rfl
      · exact ih (by simpa using hmem)

/-- Without carriage returns, line ends stay as they are. -/
theorem unifyLineEnds_eq (h : '\r' ∉ cs) : unifyLineEnds cs = cs := by
  induction cs with
  | nil => rfl
  | cons c cs ih =>
      obtain ⟨hc, hcs⟩ := not_or.mp (mt List.mem_cons.mpr h)
      rw [unifyLineEnds, ih hcs]
      rintro rest rfl
      exact absurd rfl hc

/-- No text that is built so starts with a byte order mark. -/
theorem Cuts.dropByteOrderMark_eq (h : Cuts cs ts) : dropByteOrderMark cs = cs := by
  have hmark : ∀ c, c = Char.ofNat 0xFEFF → isBlank c = false ∧ isMark c = false ∧
      isLetter c = false := by
    rintro _ rfl
    decide
  have hother : ∀ c, c ∈ cs.head? → c ≠ Char.ofNat 0xFEFF := by
    rintro c hc heq
    obtain ⟨hblank, hmark, hletter⟩ := hmark c heq
    cases h with
    | nil => cases hc
    | lineEnd => cases hc; cases heq
    | blanks hall hne =>
        obtain ⟨d, run, rfl⟩ := List.exists_cons_of_ne_nil hne
        cases hc
        rw [hall c List.mem_cons_self] at hblank
        cases hblank
    | mark hall =>
        cases hc
        rw [hall] at hmark
        cases hmark
    | word hall hne =>
        obtain ⟨d, run, rfl⟩ := List.exists_cons_of_ne_nil hne
        cases hc
        rw [hall c List.mem_cons_self] at hletter
        cases hletter
    | string => cases hc; cases heq
  cases cs with
  | nil => rfl
  | cons c cs =>
      refine if_neg fun hcode => hother c rfl ?_
      rw [← hcode, Char.ofNat_toNat]

/-- A text is scanned into its tokens. -/
theorem Cuts.scan? {s : String} (h : Cuts s.toList ts) : scan? s = some ts := by
  unfold Token.scan?
  rw [h.dropByteOrderMark_eq, unifyLineEnds_eq h.no_return]
  exact h.scanAll? (Nat.le_refl _) []

end BoundedTables.Toml.Token
