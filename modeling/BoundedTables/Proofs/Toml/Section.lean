import BoundedTables.Toml.Section
import BoundedTables.Proofs.Toml.Scalar
import BoundedTables.Proofs.Tree.Overlay

/-!
# Written tables read back

A document of tables is written line by line, and `Section.Builds` follows its text from the end:
every line is put in front of a text that was built already, and changes the sections that the rest
of the text starts from. What is built so is read as these sections (`Section.Builds.ofText?`). A
written document is built so, with one section for each table, in which the values that are absent
have no line (`Section.ofText?_document`).
-/

namespace BoundedTables.Toml

/-- A name that stands without quotes. -/
def isBare (name : String) : Bool := !name.toList.isEmpty && name.toList.all Token.isLetter

/-- A table that its written form leads back to: bare names, each of them once, and values that
are absent or legible scalars. -/
structure LegibleTable (t : String × List (String × Tree)) : Prop where
  name : isBare t.1 = true
  members : ∀ m ∈ t.2, isBare m.1 = true ∧ Legible m.2
  distinct : (t.2.map Prod.fst).Nodup

section Forms

variable {α β : Type} {f : α → Option β} {a : α} {as : List α} {out : List β}

/-- The forms of several things are those of the first and of the rest. -/
theorem mapM_cons_eq_some (h : (a :: as).mapM f = some out) :
    ∃ b bs, f a = some b ∧ as.mapM f = some bs ∧ out = b :: bs := by
  rw [List.mapM_cons] at h
  obtain ⟨b, hb, h⟩ := Option.bind_eq_some_iff.mp h
  obtain ⟨bs, hbs, h⟩ := Option.bind_eq_some_iff.mp h
  exact ⟨b, bs, hb, hbs, (Option.some.inj h).symm⟩

/-- Several things have forms when each has one. -/
theorem exists_mapM (h : ∀ a ∈ as, ∃ b, f a = some b) : ∃ bs, as.mapM f = some bs := by
  induction as with
  | nil => exact ⟨[], rfl⟩
  | cons a as ih =>
      obtain ⟨⟨b, hb⟩, has⟩ := List.forall_mem_cons.mp h
      obtain ⟨bs, hbs⟩ := ih has
      exact ⟨b :: bs, by rw [List.mapM_cons, hb, hbs]; rfl⟩

end Forms

/-- A document is written when all its values are that are not absent. -/
theorem exists_document? {tables : List (String × List (String × Tree))}
    (h : ∀ t ∈ tables, ∀ m ∈ t.2, m.2 = .nil ∨ ∃ text, scalar? m.2 = some text) :
    ∃ text, document? tables = some text := by
  have hline : ∀ t ∈ tables, ∀ m ∈ t.2, ∃ line, line? m = some line := by
    intro t ht m hm
    unfold line?
    split
    · exact ⟨_, rfl⟩
    · rename_i habsent
      obtain ⟨text, htext⟩ := (h t ht m hm).resolve_left habsent
      exact ⟨_, by rw [htext]; rfl⟩
  have htable : ∀ t ∈ tables, ∃ text, table? t = some text := by
    intro t ht
    obtain ⟨lines, hlines⟩ := exists_mapM (hline t ht)
    exact ⟨_, by rw [table?, hlines]; rfl⟩
  obtain ⟨texts, htexts⟩ := exists_mapM htable
  exact ⟨_, by rw [document?, htexts]; rfl⟩

namespace Section

/-- The values of the members that are not absent. -/
def values (ms : List (String × Tree)) : List (String × Value) :=
  (Tree.present ms).map fun m => (m.1, .scalar m.2)

/-- The section of a table whose values are scalars. -/
def ofTable (t : String × List (String × Tree)) : Section := ⟨[t.1], false, values t.2⟩

/-- A text that is read behind some sections, and the sections there are at its end. -/
inductive Builds : Array Section → List Char → Array Section → Prop
  | nil {ss : Array Section} : Builds ss [] ss
  | lineEnd {ss out : Array Section} {cs : List Char} (rest : Builds ss cs out) :
      Builds ss ('\n' :: cs) out
  | header {ss out : Array Section} {name : String} {cs : List Char} (bare : isBare name = true)
      (rest : Builds (ss.push ⟨[name], false, []⟩) cs out) :
      Builds ss ('[' :: name.toList ++ ']' :: '\n' :: cs) out
  | line {ss out : Array Section} {s : Section} {name : String} {text cs : List Char}
      {ts : List Token} {v : Tree} (bare : isBare name = true) (spells : Spells text ts v)
      (rest : Builds (ss.push { s with members := s.members ++ [(name, .scalar v)] }) cs out) :
      Builds (ss.push s) (name.toList ++ ' ' :: '=' :: ' ' :: text ++ '\n' :: cs) out

variable {ss out : Array Section} {s : Section} {cs : List Char} {ts us : List Token}
  {name : String} {v : Tree}

/-! ## Reading -/

/-- A name is bare when it has letters, and nothing else. -/
theorem isBare_iff : isBare name = true ↔
    name.toList ≠ [] ∧ ∀ c ∈ name.toList, Token.isLetter c = true := by
  simp [isBare]

/-- A bare name is a path of one key. -/
theorem path?_word (fuel : Nat) (ts : List Token)
    (hpoint : ∀ us, Value.skipBlanks ts ≠ .mark '.' :: us) :
    Value.path? (fuel + 1) (.word name.toList :: ts) = some ([name], Value.skipBlanks ts) := by
  rw [Value.path?]
  simp only [Value.skipBlanks, String.ofList_toList, Option.bind_eq_bind, Option.bind_some]
  split
  · exact absurd ‹_› (hpoint _)
  · rfl

/-- A bare name between brackets is read as a header. -/
theorem header?_word (fuel : Nat) :
    header? (fuel + 1) (.word name.toList :: .mark ']' :: .lineEnd :: us) =
      some (⟨[name], false, []⟩, us) := by
  unfold header?
  simp only [path?_word fuel (.mark ']' :: .lineEnd :: us) (by simp [Value.skipBlanks])]
  rfl

/-- A bare name and a scalar are read as an assignment. -/
theorem assignment?_word (name : String) {text : List Char} (hspells : Spells text ts v)
    (fuel : Nat) (us : List Token) :
    assignment? (fuel + 1) (.word name.toList :: .blanks [' '] :: .mark '=' :: .blanks [' '] ::
      ts ++ .lineEnd :: us) = some ([name], .scalar v, us) := by
  unfold assignment?
  simp only [List.cons_append, path?_word fuel
    (.blanks [' '] :: .mark '=' :: .blanks [' '] :: (ts ++ .lineEnd :: us))
    (by simp [Value.skipBlanks])]
  simp only [Value.skipBlanks, Value.expect?, Option.bind_eq_bind, Option.bind_some, if_true,
    Nat.mul_add, hspells.reads]
  rfl

/-- An assignment adds a member to the last section. -/
theorem assign?_push : assign? (ss.push s) [name] (.scalar v) =
    some (ss.push { s with members := s.members ++ [(name, .scalar v)] }) := by
  simp [assign?, Value.insert?]

/-- The tokens of a text are read into its sections. A text has no more lines than tokens. -/
theorem Builds.readAll? (h : Builds ss cs out) : ∃ ts n, Token.Cuts cs ts ∧ n ≤ ts.length ∧
    ∀ size lines, n ≤ lines → Section.readAll? (size + 1) (lines + 1) ss ts = some out := by
  induction h with
  | nil =>
      refine ⟨[], 0, .nil, Nat.le_refl _, fun size lines _ => ?_⟩
      rw [Section.readAll?]
      rfl
  | lineEnd _ ih =>
      obtain ⟨ts, n, hcuts, hlength, hreads⟩ := ih
      refine ⟨_, n, .lineEnd hcuts, Nat.le_succ_of_le hlength, fun size lines hlines => ?_⟩
      rw [← hreads size lines hlines]
      simp [Section.readAll?, Value.skipLines]
  | @header ss out name cs hbare _ ih =>
      obtain ⟨ts, n, hcuts, hlength, hreads⟩ := ih
      obtain ⟨hne, hletters⟩ := isBare_iff.mp hbare
      refine ⟨_, n + 1, .mark rfl (.word hletters hne (Token.behind_cons rfl)
        (.mark rfl (.lineEnd hcuts))), by simp; omega, fun size lines hlines => ?_⟩
      obtain ⟨lines, rfl⟩ := Nat.exists_eq_add_of_le' hlines
      rw [Section.readAll?]
      simp only [Value.skipLines, header?_word, Option.bind_eq_bind, Option.bind_some]
      exact hreads size (lines + n) (by omega)
  | @line ss out s name text cs ts v hbare hspells _ ih =>
      obtain ⟨us, n, hcuts, hlength, hreads⟩ := ih
      obtain ⟨hne, hletters⟩ := isBare_iff.mp hbare
      have hspace : ∀ c ∈ [' '], Token.isBlank c = true := List.all_eq_true.mp (by decide)
      have hvalue := Token.Cuts.blanks hspace (by decide) (hspells.behind cs)
        (hspells.cuts (.lineEnd hcuts))
      have hequals := Token.Cuts.blanks hspace (by decide) (Token.behind_cons rfl)
        (.mark (c := '=') rfl hvalue)
      have hcut := Token.Cuts.word hletters hne (Token.behind_cons rfl) hequals
      refine ⟨_, n + 1, by simpa using hcut, by simp; omega, fun size lines hlines => ?_⟩
      obtain ⟨lines, rfl⟩ := Nat.exists_eq_add_of_le' hlines
      have hassigned := assignment?_word name hspells size us
      rw [Section.readAll?]
      simp only [List.cons_append, Value.skipLines] at hassigned ⊢
      rw [hassigned]
      simp only [Option.bind_eq_bind, Option.bind_some, assign?_push]
      exact hreads size (lines + n) (by omega)

/-- A text is read into its sections. -/
theorem Builds.ofText? {s : String} (h : Builds #[] s.toList out) : ofText? s = some out := by
  obtain ⟨ts, n, hcuts, hlength, hreads⟩ := h.readAll?
  unfold Section.ofText?
  rw [hcuts.scan?]
  exact hreads ts.length ts.length hlength

/-! ## Writing -/

/-- The line of a value that is there. -/
theorem scalar?_of_line? (hv : v.isNil = false) {line : String} (h : line? (name, v) = some line) :
    ∃ text, scalar? v = some text ∧ line = name ++ " = " ++ text ++ "\n" := by
  unfold line? at h
  split at h
  · rename_i hnil
    rw [show v = .nil from hnil] at hv
    cases hv
  · obtain ⟨text, htext, rfl⟩ := Option.map_eq_some_iff.mp h
    exact ⟨text, htext, rfl⟩

/-- The lines of a table add its values to the last section. -/
theorem Builds.lines {ms : List (String × Tree)} (hms : ∀ m ∈ ms, isBare m.1 = true ∧ Legible m.2)
    {lines : List String} (hlines : ms.mapM line? = some lines)
    (h : Builds (ss.push { s with members := s.members ++ values ms }) cs out) :
    Builds (ss.push s) (lines.flatMap String.toList ++ cs) out := by
  induction ms generalizing s lines with
  | nil =>
      obtain rfl := Option.some.inj hlines
      simpa [values, Tree.present] using h
  | cons m ms ih =>
      obtain ⟨hm, hbelow⟩ := List.forall_mem_cons.mp hms
      obtain ⟨line, rest, hline, hrest, rfl⟩ := mapM_cons_eq_some hlines
      obtain ⟨name, v⟩ := m
      rw [List.flatMap_cons, List.append_assoc]
      cases hnil : v.isNil with
      | true =>
          obtain rfl := Tree.eq_nil_of_isNil hnil
          obtain rfl : "" = line := Option.some.inj hline
          exact ih hbelow hrest h
      | false =>
          obtain ⟨text, htext, rfl⟩ := scalar?_of_line? hnil hline
          obtain ⟨ts, hspells⟩ := spells_of_scalar? htext hm.2
          have hvalues : values ((name, v) :: ms) = (name, .scalar v) :: values ms := by
            simp [values, Tree.present, hnil]
          rw [hvalues, List.append_cons] at h
          have hline := Builds.line hm.1 hspells (ih hbelow hrest h)
          simpa using hline

/-- A written table adds its section. -/
theorem Builds.table {t : String × List (String × Tree)} (ht : LegibleTable t) {text : String}
    (htext : table? t = some text) (h : Builds (ss.push (ofTable t)) cs out) :
    Builds ss (text.toList ++ cs) out := by
  obtain ⟨lines, hlines, rfl⟩ := Option.map_eq_some_iff.mp htext
  have hlines := Builds.lines (s := ⟨[t.1], false, []⟩) ht.members hlines h
  simpa using Builds.header ht.name hlines

/-- Written tables add their sections, one behind another. -/
theorem Builds.tables (ss : Array Section) {tables : List (String × List (String × Tree))}
    (htables : ∀ t ∈ tables, LegibleTable t) {texts : List String}
    (htexts : tables.mapM table? = some texts) :
    Builds ss (String.intercalate "\n" texts).toList (ss ++ (tables.map ofTable).toArray) := by
  induction tables generalizing ss texts with
  | nil =>
      obtain rfl := Option.some.inj htexts
      simpa using Builds.nil
  | cons t tables ih =>
      obtain ⟨ht, htables⟩ := List.forall_mem_cons.mp htables
      obtain ⟨text, rest, htext, hrest, rfl⟩ := mapM_cons_eq_some htexts
      have htail := ih (ss.push (ofTable t)) htables hrest
      have hsections : ss.push (ofTable t) ++ (tables.map ofTable).toArray =
          ss ++ ((t :: tables).map ofTable).toArray := by simp
      rw [hsections] at htail
      rw [String.toList_intercalate] at htail ⊢
      cases rest with
      | nil =>
          simpa using Builds.table ht htext htail
      | cons next rest =>
          simpa using Builds.table ht htext (.lineEnd htail)

/-- A written document is read into the sections of its tables. -/
theorem ofText?_document {tables : List (String × List (String × Tree))}
    (htables : ∀ t ∈ tables, LegibleTable t) {text : String}
    (htext : document? tables = some text) :
    ofText? text = some (tables.map ofTable).toArray := by
  obtain ⟨texts, htexts, rfl⟩ := Option.map_eq_some_iff.mp htext
  have hbuilds := Builds.tables #[] htables htexts
  rw [Array.empty_append] at hbuilds
  exact hbuilds.ofText?

end Section

end BoundedTables.Toml
