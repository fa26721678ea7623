import BoundedTables.Event
import BoundedTables.Proofs.Run

/-!
# Lists with two ends

Taking and adding elements at either end of a list, so that one statement serves both ends. Elements
that are taken one after the other, from either end in any order, are a part of the list from its
front, a part from its back in reverse, and what is left stands between them (`run_take`).
-/

namespace BoundedTables.End

variable {α : Type}

/-- Add an element at an end. -/
def place (side : End) (x : α) (l : List α) : List α :=
  match side with
  | .front => x :: l
  | .back => l ++ [x]

/-- The element at an end. -/
def peek (side : End) (l : List α) : Option α :=
  match side with
  | .front => l.head?
  | .back => l.getLast?

/-- Drop the element at an end. -/
def drop (side : End) (l : List α) : List α :=
  match side with
  | .front => l.tail
  | .back => l.dropLast

/-- A place at an end keeps all members of a list. -/
theorem place_perm (side : End) (x : α) (l : List α) : (side.place x l).Perm (x :: l) := by
  cases side with
  | front => exact .refl _
  | back => exact List.perm_append_singleton x l

/-- A list that is not empty splits at each of its ends. -/
theorem exists_place (side : End) {l : List α} (h : l ≠ []) : ∃ x rest, l = side.place x rest := by
  cases side with
  | front =>
      cases l with
      | nil => exact absurd rfl h
      | cons x rest => exact ⟨x, rest, rfl⟩
  | back =>
      rcases List.eq_nil_or_concat l with rfl | ⟨rest, x, rfl⟩
      · exact absurd rfl h
      · exact ⟨x, rest, by simp [place]⟩

@[simp] theorem map_place {β : Type} (side : End) (f : α → β) (x : α) (l : List α) :
    (side.place x l).map f = side.place (f x) (l.map f) := by
  cases side <;> simp [place]

/-- A list stays in order when something is placed at an end of it. -/
theorem sublist_place (side : End) (x : α) (l : List α) : l.Sublist (side.place x l) := by
  cases side <;> simp [place]

@[simp] theorem peek_place (side : End) (x : α) (l : List α) :
    side.peek (side.place x l) = some x := by
  cases side <;> simp [peek, place]

@[simp] theorem drop_place (side : End) (x : α) (l : List α) :
    side.drop (side.place x l) = l := by
  cases side <;> simp [drop, place]

/-- The element at an end stands between what is in front of it and what is behind. -/
theorem exists_split (side : End) (x : α) (l : List α) :
    ∃ front back, side.place x l = front ++ x :: back ∧ front ++ back = l := by
  cases side with
  | front => exact ⟨[], l, rfl, rfl⟩
  | back => exact ⟨l, [], rfl, List.append_nil l⟩

/-! ## Taking elements -/

/-- Take the element at an end off a list. -/
def take (l : List α) (side : End) : Option α × List α := (side.peek l, side.drop l)

@[simp] theorem take_nil (side : End) : take ([] : List α) side = (none, []) := by
  cases side <;> rfl

@[simp] theorem take_place (side : End) (x : α) (l : List α) :
    take (side.place x l) side = (some x, l) := by
  rw [take, peek_place, drop_place]

/-- What the calls at one end were answered with, among calls at either. -/
def taken (side : End) (calls : List End) (answers : List (Option α)) : List α :=
  (calls.zip answers).filterMap fun (call, answer) => if call = side then answer else none

@[simp] theorem taken_nil (side : End) (answers : List (Option α)) : taken side [] answers = [] :=
  rfl

@[simp] theorem taken_cons_none (side call : End) (calls : List End)
    (answers : List (Option α)) :
    taken side (call :: calls) (none :: answers) = taken side calls answers := by
  simp [taken]

@[simp] theorem taken_cons_some (side call : End) (calls : List End) (x : α)
    (answers : List (Option α)) : taken side (call :: calls) (some x :: answers) =
      if call = side then x :: taken side calls answers else taken side calls answers := by
  by_cases hcall : call = side
  · simp [taken, hcall]
  · simp [taken, hcall]

/-- What was taken from the front, what is left, and what was taken from the back are the list. -/
theorem run_take (l : List α) (calls : List End) :
    l = taken .front calls (run take l calls).1 ++ (run take l calls).2 ++
      (taken .back calls (run take l calls).1).reverse := by
  induction calls generalizing l with
  | nil => simp [run]
  | cons side calls ih =>
      by_cases hl : l = []
      · subst hl
        simp only [run, take_nil, taken_cons_none]
        exact ih []
      · obtain ⟨x, rest, rfl⟩ := side.exists_place hl
        have hrest := ih rest
        simp only [run, take_place, taken_cons_some]
        cases side with
        | front =>
            simp only [place, ↓reduceIte, reduceCtorEq, List.cons_append]
            rw [← hrest]
        | back =>
            simp only [place, ↓reduceIte, reduceCtorEq, List.reverse_cons]
            rw [← List.append_assoc, ← hrest]

/-- Every element that was taken is one fewer in what is left. -/
theorem run_take_length (l : List α) (calls : List End) :
    (run take l calls).1.countP Option.isSome + (run take l calls).2.length = l.length := by
  induction calls generalizing l with
  | nil => simp [run]
  | cons side calls ih =>
      by_cases hl : l = []
      · subst hl
        have hrest := ih []
        simp only [run, take_nil, List.countP_cons_of_neg, Option.isSome_none, Bool.false_eq_true,
          not_false_eq_true]
        exact hrest
      · obtain ⟨x, rest, rfl⟩ := side.exists_place hl
        have hrest := ih rest
        have hlength : (side.place x rest).length = rest.length + 1 :=
          (side.place_perm x rest).length_eq
        simp only [run, take_place, List.countP_cons_of_pos, Option.isSome_some]
        omega

end BoundedTables.End
