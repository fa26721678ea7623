import BoundedTables.Proofs.Run
import BoundedTables.Proofs.Table.LinkedTable

/-!
# Double-ended iterators over linked tables

An iterator keeps a slot for either end and counts what is left. The two slots follow the links
towards each other and do not notice when they meet; only the count stops them. `Ahead` says that
they are the ends of the cells that are left, as long as there are any. So every call takes an entry
off the list of those that are left (`Ahead.pull`), and any calls at either end take what they would
take off the list of all entries (`Spells.run_pull`).
-/

namespace BoundedTables.Table.LinkedTable

variable {κ ν : Type} {t : LinkedTable κ ν} {it : Iter} {cells rest : List (Cell κ ν)}
  {cell : Cell κ ν} {entries : List (κ × ν)}

/-- The next entry from an end. -/
def pull (t : LinkedTable κ ν) (it : Iter) : End → Option (κ × ν) × Iter
  | .front => t.next it
  | .back => t.nextBack it

/-- These cells of a table are ahead of an iterator, seen from either end, with others behind. -/
structure Spans (t : LinkedTable κ ν) (it : Iter) (cells : List (Cell κ ν)) : Prop where
  part : ∃ before after, t.Spells (before ++ cells ++ after)
  remaining : it.remaining = cells.length
  front : cells ≠ [] → it.front = (cells.map (·.1)).head?
  back : cells ≠ [] → it.back = (cells.map (·.1)).getLast?

/-- These entries of a table are ahead of an iterator. -/
def Ahead (t : LinkedTable κ ν) (it : Iter) (entries : List (κ × ν)) : Prop :=
  ∃ cells, t.Spans it cells ∧ entries = cells.map (·.2)

/-! ## Single calls -/

/-- An iterator without a count yields nothing, wherever its slots are. -/
theorem pull_exhausted (t : LinkedTable κ ν) (h : it.remaining = 0) (side : End) :
    t.pull it side = (none, it) := by
  cases side with
  | front => rw [pull, next, if_pos h]
  | back => rw [pull, nextBack, if_pos h]

/-- A call at the front takes the first cell, and goes on at the one behind it. -/
theorem Spans.next (h : t.Spans it (cell :: rest)) :
    (t.next it).1 = some cell.2 ∧ t.Spans (t.next it).2 rest := by
  obtain ⟨before, after, hspells⟩ := h.part
  have hentry : t.entry? cell.1 = some cell.2 := hspells.entry cell (by simp)
  have hlink := (hspells.linked.order.links (before.map (·.1)) cell.1
    ((rest ++ after).map (·.1)) (by simp)).1
  have hfront : it.front = some cell.1 := h.front (List.cons_ne_nil cell rest)
  have hremaining : it.remaining = rest.length + 1 := h.remaining
  have hnext : t.next it = (some cell.2, { it with
      front := t.order.after cell.1, remaining := it.remaining - 1 }) := by
    rw [LinkedTable.next, if_neg (by omega), hfront]
    simp only [Option.bind_some, hentry, Option.map_some]
  rw [hnext]
  refine ⟨rfl, ⟨before ++ [cell], after, by simpa using hspells⟩, ?_, ?_, ?_⟩
  · show it.remaining - 1 = rest.length
    omega
  · intro hne
    show t.order.after cell.1 = _
    rw [hlink, List.map_append, List.head?_append_of_ne_nil _ (by simpa using hne)]
  · intro hne
    show it.back = _
    rw [h.back (List.cons_ne_nil cell rest), List.map_cons,
      List.getLast?_cons_of_ne_nil (by simpa using hne)]

/-- A call at the back takes the last cell, and goes on at the one in front of it. -/
theorem Spans.nextBack (h : t.Spans it (rest ++ [cell])) :
    (t.nextBack it).1 = some cell.2 ∧ t.Spans (t.nextBack it).2 rest := by
  obtain ⟨before, after, hspells⟩ := h.part
  have hentry : t.entry? cell.1 = some cell.2 := hspells.entry cell (by simp)
  have hlink := (hspells.linked.order.links ((before ++ rest).map (·.1)) cell.1
    (after.map (·.1)) (by simp)).2
  have hback : it.back = some cell.1 := by
    rw [h.back (by simp)]
    simp
  have hremaining : it.remaining = rest.length + 1 := by
    rw [h.remaining, List.length_append, List.length_singleton]
  have hnext : t.nextBack it = (some cell.2, { it with
      back := t.order.before cell.1, remaining := it.remaining - 1 }) := by
    rw [LinkedTable.nextBack, if_neg (by omega), hback]
    simp only [Option.bind_some, hentry, Option.map_some]
  rw [hnext]
  refine ⟨rfl, ⟨before, cell :: after, by simpa using hspells⟩, ?_, ?_, ?_⟩
  · show it.remaining - 1 = rest.length
    omega
  · intro hne
    show it.front = _
    rw [h.front (by simp), List.map_append, List.head?_append_of_ne_nil _ (by simpa using hne)]
  · intro hne
    show t.order.before cell.1 = _
    rw [hlink, List.map_append, List.getLast?_append_of_ne_nil _ (by simpa using hne)]

/-- A call at an end takes an entry off the list of those ahead. -/
theorem Ahead.pull (h : t.Ahead it entries) (side : End) :
    (t.pull it side).1 = (End.take entries side).1 ∧
      t.Ahead (t.pull it side).2 (End.take entries side).2 := by
  obtain ⟨cells, hspans, rfl⟩ := h
  by_cases hcells : cells = []
  · subst hcells
    rw [pull_exhausted t hspans.remaining, List.map_nil, End.take_nil]
    exact ⟨rfl, [], hspans, rfl⟩
  · obtain ⟨cell, rest, rfl⟩ := side.exists_place hcells
    rw [End.map_place, End.take_place]
    cases side with
    | front =>
        obtain ⟨hanswer, hrest⟩ := hspans.next
        exact ⟨hanswer, rest, hrest, rfl⟩
    | back =>
        obtain ⟨hanswer, hrest⟩ := hspans.nextBack
        exact ⟨hanswer, rest, hrest, rfl⟩

/-! ## Many calls -/

/-- A new iterator has all entries ahead. -/
theorem Spells.ahead (h : t.Spells cells) : t.Ahead t.iter t.toList := by
  refine ⟨cells, ⟨⟨[], [], by simpa using h⟩, h.size_eq, ?_, ?_⟩, h.toList_eq⟩
  · exact fun _ => h.linked.order.head
  · exact fun _ => h.linked.order.tail

/-- Calls at either end of a new iterator take entries off the list of all. -/
theorem Spells.run_pull (h : t.Spells cells) (calls : List End) :
    (run t.pull t.iter calls).1 = (run End.take t.toList calls).1 ∧
      t.Ahead (run t.pull t.iter calls).2 (run End.take t.toList calls).2 :=
  run_simulates (fun _ _ side hahead => hahead.pull side) h.ahead calls

/-- Calls at an iterator without a count yield nothing and leave it alone. -/
theorem run_pull_exhausted (t : LinkedTable κ ν) (h : it.remaining = 0) (calls : List End) :
    run t.pull it calls = (List.replicate calls.length none, it) := by
  induction calls with
  | nil => rfl
  | cons side calls ih =>
      simp only [run, pull_exhausted t h, ih]
      rfl

/-- An iterator counts the entries ahead of it. -/
theorem Ahead.remaining (h : t.Ahead it entries) : it.remaining = entries.length := by
  obtain ⟨cells, hspans, rfl⟩ := h
  rw [hspans.remaining, List.length_map]

end BoundedTables.Table.LinkedTable
