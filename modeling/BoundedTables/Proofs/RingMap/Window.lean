import BoundedTables.Proofs.RingMap.Reachable

/-!
# The window over the newest entries

`recentWindow` walks back from the newest slot and `toList` walks forward from the oldest one. Both
meet every cell of the layout on their way, and no other entry, so the window is the end of the list
(`Laid.recentWindow_eq`), whatever holes lie between the cells and wherever the ring wraps.
`reachable_window` is the theorem over all runs.
-/

namespace BoundedTables.RingMap

open Hashing Table

variable {κ ν : Type} {m : RingMap κ ν} {cells before after : List (Cell κ ν)} {last : Cell κ ν}
  {found : List (κ × ν)} {wanted count position p : Nat}

/-! ## Walking back over the cells -/

/-- The entry of a cell. -/
def Cell.entry (cell : Cell κ ν) : κ × ν := (cell.2.key, cell.2.value)

/-- A window that asks for no more entries has those it found. -/
theorem windowBack_enough : m.windowBack found 0 count position = found := by
  cases count with
  | zero => rfl
  | succ count => exact if_pos rfl

/-- One step back from a slot, as long as an entry is wanted. -/
theorem windowBack_succ : m.windowBack found (wanted + 1) (count + 1) position =
    match m.entry? (position % m.ring.size) with
    | some e => m.windowBack (e :: found) wanted count (position % m.ring.size + m.ring.size - 1)
    | none => m.windowBack found (wanted + 1) count (position % m.ring.size + m.ring.size - 1) :=
  if_neg (Nat.succ_ne_zero wanted)

/-- The slot of a placed cell has its entry. -/
theorem Placed.entry?_eq (h : m.Placed cells) {cell : Cell κ ν} (hcell : cell ∈ cells) :
    m.entry? (cell.1 % m.ring.size) = some cell.entry := by
  rw [RingMap.entry?, h.node cell hcell, Option.map_some, Cell.entry]

/-- The cells up to a position lie at most `count` slots back from it, and the rest beyond it. -/
structure Behind (p count : Nat) (before after : List (Cell κ ν)) : Prop where
  within : ∀ cell ∈ before, cell.1 ≤ p ∧ p < cell.1 + count
  beyond : ∀ cell ∈ after, p < cell.1

/-- Behind a hole, the same cells lie within one slot less. -/
theorem Behind.hole (hp : Behind p (count + 1) before after)
    (hhole : ∀ cell ∈ before, cell.1 < p) : Behind (p - 1) count before after where
  within cell hcell := by
    have := hp.within cell hcell
    have := hhole cell hcell
    omega
  beyond cell hcell := by
    have := hp.beyond cell hcell
    omega

/-- Behind an entry, its cell lies beyond and the ones before it are within one slot less. -/
theorem Behind.entry (hp : Behind last.1 (count + 1) (before ++ [last]) after)
    (hpositive : 0 < last.1) (hbelow : ∀ cell ∈ before, cell.1 < last.1) :
    Behind (last.1 - 1) count before (last :: after) where
  within cell hcell := by
    have := hp.within cell (List.mem_append_left _ hcell)
    have := hbelow cell hcell
    omega
  beyond cell hcell := by
    rcases List.mem_cons.mp hcell with rfl | hcell
    · omega
    · have := hp.beyond cell hcell
      omega

/-- A position between the cells before it and those after it has no entry. -/
theorem Placed.hole (h : m.Placed (before ++ [last] ++ after)) (hcount : count ≤ m.ring.size)
    (hp : Behind p count (before ++ [last]) after) (hlast : last.1 < p)
    (hbelow : ∀ cell ∈ before, cell.1 < last.1) : m.entry? (p % m.ring.size) = none := by
  have hsides : ∀ cell ∈ before ++ [last] ++ after,
      cell.1 ≠ p ∧ p < cell.1 + m.ring.size ∧ cell.1 < p + m.ring.size := by
    intro cell hcell
    have hturn : cell.1 < last.1 + m.ring.size := h.close hcell (by simp)
    rcases List.mem_append.mp hcell with hcell | hcell
    · have hwithin := hp.within cell hcell
      rcases List.mem_append.mp hcell with hcell | hcell
      · have := hbelow cell hcell
        omega
      · rw [List.mem_singleton.mp hcell] at hwithin ⊢
        omega
    · have hbeyond := hp.beyond cell hcell
      omega
  rw [RingMap.entry?, h.vacant (fun cell hcell => (hsides cell hcell).1)
    fun cell hcell => (hsides cell hcell).2, Option.map_none]

/-- Walking back from a position collects the cells before it, the newest first, until enough of
them are found. -/
theorem Placed.windowBack_eq (h : m.Placed (before ++ after)) (hcount : count ≤ m.ring.size)
    (hp : Behind p count before after) (hslot : position % m.ring.size = p % m.ring.size)
    (hwanted : wanted ≤ before.length) :
    m.windowBack found wanted count position =
      (before.drop (before.length - wanted)).map Cell.entry ++ found := by
  -- the cells collected so far join `after`, since it is the whole ring that is laid out
  induction count generalizing before after found wanted position p with
  | zero =>
      have hnone : before = [] := by
        refine List.eq_nil_iff_forall_not_mem.mpr ?_
        intro cell hcell
        have := hp.within cell hcell
        omega
      rw [hnone, List.drop_nil]
      rfl
  | succ count ih =>
      cases wanted with
      | zero =>
          rw [windowBack_enough, Nat.sub_zero, List.drop_length]
          rfl
      | succ wanted =>
          rcases List.eq_nil_or_concat before with rfl | ⟨init, last, rfl⟩
          · cases hwanted
          rw [List.concat_eq_append] at *
          have hsplit : m.Placed (init ++ last :: after) := by simpa using h
          have hbelow : ∀ cell ∈ init, cell.1 < last.1 :=
            fun cell hcell => (hsplit.around.1 cell hcell).1
          have hlast := hp.within last (by simp)
          rw [List.length_append, List.length_singleton] at hwanted ⊢
          rw [windowBack_succ, hslot]
          rcases Nat.eq_or_lt_of_le hlast.1 with rfl | hlater
          · rw [h.entry?_eq (by simp)]
            have hdrop : (init ++ [last]).drop (init.length + 1 - (wanted + 1)) =
                init.drop (init.length - wanted) ++ [last] := by
              rw [Nat.add_sub_add_right, List.drop_append_of_le_length (Nat.sub_le _ _)]
            rw [hdrop, List.map_append, List.append_assoc]
            show m.windowBack (last.entry :: found) wanted count _ = _
            cases wanted with
            | zero =>
                rw [windowBack_enough, Nat.sub_zero, List.drop_length]
                rfl
            | succ wanted =>
                -- another entry is wanted, so there is a cell before this one
                have hpositive : 0 < last.1 := by
                  obtain ⟨cell, hcell⟩ := List.exists_mem_of_length_pos (l := init) (by omega)
                  have := hbelow cell hcell
                  omega
                exact ih hsplit (by omega) (hp.entry hpositive hbelow) (back_mod hpositive)
                  (by omega)
          · have hbehind : ∀ cell ∈ init ++ [last], cell.1 < p := by
              intro cell hcell
              rcases List.mem_append.mp hcell with hcell | hcell
              · exact Nat.lt_trans (hbelow cell hcell) hlater
              · rwa [List.mem_singleton.mp hcell]
            rw [h.hole hcount hp hlater hbelow]
            have hrest : m.windowBack found (wanted + 1) count _ = _ :=
              ih h (by omega) (hp.hole hbehind) (back_mod (by omega)) (by simpa using hwanted)
            rw [List.length_append, List.length_singleton] at hrest
            exact hrest

/-- The window is the end of the list of entries. -/
theorem Laid.recentWindow_eq (h : m.Laid cells) (n : Nat) :
    m.recentWindow n = m.toList.drop (m.size - min n m.size) := by
  rw [h.toList_eq, ← List.map_drop, recentWindow]
  rcases List.eq_nil_or_concat cells with rfl | ⟨init, last, rfl⟩
  · have hsize : m.size = 0 := h.size
    rw [hsize, Nat.min_zero, windowBack_enough]
    rfl
  · rw [List.concat_eq_append] at *
    have hslot : (m.tail + m.ring.size) % m.ring.size = last.1 % m.ring.size := by
      rw [h.tail, List.getLast?_concat, slotOf, Nat.add_mod_right, Nat.mod_mod]
    have hall : m.Placed ((init ++ [last]) ++ []) := by simpa using h.toPlaced
    have hp : Behind last.1 m.ring.size (init ++ [last]) [] :=
      ⟨fun cell hcell => ⟨h.le_last cell hcell, h.close (by simp) hcell⟩, by simp⟩
    have hwanted : min n m.size ≤ (init ++ [last]).length := h.size ▸ Nat.min_le_right n m.size
    rw [hall.windowBack_eq (Nat.le_refl _) hp hslot hwanted, List.append_nil, ← h.size]
    rfl

/-! ## Reachable maps -/

variable {o : TableOptions}

/-- Whatever is done to a new map, and whatever the comparer says, the window over the newest
entries is the end of the list from the oldest to the newest one. -/
theorem reachable_window (hvalid : o.check.isOk) (c : Comparer κ) :
    ∃ m : RingMap κ ν, withComparer o c = .ok m ∧ ∀ (ops : List (Op κ ν)) (n : Nat),
      (run step m ops).2.toList.length = (run step m ops).2.size ∧
      (run step m ops).2.recentWindow n = (run step m ops).2.toList.drop
        ((run step m ops).2.size - min n (run step m ops).2.size) := by
  obtain ⟨f, hvalid⟩ := exists_ok hvalid
  obtain ⟨m, hm, hstart, -⟩ : ∃ m : RingMap κ ν, _ := withComparer_stamped hvalid c
  refine ⟨m, hm, ?_⟩
  intro ops n
  obtain ⟨⟨cells, h, -⟩, -⟩ := run_stamped hstart ops
  refine ⟨?_, h.recentWindow_eq n⟩
  rw [h.toList_eq, List.length_map, h.size]

/-- In a ring of four that wraps around, the window over the two newest entries reaches past the
hole between them. -/
theorem window_around_hole :
    (⟨4, .fixed, 0.75, .deterministic⟩ : TableOptions).check.isOk ∧
    ∃ m : RingMap UInt64 Nat, withComparer ⟨4, .fixed, 0.75, .deterministic⟩ .natural = .ok m ∧
      (run step m [.insert 1 10, .insert 2 20, .insert 3 30, .insert 4 40, .insert 5 50,
        .remove 4]).2.toList = [(2, 20), (3, 30), (5, 50)] ∧
      (run step m [.insert 1 10, .insert 2 20, .insert 3 30, .insert 4 40, .insert 5 50,
        .remove 4]).2.recentWindow 2 = [(3, 30), (5, 50)] := by
  have hvalid : (⟨4, .fixed, 0.75, .deterministic⟩ : TableOptions).check.isOk := by decide +kernel
  obtain ⟨m, hm, hruns⟩ : ∃ m : RingMap UInt64 Nat, _ := reachable_window hvalid .natural
  have hentries : ((withComparer ⟨4, .fixed, 0.75, .deterministic⟩ .natural).map
      fun m : RingMap UInt64 Nat => (run step m [.insert 1 10, .insert 2 20, .insert 3 30,
        .insert 4 40, .insert 5 50, .remove 4]).2.toList) = .ok [(2, 20), (3, 30), (5, 50)] := by
    decide +kernel
  rw [hm] at hentries
  have hlist : (run step m [.insert 1 10, .insert 2 20, .insert 3 30, .insert 4 40, .insert 5 50,
      .remove 4]).2.toList = [(2, 20), (3, 30), (5, 50)] := Except.ok.inj hentries
  obtain ⟨hlength, hwindow⟩ := hruns [.insert 1 10, .insert 2 20, .insert 3 30, .insert 4 40,
    .insert 5 50, .remove 4] 2
  rw [hlist] at hlength hwindow
  refine ⟨hvalid, m, hm, hlist, ?_⟩
  rw [hwindow, ← hlength]
  rfl

end BoundedTables.RingMap
