import BoundedTables.Proofs.DequeMap
import BoundedTables.Proofs.Table.LinkedCursor

/-!
# Cursors over deque maps

A deque map with its cursors is sound in the sense of `Enumerable.Sound`, whatever its comparer:
its table stays in order, and each operation moves the version on exactly when it changes the map
or evicts from it (`enumerable_sound`).
-/

namespace BoundedTables.DequeMap

open Hashing Table

variable {κ ν : Type} {m m' : DequeMap κ ν} {op : Op κ ν} {reply : Reply κ ν}

/-- Whether an operation that was answered so changed the map. -/
def changes : Op κ ν → Reply κ ν → Bool
  | .insert _ _, _ | .pushBack _ _, _ | .pushFront _ _, _ => true
  | .popFront, .entry (.ok _) | .popBack, .entry (.ok _) => true
  | .moveToFront _, .present true | .moveToBack _, .present true => true
  | .remove _, .value (some _) | .clear, _ => true
  | _, _ => false

/-- Whether an operation that was answered so was a read or a miss. -/
def looks : Op κ ν → Reply κ ν → Bool
  | .peekFront, _ | .peekBack, _ | .get _, _ | .require _, _ | .containsKey _, _ => true
  | .popFront, .entry (.error _) | .popBack, .entry (.error _) => true
  | .moveToFront _, .present false | .moveToBack _, .present false => true
  | .remove _, .value none | .modify _ _, .value none => true
  | _, _ => false

/-- Deque maps with their cursors. -/
def enumerable : Enumerable (DequeMap κ ν) (Op κ ν) (Reply κ ν) (κ × ν) where
  step m op := some (m.step op)
  toList := toList
  size := size
  version m := m.table.version
  evictions := evictions
  cursor := cursor
  advance := advance
  changes := changes
  looks := looks

/-! ## Each operation -/

/-- A read or a miss leaves every cursor alone. -/
theorem kept_of_sameView (hs : m.table.SameView m'.table) (h : m.table.InOrder)
    (hchanges : changes op reply = false) : m'.table.InOrder ∧ enumerable.Kept m op reply m' := by
  obtain ⟨cells, h⟩ := h
  have hlist : m'.toList = m.toList := (hs.spells h).toList_eq.trans h.toList_eq.symm
  exact ⟨⟨cells, hs.spells h⟩, .of_same hchanges hs.bumped hlist hs.advance_eq⟩

/-- Updating or adding a key is one change, besides the eviction that may make room for it. -/
theorem upsert_bumped (h : m.table.InOrder) (key : κ) (value : ν) (side : End) (relocate : Bool) :
    (m.upsert key value side relocate).2.table.InOrder ∧
      m.table.Bumped (m.upsert key value side relocate).2.table 1 := by
  obtain ⟨cells, h⟩ := h
  unfold upsert
  rcases h.search key with ⟨t, hl, hs⟩ | ⟨before, i, e, after, t, hl, hs, h₁⟩ <;>
    rw [LinkedTable.lookup] at hl <;> dsimp only <;> rw [hl]
  · have horder : t.InOrder := ⟨cells, hs.spells h⟩
    obtain ⟨hadmitted, hbumped⟩ := horder.admit hs.comparer key value side.opposite side
    exact ⟨hadmitted, hs.bumped.trans hbumped⟩
  · have hchanged := h₁.modifyValue fun _ => value
    -- moving to an end is the change where a key moves, and setting the value where it stays
    cases relocate with
    | false =>
        exact ⟨⟨_, (LinkedTable.touch_sameContents _).spells hchanged⟩,
          hs.bumped.trans (.change _ _)⟩
    | true => exact ⟨⟨_, hchanged.moveTo side⟩, hs.bumped.trans (.change _ _)⟩

/-- Popping is a change, or there is nothing to pop. -/
theorem pop_cases (h : m.table.InOrder) (side : End) :
    (∃ e, m.pop side = (.error e, m)) ∨
      ∃ e m', m.pop side = (.ok e, m') ∧ m'.table.InOrder ∧ m.table.Bumped m'.table 1 := by
  obtain ⟨cells, h⟩ := h
  unfold pop
  rcases eq_or_ne cells [] with rfl | hne
  · rw [h.slotAt_nil]
    exact .inl ⟨_, rfl⟩
  · obtain ⟨⟨i, e⟩, rest, rfl⟩ := side.exists_place hne
    obtain ⟨hslot, node, t', hdetach, -, -, hspells⟩ := h.detach_end
    rw [hslot]
    dsimp only
    rw [hdetach]
    exact .inr ⟨_, _, rfl, ⟨_, hspells⟩, LinkedTable.detach_bumped hdetach⟩

/-- Moving a present key is a change, and nothing else is. -/
theorem moveKey_cases (h : m.table.InOrder) (key : κ) (side : End) :
    (∃ m', m.moveKey key side = (false, m') ∧ m.table.SameView m'.table) ∨
      ∃ m', m.moveKey key side = (true, m') ∧ m'.table.InOrder ∧ m.table.Bumped m'.table 1 := by
  obtain ⟨cells, h⟩ := h
  unfold moveKey
  rcases h.search key with ⟨t, hl, hs⟩ | ⟨before, i, e, after, t, hl, hs, h₁⟩
  · rw [hl]
    exact .inl ⟨_, rfl, hs⟩
  · rw [hl]
    exact .inr ⟨_, rfl, ⟨_, h₁.moveTo side⟩, hs.bumped.trans (.change _ _)⟩

/-- A removal keeps the list in order, and the version counts it if it changes the list. -/
theorem remove_kept (h : m.table.InOrder) (key : κ) : (m.remove key).2.table.InOrder ∧
    enumerable.Kept m (.remove key) (.value (m.remove key).1) (m.remove key).2 := by
  have horder := h
  obtain ⟨cells, h⟩ := h
  unfold remove
  rcases h.search key with ⟨t, hl, hs⟩ | ⟨before, i, e, after, t, hl, hs, h₁⟩
  · rw [hl]
    exact kept_of_sameView hs horder rfl
  · obtain ⟨node, t', hdetach, -, -, hspells⟩ := h₁.detach
    rw [hl]
    dsimp only
    rw [hdetach]
    exact ⟨⟨_, hspells⟩, .of_bumped rfl (hs.bumped.trans (LinkedTable.detach_bumped hdetach))⟩

/-- A modification keeps the list in order, and is no change to a cursor. -/
theorem modify_kept (h : m.table.InOrder) (key : κ) (f : ν → ν) :
    (m.modify key f).2.table.InOrder ∧
      enumerable.Kept m (.modify key f) (.value (m.modify key f).1) (m.modify key f).2 := by
  have horder := h
  obtain ⟨cells, h⟩ := h
  unfold modify
  rcases h.search key with ⟨t, hl, hs⟩ | ⟨before, i, e, after, t, hl, hs, h₁⟩ <;> rw [hl]
  · exact kept_of_sameView hs horder rfl
  · have hchanged := h₁.modifyValue f
    have hentry := hchanged.entry (i, (e.1, f e.2)) (by simp)
    -- a value written in its slot is no change, and the answer tells that it is no miss either
    refine ⟨⟨_, hchanged⟩, .of_bumped ?_ hs.bumped⟩
    dsimp only
    rw [hentry]
    rfl

/-- A lookup that requires its key leaves a cursor's view as it is. -/
theorem require_sameView (m : DequeMap κ ν) (key : κ) :
    m.table.SameView (m.require key).2.table := by
  have hs : m.table.SameView (m.get key).2.table := m.table.lookup_sameView key
  unfold require
  revert hs
  rcases m.get key with ⟨⟨⟩ | v, m'⟩ <;> exact fun hs => hs

/-- Every operation keeps the table in order and the cursors in step. -/
theorem step_kept (h : m.table.InOrder) (op : Op κ ν) : (m.step op).2.table.InOrder ∧
    enumerable.Kept m op (m.step op).1 (m.step op).2 := by
  cases op with
  | insert key value =>
      obtain ⟨horder, hbumped⟩ := upsert_bumped h key value .back false
      exact ⟨horder, .of_bumped rfl hbumped⟩
  | pushBack key value =>
      obtain ⟨horder, hbumped⟩ := upsert_bumped h key value .back true
      exact ⟨horder, .of_bumped rfl hbumped⟩
  | pushFront key value =>
      obtain ⟨horder, hbumped⟩ := upsert_bumped h key value .front true
      exact ⟨horder, .of_bumped rfl hbumped⟩
  | popFront =>
      rw [step, popFront]
      rcases pop_cases h .front with ⟨e, hpop⟩ | ⟨e, m', hpop, horder, hbumped⟩ <;> rw [hpop]
      · exact kept_of_sameView (.refl _) h rfl
      · exact ⟨horder, .of_bumped rfl hbumped⟩
  | popBack =>
      rw [step, popBack]
      rcases pop_cases h .back with ⟨e, hpop⟩ | ⟨e, m', hpop, horder, hbumped⟩ <;> rw [hpop]
      · exact kept_of_sameView (.refl _) h rfl
      · exact ⟨horder, .of_bumped rfl hbumped⟩
  | moveToFront key =>
      rw [step, moveToFront]
      rcases moveKey_cases h key .front with ⟨m', hmove, hs⟩ | ⟨m', hmove, horder, hbumped⟩ <;>
        rw [hmove]
      · exact kept_of_sameView hs h rfl
      · exact ⟨horder, .of_bumped rfl hbumped⟩
  | moveToBack key =>
      rw [step, moveToBack]
      rcases moveKey_cases h key .back with ⟨m', hmove, hs⟩ | ⟨m', hmove, horder, hbumped⟩ <;>
        rw [hmove]
      · exact kept_of_sameView hs h rfl
      · exact ⟨horder, .of_bumped rfl hbumped⟩
  | peekFront | peekBack => exact kept_of_sameView (.refl _) h rfl
  | remove key => exact remove_kept h key
  | modify key f => exact modify_kept h key f
  | get key | containsKey key => exact kept_of_sameView (m.table.lookup_sameView key) h rfl
  | require key => exact kept_of_sameView (m.require_sameView key) h rfl
  | clear => exact ⟨⟨[], LinkedTable.clear_spells _⟩, .of_bumped rfl (.change _ _)⟩

/-- Deque maps keep their cursors in step. -/
theorem enumerable_sound :
    (enumerable : Enumerable (DequeMap κ ν) _ _ _).Sound fun m => m.table.InOrder where
  step {m op reply m'} h hstep := by
    have hkept := step_kept h op
    rw [show m.step op = (reply, m') from Option.some.inj hstep] at hkept
    exact hkept
  size {m} h := by
    obtain ⟨cells, h⟩ := h
    show m.table.arena.size = m.table.toList.length
    rw [h.toList_eq, List.length_map, h.size_eq]
  cursor h := by
    obtain ⟨cells, h⟩ := h
    exact ⟨_, fun _ => rfl, h.cursor_at⟩

/-- A new deque map guards its cursors, whatever the comparer. -/
theorem enumerable_guards {o : TableOptions} {f : Sizing.LoadFactor} (hvalid : o.check = .ok f)
    (c : Comparer κ) :
    (enumerable : Enumerable (DequeMap κ ν) _ _ _).Guards (withComparer o c) := by
  obtain ⟨m, hm, cells, hcells, -⟩ : ∃ m : DequeMap κ ν, _ := withComparer_stands hvalid c
  exact enumerable_sound.guards hm ⟨cells, hcells.spells⟩

end BoundedTables.DequeMap
