import BoundedTables.Proofs.MultiMap
import BoundedTables.Proofs.Table.LinkedCursor

/-!
# Cursors over multimaps

A multimap with its cursors is sound in the sense of `Enumerable.Sound`, whatever its comparer: its
table stays in order, and each operation moves the version on exactly when it changes the map or
evicts a key from it (`enumerable_sound`).
-/

namespace BoundedTables.MultiMap

open Hashing Table

variable {κ ν : Type} {m m' : MultiMap κ ν} {op : Op κ ν} {reply : Reply ν}

/-- Whether an operation that was answered so changed the map. -/
def changes : Op κ ν → Reply ν → Bool
  | .insert _ _, _ | .remove _, .values (some _) => true
  | .removeValue _ _, .present true | .clear, _ => true
  | _, _ => false

/-- Whether an operation that was answered so was a read or a miss. -/
def looks : Op κ ν → Reply ν → Bool
  | .get _, _ | .require _, _ | .containsKey _, _ | .containsValue _, _ => true
  | .remove _, .values none | .removeValue _ _, .present false => true
  | _, _ => false

/-- Multimaps with their cursors. -/
def enumerable [BEq ν] : Enumerable (MultiMap κ ν) (Op κ ν) (Reply ν) (κ × List ν) where
  step m op := some (m.step op)
  toList := toList
  size := size
  version m := m.table.version
  evictions := evictions
  cursor := cursor
  advance := advance
  changes := changes
  looks := looks

/-! ## Each operation -/

variable [BEq ν]

/-- A read or a miss leaves every cursor alone. -/
theorem kept_of_sameView (hs : m.table.SameView m'.table) (h : m.table.InOrder)
    (hchanges : changes op reply = false) : m'.table.InOrder ∧ enumerable.Kept m op reply m' := by
  obtain ⟨cells, h⟩ := h
  have hlist : m'.toList = m.toList := (hs.spells h).toList_eq.trans h.toList_eq.symm
  exact ⟨⟨cells, hs.spells h⟩, .of_same hchanges hs.bumped hlist hs.advance_eq⟩

omit [BEq ν] in
/-- The table after a new key came in. -/
theorem insert_table {t : LinkedTable κ (List ν)} {key : κ}
    (hl : m.table.lookup key = (none, t)) (value : ν) : (m.insert key value).table =
      (if t.isFull then (t.evict .front).2 else t).attach key [value] (m.table.hasher.hash key)
        .back := by
  rw [LinkedTable.lookup] at hl
  simp only [insert, hl]
  split
  · rcases t.evict .front with ⟨_ | node, t'⟩ <;> rfl
  · rfl

/-- An insertion keeps the table in order, and the version counts it with the eviction it makes. -/
theorem insert_kept (h : m.table.InOrder) (key : κ) (value : ν) :
    (m.insert key value).table.InOrder ∧
      enumerable.Kept m (.insert key value) .done (m.insert key value) := by
  obtain ⟨cells, h⟩ := h
  rcases h.search key with ⟨t, hl, hs⟩ | ⟨before, i, e, after, t, hl, hs, h₁⟩
  · have horder : t.InOrder := ⟨cells, hs.spells h⟩
    obtain ⟨hadmitted, hbumped⟩ := horder.admit hs.comparer key [value] .front .back
    rw [← insert_table hl value] at hadmitted hbumped
    exact ⟨hadmitted, .of_bumped rfl (hs.bumped.trans hbumped)⟩
  · have hchanged := h₁.modifyValue fun vs => vs ++ [value]
    rw [LinkedTable.lookup] at hl
    unfold insert
    dsimp only
    rw [hl]
    exact ⟨⟨_, (LinkedTable.touch_sameContents _).spells hchanged⟩,
      .of_bumped rfl (hs.bumped.trans (.change _ _))⟩

/-- A removal keeps the table in order, and the version counts it if it changes the map. -/
theorem remove_kept (h : m.table.InOrder) (key : κ) : (m.remove key).2.table.InOrder ∧
    enumerable.Kept m (.remove key) (.values (m.remove key).1) (m.remove key).2 := by
  have horder := h
  obtain ⟨cells, h⟩ := h
  unfold remove
  rcases h.search key with ⟨t, hl, hs⟩ | ⟨before, i, e, after, t, hl, hs, h₁⟩
  · rw [hl]
    exact kept_of_sameView hs horder rfl
  · obtain ⟨node, t', hdetach, -, -, hspells⟩ := h₁.detach
    rw [hl]
    dsimp only
    rw [hdetach]
    exact ⟨⟨_, hspells⟩, .of_bumped rfl (hs.bumped.trans (LinkedTable.detach_bumped hdetach))⟩

/-- Taking one value out keeps the table in order, and the version counts it if it changes the map.
-/
theorem removeValue_kept (h : m.table.InOrder) (key : κ) (value : ν) :
    (m.removeValue key value).2.table.InOrder ∧
      enumerable.Kept m (.removeValue key value) (.present (m.removeValue key value).1)
        (m.removeValue key value).2 := by
  have horder := h
  obtain ⟨cells, h⟩ := h
  unfold removeValue
  rcases h.search key with ⟨t, hl, hs⟩ | ⟨before, i, e, after, t, hl, hs, h₁⟩
  · rw [hl]
    exact kept_of_sameView hs horder rfl
  · rw [hl]
    dsimp only
    split
    · split
      · -- the key goes with its last value
        obtain ⟨node, t', hdetach, -, -, hspells⟩ := h₁.detach
        rw [hdetach]
        exact ⟨⟨_, hspells⟩, .of_bumped rfl (hs.bumped.trans (LinkedTable.detach_bumped hdetach))⟩
      · have hchanged := h₁.modifyValue fun _ =>
          (((t.entry? i).map (·.2)).getD []).eraseP (· == value)
        exact ⟨⟨_, (LinkedTable.touch_sameContents _).spells hchanged⟩,
          .of_bumped rfl (hs.bumped.trans (.change _ _))⟩
    · exact kept_of_sameView hs horder rfl

omit [BEq ν] in
/-- A lookup that requires its key leaves a cursor's view as it is. -/
theorem require_sameView (m : MultiMap κ ν) (key : κ) :
    m.table.SameView (m.require key).2.table := by
  have hs : m.table.SameView (m.get key).2.table := m.table.lookup_sameView key
  unfold require
  revert hs
  rcases m.get key with ⟨⟨⟩ | vs, m'⟩ <;> exact fun hs => hs

/-- Every operation keeps the table in order and the cursors in step. -/
theorem step_kept (h : m.table.InOrder) (op : Op κ ν) : (m.step op).2.table.InOrder ∧
    enumerable.Kept m op (m.step op).1 (m.step op).2 := by
  cases op with
  | insert key value => exact insert_kept h key value
  | remove key => exact remove_kept h key
  | removeValue key value => exact removeValue_kept h key value
  | get key | containsKey key => exact kept_of_sameView (m.table.lookup_sameView key) h rfl
  | require key => exact kept_of_sameView (m.require_sameView key) h rfl
  | containsValue value => exact kept_of_sameView (.refl _) h rfl
  | clear => exact ⟨⟨[], LinkedTable.clear_spells _⟩, .of_bumped rfl (.change _ _)⟩

/-- Multimaps keep their cursors in step. -/
theorem enumerable_sound :
    (enumerable : Enumerable (MultiMap κ ν) _ _ _).Sound fun m => m.table.InOrder where
  step {m op reply m'} h hstep := by
    have hkept := step_kept h op
    rw [show m.step op = (reply, m') from Option.some.inj hstep] at hkept
    exact hkept
  size {m} h := by
    obtain ⟨cells, h⟩ := h
    show m.table.arena.size = m.table.toList.length
    rw [h.toList_eq, List.length_map, h.size_eq]
  cursor h := by
    obtain ⟨cells, h⟩ := h
    exact ⟨_, fun _ => rfl, h.cursor_at⟩

/-- A new multimap guards its cursors, whatever the comparer. -/
theorem enumerable_guards {o : TableOptions} {f : Sizing.LoadFactor} (hvalid : o.check = .ok f)
    (c : Comparer κ) :
    (enumerable : Enumerable (MultiMap κ ν) _ _ _).Guards (withComparer o c) := by
  obtain ⟨m, hm, hstart⟩ : ∃ m : MultiMap κ ν, _ := withComparer_stands hvalid c
  obtain ⟨cells, hcells, -⟩ := hstart.models
  exact enumerable_sound.guards hm ⟨cells, hcells.spells⟩

end BoundedTables.MultiMap
