import BoundedTables.Proofs.Table.Cursor
import BoundedTables.Proofs.Table.LinkedTable

/-!
# Cursors over linked tables

What the maps over a linked table share about their cursors. A cursor walks from cell to cell
(`Spells.cursor_at`), every lookup that finds a slot finds one with a cell whatever the comparer
(`Spells.search`), and each change of a table moves its version on by one, an eviction by one more
(`Bumped`).
-/

namespace BoundedTables.Table.LinkedTable

open Hashing

variable {κ ν : Type} {t t' : LinkedTable κ ν} {cells before after : List (Cell κ ν)} {i : Nat}

/-! ## Walking over the cells -/

/-- The entry in a slot, with the slot behind it. -/
def seekEntry (t : LinkedTable κ ν) (i : Nat) : Option ((κ × ν) × Option Nat) :=
  (t.entry? i).map fun e => (e, t.order.after i)

/-- The slot of a cell yields the entries from it on. -/
theorem Spells.yields (h : t.Spells (before ++ after)) :
    Yields t.seekEntry (after.map (·.1)).head? (after.map (·.2)) := by
  -- the cells yielded so far join `before`
  induction after generalizing before with
  | nil => exact trivial
  | cons cell after ih =>
      have hentry := h.entry cell (by simp)
      have hafter := (h.linked.order.links (before.map (·.1)) cell.1 (after.map (·.1)) (by simp)).1
      have hsplit : t.Spells ((before ++ [cell]) ++ after) := by simpa using h
      refine ⟨(after.map (·.1)).head?, ?_, ih hsplit⟩
      show t.seekEntry cell.1 = _
      rw [seekEntry, hentry, hafter]
      rfl

/-- A new cursor has all entries before it. -/
theorem Spells.cursor_at (h : t.Spells cells) :
    t.cursor.At t.version t.seekEntry t.toList := by
  have hall : t.Spells ([] ++ cells) := h
  refine ⟨rfl, ?_, ?_⟩
  · show t.arena.size = _
    rw [h.toList_eq, List.length_map, h.size_eq]
  · show Yields t.seekEntry t.order.head _
    rw [h.toList_eq, h.linked.order.head]
    exact hall.yields

/-! ## Tables that look alike -/

/-- Two tables whose contents and versions cannot be told apart. -/
structure SameView (t t' : LinkedTable κ ν) : Prop extends SameContents t t' where
  version : t'.version = t.version

/-- A table cannot be told apart from itself. -/
theorem SameView.refl (t : LinkedTable κ ν) : t.SameView t :=
  ⟨⟨⟨rfl, rfl, rfl, rfl⟩, rfl, rfl, rfl⟩, rfl⟩

/-- A lookup changes nothing that a cursor sees. -/
theorem lookup_sameView (t : LinkedTable κ ν) (key : κ) : t.SameView (t.lookup key).2 :=
  ⟨find_sameContents .., rfl⟩

/-- Tables that cannot be told apart advance every cursor alike. -/
theorem SameView.advance_eq (hs : t.SameView t') : t'.advance = t.advance := by
  funext c
  simp only [advance, entry?, hs.version, hs.arena, hs.order]

/-- A lookup that finds a slot finds one with a cell, whatever the comparer. -/
theorem Spells.search (h : t.Spells cells) (key : κ) :
    (∃ t', t.lookup key = (none, t') ∧ t.SameView t') ∨
    ∃ before i e after t', t.lookup key = (some i, t') ∧ t.SameView t' ∧
      t'.Spells (before ++ (i, e) :: after) := by
  have hs := t.lookup_sameView key
  rcases hfind : (t.lookup key).1 with _ | i
  · exact .inl ⟨_, Prod.ext hfind rfl, hs⟩
  · obtain ⟨-, hash, hhash⟩ := h.linked.index.find_some hfind
    obtain ⟨node, hnode, -⟩ := Option.map_eq_some_iff.mp hhash
    obtain ⟨before, after, rfl⟩ := h.exists_cell hnode
    exact .inr ⟨before, i, _, after, _, Prod.ext hfind rfl, hs, hs.spells h⟩

/-! ## Versions -/

/-- How the version of a table moved on with some changes. -/
abbrev Bumped (t t' : LinkedTable κ ν) (changes : Nat) : Prop :=
  Table.Bumped t.version t'.version t.evictions t'.evictions changes

/-- Tables that cannot be told apart have the same version. -/
theorem SameView.bumped (hs : t.SameView t') : t.Bumped t' 0 := by
  rw [Bumped, hs.version, hs.evictions]
  exact .refl _ _

/-- Attaching an entry is one change. -/
theorem attach_bumped (t : LinkedTable κ ν) (key : κ) (value : ν) (hash : UInt32) (side : End) :
    t.Bumped (t.attach key value hash side) 1 := by
  obtain ⟨index, journal, heq⟩ := growIndex_eq (t.attached ⟨key, value, hash⟩ side)
  rw [attach_eq, heq]
  exact .change _ _

/-- Detaching a node is a change. -/
theorem detach_bumped {node : LinkedNode κ ν} (h : t.detach i = (some node, t')) :
    t.Bumped t' 1 := by
  unfold detach at h
  split at h
  · cases h
  · cases h
    exact .change _ _

/-- Evicting a node is no change, but is counted. -/
theorem evict_bumped {node : LinkedNode κ ν} {side : End} (h : t.evict side = (some node, t')) :
    t.Bumped t' 0 := by
  unfold evict at h
  split at h
  · cases h
  · rename_i i _
    rcases hdetach : t.detach i with ⟨_ | node, t₁⟩ <;> rw [hdetach] at h <;> cases h
    exact (detach_bumped hdetach).evicted

/-! ## Tables in order -/

/-- A table spells out its contents. -/
def InOrder (t : LinkedTable κ ν) : Prop := ∃ cells, t.Spells cells

/-- Evicting keeps a table in order and keeps its comparer. -/
theorem InOrder.evict (h : t.InOrder) (side : End) : (t.evict side).2.InOrder ∧
    (t.evict side).2.hasher.comparer = t.hasher.comparer ∧ t.Bumped (t.evict side).2 0 := by
  obtain ⟨cells, h⟩ := h
  rcases eq_or_ne cells [] with rfl | hne
  · rw [LinkedTable.evict, h.slotAt_nil]
    exact ⟨⟨[], h⟩, rfl, .refl _ _⟩
  · obtain ⟨⟨i, e⟩, rest, rfl⟩ := side.exists_place hne
    obtain ⟨node, t', hevict, -, hsetup, hspells⟩ := h.evict
    rw [hevict]
    exact ⟨⟨rest, hspells⟩, hsetup.comparer, evict_bumped hevict⟩

/-- A new key is one change, besides the eviction that may make room for it. -/
theorem InOrder.admit (h : t.InOrder) {hasher : KeyHasher κ}
    (hcomparer : t.hasher.comparer = hasher.comparer) (key : κ) (value : ν) (room side : End) :
    ((if t.isFull then (t.evict room).2 else t).attach key value (hasher.hash key) side).InOrder ∧
      t.Bumped ((if t.isFull then (t.evict room).2 else t).attach key value (hasher.hash key)
        side) 1 := by
  -- a table in order with the same comparer stays in order with a new key under its hash
  have hattach {t' : LinkedTable κ ν} (h' : t'.InOrder)
      (hsame : t'.hasher.comparer = t.hasher.comparer) :
      (t'.attach key value (hasher.hash key) side).InOrder := by
    obtain ⟨cells, h'⟩ := h'
    obtain ⟨i, hspells⟩ := h'.attach key value side
    rw [KeyHasher.hash, hsame, hcomparer] at hspells
    exact ⟨_, hspells⟩
  split
  · obtain ⟨hevicted, hsame, hbumped⟩ := h.evict room
    exact ⟨hattach hevicted hsame, hbumped.trans (attach_bumped ..)⟩
  · exact ⟨hattach h rfl, attach_bumped ..⟩

end BoundedTables.Table.LinkedTable
