import BoundedTables.Proofs.RingMap
import BoundedTables.Proofs.Table.Cursor

/-!
# Cursors over ring maps

A ring map with its cursors is sound in the sense of `Enumerable.Sound`, whatever its comparer: the
entries stay laid out in the ring, a cursor seeks from cell to cell, and each operation moves the
version on exactly when it changes the map or evicts from it (`enumerable_sound`).
-/

namespace BoundedTables.RingMap

open Hashing Table

variable {κ ν : Type} {m m' : RingMap κ ν} {cells before after : List (Cell κ ν)}
  {node : RingNode κ ν} {op : Op κ ν} {reply : Reply κ ν} {i p : Nat}

/-- Whether an operation that was answered so changed the map. -/
def changes : Op κ ν → Reply κ ν → Bool
  | .insert _ _, .inserted (.ok _) | .remove _, .value (some _) => true
  | .popOldest, .entry (.ok _) | .clear, _ => true
  | _, _ => false

/-- Whether an operation that was answered so was a read or a miss. -/
def looks : Op κ ν → Reply κ ν → Bool
  | .get _, _ | .require _, _ | .containsKey _, _ | .timestamp _, _ => true
  | .oldest, _ | .newest, _ => true
  | .remove _, .value none | .modify _ _, .value none | .popOldest, .entry (.error _) => true
  | _, _ => false

/-- Ring maps with their cursors. -/
def enumerable : Enumerable (RingMap κ ν) (Op κ ν) (Reply κ ν) (κ × ν) where
  step m op := some (m.step op)
  toList := toList
  size := size
  version := version
  evictions := evictions
  cursor := cursor
  advance := advance
  changes := changes
  looks := looks

/-! ## Walking over the cells -/

/-- The entry that a cursor finds from a slot on, with the slot behind it. -/
def seekEntry (m : RingMap κ ν) (start : Nat) : Option ((κ × ν) × Option Nat) :=
  (m.seekForward m.ring.size start).bind fun i =>
    (m.entry? i).map fun e => (e, some ((i + 1) % m.ring.size))

/-- A position yields the entries of the cells ahead of it. -/
theorem Laid.yields (h : m.Laid (before ++ after)) (hp : m.Ahead p after) :
    Yields m.seekEntry (some (p % m.ring.size))
      (after.map fun cell => (cell.2.key, cell.2.value)) := by
  -- the cells yielded so far join `before`
  induction after generalizing before p with
  | nil => exact trivial
  | cons cell after ih =>
      have hnode := h.node cell (by simp)
      have hsplit : m.Laid ((before ++ [cell]) ++ after) := by simpa using h
      refine ⟨some ((cell.1 + 1) % m.ring.size), ?_, ih hsplit h.ahead_next⟩
      rw [Option.bind_some, seekEntry, h.seek_ahead hp]
      simp [ entry?, hnode]

/-- A new cursor has all entries before it. -/
theorem Laid.cursor_at (h : m.Laid cells) : m.cursor.At m.version m.seekEntry m.toList := by
  refine ⟨rfl, ?_, ?_⟩
  · show m.size = _
    rw [h.toList_eq, List.length_map, h.size]
  · rw [h.toList_eq]
    cases cells with
    | nil => exact trivial
    | cons first rest =>
        have hall : m.Laid ([] ++ first :: rest) := h
        have hpos : 0 < m.size := by
          rw [h.size]
          exact Nat.succ_pos _
        rw [cursor, if_pos hpos, show m.head = first.1 % m.ring.size from h.head]
        exact hall.yields (h.ahead_first rest)

/-! ## Maps that look alike -/

/-- Two maps whose entries, versions and evictions cannot be told apart. -/
structure SameView (m m' : RingMap κ ν) : Prop extends SameLayout m m' where
  version : m'.version = m.version
  evictions : m'.evictions = m.evictions

/-- A map cannot be told apart from itself. -/
theorem SameView.refl (m : RingMap κ ν) : m.SameView m := ⟨⟨rfl, rfl, rfl, rfl, rfl⟩, rfl, rfl⟩

/-- A lookup changes nothing that a cursor sees. -/
theorem lookup_sameView (m : RingMap κ ν) (key : κ) : m.SameView (m.lookup key).2 :=
  ⟨find_sameLayout .., rfl, rfl⟩

/-- Maps that cannot be told apart lead from a slot to the same next entry. -/
theorem SameView.seekForward_eq (hs : m.SameView m') (count position : Nat) :
    m'.seekForward count position = m.seekForward count position := by
  induction count generalizing position with
  | zero => rfl
  | succ count ih => simp only [seekForward, hs.node?_eq, hs.ring, ih]

/-- Maps that cannot be told apart advance every cursor alike. -/
theorem SameView.advance_eq (hs : m.SameView m') : m'.advance = m.advance := by
  funext c
  simp only [advance, entry?, hs.version, hs.ring, hs.seekForward_eq, hs.node?_eq]

/-- A lookup that finds a slot finds one with a cell, whatever the comparer. -/
theorem Laid.lookup (h : m.Laid cells) (key : κ) :
    (∃ m', m.lookup key = (none, m') ∧ m.SameView m' ∧ m'.clock = m.clock) ∨
    ∃ before p node after m', m.lookup key = (some (p % m'.ring.size), m') ∧ m.SameView m' ∧
      m'.clock = m.clock ∧ cells = before ++ (p, node) :: after ∧ m'.Laid cells := by
  have hs := m.lookup_sameView key
  rcases hfind : (m.lookup key).1 with _ | i
  · exact .inl ⟨_, Prod.ext hfind rfl, hs, rfl⟩
  · obtain ⟨-, hash, hhash⟩ := h.index.find_some hfind
    obtain ⟨node, hnode, -⟩ := Option.map_eq_some_iff.mp hhash
    obtain ⟨before, p, after, rfl, hslot⟩ := h.exists_cell hnode
    refine .inr ⟨before, p, node, after, _, Prod.ext ?_ rfl, hs, rfl, rfl, hs.laid h⟩
    rw [hfind, ← hslot, hs.ring]

/-! ## Versions -/

/-- How the version of a map moved on with some changes. -/
abbrev Bumped (m m' : RingMap κ ν) (changes : Nat) : Prop :=
  Table.Bumped m.version m'.version m.evictions m'.evictions changes

/-- Maps that cannot be told apart have the same version. -/
theorem SameView.bumped (hs : m.SameView m') : m.Bumped m' 0 := by
  rw [Bumped, hs.version, hs.evictions]
  exact .refl _ _

/-- Removing a node is a change. -/
theorem removeAt_bumped (h : m.removeAt i = (some node, m')) : m.Bumped m' 1 := by
  unfold removeAt at h
  split at h
  · cases h
  · rename_i node _
    obtain ⟨head, tail, heq⟩ := tighten_eq (m.vacate i node.hash) i
    rw [heq] at h
    cases h
    exact .change _ _

/-- An eviction moves the version on once. -/
theorem evictOldest_bumped (h : m.Laid ((p, node) :: after)) : m.Bumped m.evictOldest 0 := by
  obtain ⟨m', hremove, -⟩ := removeAt_head_laid h
  have hbumped : m.Bumped m' 1 := removeAt_bumped hremove
  unfold evictOldest
  dsimp only
  rw [hremove]
  exact hbumped.evicted

/-- Growing leaves the version as it is. -/
theorem grow_bumped (h : m.grow = .ok m') : m.Bumped m' 0 := by
  unfold grow at h
  dsimp only at h
  split at h
  · cases h
    exact .refl _ _
  · cases h

/-- Claiming a slot leaves the version as it is, but for an eviction. -/
theorem claimSlot_bumped (h : m.claimSlot = .ok (i, m')) : m.Bumped m' 0 := by
  unfold claimSlot at h
  dsimp only at h
  split at h
  · cases h
    exact .refl _ _
  · split at h
    · cases h
    · split at h <;> cases h <;> exact .refl _ _

/-! ## Each operation -/

/-- The entries of a map are laid out in its ring. -/
def InOrder (m : RingMap κ ν) : Prop := ∃ cells, m.Laid cells

/-- A read or a miss leaves every cursor alone. -/
theorem SameView.kept (hs : m.SameView m') (h : m.InOrder) (hchanges : changes op reply = false) :
    m'.InOrder ∧ enumerable.Kept m op reply m' := by
  obtain ⟨cells, h⟩ := h
  have hlist : m'.toList = m.toList := (hs.laid h).toList_eq.trans h.toList_eq.symm
  exact ⟨⟨cells, hs.laid h⟩, .of_same hchanges hs.bumped hlist hs.advance_eq⟩

/-- Making room that succeeds leaves room, and is no change but for an eviction. -/
theorem Laid.reserveOne (h : m.Laid cells) : (∃ e, m.reserveOne = (.error e, m)) ∨
    ∃ m' cells', m.reserveOne = (.ok (), m') ∧ m'.Laid cells' ∧ cells'.length < m'.ring.size ∧
      (cells'.map (·.2)).Sublist (cells.map (·.2)) ∧ m'.clock = m.clock ∧ m.Bumped m' 0 := by
  have hroom := h.room
  have hle := h.length_le
  rcases h.reserveOne_cases with ⟨hfree, hreserve⟩ | ⟨-, ⟨-, hreserve, cell, rest, rfl⟩ |
    ⟨-, hfits, m', hgrow, hreserve⟩ | ⟨-, -, hreserve⟩⟩
  · exact .inr ⟨m, cells, hreserve, h, hfree, .refl _, rfl, .refl _ _⟩
  · obtain ⟨hlaid, hsetup, hring⟩ := evictOldest_laid h
    refine .inr ⟨_, rest, hreserve, hlaid, ?_, List.sublist_cons_self _ _, hsetup.clock,
      evictOldest_bumped h⟩
    rw [hring]
    exact hle
  · obtain ⟨m₁, hgrow', hlaid, hsetup, hring⟩ := grow_laid h hfits
    cases hgrow.symm.trans hgrow'
    refine .inr ⟨m', _, hreserve, hlaid, ?_, by rw [packed_nodes], hsetup.clock,
      grow_bumped hgrow⟩
    have hlength : (packed (cells.map (·.2))).length = cells.length := by simp
    rw [hlength, hring]
    omega
  · exact .inl ⟨_, hreserve⟩

/-- What an insertion does: it fails without a change, puts a new entry behind the ones it made room
among, or renews the entry that was found. -/
theorem Laid.insert_cases (h : m.Laid cells) (key : κ) (value : ν) :
    (∃ e m', m.insert key value = (.error e, m') ∧ m.SameView m' ∧ m'.clock = m.clock) ∨
    (∃ p m' cells', m.insert key value = (.ok none,
        m'.occupy (p % m'.ring.size) key value (m.hasher.hash key)) ∧ m'.Laid cells' ∧
      (∀ cell ∈ cells', cell.1 < p ∧ p < cell.1 + m'.ring.size) ∧
      (cells' = [] → m'.head = p % m'.ring.size) ∧
      (cells'.map (·.2)).Sublist (cells.map (·.2)) ∧ m'.clock = m.clock ∧ m.Bumped m' 0) ∨
    ∃ before p node after previous m', m.insert key value = (.ok previous,
        { m'.change (p % m'.ring.size) fun node => { node with value, stamp := m'.clock + 1 } with
          clock := m'.clock + 1
          version := m'.version + 1 }) ∧ m.SameView m' ∧ m'.clock = m.clock ∧
      cells = before ++ (p, node) :: after ∧ m'.Laid cells := by
  rcases h.lookup key with ⟨m₁, hl, hs, hclock⟩ |
    ⟨before, p, node, after, m₁, hl, hs, hclock, hcells, h₁⟩ <;> rw [RingMap.lookup] at hl
  · -- of making room, claiming a slot and occupying it, only the last is a change
    rcases (hs.laid h).reserveOne with ⟨e, hreserve⟩ |
      ⟨m₂, cells₂, hreserve, h₂, hfree, hnodes₂, hclock₂, hbumped₂⟩
    · exact .inl ⟨e, m₁, by simp only [insert, hl, hreserve], hs, hclock⟩
    · obtain ⟨p, m₃, cells₃, hclaim, h₃, hsetup₃, hring, hnodes₃, hbehind, hfirst⟩ :=
        claimSlot_laid h₂ hfree
      have hbumped₃ := claimSlot_bumped hclaim
      rw [← hring] at hbehind hfirst hclaim
      refine .inr (.inl ⟨p, m₃, cells₃, by simp only [insert, hl, hreserve, hclaim], h₃, hbehind,
        hfirst, ?_, hsetup₃.clock.trans (hclock₂.trans hclock),
        (hs.bumped.trans hbumped₂).trans hbumped₃⟩)
      rw [hnodes₃]
      exact hnodes₂
  · exact .inr (.inr ⟨before, p, node, after, (m₁.node? (p % m₁.ring.size)).map (·.value), m₁,
      by simp only [insert, hl, change], hs, hclock, hcells, h₁⟩)

/-- An insertion keeps the entries laid out, and the version counts it with the eviction it makes.
-/
theorem insert_kept (h : m.InOrder) (key : κ) (value : ν) :
    (m.insert key value).2.InOrder ∧
      enumerable.Kept m (.insert key value) (.inserted (m.insert key value).1)
        (m.insert key value).2 := by
  obtain ⟨cells, h⟩ := h
  rcases h.insert_cases key value with ⟨e, m', hinsert, hs, -⟩ |
    ⟨p, m', cells', hinsert, h', hbehind, hfirst, -, -, hbumped⟩ |
    ⟨before, p, node, after, previous, m', hinsert, hs, -, rfl, h'⟩ <;> rw [hinsert]
  · exact ⟨⟨cells, hs.laid h⟩, .of_bumped rfl hs.bumped⟩
  · exact ⟨⟨_, occupy_laid h' key value _ hbehind hfirst⟩,
      .of_bumped rfl (hbumped.trans (.change _ _))⟩
  · have hchanged := change_laid h' (f := fun node => { node with value, stamp := m'.clock + 1 })
      rfl
    exact ⟨⟨_, SameLayout.laid (m := m'.change _ _) ⟨rfl, rfl, rfl, rfl, rfl⟩ hchanged⟩,
      .of_bumped rfl (hs.bumped.trans (.change _ _))⟩

/-- A removal keeps the entries laid out, and the version counts it if it changes the map. -/
theorem remove_kept (h : m.InOrder) (key : κ) : (m.remove key).2.InOrder ∧
    enumerable.Kept m (.remove key) (.value (m.remove key).1) (m.remove key).2 := by
  have horder := h
  obtain ⟨cells, h⟩ := h
  unfold remove
  rcases h.lookup key with ⟨m₁, hl, hs, -⟩ | ⟨before, p, node, after, m₁, hl, hs, -, rfl, h₁⟩ <;>
    rw [hl]
  · exact hs.kept horder rfl
  · obtain ⟨m₂, hremove, hlaid, -⟩ := removeAt_laid h₁
    dsimp only
    rw [hremove]
    exact ⟨⟨_, hlaid⟩, .of_bumped rfl (hs.bumped.trans (removeAt_bumped hremove))⟩

/-- Taking the oldest entry off keeps the others laid out, and the version counts it if there was
one. -/
theorem popOldest_kept (h : m.InOrder) : m.popOldest.2.InOrder ∧
    enumerable.Kept m .popOldest (.entry m.popOldest.1) m.popOldest.2 := by
  obtain ⟨cells, h⟩ := h
  unfold popOldest
  cases cells with
  | nil =>
      have hsize : m.size = 0 := h.size
      rw [if_pos hsize]
      exact (SameView.refl m).kept ⟨[], h⟩ rfl
  | cons first rest =>
      have hsize : m.size ≠ 0 := by simp [h.size]
      obtain ⟨m₁, hremove, hlaid, -⟩ := removeAt_head_laid h
      rw [if_neg hsize, hremove]
      exact ⟨⟨rest, hlaid⟩, .of_bumped rfl (removeAt_bumped hremove)⟩

/-- A modification keeps the entries laid out, and is no change to a cursor. -/
theorem modify_kept (h : m.InOrder) (key : κ) (f : ν → ν) : (m.modify key f).2.InOrder ∧
    enumerable.Kept m (.modify key f) (.value (m.modify key f).1) (m.modify key f).2 := by
  have horder := h
  obtain ⟨cells, h⟩ := h
  unfold modify
  rcases h.lookup key with ⟨m₁, hl, hs, -⟩ | ⟨before, p, node, after, m₁, hl, hs, -, rfl, h₁⟩ <;>
    rw [hl]
  · exact hs.kept horder rfl
  · have hchanged := change_laid h₁ (f := fun node => { node with value := f node.value }) rfl
    have hnode := hchanged.node _ (List.mem_append_right _ List.mem_cons_self)
    rw [change_ring_size, change] at hnode
    -- a value written in its slot is no change, and the answer tells that it is no miss either
    refine ⟨⟨_, hchanged⟩, .of_bumped ?_ hs.bumped⟩
    dsimp only
    rw [hnode]
    rfl

/-- A cleared map has no entry laid out, and the version counts the change. -/
theorem clear_kept (h : m.InOrder) :
    m.clear.InOrder ∧ enumerable.Kept m .clear .done m.clear := by
  obtain ⟨cells, h⟩ := h
  exact ⟨⟨[], clear_laid h.room⟩, .of_bumped rfl (.change _ _)⟩

/-- A lookup that requires its key changes nothing that a cursor sees. -/
theorem require_sameView (m : RingMap κ ν) (key : κ) : m.SameView (m.require key).2 := by
  have hs : m.SameView (m.get key).2 := m.lookup_sameView key
  unfold require
  revert hs
  rcases m.get key with ⟨⟨⟩ | v, m'⟩ <;> exact fun hs => hs

/-- Every operation keeps the entries in order and the cursors in step. -/
theorem step_kept (h : m.InOrder) (op : Op κ ν) : (m.step op).2.InOrder ∧
    enumerable.Kept m op (m.step op).1 (m.step op).2 := by
  cases op with
  | insert key value => exact insert_kept h key value
  | remove key => exact remove_kept h key
  | modify key f => exact modify_kept h key f
  | get key | containsKey key | timestamp key => exact (m.lookup_sameView key).kept h rfl
  | require key => exact (m.require_sameView key).kept h rfl
  | oldest | newest => exact (SameView.refl m).kept h rfl
  | popOldest => exact popOldest_kept h
  | clear => exact clear_kept h

/-- Ring maps keep their cursors in step. -/
theorem enumerable_sound : (enumerable : Enumerable (RingMap κ ν) _ _ _).Sound InOrder where
  step {m op reply m'} h hstep := by
    have hkept := step_kept h op
    rw [show m.step op = (reply, m') from Option.some.inj hstep] at hkept
    exact hkept
  size {m} h := by
    obtain ⟨cells, h⟩ := h
    show m.size = m.toList.length
    rw [h.toList_eq, List.length_map, h.size]
  cursor h := by
    obtain ⟨cells, h⟩ := h
    exact ⟨_, fun _ => rfl, h.cursor_at⟩

/-- A new ring map guards its cursors, whatever the comparer. -/
theorem enumerable_guards {o : TableOptions} {f : Sizing.LoadFactor} (hvalid : o.check = .ok f)
    (c : Comparer κ) :
    (enumerable : Enumerable (RingMap κ ν) _ _ _).Guards (withComparer o c) := by
  obtain ⟨m, hm, cells, hcells, -⟩ : ∃ m : RingMap κ ν, _ := withComparer_stands hvalid c
  exact enumerable_sound.guards hm ⟨cells, hcells.laid⟩

end BoundedTables.RingMap
