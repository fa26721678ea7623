import BoundedTables.RingMap
import BoundedTables.Proofs.Hashing.Policy
import BoundedTables.Proofs.Table.ChainIndex
import Mathlib.Data.List.Perm.Subperm
import Mathlib.Data.Nat.ModEq

/-!
# How the entries of a ring map lie in its ring

The slots of a ring are read as positions on an unbounded line, a slot being a position modulo the
length of the ring. `Laid m cells` says that the nodes of a map lie at strictly ascending positions
within one turn, that no other slot is occupied, and that the oldest and the newest slot are those
of the first and the last cell. Seeking from a slot then stops at the next cell, and the iteration
reads off the cells in order.
-/

namespace BoundedTables.RingMap

open Hashing Table

variable {κ ν : Type} {m m' : RingMap κ ν} {i n p q r : Nat} {node : RingNode κ ν}

/-- Positions within one turn of each other have different slots. -/
theorem mod_inj_of_close (h : p % n = q % n) (hp : p < q + n) (hq : q < p + n) : p = q := by
  have hpq : (p - q) % n = 0 := Nat.sub_mod_eq_zero_of_mod_eq h
  have hqp : (q - p) % n = 0 := Nat.sub_mod_eq_zero_of_mod_eq h.symm
  rw [Nat.mod_eq_of_lt (by omega)] at hpq hqp
  omega

/-- One step back from a slot is one step back from its position. -/
theorem back_mod (hp : 0 < p) : (p % n + n - 1) % n = (p - 1) % n := by
  rcases Nat.eq_zero_or_pos n with rfl | hn
  · simp
  · refine Nat.ModEq.add_right_cancel' 1 ?_
    rw [Nat.sub_add_cancel (by omega), Nat.sub_add_cancel hp]
    exact (Nat.add_mod_right _ _).trans (Nat.mod_mod p n)

/-- A position with its node. -/
abbrev Cell (κ ν : Type) : Type := Nat × RingNode κ ν

variable {cells before after : List (Cell κ ν)}

/-- The slot of a cell, and zero when there is none. -/
def slotOf (n : Nat) (cell : Option (Cell κ ν)) : Nat :=
  match cell with
  | some cell => cell.1 % n
  | none => 0

/-- The nodes of a map lie at ascending positions within one turn of its ring. -/
structure Placed (m : RingMap κ ν) (cells : List (Cell κ ν)) : Prop where
  room : 0 < m.ring.size
  spaced : cells.Pairwise fun a b => a.1 < b.1 ∧ b.1 < a.1 + m.ring.size
  node : ∀ cell ∈ cells, m.node? (cell.1 % m.ring.size) = some cell.2
  covered : ∀ i node, m.node? i = some node → ∃ cell ∈ cells, cell.1 % m.ring.size = i
  size : m.size = cells.length
  index : m.index.Partition fun i => (m.node? i).map (·.hash)

/-- The oldest and the newest slot are those of the first and the last cell. -/
structure Laid (m : RingMap κ ν) (cells : List (Cell κ ν)) : Prop extends Placed m cells where
  head : m.head = slotOf m.ring.size cells.head?
  tail : m.tail = slotOf m.ring.size cells.getLast?

/-- Two maps that were set up alike, evicted as much and show the same time. -/
structure SameSetup (m m' : RingMap κ ν) : Prop where
  comparer : m'.hasher.comparer = m.hasher.comparer
  mode : m'.mode = m.mode
  clock : m'.clock = m.clock
  evictions : m'.evictions = m.evictions

/-- A search keeps what a map was set up with, its evictions and its time. -/
theorem find_sameSetup (m : RingMap κ ν) (key : κ) (hash : UInt32) :
    m.SameSetup (m.find key hash).2 :=
  ⟨KeyHasher.record_comparer .., rfl, rfl, rfl⟩

/-- Two maps whose entries lie alike. -/
structure SameLayout (m m' : RingMap κ ν) : Prop where
  ring : m'.ring = m.ring
  index : m'.index = m.index
  head : m'.head = m.head
  tail : m'.tail = m.tail
  size : m'.size = m.size

/-- A search leaves the entries where they lie. -/
theorem find_sameLayout (m : RingMap κ ν) (key : κ) (hash : UInt32) :
    m.SameLayout (m.find key hash).2 :=
  ⟨rfl, rfl, rfl, rfl, rfl⟩

/-- Maps laid out alike have the same node in every slot. -/
theorem SameLayout.node?_eq (hs : m.SameLayout m') (i : Nat) : m'.node? i = m.node? i := by
  rw [node?, node?, hs.ring]

/-- Maps laid out alike have the same cells. -/
theorem SameLayout.laid (hs : m.SameLayout m') (h : m.Laid cells) : m'.Laid cells where
  room := by
    rw [hs.ring]
    exact h.room
  spaced := by
    rw [hs.ring]
    exact h.spaced
  node cell hcell := by
    rw [hs.node?_eq, hs.ring]
    exact h.node cell hcell
  covered i node hnode := by
    rw [hs.ring]
    exact h.covered i node (hs.node?_eq i ▸ hnode)
  size := hs.size.trans h.size
  index := by
    rw [hs.index]
    exact h.index.congr fun i => by rw [hs.node?_eq]
  head := by rw [hs.head, h.head, hs.ring]
  tail := by rw [hs.tail, h.tail, hs.ring]

/-! ## Positions -/

/-- A slot with a node is one of the ring. -/
theorem lt_size_of_node? (h : m.node? i = some node) : i < m.ring.size := by
  by_contra hi
  rw [node?, Array.getElem?_eq_none (Nat.le_of_not_lt hi)] at h
  cases h

/-- An occupied slot is that of a cell. -/
theorem Placed.exists_cell (h : m.Placed cells) (hnode : m.node? i = some node) :
    ∃ (before : List (Cell κ ν)) (p : Nat) (after : List (Cell κ ν)),
      cells = before ++ (p, node) :: after ∧ p % m.ring.size = i := by
  obtain ⟨⟨p, other⟩, hcell, hslot⟩ := h.covered i node hnode
  have hother := h.node (p, other) hcell
  rw [show p % m.ring.size = i from hslot, hnode, Option.some.injEq] at hother
  obtain ⟨before, after, heq⟩ := List.append_of_mem hcell
  exact ⟨before, p, after, by rw [heq, hother], hslot⟩

/-- The cells before a cell lie below it and those after it above, all within one turn. -/
theorem Placed.around {a : Cell κ ν} (h : m.Placed (before ++ a :: after)) :
    (∀ cell ∈ before, cell.1 < a.1 ∧ a.1 < cell.1 + m.ring.size) ∧
    ∀ cell ∈ after, a.1 < cell.1 ∧ cell.1 < a.1 + m.ring.size := by
  obtain ⟨-, hafter, hbefore⟩ := List.pairwise_append.mp h.spaced
  exact ⟨fun cell hcell => hbefore cell hcell a List.mem_cons_self,
    (List.pairwise_cons.mp hafter).1⟩

/-- The first cell has the lowest position. -/
theorem Placed.first_le {first : Cell κ ν} (h : m.Placed (first :: after)) :
    ∀ cell ∈ first :: after, first.1 ≤ cell.1 := by
  have hsplit : m.Placed ([] ++ first :: after) := h
  intro cell hcell
  rcases List.mem_cons.mp hcell with rfl | hcell
  · exact Nat.le_refl _
  · exact Nat.le_of_lt (hsplit.around.2 cell hcell).1

/-- The last cell has the highest position. -/
theorem Placed.le_last {last : Cell κ ν} (h : m.Placed (before ++ [last])) :
    ∀ cell ∈ before ++ [last], cell.1 ≤ last.1 := by
  intro cell hcell
  rcases List.mem_append.mp hcell with hcell | hcell
  · exact Nat.le_of_lt (h.around.1 cell hcell).1
  · rw [List.mem_singleton.mp hcell]

/-- Positions of two cells are within one turn. -/
theorem Placed.close (h : m.Placed cells) {a b : Cell κ ν} (ha : a ∈ cells) (hb : b ∈ cells) :
    a.1 < b.1 + m.ring.size := by
  have hroom := h.room
  obtain ⟨front, back, rfl⟩ := List.append_of_mem ha
  rcases List.mem_cons.mp (List.perm_middle.mem_iff.mp hb) with rfl | hb
  · omega
  · rcases List.mem_append.mp hb with hb | hb
    · exact (h.around.1 b hb).2
    · have := h.around.2 b hb
      omega

/-- Two cells have different slots. -/
theorem Placed.slot_ne {a cell : Cell κ ν} (h : m.Placed (before ++ a :: after))
    (hcell : cell ∈ before ++ after) : cell.1 % m.ring.size ≠ a.1 % m.ring.size := by
  intro heq
  have hmem : cell ∈ before ++ a :: after :=
    List.perm_middle.mem_iff.mpr (List.mem_cons_of_mem _ hcell)
  have hsame := mod_inj_of_close heq (h.close hmem (by simp)) (h.close (by simp) hmem)
  rcases List.mem_append.mp hcell with hc | hc
  · have := h.around.1 cell hc
    omega
  · have := h.around.2 cell hc
    omega

/-- A position close to every cell and taken by none has an empty slot. -/
theorem Placed.vacant (h : m.Placed cells) (hne : ∀ cell ∈ cells, cell.1 ≠ q)
    (hclose : ∀ cell ∈ cells, q < cell.1 + m.ring.size ∧ cell.1 < q + m.ring.size) :
    m.node? (q % m.ring.size) = none := by
  cases hnode : m.node? (q % m.ring.size) with
  | none => rfl
  | some node =>
      obtain ⟨cell, hcell, hslot⟩ := h.covered _ node hnode
      have hc := hclose cell hcell
      exact absurd (mod_inj_of_close hslot hc.2 hc.1) (hne cell hcell)

/-- No two cells share a slot. -/
theorem Placed.slots_nodup (h : m.Placed cells) :
    (cells.map fun cell => cell.1 % m.ring.size).Nodup := by
  rw [List.nodup_iff_pairwise_ne, List.pairwise_map]
  refine h.spaced.imp fun {a b} hab heq => ?_
  have := mod_inj_of_close heq (by omega) hab.2
  omega

/-- There are at most as many cells as slots. -/
theorem Placed.length_le (h : m.Placed cells) : cells.length ≤ m.ring.size := by
  have hsub : (cells.map fun cell => cell.1 % m.ring.size) ⊆ List.range m.ring.size := by
    intro i hi
    obtain ⟨cell, _, rfl⟩ := List.mem_map.mp hi
    exact List.mem_range.mpr (Nat.mod_lt _ h.room)
  simpa using (List.subperm_of_subset h.slots_nodup hsub).length_le

/-- Between a cell and the next one all slots are empty. -/
theorem Placed.vacant_between {a b : Cell κ ν} (h : m.Placed (before ++ a :: b :: after))
    (ha : a.1 < q) (hb : q < b.1) : m.node? (q % m.ring.size) = none := by
  have hnext : m.Placed ((before ++ [a]) ++ b :: after) := by simpa using h
  have hsides : ∀ cell ∈ before ++ a :: b :: after, cell.1 ≤ a.1 ∨ b.1 ≤ cell.1 := by
    intro cell hcell
    rcases List.mem_append.mp hcell with hcell | hcell
    · exact .inl (Nat.le_of_lt (h.around.1 cell hcell).1)
    · rcases List.mem_cons.mp hcell with rfl | hcell
      · exact .inl (Nat.le_refl _)
      · rcases List.mem_cons.mp hcell with rfl | hcell
        · exact .inr (Nat.le_refl _)
        · exact .inr (Nat.le_of_lt (hnext.around.2 cell hcell).1)
  refine h.vacant (fun cell hcell => ?_) fun cell hcell => ?_
  · have := hsides cell hcell
    omega
  · have hca : cell.1 < a.1 + m.ring.size := h.close hcell (by simp)
    have hbc : b.1 < cell.1 + m.ring.size := h.close (by simp) hcell
    have := hsides cell hcell
    omega

/-! ## Seeking -/

/-- Where a search ahead leads depends on the slot of its position only. -/
theorem seekForward_congr (count : Nat) (h : p % m.ring.size = q % m.ring.size) :
    m.seekForward count p = m.seekForward count q := by
  cases count <;> simp [seekForward, h]

/-- Where a search back leads depends on the slot of its position only. -/
theorem seekBackward_congr (count : Nat) (h : p % m.ring.size = q % m.ring.size) :
    m.seekBackward count p = m.seekBackward count q := by
  cases count <;> simp [seekBackward, h]

/-- Seeking forward stops at the first occupied slot. -/
theorem seekForward_eq {count : Nat} (hr : (m.node? (r % m.ring.size)).isSome) (hpr : p ≤ r)
    (hcount : r < p + count)
    (hempty : ∀ q, p ≤ q → q < r → m.node? (q % m.ring.size) = none) :
    m.seekForward count p = some (r % m.ring.size) := by
  induction count generalizing p with
  | zero => omega
  | succ count ih =>
      rcases Nat.eq_or_lt_of_le hpr with rfl | hlt
      · simp [seekForward, hr]
      · have hrest := ih (p := p + 1) (by omega) (by omega) fun q hq => hempty q (by omega)
        rw [seekForward, hempty p (Nat.le_refl p) hlt, ← hrest]
        simp only [Option.isSome_none, Bool.false_eq_true, ↓reduceIte]
        exact seekForward_congr count (by simp)

/-- Seeking backward stops at the last occupied slot. -/
theorem seekBackward_eq {count : Nat} (hr : (m.node? (r % m.ring.size)).isSome) (hrp : r ≤ p)
    (hcount : p < r + count)
    (hempty : ∀ q, r < q → q ≤ p → m.node? (q % m.ring.size) = none) :
    m.seekBackward count p = some (r % m.ring.size) := by
  induction count generalizing p with
  | zero => omega
  | succ count ih =>
      rcases Nat.eq_or_lt_of_le hrp with rfl | hlt
      · simp [seekBackward, hr]
      · have hrest := ih (p := p - 1) (by omega) (by omega) fun q hq hqp => hempty q hq (by omega)
        rw [seekBackward, hempty p hlt (Nat.le_refl p), ← hrest]
        simp only [Option.isSome_none, Bool.false_eq_true, ↓reduceIte]
        exact seekBackward_congr count (back_mod (by omega))

/-! ## Reading the nodes in order -/

/-- Collecting the values of a partial function over a range yields the cells that list them. -/
theorem filterMap_range' {α : Type} {g : Nat → Option α} {cells : List (Nat × α)} {count : Nat}
    (hsorted : cells.Pairwise fun a b => a.1 < b.1)
    (hcells : ∀ cell ∈ cells, p ≤ cell.1 ∧ cell.1 < p + count ∧ g cell.1 = some cell.2)
    (hrest : ∀ q, p ≤ q → q < p + count → (∀ cell ∈ cells, cell.1 ≠ q) → g q = none) :
    (List.range' p count).filterMap g = cells.map (·.2) := by
  induction count generalizing p cells with
  | zero =>
      cases cells with
      | nil => rfl
      | cons cell cells =>
          have := hcells cell (by simp)
          omega
  | succ count ih =>
      rw [List.range'_succ]
      -- the cells ascend, so only the first one can be at the first position of the range
      by_cases hhere : ∃ value rest, cells = (p, value) :: rest
      · obtain ⟨value, rest, rfl⟩ := hhere
        obtain ⟨hfirst, hsorted⟩ := List.pairwise_cons.mp hsorted
        rw [List.filterMap_cons_some (hcells (p, value) (by simp)).2.2, List.map_cons]
        refine congrArg _ (ih hsorted (fun cell hcell => ?_) fun q hq hqc hne => ?_)
        · have := hcells cell (by simp [hcell])
          have := hfirst cell hcell
          exact ⟨by omega, by omega, (hcells cell (by simp [hcell])).2.2⟩
        · refine hrest q (by omega) (by omega) fun cell hcell => ?_
          rcases List.mem_cons.mp hcell with rfl | hcell
          · omega
          · exact hne cell hcell
      · have hne : ∀ cell ∈ cells, cell.1 ≠ p := by
          intro cell hcell heq
          cases cells with
          | nil => cases hcell
          | cons first rest =>
              rcases List.mem_cons.mp hcell with rfl | hmem
              · exact hhere ⟨cell.2, rest, by rw [← heq]⟩
              · have := (List.pairwise_cons.mp hsorted).1 cell hmem
                have := (hcells first (by simp)).1
                omega
        rw [List.filterMap_cons_none (hrest p (Nat.le_refl p) (by omega) hne)]
        refine ih hsorted (fun cell hcell => ?_) fun q hq hqc => hrest q (by omega) (by omega)
        have := hcells cell hcell
        have := hne cell hcell
        exact ⟨by omega, by omega, (hcells cell hcell).2.2⟩

/-- Once around the ring from the oldest slot, the nodes are those of the cells. -/
theorem Laid.nodesByAge_eq (h : m.Laid cells) : m.nodesByAge = cells.map (·.2) := by
  obtain ⟨start, hstart, hfirst⟩ : ∃ start, m.head = start % m.ring.size ∧
      ∀ cell ∈ cells, start ≤ cell.1 ∧ cell.1 < start + m.ring.size := by
    cases cells with
    | nil => exact ⟨0, by rw [h.head]; simp [slotOf], fun _ hcell => absurd hcell (by simp)⟩
    | cons first rest =>
        exact ⟨first.1, h.head, fun cell hcell =>
          ⟨h.first_le cell hcell, h.close hcell (by simp)⟩⟩
  have hread : m.nodesByAge =
      (List.range' start m.ring.size).filterMap fun q => m.node? (q % m.ring.size) := by
    rw [nodesByAge, List.range'_eq_map_range, List.filterMap_map]
    refine List.filterMap_congr fun offset _ => ?_
    rw [hstart, Nat.mod_add_mod]
    rfl
  rw [hread]
  refine filterMap_range' (h.spaced.imp fun hab => hab.1) (fun cell hcell => ?_)
    fun q hq hqc hne => ?_
  · exact ⟨(hfirst cell hcell).1, (hfirst cell hcell).2, h.node cell hcell⟩
  · refine h.vacant hne fun cell hcell => ?_
    have := hfirst cell hcell
    omega

/-- The next cell lies within one turn ahead of a position, and no other one on the way to it. -/
def Ahead (m : RingMap κ ν) (p : Nat) (after : List (Cell κ ν)) : Prop :=
  ∀ cell ∈ after.head?, p ≤ cell.1 ∧ cell.1 < p + m.ring.size ∧
    ∀ q, p ≤ q → q < cell.1 → m.node? (q % m.ring.size) = none

/-- The first of the placed cells lies ahead of its own position. -/
theorem Placed.ahead_first (h : m.Placed cells) {first : Cell κ ν} (after : List (Cell κ ν)) :
    m.Ahead first.1 (first :: after) := by
  have hroom := h.room
  intro cell hcell
  obtain rfl : first = cell := by simpa using hcell
  exact ⟨Nat.le_refl _, by omega, fun q hq hqc => by omega⟩

/-- Behind a cell, the next one lies ahead. -/
theorem Placed.ahead_next {cell : Cell κ ν} (h : m.Placed (before ++ cell :: after)) :
    m.Ahead (cell.1 + 1) after := by
  intro second hsecond
  cases after with
  | nil => cases hsecond
  | cons other after =>
      obtain rfl : other = second := by simpa using hsecond
      have hpair := h.around.2 other (by simp)
      exact ⟨hpair.1, by omega, fun q hq hqo => h.vacant_between hq hqo⟩

/-- Seeking from a position stops at the cell ahead of it. -/
theorem Placed.seek_ahead {cell : Cell κ ν} (h : m.Placed (before ++ cell :: after))
    (hp : m.Ahead p (cell :: after)) :
    m.seekForward m.ring.size (p % m.ring.size) = some (cell.1 % m.ring.size) := by
  obtain ⟨hle, hlt, hempty⟩ := hp cell rfl
  have hnode := h.node cell (by simp)
  calc m.seekForward m.ring.size (p % m.ring.size)
      = m.seekForward m.ring.size p := seekForward_congr _ (Nat.mod_mod p _)
    _ = some (cell.1 % m.ring.size) := seekForward_eq (by simp [hnode]) hle hlt hempty

/-- The iteration from a position on reads off the cells ahead of it. -/
theorem Laid.drain_eq (h : m.Laid (before ++ after)) {fuel : Nat} (hfuel : after.length ≤ fuel)
    (hp : m.Ahead p after) :
    m.drain fuel ⟨p % m.ring.size, after.length⟩ =
      after.map fun cell => (cell.2.key, cell.2.value) := by
  -- the cells read so far join `before`, since it is the whole ring that is laid out
  induction after generalizing before p fuel with
  | nil => cases fuel <;> simp [drain, next]
  | cons cell after ih =>
      cases fuel with
      | zero => simp at hfuel
      | succ fuel =>
          have hnode := h.node cell (by simp)
          have hseek := h.seek_ahead hp
          have hsplit : m.Laid ((before ++ [cell]) ++ after) := by simpa using h
          have hrest := ih hsplit (Nat.le_of_succ_le_succ hfuel) h.ahead_next
          simp [drain, next, hseek, entry?, hnode, hrest]

/-- The entries from the oldest to the newest are those of the cells. -/
theorem Laid.toList_eq (h : m.Laid cells) :
    m.toList = cells.map fun cell => (cell.2.key, cell.2.value) := by
  rw [toList, iter, h.size, h.head]
  cases cells with
  | nil => rfl
  | cons first rest =>
      have hall : m.Laid ([] ++ first :: rest) := h
      exact hall.drain_eq (Nat.le_refl _) (h.ahead_first rest)

end BoundedTables.RingMap
