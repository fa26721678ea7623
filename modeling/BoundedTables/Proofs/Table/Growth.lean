import BoundedTables.Proofs.Sizing.Growth
import BoundedTables.Proofs.Table.Reachable

/-!
# The buckets of a linked table

A map adds one entry at a time to its table, which then checks once whether its index should grow.
Nothing else changes the number of buckets (`Turn.resizes`). So the buckets of a table keep up with
its entries, and those of a table with a fixed capacity grow once at most (`Loaded.turns`), whatever
the hashes are.
-/

namespace BoundedTables.Table

open Hashing Sizing

namespace LinkedTable

variable {κ ν : Type} {t t' : LinkedTable κ ν} {slots : List Nat} {i first : Nat}
  {f : LoadFactor} {limit : Option Nat}

/-! ## Entries and buckets after each operation -/

/-- The number of buckets. -/
def buckets (t : LinkedTable κ ν) : Nat := t.index.bucketCount

/-- Growing takes the buckets to the count that the entries ask for. -/
theorem growIndex_buckets (t : LinkedTable κ ν) :
    t.growIndex.buckets = grown t.loadFactor t.buckets t.size := by
  unfold growIndex grown buckets size
  dsimp only
  split
  · rfl
  · cases hnext : nextPrime (min (2 * t.index.bucketCount) Binary64.maxWord) with
    | none => rfl
    | some p =>
        have htwo := nextPrime_ge hnext
        exact (ChainIndex.ofSlots_bucketCount p _).trans (Nat.max_eq_left (by omega))

/-- An attached entry makes one more. -/
theorem attach_size (t : LinkedTable κ ν) (key : κ) (value : ν) (hash : UInt32) (side : End) :
    (t.attach key value hash side).size = t.size + 1 := by
  obtain ⟨index, journal, heq⟩ := growIndex_eq (t.attached ⟨key, value, hash⟩ side)
  rw [attach_eq, heq]
  exact Arena.insert_size t.arena _

/-- After an attachment there are the buckets that one entry more asks for. -/
theorem attach_buckets (t : LinkedTable κ ν) (key : κ) (value : ν) (hash : UInt32) (side : End) :
    (t.attach key value hash side).buckets = grown t.loadFactor t.buckets (t.size + 1) := by
  have hsize : (t.attached ⟨key, value, hash⟩ side).size = t.size + 1 :=
    Arena.insert_size t.arena _
  have hbuckets : (t.attached ⟨key, value, hash⟩ side).buckets = t.buckets :=
    t.index.link_bucketCount ..
  rw [attach_eq, growIndex_buckets, hsize, hbuckets]
  rfl

/-- Attaching an entry keeps the load factor and the limit. -/
theorem attach_terms (t : LinkedTable κ ν) (key : κ) (value : ν) (hash : UInt32) (side : End) :
    (t.attach key value hash side).loadFactor = t.loadFactor ∧
      (t.attach key value hash side).limit? = t.limit? := by
  obtain ⟨index, journal, heq⟩ := growIndex_eq (t.attached ⟨key, value, hash⟩ side)
  rw [attach_eq, heq]
  exact ⟨rfl, rfl⟩

/-- An operation keeps what a table was set up with and its buckets, and adds no entry. -/
structure Lessens (t t' : LinkedTable κ ν) : Prop where
  loadFactor : t'.loadFactor = t.loadFactor
  limited : t'.limit? = t.limit?
  buckets : t'.buckets = t.buckets
  size : t'.size ≤ t.size

/-- Detaching an entry adds none and keeps the buckets. -/
theorem detach_lessens (t : LinkedTable κ ν) (i : Nat) : t.Lessens (t.detach i).2 := by
  unfold detach
  split
  · exact ⟨rfl, rfl, rfl, Nat.le_refl _⟩
  · rename_i node hnode
    refine ⟨rfl, rfl, t.index.unlink_bucketCount node.hash i, ?_⟩
    exact (Arena.remove_size hnode).trans_le (Nat.sub_le _ _)

/-- An eviction adds no entry and keeps the buckets. -/
theorem evict_lessens (t : LinkedTable κ ν) (side : End) : t.Lessens (t.evict side).2 := by
  unfold LinkedTable.evict
  split
  · exact ⟨rfl, rfl, rfl, Nat.le_refl _⟩
  · rename_i i _
    have hless := t.detach_lessens i
    rcases hdetach : t.detach i with ⟨_ | node, t'⟩ <;> rw [hdetach] at hless
    · exact hless
    · exact ⟨hless.loadFactor, hless.limited, hless.buckets, hless.size⟩

/-- An eviction from a table that is not empty takes an entry out. -/
theorem Linked.evict_size (h : t.Linked slots) (hsize : 0 < t.size) (side : End) :
    (t.evict side).2.size + 1 = t.size := by
  have hne : slots ≠ [] := by
    rintro rfl
    exact Nat.ne_of_gt hsize h.size
  obtain ⟨i, rest, rfl⟩ := side.exists_place hne
  have hslot : t.slotAt side = some i := by
    cases side with
    | front => exact h.order.head
    | back => exact h.order.tail.trans List.getLast?_concat
  obtain ⟨node, hnode⟩ : ∃ node, t.arena.get? i = some node :=
    Option.isSome_iff_exists.mp ((h.occupied i).mp ((side.place_perm i rest).mem_iff.mpr (.head _)))
  unfold LinkedTable.evict
  rw [hslot]
  dsimp only
  unfold LinkedTable.detach
  rw [hnode]
  show (t.arena.remove i).2.size + 1 = t.size
  rw [Arena.remove_size hnode]
  exact Nat.sub_add_cancel hsize

/-- What a map does to the entries of its table and to the buckets. -/
inductive Resizes (t t' : LinkedTable κ ν) : Prop
  | kept (hless : t.Lessens t')
  /-- An entry joined, and the index was checked for growth. A limit still holds if it did. -/
  | joined (hfactor : t'.loadFactor = t.loadFactor) (hlimited : t'.limit? = t.limit?)
      (hsize : t'.size ≤ t.size + 1)
      (hbound : ∀ n ∈ t.limit?, 0 < n → t.size ≤ n → t'.size ≤ n)
      (hbuckets : t'.buckets = grown t.loadFactor t.buckets t'.size)

/-- Every operation of a map resizes its table in one of these ways. -/
theorem Turn.resizes (hturn : Turn t t') (h : t.Linked slots) : t.Resizes t' := by
  cases hturn with
  | find key hash => exact .kept ⟨rfl, rfl, rfl, Nat.le_refl _⟩
  | touch => exact .kept ⟨rfl, rfl, rfl, Nat.le_refl _⟩
  | accept key value hash room side =>
      cases hfull : t.isFull with
      | false =>
          rw [if_neg nofun]
          obtain ⟨hfactor, hlimited⟩ := t.attach_terms key value hash side
          refine .joined hfactor hlimited (t.attach_size key value hash side).le ?_ ?_
          · intro n hn _ hle
            rw [isFull_eq, hn, Option.any_some, decide_eq_false_iff_not] at hfull
            rw [attach_size]
            exact Nat.lt_of_not_le hfull
          · rw [attach_buckets, attach_size]
      | true =>
          have hless := t.evict_lessens room
          obtain ⟨hfactor, hlimited⟩ := (t.evict room).2.attach_terms key value hash side
          rw [if_pos rfl]
          refine .joined (hfactor.trans hless.loadFactor) (hlimited.trans hless.limited) ?_ ?_ ?_
          · rw [attach_size]
            exact Nat.succ_le_succ hless.size
          · -- a full table is not empty, and the entry takes the place of another one
            intro n hn hpos hle
            rw [isFull_eq, hn, Option.any_some, decide_eq_true_eq] at hfull
            rw [attach_size, h.evict_size (hpos.trans_le hfull) room]
            exact hle
          · rw [attach_buckets, attach_size, hless.loadFactor, hless.buckets]
  | detach i => exact .kept (t.detach_lessens i)
  | moveTo i side hoccupied => exact .kept ⟨rfl, rfl, rfl, Nat.le_refl _⟩
  | modifyValue i g => exact .kept ⟨rfl, rfl, rfl, Nat.le_refl _⟩
  | clear =>
      exact .kept ⟨rfl, rfl, t.index.clear_bucketCount h.index.buckets_pos, Nat.zero_le _⟩

/-! ## Tables that keep their load -/

/-- The buckets of a table keep up with its entries. Under a limit there are the first buckets or,
if they do not hold that many entries, the next ones. -/
structure Loaded (f : LoadFactor) (limit : Option Nat) (first : Nat) (t : LinkedTable κ ν) :
    Prop where
  linked : ∃ slots, t.Linked slots
  loadFactor : t.loadFactor = f
  limited : t.limit? = limit
  fits : Fits f t.buckets t.size
  bound : ∀ n ∈ limit, t.size ≤ n
  provides : ∀ n ∈ limit, Provides f n first t.buckets

/-- Twice the first buckets hold as many entries as a limit allows. -/
def Ample (f : LoadFactor) (limit : Option Nat) (first : Nat) : Prop :=
  ∀ n ∈ limit, 0 < n ∧ n < 2 ^ 53 ∧ n * f.denominator ≤ 2 * first * f.numerator

/-- An operation of a map leaves buckets that keep up with the entries. -/
theorem Loaded.turn (h : t.Loaded f limit first) (hample : Ample f limit first)
    (hturn : Turn t t') : t'.Loaded f limit first := by
  obtain ⟨⟨slots, hlinked⟩, rfl, rfl, hfits, hbound, hprovides⟩ := h
  have hlinked' := hturn.reaches.linked hlinked
  cases hturn.resizes hlinked with
  | kept hless =>
      refine ⟨hlinked', hless.loadFactor, hless.limited, ?_, ?_, ?_⟩
      · rw [hless.buckets]
        exact hfits.fewer hless.size
      · exact fun n hn => hless.size.trans (hbound n hn)
      · rw [hless.buckets]
        exact hprovides
  | joined hfactor hlimited hsize hkept hbuckets =>
      have hbound' (n : Nat) (hn : n ∈ t.limit?) : t'.size ≤ n :=
        hkept n hn (hample n hn).1 (hbound n hn)
      refine ⟨hlinked', hfactor, hlimited, ?_, hbound', ?_⟩
      · rw [hbuckets]
        exact hfits.grown hsize
      · intro n hn
        obtain ⟨-, hsmall, hwide⟩ := hample n hn
        rw [hbuckets]
        exact (hprovides n hn).grown hsmall hwide (hbound' n hn)

/-- Any number of operations leave buckets that keep up with the entries. -/
theorem Loaded.turns (h : t.Loaded f limit first) (hample : Ample f limit first)
    (hturns : Turns t t') : t'.Loaded f limit first := by
  induction hturns with
  | refl => exact h
  | tail _ hturn ih => exact ih.turn hample hturn

/-! ## New tables -/

variable {o : TableOptions}

/-- The capacity of checked options is well below the naturals that a double cannot hold. -/
theorem ample_of_check (hvalid : o.check = .ok f)
    (huncapped : f.placesFor o.capacity ≤ 4 * maxCapacity) :
    Ample f o.limit? (bucketCount o.capacity f) := by
  obtain ⟨hpos, hle⟩ := TableOptions.check_ok hvalid
  have hcapacity : ∀ n ∈ o.limit?, n = o.capacity := by
    intro n hn
    unfold TableOptions.limit? CapacityMode.limit? at hn
    split at hn
    · exact (Option.some.inj hn).symm
    · cases hn
  intro n hn
  obtain rfl := hcapacity n hn
  exact ⟨hpos, hle.trans_lt (by decide), bucketCount_wide hpos huncapped⟩

/-- A new table has the first buckets. -/
theorem withComparer_loaded (hvalid : o.check = .ok f)
    (huncapped : f.placesFor o.capacity ≤ 4 * maxCapacity) (c : Comparer κ) :
    ∃ t : LinkedTable κ ν, withComparer o c = .ok t ∧
      t.Loaded f o.limit? (bucketCount o.capacity f) := by
  obtain ⟨t, ht, hlinked⟩ : ∃ t : LinkedTable κ ν, _ := withComparer_linked hvalid c
  refine ⟨t, ht, ?_⟩
  have hbuilt : t = build o f (KeyHasher.withComparer o.hashing c).1
      (KeyHasher.withComparer o.hashing c).2 := by
    rw [withComparer, hvalid] at ht
    exact (Except.ok.inj ht).symm
  have hbuckets : t.buckets = bucketCount o.capacity f := by
    rw [hbuilt]
    exact Array.size_replicate.trans (Nat.max_eq_left (Nat.le_of_succ_le (bucketCount_ge ..)))
  have hsize : t.size = 0 := hlinked.size
  refine ⟨⟨[], hlinked⟩, by rw [hbuilt]; rfl, by rw [hbuilt]; rfl, ?_, ?_, ?_⟩
  · rw [hbuckets, hsize]
    exact bucketCount_fits (TableOptions.check_ok hvalid).1 huncapped
  · intro n hn
    rw [hsize]
    exact Nat.zero_le n
  · exact fun n hn => .inl hbuckets

end LinkedTable

end BoundedTables.Table
