import BoundedTables.Proofs.Table.Trail
import Mathlib.Logic.Function.Basic

/-!
# Slots that come and go beside an index

An index is told which slots to link, while others fill and empty slots and leave links behind.
`Step` says what may happen: a linked slot keeps its node, and everything about the other slots may
change. `Run` is any sequence of such steps from an index without slots, along with the slots that
it has linked. Every step keeps the chains a partition of these slots (`Sound.step`).

So both walks along a chain come to an end (`Searches`, `Removes`), a search finds a linked slot if
there is one that fits, and unlinking takes one slot out of one chain (`chains_serve_linked`).
-/

namespace BoundedTables.Table

namespace ChainIndex

variable {ix : ChainIndex} {hashOf hashOf' : Nat → Option UInt32} {i b : Nat} {hash : UInt32}
  {slots : List Nat} {chain chain' : Nat → List Nat}

/-- Link the given slots over whatever links there are, into buckets that are all empty. -/
def relink (ix : ChainIndex) (count : Nat) (slots : List (Nat × UInt32)) : ChainIndex :=
  slots.foldl (fun ix s => ix.link s.2 s.1) { withBuckets count with next := ix.next }

/-- Links that are left behind make no difference to an index whose buckets are empty. -/
theorem relink_partition {slots : List (Nat × UInt32)} (ix : ChainIndex) (count : Nat)
    (hnodup : (slots.map Prod.fst).Nodup)
    (hmem : ∀ i hash, (i, hash) ∈ slots ↔ hashOf i = some hash) :
    (ix.relink count slots).Partition hashOf := by
  have hempty := withBuckets_partition count
  refine foldl_link_empty ⟨hempty.buckets_pos, ?_, by simp⟩ hnodup hmem
  intro b hb
  obtain ⟨slots, hchain, hdistinct, hslots⟩ := hempty.chain b hb
  obtain rfl : slots = [] := List.eq_nil_iff_forall_not_mem.mpr fun i => by simp [hslots]
  exact ⟨[], hchain, hdistinct, by simp⟩

/-- The link of a slot that is not linked can be anything. -/
theorem setAfter_partition (h : ix.Partition hashOf) (hi : hashOf i = none)
    (target : Option Nat) : (ix.setAfter i target).Partition hashOf := by
  have hbucket : ∀ hash, (ix.setAfter i target).bucketOf hash = ix.bucketOf hash := fun hash => by
    simp [bucketOf]
  refine ⟨by simpa using h.buckets_pos, ?_, ?_⟩
  · intro b hb
    rw [setAfter_heads] at hb
    obtain ⟨slots, hchain, hnodup, hmem⟩ := h.chain b hb
    have hout : i ∉ slots := fun hmem' => by
      obtain ⟨hash, hhash, -⟩ := (hmem i).mp hmem'
      rw [hi] at hhash
      cases hhash
    refine ⟨slots, ?_, hnodup, by simpa only [hbucket] using hmem⟩
    rw [setAfter_heads]
    refine hchain.congr fun j hj => ?_
    have hne : j ≠ i := fun heq => hout (heq ▸ hj)
    rw [setAfter_after, if_neg hne]
  · intro j hash hj
    have := h.bound j hash hj
    rw [setAfter_size]
    omega

/-- A walk along a chain that a slot is not in leaves the index as it is. -/
theorem Chain.unlinkFrom_absent {start : Option Nat} (h : ix.Chain start slots) (hi : i ∉ slots)
    (fuel : Nat) (previous : Option Nat) :
    ix.unlinkFrom b i fuel previous start = (false, ix) := by
  induction slots generalizing start fuel previous with
  | nil =>
      obtain rfl : start = none := h
      cases fuel <;> rfl
  | cons j rest ih =>
      obtain ⟨rfl, hrest⟩ := h
      rw [List.mem_cons, not_or] at hi
      cases fuel with
      | zero => rfl
      | succ fuel =>
          simp only [unlinkFrom, Ne.symm hi.1, ↓reduceIte]
          exact ih hrest hi.2 fuel _

/-- Unlinking a slot that is not linked leaves the index as it is. -/
theorem Partition.unlink_absent (h : ix.Partition hashOf) (hi : hashOf i = none) (hash : UInt32) :
    ix.unlink hash i = (false, ix) := by
  obtain ⟨slots, hchain, -, hmem⟩ := h.chain _ (bucketOf_lt h.buckets_pos hash)
  refine Chain.unlinkFrom_absent hchain (fun hslot => ?_) ix.next.size none
  obtain ⟨other, hother, -⟩ := (hmem i).mp hslot
  rw [hi] at hother
  cases hother

/-- The links from a slot on run through one list only. -/
theorem Chain.unique {start : Option Nat} {other : List Nat} (h : ix.Chain start slots)
    (hother : ix.Chain start other) : slots = other :=
  h.trail.unique hother.trail

/-- Unlinking a slot takes it out of its chain and leaves every other chain as it is. -/
theorem Partition.unlink_chain (h : ix.Partition hashOf) (hi : hashOf i = some hash)
    (hb : b < ix.heads.size) (hchain : ix.Chain (ix.heads[b]?).join slots) :
    (ix.unlink hash i).2.Chain ((ix.unlink hash i).2.heads[b]?).join (slots.erase i) := by
  obtain ⟨front, back, hown, hnodup, hmem, heq⟩ := h.unlink_eq hi
  have hlt := bucketOf_lt h.buckets_pos hash
  rw [heq]
  by_cases hbucket : b = ix.bucketOf hash
  · subst hbucket
    obtain rfl := hchain.unique hown
    rw [erase_middle hnodup]
    exact hown.bypass hlt hnodup
  · obtain ⟨others, hothers, -, hothersMem⟩ := h.chain b hb
    obtain rfl := hchain.unique hothers
    -- a slot has one hash, so it stands in the chain of one bucket
    have hout : ∀ j ∈ slots, j ∉ front ++ i :: back := fun j hj hj' => by
      obtain ⟨other, hother, hbc⟩ := (hothersMem j).mp hj
      obtain ⟨other', hother', hbh⟩ := (hmem j).mp hj'
      rw [hother] at hother'
      cases hother'
      exact hbucket (hbc.symm.trans hbh)
    have hi' : i ∉ slots := fun hslot => hout i hslot (by simp)
    rw [List.erase_of_not_mem hi', bypass_heads hlt, if_neg fun hboth => hbucket hboth.1]
    exact hchain.bypass_other hout

/-- A search visits no more slots than there are. -/
theorem visits_le (p : Nat → Bool) (slots : List Nat) : visits p slots ≤ slots.length := by
  unfold visits
  split
  · rename_i n hn
    exact (List.findIdx?_eq_some_iff_getElem.mp hn).1
  · exact Nat.le_refl _

/-- Chains with every slot where it was, under hashes that say at least as much. -/
theorem Chains.congr (h : ix.Chains hashOf slots chain)
    (hchain : ∀ b < ix.bucketCount, chain' b = chain b)
    (hhash : ∀ i hash, hashOf i = some hash → hashOf' i = some hash) :
    ix.Chains hashOf' slots chain' where
  trail b hb := hchain b hb ▸ h.trail b hb
  home b hb i hi := by
    rw [hchain b hb] at hi
    obtain ⟨hash, hi, hbucket⟩ := h.home b hb i hi
    exact ⟨hash, hhash i hash hi, hbucket⟩
  perm := by
    have heq : (List.range ix.bucketCount).flatMap chain' =
        (List.range ix.bucketCount).flatMap chain :=
      List.flatMap_congr fun b hb => hchain b (List.mem_range.mp hb)
    exact heq ▸ h.perm

end ChainIndex

/-- Slots that are empty or hold a node, and an index that links some of them. -/
structure IndexedSlots (α : Type) where
  node? : Nat → Option α
  index : ChainIndex

namespace IndexedSlots

variable {α : Type} (code : α → UInt32)

/-- The hash of the node in a slot. -/
def codeAt (s : IndexedSlots α) (i : Nat) : Option UInt32 := (s.node? i).map code

/-- Whether a slot holds a node with this hash and a property. -/
def holds (s : IndexedSlots α) (hash : UInt32) (p : α → Bool) (i : Nat) : Bool :=
  match s.node? i with
  | some node => code node = hash && p node
  | none => false

/-- The first linked slot whose node has this hash and a property, and how many were visited. -/
def find (s : IndexedSlots α) (hash : UInt32) (p : α → Bool) : Option Nat × Nat :=
  s.index.find hash (s.holds code hash p)

/-- Take a slot out of its chain. The answer tells whether it was there. -/
def unlink (s : IndexedSlots α) (i : Nat) : Bool × IndexedSlots α :=
  match s.node? i with
  | none => (false, s)
  | some node =>
      let (unlinked, index) := s.index.unlink (code node) i
      (unlinked, { s with index })

/-! ## Runs -/

/-- One step of the slots, of their index, and of the list of slots that are linked. -/
inductive Step : IndexedSlots α → List Nat → IndexedSlots α → List Nat → Prop
  | link {s linked i node} : s.node? i = some node → i ∉ linked →
      Step s linked { s with index := s.index.link (code node) i } (i :: linked)
  | unlink {s linked} (i : Nat) : Step s linked (s.unlink code i).2 (linked.erase i)
  /-- A fresh index links the occupied slots, in any order. -/
  | rebuild {s linked} (count : Nat) {slots : List (Nat × UInt32)} : (slots.map Prod.fst).Nodup →
      (∀ i hash, (i, hash) ∈ slots ↔ s.codeAt code i = some hash) →
      Step s linked { s with index := .ofSlots count slots } (slots.map Prod.fst)
  /-- The index links the occupied slots over the links that they have. -/
  | relink {s linked} (count : Nat) {slots : List (Nat × UInt32)} : (slots.map Prod.fst).Nodup →
      (∀ i hash, (i, hash) ∈ slots ↔ s.codeAt code i = some hash) →
      Step s linked { s with index := s.index.relink count slots } (slots.map Prod.fst)
  | clear {s linked} : Step s linked { s with index := s.index.clear } []
  | fill {s linked i} (node : α) : s.node? i = none →
      Step s linked { s with node? := Function.update s.node? i (some node) } linked
  | vacate {s linked i} : i ∉ linked →
      Step s linked { s with node? := Function.update s.node? i none } linked
  /-- A slot that is not linked may come with a link, or keep one from before. -/
  | stray {s linked i} (target : Option Nat) : i ∉ linked →
      Step s linked { s with index := s.index.setAfter i target } linked

/-- What steps lead to from an index without slots, whatever the slots hold. -/
inductive Run (count : Nat) : IndexedSlots α → List Nat → Prop
  | start (node? : Nat → Option α) : Run count ⟨node?, .withBuckets count⟩ []
  | step {s s' linked linked'} : Run count s linked → Step code s linked s' linked' →
      Run count s' linked'

variable {code} {s s' : IndexedSlots α} {linked linked' : List Nat} {count i : Nat}

/-- The hash of a slot that is linked. -/
def linkedCode (code : α → UInt32) (s : IndexedSlots α) (linked : List Nat) (i : Nat) :
    Option UInt32 :=
  if i ∈ linked then s.codeAt code i else none

/-- The chains hold the linked slots, which are occupied. -/
structure Sound (code : α → UInt32) (s : IndexedSlots α) (linked : List Nat) : Prop where
  nodup : linked.Nodup
  occupied : ∀ i ∈ linked, (s.node? i).isSome
  partition : s.index.Partition (s.linkedCode code linked)

/-- A slot with a linked hash is linked, and its node has that hash. -/
theorem linkedCode_eq_some {hash : UInt32} (h : s.linkedCode code linked i = some hash) :
    i ∈ linked ∧ s.codeAt code i = some hash := by
  unfold linkedCode at h
  split at h
  · exact ⟨‹_›, h⟩
  · cases h

/-- The hash of a linked slot is that of its node. -/
theorem linkedCode_eq {node : α} (hi : i ∈ linked) (hnode : s.node? i = some node) :
    s.linkedCode code linked i = some (code node) := by
  rw [linkedCode, if_pos hi, codeAt, hnode, Option.map_some]

/-- Every linked slot has a node, under whose hash it is linked. -/
theorem Sound.exists_node (h : s.Sound code linked) (hi : i ∈ linked) :
    ∃ node, s.node? i = some node ∧ s.linkedCode code linked i = some (code node) := by
  obtain ⟨node, hnode⟩ := Option.isSome_iff_exists.mp (h.occupied i hi)
  exact ⟨node, hnode, linkedCode_eq hi hnode⟩

/-- The linked slots are those with a linked hash. -/
theorem linkedCode_isSome (h : s.Sound code linked) (i : Nat) :
    i ∈ linked ↔ (s.linkedCode code linked i).isSome := by
  unfold linkedCode
  by_cases hi : i ∈ linked
  · simpa [hi, codeAt] using h.occupied i hi
  · simp [hi]

/-- Changing what an unlinked slot holds changes no chain. -/
theorem Sound.update (h : s.Sound code linked) (hi : i ∉ linked) (content : Option α) :
    Sound code { s with node? := Function.update s.node? i content } linked := by
  have hsame : ∀ j ∈ linked, Function.update s.node? i content j = s.node? j := fun j hj => by
    have hne : j ≠ i := fun heq => hi (heq ▸ hj)
    rw [Function.update_of_ne hne]
  refine ⟨h.nodup, fun j hj => ?_, h.partition.congr fun j => ?_⟩
  · show (Function.update s.node? i content j).isSome
    rw [hsame j hj]
    exact h.occupied j hj
  · by_cases hj : j ∈ linked
    · simp [linkedCode, codeAt, hj, hsame j hj]
    · simp [linkedCode, hj]

/-- An index over exactly the occupied slots is sound. -/
theorem sound_of_slots {index : ChainIndex} {slots : List (Nat × UInt32)}
    (hnodup : (slots.map Prod.fst).Nodup)
    (hmem : ∀ i hash, (i, hash) ∈ slots ↔ s.codeAt code i = some hash)
    (hindex : index.Partition (s.codeAt code)) :
    Sound code { s with index } (slots.map Prod.fst) := by
  have hslots : ∀ i, i ∈ slots.map Prod.fst ↔ (s.codeAt code i).isSome := fun i => by
    simp [Option.isSome_iff_exists, ← hmem]
  refine ⟨hnodup, fun i hi => ?_, hindex.congr fun i => ?_⟩
  · simpa [codeAt] using (hslots i).mp hi
  · by_cases hi : i ∈ slots.map Prod.fst
    · exact if_pos hi
    · have hnone : s.codeAt code i = none := by simpa [hslots] using hi
      exact (if_neg hi).trans hnone.symm

/-- Unlinking an occupied slot looks for it in the chain of its hash. -/
theorem unlink_eq {node : α} (hnode : s.node? i = some node) :
    s.unlink code i = ((s.index.unlink (code node) i).1,
      { s with index := (s.index.unlink (code node) i).2 }) := by
  rw [unlink, hnode]

/-- Unlinking takes a slot out of the linked ones, if it is one of them. -/
theorem Sound.unlink (h : s.Sound code linked) (i : Nat) :
    (i ∈ linked ∧ (s.unlink code i).1 = true ∧ (s.unlink code i).2.Sound code (linked.erase i)) ∨
      (i ∉ linked ∧ s.unlink code i = (false, s)) := by
  by_cases hi : i ∈ linked
  · obtain ⟨node, hnode, hcode⟩ := h.exists_node hi
    obtain ⟨htrue, hpartition⟩ := ChainIndex.unlink_partition h.partition hcode
    rw [unlink_eq hnode]
    refine .inl ⟨hi, htrue, h.nodup.erase i, fun j hj => h.occupied j (List.mem_of_mem_erase hj),
      hpartition.congr fun j => ?_⟩
    by_cases hj : j = i
    · simp [linkedCode, hj, h.nodup.not_mem_erase]
    · simp [linkedCode, hj, List.mem_erase_of_ne, codeAt]
  · refine .inr ⟨hi, ?_⟩
    unfold IndexedSlots.unlink
    cases s.node? i with
    | none => rfl
    | some node =>
        have hcode : s.linkedCode code linked i = none := if_neg hi
        simp [h.partition.unlink_absent hcode]

/-- Every step keeps the chains a partition of the linked slots. -/
theorem Sound.step (h : s.Sound code linked) (hstep : Step code s linked s' linked') :
    s'.Sound code linked' := by
  cases hstep with
  | link hnode hi =>
      rename_i i node
      have hcode : s.linkedCode code linked i = none := if_neg hi
      refine ⟨List.nodup_cons.mpr ⟨hi, h.nodup⟩, fun j hj => ?_,
        (ChainIndex.link_partition h.partition hcode (code node)).congr fun j => ?_⟩
      · rcases List.mem_cons.mp hj with rfl | hj
        · simp [hnode]
        · exact h.occupied j hj
      · by_cases hj : j = i
        · simp [linkedCode, codeAt, hj, hnode]
        · simp [linkedCode, codeAt, hj]
  | unlink i =>
      rcases h.unlink i with ⟨-, -, hsound⟩ | ⟨hi, heq⟩
      · exact hsound
      · rw [heq, List.erase_of_not_mem hi]
        exact h
  | rebuild count hnodup hmem =>
      exact sound_of_slots hnodup hmem (ChainIndex.ofSlots_partition count hnodup hmem)
  | relink count hnodup hmem =>
      exact sound_of_slots hnodup hmem (s.index.relink_partition count hnodup hmem)
  | clear =>
      exact ⟨List.nodup_nil, by simp, (ChainIndex.clear_partition s.index).congr fun i => by
        simp [linkedCode]⟩
  | fill node hempty =>
      refine h.update (fun hi => ?_) (some node)
      simpa [hempty] using h.occupied _ hi
  | vacate hi => exact h.update hi none
  | stray target hi =>
      exact ⟨h.nodup, h.occupied, ChainIndex.setAfter_partition h.partition (if_neg hi) target⟩

/-- Whatever steps lead to is sound. -/
theorem Run.sound (hrun : Run code count s linked) : s.Sound code linked := by
  induction hrun with
  | start node? =>
      exact ⟨List.nodup_nil, by simp, (ChainIndex.withBuckets_partition count).congr fun i => by
        simp [linkedCode]⟩
  | step _ hstep ih => exact ih.step hstep

/-! ## Walks that end -/

/-- A slot holds a node with this hash and a property. -/
def Matches (code : α → UInt32) (s : IndexedSlots α) (hash : UInt32) (p : α → Bool) (i : Nat) :
    Prop :=
  ∃ node, s.node? i = some node ∧ code node = hash ∧ p node = true

/-- A slot that matches is occupied. -/
theorem Matches.occupied {hash : UInt32} {p : α → Bool} (h : s.Matches code hash p i) :
    s.node? i ≠ none := by
  obtain ⟨node, hnode, -⟩ := h
  rw [hnode]
  exact Option.some_ne_none node

/-- The check of a slot answers whether it matches. -/
theorem holds_iff {hash : UInt32} {p : α → Bool} :
    s.holds code hash p i = true ↔ s.Matches code hash p i := by
  unfold holds Matches
  cases s.node? i <;> simp

/-- A search from a slot on, after a number of visits, ends with this answer. It ends at a slot that
matches, at an empty one, or where no link leads on. -/
inductive Searches (code : α → UInt32) (s : IndexedSlots α) (hash : UInt32) (p : α → Bool) :
    Option Nat → Nat → Option Nat × Nat → Prop
  | ended {n} : Searches code s hash p none n (none, n)
  | vacant {i n} : s.node? i = none → Searches code s hash p (some i) n (none, n)
  | found {i n} : s.Matches code hash p i → Searches code s hash p (some i) n (some i, n + 1)
  | onward {i n r} : (s.node? i).isSome → ¬s.Matches code hash p i →
      Searches code s hash p (s.index.after i) (n + 1) r → Searches code s hash p (some i) n r

/-- A walk along the chain of a bucket that is to take a slot out of it ends with this answer. It
goes on from behind a slot, and ends at the slot, at an empty one, or where no link leads on. -/
inductive Removes (s : IndexedSlots α) (b i : Nat) :
    Option Nat → Option Nat → Bool × ChainIndex → Prop
  | ended {previous} : Removes s b i previous none (false, s.index)
  | vacant {previous j} : s.node? j = none → Removes s b i previous (some j) (false, s.index)
  | found {previous} : (s.node? i).isSome →
      Removes s b i previous (some i) (true, s.index.bypass b i previous (s.index.after i))
  | onward {previous j r} : (s.node? j).isSome → j ≠ i →
      Removes s b i (some j) (s.index.after j) r → Removes s b i previous (some j) r

variable {hash : UInt32} {p : α → Bool} {b : Nat} {chain : Nat → List Nat}

/-- A search from a slot on has one answer. -/
theorem Searches.unique {start : Option Nat} {n : Nat} {r r' : Option Nat × Nat}
    (h : s.Searches code hash p start n r) (h' : s.Searches code hash p start n r') : r = r' := by
  induction h generalizing r' with
  | ended =>
      cases h'
      rfl
  | vacant hempty =>
      cases h' with
      | vacant => rfl
      | found hmatches => exact absurd hempty hmatches.occupied
      | onward hsome => simp [hempty] at hsome
  | found hmatches =>
      cases h' with
      | vacant hempty => exact absurd hempty hmatches.occupied
      | found => rfl
      | onward _ hother => exact absurd hmatches hother
  | onward hsome hother _ ih =>
      cases h' with
      | vacant hempty => simp [hempty] at hsome
      | found hmatches => exact absurd hmatches hother
      | onward _ _ hrest => exact ih hrest

/-- A walk that takes a slot out has one answer. -/
theorem Removes.unique {previous start : Option Nat} {r r' : Bool × ChainIndex}
    (h : s.Removes b i previous start r) (h' : s.Removes b i previous start r') : r = r' := by
  induction h generalizing r' with
  | ended =>
      cases h'
      rfl
  | vacant hempty =>
      cases h' with
      | vacant => rfl
      | found hsome => simp [hempty] at hsome
      | onward hsome => simp [hempty] at hsome
  | found hsome =>
      cases h' with
      | vacant hempty => simp [hempty] at hsome
      | found => rfl
      | onward _ hne => exact absurd rfl hne
  | onward hsome hne _ ih =>
      cases h' with
      | vacant hempty => simp [hempty] at hsome
      | found => exact absurd rfl hne
      | onward _ _ hrest => exact ih hrest

/-- A walk through occupied slots ends before its bound does. -/
theorem searches_findFrom {start : Option Nat} {slots : List Nat}
    (h : s.index.Chain start slots) (hoccupied : ∀ i ∈ slots, (s.node? i).isSome) {fuel : Nat}
    (hfuel : slots.length ≤ fuel) (n : Nat) :
    s.Searches code hash p start n (s.index.findFrom (s.holds code hash p) fuel start n) := by
  induction slots generalizing start fuel n with
  | nil =>
      obtain rfl : start = none := h
      cases fuel <;> exact .ended
  | cons i rest ih =>
      obtain ⟨rfl, hrest⟩ := h
      cases fuel with
      | zero => simp at hfuel
      | succ fuel =>
          unfold ChainIndex.findFrom
          split
          · rename_i hholds
            exact .found (holds_iff.mp hholds)
          · rename_i hother
            refine .onward (hoccupied i (by simp)) (mt holds_iff.mpr hother) ?_
            exact ih hrest (fun j hj => hoccupied j (by simp [hj])) (by simpa using hfuel) (n + 1)

/-- With a turn for each slot of its chain, the walk comes to its answer. -/
theorem removes_unlinkFrom {start : Option Nat} {slots : List Nat}
    (h : s.index.Chain start slots) (hoccupied : ∀ i ∈ slots, (s.node? i).isSome) {fuel : Nat}
    (hfuel : slots.length ≤ fuel) (previous : Option Nat) :
    s.Removes b i previous start (s.index.unlinkFrom b i fuel previous start) := by
  induction slots generalizing start fuel previous with
  | nil =>
      obtain rfl : start = none := h
      cases fuel <;> exact .ended
  | cons j rest ih =>
      obtain ⟨rfl, hrest⟩ := h
      have hj := hoccupied j (by simp)
      cases fuel with
      | zero => simp at hfuel
      | succ fuel =>
          by_cases hji : j = i
          · subst hji
            simp only [ChainIndex.unlinkFrom, ↓reduceIte]
            exact .found hj
          · simp only [ChainIndex.unlinkFrom, hji, ↓reduceIte]
            refine .onward hj hji ?_
            exact ih hrest (fun k hk => hoccupied k (by simp [hk])) (by simpa using hfuel) _

/-! ## What the index answers -/

/-- A search for a hash and a property does what it should among the linked slots. -/
structure Finding (code : α → UInt32) (s : IndexedSlots α) (linked : List Nat) (slots : List Nat)
    (hash : UInt32) (p : α → Bool) : Prop where
  /-- The walk along the chain ends, with the answer of the search and no other. -/
  ends : ∀ r, s.Searches code hash p (s.index.head hash) 0 r ↔ r = s.find code hash p
  found_iff : (s.find code hash p).1.isSome ↔ ∃ i ∈ linked, s.Matches code hash p i
  found : ∀ i, (s.find code hash p).1 = some i → i ∈ linked ∧ s.Matches code hash p i
  visited : (s.find code hash p).2 ≤ slots.length

/-- Unlinking a slot does what it should to the linked slots and their chains. -/
structure Unlinking (code : α → UInt32) (s : IndexedSlots α) (linked : List Nat)
    (chain : Nat → List Nat) (i : Nat) : Prop where
  /-- The walk along the chain of an occupied slot ends, with the answer of unlinking it and no
  other. -/
  ends : ∀ node, s.node? i = some node → ∀ r,
    s.Removes (s.index.bucketOf (code node)) i none (s.index.head (code node)) r ↔
      r = s.index.unlink (code node) i
  unlinked_iff : (s.unlink code i).1 = true ↔ i ∈ linked
  node? : (s.unlink code i).2.node? = s.node?
  buckets : (s.unlink code i).2.index.bucketCount = s.index.bucketCount
  /-- The slot is gone from its own chain, and the other chains are as they were. -/
  chains : (s.unlink code i).2.index.Chains (s.codeAt code) (linked.erase i)
    fun b => (chain b).erase i
  absent : i ∉ linked → (s.unlink code i).2 = s

/-- The chains of an index partition the linked slots, and the index answers by them. -/
structure Serves (code : α → UInt32) (s : IndexedSlots α) (linked : List Nat)
    (chain : Nat → List Nat) : Prop where
  occupied : ∀ i ∈ linked, (s.node? i).isSome
  chains : s.index.Chains (s.codeAt code) linked chain
  acyclic : ∀ b < s.index.bucketCount, (chain b).Nodup
  finding : ∀ hash p, s.Finding code linked (chain (s.index.bucketOf hash)) hash p
  unlinking : ∀ i, s.Unlinking code linked chain i

/-- The linked slots of a sound index stand in chains. -/
theorem Sound.exists_chains (h : s.Sound code linked) :
    ∃ chain, s.index.Chains (s.codeAt code) linked chain := by
  obtain ⟨chain, hchains⟩ := h.partition.exists_chains h.nodup (linkedCode_isSome h)
  exact ⟨chain, hchains.congr (fun _ _ => rfl) fun _ _ hcode => (linkedCode_eq_some hcode).2⟩

/-- The chain of a bucket, as the partition has it. -/
theorem Sound.bucket_chain (h : s.Sound code linked)
    (hchains : s.index.Chains (s.codeAt code) linked chain) (hb : b < s.index.bucketCount) :
    s.index.Chain (s.index.heads[b]?).join (chain b) ∧ (chain b).Nodup ∧
      ∀ i ∈ chain b, i ∈ linked := by
  obtain ⟨slots, hchain, hnodup, hmem⟩ := h.partition.chain b hb
  obtain rfl := hchain.trail.unique (hchains.trail b hb)
  refine ⟨hchain, hnodup, fun i hi => ?_⟩
  obtain ⟨hash, hcode, -⟩ := (hmem i).mp hi
  exact (linkedCode_eq_some hcode).1

/-- No chain is longer than the links there are. -/
theorem Sound.chain_length (h : s.Sound code linked) {slots : List Nat} (hnodup : slots.Nodup)
    (hslots : ∀ i ∈ slots, i ∈ linked) : slots.length ≤ s.index.next.size := by
  refine h.partition.length_le hnodup fun i hi => ?_
  exact Option.isSome_iff_exists.mp ((linkedCode_isSome h i).mp (hslots i hi))

/-- A search of a sound index finds what it should. -/
theorem Sound.finding (h : s.Sound code linked)
    (hchains : s.index.Chains (s.codeAt code) linked chain) (hash : UInt32) (p : α → Bool) :
    s.Finding code linked (chain (s.index.bucketOf hash)) hash p := by
  have hb := ChainIndex.bucketOf_lt h.partition.buckets_pos hash
  obtain ⟨hchain, hnodup, hslots⟩ := h.bucket_chain hchains hb
  have hends : s.Searches code hash p (s.index.head hash) 0 (s.find code hash p) :=
    searches_findFrom hchain (fun i hi => h.occupied i (hslots i hi))
      (h.chain_length hnodup hslots) 0
  have hfound : ∀ i, (s.find code hash p).1 = some i → i ∈ linked ∧ s.Matches code hash p i := by
    intro i hi
    obtain ⟨hholds, other, hcode⟩ := h.partition.find_some hi
    exact ⟨(linkedCode_eq_some hcode).1, holds_iff.mp hholds⟩
  refine ⟨fun r => ⟨fun hr => hr.unique hends, ?_⟩, ⟨?_, ?_⟩, hfound, ?_⟩
  · rintro rfl
    exact hends
  · intro hsome
    obtain ⟨i, hi⟩ := Option.isSome_iff_exists.mp hsome
    exact ⟨i, hfound i hi⟩
  · rintro ⟨i, hi, hmatches⟩
    have hholds := holds_iff.mpr hmatches
    obtain ⟨node, hnode, rfl, -⟩ := hmatches
    by_contra hnone
    have hmissed := h.partition.find_none (Option.not_isSome_iff_eq_none.mp hnone)
      (linkedCode_eq hi hnode)
    exact Bool.false_ne_true (hmissed.symm.trans hholds)
  · obtain ⟨slots, hother, -, -, heq⟩ := h.partition.find_eq hash (s.holds code hash p)
    obtain rfl := hchain.unique hother
    rw [find, heq]
    exact ChainIndex.visits_le ..

/-- Unlinking changes no slot. -/
theorem unlink_node? (s : IndexedSlots α) (i : Nat) : (s.unlink code i).2.node? = s.node? := by
  unfold unlink
  split <;> rfl

/-- Unlinking a linked slot leaves the chains that there were, its own without it. -/
theorem Sound.unlink_chains (h : s.Sound code linked)
    (hchains : s.index.Chains (s.codeAt code) linked chain) (hi : i ∈ linked) :
    (s.unlink code i).2.index.bucketCount = s.index.bucketCount ∧
      (s.unlink code i).2.index.Chains (s.codeAt code) (linked.erase i)
        fun b => (chain b).erase i := by
  obtain ⟨node, hnode, hcode⟩ := h.exists_node hi
  have hbuckets := s.index.unlink_bucketCount (code node) i
  rcases h.unlink i with ⟨-, -, hsound⟩ | ⟨hout, -⟩
  · obtain ⟨chain', hchains'⟩ := hsound.exists_chains
    rw [unlink_eq hnode] at hchains' ⊢
    refine ⟨hbuckets, hchains'.congr (fun b hb => ?_) fun _ _ => id⟩
    have hb' : b < s.index.bucketCount := hbuckets ▸ hb
    -- what the links lead to now is the chain there was without the slot
    have hchain := h.partition.unlink_chain hcode hb' (h.bucket_chain hchains hb').1
    exact hchain.trail.unique (hchains'.trail b hb)
  · exact absurd hi hout

/-- Unlinking a slot of a sound index does what it should. -/
theorem Sound.unlinking (h : s.Sound code linked)
    (hchains : s.index.Chains (s.codeAt code) linked chain) (i : Nat) :
    s.Unlinking code linked chain i := by
  have hends : ∀ node, s.node? i = some node → ∀ r,
      s.Removes (s.index.bucketOf (code node)) i none (s.index.head (code node)) r ↔
        r = s.index.unlink (code node) i := by
    intro node _ r
    have hb := ChainIndex.bucketOf_lt h.partition.buckets_pos (code node)
    obtain ⟨hchain, hnodup, hslots⟩ := h.bucket_chain hchains hb
    have hwalk : s.Removes (s.index.bucketOf (code node)) i none (s.index.head (code node))
        (s.index.unlink (code node) i) :=
      removes_unlinkFrom hchain (fun j hj => h.occupied j (hslots j hj))
        (h.chain_length hnodup hslots) none
    refine ⟨fun hr => hr.unique hwalk, ?_⟩
    rintro rfl
    exact hwalk
  rcases h.unlink i with ⟨hi, htrue, -⟩ | ⟨hi, heq⟩
  · obtain ⟨hbuckets, hrest⟩ := h.unlink_chains hchains hi
    exact ⟨hends, iff_of_true htrue hi, unlink_node? s i, hbuckets, hrest,
      fun hout => absurd hi hout⟩
  · refine ⟨hends, by simp [heq, hi], unlink_node? s i, by rw [heq], ?_, fun _ => by rw [heq]⟩
    rw [heq, List.erase_of_not_mem hi]
    refine hchains.congr (fun b hb => ?_) fun _ _ => id
    exact List.erase_of_not_mem fun hmem => hi ((h.bucket_chain hchains hb).2.2 i hmem)

/-- Whatever steps an index and its slots go through, every slot that has been linked by them stands
in the chain of its bucket, once and nowhere else, and each chain comes to an end. So do the walks
along the chains. A search for a hash and a property finds a slot exactly if some linked one has
both, and such a one, and visits no more than one chain. Unlinking says whether the slot was linked,
and takes it out of its chain and nothing else out of any. -/
theorem chains_serve_linked (hrun : Run code count s linked) :
    linked.Nodup ∧ ∃ chain, s.Serves code linked chain := by
  have h := hrun.sound
  obtain ⟨chain, hchains⟩ := h.exists_chains
  exact ⟨h.nodup, chain, h.occupied, hchains, fun b hb => (h.bucket_chain hchains hb).2.1,
    h.finding hchains, h.unlinking hchains⟩

/-- Three of four nodes belong to one bucket. The one in the middle of their chain is unlinked, and
another node takes its slot, with a link that still leads into the chain. Then all are linked again,
over the links that they have. -/
theorem chains_serve_around_stray :
    let slots : Nat → Option UInt32 := ([1, 4, 7, 2][·]?)
    let nodes := Function.update (Function.update slots 1 none) 1 (some 10)
    let linked := ((((ChainIndex.withBuckets 3).link 1 0).link 4 1).link 7 2).link 2 3
    let s : IndexedSlots UInt32 := ⟨nodes, (linked.unlink 4 1).2.setAfter 1 (some 2)⟩
    let again : IndexedSlots UInt32 :=
      ⟨nodes, s.index.relink 2 [(0, 1), (1, 10), (2, 7), (3, 2)]⟩
    (Run id 3 s [3, 2, 0] ∧ (∃ chain, s.Serves id [3, 2, 0] chain) ∧
      s.find id 1 (fun _ => true) = (some 0, 2) ∧ (s.unlink id 1).1 = false) ∧
    (Run id 3 again [0, 1, 2, 3] ∧ (∃ chain, again.Serves id [0, 1, 2, 3] chain) ∧
      again.find id 10 (fun _ => true) = (some 1, 2) ∧ (again.unlink id 1).1 = true) := by
  intro slots nodes linked s again
  have hlinked : Run id 3 ⟨slots, linked⟩ [3, 2, 1, 0] :=
    ((((Run.start slots).step (.link (i := 0) rfl (by decide))).step
      (.link (i := 1) rfl (by decide))).step (.link (i := 2) rfl (by decide))).step
        (.link (i := 3) rfl (by decide))
  have hrun : Run id 3 s [3, 2, 0] :=
    (((hlinked.step (.unlink 1)).step (.vacate (i := 1) (by decide))).step
      (.fill (i := 1) 10 rfl)).step (.stray (i := 1) (some 2) (by decide))
  have hslots : ∀ i hash, (i, hash) ∈ [(0, 1), (1, 10), (2, 7), (3, 2)] ↔
      s.codeAt id i = some hash := by
    rintro (_ | _ | _ | _ | i) hash <;> simp [codeAt, s, nodes, slots, eq_comm]
  have hagain : Run id 3 again [0, 1, 2, 3] := hrun.step (.relink 2 (by decide) hslots)
  exact ⟨⟨hrun, (chains_serve_linked hrun).2, by decide +kernel, by decide +kernel⟩,
    hagain, (chains_serve_linked hagain).2, by decide +kernel, by decide +kernel⟩

end IndexedSlots

end BoundedTables.Table
