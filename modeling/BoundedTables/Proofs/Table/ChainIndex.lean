import BoundedTables.Table.ChainIndex
import BoundedTables.Proofs.Hashing.Policy
import BoundedTables.Proofs.Table.LinkedOrder

/-!
# Chains as a partition of the linked slots

`Chain ix start slots` says that the links from `start` on run through a list of slots and then
end. `Partition ix hashOf` says that every bucket has such a chain without repeats, and that it
holds exactly the slots whose hash belongs to that bucket. `find_eq` turns a search into a search
of a list; linking, unlinking and building an index keep the partition.
-/

namespace BoundedTables.Table.ChainIndex

variable {ix : ChainIndex} {hashOf : Nat → Option UInt32} {i : Nat} {hash : UInt32}

/-- The links from a slot on run through a list of slots. -/
def Chain (ix : ChainIndex) : Option Nat → List Nat → Prop
  | start, [] => start = none
  | start, i :: rest => start = some i ∧ ix.Chain (ix.after i) rest

/-- Every linked slot stands in the chain of its bucket, once, and in no other. -/
structure Partition (ix : ChainIndex) (hashOf : Nat → Option UInt32) : Prop where
  buckets_pos : 0 < ix.heads.size
  chain : ∀ b < ix.heads.size, ∃ slots, ix.Chain (ix.heads[b]?).join slots ∧ slots.Nodup ∧
    ∀ i, i ∈ slots ↔ ∃ hash, hashOf i = some hash ∧ ix.bucketOf hash = b
  bound : ∀ i hash, hashOf i = some hash → i < ix.next.size

/-! ## Reading links back -/

/-- Setting a link puts it among the links and leaves the heads alone. -/
theorem setAfter_eq (ix : ChainIndex) (i : Nat) (target : Option Nat) :
    ix.setAfter i target = ⟨ix.heads, LinkedOrder.put ix.next i target⟩ := by
  unfold setAfter LinkedOrder.put
  split
  split <;> rfl

/-- Setting the link behind a slot changes no other link. -/
theorem setAfter_after (ix : ChainIndex) (i j : Nat) (target : Option Nat) :
    (ix.setAfter i target).after j = if j = i then target else ix.after j := by
  rw [setAfter_eq]
  exact LinkedOrder.put_read ix.next i j target

@[simp] theorem setAfter_heads (ix : ChainIndex) (i : Nat) (target : Option Nat) :
    (ix.setAfter i target).heads = ix.heads := by
  rw [setAfter_eq]

@[simp] theorem setAfter_size (ix : ChainIndex) (i : Nat) (target : Option Nat) :
    (ix.setAfter i target).next.size = max ix.next.size (i + 1) := by
  rw [setAfter_eq]
  exact LinkedOrder.put_size ix.next i target

@[simp] theorem setHead_after (ix : ChainIndex) (b i : Nat) (target : Option Nat) :
    (ix.setHead b target).after i = ix.after i := rfl

@[simp] theorem setHead_next (ix : ChainIndex) (b : Nat) (target : Option Nat) :
    (ix.setHead b target).next = ix.next := rfl

@[simp] theorem setHead_size (ix : ChainIndex) (b : Nat) (target : Option Nat) :
    (ix.setHead b target).heads.size = ix.heads.size := by
  simp [setHead]

/-- Setting the head of a bucket changes no other head. -/
theorem setHead_heads {b : Nat} (hb : b < ix.heads.size) (target : Option Nat) (c : Nat) :
    ((ix.setHead b target).heads[c]?).join = if c = b then target else (ix.heads[c]?).join := by
  by_cases hc : c = b
  · subst hc
    simp [setHead, hb]
  · simp [setHead, hc, Array.getElem?_setIfInBounds_ne (Ne.symm hc)]

/-- Every hash belongs to one of the buckets. -/
theorem bucketOf_lt (h : 0 < ix.heads.size) (hash : UInt32) : ix.bucketOf hash < ix.heads.size :=
  Nat.mod_lt _ h

/-- A chain does not depend on the links of slots outside it. -/
theorem Chain.congr {ix' : ChainIndex} {start : Option Nat} {slots : List Nat}
    (h : ix.Chain start slots) (hafter : ∀ j ∈ slots, ix'.after j = ix.after j) :
    ix'.Chain start slots := by
  induction slots generalizing start with
  | nil => exact h
  | cons i rest ih =>
      obtain ⟨hstart, hrest⟩ := h
      refine ⟨hstart, ?_⟩
      rw [hafter i (by simp)]
      exact ih hrest fun j hj => hafter j (by simp [hj])

/-- A chain starts at its first slot. -/
theorem Chain.start_eq {start : Option Nat} {slots : List Nat} (h : ix.Chain start slots) :
    start = slots.head? := by
  cases slots with
  | nil => exact h
  | cons i rest => exact h.1

/-- What stands behind a member of a chain is a chain. -/
theorem Chain.rest {start : Option Nat} {front back : List Nat}
    (h : ix.Chain start (front ++ i :: back)) : ix.Chain (ix.after i) back := by
  induction front generalizing start with
  | nil => exact h.2
  | cons j front ih => exact ih h.2

/-! ## Searching -/

/-- The number of slots that a search through a list visits. -/
def visits (p : Nat → Bool) (slots : List Nat) : Nat :=
  match slots.findIdx? p with
  | some n => n + 1
  | none => slots.length

/-- A walk with enough fuel is a search through the chain. -/
theorem Chain.findFrom_eq {p : Nat → Bool} {start : Option Nat} {slots : List Nat}
    (h : ix.Chain start slots) {fuel : Nat} (hfuel : slots.length ≤ fuel) (visited : Nat) :
    ix.findFrom p fuel start visited = (slots.find? p, visited + visits p slots) := by
  induction slots generalizing start fuel visited with
  | nil =>
      obtain rfl : start = none := h
      cases fuel <;> rfl
  | cons i rest ih =>
      obtain ⟨rfl, hrest⟩ := h
      cases fuel with
      | zero => simp at hfuel
      | succ fuel =>
          simp only [findFrom, List.find?_cons, visits, List.findIdx?_cons]
          by_cases hp : p i
          · simp [hp]
          · simp only [hp, Bool.false_eq_true, ↓reduceIte]
            rw [ih hrest (by simpa using hfuel)]
            unfold visits
            cases rest.findIdx? p <;> simp <;> omega

/-- There are links for all slots of a list of linked ones. -/
theorem Partition.length_le (h : ix.Partition hashOf) {slots : List Nat} (hnodup : slots.Nodup)
    (hslots : ∀ i ∈ slots, ∃ hash, hashOf i = some hash) : slots.length ≤ ix.next.size := by
  have hsub : slots ⊆ List.range ix.next.size := fun i hi => by
    obtain ⟨hash, hhash⟩ := hslots i hi
    simpa using h.bound i hash hhash
  simpa using (List.subperm_of_subset hnodup hsub).length_le

/-- A search is a search through the slots of its bucket. -/
theorem Partition.find_eq (h : ix.Partition hashOf) (hash : UInt32) (p : Nat → Bool) :
    ∃ slots, ix.Chain (ix.head hash) slots ∧ slots.Nodup ∧
      (∀ i, i ∈ slots ↔ ∃ other, hashOf i = some other ∧ ix.bucketOf other = ix.bucketOf hash) ∧
      ix.find hash p = (slots.find? p, visits p slots) := by
  obtain ⟨slots, hchain, hnodup, hmem⟩ := h.chain _ (bucketOf_lt h.buckets_pos hash)
  have hlength := h.length_le hnodup fun i hi =>
    let ⟨other, hother, _⟩ := (hmem i).mp hi
    ⟨other, hother⟩
  refine ⟨slots, hchain, hnodup, hmem, ?_⟩
  have hwalk := hchain.findFrom_eq (p := p) hlength 0
  rwa [Nat.zero_add] at hwalk

/-- A search finds a linked slot with the property. -/
theorem Partition.find_some (h : ix.Partition hashOf) {p : Nat → Bool}
    (hfind : (ix.find hash p).1 = some i) : p i = true ∧ ∃ other, hashOf i = some other := by
  obtain ⟨slots, _, _, hmem, heq⟩ := h.find_eq hash p
  rw [heq] at hfind
  obtain ⟨other, hother, _⟩ := (hmem i).mp (List.mem_of_find?_eq_some hfind)
  exact ⟨List.find?_some hfind, other, hother⟩

/-- A search that finds nothing leaves no slot of that hash with the property. -/
theorem Partition.find_none (h : ix.Partition hashOf) {p : Nat → Bool}
    (hfind : (ix.find hash p).1 = none) (hi : hashOf i = some hash) : p i = false := by
  obtain ⟨slots, _, _, hmem, heq⟩ := h.find_eq hash p
  rw [heq] at hfind
  have hslot := List.find?_eq_none.mp hfind i ((hmem i).mpr ⟨hash, hi, rfl⟩)
  simpa using hslot

/-- A search among slots that hold keys under their hashes finds a slot with an equal key, or
there is none. -/
theorem Partition.find_key {κ : Type} {c : Hashing.Comparer κ} (h : ix.Partition hashOf)
    (hc : c.Lawful) {keyAt : Nat → Option κ} (hkeys : ∀ i, hashOf i = (keyAt i).map c.code)
    {p : Nat → Bool} {key : κ}
    (hp : ∀ i k, keyAt i = some k → p i = (decide (c.code k = c.code key) && c.equals k key)) :
    (∃ i k, (ix.find (c.code key) p).1 = some i ∧ keyAt i = some k ∧ c.equals k key = true) ∨
      (ix.find (c.code key) p).1 = none ∧ ∀ i k, keyAt i = some k → c.equals k key = false := by
  cases hfind : (ix.find (c.code key) p).1 with
  | some i =>
      obtain ⟨hpi, other, hother⟩ := h.find_some hfind
      rw [hkeys i] at hother
      obtain ⟨k, hk, _⟩ := Option.map_eq_some_iff.mp hother
      rw [hp i k hk, Bool.and_eq_true] at hpi
      exact .inl ⟨i, k, rfl, hk, hpi.2⟩
  | none =>
      refine .inr ⟨rfl, fun i k hk => ?_⟩
      by_contra hkey
      rw [Bool.not_eq_false] at hkey
      have hcode := hc.code_eq hkey
      have hpi := h.find_none (i := i) hfind (by rw [hkeys i, hk, Option.map_some, hcode])
      rw [hp i k hk, hcode, hkey] at hpi
      simp at hpi

/-! ## Linking and unlinking -/

/-- The partition only sees which hash stands in which slot. -/
theorem Partition.congr {hashOf' : Nat → Option UInt32} (h : ix.Partition hashOf)
    (heq : ∀ i, hashOf' i = hashOf i) : ix.Partition hashOf' := by
  have : hashOf' = hashOf := funext heq
  exact this ▸ h

/-- An index without slots. -/
theorem withBuckets_partition (count : Nat) : (withBuckets count).Partition fun _ => none where
  buckets_pos := by
    rw [withBuckets, Array.size_replicate]
    exact Nat.le_max_right ..
  chain b hb := by
    refine ⟨[], ?_, List.nodup_nil, by simp⟩
    simp only [withBuckets, Array.size_replicate] at hb
    simp [withBuckets, Chain, hb]
  bound := by simp

/-- Linking a slot adds it to the chain of its bucket. -/
theorem link_partition (h : ix.Partition hashOf) (hi : hashOf i = none) (hash : UInt32) :
    (ix.link hash i).Partition fun j => if j = i then some hash else hashOf j := by
  have hb := bucketOf_lt h.buckets_pos hash
  have hbucket : ∀ other, (ix.link hash i).bucketOf other = ix.bucketOf other := fun other => by
    simp [link, bucketOf]
  refine ⟨by simpa [link] using h.buckets_pos, ?_, ?_⟩
  · intro b hlt
    obtain ⟨slots, hchain, hnodup, hmem⟩ := h.chain b (by simpa [link] using hlt)
    have hnot : i ∉ slots := fun hmem' => by
      obtain ⟨other, hother, _⟩ := (hmem i).mp hmem'
      simp [hi] at hother
    have hrest : ∀ j ∈ slots, (ix.link hash i).after j = ix.after j := fun j hj => by
      have hne : j ≠ i := fun heq => hnot (heq ▸ hj)
      simp [link, setAfter_after, hne]
    have hheads : ix.bucketOf hash < (ix.setAfter i (ix.head hash)).heads.size := by simpa using hb
    have hhead := setHead_heads hheads (some i) b
    by_cases hbb : b = ix.bucketOf hash
    · refine ⟨i :: slots, ⟨?_, ?_⟩, List.nodup_cons.mpr ⟨hnot, hnodup⟩, fun j => ?_⟩
      · simpa [link, hbb] using hhead
      · have hfirst : (ix.link hash i).after i = (ix.heads[b]?).join := by
          simp [link, setAfter_after, head, hbb]
        rw [hfirst]
        exact hchain.congr hrest
      · by_cases hj : j = i
        · simp [hj, hbucket, hbb]
        · simp [hj, hbucket, hmem]
    · refine ⟨slots, ?_, hnodup, fun j => ?_⟩
      · have hsame : ((ix.link hash i).heads[b]?).join = (ix.heads[b]?).join := by
          simpa [link, hbb] using hhead
        rw [hsame]
        exact hchain.congr hrest
      · by_cases hj : j = i
        · subst hj
          simp [hbucket, hnot, Ne.symm hbb]
        · simp [hj, hbucket, hmem]
  · intro j other hj
    simp only [link, setHead_next, setAfter_size]
    by_cases hji : j = i
    · omega
    · have := h.bound j other (by simpa [hji] using hj)
      omega

/-- The index after taking a slot out between two others. -/
def bypass (ix : ChainIndex) (b i : Nat) (previous following : Option Nat) : ChainIndex :=
  (match previous with
    | none => ix.setHead b following
    | some p => ix.setAfter p following).setAfter i none

/-- Bypassing a slot clears its link, and leads the one in front of it on to what follows. -/
theorem bypass_after (ix : ChainIndex) (b i j : Nat) (previous following : Option Nat) :
    (ix.bypass b i previous following).after j =
      if j = i then none else if previous = some j then following else ix.after j := by
  cases previous <;> simp [bypass, setAfter_after, eq_comm]

@[simp] theorem bypass_buckets (ix : ChainIndex) (b i : Nat) (previous following : Option Nat) :
    (ix.bypass b i previous following).heads.size = ix.heads.size := by
  cases previous <;> simp [bypass]

/-- Bypassing a slot changes the head of its bucket if there is no slot in front of it. -/
theorem bypass_heads {b : Nat} (hb : b < ix.heads.size) (i c : Nat)
    (previous following : Option Nat) :
    ((ix.bypass b i previous following).heads[c]?).join =
      if c = b ∧ previous = none then following else (ix.heads[c]?).join := by
  cases previous with
  | none => simpa [bypass] using setHead_heads hb following c
  | some p => simp [bypass]

/-- Bypassing a slot drops no link. -/
theorem bypass_size (ix : ChainIndex) (b i : Nat) (previous following : Option Nat) :
    ix.next.size ≤ (ix.bypass b i previous following).next.size := by
  cases previous with
  | none =>
      rw [bypass, setAfter_size, setHead_next]
      exact Nat.le_max_left ..
  | some p =>
      rw [bypass, setAfter_size, setAfter_size]
      exact Nat.le_trans (Nat.le_max_left ..) (Nat.le_max_left ..)

/-- A walk that meets a slot takes it out between its neighbours. -/
theorem Chain.unlinkFrom_eq {start : Option Nat} {front back : List Nat} {b : Nat}
    (h : ix.Chain start (front ++ i :: back)) (hi : i ∉ front) {fuel : Nat}
    (hfuel : (front ++ i :: back).length ≤ fuel) (previous : Option Nat) :
    ix.unlinkFrom b i fuel previous start =
      (true, ix.bypass b i (front.getLast?.or previous) back.head?) := by
  induction front generalizing start fuel previous with
  | nil =>
      obtain ⟨rfl, hback⟩ := h
      cases fuel with
      | zero => simp at hfuel
      | succ fuel =>
          simp only [unlinkFrom, ↓reduceIte, hback.start_eq]
          cases previous <;> rfl
  | cons j front ih =>
      obtain ⟨rfl, hrest⟩ := h
      have hne : j ≠ i := fun heq => hi (by simp [heq])
      cases fuel with
      | zero => simp at hfuel
      | succ fuel =>
          simp only [unlinkFrom, hne, ↓reduceIte]
          rw [ih hrest (fun hmem => hi (by simp [hmem])) (by simpa using hfuel)]
          rcases List.eq_nil_or_concat front with rfl | ⟨front, last, rfl⟩ <;>
            simp [List.getLast?_cons]

/-- Redirecting the link in front of a slot takes it out of the chain. -/
theorem Chain.splice {start : Option Nat} {front back : List Nat} {q : Nat}
    (h : ix.Chain start (front ++ q :: i :: back)) (hnodup : (front ++ q :: i :: back).Nodup) :
    (ix.setAfter q back.head?).Chain start (front ++ q :: back) := by
  induction front generalizing start with
  | nil =>
      obtain ⟨rfl, _, hback⟩ := h
      simp only [List.nil_append, List.nodup_cons, List.mem_cons, not_or] at hnodup
      refine ⟨rfl, ?_⟩
      rw [setAfter_after, if_pos rfl]
      rw [hback.start_eq] at hback
      refine hback.congr fun j hj => ?_
      have hne : j ≠ q := fun heq => hnodup.1.2 (heq ▸ hj)
      rw [setAfter_after, if_neg hne]
  | cons j front ih =>
      obtain ⟨rfl, hrest⟩ := h
      simp only [List.cons_append, List.nodup_cons] at hnodup
      have hne : j ≠ q := fun heq => hnodup.1 (by simp [heq])
      refine ⟨rfl, ?_⟩
      rw [setAfter_after, if_neg hne]
      exact ih hrest hnodup.2

/-- Taking a slot out of the chain of its bucket leaves the rest of the chain. -/
theorem Chain.bypass {front back : List Nat} (hb : ix.bucketOf hash < ix.heads.size)
    (hchain : ix.Chain (ix.head hash) (front ++ i :: back)) (hnodup : (front ++ i :: back).Nodup) :
    (ix.bypass (ix.bucketOf hash) i front.getLast? back.head?).Chain
      ((ix.bypass (ix.bucketOf hash) i front.getLast? back.head?).heads[ix.bucketOf hash]?).join
      (front ++ back) := by
  have hi : i ∉ front ++ back := (List.nodup_cons.mp (List.perm_middle.nodup_iff.mp hnodup)).1
  rw [bypass_heads hb]
  rcases List.eq_nil_or_concat front with rfl | ⟨front, q, rfl⟩
  · have hback := hchain.rest
    rw [hback.start_eq] at hback
    simp only [List.getLast?_nil, and_self, ↓reduceIte, List.nil_append]
    refine hback.congr fun j hj => ?_
    have hne : j ≠ i := fun heq => hi (by simp [← heq, hj])
    simp [bypass_after, hne]
  · have hchain' : ix.Chain (ix.head hash) (front ++ q :: i :: back) := by
      simpa using hchain
    have hsplice := hchain'.splice (by simpa using hnodup)
    simp only [List.concat_eq_append, List.getLast?_append, List.getLast?_singleton,
      Option.some_or, reduceCtorEq, and_false, ↓reduceIte, List.append_assoc,
      List.cons_append, List.nil_append]
    refine hsplice.congr fun j hj => ?_
    have hne : j ≠ i := fun heq => hi (by simpa [← heq] using hj)
    simp [bypass_after, setAfter_after, hne, eq_comm]

/-- Taking a slot out changes no chain that shares no slot with its own. -/
theorem Chain.bypass_other {start : Option Nat} {slots front back : List Nat} {b : Nat}
    (h : ix.Chain start slots) (hout : ∀ j ∈ slots, j ∉ front ++ i :: back) :
    (ix.bypass b i front.getLast? back.head?).Chain start slots := by
  refine h.congr fun j hj => ?_
  have hne : j ≠ i := fun heq => hout j hj (by simp [heq])
  have hlast : front.getLast? ≠ some j := fun hlast =>
    hout j hj (by simp [List.mem_of_getLast? hlast])
  rw [bypass_after, if_neg hne, if_neg hlast]

/-- Taking a slot out keeps the other chains, and its own without it. -/
theorem bypass_partition (h : ix.Partition hashOf)
    {front back : List Nat} (hchain : ix.Chain (ix.head hash) (front ++ i :: back))
    (hnodup : (front ++ i :: back).Nodup)
    (hmem : ∀ j, j ∈ front ++ i :: back ↔
      ∃ other, hashOf j = some other ∧ ix.bucketOf other = ix.bucketOf hash) :
    (ix.bypass (ix.bucketOf hash) i front.getLast? back.head?).Partition
      fun j => if j = i then none else hashOf j := by
  have hb := bucketOf_lt h.buckets_pos hash
  have hrest := List.nodup_cons.mp (List.perm_middle.nodup_iff.mp hnodup)
  have hbucket : ∀ other, (ix.bypass (ix.bucketOf hash) i front.getLast? back.head?).bucketOf
      other = ix.bucketOf other := fun other => by simp [bucketOf]
  refine ⟨by simpa using h.buckets_pos, ?_, ?_⟩
  · intro c hc
    rw [bypass_buckets] at hc
    by_cases hcb : c = ix.bucketOf hash
    · subst hcb
      refine ⟨front ++ back, hchain.bypass hb hnodup, hrest.2, fun j => ?_⟩
      by_cases hj : j = i
      · simp [hj, by simpa using hrest.1]
      · have := hmem j
        simp only [List.mem_append, List.mem_cons, hj, false_or] at this
        simp [hj, this, hbucket]
    · obtain ⟨slots, hslots, hslotsNodup, hslotsMem⟩ := h.chain c hc
      -- a slot has one hash, so it stands in the chain of one bucket
      have hout : ∀ j ∈ slots, j ∉ front ++ i :: back := fun j hj hj' => by
        obtain ⟨other, hother, hbc⟩ := (hslotsMem j).mp hj
        obtain ⟨other', hother', hbh⟩ := (hmem j).mp hj'
        rw [hother] at hother'
        cases hother'
        exact hcb (hbc.symm.trans hbh)
      refine ⟨slots, ?_, hslotsNodup, fun j => ?_⟩
      · rw [bypass_heads hb, if_neg fun hboth => hcb hboth.1]
        exact hslots.bypass_other hout
      · by_cases hj : j = i
        · have : i ∉ slots := fun hmem' => hout i hmem' (by simp)
          simp [hj, this]
        · simp [hj, hslotsMem, hbucket]
  · intro j other hj
    by_cases hji : j = i
    · simp [hji] at hj
    · have := h.bound j other (by simpa [hji] using hj)
      have := bypass_size ix (ix.bucketOf hash) i front.getLast? back.head?
      omega

/-- Unlinking a linked slot takes it out between its neighbours in the chain of its bucket. -/
theorem Partition.unlink_eq (h : ix.Partition hashOf) (hi : hashOf i = some hash) :
    ∃ front back, ix.Chain (ix.head hash) (front ++ i :: back) ∧ (front ++ i :: back).Nodup ∧
      (∀ j, j ∈ front ++ i :: back ↔
        ∃ other, hashOf j = some other ∧ ix.bucketOf other = ix.bucketOf hash) ∧
      ix.unlink hash i = (true, ix.bypass (ix.bucketOf hash) i front.getLast? back.head?) := by
  obtain ⟨slots, hchain, hnodup, hmem⟩ := h.chain _ (bucketOf_lt h.buckets_pos hash)
  obtain ⟨front, back, rfl⟩ := List.append_of_mem ((hmem i).mpr ⟨hash, hi, rfl⟩)
  have hfront : i ∉ front := fun hi' =>
    (List.nodup_append.mp hnodup).2.2 i hi' i (by simp) rfl
  have hlength := h.length_le hnodup fun j hj =>
    let ⟨other, hother, _⟩ := (hmem j).mp hj
    ⟨other, hother⟩
  have hwalk := hchain.unlinkFrom_eq (b := ix.bucketOf hash) hfront hlength none
  rw [Option.or_none] at hwalk
  exact ⟨front, back, hchain, hnodup, hmem, hwalk⟩

/-- Unlinking a linked slot finds it and takes it out of its chain. -/
theorem unlink_partition (h : ix.Partition hashOf) (hi : hashOf i = some hash) :
    (ix.unlink hash i).1 = true ∧
      (ix.unlink hash i).2.Partition fun j => if j = i then none else hashOf j := by
  obtain ⟨front, back, hchain, hnodup, hmem, heq⟩ := h.unlink_eq hi
  rw [heq]
  exact ⟨rfl, bypass_partition h hchain hnodup hmem⟩

/-! ## Building an index -/

/-- Linking slots one after the other adds them all. -/
theorem foldl_link_partition (slots : List (Nat × UInt32)) (h : ix.Partition hashOf)
    (hnodup : (slots.map Prod.fst).Nodup) (hfree : ∀ s ∈ slots, hashOf s.1 = none) :
    (slots.foldl (fun ix s => ix.link s.2 s.1) ix).Partition fun i =>
      ((slots.find? fun s => s.1 = i).map Prod.snd).or (hashOf i) := by
  induction slots generalizing ix hashOf with
  | nil => exact h.congr fun i => by simp
  | cons s slots ih =>
      obtain ⟨hs, hrest⟩ := List.nodup_cons.mp hnodup
      have hlink := link_partition h (hfree s (by simp)) s.2
      refine (ih hlink hrest ?_).congr fun i => ?_
      · intro t ht
        have hne : t.1 ≠ s.1 := fun heq => hs (heq ▸ List.mem_map_of_mem ht)
        simpa [hne] using hfree t (by simp [ht])
      · by_cases hi : s.1 = i
        · have hnone : slots.find? (fun t => decide (t.1 = i)) = none := by
            rw [List.find?_eq_none]
            intro t ht htrue
            have heq : t.1 = i := by simpa using htrue
            exact hs (hi.trans heq.symm ▸ List.mem_map_of_mem ht)
          simp [hi, hnone]
        · simp [hi, Ne.symm hi]

/-- Linking slots into an index without any makes it hold exactly these. -/
theorem foldl_link_empty {slots : List (Nat × UInt32)} (h : ix.Partition fun _ => none)
    (hnodup : (slots.map Prod.fst).Nodup)
    (hmem : ∀ i hash, (i, hash) ∈ slots ↔ hashOf i = some hash) :
    (slots.foldl (fun ix s => ix.link s.2 s.1) ix).Partition hashOf := by
  refine (foldl_link_partition slots h hnodup (by simp)).congr fun i => ?_
  rw [Option.or_none]
  cases hfind : slots.find? (fun s => decide (s.1 = i)) with
  | none =>
      cases hhash : hashOf i with
      | none => rfl
      | some hash =>
          have := List.find?_eq_none.mp hfind (i, hash) ((hmem i hash).mpr hhash)
          simp at this
  | some s =>
      have hs : s.1 = i := by simpa using List.find?_some hfind
      have := (hmem s.1 s.2).mp (List.mem_of_find?_eq_some hfind)
      rw [hs] at this
      simpa using this

/-- A fresh index holds exactly the slots it was built from. -/
theorem ofSlots_partition {slots : List (Nat × UInt32)} (count : Nat)
    (hnodup : (slots.map Prod.fst).Nodup)
    (hmem : ∀ i hash, (i, hash) ∈ slots ↔ hashOf i = some hash) :
    (ofSlots count slots).Partition hashOf :=
  foldl_link_empty (withBuckets_partition count) hnodup hmem

/-- Clearing an index leaves it without slots. -/
theorem clear_partition (ix : ChainIndex) : ix.clear.Partition fun _ => none :=
  withBuckets_partition ix.bucketCount

/-! ## The number of buckets -/

/-- Linking a slot keeps the number of buckets. -/
theorem link_bucketCount (ix : ChainIndex) (hash : UInt32) (i : Nat) :
    (ix.link hash i).bucketCount = ix.bucketCount := by
  rw [bucketCount, link, setHead_size, setAfter_heads]
  rfl

/-- Walking a chain to take a slot out keeps the number of buckets. -/
theorem unlinkFrom_bucketCount (ix : ChainIndex) (bucket i fuel : Nat)
    (previous start : Option Nat) :
    (ix.unlinkFrom bucket i fuel previous start).2.bucketCount = ix.bucketCount := by
  induction fuel generalizing previous start with
  | zero => cases start <;> rfl
  | succ fuel ih =>
      cases start with
      | none => rfl
      | some current =>
          unfold unlinkFrom
          dsimp only
          split
          · exact ix.bypass_buckets bucket i previous (ix.after current)
          · exact ih _ _

/-- Unlinking a slot keeps the number of buckets. -/
theorem unlink_bucketCount (ix : ChainIndex) (hash : UInt32) (i : Nat) :
    (ix.unlink hash i).2.bucketCount = ix.bucketCount :=
  ix.unlinkFrom_bucketCount ..

/-- An index over slots has as many buckets as asked for, and one at least. -/
theorem ofSlots_bucketCount (count : Nat) (slots : List (Nat × UInt32)) :
    (ofSlots count slots).bucketCount = max count 1 := by
  have hlinked (ix : ChainIndex) :
      (slots.foldl (fun ix s => ix.link s.2 s.1) ix).bucketCount = ix.bucketCount := by
    induction slots generalizing ix with
    | nil => rfl
    | cons s slots ih => exact (ih _).trans (ix.link_bucketCount s.2 s.1)
  exact (hlinked _).trans Array.size_replicate

/-- A cleared index keeps its number of buckets. -/
theorem clear_bucketCount (ix : ChainIndex) (h : 0 < ix.bucketCount) :
    ix.clear.bucketCount = ix.bucketCount :=
  Array.size_replicate.trans (Nat.max_eq_left h)

end BoundedTables.Table.ChainIndex
