import BoundedTables.Proofs.ProbeMap

/-!
# Reachable probe tables

What holds of a probe table after any operations, whatever the comparer says about keys: an
insertion that is refused keeps the table it leaves, and the next operation starts from there.
Every operation keeps a table sound (`Sound.perform`), so the slots of every reachable table are in
order (`Intact`) and none of its counters is taken below zero (`Counted`): see `reachable_intact`.
-/

namespace BoundedTables.ProbeMap

open Hashing Sizing

variable {κ ν : Type} {m m' : ProbeMap κ ν} {e : ProbeEntry κ ν} {c : Comparer κ} {hash : UInt32}
  {i j : Nat}

/-! ## Operations that may be refused -/

/-- Perform one operation. A refused insertion answers with its error and keeps the table it
leaves. There is no result when the maintenance of a removal has none. -/
def perform (m : ProbeMap κ ν) : Op κ ν → Option (Except TableError (Reply ν) × ProbeMap κ ν)
  | .insert key value => some ((m.insert key value).map (Except.map .value) id)
  | .remove key => (m.remove key).map (Prod.map (.ok ∘ .value) id)
  | .get key => some ((m.get key).map (.ok ∘ .value) id)
  | .require key => some ((m.require key).map (.ok ∘ .demanded) id)
  | .modify key f => some ((m.modify key f).map (.ok ∘ .value) id)
  | .containsKey key => some ((m.containsKey key).map (.ok ∘ .present) id)
  | .clear => some (.ok .done, m.clear)

/-- The operations that succeed are performed alike. -/
theorem step_eq_some {op : Op κ ν} {answer : Reply ν} :
    m.step op = some (answer, m') ↔ m.perform op = some (.ok answer, m') := by
  cases op with
  | insert key value =>
      rw [step, perform]
      rcases m.insert key value with ⟨error | v, m₁⟩ <;> simp [Except.map]
  | remove key =>
      rw [step, perform]
      rcases m.remove key with _ | ⟨v, m₁⟩ <;> simp
  | get key => simp [step, perform, Prod.ext_iff]
  | require key => simp [step, perform, Prod.ext_iff]
  | modify key f => simp [step, perform, Prod.ext_iff]
  | containsKey key => simp [step, perform, Prod.ext_iff]
  | clear => simp [step, perform]

/-- Whether an operation that was answered so is a new version of the map. -/
def changes : Op κ ν → Except TableError (Reply ν) → Bool
  | .insert _ _, .ok _ | .remove _, .ok (.value (some _)) | .clear, _ => true
  | _, _ => false

/-- Whether an operation that was answered so only looked at the map. -/
def looks : Op κ ν → Except TableError (Reply ν) → Bool
  | .get _, _ | .require _, _ | .containsKey _, _ => true
  | .remove _, .ok (.value none) | .modify _ _, .ok (.value none) => true
  | _, _ => false

/-! ## Each operation -/

/-- What an operation with a given answer leaves of a table. -/
structure Upkept (m : ProbeMap κ ν) (op : Op κ ν) (answer : Except TableError (Reply ν))
    (m' : ProbeMap κ ν) : Prop where
  sound : m'.Sound
  minCapacity : m'.minCapacity = m.minCapacity
  version : m'.version = m.version + if changes op answer then 1 else 0
  same : looks op answer → m.SameTable m'

/-- A lookup keeps the initial slot count. -/
theorem SameTable.minCapacity_eq (h : m.SameTable m') : m'.minCapacity = m.minCapacity := by
  obtain ⟨_, _, _, _, rfl⟩ := h
  rfl

/-- A lookup keeps the version. -/
theorem SameTable.version_eq (h : m.SameTable m') : m'.version = m.version := by
  obtain ⟨_, _, _, _, rfl⟩ := h
  rfl

/-- A look at a sound table. -/
theorem Sound.look (h : m.Sound) (hs : m.SameTable m') {op : Op κ ν}
    {answer : Except TableError (Reply ν)} (hchanges : changes op answer = false) :
    Upkept m op answer m' :=
  ⟨h.same hs, hs.minCapacity_eq, by rw [hs.version_eq, hchanges]; simp, fun _ => hs⟩

/-- A slot that a lookup finds holds an entry. -/
theorem Sound.lookup (h : m.Sound) (key : κ) : ∃ m', m.SameTable m' ∧ m'.Sound ∧
    (m.lookup key = (none, m') ∨
      ∃ i e, m.lookup key = (some i, m') ∧ m'.slots[i]? = some (.occupied e)) := by
  obtain ⟨m', hs, hfind⟩ := h.searchable.find key (m.hasher.hash key)
  refine ⟨m', hs, h.same hs, ?_⟩
  rcases hfind with ⟨hfind, -⟩ | ⟨i, e, hfind, hi, -⟩
  · exact .inl hfind
  · rw [← hs.slots_eq] at hi
    exact .inr ⟨i, e, hfind, hi⟩

/-- A lookup changes the counters and the journal only. -/
theorem lookup_sameTable (m : ProbeMap κ ν) (key : κ) : m.SameTable (m.lookup key).2 :=
  m.find_sameTable key _

/-- An insertion leaves a sound table, and a version that counts it if it succeeds. -/
theorem Sound.insert (h : m.Sound) (key : κ) (value : ν) :
    Upkept m (.insert key value) ((m.insert key value).1.map .value) (m.insert key value).2 := by
  obtain ⟨m₁, hs, h₁, hl | ⟨i, e, hl, hi⟩⟩ := h.lookup key
  · rw [insert_of_missed hl]
    obtain ⟨m', hsound, -, -, hinitial, -, hnew⟩ := h₁.insertNew ⟨key, value, m.hasher.hash key⟩
    rw [hs.minCapacity_eq] at hinitial
    rw [hs.version_eq] at hnew
    -- what a refused insertion rebuilt stays, but is no new version
    rcases hnew with ⟨hnew, hversion, -⟩ | ⟨hnew, hversion, -⟩
    · rw [hnew]
      exact ⟨hsound, hinitial, hversion, (absurd · Bool.false_ne_true)⟩
    · rw [hnew]
      exact ⟨hsound, hinitial, hversion.trans (UInt64.add_zero _).symm,
        (absurd · Bool.false_ne_true)⟩
  · rw [insert_of_found hl]
    obtain ⟨hsound, -⟩ := h₁.modifySlot hi (fun _ => value) (m₁.version + 1)
    exact ⟨hsound, hs.minCapacity_eq, congrArg (· + 1) hs.version_eq,
      (absurd · Bool.false_ne_true)⟩

/-- A removal leaves a sound table, and a version that counts it if it finds its key. -/
theorem Sound.remove (h : m.Sound) {key : κ} {v : Option ν}
    (hremove : m.remove key = some (v, m')) : Upkept m (.remove key) (.ok (.value v)) m' := by
  unfold ProbeMap.remove at hremove
  obtain ⟨m₁, hs, h₁, hl | ⟨i, e, hl, hi⟩⟩ := h.lookup key
  · rw [hl] at hremove
    cases hremove
    exact h.look hs rfl
  · rw [hl] at hremove
    dsimp only at hremove
    rw [value?_eq hi] at hremove
    obtain ⟨hvacated, -⟩ := h₁.vacate hi
    have hversion : (m₁.vacate i).version = m.version + 1 := congrArg (· + 1) hs.version_eq
    split at hremove
    · -- a rebuild moves entries, but under the version of the removal
      obtain ⟨m₂, hmaintain, heq⟩ := Option.map_eq_some_iff.mp hremove
      cases heq
      obtain ⟨hsound, hmoved⟩ := hvacated.maintain hmaintain
      exact ⟨hsound, hmoved.minCapacity_eq.trans hs.minCapacity_eq,
        hmoved.version_eq.trans hversion, (absurd · Bool.false_ne_true)⟩
    · cases hremove
      exact ⟨hvacated, hs.minCapacity_eq, hversion, (absurd · Bool.false_ne_true)⟩

/-- A modification leaves a sound table. -/
theorem Sound.modify (h : m.Sound) (key : κ) (f : ν → ν) :
    Upkept m (.modify key f) (.ok (.value (m.modify key f).1)) (m.modify key f).2 := by
  unfold ProbeMap.modify
  obtain ⟨m₁, hs, h₁, hl | ⟨i, e, hl, hi⟩⟩ := h.lookup key
  · rw [hl]
    exact h.look hs rfl
  · rw [hl]
    obtain ⟨hsound, -⟩ := h₁.modifySlot hi f m₁.version
    have hchanged : ({ m₁ with slots := ProbeMap.modifySlot m₁.slots i f } :
        ProbeMap κ ν).slots[i]? = some (.occupied { e with value := f e.value }) :=
      modifySlot_getElem? hi f
    dsimp only
    rw [value?_eq hchanged]
    exact ⟨hsound, hs.minCapacity_eq, hs.version_eq.trans (UInt64.add_zero _).symm,
      (absurd · Bool.false_ne_true)⟩

/-- A lookup that requires its key changes the counters and the journal only. -/
theorem require_sameTable (m : ProbeMap κ ν) (key : κ) : m.SameTable (m.require key).2 := by
  have hs : m.SameTable (m.get key).2 := m.lookup_sameTable key
  unfold ProbeMap.require
  revert hs
  rcases m.get key with ⟨⟨⟩ | v, m'⟩ <;> exact fun hs => hs

/-- Every operation keeps a table sound, and counts a version exactly when it changes the map. -/
theorem Sound.perform (h : m.Sound) {op : Op κ ν} {answer : Except TableError (Reply ν)}
    (hperform : m.perform op = some (answer, m')) : Upkept m op answer m' := by
  cases op with
  | insert key value =>
      cases hperform
      exact h.insert key value
  | remove key =>
      obtain ⟨⟨v, m₁⟩, hremove, heq⟩ := Option.map_eq_some_iff.mp hperform
      cases heq
      exact h.remove hremove
  | get key =>
      cases hperform
      exact h.look (m.lookup_sameTable key) rfl
  | require key =>
      cases hperform
      exact h.look (m.require_sameTable key) rfl
  | modify key f =>
      cases hperform
      exact h.modify key f
  | containsKey key =>
      cases hperform
      exact h.look (m.lookup_sameTable key) rfl
  | clear =>
      cases hperform
      exact ⟨h.clear, rfl, rfl, (absurd · Bool.false_ne_true)⟩

/-- Every run keeps a table sound. -/
theorem Sound.run (h : m.Sound) {ops : List (Op κ ν)} {answers : List (Except TableError (Reply ν))}
    (hrun : run? ProbeMap.perform m ops = some (answers, m')) :
    m'.Sound ∧ m'.minCapacity = m.minCapacity :=
  run?_keeps (P := fun t => t.Sound ∧ t.minCapacity = m.minCapacity)
    (fun _ _ _ _ hs hstep => ⟨(hs.1.perform hstep).sound,
      (hs.1.perform hstep).minCapacity.trans hs.2⟩) ⟨h, rfl⟩ hrun

/-! ## Slots in order -/

/-- The home slot of a hash. -/
def home (m : ProbeMap κ ν) (hash : UInt32) : Nat := hash.toNat &&& (m.slots.size - 1)

/-- How far a slot is behind the home of a hash. -/
def displacement (m : ProbeMap κ ν) (hash : UInt32) (i : Nat) : Nat :=
  (i + m.slots.size - m.home hash) % m.slots.size

/-- The slots of a table are in order, and at least as many as there were initially. -/
structure Intact (m : ProbeMap κ ν) (initial : Nat) : Prop where
  pow : ∃ k, m.slots.size = 2 ^ k
  initial : initial ≤ m.slots.size
  live : m.live = m.slots.toList.countP fun slot => slot.entry?.isSome
  tombstones : m.tombstones = tombstonesOf m.slots
  room : m.live < m.slots.size
  near : ∀ (i : Nat) (e : ProbeEntry κ ν), m.slots[i]? = some (.occupied e) →
    m.displacement e.hash i ≤ m.maxDisplacement
  used : ∀ (i : Nat) (e : ProbeEntry κ ν), m.slots[i]? = some (.occupied e) →
    ∀ j < m.displacement e.hash i,
      m.slots[(m.home e.hash + j) &&& (m.slots.size - 1)]? ≠ some .empty
  filtered : ∀ (i : Nat) (e : ProbeEntry κ ν), m.slots[i]? = some (.occupied e) →
    m.filter.containsHash e.hash.toUInt64 = true

/-- Walking on from home by masking and by remainders is the same. -/
theorem Sound.home_add (h : m.Sound) (hash : UInt32) (j : Nat) :
    (m.home hash + j) &&& (m.slots.size - 1) = position m.slots.size hash j := by
  obtain ⟨k, hk⟩ := h.suits.pow
  rw [home, hk, Nat.and_two_pow_sub_one_eq_mod, Nat.and_two_pow_sub_one_eq_mod, Nat.mod_add_mod]
  rfl

/-- The displacement of a slot is the distance that leads to it. -/
theorem displacement_of_position (hpow : ∃ k, m.slots.size = 2 ^ k) {distance : Nat}
    (hlt : distance < m.slots.size) (hposition : position m.slots.size hash distance = i) :
    m.displacement hash i = distance := by
  have hmask : m.home hash = hash.toNat % m.slots.size := by
    obtain ⟨k, hk⟩ := hpow
    rw [home, hk, Nat.and_two_pow_sub_one_eq_mod]
  have hhome : m.home hash < m.slots.size := by
    rw [hmask]
    exact Nat.mod_lt _ (Nat.zero_lt_of_lt hlt)
  have hi : (m.home hash + distance) % m.slots.size = i := by
    rw [hmask, Nat.mod_add_mod]
    exact hposition
  rw [displacement]
  -- the walk either stays behind home or wraps around once
  rcases Nat.lt_or_ge (m.home hash + distance) m.slots.size with hstays | hwraps
  · rw [Nat.mod_eq_of_lt hstays] at hi
    have hsum : i + m.slots.size - m.home hash = distance + m.slots.size := by omega
    rw [hsum, Nat.add_mod_right, Nat.mod_eq_of_lt hlt]
  · rw [Nat.mod_eq_sub_mod hwraps, Nat.mod_eq_of_lt (by omega)] at hi
    have hsum : i + m.slots.size - m.home hash = distance := by omega
    rw [hsum, Nat.mod_eq_of_lt hlt]

/-- A slot is as far from the home of a hash as it takes to probe it. -/
theorem Sound.displacement_eq (h : m.Sound) {distance : Nat} (hlt : distance < m.slots.size)
    (hposition : position m.slots.size hash distance = i) : m.displacement hash i = distance :=
  displacement_of_position h.suits.pow hlt hposition

/-- The slots of a sound table are intact. -/
theorem Sound.intact (h : m.Sound) : m.Intact m.minCapacity where
  pow := h.suits.pow
  initial := h.suits.initial
  live := by rw [← h.live, entries, List.length_filterMap_eq_countP]
  tombstones := h.tombstones.symm
  room := h.suits.room
  near i e he := by
    obtain ⟨distance, hbound, hlt, hposition, -⟩ := h.searchable.path i e he
    rw [h.displacement_eq hlt hposition]
    exact hbound
  used i e he j hj := by
    obtain ⟨distance, -, hlt, hposition, hused⟩ := h.searchable.path i e he
    rw [h.displacement_eq hlt hposition] at hj
    rw [h.home_add]
    exact hused j hj
  filtered := h.searchable.filtered

/-! ## Counters -/

/-- An insertion of a hash fills a slot of a table: the map's own, or one that was rebuilt to make
room for it. -/
inductive Fills (m : ProbeMap κ ν) (hash : UInt32) : ProbeMap κ ν → Nat → Nat → Prop where
  | claimed {m₁ m₂ : ProbeMap κ ν} {i distance : Nat} (reserved : m.reserveOne = .ok m₁)
      (claimed : m₁.claimSlot hash = (.ok (some (i, distance)), m₂)) : Fills m hash m₂ i distance
  | forced {m₁ m₂ m₃ : ProbeMap κ ν} {i distance : Nat} (reserved : m.reserveOne = .ok m₁)
      (claimed : m₁.claimSlot hash = (.ok none, m₂))
      (forced : m₂.forceSlot hash = (.ok (i, distance), m₃)) : Fills m hash m₃ i distance

/-- An insertion that succeeds occupies the slot that it fills. -/
theorem exists_fills {v : Option ν} (h : m.insertNew e = (.ok v, m')) :
    ∃ t i distance, m.Fills e.hash t i distance ∧ m' = t.occupy i distance e := by
  unfold insertNew at h
  rcases hreserve : m.reserveOne with error | m₁ <;> rw [hreserve] at h
  · cases h
  · dsimp only at h
    rcases hclaim : m₁.claimSlot e.hash with ⟨error | _ | ⟨i, distance⟩, m₂⟩ <;> rw [hclaim] at h
    · cases h
    · dsimp only at h
      rcases hforce : m₂.forceSlot e.hash with ⟨error | ⟨i, distance⟩, m₃⟩ <;> rw [hforce] at h
      · cases h
      · cases h
        exact ⟨m₃, i, distance, .forced hreserve hclaim hforce, rfl⟩
    · cases h
      exact ⟨m₂, i, distance, .claimed hreserve hclaim, rfl⟩

/-- Filling the slot of an insertion leaves a sound table. -/
theorem Sound.fills (h : m.Sound) {t : ProbeMap κ ν} {distance : Nat}
    (hfills : m.Fills hash t i distance) : t.Sound := by
  obtain ⟨hreserve, hclaim⟩ | ⟨hreserve, hclaim, hforce⟩ := hfills
  all_goals
    obtain ⟨m₁, hreserve', h₁, -⟩ | ⟨hreserve', -⟩ := h.reserveOne <;>
      cases hreserve.symm.trans hreserve'
    obtain ⟨m₂, h₂, -, -, -, ⟨slot, hclaim', -⟩ | ⟨hclaim', -⟩⟩ := h₁.claimSlot hash <;>
      cases hclaim.symm.trans hclaim'
  · exact h₂
  · obtain ⟨_, _, m₃, hforce', h₃, -⟩ := h₂.forceSlot hash
    cases hforce.symm.trans hforce'
    exact h₃

/-- Every place where a counter of a table is taken down by one finds it above zero. -/
structure Counted (m : ProbeMap κ ν) : Prop where
  /-- The entries, when a removal has found one. -/
  found : ∀ key i m', m.lookup key = (some i, m') → 0 < m'.live
  /-- The tombstones, when an insertion of a key that was not found fills one. -/
  filled : ∀ key t i distance, Fills (m.lookup key).2 (m.hasher.hash key) t i distance →
    isTombstone t.slots i = true → 0 < t.tombstones
  /-- A rebuild never fills a tombstone. -/
  moved : ∀ capacity (moving : List (ProbeEntry κ ν)) i,
    isTombstone (moving.foldl reinsert (m.emptied capacity)).slots i = false

/-- A tombstone is a deleted slot. -/
theorem isTombstone_iff {slots : Array (Slot κ ν)} :
    isTombstone slots i = true ↔ slots[i]? = some .deleted := by
  unfold isTombstone
  rcases slots[i]? with _ | _ | _ | _ <;> simp

/-- A tombstone in the slots is among the counted ones. -/
theorem Tidy.tombstones_pos (h : m.Tidy) (hi : isTombstone m.slots i = true) :
    0 < m.tombstones := by
  obtain ⟨front, back, hlist, -⟩ := toList_write (isTombstone_iff.mp hi)
  rw [← h.tombstones, tombstonesOf, hlist, List.countP_pos_iff]
  exact ⟨.deleted, by simp, rfl⟩

/-- Moving an entry leaves no tombstone. -/
theorem isTombstone_reinsert (h : ∀ i, isTombstone m.slots i = false) (e : ProbeEntry κ ν)
    (i : Nat) : isTombstone (m.reinsert e).slots i = false := by
  have hi := h i
  unfold ProbeMap.reinsert
  dsimp only
  rw [← Bool.not_eq_true, isTombstone_iff] at hi ⊢
  split
  · exact write_ne hi (by nofun) _
  · exact hi

/-- Reinserting entries leaves no tombstone where there was none. -/
theorem isTombstone_foldl_reinsert (h : ∀ i, isTombstone m.slots i = false)
    (moving : List (ProbeEntry κ ν)) (i : Nat) :
    isTombstone (moving.foldl ProbeMap.reinsert m).slots i = false := by
  induction moving generalizing m with
  | nil => exact h i
  | cons e moving ih => exact ih (isTombstone_reinsert h e)

/-- A fresh table has no tombstone. -/
theorem isTombstone_emptied (m : ProbeMap κ ν) (capacity i : Nat) :
    isTombstone (m.emptied capacity).slots i = false := by
  rw [← Bool.not_eq_true, isTombstone_iff, emptied, emptySlots, Array.getElem?_replicate]
  split <;> simp

/-- A sound table with an occupied slot counts an entry. -/
theorem Sound.live_pos (h : m.Sound) (hi : m.slots[i]? = some (.occupied e)) : 0 < m.live := by
  rw [← h.live]
  exact List.length_pos_of_mem (mem_entriesOf.mpr ⟨i, hi⟩)

/-- The counters of a sound table are above zero wherever they are taken down. -/
theorem Sound.counted (h : m.Sound) : m.Counted where
  found key i m' hl := by
    obtain ⟨m₁, -, h₁, hl' | ⟨_, e, hl', hi⟩⟩ := h.lookup key
    · cases hl.symm.trans hl'
    · cases hl.symm.trans hl'
      exact h₁.live_pos hi
  filled key t i distance hfills hi :=
    ((h.same (m.lookup_sameTable key)).fills hfills).tombstones_pos hi
  moved capacity moving i := isTombstone_foldl_reinsert (m.isTombstone_emptied capacity) moving i

/-! ## Reachable tables -/

variable {o : ProbeOptions}

/-- A new map has the initial slot count, and never fewer. -/
theorem withComparer_ok (h : withComparer o c = .ok m) : m.Sound ∧
    m.minCapacity = m.slots.size ∧ o.initialCapacity ≤ m.slots.size := by
  rcases hcheck : o.check with error | f
  · rw [withComparer, hcheck] at h
    cases h
  · cases (withComparer_eq hcheck c).symm.trans h
    refine ⟨initial_sound hcheck _ _, (initial_size o f _ _).symm, ?_⟩
    rw [initial_size]
    exact le_ceilPowerOfTwo _

/-- The slots of every reachable table are in order and its counters never underflow, whatever the
comparer and whether or not insertions were refused. -/
theorem reachable_intact (hvalid : o.check.isOk) (c : Comparer κ) :
    ∃ m : ProbeMap κ ν, withComparer o c = .ok m ∧ o.initialCapacity ≤ m.slots.size ∧
      ∀ (ops : List (Op κ ν)) (answers : List (Except TableError (Reply ν)))
        (final : ProbeMap κ ν), run? perform m ops = some (answers, final) →
        final.Intact m.slots.size ∧ final.Counted := by
  obtain ⟨f, hvalid⟩ := exists_ok hvalid
  obtain ⟨m, hm, -⟩ : ∃ m : ProbeMap κ ν, _ := withComparer_stands hvalid c
  obtain ⟨hsound, hinitial, hcapacity⟩ := withComparer_ok hm
  refine ⟨m, hm, hcapacity, fun ops answers final hrun => ?_⟩
  obtain ⟨hfinal, hkept⟩ := hsound.run hrun
  rw [← hinitial, ← hkept]
  exact ⟨hfinal.intact, hfinal.counted⟩

/-- A comparer that takes no two keys for equal leaves the slots in order, too. -/
theorem reachable_intact_unequal :
    ProbeOptions.standard.check.isOk ∧
    ∃ m : ProbeMap UInt64 Nat,
      withComparer .standard { (Comparer.natural : Comparer UInt64) with
        equals := fun _ _ => false } = .ok m ∧
      ∃ answers final, run? perform m [.insert 1 10, .insert 1 20, .get 1] = some (answers, final) ∧
        final.Intact m.slots.size ∧ final.Counted := by
  have hvalid : ProbeOptions.standard.check.isOk := by decide +kernel
  obtain ⟨m, hm, -, hruns⟩ : ∃ m : ProbeMap UInt64 Nat, _ := reachable_intact hvalid
    { (Comparer.natural : Comparer UInt64) with equals := fun _ _ => false }
  obtain ⟨answers, final, hrun⟩ : ∃ answers final,
      run? perform m [.insert 1 10, .insert 1 20, .get 1] = some (answers, final) := ⟨_, _, rfl⟩
  exact ⟨hvalid, m, hm, answers, final, hrun, hruns _ _ _ hrun⟩

end BoundedTables.ProbeMap
