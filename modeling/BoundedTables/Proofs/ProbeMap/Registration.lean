import BoundedTables.Proofs.ProbeMap.Churn

/-!
# What the filter of a probe table remembers

The companion filter takes note of every new key, and of no removal. A rebuild starts it over with
the entries that are live, and clearing starts it over with none. So the filter of every reachable
table is the one that holds the hashes of the entries that were live then, and those of the keys
that came since (`reachable_filter`): one hash for every entry, and one for every removal since
(`reachable_filter_load`). As nothing bounds the removals that are made up for by insertions into
the slots they left, the filter can hold more hashes than it is sized for (`filter_overloaded`).
-/

namespace BoundedTables.ProbeMap

open Hashing Sizing Binary64

variable {κ ν : Type} {m m' t : ProbeMap κ ν} {c : Comparer κ} {op : Op κ ν}
  {answer : Except TableError (Reply ν)} {rate : Float} {hashes : List UInt32} {removed : Nat}

/-! ## Registered hashes -/

/-- What replaces a record when the table was rebuilt. -/
def sinceRebuild {α : Type} (m m' : ProbeMap κ ν) (afresh kept : α) : α :=
  if m.rebuilds < m'.rebuilds then afresh else kept

/-- A record is kept when the table was not rebuilt. -/
theorem sinceRebuild_kept {α : Type} (h : m'.rebuilds = m.rebuilds) (afresh kept : α) :
    sinceRebuild m m' afresh kept = kept :=
  if_neg (by omega)

/-- A record starts afresh when the table was rebuilt. -/
theorem sinceRebuild_afresh {α : Type} (h : m.rebuilds < m'.rebuilds) (afresh kept : α) :
    sinceRebuild m m' afresh kept = afresh :=
  if_pos h

/-- The hashes that were registered with the filter since it was last started over, after an
operation. A removal rebuilds the table when its entry has left, an insertion before its entry
joins. -/
def registered (m : ProbeMap κ ν) (op : Op κ ν) (answer : Except TableError (Reply ν))
    (m' : ProbeMap κ ν) (hashes : List UInt32) : List UInt32 :=
  match op, answer with
  | .clear, _ => []
  | .remove _, _ => sinceRebuild m m' m'.hashes hashes
  | .insert key _, .ok (.value none) => sinceRebuild m m' m.hashes hashes ++ [m.hasher.hash key]
  | _, _ => sinceRebuild m m' m.hashes hashes

/-- The number of entries that were removed since the filter was last started over, after an
operation. -/
def removedSince (m : ProbeMap κ ν) (op : Op κ ν) (answer : Except TableError (Reply ν))
    (m' : ProbeMap κ ν) (removed : Nat) : Nat :=
  match op, answer with
  | .clear, _ => 0
  | .remove _, .ok (.value (some _)) => sinceRebuild m m' 0 (removed + 1)
  | _, _ => sinceRebuild m m' 0 removed

/-- An operation that neither adds nor removes an entry registers none. -/
theorem registered_of_settled (halters : alters op answer = false) (hs : m.Settled m')
    (hashes : List UInt32) : registered m op answer m' hashes = hashes := by
  have hkept := hs.rebuilds_eq
  unfold registered
  split
  · simp [alters] at halters
  · exact sinceRebuild_kept hkept ..
  · simp [alters] at halters
  · exact sinceRebuild_kept hkept ..

/-- An operation that neither adds nor drops an entry removes none. -/
theorem removedSince_of_settled (halters : alters op answer = false) (hs : m.Settled m')
    (removed : Nat) : removedSince m op answer m' removed = removed := by
  unfold removedSince
  split
  · simp [alters] at halters
  · simp [alters] at halters
  · exact sinceRebuild_kept hs.rebuilds_eq ..

/-- The filter of a table holds the registered hashes. -/
structure Registers (rate : Float) (m : ProbeMap κ ν) (hashes : List UInt32) : Prop where
  sound : m.Sound
  rate_eq : m.falsePositiveRate = rate
  filter : m.filter = filterOf m.slots.size rate hashes

/-- A lookup keeps the registered hashes. -/
theorem Registers.same (h : Registers rate m hashes) (hs : m.SameTable m') :
    Registers rate m' hashes := by
  have hsound := h.sound.same hs
  obtain ⟨_, _, _, _, rfl⟩ := hs
  exact ⟨hsound, h.rate_eq, h.filter⟩

/-- A table that was rebuilt registers the entries that it has. -/
theorem Rebuilt.registers {capacity : Nat} (h : m.Rebuilt capacity m')
    (hrate : m.falsePositiveRate = rate) : Registers rate m' m'.hashes where
  sound := h.sound
  rate_eq := h.falsePositiveRate_eq.trans hrate
  filter := by rw [h.filter_eq, h.falsePositiveRate_eq, hrate]

/-- A table that is made ready keeps the registered hashes, or registers its entries anew. -/
theorem Registers.readied (h : Registers rate m hashes) (ht : m.Readied t) :
    Registers rate t (sinceRebuild m t m.hashes hashes) := by
  obtain ⟨journal, rfl⟩ | ⟨_, hr⟩ := ht.kept_or_rebuilt
  · have hkept : ({ m with journal } : ProbeMap κ ν).rebuilds = m.rebuilds := rfl
    rw [sinceRebuild_kept hkept]
    exact h.same ⟨_, _, _, rfl, rfl⟩
  · rw [sinceRebuild_afresh hr.counted]
    obtain ⟨hsound, hrate, hfilter⟩ := hr.registers h.rate_eq
    exact ⟨hsound, hrate, hfilter.trans (filterOf_perm _ _ hr.hashes_perm)⟩

/-- A new entry is registered. -/
theorem Registers.occupy (h : Registers rate m hashes) {i distance : Nat} {e : ProbeEntry κ ν}
    (hsound : (m.occupy i distance e).Sound) :
    Registers rate (m.occupy i distance e) (hashes ++ [e.hash]) where
  sound := hsound
  rate_eq := h.rate_eq
  filter := by
    have hfilter : (m.occupy i distance e).filter = (m.filter.insertHash e.hash.toUInt64).2 := rfl
    rw [hfilter, h.filter, occupy_size, filterOf_concat]

/-- Every operation registers what it should. -/
theorem Registers.perform (h : Registers rate m hashes)
    (hperform : m.perform op = some (answer, m')) :
    Registers rate m' (registered m op answer m' hashes) := by
  have hsound := (h.sound.perform hperform).sound
  cases h.sound.effect hperform with
  | settle halters hs =>
      rw [registered_of_settled halters hs]
      obtain ⟨⟨_, _, _, _, _, rfl⟩, hsize, -⟩ := hs
      exact ⟨hsound, h.rate_eq, h.filter.trans (by rw [hsize])⟩
  | refuse hs ht =>
      have h₁ := h.same hs
      obtain rfl | ht := ht
      · show Registers rate m' (sinceRebuild m m' m.hashes hashes)
        rw [sinceRebuild_kept hs.settled.rebuilds_eq]
        exact h₁
      · obtain ⟨_, _, _, _, rfl⟩ := hs
        exact h₁.readied ht
  | add hs ht =>
      have h₁ := (h.same hs).readied ht
      obtain ⟨_, _, _, _, rfl⟩ := hs
      exact h₁.occupy hsound
  | @remove m₁ _ i _ hs hi _ =>
      have hkept : (m₁.vacate i).rebuilds = m.rebuilds := hs.settled.rebuilds_eq
      rw [registered, sinceRebuild_kept hkept]
      obtain ⟨_, _, _, _, rfl⟩ := hs
      exact ⟨hsound, h.rate_eq, h.filter.trans (by rw [vacate_size])⟩
  | maintain hs hi _ _ hr =>
      obtain ⟨_, _, _, _, rfl⟩ := hs
      have hafresh : m.rebuilds < m'.rebuilds := hr.counted
      rw [registered, sinceRebuild_afresh hafresh]
      exact hr.registers h.rate_eq
  | clear =>
      have hsize : m.clear.slots.size = m.slots.size := Array.size_replicate
      have hfilter : m.clear.filter = m.filter.clear := rfl
      refine ⟨hsound, h.rate_eq, ?_⟩
      rw [hfilter, h.filter, clear_filterOf, hsize]
      rfl

/-- There are as many hashes in the slots as entries are counted. -/
theorem Sound.hashes_length (h : m.Sound) : m.hashes.length = m.live := by
  rw [hashes, List.length_map, h.live]

/-- A table that is made ready keeps its entries, and the removals unless it is rebuilt. -/
theorem Readied.registered_length (ht : m.Readied t) (h : m.Sound)
    (hlength : hashes.length = m.live + removed) :
    (sinceRebuild m t m.hashes hashes).length = t.live + sinceRebuild m t 0 removed := by
  rw [ht.rearranged.live_eq]
  obtain ⟨journal, rfl⟩ | ⟨_, hr⟩ := ht.kept_or_rebuilt
  · have hkept : ({ m with journal } : ProbeMap κ ν).rebuilds = m.rebuilds := rfl
    rw [sinceRebuild_kept hkept, sinceRebuild_kept hkept, hlength]
  · rw [sinceRebuild_afresh hr.counted, sinceRebuild_afresh hr.counted, h.hashes_length,
      Nat.add_zero]

/-- One hash is registered for every entry, and one for every removal since the filter was started
over. -/
theorem Sound.registered_length (h : m.Sound) (hperform : m.perform op = some (answer, m'))
    (hlength : hashes.length = m.live + removed) :
    (registered m op answer m' hashes).length =
      m'.live + removedSince m op answer m' removed := by
  cases h.effect hperform with
  | settle halters hs =>
      rw [registered_of_settled halters hs, removedSince_of_settled halters hs]
      obtain ⟨⟨_, _, _, _, _, rfl⟩, -, -⟩ := hs
      exact hlength
  | refuse hs ht =>
      show (sinceRebuild m m' m.hashes hashes).length = m'.live + sinceRebuild m m' 0 removed
      obtain rfl | ht := ht
      · have hkept := hs.settled.rebuilds_eq
        rw [sinceRebuild_kept hkept, sinceRebuild_kept hkept, hs.live_eq, hlength]
      · have h₁ := h.same hs
        obtain ⟨_, _, _, _, rfl⟩ := hs
        exact ht.registered_length h₁ hlength
  | @add m₁ t key _ i distance hs ht =>
      have h₁ := h.same hs
      obtain ⟨_, _, _, _, rfl⟩ := hs
      have hready := ht.registered_length h₁ hlength
      show (sinceRebuild m t m.hashes hashes ++ [m.hasher.hash key]).length =
        t.live + 1 + sinceRebuild m t 0 removed
      rw [List.length_append, List.length_singleton]
      exact (congrArg (· + 1) hready).trans (Nat.add_right_comm ..)
  | @remove m₁ _ i _ hs hi _ =>
      have hkept : (m₁.vacate i).rebuilds = m.rebuilds := hs.settled.rebuilds_eq
      have hpos := (h.same hs).live_pos hi
      rw [registered, removedSince, sinceRebuild_kept hkept, sinceRebuild_kept hkept, vacate_live,
        hlength, ← hs.live_eq]
      omega
  | maintain hs hi _ _ hr =>
      obtain ⟨_, _, _, _, rfl⟩ := hs
      have hafresh : m.rebuilds < m'.rebuilds := hr.counted
      rw [registered, removedSince, sinceRebuild_afresh hafresh, sinceRebuild_afresh hafresh,
        hr.sound.hashes_length, Nat.add_zero]
  | clear => rfl

/-! ## Reachable tables -/

variable {o : ProbeOptions} {f : LoadFactor}

/-- A new map has no hashes registered. -/
theorem withComparer_registers (hvalid : o.check = .ok f) (hm : withComparer o c = .ok m) :
    Registers o.falsePositiveRate m [] := by
  cases (withComparer_eq hvalid c).symm.trans hm
  exact ⟨initial_sound hvalid _ _, rfl, by rw [initial_size]; rfl⟩

/-- After any run, the filter holds the registered hashes. -/
theorem Registers.run (h : Registers rate m hashes) {ops : List (Op κ ν)}
    {answers : List (Except TableError (Reply ν))}
    (hrun : run? ProbeMap.perform m ops = some (answers, m')) :
    Registers rate m' (chronicle ProbeMap.perform registered m hashes ops) := by
  refine run?_keeps_chronicle (P := Registers rate) ?_ h hrun
  exact fun _ _ _ _ _ ht hstep => ht.perform hstep

/-- The filter counts the registered hashes, as far as a word can count. -/
theorem Registers.items (h : Registers rate m hashes) :
    m.filter.items = min hashes.length maxWord := by
  have hempty : (filterFor m.slots.size rate).items = 0 := rfl
  rw [h.filter, filterOf, BloomFilter.items_insertAll (hempty.trans_le (Nat.zero_le _)), hempty,
    Nat.zero_add, List.length_map]

/-- The filter is sized for twice the slots. -/
theorem Registers.options (h : Registers rate m hashes) :
    m.filter.options = filterOptions m.slots.size rate := by
  obtain ⟨words, items, hframe⟩ :=
    (filterFor m.slots.size rate).insertAll_frame (hashes.map UInt32.toUInt64)
  rw [h.filter, filterOf, hframe]
  rfl

/-- The filter of every reachable table is a fresh filter for its slots with the registered hashes
in it: those of the entries that were live when it was started over, and of the keys that came
since. After a removal that rebuilds the table, they are the hashes of its entries. -/
theorem reachable_filter (hvalid : o.check.isOk) (c : Comparer κ) :
    ∃ m : ProbeMap κ ν, withComparer o c = .ok m ∧
      ∀ ops answers final, run? perform m ops = some (answers, final) →
        final.filter = filterOf final.slots.size o.falsePositiveRate
          (chronicle perform registered m [] ops) ∧
        final.filter.items = min (chronicle perform registered m [] ops).length maxWord ∧
        ∀ key v m', final.remove key = some (v, m') → final.rebuilds < m'.rebuilds →
          m'.filter = filterOf m'.slots.size o.falsePositiveRate m'.hashes := by
  obtain ⟨f, hvalid⟩ := exists_ok hvalid
  obtain ⟨m, hm, -⟩ : ∃ m : ProbeMap κ ν, _ := withComparer_stands hvalid c
  refine ⟨m, hm, fun ops answers final hrun => ?_⟩
  have hfinal := (withComparer_registers hvalid hm).run hrun
  refine ⟨hfinal.filter, hfinal.items, fun key v m' hremove hrebuilt => ?_⟩
  have hperform : final.perform (.remove key) = some (.ok (.value v), m') := by
    rw [perform, hremove]
    rfl
  have hnext := (hfinal.perform hperform).filter
  rwa [registered, sinceRebuild_afresh hrebuilt] at hnext

/-- In two slots, the sixteenth removal of the same key starts the filter over. -/
theorem filter_after_maintenance :
    { ProbeOptions.standard with initialCapacity := 2 }.check.isOk ∧
    ∃ m : ProbeMap UInt64 Nat,
      withComparer { ProbeOptions.standard with initialCapacity := 2 } .natural = .ok m ∧
      ∃ answers final next,
        run? perform m (churn 1 10 15 ++ [.insert 1 10]) = some (answers, final) ∧
        final.remove 1 = some (some 10, next) ∧ final.rebuilds < next.rebuilds ∧
        final.filter = filterOf final.slots.size 0.01
          (chronicle perform registered m [] (churn 1 10 15 ++ [.insert 1 10])) ∧
        next.filter = filterOf next.slots.size 0.01 next.hashes := by
  obtain ⟨hok, m, full, next, answers, hm, hrun, hremove, -, hrebuilt⟩ := sixteenth_removal_rebuilds
  obtain ⟨m', hm', hruns⟩ : ∃ m : ProbeMap UInt64 Nat, _ := reachable_filter hok .natural
  cases hm.symm.trans hm'
  obtain ⟨hfilter, -, hremoval⟩ := hruns _ _ _ hrun
  exact ⟨hok, m, hm, answers, full, next, hrun, hremove, hrebuilt, hfilter,
    hremoval 1 _ next hremove hrebuilt⟩

/-! ## The load of the filter -/

/-- After any run, one hash is registered for every entry, and one for every removal since the
filter was started over. -/
theorem Registers.run_length (h : Registers rate m hashes)
    (hlength : hashes.length = m.live + removed) {ops : List (Op κ ν)}
    {answers : List (Except TableError (Reply ν))}
    (hrun : run? ProbeMap.perform m ops = some (answers, m')) :
    ∃ hashes, Registers rate m' hashes ∧
      hashes.length = m'.live + chronicle ProbeMap.perform removedSince m removed ops :=
  run?_keeps_chronicle
    (P := fun t removed => ∃ hashes, Registers rate t hashes ∧ hashes.length = t.live + removed)
    (fun _ _ _ _ _ ⟨_, ht, hlength⟩ hstep =>
      ⟨_, ht.perform hstep, ht.sound.registered_length hstep hlength⟩)
    ⟨hashes, h, hlength⟩ hrun

/-- The filter of every reachable table is sized for twice its slots, and holds one hash for every
entry and one for every removal since it was started over. So it is loaded beyond its size exactly
when these are more than twice the slots, which takes at least two more removals than slots. -/
theorem reachable_filter_load (hvalid : o.check.isOk) (c : Comparer κ) :
    ∃ m : ProbeMap κ ν, withComparer o c = .ok m ∧
      ∀ ops answers final, run? perform m ops = some (answers, final) →
        2 * final.slots.size ≤ BloomOptions.maxExpectedItems →
        final.filter.options.expectedItems = 2 * final.slots.size ∧
        final.filter.items = min (final.live + chronicle perform removedSince m 0 ops) maxWord ∧
        (final.filter.items ≤ final.filter.options.expectedItems ↔
          final.live + chronicle perform removedSince m 0 ops ≤ 2 * final.slots.size) ∧
        (chronicle perform removedSince m 0 ops ≤ final.slots.size + 1 →
          final.filter.items ≤ final.filter.options.expectedItems) := by
  obtain ⟨f, hvalid⟩ := exists_ok hvalid
  obtain ⟨m, hm, -⟩ : ∃ m : ProbeMap κ ν, _ := withComparer_stands hvalid c
  refine ⟨m, hm, fun ops answers final hrun hsmall => ?_⟩
  have hempty : ([] : List UInt32).length = m.live + 0 := by
    rw [(withComparer_loaded hvalid hm).2.1]
    rfl
  obtain ⟨hashes, hfinal, hlength⟩ := (withComparer_registers hvalid hm).run_length hempty hrun
  have hexpected : final.filter.options.expectedItems = 2 * final.slots.size := by
    rw [hfinal.options]
    exact Nat.min_eq_left hsmall
  have hitems := hfinal.items
  rw [hlength] at hitems
  have hroom := hfinal.sound.suits.room
  have hword : BloomOptions.maxExpectedItems < maxWord := by decide
  rw [hexpected]
  refine ⟨rfl, hitems, ?_, ?_⟩ <;> omega

/-- In four slots, three removals of the same key leave the filter within its size. -/
theorem filter_within_size :
    { ProbeOptions.standard with initialCapacity := 4 }.check.isOk ∧
    ∃ m : ProbeMap UInt64 Nat,
      withComparer { ProbeOptions.standard with initialCapacity := 4 } .natural = .ok m ∧
      ∃ answers final, run? perform m (churn 1 10 3) = some (answers, final) ∧
        2 * final.slots.size ≤ BloomOptions.maxExpectedItems ∧
        chronicle perform removedSince m 0 (churn 1 10 3) = 3 ∧
        final.filter.options.expectedItems = 8 ∧ final.filter.items = 3 ∧
        final.filter.items ≤ final.filter.options.expectedItems := by
  obtain ⟨f, hvalid, htwo, m, hm, hstart⟩ := four_slots_revisited
  have hok : { ProbeOptions.standard with initialCapacity := 4 }.check.isOk := by rw [hvalid]; rfl
  obtain ⟨m', hm', hruns⟩ : ∃ m : ProbeMap UInt64 Nat, _ := reachable_filter_load hok .natural
  cases hm.symm.trans hm'
  obtain ⟨answers, final, hrun, hfinal⟩ :=
    hstart.churn Comparer.natural_lawful htwo (by decide) 10 3
  have hsize := hfinal.size
  have hsmall : 2 * final.slots.size ≤ BloomOptions.maxExpectedItems := by
    rw [hsize]
    decide
  obtain ⟨hexpected, hitems, -, hwithin⟩ := hruns _ _ _ hrun hsmall
  have hempty : final.live = 0 := hfinal.stands.live_eq
  have hcount : final.filter.items = 3 := hfinal.items.trans (Nat.min_eq_left (by decide))
  have hthree : chronicle perform removedSince m 0 (churn 1 10 3) = 3 := by
    have hword : 3 < maxWord := by decide
    omega
  rw [hsize] at hexpected
  exact ⟨hok, m, hm, answers, final, hrun, hsmall, hthree, hexpected, hcount,
    hwithin (by omega)⟩

/-- In four slots, the ninth insertion of a key that was removed eight times loads the filter
beyond its size: the slot that the key left is taken again, so nothing is ever rebuilt. -/
theorem filter_overloaded :
    { ProbeOptions.standard with initialCapacity := 4 }.check.isOk ∧
    ∃ m : ProbeMap UInt64 Nat,
      withComparer { ProbeOptions.standard with initialCapacity := 4 } .natural = .ok m ∧
      ∃ answers final, run? perform m (churn 1 10 8 ++ [.insert 1 10]) = some (answers, final) ∧
        2 * final.slots.size ≤ BloomOptions.maxExpectedItems ∧
        final.filter.options.expectedItems = 8 ∧ final.filter.items = 9 ∧
        ¬ final.filter.items ≤ final.filter.options.expectedItems := by
  obtain ⟨f, hvalid, htwo, m, hm, hstart⟩ := four_slots_revisited
  obtain ⟨_, t, hchurn, ht⟩ := hstart.churn Comparer.natural_lawful htwo (by decide) 10 8
  obtain ⟨final, hinsert, -, -, -, hsize, -, -, -, hitems⟩ :=
    ht.insert Comparer.natural_lawful htwo 10
  replace hitems : final.filter.items = 9 := hitems.trans (Nat.min_eq_left (by decide))
  have hlast : run? perform t [.insert 1 10] = some ([.ok (.value none)], final) := by
    rw [run?, perform, hinsert]
    rfl
  have hrun := run?_append hchurn hlast
  have hexpected : final.filter.options.expectedItems = 8 := by
    rw [((withComparer_registers hvalid hm).run hrun).options, hsize]
    rfl
  refine ⟨by rw [hvalid]; rfl, m, hm, _, final, hrun, ?_, hexpected, hitems, ?_⟩
  · rw [hsize]
    decide
  · rw [hexpected, hitems]
    decide

end BoundedTables.ProbeMap
