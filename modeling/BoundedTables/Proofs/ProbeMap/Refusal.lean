import BoundedTables.Proofs.ProbeMap.Doubling

/-!
# Refused insertions

An insertion is refused when the table cannot grow. It may have rebuilt the table by then, but the
contents are what they were: every key has the value it had, and the entries are the same, if in
another order. A slot that is forced, after none was found near enough, is always there
(`reachable_refusal`).
-/

namespace BoundedTables.ProbeMap

open Hashing Sizing

variable {κ ν : Type} {c : Comparer κ} {m m' : ProbeMap κ ν} {s : List (κ × ν)}

/-- Two maps hold the same entries, if in different orders. -/
structure SameContents (m m' : ProbeMap κ ν) : Prop where
  size : m'.size = m.size
  get : ∀ key, (m'.get key).1 = (m.get key).1
  entries : m'.toList.Perm m.toList

/-- Maps that stand for the same list hold the same entries. -/
theorem Stands.sameContents (h : Stands c m s) (h' : Stands c m' s) (hc : c.Lawful) :
    SameContents m m' where
  size := h'.live_eq.trans h.live_eq.symm
  get key := (get_stands h' hc key).1.trans (get_stands h hc key).1.symm
  entries := by
    rw [toList_eq h.sound.live, toList_eq h'.sound.live]
    exact h'.perm.trans h.perm.symm

/-- Every operation leaves a map that stands for some list, whether or not it is refused. -/
theorem Stands.perform (h : Stands c m s) (hc : c.Lawful) {op : Op κ ν}
    {answer : Except TableError (Reply ν)} (hperform : m.perform op = some (answer, m')) :
    ∃ s', Stands c m' s' := by
  cases answer with
  | ok answer => exact ⟨_, (step_stands h hc (step_eq_some.mpr hperform)).2⟩
  | error error =>
      cases op with
      | insert key value =>
          obtain ⟨m₁, -, -, ⟨hinsert, hnext⟩ | ⟨hinsert, hnext, -⟩⟩ := insert_stands h hc key value
          all_goals
            rw [ProbeMap.perform, hinsert] at hperform
            cases hperform
          exact ⟨s, hnext⟩
      | remove key =>
          obtain ⟨_, -, heq⟩ := Option.map_eq_some_iff.mp hperform
          cases heq
      | get | require | modify | containsKey | clear => cases hperform

/-- Every run leaves a map that stands for some list. -/
theorem Stands.run (h : Stands c m s) (hc : c.Lawful) {ops : List (Op κ ν)}
    {answers : List (Except TableError (Reply ν))}
    (hrun : run? ProbeMap.perform m ops = some (answers, m')) : ∃ s', Stands c m' s' :=
  run?_keeps (P := fun t => ∃ s, Stands c t s)
    (fun _ _ _ _ ⟨_, ht⟩ hstep => ht.perform hc hstep) ⟨s, h⟩ hrun

/-- An insertion that finds no slot near enough can force one. -/
theorem Sound.forceSlot_isOk (h : m.Sound) {hash : UInt32} {t t' : ProbeMap κ ν}
    {slot : Option (Nat × Nat)} (hreserve : m.reserveOne = .ok t)
    (hclaim : t.claimSlot hash = (.ok slot, t')) : (t'.forceSlot hash).1.isOk := by
  obtain ⟨t₁, hreserve', h₁, -⟩ | ⟨hreserve', -⟩ := h.reserveOne <;>
    cases hreserve.symm.trans hreserve'
  obtain ⟨t₂, h₂, -, -, -, ⟨_, hclaim', -⟩ | ⟨hclaim', -⟩⟩ := h₁.claimSlot hash <;>
    cases hclaim.symm.trans hclaim'
  obtain ⟨_, _, _, hforce, -⟩ := h₂.forceSlot hash
  rw [hforce]
  rfl

variable {o : ProbeOptions}

/-- An insertion into a reachable map is only refused when the key is absent and the table cannot
grow, and then the contents stay. No forced placement is ever refused. -/
theorem reachable_refusal (hvalid : o.check.isOk) (hc : c.Lawful) :
    ∃ m : ProbeMap κ ν, withComparer o c = .ok m ∧
      ∀ ops answers final, run? perform m ops = some (answers, final) → ∀ key,
        (∀ value error m', final.insert key value = (.error error, m') →
          error = .capacityExhausted m'.slots.size ∧ maxPowerOfTwo < 2 * m'.slots.size ∧
          (final.containsKey key).1 = false ∧ SameContents final m') ∧
        ∀ t t', (final.lookup key).2.reserveOne = .ok t →
          t.claimSlot (final.hasher.hash key) = (.ok none, t') →
          (t'.forceSlot (final.hasher.hash key)).1.isOk := by
  obtain ⟨f, hvalid⟩ := exists_ok hvalid
  obtain ⟨m, hm, hstart, -⟩ : ∃ m : ProbeMap κ ν, _ := withComparer_stands hvalid c
  refine ⟨m, hm, fun ops answers final hrun key => ⟨fun value error m' hrefused => ?_, ?_⟩⟩
  · obtain ⟨s, hfinal⟩ := hstart.run hc hrun
    obtain ⟨m₁, -, -, ⟨hinsert, -⟩ | ⟨hinsert, hnext, habsent, hfull⟩⟩ :=
      insert_stands hfinal hc key value
    · cases hinsert.symm.trans hrefused
    · cases hinsert.symm.trans hrefused
      refine ⟨rfl, hfull, ?_, hfinal.sameContents hnext hc⟩
      rw [(containsKey_stands hfinal hc key).1, habsent.value?_eq]
      rfl
  · intro t t' hreserve hclaim
    have hsound := (hstart.sound.run hrun).1.same (final.lookup_sameTable key)
    exact hsound.forceSlot_isOk hreserve hclaim

/-- Sixty keys take the four slots to the largest slot count, and the next key is refused. -/
theorem largest_table_refuses :
    (tinyLoad.check.isOk ∧ (Comparer.natural : Comparer UInt64).Lawful) ∧
    ∃ (m final m' : ProbeMap UInt64 Nat) (answers : List (Except TableError (Reply Nat))),
      withComparer tinyLoad .natural = .ok m ∧
      run? perform m ((numbered 60).map fun e => .insert e.1 e.2) = some (answers, final) ∧
      final.insert 60 60 = (.error (.capacityExhausted maxPowerOfTwo), m') ∧
      (final.containsKey 60).1 = false ∧ SameContents final m' := by
  have hlawful : (Comparer.natural : Comparer UInt64).Lawful := Comparer.natural_lawful
  obtain ⟨f, hvalid, htiny, m, full, answers, hm, hrun, hfull, hsize, -, hfactor, -⟩ :=
    tinyLoad_run (n := 60) (by decide)
  have hok : tinyLoad.check.isOk := by
    rw [hvalid]
    rfl
  have hmax : maxPowerOfTwo = 2 ^ 62 := by decide
  have hpos := f.numerator_pos
  have hadmits := admits_none (m := full) (by rw [hfactor, hmax]; omega) (by rw [hsize, hmax])
    full.live
  have hnew : EntryList.Absent (Comparer.natural : Comparer UInt64) 60 (numbered 60) :=
    EntryList.find?_eq_none_iff.mp (by decide +kernel)
  obtain ⟨m', hinsert⟩ := hfull.insert_refused hlawful hnew hadmits (by rw [hsize]; decide) 60
  obtain ⟨m₁, hm₁, hrefusal⟩ : ∃ m : ProbeMap UInt64 Nat, _ := reachable_refusal hok hlawful
  cases hm.symm.trans hm₁
  obtain ⟨herror, -, habsent, hsame⟩ := (hrefusal _ _ _ hrun 60).1 _ _ _ hinsert
  refine ⟨⟨hok, hlawful⟩, m, full, m', answers, hm, hrun, ?_, habsent, hsame⟩
  rw [hinsert, hsize, hmax]

end BoundedTables.ProbeMap
