import BoundedTables.Proofs.ProbeMap.Doubling
import BoundedTables.Proofs.ProbeMap.Registration

/-!
# What the reported displacement is

The bound on displacements that a table reports is raised by every entry that goes further from its
home, and lowered by a rebuild and by clearing only. So it is the longest distance that any entry
had since the table was last rebuilt or cleared (`reachable_displacement`): at least the longest
distance of the entries that are left, and just that as long as none was removed. A removal may take
the entry with the longest distance along, and the bound stays (`displacement_outlives_entries`).
-/

namespace BoundedTables.ProbeMap

open Hashing Sizing

variable {κ ν : Type} {m m' t : ProbeMap κ ν} {c : Comparer κ} {op : Op κ ν}
  {answer : Except TableError (Reply ν)} {key : κ} {i distance removed : Nat}

/-- The longest distance of any entry from its home since the table was last rebuilt or cleared,
after an operation. -/
def displacedSince (m : ProbeMap κ ν) (op : Op κ ν) (_ : Except TableError (Reply ν))
    (m' : ProbeMap κ ν) (record : Nat) : Nat :=
  match op with
  | .clear => m'.longest
  | _ => sinceRebuild m m' m'.longest (max record m'.longest)

/-! ## Each operation -/

/-- What an operation does to the longest distance and to the bound on it. -/
inductive Displaces (m : ProbeMap κ ν) :
    Op κ ν → Except TableError (Reply ν) → ProbeMap κ ν → Prop where
  /-- Both take note of a distance, which is zero unless an entry came in. -/
  | lengthened {op : Op κ ν} {answer : Except TableError (Reply ν)} {m' : ProbeMap κ ν}
      (distance : Nat) (hop : op ≠ .clear) (hkept : m'.rebuilds = m.rebuilds)
      (hbound : m'.maxDisplacement = max m.maxDisplacement distance)
      (hlongest : m'.longest = max m.longest distance) : Displaces m op answer m'
  /-- An entry is gone, and the bound stays. -/
  | shortened {key : κ} {v : ν} {m' : ProbeMap κ ν} (hkept : m'.rebuilds = m.rebuilds)
      (hbound : m'.maxDisplacement = m.maxDisplacement) (hlongest : m'.longest ≤ m.longest) :
      Displaces m (.remove key) (.ok (.value (some v))) m'
  /-- After a rebuild both are the same. -/
  | afresh {op : Op κ ν} {answer : Except TableError (Reply ν)} {m' : ProbeMap κ ν}
      (hop : op ≠ .clear) (hcounted : m.rebuilds < m'.rebuilds)
      (htight : m'.longest = m'.maxDisplacement) : Displaces m op answer m'
  | clear {m' : ProbeMap κ ν} (htight : m'.longest = m'.maxDisplacement) :
      Displaces m .clear (.ok .done) m'

/-- Entries that stay in their slots keep the bound on their distances. -/
theorem Settled.maxDisplacement_eq (h : m.Settled m') : m'.maxDisplacement = m.maxDisplacement := by
  obtain ⟨⟨_, _, _, _, _, rfl⟩, -⟩ := h
  rfl

/-- An operation that neither adds nor drops an entry is no removal. -/
theorem Settled.removals_eq (h : m.Settled m') : m'.removals = m.removals := by
  obtain ⟨⟨_, _, _, _, _, rfl⟩, -⟩ := h
  rfl

/-- An operation that moves no entry. -/
theorem Settled.displaces (h : m.Settled m') (hop : op ≠ .clear) : Displaces m op answer m' :=
  .lengthened 0 hop h.rebuilds_eq (by rw [h.maxDisplacement_eq, Nat.max_zero])
    (by rw [h.longest, Nat.max_zero])

/-- A table that is made ready keeps both, or was rebuilt. -/
theorem Readied.displacement (ht : m.Readied t) :
    (t.rebuilds = m.rebuilds ∧ t.maxDisplacement = m.maxDisplacement ∧ t.longest = m.longest) ∨
      m.rebuilds < t.rebuilds ∧ t.longest = t.maxDisplacement := by
  obtain ⟨journal, rfl⟩ | ⟨_, hr⟩ := ht.kept_or_rebuilt
  · exact .inl ⟨rfl, rfl, rfl⟩
  · exact .inr ⟨hr.counted, hr.tight⟩

/-- The slot that an insertion fills is free. -/
theorem Sound.fills_free (h : m.Sound) {hash : UInt32} (hfills : m.Fills hash t i distance) :
    Free t.slots hash i distance := by
  obtain ⟨hreserve, hclaim⟩ | ⟨hreserve, hclaim, hforce⟩ := hfills
  all_goals
    obtain ⟨m₁, hreserve', h₁, -⟩ | ⟨hreserve', -⟩ := h.reserveOne <;>
      cases hreserve.symm.trans hreserve'
    obtain ⟨m₂, h₂, -, -, -, ⟨slot, hclaim', hfree⟩ | ⟨hclaim', -⟩⟩ := h₁.claimSlot hash <;>
      cases hclaim.symm.trans hclaim'
  · exact hfree i distance rfl
  · obtain ⟨_, _, m₃, hforce', -, -, hslots, hfree⟩ := h₂.forceSlot hash
    cases hforce.symm.trans hforce'
    rw [hslots]
    exact hfree

/-- Every operation does to the longest distance and to the bound on it what its answer tells. -/
theorem Sound.displaces (h : m.Sound) (hperform : m.perform op = some (answer, m')) :
    Displaces m op answer m' := by
  cases h.effect hperform with
  | settle halters hs =>
      refine hs.displaces ?_
      rintro rfl
      simp [alters] at halters
  | refuse hs ht =>
      have hsame := hs.settled
      obtain rfl | ht := ht
      · exact hsame.displaces (by simp)
      · have hrebuilds := hsame.rebuilds_eq
        obtain ⟨hkept, hbound, hlongest⟩ | ⟨hcounted, htight⟩ := ht.displacement
        · refine .lengthened 0 (by simp) (hkept.trans hrebuilds) ?_ ?_
          · rw [hbound, hsame.maxDisplacement_eq, Nat.max_zero]
          · rw [hlongest, hsame.longest, Nat.max_zero]
        · exact .afresh (by simp) (hrebuilds ▸ hcounted) htight
  | @add m₁ t key value i distance hs ht hfills =>
      have h₁ := h.same hs
      have hsame := hs.settled
      have hrebuilds := hsame.rebuilds_eq
      have hlonger : (t.occupy i distance ⟨key, value, m.hasher.hash key⟩).longest =
          max t.longest distance :=
        longest_place (h₁.fills hfills).suits.pow (h₁.fills_free hfills)
      have hraised : (t.occupy i distance ⟨key, value, m.hasher.hash key⟩).maxDisplacement =
          max t.maxDisplacement distance := rfl
      obtain ⟨hkept, hbound, hlongest⟩ | ⟨hcounted, htight⟩ := ht.displacement
      · refine .lengthened distance (by simp) (hkept.trans hrebuilds) ?_ ?_
        · rw [hraised, hbound, hsame.maxDisplacement_eq]
        · rw [hlonger, hlongest, hsame.longest]
      · refine .afresh (by simp) (hrebuilds ▸ hcounted) ?_
        rw [hlonger, hraised, htight]
  | @remove m₁ _ i _ hs _ _ =>
      have hsame := hs.settled
      exact .shortened hsame.rebuilds_eq hsame.maxDisplacement_eq
        (hsame.longest ▸ longest_vacate_le m₁ i)
  | maintain hs _ _ _ hr =>
      have hrebuilds := hs.settled.rebuilds_eq
      exact .afresh (by simp) (hrebuilds ▸ hr.counted) hr.tight
  | clear => exact .clear m.longest_clear

/-- The bound goes on with the longest distance since the last rebuild. -/
theorem Displaces.bound_eq (h : Displaces m op answer m') (hle : m.longest ≤ m.maxDisplacement) :
    m'.maxDisplacement = displacedSince m op answer m' m.maxDisplacement := by
  have hdefault (hop : op ≠ .clear) : displacedSince m op answer m' m.maxDisplacement =
      sinceRebuild m m' m'.longest (max m.maxDisplacement m'.longest) := by
    cases op <;> first | rfl | exact absurd rfl hop
  cases h with
  | lengthened distance hop hkept hbound hlongest =>
      rw [hdefault hop, sinceRebuild_kept hkept, hbound, hlongest, ← Nat.max_assoc,
        Nat.max_eq_left hle]
  | shortened hkept hbound hlongest =>
      rw [hdefault nofun, sinceRebuild_kept hkept, hbound, Nat.max_eq_left (hlongest.trans hle)]
  | afresh hop hcounted htight => rw [hdefault hop, sinceRebuild_afresh hcounted, htight]
  | clear htight => exact htight.symm

/-- The bound is the longest distance as long as no entry was removed. -/
theorem Displaces.tight (h : Displaces m op answer m')
    (htight : removed = 0 → m.longest = m.maxDisplacement)
    (hnone : removedSince m op answer m' removed = 0) : m'.longest = m'.maxDisplacement := by
  cases h with
  | lengthened distance hop hkept hbound hlongest =>
      have hzero : removed = 0 := by
        unfold removedSince at hnone
        split at hnone
        · exact absurd rfl hop
        · rw [sinceRebuild_kept hkept] at hnone
          exact absurd hnone (Nat.succ_ne_zero removed)
        · rwa [sinceRebuild_kept hkept] at hnone
      rw [hlongest, hbound, htight hzero]
  | shortened hkept =>
      rw [removedSince, sinceRebuild_kept hkept] at hnone
      exact absurd hnone (Nat.succ_ne_zero removed)
  | afresh hop hcounted htight' => exact htight'
  | clear htight' => exact htight'

/-! ## Reachable tables -/

variable {o : ProbeOptions} {f : LoadFactor}

/-- In a new map the bound on the distances is zero. -/
theorem withComparer_displacement (hvalid : o.check = .ok f) (hm : withComparer o c = .ok m) :
    m.maxDisplacement = 0 := by
  cases (withComparer_eq hvalid c).symm.trans hm
  rfl

/-- After any run, the bound is the longest distance since the last rebuild. -/
theorem Sound.run_displacement (h : m.Sound) {ops : List (Op κ ν)}
    {answers : List (Except TableError (Reply ν))}
    (hrun : run? ProbeMap.perform m ops = some (answers, m')) : m'.maxDisplacement =
      chronicle ProbeMap.perform displacedSince m m.maxDisplacement ops := by
  refine (run?_keeps_chronicle (P := fun t record => t.Sound ∧ t.maxDisplacement = record) ?_
    ⟨h, rfl⟩ hrun).2
  rintro t _ op answer next ⟨ht, rfl⟩ hstep
  exact ⟨(ht.perform hstep).sound, (ht.displaces hstep).bound_eq ht.longest_le⟩

/-- After any run without a removal since the last rebuild, the bound is the longest distance. -/
theorem Sound.run_tight (h : m.Sound) (htight : removed = 0 → m.longest = m.maxDisplacement)
    {ops : List (Op κ ν)} {answers : List (Except TableError (Reply ν))}
    (hrun : run? ProbeMap.perform m ops = some (answers, m'))
    (hnone : chronicle ProbeMap.perform removedSince m removed ops = 0) :
    m'.longest = m'.maxDisplacement := by
  refine (run?_keeps_chronicle
    (P := fun t removed => t.Sound ∧ (removed = 0 → t.longest = t.maxDisplacement)) ?_
    ⟨h, htight⟩ hrun).2 hnone
  rintro t removed op answer next ⟨ht, htight⟩ hstep
  exact ⟨(ht.perform hstep).sound, (ht.displaces hstep).tight htight⟩

/-! ## Bounds that no entry reaches -/

variable {s : List (κ × ν)} {e e' : κ × ν} {v : Option ν}

/-- Of two keys with the same code, one has its entry away from its home. -/
theorem Stands.longest_pos (h : Stands c m s) (he : e ∈ s) (he' : e' ∈ s) (hne : e.1 ≠ e'.1)
    (hcode : c.code e.1 = c.code e'.1) : 0 < m.longest := by
  obtain ⟨a, ha, rfl⟩ := List.mem_map.mp (h.perm.mem_iff.mpr he)
  obtain ⟨a', ha', rfl⟩ := List.mem_map.mp (h.perm.mem_iff.mpr he')
  obtain ⟨i, hi⟩ := mem_entriesOf.mp ha
  obtain ⟨j, hj⟩ := mem_entriesOf.mp ha'
  refine ProbeMap.longest_pos hi hj ?_ ?_
  · rintro rfl
    cases hi.symm.trans hj
    exact hne rfl
  · rw [h.hashed a ha, h.hashed a' ha']
    exact hcode

/-- A removal without maintenance leaves the bound alone. -/
theorem Sound.remove_displacement (h : m.Sound) (hremove : m.remove key = some (v, m'))
    (hdue : ¬ (m.removals + 1) % maintenanceInterval = 0) :
    m'.maxDisplacement = m.maxDisplacement ∧ m'.removals ≤ m.removals + 1 := by
  cases h.effect_remove hremove with
  | settle _ hs => exact ⟨hs.maxDisplacement_eq, Nat.le_succ_of_le (Nat.le_of_eq hs.removals_eq)⟩
  | remove hs =>
      exact ⟨hs.settled.maxDisplacement_eq, Nat.le_of_eq (congrArg (· + 1) hs.removals_eq)⟩
  | maintain _ _ hdue' => exact absurd hdue' hdue

/-- Removals that are too few for maintenance leave the bound alone. -/
theorem Sound.run_removes_displacement (h : m.Sound) (keys : List κ)
    {answers : List (Except TableError (Reply ν))}
    (hrun : run? ProbeMap.perform m (keys.map .remove) = some (answers, m'))
    (hremovals : m.removals + keys.length < maintenanceInterval) :
    m'.maxDisplacement = m.maxDisplacement := by
  induction keys generalizing m answers with
  | nil =>
      cases hrun
      rfl
  | cons key keys ih =>
      rw [List.length_cons] at hremovals
      obtain ⟨_, next, _, hstep, hrest, -⟩ := run?_cons.mp hrun
      obtain ⟨⟨v, m₁⟩, hremove, heq⟩ := Option.map_eq_some_iff.mp hstep
      cases heq
      obtain ⟨hbound, hcount⟩ := h.remove_displacement hremove (by
        rw [Nat.mod_eq_of_lt (by omega)]
        omega)
      exact (ih (h.perform hstep).sound hrest (by show m₁.removals + _ < _; omega)).trans hbound

/-- A run of insertions removes nothing. -/
theorem removedSince_of_inserts (m : ProbeMap κ ν) (added : List (κ × ν)) :
    chronicle perform removedSince m 0 (added.map fun e => .insert e.1 e.2) = 0 := by
  induction added generalizing m with
  | nil => rfl
  | cons e added ih =>
      have hnone : removedSince m (.insert e.1 e.2) ((m.insert e.1 e.2).1.map .value)
          (m.insert e.1 e.2).2 0 = 0 := ite_self 0
      exact (congrArg (fun removed => chronicle perform removedSince (m.insert e.1 e.2).2 removed
        (added.map fun e => .insert e.1 e.2)) hnone).trans (ih _)

/-- Every key has the same code. -/
def sameCode : Comparer UInt64 := { (Comparer.natural : Comparer UInt64) with hash := fun _ => 0 }

/-- A comparer that gives every key the same code is lawful. -/
theorem sameCode_lawful : sameCode.Lawful := Comparer.lawful_of_decide fun _ _ => rfl

/-- Two entries whose keys have the same code. -/
def colliding : List (UInt64 × Nat) := [(2, 20), (1, 10)]

/-- One of two entries with the same code is away from its home. -/
theorem colliding_run (hvalid : ProbeOptions.standard.check = .ok f) :
    ∃ (m full : ProbeMap UInt64 Nat) (answers : List (Except TableError (Reply Nat))),
      withComparer .standard sameCode = .ok m ∧
      run? perform m [.insert 1 10, .insert 2 20] = some (answers, full) ∧
      Stands sameCode full colliding ∧ full.removals = 0 ∧ 0 < full.longest := by
  obtain ⟨m, hm, hempty, hremovals, -⟩ : ∃ m : ProbeMap UInt64 Nat, _ :=
    withComparer_stands hvalid sameCode
  have hsize : m.slots.size = 16 := withComparer_size hvalid hm
  have hmax : maxPowerOfTwo = 2 ^ 62 := by decide
  obtain ⟨m₁, hremovals₁, hsize₁, ⟨hfirst, h₁⟩ | ⟨-, -, -, hfull⟩⟩ :=
    insert_stands hempty sameCode_lawful 1 10
  · obtain ⟨m₂, hremovals₂, hsize₂, ⟨hsecond, h₂⟩ | ⟨-, -, -, hfull⟩⟩ :=
      insert_stands h₁ sameCode_lawful 2 20
    · have hboth : Stands sameCode m₂ colliding := h₂
      refine ⟨m, m₂, [.ok (.value none), .ok (.value none)], hm, ?_, hboth, ?_, ?_⟩
      · refine run?_cons.mpr ⟨_, m₁, _, ?_, run?_cons.mpr ⟨_, m₂, [], ?_, rfl, rfl⟩, rfl⟩
        · rw [perform, hfirst]
          rfl
        · rw [perform, hsecond]
          rfl
      · rw [hremovals₂, hremovals₁, hremovals]
      · have htwo : ((2, 20) : UInt64 × Nat) ∈ colliding := .head _
        have hone : ((1, 10) : UInt64 × Nat) ∈ colliding := .tail _ (.head _)
        exact hboth.longest_pos htwo hone (by decide) rfl
    · omega
  · omega

/-! ## The reported displacement -/

/-- In every reachable table, the reported displacement is the longest distance that any entry had
from its home since the table was last rebuilt or cleared. It covers the entries that are left, and
is the longest of their distances as long as no entry was removed since then. -/
theorem reachable_displacement (hvalid : o.check.isOk) (c : Comparer κ) :
    ∃ m : ProbeMap κ ν, withComparer o c = .ok m ∧
      ∀ ops answers final, run? perform m ops = some (answers, final) →
        final.stats.maxDisplacement = chronicle perform displacedSince m 0 ops ∧
        final.longest ≤ final.stats.maxDisplacement ∧
        (chronicle perform removedSince m 0 ops = 0 →
          final.stats.maxDisplacement = final.longest) := by
  obtain ⟨f, hvalid⟩ := exists_ok hvalid
  obtain ⟨m, hm, hstands, -⟩ : ∃ m : ProbeMap κ ν, _ := withComparer_stands hvalid c
  have hzero := withComparer_displacement hvalid hm
  have hstart : m.longest = m.maxDisplacement := by
    rw [hzero, hstands.sound.longest_of_empty hstands.live_eq]
  refine ⟨m, hm, ?_⟩
  intro ops answers final hrun
  have hbound := hstands.sound.run_displacement hrun
  rw [hzero] at hbound
  refine ⟨hbound, (hstands.sound.run hrun).1.longest_le, ?_⟩
  intro hnone
  exact (hstands.sound.run_tight (fun _ => hstart) hrun hnone).symm

/-- Two keys with the same code: the second one goes a slot further, and the bound says so. -/
theorem displacement_of_equal_hashes : ProbeOptions.standard.check.isOk ∧
    ∃ (m final : ProbeMap UInt64 Nat) (answers : List (Except TableError (Reply Nat))),
      withComparer .standard sameCode = .ok m ∧
      run? perform m [.insert 1 10, .insert 2 20] = some (answers, final) ∧
      0 < final.stats.maxDisplacement ∧ final.stats.maxDisplacement = final.longest := by
  have hvalid : ProbeOptions.standard.check.isOk := by decide +kernel
  obtain ⟨f, hf⟩ := exists_ok hvalid
  obtain ⟨m, final, answers, hm, hrun, -, -, hfar⟩ := colliding_run hf
  obtain ⟨m', hm', hreached⟩ : ∃ m : ProbeMap UInt64 Nat, _ :=
    reachable_displacement hvalid sameCode
  cases hm.symm.trans hm'
  obtain ⟨-, hcovers, hexact⟩ := hreached _ answers final hrun
  exact ⟨hvalid, m, final, answers, hm, hrun, hfar.trans_le hcovers,
    hexact (removedSince_of_inserts m [(1, 10), (2, 20)])⟩

/-- Removing the two keys again leaves a table without entries, whose longest distance is zero and
whose bound is not. -/
theorem displacement_outlives_entries :
    ∃ (m final : ProbeMap UInt64 Nat) (answers : List (Except TableError (Reply Nat))),
      withComparer .standard sameCode = .ok m ∧
      run? perform m [.insert 1 10, .insert 2 20, .remove 2, .remove 1] = some (answers, final) ∧
      final.longest = 0 ∧ 0 < final.stats.maxDisplacement := by
  obtain ⟨f, hf⟩ := exists_ok (x := ProbeOptions.standard.check) (by decide +kernel)
  obtain ⟨m, full, answers, hm, hrun, hfull, hremovals, hfar⟩ := colliding_run hf
  have hfew : full.removals + colliding.length < maintenanceInterval := by
    rw [hremovals]
    decide
  obtain ⟨answers', final, hrun', hempty, -⟩ :=
    Stands.run_removes (s := []) sameCode_lawful colliding hfull hfew
  have hbound : final.maxDisplacement = full.maxDisplacement :=
    hfull.sound.run_removes_displacement [2, 1] hrun' hfew
  refine ⟨m, final, answers ++ answers', hm, run?_append hrun hrun',
    hempty.sound.longest_of_empty hempty.live_eq, ?_⟩
  have hcovers : full.longest ≤ full.maxDisplacement := hfull.sound.longest_le
  rw [← hbound] at hcovers
  exact hfar.trans_le hcovers

end BoundedTables.ProbeMap
