import BoundedTables.Proofs.Hashing.Policy
import BoundedTables.Proofs.Run
import Mathlib.Algebra.GroupWithZero.Nat
import Mathlib.Data.List.Basic

/-!
# Every lookup is accounted for

A monitored container tells its monitor the length of every lookup, and the monitor reports the
lengths past its threshold. `Watch` is what that leaves behind: the monitor itself and the reports
that went to the callback or to the log. `Heard t callback lengths w` says that `w` is what a
monitor leaves that was told these lengths, in this order, and nothing else.

`Watched` is a container seen from there. Each of its operations leaves one note: nothing was
looked up, or a chain of some length was walked, or a filter answered (`Watched.Noted`). When every
operation does so, a whole run is accounted for: the monitor has heard the lengths in the notes, and
the filter has counted the other lookups (`Watched.Sound.accounts`).
-/

namespace BoundedTables

/-- The collision report in an event. -/
def Event.report? : Event → Option CollisionReport
  | .collision r => some r
  | _ => none

/-- The numbers in a report. -/
def CollisionReport.numbers (r : CollisionReport) : Nat × Nat × Nat :=
  (r.chainLength, r.threshold, r.totalReports.toNat)

namespace Hashing

variable {σ ι ρ κ α : Type}

/-! ## What a monitor leaves behind -/

/-- A monitor, and the reports that went to its callback and to the log, newest first. -/
structure Watch where
  monitor : Option CollisionMonitor
  called : List CollisionReport
  logged : List CollisionReport

/-- What monitoring has left behind in a hasher and a journal. -/
def KeyHasher.watch (h : KeyHasher κ) (j : Journal) : Watch :=
  ⟨h.monitor, j.reports, j.events.filterMap Event.report?⟩

namespace Watch

/-- Hand a report to the callback, or to the log. -/
def report (w : Watch) (callback : Bool) (r : CollisionReport) : Watch :=
  if callback then { w with called := r :: w.called } else { w with logged := r :: w.logged }

/-- Tell the monitor, if there is one, the length of a lookup. -/
def record (w : Watch) (length : Nat) : Watch :=
  match w.monitor with
  | none => w
  | some m =>
      match m.record length with
      | (m', none) => { w with monitor := some m' }
      | (m', some r) => { w with monitor := some m' }.report m.hasCallback r

end Watch

/-- Other events are no reports. -/
theorem KeyHasher.watch_log (h : KeyHasher κ) (j : Journal) {e : Event} (he : e.report? = none) :
    h.watch (j.log e) = h.watch j := by
  rw [watch, watch, Journal.log, List.filterMap_cons_none he]

/-- A recorded lookup is watched with its length. -/
theorem KeyHasher.record_watch (h : KeyHasher κ) (length : Nat) (j : Journal) :
    (h.record length j).1.watch (h.record length j).2 = (h.watch j).record length := by
  cases hmonitor : h.monitor with
  | none => simp only [record, watch, Watch.record, hmonitor]
  | some m =>
      simp only [record, watch, Watch.record, hmonitor]
      rcases m.record length with ⟨m', _ | r⟩
      · rfl
      · dsimp only [Journal.collide, Watch.report]
        split <;> rfl

section Start

variable {p : HashingPolicy} {threshold : Nat}

/-- What monitoring leaves behind before the first lookup. -/
def Watch.start (threshold : Nat) (callback : Bool) : Watch :=
  ⟨some (.new threshold callback), [], []⟩

/-- An ignored request for a keyed hash is no report. -/
theorem KeyHasher.withComparer_watch (h : p.collisionThreshold = some threshold) (c : Comparer κ) :
    (withComparer p c).1.watch (withComparer p c).2 = .start threshold p.hasCallback := by
  unfold withComparer HashingPolicy.monitor
  dsimp only
  rw [h]
  split <;> rfl

/-- A new hasher with a threshold has watched nothing. -/
theorem KeyHasher.ofPolicy_watch [ByteHash] [ByteKey κ] [DecidableEq κ]
    (h : p.collisionThreshold = some threshold) (seed : Seed) :
    (ofPolicy p seed : KeyHasher κ).watch .empty = .start threshold p.hasCallback := by
  rw [watch, ofPolicy, HashingPolicy.monitor, h]
  rfl

end Start

/-- The lengths past a threshold. -/
def past (threshold : Nat) (lengths : List Nat) : List Nat := lengths.filter (threshold < ·)

/-- The reports on some lengths: one for each that is past the threshold, in order, numbered from
one. -/
def reportsOn (threshold : Nat) (lengths : List Nat) : List (Nat × Nat × Nat) :=
  ((past threshold lengths).zipIdx 1).map fun (n, i) => (n, threshold, i)

/-- The counters of a monitor that was told some lengths. -/
structure Tallies (threshold : Nat) (lengths : List Nat) (s : CollisionStats) : Prop where
  lookups : s.lookups.toNat = lengths.length
  probes : s.probes = .ofNat lengths.sum
  longest : s.longestChain = lengths.foldl max 0
  reports : s.reports.toNat = (past threshold lengths).length

/-- What a monitor leaves behind that was told some lengths, and nothing else. -/
structure Heard (threshold : Nat) (callback : Bool) (lengths : List Nat) (w : Watch) : Prop where
  monitor : ∃ s, w.monitor = some ⟨threshold, callback, s⟩ ∧ Tallies threshold lengths s
  called : w.called.reverse.map (·.numbers) =
    if callback then reportsOn threshold lengths else []
  logged : w.logged.reverse.map (·.numbers) =
    if callback then [] else reportsOn threshold lengths

section Heard

variable {threshold n : Nat} {callback : Bool} {lengths : List Nat} {w : Watch}
  {s : CollisionStats} {m : CollisionMonitor} {r : CollisionReport}

/-- A monitor that has seen nothing has heard of no lookups. -/
theorem Heard.new (threshold : Nat) (callback : Bool) :
    Heard threshold callback [] (.start threshold callback) where
  monitor := ⟨_, rfl, rfl, rfl, rfl, rfl⟩
  called := by cases callback <;> rfl
  logged := by cases callback <;> rfl

/-- A short lookup is not past the threshold. -/
theorem past_short (h : n ≤ threshold) :
    past threshold (lengths ++ [n]) = past threshold lengths := by
  have hnone : [n].filter (threshold < ·) = [] := by simpa using h
  rw [past, List.filter_append, hnone, List.append_nil, past]

/-- A long lookup is past the threshold. -/
theorem past_long (h : threshold < n) :
    past threshold (lengths ++ [n]) = past threshold lengths ++ [n] := by
  have hone : [n].filter (threshold < ·) = [n] := by simpa using h
  rw [past, List.filter_append, hone, past]

/-- A short lookup is not reported. -/
theorem reportsOn_short (h : n ≤ threshold) :
    reportsOn threshold (lengths ++ [n]) = reportsOn threshold lengths := by
  rw [reportsOn, past_short h, reportsOn]

/-- A long lookup is reported with its number. -/
theorem reportsOn_long (h : threshold < n) :
    reportsOn threshold (lengths ++ [n]) =
      reportsOn threshold lengths ++ [(n, threshold, (past threshold lengths).length + 1)] := by
  rw [reportsOn, past_long h, List.zipIdx_append, List.map_append, Nat.add_comm 1]
  rfl

/-- Counters that are told one more length. -/
theorem Tallies.record (h : Tallies threshold lengths s) (n : Nat)
    (hfew : lengths.length + 1 < UInt64.size) :
    Tallies threshold (lengths ++ [n])
      { lookups := s.lookups + 1
        probes := s.probes + .ofNat n
        longestChain := max s.longestChain n
        reports := if n ≤ threshold then s.reports else s.reports + 1 } := by
  have hsucc {a : UInt64} (ha : a.toNat ≤ lengths.length) : (a + 1).toNat = a.toNat + 1 := by
    rw [UInt64.toNat_add]
    exact Nat.mod_eq_of_lt (Nat.lt_of_le_of_lt (Nat.succ_le_succ ha) hfew)
  have hreports : s.reports.toNat ≤ lengths.length := by
    rw [h.reports]
    exact List.length_filter_le _ _
  refine ⟨?_, ?_, ?_, ?_⟩
  · rw [hsucc (Nat.le_of_eq h.lookups), h.lookups, List.length_append, List.length_singleton]
  · rw [h.probes, List.sum_append, List.sum_singleton, UInt64.ofNat_add]
  · rw [h.longest, List.foldl_append]
    rfl
  · by_cases hn : n ≤ threshold
    · rw [if_pos hn, past_short hn, h.reports]
    · rw [if_neg hn, past_long (Nat.lt_of_not_le hn), hsucc hreports, h.reports,
        List.length_append, List.length_singleton]

/-- A report goes behind those that the same reader has. -/
theorem Heard.report (h : Heard threshold callback lengths w) (hn : threshold < n)
    (hr : r.numbers = (n, threshold, (past threshold lengths).length + 1)) {monitor : _}
    (hmonitor : ∃ s, monitor = some ⟨threshold, callback, s⟩ ∧
      Tallies threshold (lengths ++ [n]) s) :
    Heard threshold callback (lengths ++ [n]) ({ w with monitor }.report callback r) := by
  have hcalled := h.called
  have hlogged := h.logged
  cases callback with
  | false =>
      refine ⟨hmonitor, hcalled, ?_⟩
      rw [if_neg Bool.false_ne_true] at hlogged ⊢
      show ((r :: w.logged).reverse.map _) = _
      rw [List.reverse_cons, List.map_append, hlogged, reportsOn_long hn, List.map_singleton, hr]
  | true =>
      refine ⟨hmonitor, ?_, hlogged⟩
      rw [if_pos rfl] at hcalled ⊢
      show ((r :: w.called).reverse.map _) = _
      rw [List.reverse_cons, List.map_append, hcalled, reportsOn_long hn, List.map_singleton, hr]

/-- A monitor that is told one more length. -/
theorem Heard.record (h : Heard threshold callback lengths w)
    (hfew : lengths.length + 1 < UInt64.size) (n : Nat) :
    Heard threshold callback (lengths ++ [n]) (w.record n) := by
  obtain ⟨s, hmonitor, htallies⟩ := h.monitor
  have hnext := htallies.record n hfew
  simp only [Watch.record, hmonitor, CollisionMonitor.record]
  by_cases hn : n ≤ threshold
  · rw [if_pos hn] at hnext ⊢
    refine ⟨⟨_, rfl, hnext⟩, ?_, ?_⟩
    · rw [reportsOn_short hn]
      exact h.called
    · rw [reportsOn_short hn]
      exact h.logged
  · have htotal : (s.reports + 1).toNat = (past threshold lengths).length + 1 := by
      have hcount := hnext.reports
      rwa [if_neg hn, past_long (Nat.lt_of_not_le hn), List.length_append] at hcount
    rw [if_neg hn] at hnext ⊢
    refine h.report (Nat.lt_of_not_le hn) ?_ ⟨_, rfl, hnext⟩
    rw [CollisionReport.numbers, htotal]

end Heard

/-! ## What a search visits -/

/-- How many members of a chain a search visits: a hit those up to the first match, a miss all of
them. -/
inductive Visits (Matches : α → Prop) : List α → Nat → Prop
  | hit {before after : List α} {x : α} (found : Matches x) (first : ∀ y ∈ before, ¬Matches y) :
      Visits Matches (before ++ x :: after) (before.length + 1)
  | miss {chain : List α} (absent : ∀ y ∈ chain, ¬Matches y) : Visits Matches chain chain.length

/-- A walk that matches at once visits one member. -/
theorem Visits.here {Matches : α → Prop} {x : α} (h : Matches x) (chain : List α) :
    Visits Matches (x :: chain) 1 :=
  @hit _ Matches [] chain x h (by simp)

/-- A walk visits one member more when the first does not match. -/
theorem Visits.further {Matches : α → Prop} {x : α} {chain : List α} {n : Nat} (h : ¬Matches x)
    (hrest : Visits Matches chain n) : Visits Matches (x :: chain) (n + 1) := by
  cases hrest with
  | hit hfound hfirst =>
      exact @hit _ Matches (x :: _) _ _ hfound (List.forall_mem_cons.mpr ⟨h, hfirst⟩)
  | miss habsent =>
      exact @miss _ Matches (x :: chain) (List.forall_mem_cons.mpr ⟨h, habsent⟩)

/-- Searching a list by a test visits the members up to the first that passes it. -/
theorem visits_findIdx? {Matches : α → Prop} {p : α → Bool} (hp : ∀ x, p x = true ↔ Matches x)
    (chain : List α) :
    Visits Matches chain (match chain.findIdx? p with
      | some i => i + 1
      | none => chain.length) := by
  induction chain with
  | nil => exact .miss (by simp)
  | cons x chain ih =>
      rw [List.findIdx?_cons]
      by_cases hx : p x = true
      · rw [if_pos hx]
        exact .here ((hp x).mp hx) chain
      · have hrest := Visits.further (mt (hp x).mpr hx) ih
        rw [if_neg hx]
        cases hfind : chain.findIdx? p <;> rw [hfind] at hrest <;> exact hrest

/-! ## Containers that are watched -/

/-- What became of the lookup of an operation. -/
inductive Note where
  /-- No key was looked up. -/
  | none
  /-- A chain was walked, and so much of it was visited. -/
  | walked (length : Nat)
  /-- A filter answered. -/
  | filtered
  deriving DecidableEq

/-- The length that a note is about. -/
def Note.length? : Note → Option Nat
  | .walked n => some n
  | .none | .filtered => Option.none

/-- A container with a monitor. Its operations may fail to have a result. -/
structure Watched (σ ι ρ κ : Type) where
  step : σ → ι → Option (ρ × σ)
  /-- The key that an operation takes. -/
  key? : ι → Option κ
  watch : σ → Watch
  /-- How many lookups a filter has answered. -/
  filtered : σ → Nat
  /-- Looking up a key visits so much of the chain that it may stand in. -/
  Walks : σ → κ → Nat → Prop
  /-- A filter answers the lookup of a key. -/
  Filters : σ → κ → Prop

namespace Watched

variable (W : Watched σ ι ρ κ)

/-- What an operation leaves behind. One that takes a key makes a single lookup: the monitor is told
how much it visited, or the filter counts it. One that takes no key makes none. -/
inductive Noted (m : σ) (op : ι) (m' : σ) : Note → Prop
  | none (unkeyed : W.key? op = Option.none) (watch : W.watch m' = W.watch m)
      (filtered : W.filtered m' = W.filtered m) : Noted m op m' .none
  | walked {key : κ} {n : Nat} (keyed : W.key? op = some key) (walks : W.Walks m key n)
      (watch : W.watch m' = (W.watch m).record n) (filtered : W.filtered m' = W.filtered m) :
      Noted m op m' (.walked n)
  | filtered {key : κ} (keyed : W.key? op = some key) (filters : W.Filters m key)
      (watch : W.watch m' = W.watch m) (filtered : W.filtered m' = W.filtered m + 1) :
      Noted m op m' .filtered

/-- A run, with the notes that its operations leave. -/
inductive Follows : σ → List ι → List Note → σ → Prop
  | nil (m : σ) : Follows m [] [] m
  | cons {m m' final : σ} {op : ι} {ops : List ι} {reply : ρ} {note : Note} {notes : List Note}
      (first : W.step m op = some (reply, m')) (noted : W.Noted m op m' note)
      (rest : Follows m' ops notes final) : Follows m (op :: ops) (note :: notes) final

/-- Over every run from a start, each operation leaves one note, the monitor has heard the lengths
in the notes, and the filter has counted the other lookups. -/
def Accounts (threshold : Nat) (callback : Bool) (start : Except TableError σ) : Prop :=
  ∃ m, start = .ok m ∧ ∀ ops answers final, ops.length < UInt64.size →
    run? W.step m ops = some (answers, final) →
    ∃ notes, W.Follows m ops notes final ∧
      Heard threshold callback (notes.filterMap Note.length?) (W.watch final) ∧
      W.filtered final = notes.count .filtered

/-- An invariant under which every operation leaves a note. -/
structure Sound (Inv : σ → Prop) : Prop where
  step : ∀ {m op reply m'}, Inv m → W.step m op = some (reply, m') →
    Inv m' ∧ ∃ note, W.Noted m op m' note

variable {W} {Inv : σ → Prop} {m m' final : σ} {op : ι} {ops : List ι} {note : Note}
  {answers : List ρ} {threshold : Nat} {callback : Bool} {lengths : List Nat}

/-- Operations that always have a result, and that tell the monitor what a lookup of their key does,
each leave a note. -/
theorem sound_of_lookups {perform : σ → ι → ρ × σ} {looked : σ → κ → Watch}
    (hstep : W.step = fun m op => some (perform m op))
    (hkept : ∀ {m} op, Inv m → Inv (perform m op).2)
    (hwatch : ∀ m op, W.watch (perform m op).2 =
      match W.key? op with
      | some key => looked m key
      | none => W.watch m)
    (hlooked : ∀ {m} key, Inv m → ∃ n, W.Walks m key n ∧ looked m key = (W.watch m).record n)
    (hfiltered : ∀ m m', W.filtered m' = W.filtered m) : W.Sound Inv where
  step {m op reply m'} h hperform := by
    rw [hstep] at hperform
    obtain rfl : (perform m op).2 = m' := congrArg Prod.snd (Option.some.inj hperform)
    refine ⟨hkept op h, ?_⟩
    have hheard := hwatch m op
    cases hkey : W.key? op with
    | none =>
        rw [hkey] at hheard
        exact ⟨_, .none hkey hheard (hfiltered _ _)⟩
    | some key =>
        obtain ⟨n, hwalks, hrecord⟩ := hlooked key h
        rw [hkey] at hheard
        exact ⟨_, .walked hkey hwalks (hheard.trans hrecord) (hfiltered _ _)⟩

/-- Every operation with a key leaves a length or counts for the filter, and no other operation does
either. -/
theorem Follows.count {notes : List Note} (h : W.Follows m ops notes final) :
    (notes.filterMap Note.length?).length + notes.count .filtered =
      (ops.filterMap W.key?).length := by
  induction h with
  | nil => rfl
  | @cons _ _ _ op _ _ note notes _ hnoted _ ih =>
      cases hnoted with
      | none hkey =>
          rw [List.filterMap_cons_none hkey, ← ih]
          rfl
      | walked hkey =>
          rw [List.filterMap_cons_some hkey, List.length_cons, ← ih]
          exact Nat.add_right_comm _ 1 _
      | filtered hkey =>
          rw [List.filterMap_cons_some hkey, List.length_cons, ← ih, List.count_cons_self]
          rfl

/-- What the monitor has heard after an operation. -/
theorem Noted.heard (h : W.Noted m op m' note)
    (hheard : Heard threshold callback lengths (W.watch m))
    (hfew : lengths.length + 1 < UInt64.size) :
    Heard threshold callback (lengths ++ [note].filterMap Note.length?) (W.watch m') ∧
      W.filtered m' = W.filtered m + [note].count .filtered := by
  have hnothing : Heard threshold callback (lengths ++ []) (W.watch m) := by
    rwa [List.append_nil]
  cases h with
  | none _ hwatch hfiltered =>
      exact ⟨hwatch ▸ hnothing, hfiltered⟩
  | walked _ _ hwatch hfiltered =>
      rw [hwatch]
      exact ⟨hheard.record hfew _, hfiltered⟩
  | filtered _ _ hwatch hfiltered =>
      exact ⟨hwatch ▸ hnothing, hfiltered⟩

/-- A run goes on being accounted for. -/
theorem Sound.follows (hW : W.Sound Inv) (h : Inv m)
    (hheard : Heard threshold callback lengths (W.watch m))
    (hfew : lengths.length + ops.length < UInt64.size)
    (hrun : run? W.step m ops = some (answers, final)) :
    ∃ notes, W.Follows m ops notes final ∧
      Heard threshold callback (lengths ++ notes.filterMap Note.length?) (W.watch final) ∧
      W.filtered final = W.filtered m + notes.count .filtered := by
  induction ops generalizing m answers lengths with
  | nil =>
      cases hrun
      exact ⟨[], .nil _, by simpa using hheard, rfl⟩
  | cons op ops ih =>
      obtain ⟨reply, m₁, rest, hfirst, hrest, rfl⟩ := run?_cons.mp hrun
      obtain ⟨hnext, note, hnoted⟩ := hW.step h hfirst
      rw [List.length_cons] at hfew
      obtain ⟨hheard₁, hfiltered₁⟩ := hnoted.heard hheard (by omega)
      -- a note adds one length at most
      have hone : ([note].filterMap Note.length?).length ≤ 1 := List.length_filterMap_le ..
      obtain ⟨notes, hfollows, hheard₂, hfiltered₂⟩ :=
        ih hnext hheard₁ (by rw [List.length_append]; omega) hrest
      refine ⟨note :: notes, .cons hfirst hnoted hfollows, ?_, ?_⟩
      · rw [List.append_assoc, ← List.filterMap_append] at hheard₂
        exact hheard₂
      · rw [hfiltered₂, hfiltered₁, Nat.add_assoc, ← List.count_append]
        rfl

/-- A container whose operations leave notes is accounted for from a start on that has heard
nothing. -/
theorem Sound.accounts (hW : W.Sound Inv) {start : Except TableError σ} (hstart : start = .ok m)
    (h : Inv m) (hwatch : W.watch m = .start threshold callback)
    (hfiltered : W.filtered m = 0) : W.Accounts threshold callback start := by
  refine ⟨m, hstart, ?_⟩
  intro ops answers final hfew hrun
  have hheard : Heard threshold callback [] (W.watch m) := hwatch ▸ .new threshold callback
  obtain ⟨notes, hfollows, hheard', hcount⟩ := hW.follows h hheard (by simpa using hfew) hrun
  refine ⟨notes, hfollows, hheard', ?_⟩
  rw [hcount, hfiltered, Nat.zero_add]

end Watched

end Hashing

end BoundedTables
