import BoundedTables.Table.LinkedOrder
import Mathlib.Data.List.Perm.Subperm

/-!
# Linked orders as lists of slots

`Strung order slots` says that the links of an order string up a list of slots without repeats:
the slot behind every member is the one after it in the list, the slot in front is the one
before it, and the ends are those of the list. Every operation of an order is then one operation
on the list, and `toList_eq` reads the list back.
-/

namespace BoundedTables.Table.LinkedOrder

variable {o o' : LinkedOrder} {slots front back mid : List Nat} {i j : Nat}

/-- The links of an order string up a list of slots. -/
structure Strung (o : LinkedOrder) (slots : List Nat) : Prop where
  nodup : slots.Nodup
  head : o.head = slots.head?
  tail : o.tail = slots.getLast?
  links : ∀ front i back, slots = front ++ i :: back →
    o.after i = back.head? ∧ o.before i = front.getLast?
  /-- The links cover every member. -/
  bound : ∀ i ∈ slots, i < o.following.size

/-! ## Reading links back -/

/-- Putting a value at an index changes what is read there and nowhere else. -/
theorem put_read (links : Array (Option Nat)) (i j : Nat) (target : Option Nat) :
    ((put links i target)[j]?).join = if j = i then target else (links[j]?).join := by
  unfold put
  by_cases hi : i < links.size
  · by_cases hj : j = i
    · subst hj
      simp [hi]
    · simp [hi, hj, Array.getElem?_setIfInBounds_ne (Ne.symm hj)]
  · simp only [hi, ↓reduceIte, Array.push_append, Array.getElem?_append]
    by_cases hj : j < links.size
    · have hne : j ≠ i := by omega
      simp [hj, hne]
    · rw [Array.getElem?_eq_none (Nat.le_of_not_lt hj)]
      simp only [hj, ↓reduceIte, Array.getElem?_push, Array.size_replicate,
        Array.getElem?_replicate]
      by_cases hji : j = i
      · subst hji
        simp
      · have hne : j - links.size ≠ i - links.size := by omega
        simp only [hne, hji, ↓reduceIte]
        split <;> rfl

/-- Writing a link extends the links up to its slot. -/
theorem put_size (links : Array (Option Nat)) (i : Nat) (target : Option Nat) :
    (put links i target).size = max links.size (i + 1) := by
  unfold put
  split <;> simp <;> omega

@[simp] theorem setAfter_after (o : LinkedOrder) (i j : Nat) (target : Option Nat) :
    (o.setAfter i target).after j = if j = i then target else o.after j :=
  put_read o.following i j target

@[simp] theorem setAfter_before (o : LinkedOrder) (i j : Nat) (target : Option Nat) :
    (o.setAfter i target).before j = o.before j := rfl

@[simp] theorem setBefore_before (o : LinkedOrder) (i j : Nat) (target : Option Nat) :
    (o.setBefore i target).before j = if j = i then target else o.before j :=
  put_read o.previous i j target

@[simp] theorem setBefore_after (o : LinkedOrder) (i j : Nat) (target : Option Nat) :
    (o.setBefore i target).after j = o.after j := rfl

@[simp] theorem setAfter_head (o : LinkedOrder) (i : Nat) (target : Option Nat) :
    (o.setAfter i target).head = o.head := rfl

@[simp] theorem setAfter_tail (o : LinkedOrder) (i : Nat) (target : Option Nat) :
    (o.setAfter i target).tail = o.tail := rfl

@[simp] theorem setBefore_head (o : LinkedOrder) (i : Nat) (target : Option Nat) :
    (o.setBefore i target).head = o.head := rfl

@[simp] theorem setBefore_tail (o : LinkedOrder) (i : Nat) (target : Option Nat) :
    (o.setBefore i target).tail = o.tail := rfl

@[simp] theorem setAfterOrHead_after (o : LinkedOrder) (i? target : Option Nat) (j : Nat) :
    (o.setAfterOrHead i? target).after j = if i? = some j then target else o.after j := by
  cases i? with
  | none => rfl
  | some i => simp [setAfterOrHead, eq_comm]

@[simp] theorem setAfterOrHead_before (o : LinkedOrder) (i? target : Option Nat) (j : Nat) :
    (o.setAfterOrHead i? target).before j = o.before j := by
  cases i? <;> rfl

@[simp] theorem setAfterOrHead_head (o : LinkedOrder) (i? target : Option Nat) :
    (o.setAfterOrHead i? target).head = if i? = none then target else o.head := by
  cases i? <;> rfl

@[simp] theorem setAfterOrHead_tail (o : LinkedOrder) (i? target : Option Nat) :
    (o.setAfterOrHead i? target).tail = o.tail := by
  cases i? <;> rfl

@[simp] theorem setBeforeOrTail_before (o : LinkedOrder) (i? target : Option Nat) (j : Nat) :
    (o.setBeforeOrTail i? target).before j = if i? = some j then target else o.before j := by
  cases i? with
  | none => rfl
  | some i => simp [setBeforeOrTail, eq_comm]

@[simp] theorem setBeforeOrTail_after (o : LinkedOrder) (i? target : Option Nat) (j : Nat) :
    (o.setBeforeOrTail i? target).after j = o.after j := by
  cases i? <;> rfl

@[simp] theorem setBeforeOrTail_head (o : LinkedOrder) (i? target : Option Nat) :
    (o.setBeforeOrTail i? target).head = o.head := by
  cases i? <;> rfl

@[simp] theorem setBeforeOrTail_tail (o : LinkedOrder) (i? target : Option Nat) :
    (o.setBeforeOrTail i? target).tail = if i? = none then target else o.tail := by
  cases i? <;> rfl

/-! ## The links only grow -/

@[simp] theorem setAfter_size (o : LinkedOrder) (i : Nat) (target : Option Nat) :
    (o.setAfter i target).following.size = max o.following.size (i + 1) :=
  put_size o.following i target

@[simp] theorem setBefore_size (o : LinkedOrder) (i : Nat) (target : Option Nat) :
    (o.setBefore i target).following.size = o.following.size := rfl

@[simp] theorem setBeforeOrTail_size (o : LinkedOrder) (i? target : Option Nat) :
    (o.setBeforeOrTail i? target).following.size = o.following.size := by
  cases i? <;> rfl

/-- Setting the link behind a slot, or the head, drops no link. -/
theorem setAfterOrHead_size (o : LinkedOrder) (i? target : Option Nat) :
    o.following.size ≤ (o.setAfterOrHead i? target).following.size := by
  cases i? with
  | none => exact Nat.le_refl _
  | some i =>
      rw [setAfterOrHead, setAfter_size]
      exact Nat.le_max_left ..

/-! ## Splicing -/

/-- The last slot of one part of a list without repeats is not a member of the rest. -/
theorem getLast?_ne (h : (front ++ back).Nodup) (hj : j ∈ back) : front.getLast? ≠ some j :=
  fun hlast => (List.nodup_append.mp h).2.2 j (List.mem_of_getLast? hlast) j hj rfl

/-- The first slot of one part of a list without repeats is not a member of the rest. -/
theorem head?_ne (h : (front ++ back).Nodup) (hj : j ∈ front) : back.head? ≠ some j :=
  fun hhead => (List.nodup_append.mp h).2.2 j hj j (List.mem_of_mem_head? hhead) rfl

/-- A member of a list without repeats is the first one exactly when nothing stands in front. -/
theorem head?_eq_iff (h : (mid ++ j :: back).Nodup) :
    (mid ++ j :: back).head? = some j ↔ mid = [] := by
  cases mid with
  | nil => simp
  | cons k mid =>
      have hne : k ≠ j := (List.nodup_append.mp h).2.2 k (by simp) j (by simp)
      simp [hne]

/-- A member of a list without repeats is the last one exactly when nothing stands behind. -/
theorem getLast?_eq_iff (h : (front ++ j :: mid).Nodup) :
    (front ++ j :: mid).getLast? = some j ↔ mid = [] := by
  rcases List.eq_nil_or_concat mid with rfl | ⟨mid, k, rfl⟩
  · simp
  · have hne : j ≠ k := by
      have h' := (List.nodup_append.mp h).2.1
      rw [List.nodup_cons] at h'
      rintro rfl
      simp at h'
    simp [List.getLast?_append, List.getLast?_cons, hne.symm]

/-- A slot that is no member can be put anywhere into a list without repeats. -/
theorem nodup_splice (hi : i ∉ front ++ back) (h : (front ++ back).Nodup) :
    (front ++ i :: back).Nodup :=
  List.perm_middle.nodup_iff.mpr (List.nodup_cons.mpr ⟨hi, h⟩)

/-- The links around the slots of a list with one slot spliced in. -/
theorem Strung.insert_links
    (h : o.Strung (front ++ back)) (hi : i ∉ front ++ back)
    (hafter : ∀ j, o'.after j =
      if j = i then back.head? else if front.getLast? = some j then some i else o.after j)
    (hbefore : ∀ j, o'.before j =
      if j = i then front.getLast? else if back.head? = some j then some i else o.before j)
    {left right : List Nat} (hsplit : front ++ i :: back = left ++ j :: right) :
    o'.after j = right.head? ∧ o'.before j = left.getLast? := by
  rw [hafter, hbefore]
  -- the slot read is the new one, or stands on one side of it
  rcases List.append_eq_append_iff.mp hsplit with ⟨mid, rfl, hback⟩ | ⟨mid, rfl, hright⟩
  · cases mid with
    | nil =>
        obtain ⟨rfl, rfl⟩ : i = j ∧ back = right := by simpa using hback
        simp
    | cons k mid =>
        obtain ⟨rfl, rfl⟩ : i = k ∧ back = mid ++ j :: right := by simpa using hback
        obtain ⟨hnext, hprev⟩ := h.links (front ++ mid) j right (by simp)
        have hne : j ≠ i := by rintro rfl; simp at hi
        have hlast : front.getLast? ≠ some j := getLast?_ne h.nodup (by simp)
        rw [hnext, hprev, if_neg hne, if_neg hlast, if_neg hne]
        simp only [head?_eq_iff (List.nodup_append.mp h.nodup).2.1]
        rcases List.eq_nil_or_concat mid with rfl | ⟨mid, last, rfl⟩ <;>
          simp [List.getLast?_append, List.getLast?_cons]
  · cases mid with
    | nil =>
        obtain ⟨rfl, rfl⟩ : i = j ∧ back = right := by simpa [eq_comm] using hright
        simp
    | cons k mid =>
        obtain ⟨rfl, rfl⟩ : j = k ∧ right = mid ++ i :: back := by simpa using hright
        obtain ⟨hnext, hprev⟩ := h.links left j (mid ++ back) (by simp)
        have hne : j ≠ i := by rintro rfl; simp at hi
        have hfirst : back.head? ≠ some j := head?_ne h.nodup (by simp)
        rw [hnext, hprev, if_neg hne, if_neg hne, if_neg hfirst]
        simp only [getLast?_eq_iff (List.nodup_append.mp h.nodup).1]
        cases mid <;> simp

/-- A slot spliced into a list of slots. -/
theorem Strung.insert
    (h : o.Strung (front ++ back)) (hi : i ∉ front ++ back)
    (hhead : o'.head = if front = [] then some i else o.head)
    (htail : o'.tail = if back = [] then some i else o.tail)
    (hafter : ∀ j, o'.after j =
      if j = i then back.head? else if front.getLast? = some j then some i else o.after j)
    (hbefore : ∀ j, o'.before j =
      if j = i then front.getLast? else if back.head? = some j then some i else o.before j)
    (hsize : max o.following.size (i + 1) ≤ o'.following.size) :
    o'.Strung (front ++ i :: back) := by
  refine ⟨nodup_splice hi h.nodup, ?_, ?_, fun left j right hsplit =>
    h.insert_links hi hafter hbefore hsplit, fun j hj => ?_⟩
  · rw [hhead, h.head]
    cases front <;> simp
  · rw [htail, h.tail]
    rcases List.eq_nil_or_concat back with rfl | ⟨back, last, rfl⟩ <;>
      simp [List.getLast?_append, List.getLast?_cons]
  · rcases List.mem_cons.mp (List.perm_middle.mem_iff.mp hj) with rfl | hj
    · omega
    · have := h.bound j hj
      omega

/-- The links around the slots of a list with one slot taken out. -/
theorem Strung.erase_links
    (h : o.Strung (front ++ i :: back))
    (hafter : ∀ j, j ≠ i → o'.after j =
      if front.getLast? = some j then back.head? else o.after j)
    (hbefore : ∀ j, j ≠ i → o'.before j =
      if back.head? = some j then front.getLast? else o.before j)
    {left right : List Nat} (hsplit : front ++ back = left ++ j :: right) :
    o'.after j = right.head? ∧ o'.before j = left.getLast? := by
  have hnodup := List.nodup_cons.mp (List.perm_middle.nodup_iff.mp h.nodup)
  have hne : j ≠ i := by
    rintro rfl
    exact hnodup.1 (hsplit ▸ by simp)
  rw [hafter j hne, hbefore j hne]
  -- the slot read stood behind the one taken out, or in front of it
  rcases List.append_eq_append_iff.mp hsplit with ⟨mid, rfl, rfl⟩ | ⟨mid, rfl, hright⟩
  · obtain ⟨hnext, hprev⟩ := h.links (front ++ i :: mid) j right (by simp)
    rw [hnext, hprev, if_neg (getLast?_ne hnodup.2 (by simp))]
    simp only [head?_eq_iff (List.nodup_append.mp hnodup.2).2.1]
    rcases List.eq_nil_or_concat mid with rfl | ⟨mid, last, rfl⟩ <;>
      simp [List.getLast?_append, List.getLast?_cons]
  · cases mid with
    | nil =>
        obtain rfl : j :: right = back := by simpa using hright
        obtain ⟨hnext, hprev⟩ := h.links (left ++ [i]) j right (by simp)
        have hfirst : (left ++ []).getLast? ≠ some j := getLast?_ne hnodup.2 (by simp)
        rw [hnext, hprev, if_neg hfirst]
        simp
    | cons k mid =>
        obtain ⟨rfl, rfl⟩ : j = k ∧ right = mid ++ back := by simpa using hright
        obtain ⟨hnext, hprev⟩ := h.links left j (mid ++ i :: back) (by simp)
        rw [hnext, hprev, if_neg (head?_ne hnodup.2 (by simp))]
        simp only [getLast?_eq_iff (List.nodup_append.mp hnodup.2).1]
        cases mid <;> simp

/-- A slot taken out of a list of slots. -/
theorem Strung.erase
    (h : o.Strung (front ++ i :: back))
    (hhead : o'.head = if front = [] then back.head? else o.head)
    (htail : o'.tail = if back = [] then front.getLast? else o.tail)
    (hafter : ∀ j, j ≠ i → o'.after j =
      if front.getLast? = some j then back.head? else o.after j)
    (hbefore : ∀ j, j ≠ i → o'.before j =
      if back.head? = some j then front.getLast? else o.before j)
    (hsize : o.following.size ≤ o'.following.size) :
    o'.Strung (front ++ back) := by
  have hnodup := List.nodup_cons.mp (List.perm_middle.nodup_iff.mp h.nodup)
  refine ⟨hnodup.2, ?_, ?_, fun left j right hsplit => h.erase_links hafter hbefore hsplit,
    fun j hj => ?_⟩
  · rw [hhead, h.head]
    cases front <;> simp
  · rw [htail, h.tail]
    rcases List.eq_nil_or_concat back with rfl | ⟨back, last, rfl⟩ <;>
      simp [List.getLast?_append, List.getLast?_cons]
  · have := h.bound j (List.perm_middle.mem_iff.mpr (List.mem_cons_of_mem i hj))
    omega

/-! ## The operations on a strung list -/

/-- An empty order strings up no slots. -/
theorem empty_strung : LinkedOrder.empty.Strung [] where
  nodup := List.nodup_nil
  head := rfl
  tail := rfl
  links := by simp
  bound := by simp

/-- The slot behind another one after adding a slot at the back. -/
theorem pushBack_after (o : LinkedOrder) (i j : Nat) :
    (o.pushBack i).after j =
      if o.tail = some j then some i else if j = i then none else o.after j := by
  show (((o.setBefore i o.tail).setAfter i none).setAfterOrHead o.tail (some i)).after j = _
  simp

/-- The slot in front of another one after adding a slot at the back. -/
theorem pushBack_before (o : LinkedOrder) (i j : Nat) :
    (o.pushBack i).before j = if j = i then o.tail else o.before j := by
  show (((o.setBefore i o.tail).setAfter i none).setAfterOrHead o.tail (some i)).before j = _
  simp

/-- A slot added at the back becomes the head of an order that has no tail. -/
theorem pushBack_head (o : LinkedOrder) (i : Nat) :
    (o.pushBack i).head = if o.tail = none then some i else o.head := by
  show (((o.setBefore i o.tail).setAfter i none).setAfterOrHead o.tail (some i)).head = _
  simp

/-- The slot behind another one after adding a slot at the front. -/
theorem pushFront_after (o : LinkedOrder) (i j : Nat) :
    (o.pushFront i).after j = if j = i then o.head else o.after j := by
  show (((o.setBefore i none).setAfter i o.head).setBeforeOrTail o.head (some i)).after j = _
  simp

/-- The slot in front of another one after adding a slot at the front. -/
theorem pushFront_before (o : LinkedOrder) (i j : Nat) :
    (o.pushFront i).before j =
      if o.head = some j then some i else if j = i then none else o.before j := by
  show (((o.setBefore i none).setAfter i o.head).setBeforeOrTail o.head (some i)).before j = _
  simp

/-- A slot added at the front becomes the tail of an order that has no head. -/
theorem pushFront_tail (o : LinkedOrder) (i : Nat) :
    (o.pushFront i).tail = if o.head = none then some i else o.tail := by
  show (((o.setBefore i none).setAfter i o.head).setBeforeOrTail o.head (some i)).tail = _
  simp

/-- Adding a slot at the back appends it. -/
theorem pushBack_strung (h : o.Strung slots) (hi : i ∉ slots) :
    (o.pushBack i).Strung (slots ++ [i]) := by
  have hlast : slots.getLast? ≠ some i := fun hlast => hi (List.mem_of_getLast? hlast)
  refine Strung.insert (by simpa using h) (by simpa using hi) ?_ rfl ?_ ?_ ?_
  · rw [pushBack_head, h.tail]
    cases slots <;> simp
  · intro j
    rw [pushBack_after, h.tail]
    by_cases hj : j = i
    · simp [hj, hlast]
    · simp [hj]
  · intro j
    rw [pushBack_before, h.tail]
    simp
  · calc max o.following.size (i + 1)
        = ((o.setBefore i o.tail).setAfter i none).following.size := by simp
      _ ≤ (o.pushBack i).following.size := setAfterOrHead_size ..

/-- Adding a slot at the front puts it before the others. -/
theorem pushFront_strung (h : o.Strung slots) (hi : i ∉ slots) :
    (o.pushFront i).Strung (i :: slots) := by
  have hfirst : slots.head? ≠ some i := fun hfirst => hi (List.mem_of_mem_head? hfirst)
  have hwhole : o.Strung ([] ++ slots) := h
  refine hwhole.insert (by simpa using hi) rfl ?_ ?_ ?_ ?_
  · rw [pushFront_tail, h.head]
    cases slots <;> simp
  · intro j
    rw [pushFront_after, h.head]
    simp
  · intro j
    rw [pushFront_before, h.head]
    by_cases hj : j = i
    · simp [hj, hfirst]
    · simp [hj]
  · show _ ≤ (((o.setBefore i none).setAfter i o.head).setBeforeOrTail o.head
      (some i)).following.size
    simp

/-- Taking a slot out joins its neighbours. -/
theorem detach_strung (h : o.Strung (front ++ i :: back)) :
    (o.detach i).Strung (front ++ back) := by
  obtain ⟨hafter, hbefore⟩ := h.links front i back rfl
  have hsize := setAfterOrHead_size o (o.before i) (o.after i)
  refine h.erase ?_ ?_ ?_ ?_ ?_
  · simp [detach, hafter, hbefore]
  · simp [detach, hafter, hbefore]
  · intro j hj
    simp [detach, hafter, hbefore, hj]
  · intro j hj
    simp [detach, hafter, hbefore, hj]
  · simp only [detach, setAfter_size, setBefore_size, setBeforeOrTail_size]
    omega

/-- Adding a slot behind another one. -/
theorem insertAfter_strung (h : o.Strung (front ++ j :: back)) (hi : i ∉ front ++ j :: back) :
    (o.insertAfter j i).Strung (front ++ j :: i :: back) := by
  obtain ⟨hafter, hbefore⟩ := h.links front j back rfl
  have hne : i ≠ j := by
    rintro rfl
    simp at hi
  have hfirst : back.head? ≠ some i := fun hfirst => hi (by
    simp [List.mem_of_mem_head? hfirst])
  have hsplice : (o.insertAfter j i).Strung ((front ++ [j]) ++ i :: back) := by
    refine Strung.insert (by simpa using h) (by simpa using hi) ?_ ?_ ?_ ?_ ?_
    · simp [insertAfter]
    · simp [insertAfter, hafter]
    · intro k
      by_cases hk : k = i
      · subst hk
        simp [insertAfter, hafter, hne]
      · by_cases hkj : k = j
        · simp [insertAfter, hkj, hne.symm]
        · simp [insertAfter, hk, hkj, Ne.symm hkj]
    · intro k
      by_cases hk : k = i
      · subst hk
        simp [insertAfter, hafter, hfirst]
      · simp [insertAfter, hafter, hk]
    · simp only [insertAfter, setAfter_size, setBefore_size, setBeforeOrTail_size]
      omega
  simpa using hsplice

/-- Adding a slot behind the last one of a front part, or at the front when that part is empty. -/
theorem insertBehind_strung (h : o.Strung (front ++ back)) (hi : i ∉ front ++ back) :
    (match front.getLast? with
      | some j => o.insertAfter j i
      | none => o.pushFront i).Strung (front ++ i :: back) := by
  rcases List.eq_nil_or_concat front with rfl | ⟨front, j, rfl⟩
  · exact pushFront_strung h hi
  · have hparted : o.Strung (front ++ j :: back) := by simpa using h
    have hplaced := insertAfter_strung hparted (by simpa using hi)
    simpa using hplaced

/-- Moving a slot to the front. -/
theorem moveToFront_strung (h : o.Strung (front ++ i :: back)) :
    (o.moveToFront i).Strung (i :: (front ++ back)) := by
  have hnodup := List.nodup_cons.mp (List.perm_middle.nodup_iff.mp h.nodup)
  unfold moveToFront
  split
  · rename_i hhead
    rw [h.head] at hhead
    obtain rfl : front = [] := (head?_eq_iff h.nodup).mp hhead
    simpa using h
  · exact pushFront_strung (detach_strung h) hnodup.1

/-- Moving a slot to the back. -/
theorem moveToBack_strung (h : o.Strung (front ++ i :: back)) :
    (o.moveToBack i).Strung (front ++ back ++ [i]) := by
  have hnodup := List.nodup_cons.mp (List.perm_middle.nodup_iff.mp h.nodup)
  unfold moveToBack
  split
  · rename_i htail
    rw [h.tail] at htail
    obtain rfl : back = [] := (getLast?_eq_iff h.nodup).mp htail
    simpa using h
  · exact pushBack_strung (detach_strung h) hnodup.1

/-! ## Reading the list -/

/-- Following the links behind from a member on yields the rest of the list. -/
theorem Strung.walk_eq (h : o.Strung (front ++ back)) {fuel : Nat} (hfuel : back.length ≤ fuel) :
    o.walk fuel back.head? = back := by
  induction back generalizing front fuel with
  | nil => cases fuel <;> rfl
  | cons i back ih =>
      cases fuel with
      | zero => simp at hfuel
      | succ fuel =>
          have hnext := (h.links front i back rfl).1
          simp only [List.head?_cons, walk, hnext]
          have hsplit : o.Strung ((front ++ [i]) ++ back) := by simpa using h
          rw [ih hsplit (Nat.le_of_succ_le_succ hfuel)]

/-- A strung list has no more members than there are links. -/
theorem Strung.length_le (h : o.Strung slots) : slots.length ≤ o.following.size := by
  have hsub : slots ⊆ List.range o.following.size := fun i hi => by simpa using h.bound i hi
  simpa using (List.subperm_of_subset h.nodup hsub).length_le

/-- The list read off the links is the one they string up. -/
theorem Strung.toList_eq (h : o.Strung slots) : o.toList = slots := by
  unfold toList
  rw [h.head]
  have hwhole : o.Strung ([] ++ slots) := h
  exact hwhole.walk_eq h.length_le

end BoundedTables.Table.LinkedOrder
