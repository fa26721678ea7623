import BoundedTables.Proofs.Table.Trail
import Mathlib.Algebra.Order.BigOperators.Group.List
import Mathlib.Algebra.Order.Group.Nat

/-!
# Editing an order

An order mirrors a list of slots when its links behind lead from the head through the list, and its
links in front lead from the tail through the reverse (`Mirrors`). Every edit that fits the list is
the same edit of the list (`Mirrors.edit`), and so is every sequence of them (`Mirrors.edits`).

Links are kept in slots, which can be vacant: an edit reads and writes the links of occupied slots
only, and one that is asked for a vacant slot returns early (`Edit.onSlots_vacant`). All that an
edit touches that fits a mirrored list is occupied, so that none of this shows (`Mirrors.onSlots`).

Mirroring says nothing about how far the arrays of links reach, which a strung list does. Nothing
that an edit does depends on that: orders that read alike are edited alike (`Alike.edit`), and every
order reads like one whose links reach far enough (`Mirrors.exists_strung`).
-/

namespace BoundedTables.Table

namespace LinkedOrder

variable {o o' : LinkedOrder} {occupied : Nat → Prop} {slots front back : List Nat} {i : Nat}

/-- An order leads through a list of occupied slots from its head, and through the reverse of the
list from its tail. -/
structure Mirrors (o : LinkedOrder) (occupied : Nat → Prop) (slots : List Nat) : Prop where
  nodup : slots.Nodup
  occupied : ∀ i ∈ slots, occupied i
  forward : Trail o.after o.head slots
  backward : Trail o.before o.tail slots.reverse

/-- A change of the list. -/
inductive Edit
  | pushFront (i : Nat)
  | pushBack (i : Nat)
  | detach (i : Nat)
  | moveToFront (i : Nat)
  | moveToBack (i : Nat)
  | insertAfter (anchor i : Nat)

/-- A list with one slot put right behind another. -/
def putBehind (anchor i : Nat) : List Nat → List Nat
  | [] => []
  | j :: rest => if j = anchor then j :: i :: rest else j :: putBehind anchor i rest

/-- A member can be taken out or moved. A slot that comes in is occupied, and not a member yet. -/
def Edit.Fits (occupied : Nat → Prop) (slots : List Nat) : Edit → Prop
  | .pushFront i | .pushBack i => occupied i ∧ i ∉ slots
  | .detach i | .moveToFront i | .moveToBack i => i ∈ slots
  | .insertAfter anchor i => anchor ∈ slots ∧ occupied i ∧ i ∉ slots

/-- What an edit makes of an order. -/
def Edit.onOrder (o : LinkedOrder) : Edit → LinkedOrder
  | .pushFront i => o.pushFront i
  | .pushBack i => o.pushBack i
  | .detach i => o.detach i
  | .moveToFront i => o.moveToFront i
  | .moveToBack i => o.moveToBack i
  | .insertAfter anchor i => o.insertAfter anchor i

/-- What an edit makes of a list. -/
def Edit.onList (slots : List Nat) : Edit → List Nat
  | .pushFront i => i :: slots
  | .pushBack i => slots ++ [i]
  | .detach i => slots.erase i
  | .moveToFront i => i :: slots.erase i
  | .moveToBack i => slots.erase i ++ [i]
  | .insertAfter anchor i => putBehind anchor i slots

section Slots

variable (occupied : Nat → Prop) [DecidablePred occupied]

/-- Set the link behind a slot if it is occupied, or the head when there is no slot. -/
def setAfterOrHeadIn (o : LinkedOrder) (i? target : Option Nat) : LinkedOrder :=
  match i? with
  | some i => if occupied i then o.setAfter i target else o
  | none => { o with head := target }

/-- Set the link in front of a slot if it is occupied, or the tail when there is no slot. -/
def setBeforeOrTailIn (o : LinkedOrder) (i? target : Option Nat) : LinkedOrder :=
  match i? with
  | some i => if occupied i then o.setBefore i target else o
  | none => { o with tail := target }

/-- Add a slot at the front if it is occupied. -/
def pushFrontIn (o : LinkedOrder) (i : Nat) : LinkedOrder :=
  if occupied i then
    let first := o.head
    let o := (o.setBefore i none).setAfter i first
    { setBeforeOrTailIn occupied o first (some i) with head := some i }
  else o

/-- Add a slot at the back if it is occupied. -/
def pushBackIn (o : LinkedOrder) (i : Nat) : LinkedOrder :=
  if occupied i then
    let last := o.tail
    let o := (o.setBefore i last).setAfter i none
    { setAfterOrHeadIn occupied o last (some i) with tail := some i }
  else o

/-- Take a slot out of the list if it is occupied. -/
def detachIn (o : LinkedOrder) (i : Nat) : LinkedOrder :=
  if occupied i then
    let back := o.before i
    let ahead := o.after i
    let o := setAfterOrHeadIn occupied o back ahead
    let o := setBeforeOrTailIn occupied o ahead back
    (o.setBefore i none).setAfter i none
  else o

/-- Add a slot right behind another one if both are occupied. -/
def insertAfterIn (o : LinkedOrder) (anchor i : Nat) : LinkedOrder :=
  if occupied anchor ∧ occupied i then
    let ahead := o.after anchor
    let o := (o.setBefore i (some anchor)).setAfter i ahead
    let o := o.setAfter anchor (some i)
    setBeforeOrTailIn occupied o ahead (some i)
  else o

/-- What an edit makes of an order whose links are kept in slots, some of which are occupied. -/
def Edit.onSlots (o : LinkedOrder) : Edit → LinkedOrder
  | .pushFront i => pushFrontIn occupied o i
  | .pushBack i => pushBackIn occupied o i
  | .detach i => detachIn occupied o i
  | .moveToFront i =>
      if o.head = some i then o else pushFrontIn occupied (detachIn occupied o i) i
  | .moveToBack i => if o.tail = some i then o else pushBackIn occupied (detachIn occupied o i) i
  | .insertAfter anchor i => insertAfterIn occupied o anchor i

end Slots

/-- The slots that an edit names. -/
def Edit.named : Edit → List Nat
  | .pushFront i | .pushBack i | .detach i | .moveToFront i | .moveToBack i => [i]
  | .insertAfter anchor i => [anchor, i]

/-- Every edit fits the list that the ones before it lead to. -/
def Fitting (occupied : Nat → Prop) : List Nat → List Edit → Prop
  | _, [] => True
  | slots, e :: edits => e.Fits occupied slots ∧ Fitting occupied (e.onList slots) edits

/-! ## Orders that read alike -/

/-- Nothing that is read of two orders differs. -/
structure Alike (o o' : LinkedOrder) : Prop where
  head : o'.head = o.head
  tail : o'.tail = o.tail
  after : ∀ j, o'.after j = o.after j
  before : ∀ j, o'.before j = o.before j

/-- Adding a slot at the front of two orders that read alike leaves them alike. -/
theorem Alike.pushFront (h : o.Alike o') (i : Nat) : (o.pushFront i).Alike (o'.pushFront i) where
  head := rfl
  tail := by rw [pushFront_tail, pushFront_tail, h.head, h.tail]
  after j := by rw [pushFront_after, pushFront_after, h.head, h.after]
  before j := by rw [pushFront_before, pushFront_before, h.head, h.before]

/-- Adding a slot at the back of two orders that read alike leaves them alike. -/
theorem Alike.pushBack (h : o.Alike o') (i : Nat) : (o.pushBack i).Alike (o'.pushBack i) where
  head := by rw [pushBack_head, pushBack_head, h.head, h.tail]
  tail := rfl
  after j := by rw [pushBack_after, pushBack_after, h.tail, h.after]
  before j := by rw [pushBack_before, pushBack_before, h.tail, h.before]

/-- Taking a slot out of two orders that read alike leaves them alike. -/
theorem Alike.detach (h : o.Alike o') (i : Nat) : (o.detach i).Alike (o'.detach i) where
  head := by simp [LinkedOrder.detach, h.head, h.after, h.before]
  tail := by simp [LinkedOrder.detach, h.tail, h.after, h.before]
  after j := by simp [LinkedOrder.detach, h.after, h.before]
  before j := by simp [LinkedOrder.detach, h.after, h.before]

/-- Adding a slot behind another one in two orders that read alike leaves them alike. -/
theorem Alike.insertAfter (h : o.Alike o') (anchor i : Nat) :
    (o.insertAfter anchor i).Alike (o'.insertAfter anchor i) where
  head := by simp [LinkedOrder.insertAfter, h.head]
  tail := by simp [LinkedOrder.insertAfter, h.tail, h.after]
  after j := by simp [LinkedOrder.insertAfter, h.after]
  before j := by simp [LinkedOrder.insertAfter, h.after, h.before]

/-- Orders that read alike are edited alike. -/
theorem Alike.edit (h : o.Alike o') (e : Edit) : (e.onOrder o).Alike (e.onOrder o') := by
  cases e with
  | pushFront i => exact h.pushFront i
  | pushBack i => exact h.pushBack i
  | detach i => exact h.detach i
  | insertAfter anchor i => exact h.insertAfter anchor i
  | moveToFront i =>
      simp only [Edit.onOrder, moveToFront, h.head]
      split
      · exact h
      · exact (h.detach i).pushFront i
  | moveToBack i =>
      simp only [Edit.onOrder, moveToBack, h.tail]
      split
      · exact h
      · exact (h.detach i).pushBack i

/-- An order mirrors what an order that reads like it mirrors. -/
theorem Alike.mirrors (h : o.Alike o') (hmirrors : o'.Mirrors occupied slots) :
    o.Mirrors occupied slots := by
  obtain ⟨hnodup, hoccupied, hforward, hbackward⟩ := hmirrors
  rw [h.head, funext h.after] at hforward
  rw [h.tail, funext h.before] at hbackward
  exact ⟨hnodup, hoccupied, hforward, hbackward⟩

/-- Links that reach far enough can be added without a change of what is read. -/
theorem setAfter_alike (o : LinkedOrder) (i : Nat) : o.Alike (o.setAfter i (o.after i)) where
  head := rfl
  tail := rfl
  after j := by
    rw [setAfter_after]
    split
    · rename_i hj
      rw [hj]
    · rfl
  before _ := rfl

/-! ## Mirroring and stringing up -/

/-- An order strung up with occupied slots mirrors their list. -/
theorem Strung.mirrors (h : o.Strung slots) (hoccupied : ∀ i ∈ slots, occupied i) :
    o.Mirrors occupied slots :=
  ⟨h.nodup, hoccupied, h.forward, h.backward⟩

/-- The links around a member of a list that an order mirrors. -/
theorem Mirrors.links (h : o.Mirrors occupied (front ++ i :: back)) :
    o.after i = back.head? ∧ o.before i = front.getLast? := by
  have hbackward := h.backward
  rw [List.reverse_append, List.reverse_cons, List.append_assoc] at hbackward
  rw [← List.head?_reverse]
  exact ⟨h.forward.rest.start_eq, hbackward.rest.start_eq⟩

/-- Some order that reads alike strings up the list that an order mirrors. -/
theorem Mirrors.exists_strung (h : o.Mirrors occupied slots) :
    ∃ o', o.Alike o' ∧ o'.Strung slots := by
  -- no member is greater than the sum of all
  have halike := o.setAfter_alike slots.sum
  refine ⟨_, halike, h.nodup, ?_, ?_, ?_, ?_⟩
  · rw [halike.head]
    exact h.forward.start_eq
  · rw [halike.tail, ← List.head?_reverse]
    exact h.backward.start_eq
  · rintro front i back rfl
    rw [halike.after, halike.before]
    exact h.links
  · intro i hi
    have hle : i ≤ slots.sum := List.le_sum_of_mem hi
    rw [setAfter_size]
    omega

/-! ## Edits -/

/-- A slot is put right behind its anchor. -/
theorem putBehind_eq {anchor : Nat} (hfront : anchor ∉ front) (i : Nat) (back : List Nat) :
    putBehind anchor i (front ++ anchor :: back) = front ++ anchor :: i :: back := by
  induction front with
  | nil => simp [putBehind]
  | cons j front ih =>
      rw [List.mem_cons, not_or] at hfront
      simp [putBehind, Ne.symm hfront.1, ih hfront.2]

/-- A list parted at a member, which it holds only there. -/
theorem exists_parts (hnodup : slots.Nodup) (hi : i ∈ slots) :
    ∃ front back, slots = front ++ i :: back ∧ i ∉ front ∧ slots.erase i = front ++ back := by
  obtain ⟨front, back, rfl⟩ := List.append_of_mem hi
  have hfront : i ∉ front := fun hmem => (List.nodup_append.mp hnodup).2.2 i hmem i (by simp) rfl
  exact ⟨front, back, rfl, hfront, erase_middle hnodup⟩

/-- An edit of an order strings up the edited list. -/
theorem Strung.edit (h : o.Strung slots) {e : Edit} (hfits : e.Fits occupied slots) :
    (e.onOrder o).Strung (e.onList slots) := by
  cases e with
  | pushFront i => exact pushFront_strung h hfits.2
  | pushBack i => exact pushBack_strung h hfits.2
  | detach i =>
      obtain ⟨front, back, rfl, -, herase⟩ := exists_parts h.nodup hfits
      rw [Edit.onList, herase]
      exact detach_strung h
  | moveToFront i =>
      obtain ⟨front, back, rfl, -, herase⟩ := exists_parts h.nodup hfits
      rw [Edit.onList, herase]
      exact moveToFront_strung h
  | moveToBack i =>
      obtain ⟨front, back, rfl, -, herase⟩ := exists_parts h.nodup hfits
      rw [Edit.onList, herase]
      exact moveToBack_strung h
  | insertAfter anchor i =>
      obtain ⟨hanchor, -, hi⟩ := hfits
      obtain ⟨front, back, rfl, hfront, -⟩ := exists_parts h.nodup hanchor
      rw [Edit.onList, putBehind_eq hfront]
      exact insertAfter_strung h hi

/-- Putting a slot behind another one brings in no third slot. -/
theorem mem_putBehind {anchor j : Nat} (hj : j ∈ putBehind anchor i slots) :
    j = i ∨ j ∈ slots := by
  induction slots with
  | nil => cases hj
  | cons k rest ih =>
      unfold putBehind at hj
      grind

/-- The members of an edited list are occupied. -/
theorem Edit.Fits.members {e : Edit} (hfits : e.Fits occupied slots)
    (hoccupied : ∀ i ∈ slots, occupied i) : ∀ j ∈ e.onList slots, occupied j := by
  intro j hj
  cases e with
  | pushFront i =>
      rcases List.mem_cons.mp hj with rfl | hj
      · exact hfits.1
      · exact hoccupied j hj
  | pushBack i =>
      rcases List.mem_append.mp hj with hj | hj
      · exact hoccupied j hj
      · obtain rfl := List.mem_singleton.mp hj
        exact hfits.1
  | detach i => exact hoccupied j (List.mem_of_mem_erase hj)
  | moveToFront i =>
      rcases List.mem_cons.mp hj with rfl | hj
      · exact hoccupied j hfits
      · exact hoccupied j (List.mem_of_mem_erase hj)
  | moveToBack i =>
      rcases List.mem_append.mp hj with hj | hj
      · exact hoccupied j (List.mem_of_mem_erase hj)
      · obtain rfl := List.mem_singleton.mp hj
        exact hoccupied j hfits
  | insertAfter anchor i =>
      rcases mem_putBehind hj with rfl | hj
      · exact hfits.2.1
      · exact hoccupied j hj

/-- An edit that fits keeps an order and its list mirrored. -/
theorem Mirrors.edit (h : o.Mirrors occupied slots) {e : Edit} (hfits : e.Fits occupied slots) :
    (e.onOrder o).Mirrors occupied (e.onList slots) := by
  obtain ⟨o', halike, hstrung⟩ := h.exists_strung
  exact (halike.edit e).mirrors ((hstrung.edit hfits).mirrors (hfits.members h.occupied))

/-! ## Edits of slots -/

/-- The head is occupied. -/
theorem Mirrors.head_occupied (h : o.Mirrors occupied slots) : ∀ i ∈ o.head, occupied i := by
  intro i hi
  rw [h.forward.start_eq] at hi
  exact h.occupied i (List.mem_of_mem_head? hi)

/-- The tail is occupied. -/
theorem Mirrors.tail_occupied (h : o.Mirrors occupied slots) : ∀ i ∈ o.tail, occupied i := by
  intro i hi
  rw [h.backward.start_eq] at hi
  exact h.occupied i (List.mem_reverse.mp (List.mem_of_mem_head? hi))

/-- The neighbours of a member are occupied. -/
theorem Mirrors.links_occupied (h : o.Mirrors occupied slots) (hi : i ∈ slots) :
    (∀ j ∈ o.after i, occupied j) ∧ ∀ j ∈ o.before i, occupied j := by
  obtain ⟨front, back, rfl⟩ := List.append_of_mem hi
  obtain ⟨hafter, hbefore⟩ := h.links
  rw [hafter, hbefore]
  refine ⟨fun j hj => h.occupied j ?_, fun j hj => h.occupied j ?_⟩
  · exact List.mem_append_right _ (List.mem_cons_of_mem _ (List.mem_of_mem_head? hj))
  · exact List.mem_append_left _ (List.mem_of_mem_getLast? hj)

section Slots

variable [DecidablePred occupied]

/-- An edit that names a vacant slot returns early. -/
theorem Edit.onSlots_vacant (o : LinkedOrder) {e : Edit} (h : ¬∀ i ∈ e.named, occupied i) :
    e.onSlots occupied o = o := by
  cases e with
  | insertAfter anchor i => exact if_neg fun hboth => h (by simpa [named] using hboth)
  | pushFront | pushBack | detach | moveToFront | moveToBack =>
      have hvacant := by simpa [named] using h
      simp [onSlots, pushFrontIn, pushBackIn, detachIn, hvacant]

/-- The link behind an occupied slot is set. -/
theorem setAfterOrHeadIn_eq {i? : Option Nat} (h : ∀ i ∈ i?, occupied i) (o : LinkedOrder)
    (target : Option Nat) :
    setAfterOrHeadIn occupied o i? target = o.setAfterOrHead i? target := by
  cases i? with
  | none => rfl
  | some i => exact if_pos (h i rfl)

/-- The link in front of an occupied slot is set. -/
theorem setBeforeOrTailIn_eq {i? : Option Nat} (h : ∀ i ∈ i?, occupied i) (o : LinkedOrder)
    (target : Option Nat) :
    setBeforeOrTailIn occupied o i? target = o.setBeforeOrTail i? target := by
  cases i? with
  | none => rfl
  | some i => exact if_pos (h i rfl)

/-- A slot is added at the front as if there were no vacant ones. -/
theorem Mirrors.pushFrontIn_eq (h : o.Mirrors occupied slots) (hi : occupied i) :
    pushFrontIn occupied o i = o.pushFront i := by
  rw [pushFrontIn, if_pos hi, pushFront]
  simp only [setBeforeOrTailIn_eq h.head_occupied]

/-- A slot is added at the back as if there were no vacant ones. -/
theorem Mirrors.pushBackIn_eq (h : o.Mirrors occupied slots) (hi : occupied i) :
    pushBackIn occupied o i = o.pushBack i := by
  rw [pushBackIn, if_pos hi, pushBack]
  simp only [setAfterOrHeadIn_eq h.tail_occupied]

/-- A member is taken out as if there were no vacant slots. -/
theorem Mirrors.detachIn_eq (h : o.Mirrors occupied slots) (hi : i ∈ slots) :
    detachIn occupied o i = o.detach i := by
  obtain ⟨hahead, hback⟩ := h.links_occupied hi
  rw [detachIn, if_pos (h.occupied i hi), LinkedOrder.detach]
  simp only [setAfterOrHeadIn_eq hback, setBeforeOrTailIn_eq hahead]

/-- A slot is put behind a member as if there were no vacant ones. -/
theorem Mirrors.insertAfterIn_eq (h : o.Mirrors occupied slots) {anchor : Nat}
    (hanchor : anchor ∈ slots) (hi : occupied i) :
    insertAfterIn occupied o anchor i = o.insertAfter anchor i := by
  obtain ⟨hahead, -⟩ := h.links_occupied hanchor
  rw [insertAfterIn, if_pos ⟨h.occupied anchor hanchor, hi⟩, LinkedOrder.insertAfter]
  simp only [setBeforeOrTailIn_eq hahead]

/-- An edit that fits touches occupied slots only. -/
theorem Mirrors.onSlots (h : o.Mirrors occupied slots) {e : Edit} (hfits : e.Fits occupied slots) :
    e.onSlots occupied o = e.onOrder o := by
  cases e with
  | pushFront i => exact h.pushFrontIn_eq hfits.1
  | pushBack i => exact h.pushBackIn_eq hfits.1
  | detach i => exact h.detachIn_eq hfits
  | moveToFront i =>
      have hdetached := h.edit (e := .detach i) hfits
      rw [Edit.onSlots, Edit.onOrder, moveToFront, h.detachIn_eq hfits]
      split
      · rfl
      · exact hdetached.pushFrontIn_eq (h.occupied i hfits)
  | moveToBack i =>
      have hdetached := h.edit (e := .detach i) hfits
      rw [Edit.onSlots, Edit.onOrder, moveToBack, h.detachIn_eq hfits]
      split
      · rfl
      · exact hdetached.pushBackIn_eq (h.occupied i hfits)
  | insertAfter anchor i => exact h.insertAfterIn_eq hfits.1 hfits.2.1

/-- Any number of edits that fit touch occupied slots only. -/
theorem Mirrors.onSlots_all {edits : List Edit} (h : o.Mirrors occupied slots)
    (hfits : Fitting occupied slots edits) :
    edits.foldl (Edit.onSlots occupied) o = edits.foldl Edit.onOrder o := by
  induction edits generalizing o slots with
  | nil => rfl
  | cons e edits ih =>
      rw [List.foldl_cons, List.foldl_cons, h.onSlots hfits.1]
      exact ih (h.edit hfits.1) hfits.2

end Slots

/-- Any number of edits that fit keep an order and its list mirrored. -/
theorem Mirrors.edits {edits : List Edit} (h : o.Mirrors occupied slots)
    (hfits : Fitting occupied slots edits) :
    (edits.foldl Edit.onOrder o).Mirrors occupied (edits.foldl Edit.onList slots) := by
  induction edits generalizing o slots with
  | nil => exact h
  | cons e edits ih => exact ih (h.edit hfits.1) hfits.2

/-- An order that leads through a list of occupied slots, and through its reverse from the other
end, is edited as the list is: by adding a slot at an end, taking one out, moving one to an end, or
putting one right behind another. Nothing is assumed of the links of other slots, and that links
are read and written in occupied slots only makes no difference. What holds of one edit holds of any
number of them. -/
theorem edited_as_list [DecidablePred occupied] (h : o.Mirrors occupied slots) :
    (∀ e : Edit, e.Fits occupied slots → e.onSlots occupied o = e.onOrder o ∧
      (e.onOrder o).Mirrors occupied (e.onList slots)) ∧
    (∀ edits : List Edit, Fitting occupied slots edits →
      edits.foldl (Edit.onSlots occupied) o = edits.foldl Edit.onOrder o ∧
        (edits.foldl Edit.onOrder o).Mirrors occupied (edits.foldl Edit.onList slots)) :=
  ⟨fun _ hfits => ⟨h.onSlots hfits, h.edit hfits⟩,
    fun _ hfits => ⟨h.onSlots_all hfits, h.edits hfits⟩⟩

/-- Three slots in the order 2, 0, 1, while the links of slot 3 still lead to two of them. Slot 3
goes between them, the first and the last are moved to the other end, and the rest is taken out. -/
theorem edited_as_list_around_stray :
    let o : LinkedOrder :=
      ⟨some 2, some 1, #[some 2, some 0, none, some 2], #[some 1, none, some 0, some 0]⟩
    let edits : List Edit :=
      [.insertAfter 0 3, .moveToBack 2, .moveToFront 1, .detach 3, .detach 1, .detach 2, .detach 0,
        .pushFront 3]
    o.Mirrors (· < 4) [2, 0, 1] ∧ Fitting (· < 4) [2, 0, 1] edits ∧
      ((Edit.insertAfter 0 3).onOrder o).Mirrors (· < 4) [2, 0, 3, 1] ∧
      (edits.foldl Edit.onOrder o).Mirrors (· < 4) [3] ∧
      edits.foldl (Edit.onSlots (· < 4)) o = edits.foldl Edit.onOrder o := by
  intro o edits
  have hmirrors : o.Mirrors (· < 4) [2, 0, 1] :=
    ⟨by decide, by decide, .cons (.cons (.cons .nil)), .cons (.cons (.cons .nil))⟩
  have hfits : Fitting (· < 4) [2, 0, 1] edits := by
    simp [edits, Fitting, Edit.Fits, Edit.onList, putBehind]
  obtain ⟨hone, hall⟩ := edited_as_list hmirrors
  obtain ⟨hslots, hmirrored⟩ := hall edits hfits
  exact ⟨hmirrors, hfits, (hone _ hfits.1).2, hmirrored, hslots⟩

end LinkedOrder

end BoundedTables.Table
