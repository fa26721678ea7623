import BoundedTables.Toml.Section

/-!
# TOML documents

The sections of a document are gathered into one tree. The members of a table come from the
sections whose paths go through it, in their order, and each section is read once. A table has one
section of its own at most, and no key may be there twice, whether a header or a member gives it.
-/

namespace BoundedTables.Toml

/-- The sections of a document, and which of them are still to be read. -/
structure Draft where
  sections : Array Section
  unread : Array Bool

/-- The table that is being gathered. -/
structure Site where
  /-- The number of names in its path. -/
  depth : Nat
  /-- A section whose path goes through the table. -/
  guide : Nat
  /-- The sections from here on belong to later elements of an array. -/
  limit : Nat
  /-- The sections before this one have been looked at. -/
  next : Nat

namespace Draft

/-- Nothing is read yet. -/
def ofSections (sections : Array Section) : Draft :=
  { sections, unread := Array.replicate sections.size true }

/-- The path of a section. -/
def path (d : Draft) (i : Nat) : List String := (d.sections[i]?.map (·.path)).getD []

/-- Whether a section adds an element to an array. -/
def isElement (d : Draft) (i : Nat) : Bool := d.sections[i]?.any (·.isElement)

/-- Whether a section is still to be read. -/
def isUnread (d : Draft) (i : Nat) : Bool := d.unread.getD i false

/-- The members of a section, which is read with that. -/
def take (d : Draft) (i : Nat) : List (String × Value) × Draft :=
  ((d.sections[i]?.map (·.members)).getD [],
    { d with unread := d.unread.setIfInBounds i false })

/-- The first of `count` sections from `i` on that has a property. -/
def find? (p : Nat → Bool) (i : Nat) : Nat → Option Nat
  | 0 => none
  | count + 1 => if p i then some i else find? p (i + 1) count

/-- The next unread section whose path goes through a table. -/
def next? (d : Draft) (site : Site) : Option Nat :=
  let path := (d.path site.guide).take site.depth
  find? (fun i => path.isPrefixOf (d.path i) && d.isUnread i) site.next (site.limit - site.next)

/-- The next element of the array that a section adds an element to, or the limit. -/
def nextElement (d : Draft) (limit i : Nat) : Nat :=
  (find? (fun j => d.path j == d.path i && d.isElement j) (i + 1) (limit - (i + 1))).getD limit

/-- Let a table be guided by a section, if its path is shorter. Two sections with one path are
refused. -/
def follow? (d : Draft) (site : Site) (i : Nat) : Option Site :=
  if i = site.guide then some site
  else if d.path i == d.path site.guide then none
  else if (d.path i).length < (d.path site.guide).length then some { site with guide := i }
  else some site

/-- Whether a header may not give a key behind those read so far: it is there already, or it is
the reserved first key, which only a member gives a date or a time. -/
def isRefused (read : List (String × Tree)) (name : String) : Bool :=
  (read.isEmpty && name = Value.momentKey) || (Tree.member? read name).isSome

mutual

/-- Gather the members of a table behind those read so far. A section whose path goes on below the
table gives a key, whose value is gathered from all sections that go through it; the one whose
path ends here gives its own members. -/
def table? : Nat → Draft → Site → List (String × Tree) → Option (Tree × Draft)
  | 0, _, _, _ => none
  | fuel + 1, d, site, read =>
      match d.next? site with
      | none => some (.table read, d)
      | some i => do
          let site ← d.follow? { site with next := i } i
          match (d.path i).drop site.depth with
          | [] =>
              if d.isElement i then none
              else
                let (ms, d) := d.take i
                match ← Value.tableTree? read ms with
                | .table read => table? fuel d site read
                | moment => some (moment, d)
          | name :: below =>
              if isRefused read name then none
              else
                let (t, d) ←
                  if d.isElement i && below.isEmpty then elements? fuel d site.limit i []
                  else table? fuel d ⟨site.depth + 1, i, site.limit, 0⟩ []
                table? fuel d { site with next := i + 1 } (read ++ [(name, t)])

/-- Gather the elements of an array from the section of the next one on, behind those read so far
in reverse. Every element has the sections up to the next one for itself. -/
def elements? : Nat → Draft → Nat → Nat → List Tree → Option (Tree × Draft)
  | 0, _, _, _, _ => none
  | fuel + 1, d, limit, i, read =>
      if limit ≤ i then some (.list read.reverse, d)
      else do
        let following := d.nextElement limit i
        let (ms, d) := d.take i
        let (t, d) ←
          match ← Value.tableTree? [] ms with
          | .table own => table? fuel d ⟨(d.path i).length, i, following, 0⟩ own
          | moment => some (moment, d)
        elements? fuel d limit following (t :: read)

end

/-- The number of steps that gathering takes at most: every level goes over all sections. -/
def steps (d : Draft) : Nat :=
  let longest := d.sections.foldl (fun n s => max n s.path.length) 0
  4 * (d.sections.size + 1) * (longest + 2)

/-- The tree of a document. -/
def tree? (d : Draft) : Option Tree :=
  (d.table? d.steps ⟨0, 0, d.sections.size, 0⟩ []).map (·.1)

end Draft

/-- Read a document into its root members. A root that stands for a date has none. -/
def parse? (s : String) : Option (List (String × Tree)) := do
  let sections ← Section.ofText? s
  let t ← (Draft.ofSections sections).tree?
  pure t.members

end BoundedTables.Toml
