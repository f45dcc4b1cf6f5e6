import ScalarScript.Value.Cell
/-!
Stores: numbered entries that may share what they hold. A register holds an object of its own
until it is assigned again; reading through the register gives out that object itself.
-/
namespace ScalarScript

-- What an entry refers to, by the numbers of objects.
inductive Entry where
  | object (id : Nat)
  | register (name : String) (held : Nat)
  deriving DecidableEq, Repr

-- The object that an entry is or holds.
def Entry.id : Entry → Nat
  | object id | register _ id => id

structure Store where
  -- variables and constants, never registers
  objects : Array Cell := #[]
  entries : Array Entry := #[]

namespace Store

def allocate (s : Store) (c : Cell) : Store × Nat :=
  ({ s with objects := s.objects.push c }, s.objects.size)

def object (s : Store) (id : Nat) : Cell := s.objects[id]?.getD { content := .null }

-- The cell that an entry shows.
def view (s : Store) : Entry → Cell
  | .object id => s.object id
  | .register name held => { content := (s.object held).content, access := .register name }

def entry (s : Store) (i : Nat) : Entry := s.entries[i]?.getD (.object s.objects.size)

def get (s : Store) (i : Nat) : Cell := s.view (s.entry i)

def push (s : Store) (e : Entry) : Store × Nat :=
  ({ s with entries := s.entries.push e }, s.entries.size)

-- A new entry for a cell, with an object of its own.
def insert (s : Store) (c : Cell) : Store × Nat :=
  match c.access with
  | .register name =>
    let (s, held) := s.allocate { content := c.content }
    s.push (.register name held)
  | _ =>
    let (s, id) := s.allocate c
    s.push (.object id)

def insertValue (s : Store) (v : Value) : Store × Nat := s.insert { content := v }

-- A new entry for the object that an entry holds or is.
def share (s : Store) (i : Nat) : Store × Nat :=
  match s.entry i with
  | .object id => s.push (.object id)
  | .register _ held => s.push (.object held)

-- Gives a register a new object; everyone who shared the old one keeps it.
def hold (s : Store) (i : Nat) (name : String) (v : Value) : Store :=
  let (s, held) := s.allocate { content := v }
  { s with entries := s.entries.setIfInBounds i (.register name held) }

def assign (s : Store) (i : Nat) (v : Value) : Except Fault Store :=
  match s.entry i with
  | .register name _ => .ok (s.hold i name v)
  | .object id => do
    let c ← (s.object id).assign v
    return { s with objects := s.objects.setIfInBounds id c }

-- Empties a register.
def reset (s : Store) (i : Nat) : Store :=
  match s.entry i with
  | .register name _ => s.hold i name .null
  | .object _ => s

-- Entries refer to objects that are there. Every operation on entries that are there keeps it so.
def Sound (s : Store) : Prop := ∀ e ∈ s.entries, e.id < s.objects.size

variable {s : Store} {i j : Nat} {c : Cell} {e : Entry} {v : Value}

theorem sound_empty : Sound {} := by simp [Sound]

theorem entry_of_getElem? (found : s.entries[i]? = some e) : s.entry i = e := by
  simp [entry, found]

theorem getElem?_entry (inside : i < s.entries.size) : s.entries[i]? = some (s.entry i) := by
  simp [entry, inside]

theorem Sound.entry (sound : s.Sound) (inside : i < s.entries.size) :
    (s.entry i).id < s.objects.size :=
  sound _ (Array.mem_of_getElem? (getElem?_entry inside))

theorem Sound.allocate (sound : s.Sound) (c : Cell) : (s.allocate c).1.Sound := by
  intro e member
  exact Nat.lt_of_lt_of_le (sound e member) (by simp [Store.allocate])

theorem Sound.push (sound : s.Sound) (there : e.id < s.objects.size) : (s.push e).1.Sound := by
  intro f member
  rcases Array.mem_push.mp member with old | rfl
  · exact sound f old
  · exact there

theorem Sound.insert (sound : s.Sound) (c : Cell) : (s.insert c).1.Sound := by
  unfold Store.insert
  split <;> exact (sound.allocate _).push (by simp [Entry.id, Store.allocate])

theorem Sound.share (sound : s.Sound) (inside : i < s.entries.size) : (s.share i).1.Sound := by
  have there := sound.entry inside
  unfold Store.share
  cases refers : s.entry i <;> rw [refers] at there <;> exact sound.push there

theorem Sound.hold (sound : s.Sound) (i : Nat) (name : String) (v : Value) :
    (s.hold i name v).Sound := by
  intro e member
  rcases Array.mem_or_eq_of_mem_setIfInBounds member with old | rfl
  · exact sound.allocate { content := v } e old
  · simp [Entry.id, Store.hold, Store.allocate]

theorem Sound.assign {t : Store} (sound : s.Sound) (done : s.assign i v = .ok t) : t.Sound := by
  unfold Store.assign at done
  split at done
  · cases done
    exact sound.hold _ _ _
  · cases assigned : (s.object _).assign v with
    | error f =>
      rw [assigned] at done
      cases done
    | ok d =>
      rw [assigned] at done
      cases done
      intro e member
      simpa using sound e member

theorem view_allocate (there : e.id < s.objects.size) : (s.allocate c).1.view e = s.view e := by
  cases e <;> simp only [Entry.id] at there <;>
    simp [view, object, allocate, Array.getElem?_push_lt there, there]

theorem get_allocate (sound : s.Sound) (inside : i < s.entries.size) :
    (s.allocate c).1.get i = s.get i := by
  have same : (s.allocate c).1.entry i = s.entry i := entry_of_getElem? (getElem?_entry inside)
  rw [get, get, same]
  exact view_allocate (sound.entry inside)

theorem get_push_same : (s.push e).1.get (s.push e).2 = s.view e := by
  simp [get, Store.entry, push, view, object]

theorem get_push_other (inside : i < s.entries.size) : (s.push e).1.get i = s.get i := by
  simp [get, Store.entry, push, view, object, Array.getElem?_push_lt inside, inside]

-- A new entry shows its cell.
theorem get_insert_same : (s.insert c).1.get (s.insert c).2 = c := by
  obtain ⟨content, access⟩ := c
  cases access <;> simp only [insert] <;> rw [get_push_same] <;> simp [view, object, allocate]

-- All others show what they did.
theorem get_insert_other (sound : s.Sound) (inside : i < s.entries.size) :
    (s.insert c).1.get i = s.get i := by
  unfold insert
  split
  · exact (get_push_other (s := (s.allocate _).1) inside).trans (get_allocate sound inside)
  · exact (get_push_other (s := (s.allocate _).1) inside).trans (get_allocate sound inside)

-- What is given out is the object itself, with its value.
theorem get_share_same : ((s.share i).1.get (s.share i).2).content = (s.get i).content := by
  cases refers : s.entry i <;> simp only [share, refers] <;> rw [get_push_same] <;>
    simp [get, refers, view]

-- A register shows what it was made to hold.
theorem get_hold_same (inside : i < s.entries.size) (name : String) :
    (s.hold i name v).get i = { content := v, access := .register name } := by
  simp [hold, get, Store.entry, allocate, inside, view, object]

-- All others show what they did, whatever they shared with it.
theorem get_hold_other (sound : s.Sound) (inside : j < s.entries.size) (other : j ≠ i)
    (name : String) : (s.hold i name v).get j = s.get j := by
  have same : (s.hold i name v).entry j = s.entry j :=
    entry_of_getElem? ((Array.getElem?_setIfInBounds_ne other.symm).trans (getElem?_entry inside))
  rw [get, get, same]
  exact view_allocate (sound.entry inside)

-- To assign to an entry is to assign to the cell that it shows.
theorem get_assign_same (sound : s.Sound) (inside : i < s.entries.size) :
    (s.assign i v).map (·.get i) = (s.get i).assign v := by
  have there := sound.entry inside
  cases refers : s.entry i with
  | register name held =>
    simp only [assign, refers, Except.map, get_hold_same inside]
    simp [get, refers, view, Cell.assign]
  | object held =>
    rw [refers] at there
    simp only [Entry.id] at there
    simp only [assign, get, refers, view]
    cases (s.object held).assign v with
    | error f => rfl
    | ok d =>
      have same : ({ s with objects := s.objects.setIfInBounds held d } : Store).entry i =
          .object held := entry_of_getElem? (refers ▸ getElem?_entry inside)
      simp only [bind, Except.bind, pure, Except.pure, Except.map, same]
      simp [object, there]

-- Entries that share an object with it show the change, and all others what they did.
theorem get_assign_other {t : Store} (sound : s.Sound) (inside : j < s.entries.size)
    (other : j ≠ i) (done : s.assign i v = .ok t) :
    t.get j = s.get j ∨
      ∃ held, s.entry i = .object held ∧ (s.entry j).id = held ∧
        (t.get j).content = (t.object held).content := by
  cases refers : s.entry i with
  | register name held =>
    simp only [assign, refers, Except.ok.injEq] at done
    subst done
    exact .inl (get_hold_other sound inside other name)
  | object held =>
    simp only [assign, refers] at done
    cases assigned : (s.object held).assign v with
    | error f =>
      rw [assigned] at done
      cases done
    | ok d =>
      rw [assigned] at done
      cases done
      have same : ({ s with objects := s.objects.setIfInBounds held d } : Store).entry j =
          s.entry j := entry_of_getElem? (getElem?_entry inside)
      simp only [get, same]
      by_cases shared : (s.entry j).id = held
      · refine .inr ⟨held, rfl, shared, ?_⟩
        rw [← shared]
        cases s.entry j <;> rfl
      · refine .inl ?_
        cases seen : s.entry j <;> rw [seen] at shared <;> simp only [Entry.id] at shared <;>
          simp [view, object, Array.getElem?_setIfInBounds_ne (Ne.symm shared)]

end Store

end ScalarScript
