import Midend.Fault

/-! # Tables

A `Table` hands out the keys 0, 1, 2, … to what is added to it. Removing an entry leaves a hole, so that
every other key keeps its meaning. A `SideTable` holds further data under keys of its user's choice.
-/

namespace Midend

/-- Entries at the positions that are keys; `none` is a hole. -/
structure Table (α : Type) where
  slots : Array (Option α) := #[]

namespace Table

variable {α : Type}

/-- The number of entries. -/
def size (t : Table α) : Nat := t.slots.toList.countP Option.isSome

/-- The number of keys handed out so far. -/
def capacity (t : Table α) : Nat := t.slots.size

def add (t : Table α) (a : α) : Nat × Table α := (t.slots.size, ⟨t.slots.push (some a)⟩)

def get? (t : Table α) (k : Nat) : Option α := (t.slots[k]?).join

def get (t : Table α) (k : Nat) : Except Fault α := orFault (t.get? k) .missingKey

def contains (t : Table α) (k : Nat) : Bool := (t.get? k).isSome

/-- Takes an entry out. A key that was never handed out is a position beyond the table. -/
def remove (t : Table α) (k : Nat) : Except Fault (α × Table α) :=
  match t.slots[k]? with
  | none => .error .outOfRange
  | some none => .error .missingKey
  | some (some a) => .ok (a, ⟨t.slots.setIfInBounds k none⟩)

/-- Changes the entry at a key, if there is one. -/
def modify? (t : Table α) (k : Nat) (f : α → α) : Option (Table α) :=
  (t.get? k).map fun a => ⟨t.slots.setIfInBounds k (some (f a))⟩

def modify (t : Table α) (k : Nat) (f : α → α) : Except Fault (Table α) :=
  orFault (t.modify? k f) .missingKey

def map (t : Table α) (f : α → α) : Table α := ⟨t.slots.map (Option.map f)⟩

/-- The keys in ascending order, each with its entry. -/
def toList (t : Table α) : List (Nat × α) :=
  t.slots.toList.zipIdx.filterMap fun (a, k) => a.map (k, ·)

end Table

/-- Data under some of the keys of another table. -/
structure SideTable (α : Type) where
  slots : Array (Option α) := #[]

namespace SideTable

variable {α : Type}

def get? (t : SideTable α) (k : Nat) : Option α := (t.slots[k]?).join

def get (t : SideTable α) (k : Nat) : Except Fault α := orFault (t.get? k) .missingSideKey

def contains (t : SideTable α) (k : Nat) : Bool := (t.get? k).isSome

/-- The slots, long enough to hold one at `k`. -/
def grown (t : SideTable α) (k : Nat) : Array (Option α) :=
  t.slots ++ Array.replicate (k + 1 - t.slots.size) none

/-- Puts `a` under `k`, whatever was there. -/
def insert (t : SideTable α) (k : Nat) (a : α) : SideTable α :=
  ⟨(t.grown k).setIfInBounds k (some a)⟩

/-- Puts `a` under a key that is not taken. -/
def add (t : SideTable α) (k : Nat) (a : α) : Except Fault (SideTable α) :=
  if t.contains k then .error .duplicateKey else .ok (t.insert k a)

def erase (t : SideTable α) (k : Nat) : SideTable α := ⟨t.slots.setIfInBounds k none⟩

def modify? (t : SideTable α) (k : Nat) (f : α → α) : Option (SideTable α) :=
  (t.get? k).map fun a => t.insert k (f a)

def modify (t : SideTable α) (k : Nat) (f : α → α) : Except Fault (SideTable α) :=
  orFault (t.modify? k f) .missingSideKey

end SideTable

end Midend
