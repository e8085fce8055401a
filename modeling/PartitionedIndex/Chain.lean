import Std.Data.ExtTreeSet
import PartitionedIndex.Text.Inspect

/-! # Key sets and chains of them

A chain is the union of several key sets, kept as the list of them so that nothing is copied. Its
size is the sum of the sizes of its members, which is right when the members are disjoint, as key
sets from different partitions are. Appending a set or a chain extends the one list of members, so
a chain is never deeper than one level. -/

namespace PartitionedIndex

/-- A finite set of keys. -/
abbrev KeySet (K : Type) [Ord K] : Type := Std.ExtTreeSet K

def KeySet.ofList {K : Type} [Ord K] (keys : List K) : KeySet K :=
  Std.ExtTreeSet.ofList keys compare

/-- The union of several key sets. -/
structure Chain (K : Type) [Ord K] where
  members : List (KeySet K) := []

namespace Chain

variable {K : Type} [Ord K]

def empty : Chain K := ⟨[]⟩

instance : EmptyCollection (Chain K) := ⟨empty⟩

def single (set : KeySet K) : Chain K := ⟨[set]⟩

def pair (first second : KeySet K) : Chain K := ⟨[first, second]⟩

/-- Adds a set behind the members. -/
def push (c : Chain K) (set : KeySet K) : Chain K := ⟨c.members ++ [set]⟩

/-- Adds the members of another chain behind the members. -/
def append (c d : Chain K) : Chain K := ⟨c.members ++ d.members⟩

instance : Append (Chain K) := ⟨append⟩

def memberCount (c : Chain K) : Nat := c.members.length

/-- The sizes of the members together. -/
def size (c : Chain K) : Nat := c.members.foldr (fun set n => set.size + n) 0

def isEmpty (c : Chain K) : Bool := c.members.all fun set => set.isEmpty

@[simp] theorem members_empty : (empty : Chain K).members = [] := rfl
@[simp] theorem members_single (set : KeySet K) : (single set).members = [set] := rfl
@[simp] theorem members_pair (s t : KeySet K) : (pair s t).members = [s, t] := rfl
@[simp] theorem members_push (c : Chain K) (set : KeySet K) :
    (c.push set).members = c.members ++ [set] := rfl
@[simp] theorem members_append (c d : Chain K) : (c ++ d).members = c.members ++ d.members := rfl

theorem push_eq_append (c : Chain K) (set : KeySet K) : c.push set = c ++ single set := rfl

variable [Std.TransOrd K]

/-- The keys of the members, one member after the other. -/
def toList (c : Chain K) : List K := c.members.flatMap fun set => set.toList

def contains (c : Chain K) (key : K) : Bool := c.members.any fun set => set.contains key

/-- The keys of all members in one set. -/
def toKeySet (c : Chain K) : KeySet K := KeySet.ofList c.toList

/-- Whether the chain, its members being disjoint, holds exactly the keys of a set: as many as the
set, and none that is not in it. -/
def holdsExactly (c : Chain K) (set : KeySet K) : Bool :=
  c.size == set.size && c.toList.all fun key => set.contains key

instance [Inspect K] : Inspect (Chain K) := ⟨fun c => Inspect.collection (c.toList.map inspect)⟩

end Chain

end PartitionedIndex
