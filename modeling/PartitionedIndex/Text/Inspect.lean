import PartitionedIndex.Text.Quoted

/-! # Inspection text

The text a developer reads when looking at a value: every part of it, with texts quoted and
absent values named. Records are written with their name and fields, an *open* record ends in two
dots because it shows only some of its fields. -/

namespace PartitionedIndex

/-- Values that have an inspection text. -/
class Inspect (α : Type) where
  /-- The inspection text of a value. -/
  inspect : α → String

export Inspect (inspect)

namespace Inspect

/-- A name with arguments in parentheses. -/
def call (name : String) (arguments : List String) : String :=
  name ++ "(" ++ ", ".intercalate arguments ++ ")"

/-- Items between square brackets. -/
def sequence (items : List String) : String :=
  "[" ++ ", ".intercalate items ++ "]"

/-- Items between braces. -/
def collection (items : List String) : String :=
  "\x7b" ++ ", ".intercalate items ++ "\x7d"

/-- Pairs of a key and a value between braces. -/
def mapping (pairs : List (String × String)) : String :=
  collection (pairs.map fun p => p.1 ++ ": " ++ p.2)

/-- A record that shows all its fields. -/
def record (name : String) (fields : List (String × String)) : String :=
  name ++ " \x7b " ++ ", ".intercalate (fields.map fun f => f.1 ++ ": " ++ f.2) ++ " \x7d"

/-- A record that shows only some of its fields. -/
def openRecord (name : String) (fields : List (String × String)) : String :=
  name ++ " \x7b " ++
    ", ".intercalate (fields.map (fun f => f.1 ++ ": " ++ f.2) ++ [".."]) ++ " \x7d"

end Inspect

instance : Inspect Nat := ⟨fun n => toString n⟩
instance : Inspect UInt32 := ⟨fun n => toString n.toNat⟩
instance : Inspect UInt64 := ⟨fun n => toString n.toNat⟩
instance : Inspect Int64 := ⟨fun n => toString n.toInt⟩
instance : Inspect Bool := ⟨fun b => if b then "true" else "false"⟩
instance : Inspect String := ⟨Text.quote⟩

instance {α : Type} [Inspect α] : Inspect (Option α) where
  inspect
    | none => "None"
    | some a => Inspect.call "Some" [inspect a]

instance {α : Type} [Inspect α] : Inspect (List α) :=
  ⟨fun xs => Inspect.sequence (xs.map inspect)⟩

end PartitionedIndex
