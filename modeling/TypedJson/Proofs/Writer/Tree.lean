import TypedJson.Proofs.Grammar.Document
import TypedJson.Writer

/-! The values a writer describes, apart from any text, and the two ways to lay one out: as the
calls that write it and as its minified text. -/
namespace TypedJson

/-- A value that is a single token. -/
inductive Leaf where
  | boolean (value : Bool)
  | integer (value : Int)
  | real (value : Binary64) (finite : value.isFinite = true)
  | string (value : String)
  | binary (bytes : List UInt8)

def Leaf.text : Leaf → List UInt8
  | .boolean value => Utf8.encode (if value then "true" else "false").toList
  | .integer value => Numeral.ofInt value
  | .real value _ => value.text
  | .string value => Escape.quoted value.toList
  | .binary bytes => Ascii.quote :: Hex.encode bytes ++ [Ascii.quote]

/-- A value with everything in it. -/
inductive Tree where
  | leaf (leaf : Leaf)
  | array (elements : List Tree)
  | object (members : List (String × Tree))

/-- What one accepted call adds to a document. -/
inductive Event where
  | leaf (leaf : Leaf)
  | openArray
  | closeArray
  | openObject
  | closeObject
  | key (name : String)

namespace Tree

/-- Commas stand between siblings only. -/
def separated (texts : List (List UInt8)) : List UInt8 := List.intercalate [Ascii.comma] texts

def named (name : String) (text : List UInt8) : List UInt8 :=
  Escape.quoted name.toList ++ Ascii.colon :: text

mutual
/-- The text without whitespace outside of strings. -/
def render : Tree → List UInt8
  | .leaf value => value.text
  | .array elements => Ascii.openBracket :: separated (renderAll elements) ++ [Ascii.closeBracket]
  | .object members => Ascii.openBrace :: separated (renderMembers members) ++ [Ascii.closeBrace]

def renderAll : List Tree → List (List UInt8)
  | [] => []
  | tree :: rest => tree.render :: renderAll rest

def renderMembers : List (String × Tree) → List (List UInt8)
  | [] => []
  | (name, tree) :: rest => named name tree.render :: renderMembers rest
end

mutual
/-- The calls that write the value, in order. -/
def events : Tree → List Event
  | .leaf value => [.leaf value]
  | .array elements => .openArray :: eventsAll elements ++ [.closeArray]
  | .object members => .openObject :: eventsMembers members ++ [.closeObject]

def eventsAll : List Tree → List Event
  | [] => []
  | tree :: rest => tree.events ++ eventsAll rest

def eventsMembers : List (String × Tree) → List Event
  | [] => []
  | (name, tree) :: rest => .key name :: tree.events ++ eventsMembers rest
end

mutual
/-- The number of containers open at once in the value. -/
def nesting : Tree → Nat
  | .leaf _ => 0
  | .array elements => nestingAll elements + 1
  | .object members => nestingMembers members + 1

def nestingAll : List Tree → Nat
  | [] => 0
  | tree :: rest => max tree.nesting (nestingAll rest)

def nestingMembers : List (String × Tree) → Nat
  | [] => 0
  | (_, tree) :: rest => max tree.nesting (nestingMembers rest)
end

theorem renderAll_eq (elements : List Tree) : renderAll elements = elements.map render := by
  induction elements with
  | nil => rfl
  | cons tree rest ih => rw [renderAll, ih, List.map_cons]

theorem renderMembers_eq (members : List (String × Tree)) :
    renderMembers members = members.map fun member => named member.1 member.2.render := by
  induction members with
  | nil => rfl
  | cons member rest ih => rw [renderMembers, ih, List.map_cons]

end Tree

end TypedJson
