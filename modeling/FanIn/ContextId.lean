/-!
# Context identifiers

The descendants of a root are numbered in the order in which they were created, and the id of
the `n`-th is the root's id, an underscore and `n` in decimal.

A root that is given no id gets a generated one, which is never taken for anything a client wrote.
To that end texts of clients are *quoted*: a certain character, the mark, is doubled wherever it
stands in them. A generated id begins with a single mark. A text may be put together from both;
`plain` is what a reader sees of it. How an id is made up at random is left out: a root is created
from a spec that names its id, and what is proved of contexts holds whatever the id is.
-/

namespace FanIn.ContextId

/-- Stands between the id of a root and the number of a descendant. -/
def separator : Char := '_'

/-- The id of the descendant with the given number below the given root. -/
def child (root : String) (sequence : UInt64) : String :=
  root ++ separator.toString ++ toString sequence.toNat

/-- The character that sets generated ids apart. -/
def mark : Char := Char.ofNat 0x10FFFD

/-- Writes every mark twice and everything else once. -/
def quote : List Char → List Char
  | [] => []
  | c :: s => if c = mark then mark :: mark :: quote s else c :: quote s

/-- Drops every mark and keeps the character after it, whatever it is. -/
def unquote : List Char → List Char
  | [] => []
  | [c] => if c = mark then [] else [c]
  | c :: d :: s => if c = mark then d :: unquote s else c :: unquote (d :: s)

/-- The text of a client with its marks doubled. -/
def quoted (s : String) : String := String.ofList (quote s.toList)

/-- What a reader sees of a text made of quoted texts and generated ids. -/
def plain (s : String) : String := String.ofList (unquote s.toList)

/-- The generated id of the `k`-th root that was given none. -/
def generated (k : Nat) : String :=
  mark.toString ++ "<gen-" ++ toString k ++ ">"

end FanIn.ContextId
