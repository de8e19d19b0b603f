import Treebank.Order

/-!
# Scattered integers

A scatter table has a power of two of places. An integer goes to the place that its remainder gives; if another integer holds it, the
search goes on along a trail that its further bits lead. Before a table is three fifths full it grows. Read from its first place to its
last, a table gives its integers in an order that is neither theirs by size nor that of their arrival, but depends on nothing else.
-/

namespace Treebank.Order

/-- A scatter table, place after place. -/
abbrev Scatter := List (Option Int)

namespace Scatter

/-- The table of eight places without an integer. -/
def empty : Scatter := List.replicate 8 none

/-- The 64 bits that lead an integer through a table: its remainder by the prime below the 61st power of two, with its sign; minus one
counts as minus two. -/
def bits (n : Int) : Nat :=
  let r := n.tmod 2305843009213693951
  ((if r = -1 then -2 else r) % 18446744073709551616).toNat

/-- Whether an integer may be put in a place: it is free or holds that integer. -/
def admits (table : Scatter) (n : Int) (place : Nat) : Bool := (table.getD place none).all (· == n)

/-- The places that are looked at together: a place with the nine after it, or it alone near the end of the table. -/
def row (size place : Nat) : List Nat := if place + 9 < size then List.range' place 10 else [place]

/-- The first place on the trail of an integer that admits it. The trail leads on from a place to the one after its fivefold, moved by
the bits less their last five. -/
def seek (table : Scatter) (n : Int) : Nat → Nat → Nat → Option Nat
  | 0, _, _ => none
  | steps + 1, place, bits =>
    match (row table.length place).find? (table.admits n) with
    | some free => some free
    | none => seek table n steps ((5 * place + 1 + bits / 32) % table.length) (bits / 32)

/-- Puts an integer in its place. Thirteen steps use up its bits; after them the trail comes by every place. -/
def put (table : Scatter) (n : Int) : Scatter :=
  match table.seek n (13 + table.length) (bits n % table.length) (bits n) with
  | some place => table.set place (some n)
  | none => table

/-- The integers of a table, place after place. -/
def toList (table : Scatter) : List Int := table.filterMap id

/-- A table that is three fifths full becomes one with more than four places for every integer. -/
def grow (table : Scatter) : Scatter :=
  let ns := table.toList
  if (table.length - 1) * 3 ≤ ns.length * 5 then ns.foldl put (List.replicate (4 * ns.length + 1).nextPowerOfTwo none) else table

/-- The table of some integers, put in one after another. -/
def ofList (ns : List Int) : Scatter := ns.foldl (fun table n => (table.put n).grow) empty

end Scatter

/-- Sorts integers by their places in the scatter table of them. -/
def byPlace (ns : List Int) : List Int :=
  let table := Scatter.ofList ns
  sortBy (compareOn fun n => table.idxOf (some n)) ns

end Treebank.Order
