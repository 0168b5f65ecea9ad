import Std.Data.HashMap
import UntypedLambda.Name

namespace UntypedLambda

/-- Move digits one by one from the end of a text to the front of `number`, the next one being worth
`unit` times its value, as long as `unit` is at most `bound`; `before` is the text that is left, the
last character first.  A number has no leading zeros, and some text stays in front of it. -/
def Name.numberingsFrom (bound : Nat) : List Char → Nat → Nat → List (Name × Nat)
  | c :: before, number, unit =>
    if c.isDigit && !before.isEmpty && unit ≤ bound then
      let number := (c.toNat - '0'.toNat) * unit + number
      let others := numberingsFrom bound before number (10 * unit)
      if c != '0' || unit == 1 then
        (⟨String.ofList before.reverse⟩, number) :: others
      else others
    else []
  | [], _, _ => []

/-- The ways to read a name as another one, not empty, with a number behind it: `x10` is `x` with
10 and `x1` with 0.  Every way with a number up to `bound` is among them. -/
def Name.numberings (n : Name) (bound : Nat) : List (Name × Nat) :=
  numberingsFrom bound n.text.toList.reverse 0 1

/-- The names in use, each with the number of its users, and for some names a number such that
all smaller ones behind that name are in use. -/
structure NamePool where
  users : Std.HashMap Name Nat := ∅
  hints : Std.HashMap Name Nat := ∅

namespace NamePool

def isTaken (pool : NamePool) (n : Name) : Bool :=
  pool.users.contains n

def occupy (pool : NamePool) (n : Name) : NamePool :=
  { pool with users := pool.users.insert n (pool.users.getD n 0 + 1) }

def firstFree (pool : NamePool) (base : Name) : Nat → Nat → Nat
  | 0, number => number
  | tries + 1, number =>
    if pool.isTaken (base.numbered number) then pool.firstFree base tries (number + 1)
    else number

/-- Draw a free name made from `base`.  As many tries as there are names in use are enough. -/
def draw (pool : NamePool) (base : Name) : Name × NamePool :=
  if pool.isTaken base then
    let number := pool.firstFree base pool.users.size (pool.hints.getD base 0)
    let name := base.numbered number
    (name, { pool with hints := pool.hints.insert base (number + 1) }.occupy name)
  else
    (base, pool.occupy base)

def lowerHint (hints : Std.HashMap Name Nat) (freed : Name × Nat) : Std.HashMap Name Nat :=
  match hints[freed.1]? with
  | some hint => hints.insert freed.1 (min hint freed.2)
  | none => hints

def putBack (pool : NamePool) (n : Name) : NamePool :=
  match pool.users[n]? with
  | none => pool
  | some count =>
    if 1 < count then { pool with users := pool.users.insert n (count - 1) }
    else
      -- A search may have skipped this name.  The numbers below a hint are all in use, so there are
      -- not more of them than names in use, and a greater number lowers no hint.
      { users := pool.users.erase n
        hints := (n.numberings pool.users.size).foldl lowerHint pool.hints }

end NamePool

end UntypedLambda
