namespace UntypedLambda

/-- Bits packed into words of 64.  The bits of the last word that are not in use are zero. -/
structure BitString where
  words : Array UInt64 := #[]
  length : Nat := 0
  deriving DecidableEq, Repr

namespace BitString

def empty : BitString := {}

def isEmpty (s : BitString) : Bool :=
  s.length == 0

def push (s : BitString) (bit : Bool) : BitString :=
  let offset := s.length % 64
  let words := if offset = 0 then s.words.push 0 else s.words
  { words := if bit then words.modify (words.size - 1) (· ||| 1 <<< offset.toUInt64) else words
    length := s.length + 1 }

def get? (s : BitString) (i : Nat) : Option Bool :=
  if i < s.length then
    s.words[i / 64]?.map fun word => word &&& 1 <<< (i % 64).toUInt64 != 0
  else
    none

def append (s : BitString) (bits : List Bool) : BitString :=
  bits.foldl push s

def ofList (bits : List Bool) : BitString :=
  empty.append bits

def toList (s : BitString) : List Bool :=
  (List.range s.length).filterMap s.get?

def digits (s : BitString) : String :=
  String.ofList (s.toList.map fun bit => if bit then '1' else '0')

def text (s : BitString) : String :=
  "BitString(" ++ s.digits ++ ")"

@[simp] theorem length_push (s : BitString) (bit : Bool) :
    (s.push bit).length = s.length + 1 := rfl

end BitString

end UntypedLambda
