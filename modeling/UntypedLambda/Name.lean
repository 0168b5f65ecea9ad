import UntypedLambda.Text.Quoted

namespace UntypedLambda

structure Name where
  text : String
  deriving DecidableEq, Hashable, Repr

def isIdentifierChar (c : Char) : Bool :=
  c.isAlphanum || c == '_'

def isIdentifier (s : String) : Bool :=
  !s.isEmpty && s.toList.all isIdentifierChar

namespace Name

def empty : Name := ⟨""⟩

def isIdentifier (n : Name) : Bool :=
  UntypedLambda.isIdentifier n.text

def numbered (n : Name) (number : Nat) : Name :=
  ⟨n.text ++ toString number⟩

def quoted (n : Name) : String :=
  "Name(" ++ Text.quoted n.text ++ ")"

end Name

end UntypedLambda
