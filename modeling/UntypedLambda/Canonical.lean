import Std.Data.HashMap
import UntypedLambda.BitString
import UntypedLambda.Binder

/-! A bound variable becomes the number of abstractions between it and its own, so terms with the
same canonical form differ only in the choice of their binders. -/
namespace UntypedLambda

inductive CanonicalToken where
  | app
  | lam
  /-- A variable, as the number of abstractions between it and the one that binds it. -/
  | bound (index : Nat)
  | free (binder : Binder)
  deriving DecidableEq, Repr

def CanonicalToken.text : CanonicalToken → String
  | app => "A"
  | lam => "F"
  | bound index => toString index
  | free binder => binder.text

def CanonicalToken.free? : CanonicalToken → Option Binder
  | free b => some b
  | app => none
  | lam => none
  | bound _ => none

/-- Where a walk through a term stands: how many abstractions are open, the depth at which each
binder in scope was introduced, and for each open abstraction, innermost first, its binder with
the entry that it hides. -/
structure CanonicalWalk where
  depth : Nat := 0
  introduced : Std.HashMap Binder Nat := ∅
  hidden : List (Binder × Option Nat) := []

namespace CanonicalWalk

def token (w : CanonicalWalk) (b : Binder) : CanonicalToken :=
  match w.introduced[b]? with
  | some depth => .bound (w.depth - depth - 1)
  | none => .free b

def enter (w : CanonicalWalk) (b : Binder) : CanonicalWalk :=
  let entry := w.introduced[b]?
  { depth := w.depth + 1
    introduced := w.introduced.insert b w.depth
    hidden := (b, entry) :: w.hidden }

def leave (w : CanonicalWalk) : CanonicalWalk :=
  match w.hidden with
  | [] => w
  | (b, entry) :: outer =>
    { depth := w.depth - 1
      introduced :=
        match entry with
        | some depth => w.introduced.insert b depth
        | none => w.introduced.erase b
      hidden := outer }

theorem introduced_leave {w : CanonicalWalk} {b : Binder} {entry : Option Nat}
    {outer : List (Binder × Option Nat)} (h : w.hidden = (b, entry) :: outer) (c : Binder) :
    w.leave.introduced[c]? = if b = c then entry else w.introduced[c]? := by
  rw [leave, h]
  cases entry with
  | none => simp [Std.HashMap.getElem?_erase]
  | some depth => simp [Std.HashMap.getElem?_insert]

def next (w : CanonicalWalk) : Event Binder → CanonicalWalk × Option CanonicalToken
  | .var b => (w, some (w.token b))
  | .openApp => (w, some .app)
  | .closeApp => (w, none)
  | .openLam b => (w.enter b, some .lam)
  | .closeLam => (w.leave, none)

def run : CanonicalWalk → List (Event Binder) → List CanonicalToken →
    CanonicalWalk × List CanonicalToken
  | w, [], done => (w, done)
  | w, e :: events, done =>
    let (w', token) := w.next e
    w'.run events (token.toList ++ done)

end CanonicalWalk

namespace BoundTerm

def canonical (t : BoundTerm) : List CanonicalToken :=
  (CanonicalWalk.run {} t.events []).2.reverse

def canonicalText (t : BoundTerm) : String :=
  " ".intercalate (t.canonical.map CanonicalToken.text)

def alphaEquiv (t s : BoundTerm) : Bool :=
  t.canonical == s.canonical

def isClosed (t : BoundTerm) : Bool :=
  t.canonical.all fun token => token.free?.isNone

end BoundTerm

def Fingerprint.mix (state word : UInt64) : UInt64 :=
  (state + word) * 0xf1357aea2e62a9c5

def Name.word (n : Name) : UInt64 :=
  n.text.toList.foldl (fun state c => Fingerprint.mix state c.val.toUInt64) 0

def CanonicalToken.words : CanonicalToken → List UInt64
  | app => [0]
  | lam => [1]
  | bound index => [2, index.toUInt64]
  | free binder => [3, binder.serial.toUInt64, binder.name.word]

/-- Terms with different numbers are not alpha-equivalent.  The number is the Fx hash of the canonical
form for closed terms only: the name of a free binder is mixed in by its text, and not by an index
that it was interned under. -/
def BoundTerm.fingerprint (t : BoundTerm) : UInt64 :=
  let state := t.canonical.foldl (fun state token => token.words.foldl Fingerprint.mix state) 0
  state <<< 26 ||| state >>> 38

/-- Terms that are alpha-equivalent have the same fingerprint. -/
theorem BoundTerm.fingerprint_eq_of_alphaEquiv {t s : BoundTerm} (h : t.alphaEquiv s = true) :
    t.fingerprint = s.fingerprint := by
  have hcanonical : t.canonical = s.canonical := by simpa [alphaEquiv] using h
  rw [fingerprint, fingerprint, hcanonical]

/-- Write the code of one token: `00` for an abstraction, `01` for an application, and for a
variable one `1` per abstraction up to the one that binds it and a `0`. -/
def CanonicalToken.bits? : CanonicalToken → Option (List Bool)
  | lam => some [false, false]
  | app => some [false, true]
  | bound index => some (List.replicate (index + 1) true ++ [false])
  | free _ => none

def BitString.appendTokens? : BitString → List CanonicalToken → Option BitString
  | s, [] => some s
  | s, token :: tokens =>
    match token.bits? with
    | some bits => (s.append bits).appendTokens? tokens
    | none => none

def BoundTerm.bits? (t : BoundTerm) : Option BitString :=
  BitString.empty.appendTokens? t.canonical

end UntypedLambda
