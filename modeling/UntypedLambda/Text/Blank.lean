namespace UntypedLambda.Text

/-- The characters with the Unicode property `White_Space`. -/
def isBlank (c : Char) : Bool :=
  let n := c.toNat
  (0x09 ≤ n && n ≤ 0x0D) || n == 0x20 || n == 0x85 || n == 0xA0 || n == 0x1680 ||
    (0x2000 ≤ n && n ≤ 0x200A) || n == 0x2028 || n == 0x2029 || n == 0x202F || n == 0x205F ||
    n == 0x3000

def trim (cs : List Char) : List Char :=
  ((cs.dropWhile isBlank).reverse.dropWhile isBlank).reverse

def spanWhile (wanted : Char → Bool) (cs : List Char) : List Char × List Char :=
  (cs.takeWhile wanted, cs.dropWhile wanted)

def cutAt (mark : Char) (cs : List Char) : List Char × List Char :=
  (cs.takeWhile (· != mark), (cs.dropWhile (· != mark)).tail)

def wordsOnto : List Char → List Char → List (List Char) → List (List Char)
  | [], word, done => if word.isEmpty then done else word.reverse :: done
  | c :: cs, word, done =>
    if isBlank c then wordsOnto cs [] (if word.isEmpty then done else word.reverse :: done)
    else wordsOnto cs (c :: word) done

def words (cs : List Char) : List (List Char) :=
  (wordsOnto cs [] []).reverse

/-- A cut at a mark that occurs loses the mark and nothing else. -/
theorem cutAt_append {mark : Char} {before after : List Char} (h : mark ∉ before) :
    cutAt mark (before ++ mark :: after) = (before, after) := by
  have hb : ∀ c ∈ before, (c != mark) = true := fun c hc => by
    simpa using fun he : c = mark => h (he ▸ hc)
  simp [cutAt, List.takeWhile_append_of_pos hb, List.dropWhile_append_of_pos hb]

end UntypedLambda.Text
