namespace LinearInverse.Text

/-- The characters with the Unicode property White_Space. -/
def isBlank (c : Char) : Bool :=
  let n := c.toNat
  (0x09 ≤ n && n ≤ 0x0D) || n == 0x20 || n == 0x85 || n == 0xA0 || n == 0x1680 ||
    (0x2000 ≤ n && n ≤ 0x200A) || n == 0x2028 || n == 0x2029 || n == 0x202F || n == 0x205F ||
    n == 0x3000

/-- The stretches between separators, empty ones too. -/
def splitWhere (p : β → Bool) : List β → List (List β)
  | [] => [[]]
  | b::bs =>
    if p b then [] :: splitWhere p bs
    else match splitWhere p bs with
      | [] => [[b]]
      | s::ss => (b :: s) :: ss

def lines (text : List Char) : List (List Char) :=
  splitWhere (· == '\n') text

def words (text : List Char) : List (List Char) :=
  (splitWhere isBlank text).filter (!·.isEmpty)

end LinearInverse.Text
