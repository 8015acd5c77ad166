/-!
# Cutting a text at the last occurrence of a character

Names and paths are taken apart at their last separator: the text before it, and the text after
it.  Both views are on lists of characters; `afterLast` is everything when the separator is absent.
-/

namespace Linkage.Text

/-- The characters after the last `c`; all of them when there is no `c`. -/
def afterLast (c : Char) (cs : List Char) : List Char :=
  (cs.reverse.takeWhile (· != c)).reverse

/-- The characters up to and including the last `c`; none when there is no `c`. -/
def throughLast (c : Char) (cs : List Char) : List Char :=
  (cs.reverse.dropWhile (· != c)).reverse

/-- The characters before the last `c`, if there is one. -/
def beforeLast? (c : Char) (cs : List Char) : Option (List Char) :=
  match cs.reverse.dropWhile (· != c) with
  | [] => none
  | _ :: before => some before.reverse

/-- The text with every `a` replaced by `b`. -/
def replaceChar (a b : Char) (s : String) : String :=
  String.ofList (s.toList.map fun c => if c = a then b else c)

/-- Does `s` start with the text `p`? -/
def startsWith (p s : String) : Bool :=
  p.toList.isPrefixOf s.toList

/-- Does `s` end with the text `p`? -/
def endsWith (p s : String) : Bool :=
  p.toList.isSuffixOf s.toList

/-- The two parts of a text around the last occurrence make it up again. -/
theorem throughLast_append_afterLast (c : Char) (cs : List Char) :
    throughLast c cs ++ afterLast c cs = cs := by
  unfold throughLast afterLast
  rw [← List.reverse_append, List.takeWhile_append_dropWhile, List.reverse_reverse]

end Linkage.Text
