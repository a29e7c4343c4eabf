/-
Literal search and replacement in a text.

Occurrences are taken from the left and do not overlap; the inserted
text is never searched again.  An empty pattern occurs before every
character and at the end.
-/

namespace DocStamp.Text

/-- Replaces every occurrence of `pattern` by `insert`, from the left. -/
def replaceChars (pattern insert : List Char) : List Char → List Char
  | [] => if pattern.isEmpty then insert else []
  | c :: cs =>
      if pattern.isEmpty then insert ++ c :: replaceChars pattern insert cs
      else if pattern.isPrefixOf (c :: cs) then
        insert ++ replaceChars pattern insert (cs.drop (pattern.length - 1))
      else c :: replaceChars pattern insert cs
termination_by s => s.length
decreasing_by all_goals simp only [List.length_drop, List.length_cons]; omega

/-- `replaceChars` on texts. -/
def replace (pattern insert s : String) : String :=
  String.ofList (replaceChars pattern.toList insert.toList s.toList)

/-- Does the pattern occur somewhere in the text? -/
def occursIn (pattern : List Char) : List Char → Bool
  | [] => pattern.isEmpty
  | c :: cs => pattern.isPrefixOf (c :: cs) || occursIn pattern cs

/-- The text before a final `ending`, if the text ends so. -/
def dropEnding? (ending s : String) : Option String :=
  let cs := s.toList
  let es := ending.toList
  if es.isSuffixOf cs then some (String.ofList (cs.take (cs.length - es.length))) else none

end DocStamp.Text
