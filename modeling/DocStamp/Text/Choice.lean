/-
Naming what could have stood in the place of something unknown.
-/

namespace DocStamp.Text

/-- The expected names: one, two, or one of many. -/
def oneOf : List String → String
  | [] => "there are no fields"
  | [a] => s!"expected `{a}`"
  | [a, b] => s!"expected `{a}` or `{b}`"
  | names => "expected one of " ++ ", ".intercalate (names.map fun n => s!"`{n}`")

end DocStamp.Text
