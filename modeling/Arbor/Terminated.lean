/-!
Texts handed to the system or reported as errors end at their first NUL. Names may hold one, so such
a text can be shorter than what was put into it.
-/

namespace Arbor

/-- The part of a text before its first NUL. -/
def terminated (text : String) : String :=
  String.ofList (text.toList.takeWhile (· ≠ '\x00'))

theorem terminated_toList (text : String) :
    (terminated text).toList = text.toList.takeWhile (· ≠ '\x00') := by
  simp [terminated]

end Arbor
