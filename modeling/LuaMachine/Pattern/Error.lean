/-!
# What can be wrong with a pattern

`PatternError` names every way in which a pattern or a replacement template fails;
`PatternError.message` is its wording.
-/

namespace LuaMachine

inductive PatternError where
  /-- The pattern ends in an escape sign. -/
  | endsInEscape
  /-- A balance item lacks one of its two delimiters. -/
  | missingDelimiters
  /-- A frontier item is not followed by a set. -/
  | missingFrontierSet
  /-- A set has no closing bracket. -/
  | unclosedSet
  /-- A closing parenthesis with no open capture. -/
  | invalidCapture
  /-- A back reference to a capture that is not closed, or is no capture at all. -/
  | invalidIndex (n : Nat)
  /-- More captures than there are slots. -/
  | tooManyCaptures
  /-- The search nests too deep. -/
  | tooComplex
  /-- A match that ends inside an open capture. -/
  | unfinishedCapture
  /-- A template refers to a capture that the match does not have. -/
  | invalidTemplateIndex (n : Nat)
  /-- An escape sign in a template before neither a digit nor an escape sign. -/
  | invalidTemplateEscape
deriving DecidableEq, Repr

def PatternError.message : PatternError → String
  | .endsInEscape => "malformed pattern (ends with '%')"
  | .missingDelimiters => "malformed pattern (missing arguments to '%b')"
  | .missingFrontierSet => "missing '[' after '%f' in pattern"
  | .unclosedSet => "malformed pattern (missing ']')"
  | .invalidCapture => "invalid pattern capture"
  | .invalidIndex n => "invalid capture index %" ++ n.repr
  | .tooManyCaptures => "too many captures"
  | .tooComplex => "pattern too complex"
  | .unfinishedCapture => "unfinished capture"
  | .invalidTemplateIndex n => "invalid capture index %" ++ n.repr ++ " in replacement string"
  | .invalidTemplateEscape => "invalid use of '%' in replacement string"

end LuaMachine
