import LuaMachine.Pattern.Search

/-!
# Replacement templates

In a template `%0` stands for the whole match, `%1` to `%9` for a capture (`%1` for the whole match
if the pattern has none), and `%%` for a percent sign.

* `Template.expand`      the replacement that a template gives for a match;
* `Pattern.substitute`   a substitution by a template.
-/

namespace LuaMachine

/-- The capture with a number counted from zero; a match without captures has itself as number
zero. -/
def Match.capture? (m : Match) (n : Nat) : Option Captured :=
  if m.captures.isEmpty && n == 0 then some (.span m.start m.stop) else m.captures[n]?

/-- The text of a capture; a position is written in decimal. -/
def Captured.text (s : Bytes) : Captured → Bytes
  | .span i j => s.slice i j
  | .position n => Bytes.ofNat n

namespace Template

/-- What the byte after a percent sign stands for. -/
def expandEscape (s : Bytes) (m : Match) (d : UInt8) : Except PatternError Bytes :=
  if d == 0x25 then .ok #[0x25]
  else if d == 0x30 then .ok (m.whole s)
  else if Bytes.isDigit d then
    let n := d.toNat - 0x30
    match m.capture? (n - 1) with
    | some c => .ok (c.text s)
    | none => .error (.invalidTemplateIndex n)
  else .error .invalidTemplateEscape

def expandList (s : Bytes) (m : Match) : List UInt8 → Except PatternError (List UInt8)
  | [] => .ok []
  | [0x25] => .error .invalidTemplateEscape
  | 0x25 :: d :: rest => do
    let piece ← expandEscape s m d
    return piece.toList ++ (← expandList s m rest)
  | b :: rest => do return b :: (← expandList s m rest)

/-- The replacement that a template gives for a match. -/
def expand (template s : Bytes) (m : Match) : Except PatternError Bytes :=
  (expandList s m template.toList).map List.toArray

end Template

namespace Pattern

/-- A function of the match that also notes the matches it is asked about, the last one first. -/
def noting (replace : Match → Except PatternError (Option Bytes)) (m : Match) :
    StateT (List Match) (Except PatternError) (Option Bytes) :=
  fun met => (replace m).map fun r => (r, m :: met)

/-- A substitution by a function of the match, which may fail or keep the match.  The result is the
new text and the matches that the function was asked about. -/
def substitute (s p : Bytes) (limit : Option Nat)
    (replace : Match → Except PatternError (Option Bytes)) :
    Except PatternError (Bytes × List Match) := do
  let ((text, _), met) ← (substituteBy (fun e _ => .error e) (noting replace) s p limit).run []
  return (text, met.reverse)

end Pattern

end LuaMachine
