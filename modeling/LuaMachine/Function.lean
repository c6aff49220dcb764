import LuaMachine.Pattern.Search
import LuaMachine.Script.Expr

/-!
# Functions

A function of the machine is a library function, a script, the resuming side of a wrapped coroutine,
or an iterator over the matches of a pattern.
-/

namespace LuaMachine

/-- The functions of the libraries, and the step of `ipairs`. -/
inductive Builtin where
  | type | tostring | tonumber | pairs | ipairs | rawget | rawset | rawequal | rawlen
  | setmetatable | getmetatable | select | error | pcall | assert | collectgarbage | next
  | byte | char | len | lower | upper | rep | reverse | sub | find | match | gsub | gmatch
  | concat | insert | remove | pack | unpack | sort
  | resume | yield | status | running | isyieldable | create | wrap
  | ipairsStep
deriving DecidableEq, Repr

def Builtin.name : Builtin → String
  | .type => "type"
  | .tostring => "tostring"
  | .tonumber => "tonumber"
  | .pairs => "pairs"
  | .ipairs => "ipairs"
  | .rawget => "rawget"
  | .rawset => "rawset"
  | .rawequal => "rawequal"
  | .rawlen => "rawlen"
  | .setmetatable => "setmetatable"
  | .getmetatable => "getmetatable"
  | .select => "select"
  | .error => "error"
  | .pcall => "pcall"
  | .assert => "assert"
  | .collectgarbage => "collectgarbage"
  | .next => "next"
  | .byte => "byte"
  | .char => "char"
  | .len => "len"
  | .lower => "lower"
  | .upper => "upper"
  | .rep => "rep"
  | .reverse => "reverse"
  | .sub => "sub"
  | .find => "find"
  | .match => "match"
  | .gsub => "gsub"
  | .gmatch => "gmatch"
  | .concat => "concat"
  | .insert => "insert"
  | .remove => "remove"
  | .pack => "pack"
  | .unpack => "unpack"
  | .sort => "sort"
  | .resume => "resume"
  | .yield => "yield"
  | .status => "status"
  | .running => "running"
  | .isyieldable => "isyieldable"
  | .create => "create"
  | .wrap => "wrap"
  | .ipairsStep => "ipairs_aux"

inductive Function where
  | builtin (b : Builtin)
  | script (body : List Expr)
  /-- Resumes a coroutine and fails where it fails. -/
  | wrapper (c : ThreadId)
  /-- Gives the next match of a pattern in a subject at each call. -/
  | matches (subject pattern : Bytes) (cursor : Cursor)
deriving Inhabited

def Function.name : Function → String
  | .builtin b => b.name
  | .script _ => "fn"
  | .wrapper _ => "wrap"
  | .matches _ _ _ => "gmatch_iterator"

end LuaMachine
