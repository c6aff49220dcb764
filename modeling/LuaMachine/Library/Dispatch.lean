import LuaMachine.Library.Base
import LuaMachine.Library.Coroutines
import LuaMachine.Library.Sequence
import LuaMachine.Library.Text

/-!
# What the library functions do

`Builtin.run` gives each library function its action.
-/

namespace LuaMachine

open Library

def Builtin.run (b : Builtin) (vs : List Value) : Action (List Value) :=
  match b with
  | .type => Action.ofExcept (Base.type vs)
  | .tostring => Base.tostring vs
  | .tonumber => Action.ofExcept (Base.tonumber vs)
  | .pairs => Base.pairs vs
  | .ipairs => Base.ipairs vs
  | .rawget => Base.rawget vs
  | .rawset => Base.rawset vs
  | .rawequal => Action.ofExcept (Base.rawequal vs)
  | .rawlen => Base.rawlen vs
  | .setmetatable => Base.setmetatable vs
  | .getmetatable => Base.getmetatable vs
  | .select => Action.ofExcept (Base.select vs)
  | .error => Action.ofExcept (Base.error vs)
  | .pcall => Base.pcall vs
  | .assert => Action.ofExcept (Base.assert vs)
  | .collectgarbage => Action.ofExcept (Base.collectgarbage vs)
  | .next => Base.next vs
  | .byte => Action.ofExcept (Text.byte vs)
  | .char => Action.ofExcept (Text.char vs)
  | .len => Action.ofExcept (Text.len vs)
  | .lower => Action.ofExcept (Text.lower vs)
  | .upper => Action.ofExcept (Text.upper vs)
  | .rep => Action.ofExcept (Text.rep vs)
  | .reverse => Action.ofExcept (Text.reverse vs)
  | .sub => Action.ofExcept (Text.sub vs)
  | .find => Action.ofExcept (Text.find vs)
  | .match => Action.ofExcept (Text.matching vs)
  | .gsub => Text.gsub vs
  | .gmatch => Text.gmatch vs
  | .concat => Sequence.concat vs
  | .insert => Sequence.insert vs
  | .remove => Sequence.remove vs
  | .pack => Sequence.pack vs
  | .unpack => Sequence.unpack vs
  | .sort => Sequence.sort vs
  | .resume => Coroutines.resume vs
  | .yield => Coroutines.yield vs
  | .status => Coroutines.status vs
  | .running => Coroutines.running vs
  | .isyieldable => Coroutines.isyieldable vs
  | .create => Coroutines.create vs
  | .wrap => Coroutines.wrap vs
  | .ipairsStep => Action.ipairsStep vs

end LuaMachine
