import LuaMachine.Value
import Std.Data.HashMap

/-!
# The hash part of a table

The entries that are not in the array part of a table are nodes in the order in which their keys
arrived.  Clearing an entry leaves its node behind, dead but with its key, so that a traversal which
stands on it can go on.  Dead nodes go away when a new key arrives and they outnumber the live ones.

Up to `HashPart.smallLimit` nodes a key is found by looking through the nodes with raw equality.
From then on an index from keys to positions is kept, which tells keys apart exactly: there, an
integer is never the key that a float is.

* `HashPart.position?`   where the node of a key is;
* `HashPart.get?`        the value of a live key;
* `HashPart.set`         store a value, or clear an entry with nil;
* `HashPart.prependRun`  put a run of consecutive integer keys in front of all nodes;
* `HashPart.take`        remove an entry together with its key;
* `HashPart.firstFrom`   the first live node from a position on.
-/

namespace LuaMachine

structure Node where
  key : Value
  value : Value
deriving DecidableEq, Repr, Inhabited

/-- A node holds an entry unless its value is nil. -/
def Node.live (n : Node) : Bool := !n.value.isNil

/-- Nodes that give values the keys `first`, `first + 1`, … -/
def Node.run (first : Nat) (values : List Value) : List Node :=
  (values.zipIdx first).map fun (v, k) => ⟨Value.count k, v⟩

structure HashPart where
  nodes : Array Node
  /-- How many nodes are live. -/
  live : Nat
  /-- The position of each key, once the nodes are many. -/
  index : Option (Std.HashMap Value Nat)

namespace HashPart

/-- The largest number of nodes that are looked through without an index. -/
def smallLimit : Nat := 8

/-- No entries; room for more than a few is room for an index. -/
def empty (capacity : Nat) : HashPart :=
  { nodes := #[], live := 0, index := if smallLimit < capacity then some {} else none }

instance : Inhabited HashPart := ⟨empty 0⟩

/-- The position of each node's key, erased keys left out. -/
def indexOf (nodes : Array Node) : Std.HashMap Value Nat :=
  (nodes.toList.zipIdx).foldl (fun ix (n, i) => if n.key.isNil then ix else ix.insert n.key i) {}

/-- Where the node of a key is, live or dead. -/
def position? (h : HashPart) (key : Value) : Option Nat :=
  match h.index with
  | some ix => ix[key]?
  | none => h.nodes.findIdx? fun n => n.key.rawEq key

def get? (h : HashPart) (key : Value) : Option Value :=
  ((h.position? key).bind (h.nodes[·]?)).bind fun n => if n.live then some n.value else none

def compact (h : HashPart) : HashPart :=
  let nodes := h.nodes.filter Node.live
  { h with nodes, index := h.index.map fun _ => indexOf nodes }

/-- The index that nodes need when there is none: none for a few, else one of all keys. -/
def firstIndex (nodes : Array Node) : Option (Std.HashMap Value Nat) :=
  if smallLimit < nodes.size then some (indexOf nodes) else none

/-- A node at the end for a key that has none.  The first node past the limit brings the index. -/
def append : HashPart → Value → Value → HashPart
  | ⟨nodes, live, index⟩, key, value =>
    let i := nodes.size
    let nodes := nodes.push ⟨key, value⟩
    let index := match index with
      | some ix => some (ix.insert key i)
      | none => firstIndex nodes
    ⟨nodes, live + 1, index⟩

def isLiveAt (h : HashPart) (i : Nat) : Bool :=
  match h.nodes[i]? with
  | some n => n.live
  | none => false

/-- The part with another value in the node at a position. -/
def replace (h : HashPart) (i : Nat) (value : Value) : HashPart :=
  let wasLive := h.isLiveAt i
  match h with
  | ⟨nodes, live, index⟩ =>
    let live := match wasLive, value.isNil with
      | true, true => live - 1
      | false, false => live + 1
      | _, _ => live
    ⟨nodes.modify i ({ · with value }), live, index⟩

/-- Store a value under a key.  Nil clears the entry and leaves its node; a new key goes to the end,
after the dead nodes have been dropped if they are the majority. -/
def set (h : HashPart) (key value : Value) : HashPart :=
  match h.position? key with
  | some i => h.replace i value
  | none =>
    if value.isNil then h
    else if h.live < h.nodes.size - h.live then h.compact.append key value
    else h.append key value

def prependRun (h : HashPart) (first : Nat) (values : List Value) : HashPart :=
  if values.isEmpty then h
  else
    let nodes := (Node.run first values).toArray ++ h.nodes
    let index := if h.index.isSome then some (indexOf nodes) else firstIndex nodes
    ⟨nodes, h.live + values.length, index⟩

/-- Remove the entry of a key and erase the key from its node.  The value is nil if there was no
live entry. -/
def take (h : HashPart) (key : Value) : Value × HashPart :=
  match h.position? key with
  | none => (.nil, h)
  | some i =>
    let value := match h.nodes[i]? with
      | some n => n.value
      | none => .nil
    match h with
    | ⟨nodes, live, index⟩ =>
      (value,
        { nodes := nodes.setIfInBounds i ⟨.nil, .nil⟩
          live := if value.isNil then live else live - 1
          index := index.map (·.erase key) })

def firstLive (nodes : Array Node) (i : Nat) : Nat → Option Node
  | 0 => none
  | n + 1 =>
    match nodes[i]? with
    | some node => if node.live then some node else firstLive nodes (i + 1) n
    | none => none

/-- The first live node at a position from `i` on. -/
def firstFrom (h : HashPart) (i : Nat) : Option Node := firstLive h.nodes i (h.nodes.size - i)

end HashPart

end LuaMachine
