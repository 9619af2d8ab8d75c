import Mathlib.Logic.Function.Basic
import Mathlib.Data.BitVec

namespace Mymuduo

/-- The part of the server that keeps its map. A connection goes by the number of
connections accepted before it; `names` are the names of all of them, and `opened`
those of the connections that have not been removed. -/
structure ConnectionMap where
  name_ : String
  ipPort_ : String
  nextConnId_ : BitVec 32
  connections_ : String → Option ℕ
  accepted : ℕ
  names : ℕ → String
  opened : ℕ → Option String

namespace ConnectionMap

inductive Act
  | newConnection
  | removeConnectionInLoop (conn : ℕ)

def ofServer (name ipPort : String) : ConnectionMap :=
  { name_ := name, ipPort_ := ipPort, nextConnId_ := 1, connections_ := fun _ ↦ none, accepted := 0
    names := fun _ ↦ "", opened := fun _ ↦ none }

variable (m : ConnectionMap)

def connName (id : BitVec 32) : String :=
  m.name_ ++ "-" ++ m.ipPort_ ++ "#" ++ toString id.toInt

def newConnection : ConnectionMap :=
  let connName := m.connName m.nextConnId_
  { m with
    nextConnId_ := m.nextConnId_ + 1
    connections_ := Function.update m.connections_ connName (some m.accepted)
    accepted := m.accepted + 1
    names := Function.update m.names m.accepted connName
    opened := Function.update m.opened m.accepted (some connName) }

def removeConnectionInLoop (conn : ℕ) : ConnectionMap :=
  { m with
    connections_ := Function.update m.connections_ (m.names conn) none
    opened := Function.update m.opened conn none }

def step (m : ConnectionMap) : Act → Option ConnectionMap
  | .newConnection => some m.newConnection
  | .removeConnectionInLoop conn =>
    if conn < m.accepted then some (m.removeConnectionInLoop conn) else none

end ConnectionMap

end Mymuduo
