import PacketSmith.Program.Operand

/-!
# Calculations

A calculation applies an algorithm, such as a checksum, to a list of operands.
-/

namespace PacketSmith

structure Calculation where
  name : Json
  id : Int
  algo : Json
  input : List Operand

namespace Calculation

def ofJson (v : Json) : Except Fault Calculation := do
  let name ← v.get "name"
  let id ← (← v.get "id").toInt
  let algo ← v.get "algo"
  return ⟨name, id, algo, ← (← (← v.get "input").items).mapM Operand.ofJson⟩

end Calculation

end PacketSmith
