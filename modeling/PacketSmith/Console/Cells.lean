import PacketSmith.Console.Dialog
import PacketSmith.Text.Real

/-!
# Commands for meters, counters and registers

Meters, counters and registers are arrays of cells that the switch updates. A meter or a counter may belong to a
table, and then has a cell for each of its entries.
-/

namespace PacketSmith.Console.Dialog

def meter : String → Dialog MeterInfo := resource Catalog.meter? .meter

def counter : String → Dialog CounterInfo := resource Catalog.counter? .counter

def register : String → Dialog RegisterInfo := resource Catalog.register? .register

def index (s : String) : Dialog Int := handle "index" s

/-! ## Meters -/

def shownNumber (v : Json) : Except Fault Int :=
  match v with
  | .str _ => .error .wrongKind
  | v => v.toInt

def rate? (s : String) : Option (Float × Int) :=
  match Text.split ":" s with
  | [r, b] => do return (← Text.real? r, ← Text.int? b)
  | _ => none

def rates (m : MeterInfo) (texts : List String) : Dialog (List (Float × Int)) := do
  if m.rates.number? ≠ some (texts.length : Int) then
    let expected ← part (shownNumber m.rates)
    refuse s!"Invalid number of rates, expected {expected} but got {texts.length}"
  match texts.mapM rate? with
  | some rs => return rs
  | none => refuse "Error while parsing rates"

def setArrayRates : Handler := takingMore 1 fun args => do
  let m ← meter (← argument args 0)
  let rs ← rates m (args.drop 1)
  order "bm_meter_array_set_rates" [.text m.name, .rates rs]

def setRates : Handler := takingMore 2 fun args => do
  let m ← meter (← argument args 0)
  let i ← index (← argument args 1)
  let rs ← rates m (args.drop 2)
  if m.direct then order "bm_mt_set_meter_rates" [.json m.binding, .int i, .rates rs]
  else order "bm_meter_set_rates" [.text m.name, .int i, .rates rs]

def sayRates : Nat → List Reply → Dialog Unit
  | _, [] => pure ()
  | i, r :: rest => do
    let units ← part (r.part "units_per_micros")
    let burst ← part (r.part "burst_size")
    say s!"{i}: info rate = {units.display}, burst size = {burst.display}"
    sayRates (i + 1) rest

def getRates : Handler := on meter 2 fun m args => do
  let i ← index (← argument args 1)
  let found ← if m.direct then request "bm_mt_get_meter_rates" [.json m.binding, .int i]
    else request "bm_meter_get_rates" [.text m.name, .int i]
  let rs ← part found.items
  if m.rates.number? ≠ some (rs.length : Int) then
    say s!"WARNING: expected {m.rates.display} rates but only received {rs.length}"
  sayRates 0 rs
  return .null

/-! ## Counters -/

def readCounter : Handler := taking 2 fun args => do
  let name ← argument args 0
  let c ← counter name
  let i ← index (← argument args 1)
  let value ← if c.direct.truth then do
      say ("this is the direct counter for table " ++ c.binding.display)
      request "bm_mt_read_counter" [.json c.binding, .int i]
    else request "bm_counter_read" [.text c.name, .int i]
  let bytes ← part (value.part "bytes")
  let packets ← part (value.part "packets")
  let bytes ← part bytes.toInt
  let packets ← part packets.toInt
  say s!"{name}[{i}]= ({bytes} bytes, {packets} packets)"
  return value

def writeCounter : Handler := taking 4 fun args => do
  let name ← argument args 0
  let c ← counter name
  let i ← index (← argument args 1)
  let packets ← handle "packets" (← argument args 2)
  let bytes ← handle "bytes" (← argument args 3)
  if c.direct.truth then
    say ("writing to direct counter for table " ++ c.binding.display)
    let _ ← request "bm_mt_write_counter" [.json c.binding, .int i, .count bytes packets]
  else
    let _ ← request "bm_counter_write" [.text name, .int i, .count bytes packets]
  say s!"{name}[{i}] has been updated"
  return .null

def resetCounter : Handler := on counter 1 fun c _ => do
  if c.direct.truth then
    say ("this is the direct counter for table " ++ c.binding.display)
    order "bm_mt_reset_counters" [.json c.binding]
  else order "bm_counter_reset_all" [.text c.name]

/-! ## Registers -/

def readRegister : Handler := takingMore 1 fun args => do
  let name ← argument args 0
  let r ← register name
  if args.length > 1 then
    exactly args 2
    let i ← index (← argument args 1)
    let value ← request "bm_register_read" [.text r.name, .int i]
    say s!"{name}[{i}]= {value.display}"
  else
    warn "register index omitted, reading entire array"
    let values ← request "bm_register_read_all" [.text r.name]
    let shown := (← part values.items).map Reply.display
    say (name ++ "= " ++ ", ".intercalate shown)
  return .null

def writeRegister : Handler := on register 3 fun r args => do
  let i ← index (← argument args 1)
  let value ← integer (← argument args 2) "Bad format for value, must be an integer"
  order "bm_register_write" [.text r.name, .int i, .int value]

def resetRegister : Handler := on register 1 fun r _ => do
  order "bm_register_reset" [.text r.name]

end PacketSmith.Console.Dialog
