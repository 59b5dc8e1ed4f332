import PacketSmith.Console.Dialog
import PacketSmith.Json.Reader

/-!
# Commands for multicast

A multicast group has nodes. A node sends copies to a set of ports and, if the replication engine has link
aggregation, to a set of aggregated links.
-/

namespace PacketSmith.Console.Dialog

def checkReplicator : Dialog Unit := do
  if (← read).replicator = .absent then
    refuse "Cannot execute this command without packet replication engine"

def multicast (m : List String → Dialog Reply) (line : String) : Dialog Reply := mindedMulticast do
  checkReplicator
  m (Text.words line)

def groupNumber (s : String) : Dialog Int := handle "multicast group id" s

def nodeHandle (s : String) : Dialog Int := handle "node handle" s

def createMulticast : Handler := multicast fun args => do
  exactly args 1
  let group ← groupNumber (← argument args 0)
  say s!"Creating multicast group {group}"
  let reply ← request "bm_mc_mgrp_create" [.int group]
  if reply.number? = some group then return .null else throw (.fault .violated)

def destroyMulticast : Handler := multicast fun args => do
  exactly args 1
  let group ← groupNumber (← argument args 0)
  say s!"Destroying multicast group {group}"
  order "bm_mc_mgrp_destroy" [.int group]

/-- The sets of ports and of aggregated links after the first argument, with a bar between them.
There is no second set without link aggregation. -/
def portsAndLags (args : List String) : Dialog (String × Option String) := do
  let rest := args.drop 1
  let ports := rest.takeWhile (· != "|")
  let shown ← told (portMap "port" ports)
  if (← read).replicator = .lags then
    let lags ← told (portMap "lag" (rest.drop (ports.length + 1)))
    return (shown, some lags)
  else return (shown, none)

def createNode : Handler := multicast fun args => do
  atLeast args 1
  let rid ← handle "rid" (← argument args 0)
  let node ← match ← portsAndLags args with
    | (ports, none) => do
      say s!"Creating node with rid {rid} and with port map {ports}"
      request "bm_mc_node_create" [.int rid, .text ports]
    | (ports, some lags) => do
      say s!"Creating node with rid {rid} , port map {ports} and lag map {lags}"
      request "bm_mc_node_create" [.int rid, .text ports, .text lags]
  say ("node was created with handle " ++ node.display)
  return node

def updateNode : Handler := multicast fun args => do
  atLeast args 2
  let node ← nodeHandle (← argument args 0)
  match ← portsAndLags args with
  | (ports, none) =>
    say s!"Updating node {node} with port map {ports}"
    order "bm_mc_node_update" [.int node, .text ports]
  | (ports, some lags) =>
    say s!"Updating node {node} with port map {ports} and lag map {lags}"
    order "bm_mc_node_update" [.int node, .text ports, .text lags]

def associateNode : Handler := multicast fun args => do
  exactly args 2
  let group ← groupNumber (← argument args 0)
  let node ← nodeHandle (← argument args 1)
  say s!"Associating node {node} to multicast group {group}"
  order "bm_mc_node_associate" [.int group, .int node]

def dissociateNode : Handler := multicast fun args => do
  exactly args 2
  let group ← groupNumber (← argument args 0)
  let node ← nodeHandle (← argument args 1)
  say s!"Dissociating node {node} from multicast group {group}"
  order "bm_mc_node_dissociate" [.int group, .int node]

def destroyNode : Handler := multicast fun args => do
  exactly args 1
  match Text.int? (← argument args 0) with
  | none => throw (.fault .malformed)
  | some node =>
    say s!"Destroying node {node}"
    order "bm_mc_node_destroy" [.int node]

def setLag : Handler := multicast fun args => do
  if (← read).replicator ≠ .lags then
    refuse "Cannot execute this command with this type of PRE, SimplePreLAG is required"
  atLeast args 2
  let lag ← handle "lag index" (← argument args 0)
  let ports ← told (portMap "lag" (args.drop 1))
  say s!"Setting lag membership: {lag} <- {ports}"
  order "bm_mc_set_lag_membership" [.int lag, .text ports]

/-! ## Listing -/

def listed (v : Json) : Except Fault String := do
  return ", ".intercalate ((← v.items).map Json.display)

def handleTable (v : Json) (name first second : String) : Except Fault (Dict Label (Json × Json)) := do
  (← (← v.get name).items).foldlM (fun d h => do
    let key ← h.get "handle"
    let parts := (← h.get first, ← h.get second)
    return d.insert (← key.key) parts) {}

def handleEntry (d : Dict Label (Json × Json)) (v : Json) : Except Fault (Json × Json) := do
  let l ← v.key
  match d.get? l with
  | some found => return found
  | none => throw (.missing l)

def sayNodes (l1 l2 : Dict Label (Json × Json)) : Option Json → List Json → Dialog (Option Json)
  | last, [] => return last
  | _, node :: rest => do
    let (rid, below) ← part (handleEntry l1 node)
    put ("  -> (L1h=" ++ node.display ++ ", rid=" ++ rid.display ++ ") ")
    let (ports, lags) ← part (handleEntry l2 below)
    let shownPorts ← part (listed ports)
    let shownLags ← part (listed lags)
    say s!"-> (ports=[{shownPorts}], lags=[{shownLags}])"
    sayNodes l1 l2 (some ports) rest

def sayGroups (l1 l2 : Dict Label (Json × Json)) : Option Json → List Json → Dialog (Option Json)
  | last, [] => return last
  | last, group :: rest => do
    say "**********"
    let id ← part (group.get "id")
    say ("mgrp(" ++ id.display ++ ")")
    let last ← sayNodes l1 l2 last (← part (do (← group.get "l1_handles").items))
    sayGroups l1 l2 last rest

def sayLags (ports : Option Json) (lags : List Json) : Dialog Unit :=
  lags.forM fun lag => do
    let id ← part (lag.get "id")
    put ("lag(" ++ id.display ++ ") ")
    match ports with
    | none => throw (.fault .unset)
    | some ports => say ("-> ports=[" ++ (← part (listed ports)) ++ "]")

def dumpMulticast : Handler := multicast fun _ => do
  let found := match ← request "bm_mc_get_entries" [] with
    | .text s => Json.parse? s
    | _ => none
  match found with
  | none =>
    say "Exception when retrieving MC entries"
    return .null
  | some v =>
    let l1 ← part (handleTable v "l1_handles" "rid" "l2_handle")
    let l2 ← part (handleTable v "l2_handles" "ports" "lags")
    say "=========="
    say "MC ENTRIES"
    let last ← sayGroups l1 l2 none (← part (do (← v.get "mgrps").items))
    say "=========="
    say "LAGS"
    if ← part (v.holds "lags") then
      sayLags last (← part (do (← v.get "lags").items))
    else say "None for this PRE type"
    say "=========="
    return .null

end PacketSmith.Console.Dialog
