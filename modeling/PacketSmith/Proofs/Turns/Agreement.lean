import PacketSmith.Proofs.Packet.Lookaheads
import PacketSmith.Proofs.Turns.Orders

/-!
# In a row and in turns

The streams of two runs over the same parser paths have the same turns, so the runs record the same about each parser
path, whatever order they take them in. The test cases are then the same up to their order, and so are the
results: parser paths differ in the keys of their edges, so what is recorded under a key is recorded about
one parser path.
-/

namespace PacketSmith

open List SolutionStream Finding Dict Edge

/-! ## Results -/

section Results

variable {f : Finding} {fs fs' : List Finding} {results : Dict (List EdgeKey × List EdgeKey) PathResult}
  {key : List EdgeKey × List EdgeKey}

end Results

/-! ## Test cases -/

/-- Each element with the number of equal ones after it. -/
def numbered {α : Type} [DecidableEq α] : List α → List (α × Nat)
  | [] => []
  | a :: rest => (a, rest.count a) :: numbered rest

namespace Progress

variable {p q : Progress}

end Progress

/-! ## Runs -/

namespace Produce

variable {engine : Engine}

end Produce

namespace Loaded

variable {o : Options} {source : Json} {tries : List Assignment} {q : Progress → Progress → Bool}

end Loaded

namespace TwoLengths

open PacketSmith.Small

def applied (op : String) (left right : Json) : Json :=
  tagged "expression" (.obj [("op", .str op), ("left", left), ("right", right)])

def extraction (op header : String) (length : List Json) : Json :=
  operation op (tagged "regular" (.str header) :: length)

/-- After one of the transitions of the parser the lengths of two headers are read. The pipeline asks whether neither
of them is zero: the header `g` is never read, and its fields are taken to be zero. -/
def source : Json :=
  Small.source
    [headerType "m_t" [("a", 8)], headerType "h_t" [("x", 32), ("y", 32)],
      .obj [("name", .str "v_t"), ("id", .int 0), ("fields", .arr [.arr [.str "v", .str "*"]]), ("max_length", .int 2)]]
    [header "m" "m_t" true, header "h" "h_t" false, header "g" "h_t" false,
      header "v" "v_t" false, header "w" "v_t" false] []
    "start" [state "start" [] [field "m" "a"]
        [transition (some "0x01") (some "both"), transition none none],
      state "both" [extraction "extract" "h" [], extraction "extract_VL" "v" [field "h" "x"],
        extraction "extract_VL" "w" [field "h" "y"]] [] [transition none none]]
    [("init_table", .str "c"), ("tables", .arr []), ("conditionals", .arr [.obj [("name", .str "c"), ("id", .int 0),
      ("true_next", .null), ("false_next", .null), ("expression", applied "not" .null (applied "or"
        (applied "==" (field "h" "x") (field "g" "x")) (applied "==" (field "h" "y") (field "g" "y"))))]])]

def options : Options :=
  { extractVlVariation := some "or", maxTestCasesPerPath := some 2, solveForMetadata := true
    allowUninitializedReads := true }

/-- The variable of the field `a` has the number 10 in a row and 6 in turns. -/
def lengths (six x y : Nat) : Assignment :=
  Packet.valued [("packet_size", 64 + x + y), ("$packet0$.h.x", x), ("$packet1$.h.y", y), ("('m', 'a')_6", six),
    ("('m', 'a')_10", 1)]

def tries : List Assignment :=
  [Packet.valued [("packet_size", 1)], lengths 0 0 0, lengths 1 8 0, lengths 1 0 8, lengths 1 8 8, lengths 1 16 16]

end TwoLengths

end PacketSmith
