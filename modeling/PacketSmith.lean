import PacketSmith.Audit.Whole
import PacketSmith.Console.Script
import PacketSmith.Consolidate.Renaming
import PacketSmith.LogSummary
import PacketSmith.Main
import PacketSmith.Outline.Console
import PacketSmith.Outline.Options
import PacketSmith.Program.Calculation
import PacketSmith.Program.Choice
import PacketSmith.Proofs.Attribution
import PacketSmith.Proofs.CheckedExpressions
import PacketSmith.Proofs.Console.Lookups
import PacketSmith.Proofs.Console.Ports
import PacketSmith.Proofs.Console.Encodings
import PacketSmith.Proofs.Console.TableCommands
import PacketSmith.Proofs.Consolidate.Limits
import PacketSmith.Proofs.EdgeCoverage
import PacketSmith.Proofs.EdgeEquality
import PacketSmith.Proofs.Expressions
import PacketSmith.Proofs.Graph.Edits
import PacketSmith.Proofs.Graph.Enumeration
import PacketSmith.Proofs.Graph.Sorting
import PacketSmith.Proofs.HitResults
import PacketSmith.Proofs.Packet.EveryPacket
import PacketSmith.Proofs.Packet.LeastLengths
import PacketSmith.Proofs.Packet.Offsets
import PacketSmith.Proofs.Parser.Collapsing
import PacketSmith.Proofs.Parser.PackedKeys
import PacketSmith.Proofs.Parser.Unrolling
import PacketSmith.Proofs.Results.Entries
import PacketSmith.Proofs.Turns.Agreement
import PacketSmith.Proofs.VaryingLengths
import PacketSmith.Text.Columns
import PacketSmith.Workload.Files
