import PacketSmith.Proofs.IdealSolver
import PacketSmith.Proofs.Packet.Lengths
import PacketSmith.Proofs.TakenEdges

/-!
# The least length of a packet

The constraints of a parser path ask for a least number of bits (`Packet.least_le_size`), and a test case is refused if
its packet has fewer bytes than that number (`TestCase.assemble_ok_iff`). So test cases are made for every path only if
the least length is at most one. Above that there are packets that satisfy all constraints and are too short
(`assembled_iff_long`, `least_length_missed`).
-/

namespace PacketSmith

open List Symbolic

variable {o : Options} {env : Setting} {path : ParserPath} {t u : SymbolicState} {ρ : Assignment} {fs : List Formula}

theorem Symbolic.constraints_of_parserPath (h : (parserPath env path).result t = (.ok (some fs), u)) :
    ∃ (p : Packet) (cs : List Formula), p.constraints env.options = (.ok cs, u.packet) ∧ ∀ f ∈ cs, f ∈ fs := by
  obtain ⟨parser, _, -, h⟩ := result_bind_inv h
  obtain ⟨_, _, -, h⟩ := result_bind_inv h
  obtain ⟨reached, _, -, h⟩ := result_bind_inv h
  cases reached with
  | impossible => cases h
  | reached fail constraints =>
    obtain ⟨_, _, -, h⟩ := result_bind_inv h
    obtain ⟨_, v, -, h⟩ := result_bind_inv h
    obtain ⟨cs, _, hcs, h⟩ := result_bind_inv h
    rw [result_packetConstraints] at hcs
    obtain ⟨hadded, rfl⟩ := Prod.mk.inj hcs
    cases h
    exact ⟨v.packet, cs, Prod.ext hadded rfl, fun f hf => mem_append_right _ hf⟩

namespace Packet

variable {p q : Packet} {cs : List Formula} {bytes : List UInt8}

/-- The least length counts bits. -/
theorem least_le_size (hcs : p.constraints o = (.ok cs, q)) (hρ : ρ.Satisfies cs)
    (hword : o.minPacketLength < 2 ^ 31) : o.minPacketLength ≤ size.evalNat ρ := by
  obtain ⟨fs, hfs, hρfs⟩ := lengths_of_constraints hcs hρ
  obtain ⟨total, -, hfs⟩ := bind_eq_ok.mp hfs
  have hsle : (BitVec.ofInt 32 o.minPacketLength).sle (sizeWord ρ) = true := by
    refine hρfs (.rel .sle (.const (BitVec.ofInt 32 o.minPacketLength)) size.term) ?_
    split at hfs
    · obtain ⟨f, -, hfs⟩ := bind_eq_ok.mp hfs
      cases hfs
      simp
    · obtain ⟨f, -, hfs⟩ := bind_eq_ok.mp hfs
      obtain ⟨f', -, hfs⟩ := bind_eq_ok.mp hfs
      cases hfs
      simp
  rw [BitVec.sle_iff_toInt_le, BitVec.toInt_ofInt, BitVec.toInt_eq_toNat_cond, toNat_sizeWord] at hsle
  by_cases hneg : o.minPacketLength < 0
  · omega
  · rw [Int.bmod_eq_of_le (by omega) (by omega)] at hsle
    split at hsle <;> omega

theorem length_payload (h : q.payload ρ = .ok bytes) :
    8 * bytes.length = max (layOut ρ q.extractions).length (8 * byteSize ρ) := by
  have hbits := congrArg List.length (bits_of_payload h)
  rw [length_flatMap_byteBits, length_append, length_replicate] at hbits
  omega

end Packet

/-- A test case without accesses that are at fault is made if its packet has at least as many bytes as the least length
says. -/
theorem TestCase.assemble_ok_iff {q : Packet} {whole : ProgramPath} {metadata : Dict FieldRef Bits}
    {commands : List TableCommand} : (∃ c, assemble o q whole metadata [] [] commands ρ = .ok c) ↔
      ∃ bytes, q.payload ρ = .ok bytes ∧ o.minPacketLength ≤ bytes.length := by
  constructor
  · rintro ⟨c, h⟩
    obtain ⟨bytes, hbytes, h⟩ := bind_eq_ok.mp h
    obtain ⟨hlong, -⟩ := require_bind_eq_ok.mp h
    exact ⟨bytes, hbytes, by simpa using hlong⟩
  · rintro ⟨bytes, hbytes, hlong⟩
    exact ⟨_, bind_eq_ok.mpr ⟨bytes, hbytes, require_bind_eq_ok.mpr ⟨by simpa using hlong, rfl⟩⟩⟩

/-- The packets of a parser path have the least length in bits. A test case is made from one that can be written in bytes
exactly if it reaches into the last byte of the least length in bytes, and always if that is at most one. -/
theorem assembled_iff_long (hpath : (parserPath env path).result t = (.ok (some fs), u))
    (hρ : ρ.Satisfies fs) (whole : ProgramPath) (metadata : Dict FieldRef Bits) (commands : List TableCommand) :
    (∀ bytes, u.packet.payload ρ = .ok bytes → env.options.minPacketLength < 2 ^ 31 →
      env.options.minPacketLength ≤ 8 * bytes.length) ∧
    ((∃ c, TestCase.assemble env.options u.packet whole metadata [] [] commands ρ = .ok c) ↔
      (∃ bytes, u.packet.payload ρ = .ok bytes) ∧ 8 * (env.options.minPacketLength - 1) <
        (max (Packet.size.evalNat ρ) (layOut ρ u.packet.extractions).length : Nat)) ∧
    (env.options.minPacketLength ≤ 1 →
      ((∃ c, TestCase.assemble env.options u.packet whole metadata [] [] commands ρ = .ok c) ↔
        ∃ bytes, u.packet.payload ρ = .ok bytes)) := by
  obtain ⟨p, cs, hcs, hmem⟩ := constraints_of_parserPath hpath
  have hleast := Packet.least_le_size hcs fun f hf => hρ f (hmem f hf)
  have hlong {bytes : List UInt8} (hbytes : u.packet.payload ρ = .ok bytes) :
      env.options.minPacketLength ≤ bytes.length ↔ 8 * (env.options.minPacketLength - 1) <
        (max (Packet.size.evalNat ρ) (layOut ρ u.packet.extractions).length : Nat) := by
    have hlength := Packet.length_payload hbytes
    rw [Packet.byteSize] at hlength
    omega
  rw [TestCase.assemble_ok_iff]
  refine ⟨fun bytes hbytes hword => ?_, ⟨?_, ?_⟩, fun hone => ⟨?_, ?_⟩⟩
  · have hlength := Packet.length_payload hbytes
    have hsize := hleast hword
    rw [Packet.byteSize] at hlength
    omega
  · rintro ⟨bytes, hbytes, henough⟩
    exact ⟨⟨bytes, hbytes⟩, (hlong hbytes).mp henough⟩
  · rintro ⟨⟨bytes, hbytes⟩, henough⟩
    exact ⟨bytes, hbytes, (hlong hbytes).mpr henough⟩
  · rintro ⟨bytes, hbytes, -⟩
    exact ⟨bytes, hbytes⟩
  · rintro ⟨bytes, hbytes⟩
    have hsize := hleast (by omega)
    exact ⟨bytes, hbytes, (hlong hbytes).mpr (by omega)⟩

/-- A parser that reads one header of eight bytes, with a least length. -/
def readsHeader (least : Int) : Setting :=
  ⟨{ minPacketLength := least },
    { Small.program [Small.metadata "h" [("f", 64)]] [] with
      headerTypes := .ofList [("h", ⟨"h", 0, .ofList [("f", { name := "f", size := some 64 })], none, none⟩)]
      parsers := .ofList [("parser", {
        name := "parser", id := 0, initState := "start"
        states := .ofList [("start", { (default : ParseState) with
          name := "start", ops := [.plain .extract [.regular (.str "h")]], transitions := [default] })] })] },
    default, {}⟩

/-- The sixty-four bits that are read reach into the last of the eight bytes that a packet has to have. -/
theorem assembled_iff_long_read :
    ∃ fs u, (parserPath (readsHeader 8) Small.parserPath).result {} = (.ok (some fs), u) ∧
      (Packet.valued [("packet_size", 64)]).Satisfies fs ∧ u.packet.extractions.length = 1 ∧
      ∀ whole metadata commands, ∃ c, TestCase.assemble (readsHeader 8).options u.packet whole metadata [] []
        commands (Packet.valued [("packet_size", 64)]) = .ok c := by
  obtain ⟨fs, u, hpath⟩ : ∃ fs u, (parserPath (readsHeader 8) Small.parserPath).result {} = (.ok (some fs), u) :=
    ⟨_, _, rfl⟩
  have hρ : (Packet.valued [("packet_size", 64)]).Satisfies fs := by
    cases hpath
    decide +kernel
  refine ⟨fs, u, hpath, hρ, by cases hpath; rfl, fun whole metadata commands => ?_⟩
  refine (assembled_iff_long hpath hρ whole metadata commands).2.1.mpr ⟨⟨replicate 8 0, ?_⟩, ?_⟩
  · cases hpath
    decide +kernel
  · cases hpath
    decide +kernel

/-- A parser that reads nothing, with a least length. -/
def unread (least : Int) : Setting := ⟨{ minPacketLength := least }, Small.program [] [], default, {}⟩

/-- A least length of sixty makes a packet of sixty bits, which has eight bytes. -/
theorem least_length_missed : ∃ fs u,
    (parserPath (unread 60) Small.parserPath).result {} = (.ok (some fs), u) ∧
    (Packet.valued [("packet_size", 60)]).Satisfies fs ∧ ∀ whole metadata commands,
      TestCase.assemble (unread 60).options u.packet whole metadata [] [] commands
        (Packet.valued [("packet_size", 60)]) = .error .violated := by
  obtain ⟨fs, u, hpath⟩ : ∃ fs u, (parserPath (unread 60) Small.parserPath).result {} = (.ok (some fs), u) :=
    ⟨_, _, rfl⟩
  have hbytes : u.packet.payload (Packet.valued [("packet_size", 60)]) = .ok (replicate 8 0) := by
    cases hpath
    decide +kernel
  refine ⟨fs, u, hpath, ?_, fun whole metadata commands => ?_⟩
  · cases hpath
    decide +kernel
  · rw [TestCase.assemble, hbytes]
    rfl

end PacketSmith
