import PacketSmith.Proofs.Packet.Readings

/-!
# Lookaheads agree with the packet

The constraints on a packet make the value of each lookahead the start of what is laid out from
its place on: the low bits of each extraction that follows, and then those of the tail
(`Made.lowBits_lookahead`). The bytes of the packet are the same bits, so a lookahead shows what
is in the packet that is sent (`lookahead_shows_packet`).
-/

namespace PacketSmith

open List

namespace Packet

variable {o : Options} {p q : Packet} {ρ : Assignment} {cs : List Formula} {e : Extraction} {l : Lookahead}

def tailOf (p : Packet) : Extraction := ⟨tailLength, tail p.widestLookahead, false⟩

theorem extractions_withTail (p : Packet) : p.withTail.extractions = p.extractions ++ [p.tailOf] := rfl

theorem Made.extraction (hp : Made o p) (he : e ∈ p.extractions) : ∃ i, MadeExtraction o i e := by
  obtain ⟨i, hi⟩ := mem_iff_getElem?.mp he
  exact ⟨i, hp.extractions i e hi⟩

theorem Made.lookahead_of_mem (hp : Made o p) (hl : l ∈ p.lookaheads) :
    ∃ j, MadeLookahead o p.extractions.length j l := by
  obtain ⟨j, hj⟩ := mem_iff_getElem?.mp hl
  exact ⟨j, hp.lookaheads j l hj⟩

theorem MadeExtraction.evalNat_length (he : MadeExtraction o i e) (hfixed : e.varies = false) :
    e.length.evalNat ρ = e.data.width := by
  have hsmall := he.small
  rw [he.fixed hfixed, Bits.evalNat_ofInt_natCast, Nat.mod_eq_of_lt (by omega)]

theorem MadeExtraction.sized (he : MadeExtraction o i e) (hvary : e.varies = true → e.length.evalNat ρ < 2 ^ 31) :
    e.Sized ρ := by
  refine ⟨he.lengthWidth, ?_⟩
  cases hvaries : e.varies with
  | false =>
    rw [he.evalNat_length hvaries]
    exact he.small
  | true => exact hvary hvaries

theorem Made.tail_of_constraints (hp : Made o p) (hcs : p.constraints o = (.ok cs, q)) (hρ : ρ.Satisfies cs)
    (hsome : p.lookaheads ≠ []) :
    q = p.withTail ∧ tailLength.evalNat ρ ≤ p.widestLookahead ∧ tailLength.evalNat ρ % 8 = 0 := by
  obtain ⟨lengths, -, h | ⟨-, rfl, parts, -, rfl⟩⟩ := constraints_ok hcs
  · exact absurd h.1 hsome
  · simp only [Assignment.satisfies_append] at hρ
    exact ⟨rfl, (satisfies_tailConstraints hp.widestLookahead_lt).mp hρ.1.2⟩

section

variable (hp : Made o p) (hcs : p.constraints o = (.ok cs, q)) (hρ : ρ.Satisfies cs)
  (hvary : ∀ e ∈ p.extractions, e.varies = true → e.length.evalNat ρ < 2 ^ 31) (hl : l ∈ p.lookaheads)

include hp hcs hρ hvary hl

theorem Made.lowBits_lookahead :
    q = p.withTail ∧ lowBits l.data.width (l.data.evalNat ρ) =
      (layOut ρ (p.extractions.drop l.index ++ [p.tailOf])).take l.data.width := by
  obtain ⟨rfl, htail, -⟩ := hp.tail_of_constraints hcs hρ (ne_nil_of_mem hl)
  obtain ⟨lengths, -, h | ⟨-, -, parts, hparts, rfl⟩⟩ := constraints_ok hcs
  · exact absurd h.1 (ne_nil_of_mem hl)
  obtain ⟨j, hmade⟩ := hp.lookahead_of_mem hl
  simp only [Assignment.satisfies_append, Assignment.satisfies_flatten] at hρ
  obtain ⟨-, hρparts⟩ := hρ
  obtain ⟨fs, hfs, hrun⟩ := mem_mapM hparts hl
  rw [extractions_withTail, drop_append_of_le_length hmade.index] at hrun
  refine ⟨rfl, Comparison.lowBits_of_run (Comparison.start_tracks hmade.small) (Int.le_refl _) ?_ ?_
    (by simp) hrun (hρparts fs hfs)⟩
  · intro e he
    rcases mem_append.mp he with he | he
    · have he := mem_of_mem_drop he
      obtain ⟨i, hi⟩ := hp.extraction he
      exact hi.sized (hvary e he)
    · obtain rfl := eq_of_mem_singleton he
      exact ⟨rfl, Nat.lt_of_le_of_lt htail hp.widestLookahead_lt⟩
  · intro e he hfixed
    rw [dropLast_concat] at he
    have he := mem_of_mem_drop he
    obtain ⟨i, hi⟩ := hp.extraction he
    apply hi.evalNat_length
    cases hvaries : e.varies with
    | false => rfl
    | true => exact absurd (mem_filter.mpr ⟨mem_append_left _ he, hvaries⟩) hfixed

/-- The bytes of the packet that is sent are what is laid out, so a lookahead shows them. -/
theorem Made.lowBits_payload (hbytes : q.payload ρ = .ok bytes) :
    lowBits l.data.width (l.data.evalNat ρ) =
      ((bytes.flatMap byteBits).drop (layOut ρ (p.extractions.take l.index)).length).take l.data.width := by
  obtain ⟨rfl, hshows⟩ := hp.lowBits_lookahead hcs hρ hvary hl
  -- Zeros after the tail do not matter: what is laid out is at least as long as the lookahead.
  have hlong : l.data.width ≤ (layOut ρ (p.extractions.drop l.index ++ [p.tailOf])).length := by
    have hlength := congrArg List.length hshows
    rw [length_lowBits, length_take] at hlength
    omega
  have hsplit : layOut ρ p.withTail.extractions = layOut ρ (p.extractions.take l.index) ++
      layOut ρ (p.extractions.drop l.index ++ [p.tailOf]) := by
    rw [← layOut_append, ← append_assoc, take_append_drop, extractions_withTail]
  rw [hshows, bits_of_payload hbytes, hsplit, append_assoc, drop_left,
    take_append_of_le_length hlong]

end

/-- A lookahead of width `s` after `k` extractions shows the first `s` bits of what is laid out from
extraction `k` on: the low bits of each extraction, as many as are read, and then those of the tail.
In the packet that is sent, these bits come after the first `k` extractions. -/
theorem lookahead_shows_packet {rs : List Reading} {l : Lookahead} (hread : readAll o rs = .ok p)
    (hcs : p.constraints o = (.ok cs, q)) (hρ : ρ.Satisfies cs)
    (hvary : ∀ e ∈ p.extractions, e.varies = true → e.length.evalNat ρ < 2 ^ 31)
    (hl : l ∈ p.lookaheads) :
    lowBits l.data.width (l.data.evalNat ρ) =
      (layOut ρ (p.extractions.drop l.index) ++
        lowBits (tailLength.evalNat ρ) ((tail p.widestLookahead).evalNat ρ)).take l.data.width ∧
    ∀ bytes, q.payload ρ = .ok bytes → lowBits l.data.width (l.data.evalNat ρ) =
      ((bytes.flatMap byteBits).drop (layOut ρ (p.extractions.take l.index)).length).take l.data.width := by
  have hp := made_readAll hread
  obtain ⟨rfl, hshows⟩ := hp.lowBits_lookahead hcs hρ hvary hl
  exact ⟨by simpa [tailOf, Extraction.bits] using hshows, fun _ => hp.lowBits_payload hcs hρ hvary hl⟩

/-- The assignment that gives variables their values by name, and zero to all others. -/
def valued (values : List (String × Nat)) : Assignment := fun x w =>
  BitVec.ofNat w ((values.lookup x.display).getD 0)

/-- Eight bits are read, twenty are looked at, as many as `n` says are read, and eight more. -/
def peeking : List Reading :=
  [.extract (some 8) none, .lookahead (some 20), .extractVarying (some 16) (.var "n" 32) none,
    .extract (some 8) none]

/-- The values for the bytes `ab cd ef 5f`, of which the last one is the tail. -/
def peeked : Assignment :=
  valued [("packet_size", 24), ("n", 8), ("$packet0$", 0xab), ("$lookahead0$", 0xcdef5), ("$packet1$", 0xcd),
    ("$packet2$", 0xef), ("lookahead_tail_len", 8), ("lookahead_tail", 0x5f)]

/-- A lookahead goes over an extraction whose length varies, over one of a fixed length, and into the
tail. -/
theorem lookahead_shows_packet_peeking :
    ∃ p cs q, readAll {} peeking = .ok p ∧ p.constraints {} = (.ok cs, q) ∧ peeked.Satisfies cs ∧
      (∀ e ∈ p.extractions, e.varies = true → e.length.evalNat peeked < 2 ^ 31) ∧
      q.payload peeked = .ok [0xab, 0xcd, 0xef, 0x5f] ∧ ∃ l ∈ p.lookaheads,
        lowBits l.data.width (l.data.evalNat peeked) = (([0xab, 0xcd, 0xef, 0x5f].flatMap byteBits).drop
          (layOut peeked (p.extractions.take l.index)).length).take l.data.width := by
  obtain ⟨p, hread⟩ : ∃ p, readAll {} peeking = .ok p := ⟨_, rfl⟩
  obtain ⟨cs, q, hcs⟩ : ∃ cs q, p.constraints {} = (.ok cs, q) := by
    cases hread
    exact ⟨_, _, rfl⟩
  have hρ : peeked.Satisfies cs := by
    cases hread
    cases hcs
    decide +kernel
  have hvary : ∀ e ∈ p.extractions, e.varies = true → e.length.evalNat peeked < 2 ^ 31 := by
    cases hread
    decide +kernel
  have hbytes : q.payload peeked = .ok [0xab, 0xcd, 0xef, 0x5f] := by
    cases hread
    cases hcs
    decide +kernel
  obtain ⟨l, hl⟩ : ∃ l, l ∈ p.lookaheads := by
    cases hread
    exact ⟨_, mem_cons_self⟩
  exact ⟨p, cs, q, hread, hcs, hρ, hvary, hbytes, l, hl,
    (lookahead_shows_packet hread hcs hρ hvary hl).2 _ hbytes⟩

end Packet

end PacketSmith
