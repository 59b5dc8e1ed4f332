import PacketSmith.Proofs.Packet.Lookaheads

/-!
# The length of a packet

The length that the constraints ask for is the number of bits that the extractions lay out, as a word
(`lengthConstraints_exact`), or at least that if a greatest length is set (`lengthConstraints_capped`). The tail is
not counted, although it is laid out as well (`payload_length_iff`, `tail_sent_beyond_size`).
-/

namespace PacketSmith

open List

namespace Packet

variable {o : Options} {p q : Packet} {ρ : Assignment} {cs : List Formula}

theorem totalLength_spec (h : ∀ e ∈ es, e.length.width = 32) : (es = [] ∧ totalLength es = .ok none) ∨ ∃ t,
    totalLength es = .ok (some t) ∧ t.width = 32 ∧ t.evalNat ρ = (layOut ρ es).length % 2 ^ 32 := by
  -- The sum so far and the extractions that are still to be added go together.
  have hfold : ∀ (es : List Extraction) (sum : Bits), (∀ e ∈ es, e.length.width = 32) → sum.width = 32 →
      ∃ t, es.foldlM (fun sum e => sum.arith .add e.length) sum = .ok t ∧ t.width = 32 ∧
        t.evalNat ρ = (sum.evalNat ρ + (layOut ρ es).length) % 2 ^ 32 := by
    intro es
    induction es with
    | nil =>
      intro sum _ hsum
      refine ⟨sum, rfl, hsum, ?_⟩
      rw [layOut_nil, length_nil, Nat.add_zero, Nat.mod_eq_of_lt (hsum ▸ sum.evalNat_lt ρ)]
    | cons e es ih =>
      intro sum hes hsum
      have he : e.length.width = sum.width := by rw [hsum, hes e mem_cons_self]
      obtain ⟨next, hnext, hwidth, hvalue⟩ := Bits.arith_of_width ρ .add he
      obtain ⟨t, ht, htwidth, htvalue⟩ := ih next (fun e he => hes e (mem_cons_of_mem _ he))
        (hwidth.trans hsum)
      refine ⟨t, by rw [foldlM_cons, hnext]; exact ht, htwidth, ?_⟩
      rw [htvalue, hvalue, BinOp.eval, BitVec.toNat_add, Bits.toNat_ofNat_evalNat ρ rfl,
        Bits.toNat_ofNat_evalNat ρ he, hsum, layOut_cons, length_append, Extraction.length_bits,
        Nat.mod_add_mod, Nat.add_assoc]
  cases es with
  | nil => exact .inl ⟨rfl, rfl⟩
  | cons e es =>
    obtain ⟨t, ht, hwidth, hvalue⟩ := hfold es e.length (fun e he => h e (mem_cons_of_mem _ he))
      (h e mem_cons_self)
    refine .inr ⟨t, by rw [totalLength, ht]; rfl, hwidth, ?_⟩
    rw [hvalue, layOut_cons, length_append, Extraction.length_bits]

/-- The number of bits that extractions lay out, as a word. Without extractions it is the least length
of a packet. -/
def measured (o : Options) (p : Packet) (ρ : Assignment) : BitVec 32 :=
  if p.extractions = [] then BitVec.ofInt 32 o.minPacketLength
  else BitVec.ofNat 32 (layOut ρ p.extractions).length

theorem totalLength_measured (h : ∀ e ∈ p.extractions, e.length.width = 32) : ∃ t, totalLength p.extractions = .ok t ∧
    (t.getD (Bits.ofInt o.minPacketLength 32)).settle.width = 32 ∧
    (t.getD (Bits.ofInt o.minPacketLength 32)).settle.evalNat ρ = (p.measured o ρ).toNat := by
  rcases totalLength_spec (ρ := ρ) h with ⟨hnil, ht⟩ | ⟨t, ht, hwidth, hvalue⟩
  · refine ⟨none, ht, by simp, ?_⟩
    rw [measured, if_pos hnil]
    rfl
  · have hne : p.extractions ≠ [] := by
      intro hnil
      simp [hnil, totalLength] at ht
    exact ⟨some t, ht, by simpa using hwidth, by simp [measured, hne, hvalue]⟩

def sizeWord (ρ : Assignment) : BitVec 32 := size.term.eval ρ

theorem toNat_sizeWord (ρ : Assignment) : (sizeWord ρ).toNat = size.evalNat ρ := rfl

theorem rel_size (op : Relation) (hwidth : b.width = 32) :
    ∃ f g, size.rel op b = .ok f ∧
      b.rel op size = .ok g ∧ f.eval ρ = op.eval (sizeWord ρ) (BitVec.ofNat 32 (b.evalNat ρ)) ∧
      g.eval ρ = op.eval (BitVec.ofNat 32 (b.evalNat ρ)) (sizeWord ρ) := by
  obtain ⟨w, t⟩ := b
  obtain rfl : w = 32 := hwidth
  refine ⟨_, _, rfl, rfl, ?_, ?_⟩
  · simp [sizeWord, Bits.evalNat, Term.eval, size]
  · simp [sizeWord, Bits.evalNat, Term.eval, size]

section

variable (hwidth : ∀ e ∈ p.extractions, e.length.width = 32)

include hwidth

theorem lengthConstraints_exact (hmax : p.maxLength = none) :
    ∃ fs, p.lengthConstraints o = .ok fs ∧
      (ρ.Satisfies fs ↔ (BitVec.ofInt 32 o.minPacketLength).sle (sizeWord ρ) = true ∧
      (sizeWord ρ).sle (BitVec.ofInt 32 o.maxPacketLength) = true ∧ sizeWord ρ = p.measured o ρ) := by
  obtain ⟨t, ht, htwidth, htvalue⟩ := totalLength_measured (o := o) (ρ := ρ) hwidth
  obtain ⟨f, -, hf, -, hvalue, -⟩ := rel_size (ρ := ρ) .eq htwidth
  rw [htvalue, BitVec.ofNat_toNat] at hvalue
  refine ⟨_, by simp only [lengthConstraints, ht, hmax, hf, bind, Except.bind]; rfl, ?_⟩
  simp only [cons_append, nil_append, Assignment.satisfies_cons, Assignment.satisfies_nil,
    and_true, hvalue, Relation.eval, beq_iff_eq]
  exact Iff.rfl

theorem lengthConstraints_capped (hmax : p.maxLength = some most) (hfs : p.lengthConstraints o = .ok fs)
    (hρ : ρ.Satisfies fs) : (p.measured o ρ).sle (sizeWord ρ) = true := by
  obtain ⟨t, ht, htwidth, htvalue⟩ := totalLength_measured (o := o) (ρ := ρ) hwidth
  obtain ⟨-, g, -, hg, -, hvalue⟩ := rel_size (ρ := ρ) .sle htwidth
  rw [htvalue, BitVec.ofNat_toNat] at hvalue
  simp only [lengthConstraints, ht, hmax, hg, bind, Except.bind] at hfs
  split at hfs
  · cases hfs
  · cases hfs
    exact hvalue.symm.trans (hρ g (by simp))

/-- What the extractions lay out is no longer than the packet, as long as its length is no longer than a
word can say. -/
theorem layOut_le_size (hfs : p.lengthConstraints o = .ok fs)
    (hρ : ρ.Satisfies fs) (hword : (layOut ρ p.extractions).length < 2 ^ 32)
    (hsigned : p.maxLength ≠ none → (layOut ρ p.extractions).length < 2 ^ 31) :
    (layOut ρ p.extractions).length ≤ size.evalNat ρ := by
  by_cases hempty : p.extractions = []
  · simp [hempty]
  have hmeasured : (p.measured o ρ).toNat = (layOut ρ p.extractions).length := by
    rw [measured, if_neg hempty, BitVec.toNat_ofNat, Nat.mod_eq_of_lt hword]
  rw [← hmeasured, ← toNat_sizeWord]
  cases hmax : p.maxLength with
  | none =>
    obtain ⟨fs', hfs', hmeaning⟩ := lengthConstraints_exact (o := o) (ρ := ρ) hwidth hmax
    obtain rfl : fs = fs' := Except.ok.inj (hfs.symm.trans hfs')
    rw [(hmeaning.mp hρ).2.2]
  | some most =>
    have hle := lengthConstraints_capped hwidth hmax hfs hρ
    have hsmall := hsigned (by simp [hmax])
    rw [BitVec.sle_iff_toInt_le, BitVec.toInt_eq_toNat_of_lt (by omega), BitVec.toInt_eq_toNat_cond] at hle
    split at hle <;> omega

end

/-! ## The bytes -/

theorem Made.lengthWidth (hp : Made o p) : ∀ e ∈ p.extractions, e.length.width = 32 := by
  intro e he
  obtain ⟨i, hi⟩ := hp.extraction he
  exact hi.lengthWidth

theorem lengths_of_constraints (hcs : p.constraints o = (.ok cs, q)) (hρ : ρ.Satisfies cs) :
    ∃ fs, p.lengthConstraints o = .ok fs ∧ ρ.Satisfies fs := by
  obtain ⟨lengths, hlengths, ⟨-, -, rfl⟩ | ⟨-, -, parts, -, rfl⟩⟩ := constraints_ok hcs
  · exact ⟨_, hlengths, hρ⟩
  · simp only [Assignment.satisfies_append] at hρ
    exact ⟨lengths, hlengths, hρ.1.1⟩

theorem length_flatMap_byteBits (bytes : List UInt8) : (bytes.flatMap byteBits).length = 8 * bytes.length := by
  simp [byteBits, Nat.mul_comm]

def tailBits (p : Packet) (ρ : Assignment) : Nat :=
  if p.lookaheads = [] then 0 else tailLength.evalNat ρ

theorem Made.length_layOut_tailed (hp : Made o p) (hcs : p.constraints o = (.ok cs, q)) (hρ : ρ.Satisfies cs) :
    p.tailBits ρ % 8 = 0 ∧ (layOut ρ q.extractions).length = (layOut ρ p.extractions).length + p.tailBits ρ := by
  by_cases hnone : p.lookaheads = []
  · obtain ⟨lengths, -, ⟨-, rfl, -⟩ | ⟨hsome, -⟩⟩ := constraints_ok hcs
    · simp [tailBits, hnone]
    · exact absurd hnone hsome
  · obtain ⟨rfl, -, hbytes⟩ := hp.tail_of_constraints hcs hρ hnone
    simp [tailBits, hnone, hbytes, extractions_withTail, tailOf]

/-- The bytes of a packet are as many as the length of the packet asks for exactly if the tail fits into
what the extractions leave of them. -/
theorem payload_length_iff {rs : List Reading} {cs : List Formula} (hread : readAll o rs = .ok p)
    (hcs : p.constraints o = (.ok cs, q)) (hρ : ρ.Satisfies cs)
    (hdigits : (layOut ρ p.extractions).length % 4 = 0)
    (hword : (layOut ρ p.extractions).length < 2 ^ 32)
    (hsigned : p.maxLength ≠ none → (layOut ρ p.extractions).length < 2 ^ 31) :
    (∃ bytes, q.payload ρ = .ok bytes ∧ bytes.length = (size.evalNat ρ + 7) / 8) ↔
      p.tailBits ρ ≤ 8 * ((size.evalNat ρ + 7) / 8) - (layOut ρ p.extractions).length := by
  have hp := made_readAll hread
  obtain ⟨lengths, hlengths, hρlengths⟩ := lengths_of_constraints hcs hρ
  have hlong := layOut_le_size hp.lengthWidth hlengths hρlengths hword hsigned
  obtain ⟨hbytes, hlayOut⟩ := hp.length_layOut_tailed hcs hρ
  constructor
  · rintro ⟨bytes, hpayload, hlength⟩
    have hbits := congrArg List.length (bits_of_payload hpayload)
    rw [length_flatMap_byteBits, hlength, length_append, length_replicate, hlayOut, byteSize] at hbits
    omega
  · intro htail
    obtain ⟨bytes, hpayload⟩ : ∃ bytes, q.payload ρ = .ok bytes := by
      apply payload_of_length
      · omega
      · rw [byteSize]
        omega
    have hbits := congrArg List.length (bits_of_payload hpayload)
    rw [length_flatMap_byteBits, length_append, length_replicate, hlayOut, byteSize] at hbits
    exact ⟨bytes, hpayload, by omega⟩

/-- A packet may have up to forty bits. Twelve bits are read, and the eight after them are looked at. -/
def capped : List Reading :=
  [.limit (Bits.ofInt 40 32), .extract (some 12) none, .lookahead (some 8)]

def cappedValues : Assignment :=
  valued [("packet_size", 21), ("$packet0$", 0xabc), ("$lookahead0$", 0xde), ("lookahead_tail_len", 8),
    ("lookahead_tail", 0xde)]

/-- The tail has room in a packet that is longer than its extractions. -/
theorem payload_length_iff_capped :
    ∃ p cs q, readAll {} capped = .ok p ∧ p.constraints {} = (.ok cs, q) ∧ cappedValues.Satisfies cs ∧
      p.maxLength ≠ none ∧ (layOut cappedValues p.extractions).length = 12 ∧ p.tailBits cappedValues = 8 ∧
      ∃ bytes, q.payload cappedValues = .ok bytes ∧ bytes.length = (21 + 7) / 8 := by
  obtain ⟨p, hread⟩ : ∃ p, readAll {} capped = .ok p := ⟨_, rfl⟩
  obtain ⟨cs, q, hcs⟩ : ∃ cs q, p.constraints {} = (.ok cs, q) := by
    cases hread
    exact ⟨_, _, rfl⟩
  have hρ : cappedValues.Satisfies cs := by
    cases hread
    cases hcs
    decide +kernel
  have hmax : p.maxLength ≠ none := by
    cases hread
    exact Option.some_ne_none _
  have hlength : (layOut cappedValues p.extractions).length = 12 := by
    cases hread
    decide +kernel
  have htail : p.tailBits cappedValues = 8 := by
    cases hread
    rfl
  exact ⟨p, cs, q, hread, hcs, hρ, hmax, hlength, htail,
    (payload_length_iff hread hcs hρ (by simp [hlength]) (by simp [hlength]) (by simp [hlength])).mpr
      (by rw [hlength, htail]; decide +kernel)⟩

/-- The tail is not counted in the length of a packet, but its bytes are sent. Eight bits are read and
the sixteen after them are looked at, so that a packet of one byte is sent as three. -/
theorem tail_sent_beyond_size :
    ∃ p cs q ρ, readAll {} [.extract (some 8) none, .lookahead (some 16)] = .ok p ∧
      p.constraints {} = (.ok cs, q) ∧ ρ.Satisfies cs ∧ (layOut ρ p.extractions).length = 8 ∧
      size.evalNat ρ = 8 ∧ q.payload ρ = .ok [0xab, 0xcd, 0xef] := by
  refine ⟨_, _, _, valued [("packet_size", 8), ("$packet0$", 0xab), ("$lookahead0$", 0xcdef),
    ("lookahead_tail_len", 16), ("lookahead_tail", 0xcdef)], rfl, rfl, ?_, ?_, ?_, ?_⟩
  · decide +kernel
  · decide +kernel
  · decide +kernel
  · decide +kernel

end Packet

end PacketSmith
