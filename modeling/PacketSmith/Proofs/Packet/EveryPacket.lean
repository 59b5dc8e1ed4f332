import PacketSmith.Proofs.Packet.Lengths

/-!
# No packet is excluded

Whatever bits a packet of fixed extractions has, the variables can take them: `laidOver` gives every variable the bits
at its place. All constraints hold under it but one: the tail has whole bytes and is no longer than the widest
lookahead, so it may be too short for a lookahead that ends within a byte (`every_packet_possible_iff`).
-/

namespace PacketSmith

open List

namespace Packet

variable {o : Options} {p q : Packet} {ρ : Assignment} {bits : List Bool} {start width i w : Nat}
  {es : List Extraction} {l : Lookahead}

/-! ## Places -/

def slice (bits : List Bool) (start width : Nat) : List Bool := (bits.drop start).take width

section

variable (h : start + width ≤ bits.length)

include h

theorem length_slice : (slice bits start width).length = width := by
  rw [slice, length_take, length_drop]
  omega

theorem ofBits_slice_lt : ofBits (slice bits start width) < 2 ^ width := by
  have hlt := ofBits_lt (slice bits start width)
  rwa [length_slice h] at hlt

theorem lowBits_ofBits_slice : lowBits width (ofBits (slice bits start width)) = slice bits start width := by
  have hbits := lowBits_ofBits (slice bits start width)
  rwa [length_slice h] at hbits

theorem slice_append (more : List Bool) : slice (bits ++ more) start width = slice bits start width := by
  rw [slice, drop_append_of_le_length (by omega),
    take_append_of_le_length (by rw [length_drop]; omega), slice]

end

/-- The number of bits in extractions of fixed lengths. -/
def widths (es : List Extraction) : Nat := (es.map (·.data.width)).sum

def offset (p : Packet) (k : Nat) : Nat := widths (p.extractions.take k)

def extent (p : Packet) : Nat := widths p.extractions

theorem widths_append (es es' : List Extraction) : widths (es ++ es') = widths es + widths es' := by
  simp [widths]

theorem offset_add_widths (p : Packet) (k : Nat) : p.offset k + widths (p.extractions.drop k) = p.extent := by
  rw [offset, ← widths_append, take_append_drop, extent]

theorem offset_add_width (h : p.extractions[i]? = some e) : p.offset i + e.data.width ≤ p.extent := by
  obtain ⟨hi, rfl⟩ := List.getElem?_eq_some_iff.mp h
  have hfirst : widths (p.extractions.drop i) = p.extractions[i].data.width + widths (p.extractions.drop (i + 1)) := by
    rw [drop_eq_getElem_cons hi]
    rfl
  have := p.offset_add_widths i
  omega

theorem length_layOut (h : ∀ e ∈ es, e.length.evalNat ρ = e.data.width) : (layOut ρ es).length = widths es := by
  induction es with
  | nil => rfl
  | cons e es ih =>
    rw [layOut_cons, length_append, Extraction.length_bits, h e mem_cons_self,
      ih fun e he => h e (mem_cons_of_mem _ he)]
    rfl

theorem layOut_eq_take
    (h : ∀ i e, es[i]? = some e → e.bits ρ = slice bits (widths (es.take i)) e.data.width) :
    layOut ρ es = bits.take (widths es) := by
  induction es generalizing bits with
  | nil => rfl
  | cons e es ih =>
    have hfirst : e.bits ρ = bits.take e.data.width := h 0 e rfl
    have hrest : layOut ρ es = (bits.drop e.data.width).take (widths es) := by
      apply ih
      intro i e' he'
      rw [h (i + 1) e' he', slice, slice, drop_drop]
      rfl
    rw [layOut_cons, hfirst, hrest, ← take_add]
    rfl

/-! ## Names -/

def numberAfter (stem text : String) : Nat :=
  Nat.ofDigitChars 10 ((text.toList.drop stem.length).takeWhile Char.isDigit) 0

theorem numberAfter_eq
    (h : text.toList = stem.toList ++ (Nat.toDigits 10 i ++ '$' :: rest)) : numberAfter stem text = i := by
  have hdigits : (Nat.toDigits 10 i ++ '$' :: rest).takeWhile Char.isDigit = Nat.toDigits 10 i := by
    rw [takeWhile_append_of_pos fun c hc => Nat.isDigit_of_mem_toDigits (by decide) (by decide) hc]
    simp
  rw [numberAfter, h, drop_left' (String.length_toList), hdigits, Nat.ofDigitChars_ten_toDigits]

theorem toList_labelled (i : Nat) (label : Option String) : ∃ rest, (labelled s!"$packet{i}$" label).toList =
    "$packet".toList ++ (Nat.toDigits 10 i ++ '$' :: rest) := by
  cases label with
  | none =>
    refine ⟨[], ?_⟩
    change ("$packet" ++ toString i ++ "$").toList = _
    simp [Nat.toList_repr]
  | some text =>
    refine ⟨'.' :: text.toList, ?_⟩
    change ("$packet" ++ toString i ++ "$" ++ "." ++ text).toList = _
    simp [Nat.toList_repr]

theorem toList_lookahead (j : Nat) :
    s!"$lookahead{j}$".toList = "$lookahead".toList ++ (Nat.toDigits 10 j ++ '$' :: []) := by
  change ("$lookahead" ++ toString j ++ "$").toList = _
  simp [Nat.toList_repr]

/-! ## An assignment -/

/-- The number of bits in the longest tail. -/
def roomiest (p : Packet) : Nat := p.widestLookahead / 8 * 8

def placeOf (p : Packet) (j : Nat) : Nat := (p.lookaheads[j]?.map fun l => p.offset l.index).getD 0

def laidOver (o : Options) (p : Packet) (bits : List Bool) : Assignment
  | .plain text, w =>
    if "$packet".toList <+: text.toList then
      BitVec.ofNat w (ofBits (slice bits (p.offset (numberAfter "$packet" text)) w))
    else if "$lookahead".toList <+: text.toList then
      BitVec.ofNat w (ofBits (slice bits (p.placeOf (numberAfter "$lookahead" text)) w))
    else if text = "packet_size" then
      BitVec.ofInt w (if p.extractions = [] then o.minPacketLength else p.extent)
    else if text = "lookahead_tail_len" then BitVec.ofNat w p.roomiest
    else BitVec.ofNat w (ofBits (slice bits p.extent p.roomiest))
  | _, _ => 0

theorem laidOver_labelled (i : Nat) (label : Option String) (w : Nat) :
    laidOver o p bits (labelled s!"$packet{i}$" label) w =
      BitVec.ofNat w (ofBits (slice bits (p.offset i) w)) := by
  obtain ⟨rest, hrest⟩ := toList_labelled i label
  rw [laidOver, if_pos (hrest ▸ prefix_append _ _), numberAfter_eq hrest]

theorem laidOver_lookahead (j w : Nat) :
    laidOver o p bits s!"$lookahead{j}$" w = BitVec.ofNat w (ofBits (slice bits (p.placeOf j) w)) := by
  have hlist := toList_lookahead j
  have hother : ¬ "$packet".toList <+: s!"$lookahead{j}$".toList := by
    rw [hlist]
    simp
  rw [laidOver, if_neg hother, if_pos (hlist ▸ prefix_append _ _), numberAfter_eq hlist]

theorem evalNat_dataOf {randomize : Bool} (h : ρ (.shift name) w = 0) :
    (dataOf randomize name w).evalNat ρ = (ρ name w).toNat := by
  cases randomize with
  | false => rfl
  | true => simp [dataOf, Bits.evalNat, Term.eval, BinOp.eval, h]

theorem lowBits_ofNat_slice (h : start + w ≤ bits.length) :
    lowBits w (BitVec.ofNat w (ofBits (slice bits start w))).toNat = slice bits start w := by
  rw [BitVec.toNat_ofNat, Nat.mod_eq_of_lt (ofBits_slice_lt h), lowBits_ofBits_slice h]

/-- The variables of a packet have the bits of a string at their places. -/
structure Shows (p : Packet) (ρ : Assignment) (bits : List Bool) : Prop where
  extractions : ∀ i e, p.extractions[i]? = some e →
    lowBits e.data.width (e.data.evalNat ρ) = slice bits (p.offset i) e.data.width
  lookaheads : ∀ l ∈ p.lookaheads,
    lowBits l.data.width (l.data.evalNat ρ) = slice bits (p.offset l.index) l.data.width

/-- A bit string goes as far as all extractions and lookaheads. -/
structure Covers (bits : List Bool) (p : Packet) : Prop where
  extractions : p.extent ≤ bits.length
  lookaheads : ∀ l ∈ p.lookaheads, p.offset l.index + l.data.width ≤ bits.length

theorem Made.shows_laidOver (hp : Made o p) (hbits : Covers bits p) : p.Shows (laidOver o p bits) bits where
  extractions i e he := by
    obtain ⟨⟨label, hdata⟩, -⟩ := hp.extractions i e he
    have hplace := Nat.le_trans (offset_add_width he) hbits.extractions
    conv_lhs => rw [hdata]
    rw [width_dataOf, evalNat_dataOf rfl, laidOver_labelled, lowBits_ofNat_slice hplace]
  lookaheads l hl := by
    obtain ⟨j, hj⟩ := mem_iff_getElem?.mp hl
    have hplace : p.placeOf j = p.offset l.index := by simp [placeOf, hj]
    conv_lhs => rw [(hp.lookaheads j l hj).data]
    rw [width_dataOf, evalNat_dataOf rfl, laidOver_lookahead, hplace,
      lowBits_ofNat_slice (hbits.lookaheads l hl)]

/-! ## The constraints -/

theorem Made.evalNat_length (hp : Made o p) (hfixed : ∀ e ∈ p.extractions, e.varies = false) :
    ∀ e ∈ p.extractions, e.length.evalNat ρ = e.data.width := by
  intro e he
  obtain ⟨i, hi⟩ := hp.extraction he
  exact hi.evalNat_length (hfixed e he)

theorem Shows.layOut_extractions (h : p.Shows ρ bits)
    (hlength : ∀ e ∈ p.extractions, e.length.evalNat ρ = e.data.width) :
    layOut ρ p.extractions = bits.take p.extent := by
  apply layOut_eq_take
  intro i e he
  rw [Extraction.bits, hlength e (mem_of_getElem? he), h.extractions i e he]
  rfl

theorem layOut_drop (hlength : ∀ e ∈ p.extractions, e.length.evalNat ρ = e.data.width) (k : Nat) :
    layOut ρ (p.extractions.drop k) = (layOut ρ p.extractions).drop (p.offset k) := by
  have htake : (layOut ρ (p.extractions.take k)).length = p.offset k :=
    length_layOut fun e he => hlength e (mem_of_mem_take he)
  conv_rhs => rw [← take_append_drop k p.extractions, layOut_append]
  exact (drop_left' htake).symm

theorem roomiest_le (p : Packet) : p.roomiest ≤ p.widestLookahead := Nat.div_mul_le_self _ 8

theorem Made.evalNat_tailLength (hp : Made o p) : tailLength.evalNat (laidOver o p bits) = p.roomiest := by
  have hroomiest := p.roomiest_le
  have hwidest := hp.widestLookahead_lt
  change (BitVec.ofNat 32 p.roomiest).toNat = p.roomiest
  rw [BitVec.toNat_ofNat, Nat.mod_eq_of_lt (by omega)]

theorem evalNat_tail (hbits : p.extent + p.roomiest ≤ bits.length) :
    (tail p.widestLookahead).evalNat (laidOver o p bits) = ofBits (slice bits p.extent p.roomiest) := by
  change (BitVec.ofNat p.widestLookahead (ofBits (slice bits p.extent p.roomiest))).toNat = _
  rw [BitVec.toNat_ofNat, Nat.mod_eq_of_lt]
  exact Nat.lt_of_lt_of_le (ofBits_slice_lt hbits) (Nat.pow_le_pow_right (by decide) p.roomiest_le)

theorem Made.bits_tailOf (hp : Made o p) (hbits : p.extent + p.roomiest ≤ bits.length) :
    p.tailOf.bits (laidOver o p bits) = slice bits p.extent p.roomiest := by
  change lowBits (tailLength.evalNat _) ((tail p.widestLookahead).evalNat _) = _
  rw [hp.evalNat_tailLength, evalNat_tail hbits, lowBits_ofBits_slice hbits]

section

variable (hp : Made o p) (hfixed : ∀ e ∈ p.extractions, e.varies = false) (hcovers : Covers bits p)
  (hbits : p.extent + p.roomiest ≤ bits.length)

include hp hfixed hcovers hbits

theorem Made.layOut_onward (k : Nat) :
    layOut (laidOver o p bits) (p.extractions.drop k ++ [p.tailOf]) =
      (bits.take (p.extent + p.roomiest)).drop (p.offset k) := by
  have hlength := hp.evalNat_length (ρ := laidOver o p bits) hfixed
  have hall := (hp.shows_laidOver hcovers).layOut_extractions hlength
  have hplace : p.offset k ≤ (bits.take p.extent).length := by
    rw [length_take]
    have := p.offset_add_widths k
    omega
  rw [layOut_append, layOut_drop hlength, hall, layOut_cons, layOut_nil, append_nil,
    hp.bits_tailOf hbits, slice, take_add, drop_append_of_le_length hplace]

theorem Made.run_laidOver
    (hl : l ∈ p.lookaheads) (hreach : p.offset l.index + l.data.width ≤ p.extent + p.roomiest) :
    ∃ fs, Comparison.run [] (Comparison.start l) (p.withTail.extractions.drop l.index) = .ok fs ∧
      (laidOver o p bits).Satisfies fs := by
  obtain ⟨j, hmade⟩ := hp.lookahead_of_mem hl
  rw [extractions_withTail, drop_append_of_le_length hmade.index]
  apply Comparison.run_of_lowBits (Comparison.start_tracks hmade.small)
  · intro e he
    rcases mem_append.mp he with he | he
    · have he := mem_of_mem_drop he
      obtain ⟨i, hi⟩ := hp.extraction he
      exact hi.sized (by simp [hfixed e he])
    · obtain rfl := eq_of_mem_singleton he
      refine ⟨rfl, ?_⟩
      have hroomiest := p.roomiest_le
      have hwidest := hp.widestLookahead_lt
      change tailLength.evalNat _ < _
      rw [hp.evalNat_tailLength]
      omega
  · intro e he
    rcases mem_append.mp he with he | he
    · rw [hp.evalNat_length hfixed e (mem_of_mem_drop he)]
      exact e.data.evalNat_lt _
    · obtain rfl := eq_of_mem_singleton he
      change (tail p.widestLookahead).evalNat _ < 2 ^ tailLength.evalNat _
      rw [hp.evalNat_tailLength, evalNat_tail hbits]
      exact ofBits_slice_lt hbits
  · rw [(hp.shows_laidOver hcovers).lookaheads l hl, hp.layOut_onward hfixed hcovers hbits, drop_take,
      take_take, Nat.min_eq_left (by omega), slice]

end

theorem Made.lengths_laidOver (hp : Made o p) (bits : List Bool) (hfixed : ∀ e ∈ p.extractions, e.varies = false)
    (hmax : p.maxLength = none) (hleast : o.minPacketLength ≤ p.extent) (hmost : p.extent ≤ o.maxPacketLength)
    (hleastWord : -2 ^ 31 ≤ o.minPacketLength) (hmostWord : o.maxPacketLength < 2 ^ 31) :
    ∃ fs, p.lengthConstraints o = .ok fs ∧ (laidOver o p bits).Satisfies fs := by
  obtain ⟨fs, hfs, hmeaning⟩ :=
    lengthConstraints_exact (o := o) (ρ := laidOver o p bits) hp.lengthWidth hmax
  refine ⟨fs, hfs, hmeaning.mpr ?_⟩
  have hsize : sizeWord (laidOver o p bits) =
      BitVec.ofInt 32 (if p.extractions = [] then o.minPacketLength else p.extent) := rfl
  have hmeasured : p.measured o (laidOver o p bits) =
      BitVec.ofInt 32 (if p.extractions = [] then o.minPacketLength else p.extent) := by
    rw [measured, length_layOut (hp.evalNat_length hfixed)]
    split
    · rfl
    · rw [BitVec.ofInt_natCast, extent]
  rw [hsize, hmeasured]
  have hword : ∀ n : Int, -2 ^ 31 ≤ n → n < 2 ^ 31 → (BitVec.ofInt 32 n).toInt = n := by
    intro n hlow hhigh
    rw [BitVec.toInt_ofInt]
    exact Int.bmod_eq_of_le (by omega) (by omega)
  refine ⟨?_, ?_, rfl⟩
  · rw [BitVec.sle_iff_toInt_le, hword _ (by omega) (by omega), hword _ (by split <;> omega) (by split <;> omega)]
    split <;> omega
  · rw [BitVec.sle_iff_toInt_le, hword _ (by split <;> omega) (by split <;> omega), hword _ (by omega) (by omega)]
    split <;> omega

theorem Made.satisfies_laidOver (hp : Made o p) (hfixed : ∀ e ∈ p.extractions, e.varies = false)
    (hcovers : Covers bits p) (hbits : p.extent + p.roomiest ≤ bits.length)
    (hreach : ∀ l ∈ p.lookaheads, p.offset l.index + l.data.width ≤ p.extent + p.roomiest)
    (hfs : p.lengthConstraints o = .ok fs) (hρ : (laidOver o p bits).Satisfies fs) :
    ∃ cs q, p.constraints o = (.ok cs, q) ∧ (laidOver o p bits).Satisfies cs := by
  by_cases hnone : p.lookaheads = []
  · exact ⟨fs, p, by simp [constraints, hfs, hp.untailed, hnone], hρ⟩
  have hvarying : p.withTail.extractions.filter (·.varies) = [] := by
    rw [extractions_withTail]
    simpa [tailOf] using hfixed
  obtain ⟨parts, hparts, hρparts⟩ := mapM_of_forall (Q := (laidOver o p bits).Satisfies) fun l hl =>
    hp.run_laidOver hfixed hcovers hbits hl (hreach l hl)
  rw [← hvarying] at hparts
  have htail : (laidOver o p bits).Satisfies p.tailConstraints := by
    rw [satisfies_tailConstraints hp.widestLookahead_lt, hp.evalNat_tailLength]
    exact ⟨p.roomiest_le, Nat.mul_mod_left _ _⟩
  refine ⟨fs ++ p.tailConstraints ++ parts.flatten, p.withTail, ?_, ?_⟩
  · have hlooks : p.withTail.lookaheadConstraints = .ok parts.flatten := by
      exact bind_eq_ok.mpr ⟨parts, hparts, rfl⟩
    simp [constraints, hfs, hp.untailed, hnone, hlooks]
  · simp only [Assignment.satisfies_append, Assignment.satisfies_flatten]
    exact ⟨⟨hρ, htail⟩, hρparts⟩

theorem Made.reach_le (hp : Made o p) (hfixed : ∀ e ∈ p.extractions, e.varies = false)
    (hcs : p.constraints o = (.ok cs, q)) (hρ : ρ.Satisfies cs) (hl : l ∈ p.lookaheads) :
    p.offset l.index + l.data.width ≤ p.extent + p.roomiest := by
  have hlength := hp.evalNat_length (ρ := ρ) hfixed
  obtain ⟨-, hshows⟩ := hp.lowBits_lookahead hcs hρ (by simp +contextual [hfixed]) hl
  have hwidth := congrArg List.length hshows
  rw [length_lowBits, length_take, layOut_append, length_append,
    length_layOut fun e he => hlength e (mem_of_mem_drop he), layOut_cons, layOut_nil,
    append_nil, Extraction.length_bits] at hwidth
  obtain ⟨-, hle, hbytes⟩ := hp.tail_of_constraints hcs hρ (ne_nil_of_mem hl)
  have hplace := p.offset_add_widths l.index
  change l.data.width = min l.data.width (_ + tailLength.evalNat ρ) at hwidth
  rw [roomiest]
  omega

/-- For every bit string that goes as far as all extractions and lookaheads, there is an assignment under
which every variable has the bits at its place, exactly if no lookahead reaches further beyond the last
extraction than the whole bytes of the widest one. -/
theorem every_packet_possible_iff {rs : List Reading} (hread : readAll o rs = .ok p)
    (hfixed : ∀ e ∈ p.extractions, e.varies = false) (hmax : p.maxLength = none)
    (hleast : o.minPacketLength ≤ p.extent) (hmost : p.extent ≤ o.maxPacketLength)
    (hleastWord : -2 ^ 31 ≤ o.minPacketLength) (hmostWord : o.maxPacketLength < 2 ^ 31)
    (hcovers : Covers bits p) :
    (∃ cs q ρ, p.constraints o = (.ok cs, q) ∧ ρ.Satisfies cs ∧ p.Shows ρ bits) ↔
      ∀ l ∈ p.lookaheads, p.offset l.index + l.data.width ≤ p.extent + p.widestLookahead / 8 * 8 := by
  have hp := made_readAll hread
  constructor
  · rintro ⟨cs, q, ρ, hcs, hρ, -⟩ l hl
    exact hp.reach_le hfixed hcs hρ hl
  · intro hreach
    -- The tail may go beyond the bits that are given.
    have hlonger : Covers (bits ++ List.replicate p.roomiest false) p :=
      ⟨by simpa using Nat.le_add_right_of_le hcovers.extractions,
        fun l hl => by simpa using Nat.le_add_right_of_le (hcovers.lookaheads l hl)⟩
    have hbits : p.extent + p.roomiest ≤ (bits ++ List.replicate p.roomiest false).length := by
      simpa using hcovers.extractions
    obtain ⟨fs, hfs, hρ⟩ := hp.lengths_laidOver (bits ++ List.replicate p.roomiest false) hfixed hmax hleast
      hmost hleastWord hmostWord
    obtain ⟨cs, q, hcs, hρ⟩ := hp.satisfies_laidOver hfixed hlonger hbits hreach hfs hρ
    have hshows := hp.shows_laidOver hlonger
    refine ⟨cs, q, _, hcs, hρ, ⟨fun i e he => ?_, fun l hl => ?_⟩⟩
    · rw [hshows.extractions i e he, slice_append]
      exact Nat.le_trans (offset_add_width he) hcovers.extractions
    · rw [hshows.lookaheads l hl, slice_append (hcovers.lookaheads l hl)]

/-- Twelve bits and four bits are read. Before the four, twenty are looked at, and after them eight. -/
def overlapping : List Reading :=
  [.extract (some 12) (some "h.a"), .lookahead (some 20), .extract (some 4) none, .lookahead (some 8)]

/-- Two lookaheads of different widths share the tail. -/
theorem every_packet_possible_iff_overlapping :
    ∃ p, readAll { randomize := true } overlapping = .ok p ∧ Covers (lowBits 32 0xabcdef01) p ∧
      p.extent = 16 ∧ p.maxLength = none ∧ (∀ e ∈ p.extractions, e.varies = false) ∧
      ∃ cs q ρ, p.constraints { randomize := true } = (.ok cs, q) ∧ ρ.Satisfies cs ∧
        p.Shows ρ (lowBits 32 0xabcdef01) := by
  obtain ⟨p, hread⟩ : ∃ p, readAll { randomize := true } overlapping = .ok p := ⟨_, rfl⟩
  have hextent : p.extent = 16 := by
    cases hread
    rfl
  have hcovers : Covers (lowBits 32 0xabcdef01) p := by
    cases hread
    exact ⟨by decide +kernel, by decide +kernel⟩
  have hfixed : ∀ e ∈ p.extractions, e.varies = false := by
    cases hread
    decide +kernel
  have hreach : ∀ l ∈ p.lookaheads,
      p.offset l.index + l.data.width ≤ p.extent + p.widestLookahead / 8 * 8 := by
    cases hread
    decide +kernel
  have hmax : p.maxLength = none := by
    cases hread
    rfl
  exact ⟨p, hread, hcovers, hextent, hmax, hfixed,
    (every_packet_possible_iff hread hfixed hmax (by rw [hextent]; decide) (by rw [hextent]; decide)
      (by decide) (by decide) hcovers).mpr hreach⟩

/-- Four bits after the last extraction cannot be looked at. The tail would have to have at least
four bits, at most four, and whole bytes. -/
theorem short_lookahead_impossible :
    ∃ p, readAll {} [.extract (some 16) none, .lookahead (some 4)] = .ok p ∧ p.extent = 16 ∧
      ∀ cs q (ρ : Assignment), p.constraints {} = (.ok cs, q) → ¬ ρ.Satisfies cs := by
  obtain ⟨p, hread⟩ : ∃ p, readAll {} [.extract (some 16) none, .lookahead (some 4)] = .ok p := ⟨_, rfl⟩
  have hp := made_readAll hread
  cases hread
  refine ⟨_, rfl, rfl, ?_⟩
  intro cs q ρ hcs hρ
  have hreach := hp.reach_le (by decide +kernel) hcs hρ mem_cons_self
  revert hreach
  decide +kernel

end Packet

end PacketSmith
