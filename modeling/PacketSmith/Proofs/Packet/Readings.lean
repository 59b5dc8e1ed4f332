import PacketSmith.Proofs.Packet.Emitting

/-!
# Packets that are read

A packet is read by extractions and lookaheads (`readAll`), and its length may be bounded on the way. `Made` says what
it is like after any readings: each extraction and each lookahead has a variable of its own, whose name tells its
number. The second part says what the constraints on a packet are (`constraints_ok`).
-/

namespace PacketSmith

open List

namespace Packet

inductive Reading where
  | extract (size : Option Int) (label : Option String)
  /-- An extraction of a size of which as many bits are read as a word says. -/
  | extractVarying (size : Option Int) (length : Term (.bits 32)) (label : Option String)
  | lookahead (size : Option Int)
  | limit (most : Bits)

def read (o : Options) (p : Packet) : Reading → Except Fault Packet
  | .extract size label => do return (← p.extract o size none label).2
  | .extractVarying size length label => do return (← p.extract o size (some ⟨32, length⟩) label).2
  | .lookahead size => do return (← p.lookahead o size).2
  | .limit most => return { p with maxLength := some most }

def readAll (o : Options) (rs : List Reading) : Except Fault Packet := rs.foldlM (read o) {}

/-- The data of a variable, combined with its displacement if values are drawn at random. -/
def dataOf (randomize : Bool) (name : Variable) (w : Nat) : Bits :=
  if randomize then ⟨w, .arith .xor (.var name w) (.var (.shift name) w)⟩ else ⟨w, .var name w⟩

/-- An extraction that was made: the variable has the number of the extraction in its name. -/
structure MadeExtraction (o : Options) (i : Nat) (e : Extraction) : Prop where
  data : ∃ label, e.data = dataOf o.randomize (labelled s!"$packet{i}$" label) e.data.width
  positive : 0 < e.data.width
  small : e.data.width < 2 ^ 31
  lengthWidth : e.length.width = 32
  fixed : e.varies = false → e.length = Bits.ofInt e.data.width 32

/-- A lookahead that was made, in a packet with `n` extractions. -/
structure MadeLookahead (o : Options) (n j : Nat) (l : Lookahead) : Prop where
  data : l.data = dataOf o.randomize s!"$lookahead{j}$" l.data.width
  positive : 0 < l.data.width
  small : l.data.width < 2 ^ 31
  index : l.index ≤ n

structure Made (o : Options) (p : Packet) : Prop where
  extractions : ∀ i e, p.extractions[i]? = some e → MadeExtraction o i e
  lookaheads : ∀ j l, p.lookaheads[j]? = some l → MadeLookahead o p.extractions.length j l
  untailed : p.tailed = false

@[simp] theorem width_dataOf (randomize : Bool) (name : Variable) (w : Nat) : (dataOf randomize name w).width = w := by
  cases randomize <;> rfl

variable {size : Option Int}

theorem newVariable_ok {randomize : Bool} {shifts : List (Variable × Nat)}
    (h : newVariable randomize name size = .ok (v, shifts)) :
    v = dataOf randomize name v.width ∧ 0 < v.width ∧ v.width < 2 ^ 31 ∧ size = some (v.width : Int) := by
  obtain ⟨_, hnamed, h⟩ := bind_eq_ok.mp h
  obtain ⟨w, hwidth, hnamed⟩ := bind_eq_ok.mp hnamed
  cases hnamed
  have hw : 0 < w ∧ w < 2 ^ 31 ∧ size = some (w : Int) := by
    unfold Bits.widthOf at hwidth
    split at hwidth
    · cases hwidth
    · split at hwidth
      · rename_i n hn
        cases hwidth
        simp only [Bits.widthLimit] at hn
        refine ⟨by omega, by omega, ?_⟩
        rw [Int.toNat_of_nonneg (by omega)]
      · cases hwidth
  cases randomize with
  | false | true =>
    cases h
    exact ⟨rfl, hw⟩

variable {p q : Packet}

theorem made_empty (o : Options) : Made o {} :=
  ⟨by simp, by simp, rfl⟩

theorem getElem?_concat (h : (xs ++ [x])[i]? = some y) : xs[i]? = some y ∨ i = xs.length ∧ y = x := by
  rcases Nat.lt_or_ge i xs.length with hi | hi
  · rw [List.getElem?_append_left hi] at h
    exact .inl h
  · rw [List.getElem?_append_right hi] at h
    obtain ⟨hi', hx⟩ := List.getElem?_eq_some_iff.mp h
    simp only [length_singleton] at hi'
    exact .inr ⟨by omega, by simpa using hx.symm⟩

theorem Made.extract {length : Option Bits} (hp : Made o p)
    (hlength : ∀ l, length = some l → l.width = 32) (h : p.extract o size length label = .ok (v, q)) : Made o q := by
  obtain ⟨read, hread, h⟩ := bind_eq_ok.mp h
  obtain ⟨⟨data, shifts⟩, hnew, h⟩ := bind_eq_ok.mp h
  cases h
  obtain ⟨hdata, hpos, hsmall, rfl⟩ := newVariable_ok hnew
  refine ⟨?_, ?_, hp.untailed⟩
  · intro i e he
    rcases getElem?_concat he with he | ⟨rfl, rfl⟩
    · exact hp.extractions i e he
    · cases length with
      | none =>
        cases hread
        exact ⟨⟨label, hdata⟩, hpos, hsmall, rfl, fun _ => rfl⟩
      | some l =>
        obtain rfl := Except.ok.inj hread
        exact ⟨⟨label, hdata⟩, hpos, hsmall, hlength _ rfl, by simp⟩
  · intro j l hl
    obtain ⟨hdata, hpos, hsmall, hindex⟩ := hp.lookaheads j l hl
    exact ⟨hdata, hpos, hsmall, by simp; omega⟩

theorem Made.lookahead (hp : Made o p) (h : p.lookahead o size = .ok (v, q)) : Made o q := by
  obtain ⟨_, -, h⟩ := bind_eq_ok.mp h
  obtain ⟨⟨data, shifts⟩, hnew, h⟩ := bind_eq_ok.mp h
  cases h
  obtain ⟨hdata, hpos, hsmall, rfl⟩ := newVariable_ok hnew
  refine ⟨hp.extractions, ?_, hp.untailed⟩
  intro j l hl
  rcases getElem?_concat hl with hl | ⟨rfl, rfl⟩
  · exact hp.lookaheads j l hl
  · exact ⟨hdata, hpos, hsmall, Nat.le_refl _⟩

theorem Made.read (hp : Made o p) (h : p.read o r = .ok q) : Made o q := by
  cases r with
  | extract size label =>
    obtain ⟨⟨v, q'⟩, hextract, h⟩ := bind_eq_ok.mp h
    cases h
    exact hp.extract (by simp) hextract
  | extractVarying size length label =>
    obtain ⟨⟨v, q'⟩, hextract, h⟩ := bind_eq_ok.mp h
    cases h
    exact hp.extract (by rintro l ⟨⟩; rfl) hextract
  | lookahead size =>
    obtain ⟨⟨v, q'⟩, hlookahead, h⟩ := bind_eq_ok.mp h
    cases h
    exact hp.lookahead hlookahead
  | limit most =>
    cases h
    exact ⟨hp.extractions, hp.lookaheads, hp.untailed⟩

theorem made_readAll (h : readAll o rs = .ok p) : Made o p :=
  foldlM_keeps (P := Made o) (fun _ _ _ hp h => hp.read h) (made_empty o) h

/-! ## Constraints -/

theorem widestLookahead_le_iff : p.widestLookahead ≤ n ↔ ∀ l ∈ p.lookaheads, l.data.width ≤ n := by
  suffices h : ∀ (ls : List Lookahead) (w : Nat),
      ls.foldl (fun w l => max w l.data.width) w ≤ n ↔ w ≤ n ∧ ∀ l ∈ ls, l.data.width ≤ n by
    exact (h p.lookaheads 0).trans (by simp)
  intro ls
  induction ls with
  | nil => simp
  | cons l ls ih =>
    intro w
    rw [foldl_cons, ih, Nat.max_le, forall_mem_cons, and_assoc]

theorem Made.widestLookahead_lt (hp : Made o p) : p.widestLookahead < 2 ^ 31 := by
  have h : p.widestLookahead ≤ 2 ^ 31 - 1 := widestLookahead_le_iff.mpr fun l hl => by
    obtain ⟨j, hj⟩ := mem_iff_getElem?.mp hl
    have := (hp.lookaheads j l hj).small
    omega
  omega

theorem constraints_ok (h : p.constraints o = (.ok cs, q)) :
    ∃ lengths, p.lengthConstraints o = .ok lengths ∧
      (p.lookaheads = [] ∧ q = p ∧ cs = lengths ∨ p.lookaheads ≠ [] ∧ q = p.withTail ∧ ∃ parts,
      (p.lookaheads.mapM fun l => Comparison.run (q.extractions.filter (·.varies)) (Comparison.start l)
      (q.extractions.drop l.index)) = .ok parts ∧ cs = lengths ++ p.tailConstraints ++ parts.flatten) := by
  unfold constraints at h
  split at h
  · cases h
  · rename_i lengths hlengths
    refine ⟨lengths, hlengths, ?_⟩
    split at h
    · cases h
    · split at h
      · rename_i hempty
        cases h
        exact .inl ⟨isEmpty_iff.mp hempty, rfl, rfl⟩
      · rename_i hempty
        obtain ⟨hcs, rfl⟩ := Prod.mk.inj h
        obtain ⟨looks, hlooks, hcs⟩ := bind_eq_ok.mp hcs
        obtain ⟨parts, hparts, hlooks⟩ := bind_eq_ok.mp hlooks
        cases hlooks
        cases hcs
        exact .inr ⟨by simpa [List.isEmpty_iff] using hempty, rfl, parts, hparts, rfl⟩

theorem satisfies_tailConstraints (h : p.widestLookahead < 2 ^ 31) : ρ.Satisfies p.tailConstraints ↔
    tailLength.evalNat ρ ≤ p.widestLookahead ∧ tailLength.evalNat ρ % 8 = 0 := by
  have hle : (tailLength.relInt .ule p.widestLookahead).eval ρ = true ↔ tailLength.evalNat ρ ≤ p.widestLookahead := by
    simp only [Bits.relInt, Term.eval, Relation.eval, BitVec.ule_iff_le, BitVec.le_def,
      BitVec.ofInt_natCast, BitVec.toNat_ofNat]
    rw [Nat.mod_eq_of_lt (Nat.lt_trans h (by decide))]
    rfl
  have hbytes : ((tailLength.arithInt .and 7).relInt .eq 0).eval ρ = true ↔ tailLength.evalNat ρ % 8 = 0 := by
    have hand : (tailLength.evalNat ρ) &&& 7 = tailLength.evalNat ρ % 8 :=
      Nat.and_two_pow_sub_one_eq_mod _ 3
    rw [← hand]
    simp only [Bits.relInt, Bits.arithInt, Term.eval, Relation.eval, BinOp.eval, beq_iff_eq]
    rw [← BitVec.toNat_inj, BitVec.toNat_and]
    rfl
  simp [tailConstraints, hle, hbytes]

end Packet

end PacketSmith
