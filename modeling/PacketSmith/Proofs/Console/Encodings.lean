import PacketSmith.Proofs.Console.Texts

/-!
# The bytes of parameters and of values in sets

The bytes of a parameter are those of the number or address that its text denotes (`Denotes`), exactly if no number in
the text is out of range (`parameter_encodes_iff`): a negative number is taken for zero, and the numbers of an address
are not held against the size of a byte.

A value of a set has the bytes of its number behind as many zeros as seven more bits take up, so it has the bytes of
a parameter only if the width is one more than a multiple of eight (`setValue_wholeBytes_iff`).
-/

namespace PacketSmith.Console

open Text (int? hexInt? markedInt?)

def ofBytes (ns : List Int) : Int := ns.foldl (fun value n => 256 * value + n) 0

def numbers (bs : List UInt8) : List Int := bs.map fun b => Int.ofNat b.toNat

/-- The values that fit into the width are encoded in so many bytes, and larger ones are refused. -/
structure ValuesIn (width count : Nat) : Prop where
  encoded : ∀ s (n : Nat), markedInt? s = some (n : Int) → n < 2 ^ width →
    ∃ bs, setValue s (.int width) = .ok bs ∧ bs.length = count ∧ ofBytes (numbers bs) = n
  refused : ∀ s (n : Nat), markedInt? s = some (n : Int) → 2 ^ width ≤ n →
    ∃ text, setValue s (.int width) = .error (.parameter text)

/-- Values have the bytes of parameters. -/
def AsParameters (width : Nat) : Prop :=
  ∀ s (n : Nat) bs, markedInt? s = some (n : Int) → setValue s (.int width) = .ok bs →
    parameter s (.int width) = .ok (numbers bs)

/-- The parts of the text between dividers are the numbers of an address. -/
structure IsAddress (divider : String) (count : Nat) (number? : String → Option Int) (s : String) (ns : List Int) :
    Prop where
  divided : Text.holds s divider = true
  parts : (Text.split divider s).map number? = ns.map some
  length : ns.length = count

inductive Addresses : Nat → String → List Int → Prop
  | points (h : IsAddress "." 4 int? s ns) : Addresses 32 s ns
  | colons (h : IsAddress ":" 6 hexInt? s ns) : Addresses 48 s ns

inductive Denotes (width : Nat) (s : String) : Int → Prop
  | number (h : markedInt? s = some n) : Denotes width s n
  | address (h : Addresses width s ns) : Denotes width s (ofBytes ns)

/-- The parameter is refused, or its bytes are those of the number that the text denotes. -/
structure Encodes (width : Nat) (s : String) : Prop where
  refused : ∀ c, parameter s (.int width) = .error c → ∃ text, c = .parameter text
  encoded : ∀ bs, parameter s (.int width) = .ok bs →
    bs.length = (width + 7) / 8 ∧ (∀ b ∈ bs, 0 ≤ b ∧ b ≤ 255) ∧ Denotes width s (ofBytes bs)
  accepted : ∀ n, markedInt? s = some n →
    ((∃ bs, parameter s (.int width) = .ok bs) ↔ 0 ≤ n ∧ n < 256 ^ ((width + 7) / 8))

variable {s : String} {ns : List Int}

theorem ofBytes_reverse (ns : List Nat) : ofBytes (ns.reverse.map Int.ofNat) = (Nat.ofDigits 256 ns : Nat) := by
  induction ns with
  | nil => rfl
  | cons n ns ih =>
    rw [ofBytes, List.foldl_map, List.foldl_reverse] at ih ⊢
    rw [List.foldr_cons, ih, Nat.ofDigits_cons, Int.ofNat_eq_natCast]
    push_cast
    ring

theorem parameter_eq_of_markedInt? {n : Int} (h : markedInt? s = some n) (width : Nat) :
    parameter s (.int width) = if n.toNat < 256 ^ ((width + 7) / 8)
      then .ok ((Nat.digitsAppend 256 ((width + 7) / 8) n.toNat).reverse.map Int.ofNat)
      else .error (.parameter "Parameter is too large") := by
  rw [parameter_of_markedInt? h, number_int h, encode_eq]

/-! ## Parameters -/

theorem mapM_eq_some_iff {f : α → Option β} {as : List α} {bs : List β} :
    as.mapM f = some bs ↔ as.map f = bs.map some := by
  induction as generalizing bs with
  | nil => cases bs <;> simp
  | cons a as ih => cases bs <;> cases hb : f a <;> cases hrest : as.mapM f <;> simp_all [List.mapM_cons]

theorem address_eq_ok_iff : address divider count number? s = .ok ns ↔ IsAddress divider count number? s ns := by
  constructor
  · intro h
    unfold address at h
    split at h
    · cases h
    · next hdivided =>
      dsimp only at h
      split at h
      · next ms hread =>
        have hparts := mapM_eq_some_iff.mp hread
        have hlength := congrArg List.length hparts
        split at h
        · next hcount =>
          cases h
          exact ⟨by simpa using hdivided, hparts, by simpa [hcount] using hlength.symm⟩
        · cases h
      · cases h
  · rintro ⟨hdivided, hparts, hlength⟩
    have hcount : (Text.split divider s).length = count := by simpa [hlength] using congrArg List.length hparts
    simp [address, hdivided, mapM_eq_some_iff.mpr hparts, hcount]

theorem Addresses.parameter_eq (h : Addresses width s ns) : parameter s (.int width) = .ok ns := by
  cases h with
  | points h => simp [parameter, Json.number?, address32, address_eq_ok_iff.mpr h]
  | colons h => simp [parameter, Json.number?, address48, address_eq_ok_iff.mpr h]

theorem parameter_cases (width : Int) (s : String) :
    (∃ ns, Addresses width.toNat s ns ∧ parameter s (.int width) = .ok ns) ∨
    parameter s (.int width) = number s (.int width) ∨ ∃ text, parameter s (.int width) = .error (.parameter text) := by
  unfold parameter
  split
  · next hwidth =>
    obtain rfl : width = 32 := by simpa [Json.number?] using hwidth
    rcases hfound : address32 s with e | ns
    · cases e <;> simp
    · exact .inl ⟨ns, .points (address_eq_ok_iff.mp hfound), rfl⟩
  · next hwidth =>
    obtain rfl : width = 48 := by simpa [Json.number?] using hwidth
    rcases hfound : address48 s with e | ns
    · cases e <;> simp
    · exact .inl ⟨ns, .colons (address_eq_ok_iff.mp hfound), rfl⟩
  · cases hcolon : Text.holds s ":" <;> simp [address128, hcolon]
  · exact .inr (.inl rfl)

theorem Encodes.of_refused {width : Nat} (h : parameter s (.int width) = .error (.parameter text))
    (hlarge : ∀ n, markedInt? s = some n → ¬n < 256 ^ ((width + 7) / 8)) : Encodes width s where
  refused c hc := ⟨text, by simpa [h] using hc.symm⟩
  encoded bs hbs := by simp [h] at hbs
  accepted n hn := by simp [h, hlarge n hn]

theorem encodes_of_markedInt? {n : Int} (hn : markedInt? s = some n) (hpos : 0 ≤ n) (width : Nat) :
    Encodes width s := by
  have hvalue := parameter_eq_of_markedInt? hn width
  have hiff : n.toNat < 256 ^ ((width + 7) / 8) ↔ n < 256 ^ ((width + 7) / 8) := by
    rw [Int.toNat_lt hpos]
    rfl
  by_cases hfits : n.toNat < 256 ^ ((width + 7) / 8)
  · rw [if_pos hfits] at hvalue
    refine ⟨by simp [hvalue], fun bs hbs => ?_, fun m hm => ?_⟩
    · obtain rfl := Except.ok.inj (hvalue.symm.trans hbs)
      refine ⟨by simp [Nat.length_digitsAppend _ _ hfits], fun b hb => ?_, ?_⟩
      · obtain ⟨d, hd, rfl⟩ := List.mem_map.mp hb
        have hlt := Nat.lt_of_mem_digitsAppend (by decide) _ d (List.mem_reverse.mp hd)
        simp
        omega
      · rw [ofBytes_reverse, Nat.digitsAppend, Nat.ofDigits_append_replicate_zero, Nat.ofDigits_digits,
          Int.toNat_of_nonneg hpos]
        exact .number hn
    · obtain rfl := Option.some.inj (hn.symm.trans hm)
      simp [hvalue, hpos, hiff.mp hfits]
  · rw [if_neg hfits] at hvalue
    refine .of_refused hvalue fun m hm => ?_
    obtain rfl := Option.some.inj (hn.symm.trans hm)
    rwa [← hiff]

/-- Negative numbers and parts of addresses beyond a byte are what is not encoded. -/
theorem parameter_encodes_iff (width : Nat) (s : String) : Encodes width s ↔
    (∀ n, markedInt? s = some n → 0 ≤ n) ∧ ∀ ns, Addresses width s ns → ∀ n ∈ ns, 0 ≤ n ∧ n ≤ 255 := by
  constructor
  · intro h
    refine ⟨fun n hn => ?_, fun ns hns => (h.encoded ns hns.parameter_eq).2.1⟩
    by_contra hneg
    -- a negative number is accepted, as zero
    have hzero : n.toNat < 256 ^ ((width + 7) / 8) := by
      rw [Int.toNat_of_nonpos (by omega)]
      exact Nat.pow_pos (by decide)
    exact hneg ((h.accepted n hn).mp ⟨_, by rw [parameter_eq_of_markedInt? hn, if_pos hzero]⟩).1
  · rintro ⟨hpos, hrange⟩
    rcases hmarked : markedInt? s with _ | n
    · rcases parameter_cases width s with ⟨ns, hns, hvalue⟩ | hnumber | ⟨text, htext⟩
      · refine ⟨by simp [hvalue], fun bs hbs => ?_, by simp [hmarked]⟩
        obtain rfl : ns = bs := by simpa [hvalue] using hbs
        refine ⟨?_, hrange ns hns, .address hns⟩
        rcases hns with h | h <;> exact h.length
      · rw [number, hmarked] at hnumber
        exact .of_refused hnumber (by simp [hmarked])
      · exact .of_refused htext (by simp [hmarked])
    · exact encodes_of_markedInt? hmarked (hpos n hmarked) width

/-- A negative number and an address with a number of nine bits are taken. -/
theorem parameter_out_of_range : ¬Encodes 8 "-1" ∧ ¬Encodes 32 "256.0.0.1" := by
  constructor
  · intro h
    have hone : markedInt? "-1" = some (-1) := by cbv
    have haccepted := (h.accepted (-1) hone).mp ⟨_, parameter_eq_of_markedInt? hone 8⟩
    omega
  · intro h
    have haddress : Addresses 32 "256.0.0.1" [256, 0, 0, 1] := .points ⟨rfl, by decide, rfl⟩
    have hbyte := (h.encoded _ haddress.parameter_eq).2.1 256 List.mem_cons_self
    omega

/-! ## Sets of values -/

theorem pow_le_span (width : Nat) : 2 ^ width ≤ 256 ^ ((width + 14) / 8) :=
  (pow_width_le width).trans (Nat.pow_le_pow_right (by decide) (by omega))

theorem setValue_eq {n : Nat} (h : markedInt? s = some (n : Int)) (width : Nat) :
    setValue s (.int width) = if n < 2 ^ width then .ok (lastBytes ((width + 14) / 8) n) else .error
      (.parameter ("Input is too large, it should fit within " ++ (Json.int width).display ++ " bits")) := by
  have hneg : ¬(width : Int) < 0 := by omega
  have hlarge : (n : Int) > (Nat.pow 2 width : Nat) - 1 ↔ ¬n < 2 ^ width := by
    rw [Nat.pow_eq]
    omega
  simp only [setValue, h, hneg, if_false, pure_bind, Int.toNat_natCast, hlarge]
  by_cases hn : n < 2 ^ width
  · have hencode := encode_eq n ((width + 7) / 8) ((width + 14) / 8)
    rw [Int.toNat_natCast, if_pos (hn.trans_le (pow_width_le width))] at hencode
    have hpack := pack_digitsAppend (hn.trans_le (pow_le_span width))
    push_cast at hencode
    simp only [hn, not_true_eq_false, if_false, if_true, hencode, bind, Except.bind, hpack]
    rfl
  · simp only [hn, not_false_eq_true, if_true, if_false]
    rfl

theorem numbers_lastBytes (h : n < 256 ^ count) :
    numbers (lastBytes count n) = (Nat.digitsAppend 256 count n).reverse.map Int.ofNat := by
  rw [← map_digitsAppend h, numbers, List.map_map]
  refine List.map_congr_left fun d hd => ?_
  have hlt := Nat.lt_of_mem_digitsAppend (by decide) _ d (List.mem_reverse.mp hd)
  simp [Nat.mod_eq_of_lt hlt]

/-- Only where one bit is left over does a value of a set have the bytes of a parameter. -/
theorem setValue_wholeBytes_iff (width : Nat) : ValuesIn width ((width + 14) / 8) ∧
    (ValuesIn width ((width + 7) / 8) ∧ AsParameters width ↔ width % 8 = 1) := by
  have hvalues : ValuesIn width ((width + 14) / 8) := by
    refine ⟨fun s n hs hn => ?_, fun s n hs hn => ?_⟩
    · refine ⟨_, by rw [setValue_eq hs, if_pos hn], length_lastBytes _ _, ?_⟩
      rw [numbers_lastBytes (hn.trans_le (pow_le_span width)), ofBytes_reverse, Nat.digitsAppend,
        Nat.ofDigits_append_replicate_zero, Nat.ofDigits_digits]
    · exact ⟨_, by rw [setValue_eq hs, if_neg (by omega)]⟩
  refine ⟨hvalues, fun h => ?_, fun h => ?_⟩
  · obtain ⟨bs, hbs, hlength, -⟩ := hvalues.encoded "0" 0 (by cbv) (Nat.two_pow_pos width)
    obtain ⟨bs', hbs', hlength', -⟩ := h.1.encoded "0" 0 (by cbv) (Nat.two_pow_pos width)
    obtain rfl := Except.ok.inj (hbs.symm.trans hbs')
    omega
  · have hsame : (width + 14) / 8 = (width + 7) / 8 := by omega
    refine ⟨hsame ▸ hvalues, fun s n bs hs hbs => ?_⟩
    rw [setValue_eq hs] at hbs
    split at hbs
    · next hn =>
      obtain rfl := Except.ok.inj hbs
      have hroom : n < 256 ^ ((width + 7) / 8) := hn.trans_le (pow_width_le width)
      rw [parameter_eq_of_markedInt? hs, Int.toNat_natCast, if_pos hroom, hsame, numbers_lastBytes hroom]
    · cases hbs

/-- A value of one byte has two. -/
theorem setValue_padded : ¬ValuesIn 8 1 := by
  intro h
  have hfive : markedInt? "5" = some (5 : Nat) := by cbv
  obtain ⟨bs, hbs, hlength, -⟩ := h.encoded "5" 5 hfive (by decide)
  rw [setValue_eq hfive, if_pos (by decide)] at hbs
  simp [← Except.ok.inj hbs] at hlength

end PacketSmith.Console
