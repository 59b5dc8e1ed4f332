import Mathlib.Data.List.Basic
import PacketSmith.Proofs.Packet.Comparing

/-!
# The bytes of a packet

The bytes of a packet are put together from hexadecimal digits, and data that does not end with a digit hands its last
bits on to the next. Laying out data appends its bits (`Layout.bits_push`), so the bytes of a packet are the bits of
its extractions and zeros after them (`bits_of_payload`).
-/

namespace PacketSmith

open List

def byteBits (b : UInt8) : List Bool := lowBits 8 b.toNat

def digitBits (c : Char) : List Bool := lowBits 4 ((Text.digit? c).getD 0)

@[simp] theorem length_flatMap_digitBits (cs : List Char) : (cs.flatMap digitBits).length = 4 * cs.length := by
  induction cs with
  | nil => rfl
  | cons c cs ih =>
    simp [digitBits] at ih ⊢
    omega

/-! ## Hexadecimal digits -/

namespace Text

theorem digit?_digitChar : ∀ n < 16, digit? n.digitChar = some n := by decide

theorem toList_zeros (n : Nat) : ("".pushn '0' n).toList = List.replicate n '0' := by
  rw [String.pushn_eq_repeat_push]
  induction n with
  | zero => rfl
  | succ n ih => simp [Nat.repeat, ih, replicate_succ']

theorem toList_zeroFill_hexDigits (d v : Nat) :
    (zeroFill d (hexDigits v)).toList =
      List.replicate (d - (Nat.toDigits 16 v).length) '0' ++ Nat.toDigits 16 v := by
  rw [zeroFill, String.toList_append, toList_zeros, ← String.length_toList, hexDigits,
    String.toList_ofList]

variable {d v : Nat} {c : Char}

theorem toList_zeroFill_succ (hd : 0 < d) (v : Nat) :
    (zeroFill (d + 1) (hexDigits v)).toList =
      (zeroFill d (hexDigits (v / 16))).toList ++ [(v % 16).digitChar] := by
  rw [toList_zeroFill_hexDigits, toList_zeroFill_hexDigits]
  by_cases h : v < 16
  · rw [Nat.div_eq_of_lt h, Nat.mod_eq_of_lt h, Nat.toDigits_of_lt_base h]
    obtain ⟨d, rfl⟩ := Nat.exists_eq_add_of_lt hd
    simp [replicate_succ']
  · rw [Nat.toDigits_of_base_le (b := 16) (by omega) (by omega)]
    simp

theorem flatMap_digitBits_zeroFill (hd : 0 < d) (hv : v < 16 ^ d) :
    (zeroFill d (hexDigits v)).toList.flatMap digitBits = lowBits (4 * d) v := by
  induction d, hd using Nat.le_induction generalizing v with
  | base =>
    have hlt : v < 16 := by simpa using hv
    simp [toList_zeroFill_hexDigits, Nat.toDigits_of_lt_base hlt, digitBits, digit?_digitChar v hlt]
  | succ d hd ih =>
    have hdiv : v / 16 < 16 ^ d := by
      omega
    have hshift : v >>> 4 = v / 16 := Nat.shiftRight_eq_div_pow v 4
    rw [toList_zeroFill_succ hd, flatMap_append, ih hdiv, Nat.mul_succ, lowBits_add, hshift]
    have hlast : lowBits 4 (v % 16) = lowBits 4 v := lowBits_mod (n := 4) (Nat.le_refl 4) v
    simp [digitBits, digit?_digitChar (v % 16) (Nat.mod_lt v (by decide)), hlast]

theorem mem_toDigits (v : Nat) (hc : c ∈ Nat.toDigits 16 v) : ∃ n < 16, c = n.digitChar := by
  induction v using Nat.strongRecOn with
  | ind v ih =>
    by_cases h : v < 16
    · rw [Nat.toDigits_of_lt_base h] at hc
      exact ⟨v, h, mem_singleton.mp hc⟩
    · rw [Nat.toDigits_of_base_le (by decide) (by omega)] at hc
      rcases mem_append.mp hc with hc | hc
      · exact ih (v / 16) (by omega) hc
      · exact ⟨v % 16, Nat.mod_lt v (by decide), mem_singleton.mp hc⟩

theorem mem_zeroFill_hexDigits (hc : c ∈ (zeroFill d (hexDigits v)).toList) : ∃ n < 16, c = n.digitChar := by
  rw [toList_zeroFill_hexDigits] at hc
  rcases mem_append.mp hc with hc | hc
  · exact ⟨0, by decide, eq_of_mem_replicate hc⟩
  · exact mem_toDigits v hc

end Text

namespace Packet

theorem flatMap_byteBits_bytesOf {cs : List Char} (heven : cs.length % 2 = 0)
    (hdigits : ∀ c ∈ cs, ∃ n < 16, c = n.digitChar) : (bytesOf cs).flatMap byteBits = cs.flatMap digitBits := by
  fun_induction bytesOf cs with
  | case1 a b rest ih =>
    obtain ⟨m, hm, rfl⟩ := hdigits a (by simp)
    obtain ⟨n, hn, rfl⟩ := hdigits b (by simp)
    have hbyte : byteBits (m * 16 + n).toUInt8 = lowBits 4 m ++ lowBits 4 n := by
      have hvalue : (m * 16 + n).toUInt8.toNat = m * 2 ^ 4 + n % 2 ^ 4 := by
        simp
        omega
      rw [byteBits, hvalue]
      exact lowBits_mul_add 4 4 m n
    simp only [flatMap_cons, digitBits, Text.digit?_digitChar m hm, Text.digit?_digitChar n hn,
      Option.getD_some, hbyte, append_assoc]
    have heven : rest.length % 2 = 0 := by
      simp only [length_cons] at heven
      omega
    rw [ih heven (fun c hc => hdigits c (by simp [hc]))]
  | case2 cs hshort =>
    cases cs with
    | nil => rfl
    | cons a rest =>
      cases rest with
      | nil => simp at heven
      | cons b rest => exact absurd rfl (hshort a b rest)

namespace Layout

def bits (l : Layout) : List Bool :=
  (l.pieces.reverse.flatMap fun q => lowBits (4 * q.1) q.2) ++ lowBits l.carryWidth l.carry

/-- The pieces have their digits, and what is left over does not fill one. -/
structure Valid (l : Layout) : Prop where
  pieces : ∀ q ∈ l.pieces, 0 < q.1 ∧ q.2 < 16 ^ q.1
  carryWidth : l.carryWidth < 4
  carry : l.carry < 2 ^ l.carryWidth

theorem valid_empty : ({} : Layout).Valid := ⟨by simp, by simp, by simp⟩

variable {l : Layout}

theorem Valid.push (h : l.Valid) (w v : Nat) : (l.push w v).Valid := by
  simp only [Layout.push, Nat.pow_eq]
  have hfits : v % 2 ^ w + l.carry * 2 ^ w < 2 ^ (w + l.carryWidth) := by
    calc v % 2 ^ w + l.carry * 2 ^ w < (l.carry + 1) * 2 ^ w := by rw [Nat.add_mul]; omega
      _ ≤ 2 ^ l.carryWidth * 2 ^ w := Nat.mul_le_mul_right _ h.carry
      _ = 2 ^ (w + l.carryWidth) := by rw [← Nat.pow_add, Nat.add_comm]
  generalize v % 2 ^ w + l.carry * 2 ^ w = value at hfits ⊢
  generalize w + l.carryWidth = width at hfits ⊢
  refine ⟨?_, Nat.mod_lt _ (by decide), Nat.mod_lt _ (Nat.two_pow_pos _)⟩
  intro q hq
  rcases mem_append.mp hq with hq | hq
  · by_cases hdigits : width / 4 = 0
    · simp [hdigits] at hq
    · obtain rfl : q = (width / 4, value / 2 ^ (width % 4)) := by simpa [hdigits] using hq
      refine ⟨Nat.pos_of_ne_zero hdigits, ?_⟩
      rw [Nat.div_lt_iff_lt_mul (Nat.two_pow_pos _), show 16 = 2 ^ 4 from rfl, ← Nat.pow_mul,
        ← Nat.pow_add, Nat.div_add_mod]
      exact hfits
  · exact h.pieces q hq

theorem bits_push (w v : Nat) : (l.push w v).bits = l.bits ++ lowBits w v := by
  simp only [push, Nat.pow_eq]
  generalize hvalue : v % 2 ^ w + l.carry * 2 ^ w = value
  generalize hwidth : w + l.carryWidth = width
  have hboth : lowBits width value = lowBits l.carryWidth l.carry ++ lowBits w v := by
    rw [← lowBits_mul_add, ← hvalue, ← hwidth, Nat.add_comm w, Nat.add_comm (v % 2 ^ w)]
  have hsplit : lowBits width value =
      lowBits (4 * (width / 4)) (value / 2 ^ (width % 4)) ++ lowBits (width % 4) (value % 2 ^ (width % 4)) := by
    rw [← Nat.shiftRight_eq_div_pow, lowBits_mod (Nat.le_refl _), ← lowBits_add, Nat.div_add_mod]
  have hpieces : ((if width / 4 = 0 then [] else [(width / 4, value / 2 ^ (width % 4))]) ++
      l.pieces).reverse.flatMap (fun q => lowBits (4 * q.1) q.2) =
      (l.pieces.reverse.flatMap fun q => lowBits (4 * q.1) q.2) ++
        lowBits (4 * (width / 4)) (value / 2 ^ (width % 4)) := by
    by_cases hdigits : width / 4 = 0
    · simp [hdigits]
    · simp [hdigits]
  simp only [bits, hpieces, append_assoc, ← hsplit, hboth]

theorem length_bits (l : Layout) : l.bits.length = 4 * l.length + l.carryWidth := by
  obtain ⟨pieces, w, v⟩ := l
  simp only [bits, length, length_append, length_lowBits, ← sum_eq_foldl_nat]
  induction pieces with
  | nil => simp
  | cons q pieces ih =>
    simp only [reverse_cons, flatMap_append, length_append, map_cons, sum_cons,
      flatMap_cons, flatMap_nil, append_nil, length_lowBits] at ih ⊢
    omega

theorem flatMap_digitBits_text (h : l.Valid) (hcarry : l.carryWidth = 0) :
    l.text.toList.flatMap digitBits = l.bits := by
  rw [text, String.toList_join, bits, hcarry, lowBits_zero, append_nil, flatMap_map,
    flatMap_assoc]
  apply flatMap_congr
  intro q hq
  obtain ⟨hpos, hfits⟩ := h.pieces q (mem_reverse.mp hq)
  exact Text.flatMap_digitBits_zeroFill hpos hfits

theorem length_text (h : l.Valid) (hcarry : l.carryWidth = 0) : l.text.toList.length = l.length := by
  have hlength := congrArg List.length (flatMap_digitBits_text h hcarry)
  rw [length_flatMap_digitBits, length_bits] at hlength
  omega

theorem mem_text {c : Char} (hc : c ∈ l.text.toList) : ∃ n < 16, c = n.digitChar := by
  rw [text, String.toList_join, flatMap_map] at hc
  obtain ⟨q, -, hc⟩ := mem_flatMap.mp hc
  exact Text.mem_zeroFill_hexDigits hc

end Layout

variable (p : Packet) (ρ : Assignment)

def layout : Layout :=
  p.extractions.foldl (fun l e => l.push (e.length.evalNat ρ) (e.data.evalNat ρ)) {}

theorem layout_spec : (p.layout ρ).Valid ∧ (p.layout ρ).bits = layOut ρ p.extractions := by
  -- The layout before an extraction and the extractions laid out so far go together.
  have hfold : ∀ (es : List Extraction) (l : Layout), l.Valid →
      (es.foldl (fun l e => l.push (e.length.evalNat ρ) (e.data.evalNat ρ)) l).Valid ∧
      (es.foldl (fun l e => l.push (e.length.evalNat ρ) (e.data.evalNat ρ)) l).bits =
        l.bits ++ layOut ρ es := by
    intro es
    induction es with
    | nil =>
      intro l hl
      simpa using hl
    | cons e es ih =>
      intro l hl
      obtain ⟨hvalid, hbits⟩ := ih _ (hl.push (e.length.evalNat ρ) (e.data.evalNat ρ))
      refine ⟨hvalid, ?_⟩
      rw [foldl_cons, hbits, Layout.bits_push, append_assoc]
      rfl
  exact hfold p.extractions {} Layout.valid_empty

/-- The number of bytes that the length of a packet asks for. -/
def byteSize : Nat := (size.evalNat ρ + 7) / 8

/-- The digits of the extractions, filled up with zeros to the length of the packet. -/
def digits : List Char :=
  (p.layout ρ).text.toList ++ List.replicate (2 * byteSize ρ - (p.layout ρ).length) '0'

theorem payload_digits :
    p.payload ρ = if (layOut ρ p.extractions).length % 4 ≠ 0 then .error .violated else
      if (p.digits ρ).length % 2 = 1 then .error .malformed else .ok (bytesOf (p.digits ρ)) := by
  change ((do
    require ((p.layout ρ).carryWidth == 0)
    if ((p.layout ρ).length + (byteSize ρ * 2 - (p.layout ρ).length)) % 2 = 1 then throw .malformed
    return bytesOf ((p.layout ρ).text ++
      "".pushn '0' (byteSize ρ * 2 - (p.layout ρ).length)).toList) : Except Fault (List UInt8)) = _
  obtain ⟨hvalid, hbits⟩ := p.layout_spec ρ
  have hlength := (p.layout ρ).length_bits
  have hwidth := hvalid.carryWidth
  rw [hbits] at hlength
  by_cases hcarry : (p.layout ρ).carryWidth = 0
  · have hdigit : ¬ (layOut ρ p.extractions).length % 4 ≠ 0 := by omega
    rw [if_neg hdigit, String.toList_append, Text.toList_zeros, Nat.mul_comm _ 2, digits, length_append,
      length_replicate, Layout.length_text hvalid hcarry, hcarry]
    split <;> rfl
  · have hdigit : (layOut ρ p.extractions).length % 4 ≠ 0 := by omega
    rw [if_pos hdigit, beq_false_of_ne hcarry]
    rfl

variable {p ρ}

theorem mem_digits {c : Char} (hc : c ∈ p.digits ρ) : ∃ n < 16, c = n.digitChar := by
  rcases mem_append.mp hc with hc | hc
  · exact Layout.mem_text hc
  · exact ⟨0, by decide, eq_of_mem_replicate hc⟩

theorem flatMap_digitBits_digits (hdigit : (layOut ρ p.extractions).length % 4 = 0) :
    (p.digits ρ).flatMap digitBits = layOut ρ p.extractions ++ List.replicate
      (8 * byteSize ρ - (layOut ρ p.extractions).length) false := by
  obtain ⟨hvalid, hbits⟩ := p.layout_spec ρ
  have hlength := (p.layout ρ).length_bits
  have hwidth := hvalid.carryWidth
  have hzero : digitBits '0' = List.replicate 4 false := by decide
  rw [hbits] at hlength
  rw [digits, flatMap_append, Layout.flatMap_digitBits_text hvalid (by omega), hbits, flatMap_replicate,
    hzero, flatten_replicate_replicate]
  congr 2
  omega

/-- There are bytes if the extractions end with a digit, and with a byte if they go beyond the length
of the packet. -/
theorem payload_of_length (hdigit : (layOut ρ p.extractions).length % 4 = 0)
    (hbyte : (layOut ρ p.extractions).length ≤ 8 * byteSize ρ ∨ (layOut ρ p.extractions).length % 8 = 0) :
    ∃ bytes, p.payload ρ = .ok bytes := by
  have hlength := congrArg List.length (flatMap_digitBits_digits hdigit)
  simp only [length_flatMap_digitBits, length_append, length_replicate] at hlength
  rw [payload_digits, if_neg (by omega), if_neg (by omega)]
  exact ⟨_, rfl⟩

theorem bits_of_payload {bytes : List UInt8} (h : p.payload ρ = .ok bytes) :
    bytes.flatMap byteBits = layOut ρ p.extractions ++ List.replicate
      (8 * byteSize ρ - (layOut ρ p.extractions).length) false := by
  rw [payload_digits] at h
  split_ifs at h with hdigit heven
  cases h
  rw [flatMap_byteBits_bytesOf (by omega) fun c => mem_digits, flatMap_digitBits_digits (by omega)]

/-- The bytes of a packet are the bits of its extractions one after the other, digit by digit and filled up with zeros.
There are none if the extractions end within a digit, or the digits within a byte. -/
theorem payload_concatenates (p : Packet) (ρ : Assignment) :
    (∀ n, ({ p with extractions := p.extractions.take n }.layout ρ).Valid) ∧
    p.payload ρ = (if (layOut ρ p.extractions).length % 4 ≠ 0 then .error .violated
      else if (p.digits ρ).length % 2 = 1 then .error .malformed
      else .ok (bytesOf (p.digits ρ))) ∧
    ((layOut ρ p.extractions).length % 4 = 0 →
      (p.layout ρ).text.toList.flatMap digitBits = layOut ρ p.extractions ∧
      (∀ c ∈ p.digits ρ, ∃ n < 16, c = n.digitChar) ∧
      ((p.digits ρ).length % 2 = 0 → (bytesOf (p.digits ρ)).flatMap byteBits = layOut ρ p.extractions ++
        List.replicate (8 * byteSize ρ - (layOut ρ p.extractions).length) false)) := by
  refine ⟨fun n => (layout_spec _ ρ).1, payload_digits p ρ, fun hdigit => ⟨?_, fun c => mem_digits, fun heven => ?_⟩⟩
  · obtain ⟨hvalid, hbits⟩ := p.layout_spec ρ
    have hlength := (p.layout ρ).length_bits
    have hwidth := hvalid.carryWidth
    rw [hbits] at hlength
    rw [Layout.flatMap_digitBits_text hvalid (by omega), hbits]
  · rw [flatMap_byteBits_bytesOf heven fun c => mem_digits, flatMap_digitBits_digits hdigit]

end Packet

end PacketSmith
