import PacketSmith.Proofs.Packet.Lookaheads
import PacketSmith.Proofs.TakenEdges

/-!
# Lookaheads with an offset

A symbolic run only adds to its packet (`Changes.extends`), and what it has read is as `Made` says if there are
constraints on the packet at all (`Changes.made`). A lookahead notes after how many extractions it was made and not its
offset, so it shows the bits from there on whatever the offset is (`lookahead_from_position`).
-/

namespace PacketSmith

open List Packet Bits

variable {o : Options} {counting : Bool} {t u w : SymbolicState} {p : Packet}

namespace Packet

/-- Lengths are added up and compared with the size of the packet, so they are words. -/
theorem width_of_lengthConstraints {fs : List Formula} (h : p.lengthConstraints o = .ok fs) :
    ∀ e ∈ p.extractions, e.length.width = 32 := by
  have hwidth {α : Type} {f : {w : Nat} → Term (.bits w) → Term (.bits w) → α} {a b : Bits} {x : α}
      (h : both f a b = .ok x) : b.width = a.width := by
    unfold both at h
    split at h
    · assumption
    · cases h
  have hfold : ∀ (es : List Extraction) (sum t : Bits), es.foldlM (fun sum e => sum.arith .add e.length) sum = .ok t →
        t.width = sum.width ∧ ∀ e ∈ es, e.length.width = sum.width := by
    intro es
    induction es with
    | nil =>
      intro sum t h
      cases h
      simp
    | cons e es ih =>
      intro sum t h
      obtain ⟨next, hnext, h⟩ := bind_eq_ok.mp h
      have he := hwidth hnext
      have hsum : next.width = sum.width := by
        simp only [arith, both, dif_pos he] at hnext
        cases hnext
        rfl
      obtain ⟨ht, hes⟩ := ih next t h
      exact ⟨ht.trans hsum, forall_mem_cons.mpr ⟨he, fun e he => (hes e he).trans hsum⟩⟩
  obtain ⟨total, htotal, h⟩ := bind_eq_ok.mp h
  have hsize : (total.getD (ofInt o.minPacketLength 32)).settle.width = 32 := by
    split at h
    · obtain ⟨f, hf, -⟩ := bind_eq_ok.mp h
      exact hwidth hf
    · obtain ⟨f, hf, -⟩ := bind_eq_ok.mp h
      exact (hwidth hf).symm
  rw [width_settle] at hsize
  generalize p.extractions = es at htotal ⊢
  cases es with
  | nil => simp
  | cons e es =>
    cases ht : es.foldlM (fun sum e => sum.arith .add e.length) e.length with
    | error f =>
      rw [totalLength, ht] at htotal
      cases htotal
    | ok t =>
      rw [totalLength, ht] at htotal
      cases htotal
      obtain ⟨hsum, hes⟩ := hfold es e.length t ht
      have he : e.length.width = 32 := hsum.symm.trans hsize
      exact forall_mem_cons.mpr ⟨he, fun e' he' => (hes e' he').trans he⟩

theorem constraints_snd (o : Options) (p : Packet) : (p.constraints o).2 = p ∨ (p.constraints o).2 = p.withTail := by
  unfold constraints
  split
  · exact .inl rfl
  · split_ifs
    · exact .inl rfl
    · exact .inl rfl
    · exact .inr rfl

end Packet

/-! ## The packet of a run -/

theorem Changes.extends (h : Changes o counting t u) :
    t.packet.extractions <+: u.packet.extractions ∧ t.packet.lookaheads <+: u.packet.lookaheads := by
  induction h with
  | refl => exact ⟨prefix_rfl, prefix_rfl⟩
  | @tail b _ _ hstep ih =>
    cases hstep with
    | extract read =>
      obtain ⟨_, -, read⟩ := bind_eq_ok.mp read
      obtain ⟨_, -, read⟩ := bind_eq_ok.mp read
      cases read
      exact ⟨ih.1.trans (prefix_append _ _), ih.2⟩
    | lookahead read =>
      obtain ⟨_, -, read⟩ := bind_eq_ok.mp read
      obtain ⟨_, -, read⟩ := bind_eq_ok.mp read
      cases read
      exact ⟨ih.1, ih.2.trans (prefix_append _ _)⟩
    | complete =>
      rcases constraints_snd o b.packet with heq | heq
      · simpa [heq] using ih
      · simpa [heq] using ⟨ih.1.trans (prefix_append _ _), ih.2⟩
    | _ => exact ih

/-- A packet that has been completed has its tail, and there are no constraints on it any more. -/
theorem Changes.made (hstart : t.packet = {}) (h : Changes o counting t u) (htail : u.packet.tailed = false)
    (hwidth : ∀ e ∈ u.packet.extractions, e.length.width = 32) : Packet.Made o u.packet := by
  induction h with
  | refl => exact hstart ▸ made_empty o
  | @tail b _ _ hstep ih =>
    cases hstep with
    | extract read =>
      have hread := read
      obtain ⟨length, hlength, read⟩ := bind_eq_ok.mp read
      obtain ⟨_, -, read⟩ := bind_eq_ok.mp read
      cases read
      refine (ih htail fun e he => hwidth e (mem_append_left _ he)).extract (fun l hl => ?_) hread
      subst hl
      obtain rfl := Except.ok.inj hlength
      exact hwidth _ (mem_append_right _ (mem_singleton_self _))
    | lookahead read =>
      have hread := read
      obtain ⟨_, -, read⟩ := bind_eq_ok.mp read
      obtain ⟨_, -, read⟩ := bind_eq_ok.mp read
      cases read
      exact (ih htail hwidth).lookahead hread
    | maxLength length =>
      obtain ⟨hextractions, hlookaheads, htailed⟩ := ih htail hwidth
      exact ⟨hextractions, hlookaheads, htailed⟩
    | complete =>
      rcases constraints_snd o b.packet with heq | heq
      · simp only [heq] at htail hwidth ⊢
        exact ih htail hwidth
      · simp [heq, withTail] at htail
    | _ => exact ih htail hwidth

theorem Symbolic.lookahead_inv {offset size : Json} {v : Bits} (h : (lookahead o offset size).result t = (.ok v, u)) :
    u.packet.lookaheads = t.packet.lookaheads ++ [⟨t.packet.extractions.length, v⟩] ∧ Changes o true t u := by
  have hdoes := (lookahead_regular (σ := RelEmbedding.refl _) (c := true) o offset size).does t
  rw [h] at hdoes
  refine ⟨?_, hdoes⟩
  obtain ⟨_, _, hoffset, h₁⟩ := result_bind_inv h
  obtain ⟨-, rfl⟩ := result_lift_inv hoffset
  obtain ⟨_, _, hsize, h₂⟩ := result_bind_inv h₁
  obtain ⟨-, rfl⟩ := result_lift_inv hsize
  obtain ⟨n, _, hn, h₃⟩ := result_bind_inv h₂
  obtain ⟨-, rfl⟩ := result_lift_inv hn
  obtain ⟨_, _, hget, h₄⟩ := result_bind_inv h₃
  cases hget
  obtain ⟨⟨v', p⟩, _, hread, h₅⟩ := result_bind_inv h₄
  obtain ⟨hread, rfl⟩ := result_lift_inv hread
  cases h₅
  obtain ⟨_, -, hread⟩ := bind_eq_ok.mp hread
  obtain ⟨_, -, hread⟩ := bind_eq_ok.mp hread
  cases hread
  rfl

/-- Whatever a symbolic run does before a lookahead and after it, the lookahead shows the bits of the packet that come
after those extracted before it, and not those at its offset from there. -/
theorem lookahead_from_position {start : SymbolicState}
    {offset size : Json} {v : Bits} {cs : List Formula} {q : Packet} {ρ : Assignment}
    {bytes : List UInt8} (hstart : start.packet = {}) (hbefore : Changes o true start t)
    (hlook : (Symbolic.lookahead o offset size).result t = (.ok v, u))
    (hafter : Changes o true u w) (hcs : w.packet.constraints o = (.ok cs, q)) (hρ : ρ.Satisfies cs)
    (hvary : ∀ e ∈ w.packet.extractions, e.varies = true → e.length.evalNat ρ < 2 ^ 31)
    (hbytes : q.payload ρ = .ok bytes) :
    lowBits v.width (v.evalNat ρ) =
      ((bytes.flatMap byteBits).drop (layOut ρ t.packet.extractions).length).take v.width := by
  obtain ⟨hnew, hlooked⟩ := Symbolic.lookahead_inv hlook
  have hmade : Packet.Made o w.packet := by
    refine Changes.made hstart ((hbefore.trans hlooked).trans hafter) ?_ ?_
    · cases htailed : w.packet.tailed with
      | false => rfl
      | true =>
        unfold Packet.constraints at hcs
        split at hcs
        · cases hcs
        · rw [if_pos htailed] at hcs
          cases hcs
    · obtain ⟨lengths, hlengths, -⟩ := Packet.constraints_ok hcs
      exact Packet.width_of_lengthConstraints hlengths
  have hmem := (Changes.extends hafter).2.subset (hnew ▸ mem_append_right _ (mem_singleton_self _))
  have hshown := hmade.lowBits_payload hcs hρ hvary hmem hbytes
  rwa [← prefix_iff_eq_take.mp ((Changes.extends hlooked).1.trans (Changes.extends hafter).1)] at hshown

namespace Skipping

/-- Eight bits are looked at, eight bits further on. -/
def peek : Symbolic Bits := Symbolic.lookahead {} (.int 8) (.int 8)

def extract : Symbolic Bits := Symbolic.extract {} (some 8) none none

/-- Two bytes are extracted after that. -/
def extracted : SymbolicState := ((extract >>= fun _ => extract).result (peek.result {}).2).2

theorem extract_does : Does {} true extract :=
  (Symbolic.extract_regular (σ := RelEmbedding.refl _) {} (some 8) none none).does

def shown : Assignment :=
  valued [("packet_size", 16), ("$packet0$", 0xab), ("$packet1$", 0xcd), ("$lookahead0$", 0xab)]

end Skipping

theorem lookahead_from_position_skipping :
    ∃ v u cs q, Skipping.peek.result {} = (.ok v, u) ∧ Skipping.extracted.packet.constraints {} = (.ok cs, q) ∧
      Skipping.shown.Satisfies cs ∧ q.payload Skipping.shown = .ok [0xab, 0xcd] ∧
      lowBits v.width (v.evalNat Skipping.shown) = ([0xab, 0xcd].flatMap byteBits).take v.width := by
  obtain ⟨cs, q, hcs⟩ : ∃ cs q, Skipping.extracted.packet.constraints {} = (.ok cs, q) := ⟨_, _, rfl⟩
  have hρ : Skipping.shown.Satisfies cs := by
    cases hcs
    decide +kernel
  have hbytes : q.payload Skipping.shown = .ok [0xab, 0xcd] := by
    cases hcs
    decide +kernel
  have hlook : Skipping.peek.result {} = (.ok _, _) := rfl
  refine ⟨_, _, cs, q, hlook, hcs, hρ, hbytes, ?_⟩
  exact lookahead_from_position (w := Skipping.extracted) rfl .refl hlook
    (Skipping.extract_does.bind (fun _ => Skipping.extract_does) _) hcs hρ (by decide +kernel) hbytes

/-- The lookahead has the value of the first byte, though its offset is that of the second one. -/
theorem lookahead_offset_ignored :
    ∃ v u cs q, Skipping.peek.result {} = (.ok v, u) ∧ Skipping.extracted.packet.constraints {} = (.ok cs, q) ∧
      Skipping.shown.Satisfies cs ∧ q.payload Skipping.shown = .ok [0xab, 0xcd] ∧
      lowBits v.width (v.evalNat Skipping.shown) ≠ (([0xab, 0xcd].flatMap byteBits).drop 8).take v.width :=
  ⟨_, _, _, _, rfl, rfl, by decide +kernel, by decide +kernel, by decide +kernel⟩

end PacketSmith
