import PacketSmith.Proofs.Packet.BitStrings

/-!
# Lookaheads and the extractions after them

A lookahead is compared with the extractions that follow it, one after the other. `Comparison.Tracks` says that the
last `r` bits of the value `v` are still to be compared, and one step compares as many of them as the extraction has
(`Comparison.step_of_tracks`). So the constraints make the value the start of what is laid out
(`Comparison.lowBits_of_run`), and they hold if it is (`Comparison.run_of_lowBits`).
-/

namespace PacketSmith

open List Bits Except Extraction Assignment

def Extraction.bits (ρ : Assignment) (e : Extraction) : List Bool :=
  lowBits (e.length.evalNat ρ) (e.data.evalNat ρ)

def layOut (ρ : Assignment) (es : List Extraction) : List Bool := es.flatMap (bits ρ)

@[simp] theorem Extraction.length_bits (ρ : Assignment) (e : Extraction) :
    (e.bits ρ).length = e.length.evalNat ρ := length_lowBits _ _

@[simp] theorem layOut_nil (ρ : Assignment) : layOut ρ [] = [] := rfl

@[simp] theorem layOut_cons (ρ : Assignment) (e : Extraction) (es : List Extraction) :
    layOut ρ (e :: es) = e.bits ρ ++ layOut ρ es := rfl

@[simp] theorem layOut_append (ρ : Assignment) (es es' : List Extraction) :
    layOut ρ (es ++ es') = layOut ρ es ++ layOut ρ es' := flatMap_append

/-- The length of an extraction is a word, without its sign bit. -/
structure Extraction.Sized (ρ : Assignment) (e : Extraction) : Prop where
  width : e.length.width = 32
  small : e.length.evalNat ρ < 2 ^ 31

namespace Packet

theorem not_mem_of_among (h : among e vs = .ok false) : e ∉ vs := by
  induction vs with
  | nil => simp
  | cons v vs ih =>
    intro hmem
    obtain ⟨sameLength, hlength, h⟩ := bind_eq_ok.mp h
    rcases mem_cons.mp hmem with rfl | hmem
    · obtain rfl : sameLength = true := by simpa [alike_refl] using hlength.symm
      obtain ⟨sameData, hdata, h⟩ := bind_eq_ok.mp h
      obtain rfl : sameData = true := by simpa [alike_refl] using hdata.symm
      cases h
    · cases sameLength with
      | false => exact ih h hmem
      | true =>
        obtain ⟨sameData, -, h⟩ := bind_eq_ok.mp h
        cases sameData with
        | false => exact ih h hmem
        | true => cases h

namespace Comparison

/-- What the terms of a comparison stand for: of the value `v`, the last `r` bits are left. -/
structure Tracks (ρ : Assignment) (v r : Nat) (c : Comparison) : Prop where
  data : c.data.evalNat ρ = v
  wide : 32 ≤ c.data.width
  maskWidth : c.mask.width = c.data.width
  mask : c.mask.evalNat ρ = 2 ^ r - 1
  leftWidth : c.left.width = 32
  left : c.left.evalNat ρ = r
  small : r < 2 ^ 31

variable {c : Comparison} {varying es : List Extraction}
  {onward : Option Comparison}

theorem start_tracks (h : l.data.width < 2 ^ 31) : (start l).Tracks ρ (l.data.evalNat ρ) l.data.width where
  data := by
    change (if l.data.width < 32 then l.data.resize 32 else l.data).evalNat ρ = _
    split
    · exact evalNat_resize ρ (by omega)
    · rfl
  wide := by
    change 32 ≤ (if l.data.width < 32 then l.data.resize 32 else l.data).width
    split
    · exact Nat.le_refl 32
    · omega
  maskWidth := by
    simp only [start]
    split <;> rfl
  mask := by
    change (if l.data.width < 32 then (ofInt (-1) l.data.width).resize 32
      else ofInt (-1) l.data.width).evalNat ρ = _
    split
    · rename_i hw
      rw [evalNat_resize ρ (a := ofInt (-1) l.data.width) (Nat.le_of_lt hw),
        evalNat_ofInt_neg_one]
    · exact evalNat_ofInt_neg_one ρ _
  leftWidth := rfl
  left := (evalNat_ofInt_natCast ρ l.data.width 32).trans (Nat.mod_eq_of_lt (by omega))
  small := h

theorem step_of_tracks (varying : List Extraction) (h : c.Tracks ρ v r) (he : e.Sized ρ) :
    ∃ (agree : Formula) (next : Comparison),
      (agree.eval ρ = true ↔ e.data.evalNat ρ >>> (e.length.evalNat ρ - r) =
        (v % 2 ^ r) >>> (r - e.length.evalNat ρ)) ∧
      (∀ bound, { next with bound := bound }.Tracks ρ v (r - e.length.evalNat ρ)) ∧
      step varying c e = (do
        if ← among e varying then return (agree, some { next with bound := c.bound })
        else if c.bound - e.data.width ≤ 0 then return (agree, none)
        else return (agree, some { next with bound := c.bound - e.data.width })) := by
  have hr := h.small
  have hl := he.small
  obtain ⟨overlap, hoverlap, hoverlapWidth, hoverlapValue⟩ :=
    Bits.least_of_width ρ (a := e.length) (b := c.left) (by rw [h.leftWidth, he.width])
      (by rw [he.width]; omega) (by rw [he.width, h.left]; omega)
  obtain ⟨left, hleft, hleftWidth, hleftValue⟩ :=
    Bits.surplus_of_width ρ (a := c.left) (b := e.length) (by rw [h.leftWidth, he.width])
      (by rw [h.leftWidth, h.left]; omega) (by rw [h.leftWidth]; omega)
  obtain ⟨unread, hunread, -, hunreadValue⟩ :=
    Bits.sub_of_width ρ (a := e.length) (b := overlap) hoverlapWidth (by omega)
  obtain ⟨masked, hmasked, -, hmaskedValue⟩ :=
    Bits.and_of_width ρ (a := c.data) (b := c.mask) h.maskWidth
  rw [h.left] at hoverlapValue hleftValue
  rw [h.data, h.mask, Nat.and_two_pow_sub_one_eq_mod] at hmaskedValue
  refine ⟨(e.data.arithWide .lshr unread.settle).relWide .eq (masked.arithWide .lshr left.settle),
    { c with left := left.settle, mask := (c.mask.arithWide .lshr overlap.settle).settle }, ?_, ?_, ?_⟩
  · rw [Bits.eval_relWide_eq]
    simp only [Bits.evalNat_lshr, Bits.evalNat_settle, hunreadValue, hmaskedValue, hleftValue,
      hoverlapValue]
    rw [show e.length.evalNat ρ - min (e.length.evalNat ρ) r = e.length.evalNat ρ - r by omega]
  · intro bound
    exact {
      data := h.data
      wide := h.wide
      maskWidth := by
        simp [hoverlapWidth, he.width, h.maskWidth, h.wide]
      mask := by
        simp only [Bits.evalNat_settle, Bits.evalNat_lshr, h.mask, hoverlapValue,
          two_pow_sub_one_shiftRight]
        rw [show r - min (e.length.evalNat ρ) r = r - e.length.evalNat ρ by omega]
      leftWidth := by simp [hleftWidth, h.leftWidth]
      left := by simp [hleftValue]
      small := by omega }
  · simp only [step, hoverlap, hleft, hunread, hmasked, bind, Except.bind]
    cases among e varying with
    | error f => rfl
    | ok found =>
      by_cases hbound : c.bound - e.data.width ≤ 0
      · cases found <;> simp [hbound]
      · cases found <;> simp [hbound]

section

variable (h : c.Tracks ρ v r)

include h

theorem fitsTail_of_tracks (he : e.Sized ρ) : ∃ f, c.fitsTail e [] = .ok [f] ∧
    (f.eval ρ = true ↔ r ≤ e.length.evalNat ρ) := by
  have hwidth : e.length.width = c.left.width := by rw [he.width, h.leftWidth]
  obtain ⟨f, hf, hvalue⟩ := rel_of_width ρ .ule hwidth
  refine ⟨f, by simp [fitsTail, hf, bind, Except.bind, pure, Except.pure], ?_⟩
  rw [hvalue, Relation.eval, BitVec.ule_iff_le, BitVec.le_def, toNat_ofNat_evalNat ρ rfl,
    toNat_ofNat_evalNat ρ hwidth, h.left]

/-- What a step leaves. It ends the comparison only if nothing is left: an extraction that is not
among the varying ones is as long as it is wide, so that the bound on what is left is kept. -/
theorem step_onward (he : e.Sized ρ) (hbound : (r : Int) ≤ c.bound)
    (hfixed : e ∉ varying → e.length.evalNat ρ = e.data.width) (hstep : step varying c e = .ok (agree, onward)) :
    match onward with
    | none => r ≤ e.length.evalNat ρ
    | some c' => c'.Tracks ρ v (r - e.length.evalNat ρ) ∧ ((r - e.length.evalNat ρ : Nat) : Int) ≤ c'.bound := by
  obtain ⟨_, next, -, hnext, hstep'⟩ := step_of_tracks varying h he
  rw [hstep'] at hstep
  obtain ⟨found, hamong, hstep⟩ := bind_eq_ok.mp hstep
  cases found with
  | true =>
    cases hstep
    exact ⟨hnext _, by dsimp only; omega⟩
  | false =>
    have hlength := hfixed (not_mem_of_among hamong)
    by_cases hle : c.bound - e.data.width ≤ 0
    · simp only [hle, if_true] at hstep
      cases hstep
      omega
    · simp only [hle, if_false] at hstep
      cases hstep
      exact ⟨hnext _, by dsimp only; omega⟩

theorem step_agrees (he : e.Sized ρ) (hstep : step varying c e = .ok (agree, onward)) (hagree : agree.eval ρ = true) :
    (e.bits ρ).take r = (lowBits r v).take (e.length.evalNat ρ) := by
  obtain ⟨agree', next, heval, -, hstep'⟩ := step_of_tracks varying h he
  rw [hstep'] at hstep
  obtain ⟨found, -, hstep⟩ := bind_eq_ok.mp hstep
  obtain rfl : agree' = agree := by
    by_cases hle : c.bound - e.data.width ≤ 0
    · cases found <;> simp only [hle, if_true] at hstep <;> cases hstep <;> rfl
    · cases found <;> simp only [hle, if_false] at hstep <;> cases hstep <;> rfl
  exact take_eq_of_shiftRight_eq (heval.mp hagree)

/-- The constraints of a comparison make the value the start of what is laid out. The last extraction
is the tail, which has to hold all that is left. -/
theorem lowBits_of_run (hbound : (r : Int) ≤ c.bound) (hsized : ∀ e ∈ es, e.Sized ρ)
    (hfixed : ∀ e ∈ es.dropLast, e ∉ varying → e.length.evalNat ρ = e.data.width) (hne : es ≠ [])
    (hrun : run varying c es = .ok fs) (hρ : ρ.Satisfies fs) : lowBits r v = (layOut ρ es).take r := by
  induction es generalizing c r fs with
  | nil => exact absurd rfl hne
  | cons e rest ih =>
    have he := hsized e mem_cons_self
    obtain ⟨enough, henough, hrun⟩ := bind_eq_ok.mp hrun
    obtain ⟨⟨agree, onward⟩, hstep, hrun⟩ := bind_eq_ok.mp hrun
    obtain ⟨more, rfl, hmore⟩ : ∃ more, fs = enough ++ agree :: more ∧
        ∀ c', onward = some c' → run varying c' rest = .ok more := by
      cases onward with
      | none => exact ⟨[], (ok.inj hrun).symm, by simp⟩
      | some c' =>
        obtain ⟨more, hmore, hrun⟩ := bind_eq_ok.mp hrun
        exact ⟨more, (ok.inj hrun).symm, by simpa using hmore⟩
    simp only [satisfies_append, satisfies_cons] at hρ
    obtain ⟨hρenough, hρagree, hρmore⟩ := hρ
    have hagree := step_agrees h he hstep hρagree
    have hleft : lowBits (r - e.length.evalNat ρ) v = (layOut ρ rest).take (r - e.length.evalNat ρ) := by
      cases rest with
      | nil =>
        obtain ⟨f, hf, hfits⟩ := fitsTail_of_tracks h he
        obtain rfl : [f] = enough := ok.inj (hf.symm.trans henough)
        have hle := hfits.mp (by simpa using hρenough)
        simp [Nat.sub_eq_zero_of_le hle]
      | cons e' rest =>
        have honward := step_onward h he hbound (hfixed e (by simp)) hstep
        cases onward with
        | none => simp [Nat.sub_eq_zero_of_le honward]
        | some c' =>
          refine ih honward.1 honward.2 (fun e he => hsized e (mem_cons_of_mem _ he)) ?_ (by simp)
            (hmore c' rfl) hρmore
          intro e'' he''
          exact hfixed e'' (by simp [he''])
    rw [lowBits_split (e.length.evalNat ρ), hleft, layOut_cons, take_append,
      length_bits, hagree]

/-- The constraints of a comparison with extractions of fixed lengths hold if the value is the start of
what is laid out, and if no data has bits beyond its length. -/
theorem run_of_lowBits (hsized : ∀ e ∈ es, e.Sized ρ) (hfits : ∀ e ∈ es, e.data.evalNat ρ < 2 ^ e.length.evalNat ρ)
    (hstart : lowBits r v = (layOut ρ es).take r) : ∃ fs, run [] c es = .ok fs ∧ ρ.Satisfies fs := by
  induction es generalizing c r with
  | nil => exact ⟨[], rfl, by simp⟩
  | cons e rest ih =>
    have he := hsized e mem_cons_self
    obtain ⟨agree, next, heval, hnext, hstep⟩ := step_of_tracks [] h he
    have htake : (e.bits ρ).take r = (lowBits r v).take (e.length.evalNat ρ) := by
      rw [hstart, layOut_cons, take_take, Nat.min_comm, ← take_take,
        take_left' (Extraction.length_bits ρ e)]
    have hagree := heval.mpr (shiftRight_eq_of_take_eq (hfits e mem_cons_self) htake)
    have hleft : lowBits (r - e.length.evalNat ρ) v = (layOut ρ rest).take (r - e.length.evalNat ρ) := by
      rw [← drop_lowBits, hstart, layOut_cons, drop_take, drop_left' (Extraction.length_bits ρ e)]
    obtain ⟨enough, henough, hρ⟩ : ∃ fs, c.fitsTail e rest = .ok fs ∧ ρ.Satisfies fs := by
      cases rest with
      | nil =>
        obtain ⟨f, hf, hholds⟩ := fitsTail_of_tracks h he
        have hlength := congrArg List.length hstart
        simp only [length_lowBits, layOut_cons, layOut_nil, append_nil, length_take,
          Extraction.length_bits] at hlength
        exact ⟨[f], hf, by simpa using hholds.mpr (by omega)⟩
      | cons e' rest => exact ⟨[], rfl, by simp⟩
    by_cases hle : c.bound - e.data.width ≤ 0
    · refine ⟨enough ++ [agree], ?_, by simp [hρ, hagree]⟩
      simp [run, henough, hstep, among, hle, bind, Except.bind, pure, Except.pure]
    · obtain ⟨more, hmore, hρmore⟩ := ih (hnext (c.bound - e.data.width))
        (fun e he => hsized e (mem_cons_of_mem _ he)) (fun e he => hfits e (mem_cons_of_mem _ he))
        hleft
      refine ⟨enough ++ agree :: more, ?_, by simp [hρ, hagree, hρmore]⟩
      simp [run, henough, hstep, among, hle, hmore, bind, Except.bind, pure, Except.pure]

end

end Comparison

end Packet

end PacketSmith
