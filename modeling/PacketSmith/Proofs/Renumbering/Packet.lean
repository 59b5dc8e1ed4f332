import PacketSmith.Proofs.Renumbering.Term
import PacketSmith.Symbolic.ParserPath

/-!
# Renumbering of packets

What a symbolic run works on holds terms: bit vectors, values, packets and contexts.
Each of these is renum part by part. The keys of a dictionary are names of the
program and stay as they are.

The lemmas go through the functions that compute on such data and do not make new
variables. Each of them commutes with renumbering, and where it can fail, it fails on
both sides with the same fault.
-/

namespace PacketSmith

open List Bits Term Dict
open Numbered (renum)

variable {α β ε κ ν : Type}

/-! ## Data in general -/

instance : Numbered Unit := ⟨fun _ a => a⟩
instance : Numbered Bool := ⟨fun _ a => a⟩
instance : Numbered Nat := ⟨fun _ a => a⟩
instance : Numbered Label := ⟨fun _ a => a⟩
instance [Numbered α] : Numbered (Option α) := ⟨fun σ => Option.map (renum σ)⟩
instance [Numbered α] : Numbered (List α) := ⟨fun σ => List.map (renum σ)⟩
instance [Numbered α] [Numbered β] : Numbered (α × β) :=
  ⟨fun σ p => (renum σ p.1, renum σ p.2)⟩
instance [Numbered α] : Numbered (Except ε α) := ⟨fun σ => Except.map (renum σ)⟩
instance [Numbered ν] : Numbered (Dict κ ν) := ⟨fun σ => map (renum σ)⟩

section Data

variable (σ : ℕ ↪o ℕ)

@[simp] theorem renum_unit (a : Unit) : renum σ a = a := rfl
@[simp] theorem renum_bool (a : Bool) : renum σ a = a := rfl
@[simp] theorem renum_nat (a : Nat) : renum σ a = a := rfl
@[simp] theorem renum_label (a : Label) : renum σ a = a := rfl

variable [Numbered α] [Numbered β] [Numbered ν] {f f' : α → Except ε β}

@[simp] theorem renum_none : renum σ (none : Option α) = none := rfl

@[simp] theorem renum_some (a : α) : renum σ (some a) = some (renum σ a) := rfl

@[simp] theorem renum_nil : renum σ ([] : List α) = [] := rfl

@[simp] theorem renum_cons (a : α) (as : List α) : renum σ (a :: as) = renum σ a :: renum σ as := rfl

@[simp] theorem renum_append (as bs : List α) : renum σ (as ++ bs) = renum σ as ++ renum σ bs := map_append

@[simp] theorem length_renum (as : List α) : (renum σ as).length = as.length :=
  length_map _

@[simp] theorem renum_pair (a : α) (b : β) : renum σ (a, b) = (renum σ a, renum σ b) := rfl

@[simp] theorem renum_ok (a : α) : renum σ (.ok a : Except ε α) = .ok (renum σ a) := rfl

@[simp] theorem renum_error (e : ε) : renum σ (.error e : Except ε α) = .error e := rfl

@[simp] theorem renum_pure (a : α) : renum σ (pure a : Except Fault α) = pure (renum σ a) := rfl

theorem getElem?_renum (as : List α) (i : Nat) : (renum σ as)[i]? = renum σ as[i]? := List.getElem?_map

theorem flatten_renum (as : List (List α)) : (renum σ as).flatten = renum σ as.flatten := map_flatten.symm

theorem isEmpty_renum (as : List α) : (renum σ as).isEmpty = as.isEmpty := by
  cases as <;> rfl

theorem all_zip_renum (f : α × β → Bool) (hf : ∀ a b, f (renum σ a, renum σ b) = f (a, b)) (as : List α) (bs : List β)
    : ((renum σ as).zip (renum σ bs)).all f = (as.zip bs).all f := by
  induction as generalizing bs with
  | nil => rfl
  | cons a as ih =>
    cases bs with
    | nil => rfl
    | cons b bs =>
      simp only [renum_cons, zip_cons_cons, all_cons, hf, ih]

theorem bind_renum (hx : x' = renum σ x)
    (hf : ∀ a, f' (renum σ a) = renum σ (f a)) : (x' >>= f') = renum σ (x >>= f) := by
  subst hx
  cases x with
  | error e => rfl
  | ok a => exact hf a

theorem bind_same (x : Except ε γ) {f f' : γ → Except ε β} (hf : ∀ c, f' c = renum σ (f c)) :
    (x >>= f') = renum σ (x >>= f) := by
  cases x with
  | error e => rfl
  | ok c => exact hf c

theorem mapM_renum (hf : ∀ a, f' (renum σ a) = renum σ (f a)) (as : List α) :
    (renum σ as).mapM f' = renum σ (as.mapM f) := by
  induction as with
  | nil => rfl
  | cons a as ih =>
    rw [renum_cons, mapM_cons, mapM_cons]
    refine bind_renum σ (hf a) fun b => bind_renum σ ih fun bs => rfl

theorem foldlM_except_renum {f f' : β → α → Except ε β} (hf : ∀ b a, f' (renum σ b) (renum σ a) = renum σ (f b a))
    (b : β) (as : List α) : (renum σ as).foldlM f' (renum σ b) = renum σ (as.foldlM f b) := by
  induction as generalizing b with
  | nil => rfl
  | cons a as ih => exact bind_renum σ (hf b a) ih

theorem foldlM_same {f f' : β → γ → Except ε β} (hf : ∀ b c, f' (renum σ b) c = renum σ (f b c)) (b : β)
    (cs : List γ) : cs.foldlM f' (renum σ b) = renum σ (cs.foldlM f b) := by
  induction cs generalizing b with
  | nil => rfl
  | cons c cs ih => exact bind_renum σ (hf b c) ih

theorem mapM_same {f f' : γ → Except ε β} (hf : ∀ c, f' c = renum σ (f c)) (cs : List γ) :
    cs.mapM f' = renum σ (cs.mapM f) := by
  induction cs with
  | nil => rfl
  | cons c cs ih =>
    rw [mapM_cons, mapM_cons]
    exact bind_renum σ (hf c) fun b => bind_renum σ ih fun bs => rfl

end Data

namespace Dict

variable (σ : ℕ ↪o ℕ) [Numbered ν]

@[simp] theorem keys_renum (d : Dict κ ν) : (renum σ d).keys = d.keys := by
  simp [renum, map, keys]

theorem values_renum (d : Dict κ ν) : (renum σ d).values = renum σ d.values := by
  simp [renum, map, values]

variable [DecidableEq κ]

@[simp] theorem get?_renum (d : Dict κ ν) (k : κ) : (renum σ d).get? k = renum σ (d.get? k) := by
  obtain ⟨es⟩ := d
  simp only [renum, map, get?]
  induction es with
  | nil => rfl
  | cons e es ih =>
    simp only [map_cons, lookup]
    split
    · rfl
    · exact ih

@[simp] theorem contains_renum (d : Dict κ ν) (k : κ) : (renum σ d).contains k = d.contains k := by
  rw [contains, get?_renum, contains]
  cases d.get? k <;> rfl

omit [Numbered ν] in
theorem put_map (f : ν → ν) (k : κ) (v : ν) (es : List (κ × ν)) :
    put k (f v) (es.map fun e => (e.1, f e.2)) = (put k v es).map fun e => (e.1, f e.2) := by
  induction es with
  | nil => rfl
  | cons e es ih =>
    simp only [map_cons, put]
    split
    · rfl
    · rw [ih]
      rfl

@[simp] theorem insert_renum (d : Dict κ ν) (k : κ) (v : ν) :
    (renum σ d).insert k (renum σ v) = renum σ (d.insert k v) :=
  congrArg mk (put_map (renum σ) k v d.entries)

end Dict

/-! ## Bit vectors -/

instance : Numbered Bits := ⟨fun σ b => ⟨b.width, renum σ b.term⟩⟩

namespace Bits

variable (σ : ℕ ↪o ℕ)

@[simp] theorem renum_mk (w : Nat) (t : Term (.bits w)) : renum σ (⟨w, t⟩ : Bits) = ⟨w, renum σ t⟩ := rfl

@[simp] theorem width_renum (b : Bits) : (renum σ b).width = b.width := rfl

@[simp] theorem term_renum (b : Bits) : (renum σ b).term = renum σ b.term := rfl

@[simp] theorem ofInt_renum (n : Int) (w : Nat) : renum σ (ofInt n w) = ofInt n w := rfl

theorem named_renum (x : Variable) (size : Option Int) : named (renum σ x) size = renum σ (named x size) := by
  rw [named, named]
  cases widthOf size <;> rfl

theorem constant_renum (n : Int) (size : Option Int) : renum σ (constant n size) = constant n size := by
  rw [constant]
  cases widthOf size <;> rfl

theorem word_renum (size : Option Int) : renum σ (word size) = word size := by
  cases size <;> rfl

theorem both_renum [Numbered α] {f' : {w : Nat} → Term (.bits w) → Term (.bits w) → α}
    (hf : ∀ {w : Nat} (x y : Term (.bits w)), f' (renum σ x) (renum σ y) = renum σ (f x y))
    (a b : Bits) : both f' (renum σ a) (renum σ b) = renum σ (both f a b) := by
  obtain ⟨w, x⟩ := a
  obtain ⟨v, y⟩ := b
  by_cases h : v = w
  · subst h
    simp [both, hf]
  · simp [both, h]

theorem arith_renum (op : BinOp) (a b : Bits) : arith op (renum σ a) (renum σ b) = renum σ (arith op a b) :=
  both_renum σ (fun _ _ => rfl) a b

theorem rel_renum (op : Relation) (a b : Bits) : rel op (renum σ a) (renum σ b) = renum σ (rel op a b) :=
  both_renum σ (fun _ _ => rfl) a b

theorem choose_renum (c : Formula) (a b : Bits) : choose (renum σ c) (renum σ a) (renum σ b) = renum σ (choose c a b) :=
  both_renum σ (fun _ _ => rfl) a b

@[simp] theorem arithInt_renum (op : BinOp) (a : Bits) (n : Int) :
    arithInt op (renum σ a) n = renum σ (arithInt op a n) := rfl

@[simp] theorem relInt_renum (op : Relation) (a : Bits) (n : Int) :
    relInt op (renum σ a) n = renum σ (relInt op a n) := rfl

@[simp] theorem atWidth_renum (a : Bits) (v : Nat) : (renum σ a).atWidth v = renum σ (a.atWidth v) := by
  obtain ⟨w, x⟩ := a
  by_cases h : w = v
  · subst h
    simp [atWidth]
  · simp [atWidth, h]

@[simp] theorem resize_renum (v : Nat) (a : Bits) : resize v (renum σ a) = renum σ (resize v a) := by
  simp [resize]

theorem fit_renum (size : Int) (a : Bits) : fit size (renum σ a) = renum σ (fit size a) := by
  simp only [fit, width_renum, resize_renum]
  repeat' split
  all_goals rfl

theorem equalize_renum (a b : Bits) : equalize (renum σ a) (renum σ b) = renum σ (equalize a b) := by
  simp [equalize]

@[simp] theorem arithWide_renum (op : BinOp) (a b : Bits) :
    arithWide op (renum σ a) (renum σ b) = renum σ (arithWide op a b) := by
  simp [arithWide]

@[simp] theorem relWide_renum (op : Relation) (a b : Bits) :
    relWide op (renum σ a) (renum σ b) = renum σ (relWide op a b) := by
  simp [relWide]

@[simp] theorem alike_renum (a b : Bits) : alike (renum σ a) (renum σ b) = alike a b := by
  simp [alike]

@[simp] theorem isBit_renum (a : Bits) (b : Bool) : isBit (renum σ a) b = isBit a b := by
  obtain ⟨w, t⟩ := a
  rw [renum_mk, isBit, isBit]
  by_cases h : w = 1
  · rw [fold_renumber]
    cases t.fold with
    | none => simp
    | some x => rfl
  · simp [h]

@[simp] theorem settle_renum (a : Bits) : settle (renum σ a) = renum σ (settle a) := by
  simp only [settle, term_renum, width_renum, fold_renumber]
  cases a.term.fold <;> rfl

end Bits

theorem Term.all_renum (σ : ℕ ↪o ℕ) : ∀ fs : List Formula, all (renum σ fs) = renum σ (all fs)
  | [] => rfl
  | [_] => rfl
  | f :: g :: fs => congrArg (conn .and (renum σ f)) (all_renum σ (g :: fs))

theorem Term.any_renum (σ : ℕ ↪o ℕ) : ∀ fs : List Formula, any (renum σ fs) = renum σ (any fs)
  | [] => rfl
  | [_] => rfl
  | f :: g :: fs => congrArg (conn .or (renum σ f)) (any_renum σ (g :: fs))

theorem newVariable_renum (σ : ℕ ↪o ℕ) (randomize : Bool) (x : Variable) (size : Option Int) :
    newVariable randomize (renum σ x) size = renum σ (newVariable randomize x size) := by
  refine bind_renum σ (named_renum σ x size) fun v => ?_
  cases randomize <;> rfl

/-! ## Packets -/

instance : Numbered Extraction := ⟨fun σ e => ⟨renum σ e.length, renum σ e.data, e.varies⟩⟩

instance : Numbered Lookahead := ⟨fun σ l => ⟨l.index, renum σ l.data⟩⟩

instance : Numbered Packet :=
  ⟨fun σ p => ⟨renum σ p.maxLength, renum σ p.extractions, renum σ p.lookaheads,
    p.tailed, renum σ p.displacements⟩⟩

instance : Numbered Packet.Comparison :=
  ⟨fun σ c => ⟨renum σ c.data, renum σ c.mask, renum σ c.left, c.bound⟩⟩

@[simp] theorem Extraction.renum_mk (σ : ℕ ↪o ℕ) (l d : Bits) (varies : Bool) :
    renum σ (⟨l, d, varies⟩ : Extraction) = ⟨renum σ l, renum σ d, varies⟩ := rfl

@[simp] theorem Lookahead.renum_mk (σ : ℕ ↪o ℕ) (i : Nat) (d : Bits) :
    renum σ (⟨i, d⟩ : Lookahead) = ⟨i, renum σ d⟩ := rfl

namespace Packet

variable (σ : ℕ ↪o ℕ) (p : Packet) (o : Options) (width : Option Int)

@[simp] theorem renum_mk (most : Option Bits)
    (es : List Extraction) (ls : List Lookahead) (tailed : Bool) (ds : List (Variable × Nat)) :
    renum σ (⟨most, es, ls, tailed, ds⟩ : Packet) = ⟨renum σ most,
      renum σ es, renum σ ls, tailed, renum σ ds⟩ := rfl

@[simp] theorem maxLength_renum : (renum σ p).maxLength = renum σ p.maxLength := rfl

@[simp] theorem tailed_renum : (renum σ p).tailed = p.tailed := rfl

@[simp] theorem extractions_renum : (renum σ p).extractions = renum σ p.extractions := rfl

@[simp] theorem lookaheads_renum : (renum σ p).lookaheads = renum σ p.lookaheads := rfl

@[simp] theorem displacements_renum : (renum σ p).displacements = renum σ p.displacements := rfl

@[simp] theorem renum_size : renum σ size = size := rfl

@[simp] theorem renum_tail (w : Nat) : renum σ (tail w) = tail w := rfl

@[simp] theorem renum_tailLength : renum σ tailLength = tailLength := rfl

theorem readLength_renum (length : Option Bits) :
    readLength width (renum σ length) = renum σ (readLength width length) := by
  cases length with
  | none => exact (word_renum σ width).symm
  | some l => rfl

theorem extract_renum (length : Option Bits) (label : Option String) :
    (renum σ p).extract o width (renum σ length) label = renum σ (p.extract o width length label) := by
  refine bind_renum σ (readLength_renum σ width length) fun read => ?_
  rw [extractions_renum, length_renum]
  refine bind_renum σ (newVariable_renum σ o.randomize (.plain _) width) fun (v, ds) => ?_
  have hvaries : (renum σ length).isSome = length.isSome := by cases length <;> rfl
  simp [hvaries]

theorem lookahead_renum : (renum σ p).lookahead o width = renum σ (p.lookahead o width) := by
  refine bind_renum σ (word_renum σ width).symm fun _ => ?_
  rw [lookaheads_renum, length_renum]
  refine bind_renum σ (newVariable_renum σ o.randomize (.plain _) width) fun (v, ds) => ?_
  simp

/-! ### Constraints -/

theorem totalLength_renum (es : List Extraction) : totalLength (renum σ es) = renum σ (totalLength es) := by
  cases es with
  | nil => rfl
  | cons e es =>
    have hsum : (renum σ es).foldlM (fun sum e => sum.arith .add e.length) (renum σ e.length) =
        renum σ (es.foldlM (fun sum e => sum.arith .add e.length) e.length) :=
      foldlM_except_renum σ (fun b e => arith_renum σ .add b e.length) e.length es
    simp only [renum_cons, totalLength]
    change some <$> (renum σ es).foldlM _ (renum σ e.length) = _
    rw [hsum]
    cases es.foldlM (fun sum e => sum.arith .add e.length) e.length <;> rfl

theorem lengthConstraints_renum : (renum σ p).lengthConstraints o = renum σ (p.lengthConstraints o) := by
  refine bind_renum σ (totalLength_renum σ p.extractions) fun total => ?_
  have htotal : ((renum σ total).getD (ofInt o.minPacketLength 32)).settle =
      renum σ (total.getD (ofInt o.minPacketLength 32)).settle := by
    rw [← settle_renum]
    cases total <;> rfl
  rw [htotal]
  generalize (total.getD (ofInt o.minPacketLength 32)).settle = total
  obtain ⟨most, es, ls, tailed, ds⟩ := p
  cases most with
  | none => exact bind_renum σ (rel_renum σ .eq size total) fun f => rfl
  | some most =>
    refine bind_renum σ (rel_renum σ .sle total size) fun f => ?_
    exact bind_renum σ (rel_renum σ .sle size most) fun g => rfl

theorem widestLookahead_renum : (renum σ p).widestLookahead = p.widestLookahead := by
  rw [widestLookahead, lookaheads_renum, widestLookahead]
  exact foldl_map

theorem withTail_renum : (renum σ p).withTail = renum σ p.withTail := by
  simp [withTail, widestLookahead_renum]

theorem tailConstraints_renum : (renum σ p).tailConstraints = renum σ p.tailConstraints := by
  rw [tailConstraints, widestLookahead_renum]
  rfl

theorem among_renum (e : Extraction) (vs : List Extraction) : among (renum σ e) (renum σ vs) = among e vs := by
  induction vs with
  | nil => rfl
  | cons v vs ih =>
    have hlength : (renum σ e).length.alike (renum σ v).length = e.length.alike v.length :=
      alike_renum σ e.length v.length
    have hdata : (renum σ e).data.alike (renum σ v).data = e.data.alike v.data :=
      alike_renum σ e.data v.data
    rw [renum_cons, among, hlength, hdata, ih, among]

namespace Comparison

theorem start_renum (l : Lookahead) : start (renum σ l) = renum σ (start l) := by
  have hdata : (if l.data.width < 32 then (renum σ l.data).resize 32 else renum σ l.data) =
      renum σ (if l.data.width < 32 then l.data.resize 32 else l.data) := by
    split
    · exact resize_renum σ 32 l.data
    · rfl
  have hmask : (if l.data.width < 32 then (ofInt (-1) l.data.width).resize 32
        else ofInt (-1) l.data.width) =
      renum σ (if l.data.width < 32 then (ofInt (-1) l.data.width).resize 32
        else ofInt (-1) l.data.width) := by
    split
    · exact resize_renum σ 32 (ofInt (-1) l.data.width)
    · rfl
  exact congr (congrFun (congr (congrArg mk hdata) hmask) _) rfl

@[simp] theorem renum_mk (data mask left : Bits) (bound : Int) :
    renum σ (⟨data, mask, left, bound⟩ : Comparison) = ⟨renum σ data, renum σ mask, renum σ left, bound⟩ := rfl

theorem step_renum (vs : List Extraction) (c : Comparison) (e : Extraction) :
    step (renum σ vs) (renum σ c) (renum σ e) = renum σ (step vs c e) := by
  obtain ⟨data, mask, left, bound⟩ := c
  obtain ⟨length, read, varies⟩ := e
  have hamong := among_renum σ ⟨length, read, varies⟩ vs
  rw [Extraction.renum_mk] at hamong
  simp only [renum_mk, Extraction.renum_mk, step, hamong]
  refine bind_renum σ (arith_renum σ .least length left) fun overlap => ?_
  refine bind_renum σ (arith_renum σ .surplus left length) fun rest => ?_
  refine bind_renum σ (arith_renum σ .sub length overlap) fun unread => ?_
  refine bind_renum σ (arith_renum σ .and data mask) fun masked => ?_
  refine bind_same σ (among ⟨length, read, varies⟩ vs) fun found => ?_
  simp only [settle_renum, arithWide_renum, relWide_renum,
    width_renum]
  cases found with
  | true => rfl
  | false =>
    by_cases h : bound - read.width ≤ 0
    · simp [h]
    · simp [h]

theorem fitsTail_renum (c : Comparison) (e : Extraction) (es : List Extraction) :
    (renum σ c).fitsTail (renum σ e) (renum σ es) = renum σ (c.fitsTail e es) := by
  cases es with
  | nil => exact bind_renum σ (rel_renum σ .ule c.left e.length) fun f => rfl
  | cons => rfl

theorem run_renum (vs : List Extraction) (c : Comparison) (es : List Extraction) :
    run (renum σ vs) (renum σ c) (renum σ es) = renum σ (run vs c es) := by
  induction es generalizing c with
  | nil => rfl
  | cons e es ih =>
    refine bind_renum σ (fitsTail_renum σ c e es) fun enough => ?_
    refine bind_renum σ (step_renum σ vs c e) fun (agree, next) => ?_
    cases next with
    | none => simp
    | some c => exact bind_renum σ (ih c) fun more => by simp

end Comparison

theorem filter_varies_renum (es : List Extraction) : (renum σ es).filter (·.varies) = renum σ (es.filter (·.varies)) :=
  filter_map

theorem lookaheadConstraints_renum : (renum σ p).lookaheadConstraints = renum σ p.lookaheadConstraints := by
  have hparts : (renum σ p.lookaheads).mapM (fun l =>
      Comparison.run (renum σ (p.extractions.filter (·.varies))) (Comparison.start l)
        ((renum σ p.extractions).drop l.index)) =
      renum σ (p.lookaheads.mapM fun l =>
        Comparison.run (p.extractions.filter (·.varies)) (Comparison.start l)
          (p.extractions.drop l.index)) :=
    mapM_renum σ (fun l => by
      rw [Comparison.start_renum, ← Comparison.run_renum]
      exact congrArg _ map_drop.symm) p.lookaheads
  simp only [lookaheadConstraints, extractions_renum, filter_varies_renum,
    lookaheads_renum]
  exact bind_renum σ hparts fun parts => congrArg Except.ok (flatten_renum σ parts)

theorem constraints_renum : (renum σ p).constraints o = renum σ (p.constraints o) := by
  simp only [constraints, lengthConstraints_renum]
  cases p.lengthConstraints o with
  | error f => rfl
  | ok lengths =>
    simp only [renum_ok, tailed_renum, lookaheads_renum, isEmpty_renum]
    split
    · rfl
    · split
      · rfl
      · refine Prod.ext ?_ (withTail_renum σ p)
        simp only [withTail_renum, tailConstraints_renum]
        exact bind_renum σ (lookaheadConstraints_renum σ p.withTail) fun fs => by simp

end Packet

end PacketSmith
