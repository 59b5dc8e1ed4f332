import Mathlib.Data.Nat.Digits.Lemmas
import PacketSmith.Console.Entry

/-!
# Texts that are read back

What the console makes of the texts that commands are written with. The words of two texts with a blank between them
are those of the one and those of the other (`words_append_blank`), and a divider that does not begin within the parts
divides a text into them (`split_divider`). A number in decimal is read as this number (`int?_toString`,
`markedInt?_toString`), and its bytes are those of the number (`parameterBytes_toString`).
-/

namespace PacketSmith

namespace Text

/-! ## Words -/

theorem wordsOf_append_blank (cs rest word : List Char) :
    wordsOf (cs ++ ' ' :: rest) word = wordsOf cs word ++ wordsOf rest [] := by
  have hblank : isBlank ' ' = true := by decide
  induction cs generalizing word with
  | nil => by_cases h : word.isEmpty <;> simp [wordsOf, hblank, h]
  | cons c cs ih =>
    by_cases hc : isBlank c = true
    · by_cases h : word.isEmpty <;> simp [wordsOf, hc, h, ih]
    · simp [wordsOf, hc, ih]

theorem words_append_blank (a b : String) : words (a ++ " " ++ b) = words a ++ words b := by
  have hlist : (a ++ " " ++ b).toList = a.toList ++ ' ' :: b.toList := by simp
  rw [words, hlist, wordsOf_append_blank]
  rfl

theorem words_intercalate (ws : List String) : words (" ".intercalate ws) = ws.flatMap words := by
  induction ws with
  | nil => rfl
  | cons w ws ih =>
    cases ws with
    | nil => simp
    | cons w' ws =>
      rw [String.intercalate_cons_cons, words_append_blank, ih]
      rfl

def IsWord (s : String) : Prop := s ≠ "" ∧ ∀ c ∈ s.toList, isBlank c = false

variable {n : Nat} {c : Char}

theorem isWord_of_all (hne : s ≠ "") (h : s.toList.all (fun c => !isBlank c) = true) : IsWord s :=
  ⟨hne, by simpa using h⟩

theorem wordsOf_of_no_blank (cs word : List Char) (h : ∀ c ∈ cs, isBlank c = false) :
    wordsOf cs word = wordsOf [] (cs.reverse ++ word) := by
  induction cs generalizing word with
  | nil => rfl
  | cons c cs ih =>
    have hc := h c List.mem_cons_self
    have hrest := ih (c :: word) fun c hc => h c (List.mem_cons_of_mem _ hc)
    simp only [wordsOf, hc, Bool.false_eq_true, if_false] at hrest ⊢
    simp [hrest]

theorem IsWord.words_eq (h : IsWord s) : words s = [s] := by
  have hne : s.toList ≠ [] := fun hnil => h.1 (String.toList_eq_nil_iff.mp hnil)
  rw [words, wordsOf_of_no_blank s.toList [] h.2, wordsOf]
  simp [hne]

theorem IsWord.append (hs : IsWord s) (ht : IsWord t) : IsWord (s ++ t) := by
  refine ⟨fun hempty => hs.1 (String.append_eq_empty_iff.mp hempty).1, ?_⟩
  intro c hc
  rw [String.toList_append] at hc
  rcases List.mem_append.mp hc with hc | hc
  · exact hs.2 c hc
  · exact ht.2 c hc

theorem flatMap_words {ws : List String} (h : ∀ w ∈ ws, IsWord w) : ws.flatMap words = ws := by
  induction ws with
  | nil => rfl
  | cons w ws ih =>
    rw [List.flatMap_cons, (h w List.mem_cons_self).words_eq, ih fun w hw => h w (List.mem_cons_of_mem _ hw)]
    rfl

/-! ## Parts -/

section Parts

theorem splitChars_skip (fuel : Nat) (part rest : List Char) (h : ∀ c ∈ a, c ≠ first) : splitChars (first :: sep)
    (a.length + fuel) part (a ++ rest) = splitChars (first :: sep) fuel (a.reverse ++ part) rest := by
  induction a generalizing part with
  | nil => simp
  | cons c a ih =>
    have hc : (first :: sep).isPrefixOf (c :: (a ++ rest)) = false := by
      simp [List.isPrefixOf, (h c List.mem_cons_self).symm]
    rw [List.length_cons, show a.length + 1 + fuel = (a.length + fuel) + 1 by omega, List.cons_append,
      splitChars, if_neg (by simp [hc]), ih _ fun c hc => h c (List.mem_cons_of_mem _ hc)]
    simp

theorem splitChars_end (fuel : Nat) (part : List Char) : splitChars sep fuel part [] = [part.reverse] := by
  cases fuel <;> rfl

theorem splitChars_divider (ha : ∀ c ∈ a, c ≠ first) (hb : ∀ c ∈ b, c ≠ first) (fuel : Nat) :
    splitChars (first :: sep) (a.length + (b.length + fuel + 1)) [] (a ++ (first :: sep ++ b)) = [a, b] := by
  have hdivider : (first :: sep).isPrefixOf (first :: (sep ++ b)) = true :=
    List.isPrefixOf_iff_prefix.mpr ⟨b, rfl⟩
  have hlast : splitChars (first :: sep) (b.length + fuel) [] b = [b] := by
    have hskip : splitChars (first :: sep) (b.length + fuel) [] (b ++ []) = _ := splitChars_skip fuel [] [] hb
    rw [List.append_nil, splitChars_end] at hskip
    simpa using hskip
  rw [splitChars_skip _ _ _ ha, List.cons_append, splitChars, if_pos hdivider]
  simp [hlast]

theorem split_divider {divider t : String} (hdivider : divider.toList = first :: sep) (hs : ∀ c ∈ s.toList, c ≠ first)
    (ht : ∀ c ∈ t.toList, c ≠ first) : split divider (s ++ divider ++ t) = [s, t] := by
  have hlist : (s ++ divider ++ t).toList = s.toList ++ (first :: sep ++ t.toList) := by simp [hdivider]
  have hfuel : (s ++ divider ++ t).length + 1 = s.toList.length + (t.toList.length + (sep.length + 1) + 1) := by
    rw [← String.length_toList, hlist]
    simp
    omega
  rw [split, hfuel, hlist, hdivider, splitChars_divider hs ht]
  simp

theorem splitChars_char (h : cs.length < fuel) (part : List Char) :
    splitChars [d] fuel part cs = (cs.splitOn d).modifyHead (part.reverse ++ ·) := by
  induction fuel generalizing cs part with
  | zero => simp at h
  | succ fuel ih =>
    cases cs with
    | nil => simp [splitChars]
    | cons c cs =>
      replace h : cs.length < fuel := by simpa using h
      rw [List.splitOn_cons_eq_if_modifyHead, splitChars]
      by_cases hc : c = d
      · subst hc
        have hid : (fun cs : List Char => cs) = id := rfl
        simp [ih h, hid]
      · simp [hc, Ne.symm hc, ih h, List.modifyHead_modifyHead, Function.comp_def]

variable {divider : String} (hdivider : divider.toList = [d])

include hdivider

theorem split_char (s : String) : split divider s = (s.toList.splitOn d).map String.ofList := by
  have hid : (fun cs : List Char => cs) = id := rfl
  have hlength : s.toList.length < s.length + 1 := by rw [String.length_toList]; exact Nat.lt_succ_self _
  rw [split, hdivider, splitChars_char hlength]
  simp [hid]

theorem intercalate_split (s : String) : divider.intercalate (split divider s) = s := by
  apply String.toList_injective
  rw [String.toList_intercalate, split_char hdivider, hdivider]
  simp [Function.comp_def, List.intercalate_splitOn]

theorem split_append (a b : String) : split divider (a ++ divider ++ b) = split divider a ++ split divider b := by
  simp [split_char hdivider, hdivider, List.splitOn, List.splitOnP_append_cons]

end Parts

/-! ## Numbers -/

theorem toList_toString (n : Nat) : (toString n).toList = Nat.toDigits 10 n := Nat.toList_repr

theorem isDigit_of_mem_toString (hc : c ∈ (toString n).toList) : c.isDigit = true := by
  rw [toList_toString] at hc
  exact Nat.isDigit_of_mem_toDigits (by decide) (by decide) hc

theorem notMem_toDigits (hc : c.isDigit = false) (n : Nat) : c ∉ Nat.toDigits 10 n := fun h => by
  simp [Nat.isDigit_of_mem_toDigits (by decide) (by decide) h] at hc

theorem toDigits_inj (h : Nat.toDigits 10 i = Nat.toDigits 10 j) : i = j := by
  simpa [Nat.ofDigitChars_ten_toDigits] using congrArg (Nat.ofDigitChars 10 · 0) h

/-- The number is what comes after the last character that is no digit. -/
theorem append_toDigits_inj (hc : c.isDigit = false)
    (h : xs ++ c :: Nat.toDigits 10 i = ys ++ c :: Nat.toDigits 10 j) : xs = ys ∧ i = j := by
  rcases List.append_eq_append_iff.mp h with ⟨_ | ⟨d, ds⟩, rfl, hrest⟩ | ⟨_ | ⟨d, ds⟩, rfl, hrest⟩
  · exact ⟨(List.append_nil _).symm, toDigits_inj (List.cons.inj hrest).2⟩
  · exact absurd ((List.cons.inj hrest).2 ▸ by simp) (notMem_toDigits hc i)
  · exact ⟨List.append_nil _, toDigits_inj (List.cons.inj hrest).2.symm⟩
  · exact absurd ((List.cons.inj hrest).2 ▸ by simp) (notMem_toDigits hc j)

theorem toNat_of_isDigit (h : c.isDigit = true) : 48 ≤ c.toNat ∧ c.toNat ≤ 57 := by
  simpa [Char.isDigit, UInt32.le_iff_toNat_le] using h

theorem isBlank_of_isDigit (h : c.isDigit = true) : isBlank c = false := by
  have := toNat_of_isDigit h
  simp [isBlank]
  omega

theorem plainDigit_of_isDigit (h : c.isDigit = true) : plainDigit c = c := by
  have := toNat_of_isDigit h
  rw [plainDigit, if_pos (by omega)]

theorem digit?_of_isDigit (h : c.isDigit = true) :
    digit? c = some (c.toNat - '0'.toNat) ∧ c.toNat - '0'.toNat < 10 := by
  have hrange := toNat_of_isDigit h
  have hzero : '0'.toNat = 48 := rfl
  refine ⟨?_, by omega⟩
  have hdigit : ('0' ≤ c && c ≤ '9') = true := by
    simpa [Char.isDigit, Char.le_def] using h
  rw [digit?, if_pos hdigit]

theorem digitRun_of_isDigit (cs : List Char) (closed : Bool) (acc : Nat) (h : ∀ c ∈ cs, c.isDigit = true)
    (hend : cs = [] → closed = true) : digitRun 10 closed acc cs = some (Nat.ofDigitChars 10 cs acc) := by
  induction cs generalizing closed acc with
  | nil => simp [digitRun, hend rfl]
  | cons c cs ih =>
    have hc := h c List.mem_cons_self
    obtain ⟨hdigit, hlt⟩ := digit?_of_isDigit hc
    have hmark : c ≠ '_' := by
      rintro rfl
      simp at hc
    rw [digitRun, if_neg hmark]
    simp only [hdigit, hlt, if_true]
    rw [ih true _ (fun c hc => h c (List.mem_cons_of_mem _ hc)) (fun _ => rfl), Nat.ofDigitChars_cons,
      Nat.mul_comm]

theorem decimal?_toDigits (n : Nat) : decimal? (Nat.toDigits 10 n) = some n := by
  rw [decimal?, digitRun_of_isDigit, Nat.ofDigitChars_ten_toDigits]
  · exact fun c hc => Nat.isDigit_of_mem_toDigits (by decide) (by decide) hc
  · simp

theorem toDigits_head (hn : 0 < n) (h : Nat.toDigits 10 n = c :: cs) : c ≠ '0' := by
  induction n using Nat.strongRecOn generalizing cs with
  | ind n ih =>
    rw [Nat.toDigits_eq_if (by decide)] at h
    split at h
    · rename_i hlt
      obtain ⟨rfl, -⟩ := List.cons.inj h
      intro hzero
      have hlow : ∀ m < 10, 0 < m → Nat.digitChar m ≠ '0' := by decide
      exact hlow n hlt hn hzero
    · obtain ⟨c', cs', hdigits⟩ := List.exists_cons_of_ne_nil (Nat.toDigits_ne_nil (n := n / 10) (b := 10))
      rw [hdigits] at h
      obtain ⟨rfl, -⟩ := List.cons.inj h
      exact ih (n / 10) (by omega) (by omega) hdigits

theorem marked?_toDigits (n : Nat) : marked? (Nat.toDigits 10 n) = some n := by
  have hdecimal := decimal?_toDigits n
  cases n with
  | zero => rfl
  | succ n =>
    obtain ⟨c, cs, hdigits⟩ := List.exists_cons_of_ne_nil (Nat.toDigits_ne_nil (n := n + 1) (b := 10))
    have hc := toDigits_head (Nat.succ_pos n) hdigits
    rw [hdigits] at hdecimal ⊢
    unfold marked?
    split <;> simp_all

theorem trimBy_of_none {outer : Char → Bool} (h : ∀ c ∈ cs, outer c = false) : trimBy outer cs = cs := by
  have hdrop (ds : List Char) (hds : ∀ c ∈ ds, outer c = false) : ds.dropWhile outer = ds := by
    cases ds with
    | nil => rfl
    | cons c ds => exact List.dropWhile_cons_of_neg (by simp [hds c List.mem_cons_self])
  rw [trimBy, hdrop cs h, hdrop cs.reverse (by simpa using h), List.reverse_reverse]

theorem isPadding_of_isBlank (h : isBlank c = false) : isPadding c = false := by
  rw [isPadding, h, Bool.false_and]

theorem signed?_toString (read : List Char → Option Nat) (n : Nat) :
    signed? read (toString n) = (read (Nat.toDigits 10 n)).map Int.ofNat := by
  have hdigits : ∀ c ∈ Nat.toDigits 10 n, c.isDigit = true := fun c hc =>
    Nat.isDigit_of_mem_toDigits (by decide) (by decide) hc
  have hplain : (Nat.toDigits 10 n).map plainDigit = Nat.toDigits 10 n :=
    (List.map_congr_left fun c hc => plainDigit_of_isDigit (hdigits c hc)).trans (List.map_id _)
  rw [signed?, toList_toString, trimBy_of_none fun c hc => isPadding_of_isBlank (isBlank_of_isDigit (hdigits c hc)),
    hplain]
  split
  · rename_i cs hcs
    exact absurd (hdigits '-' (by simp [hcs])) (by decide)
  · rename_i cs hcs
    exact absurd (hdigits '+' (by simp [hcs])) (by decide)
  · rfl

theorem int?_toString (n : Nat) : int? (toString n) = some (n : Int) := by
  rw [int?, signed?_toString, decimal?_toDigits]
  rfl

theorem markedInt?_toString (n : Nat) : markedInt? (toString n) = some (n : Int) := by
  rw [markedInt?, signed?_toString, marked?_toDigits]
  rfl

theorem isWord_toString (n : Nat) : IsWord (toString n) := by
  refine ⟨fun hempty => ?_, fun c hc => isBlank_of_isDigit (isDigit_of_mem_toString hc)⟩
  have hdigits := toList_toString n
  rw [hempty] at hdigits
  exact Nat.toDigits_ne_nil hdigits.symm

theorem toString_append_ne (hs : s.toList = c :: cs) (hc : c.isDigit = false) : toString n ++ rest ≠ s := by
  intro heq
  obtain ⟨d, ds, hd⟩ := List.exists_cons_of_ne_nil (Nat.toDigits_ne_nil (n := n) (b := 10))
  have hlist := congrArg String.toList heq
  rw [String.toList_append, toList_toString, hd, hs] at hlist
  have hdigit : d.isDigit = true := Nat.isDigit_of_mem_toDigits (by decide) (by decide) (hd ▸ List.mem_cons_self)
  rw [(List.cons.inj hlist).1, hc] at hdigit
  cases hdigit

theorem ne_of_mem_toString (hc : c ∈ (toString n).toList) (hd : d.isDigit = false) : c ≠ d := by
  rintro rfl
  rw [isDigit_of_mem_toString hc] at hd
  cases hd

theorem holds_char (hpart : part.toList = [c]) : holds s part = true ↔ c ∈ s.toList := by
  have hgo (ds : List Char) : holds.go [c] ds = true ↔ c ∈ ds := by
    induction ds with
    | nil => simp [holds.go]
    | cons d ds ih => simp [holds.go, ih]
  rw [holds, hpart, hgo]

theorem mem_trimBy {outer : Char → Bool} (h : c ∈ cs) (hc : outer c = false) : c ∈ trimBy outer cs := by
  have hdrop (ds : List Char) (hmem : c ∈ ds) : c ∈ ds.dropWhile outer := by
    induction ds with
    | nil => exact hmem
    | cons b ds ih => grind [List.dropWhile_cons]
  simp [trimBy, hdrop, h]

/-! ## Dividers -/

section Dividers

variable (hd : d = '.' ∨ d = ':')

include hd

theorem notMem_digitRun (h : digitRun base closed acc cs = some n) : d ∉ cs := by
  induction cs generalizing closed acc with
  | nil => exact List.not_mem_nil
  | cons c cs ih =>
    have hnone : d ≠ '_' ∧ digit? d = none := by
      rcases hd with rfl | rfl <;> decide
    rw [digitRun] at h
    grind

theorem notMem_digitsAfterMark (h : digitsAfterMark base cs = some n) : d ∉ cs := by
  have hmark : d ≠ '_' := by rcases hd with rfl | rfl <;> decide
  unfold digitsAfterMark at h
  split at h
  · simpa [hmark] using notMem_digitRun hd h
  · exact notMem_digitRun hd h

theorem notMem_marked? (h : marked? cs = some n) : d ∉ cs := by
  unfold marked? at h
  split at h <;> grind [notMem_digitsAfterMark, notMem_digitRun, decimal?]

theorem notMem_signed? {read : List Char → Option Nat} {i : Int} (hread : ∀ cs n, read cs = some n → d ∉ cs)
    (h : signed? read s = some i) : d ∉ s.toList := by
  intro hmem
  have hplain : isPadding d = false ∧ plainDigit d = d ∧ d ≠ '-' ∧ d ≠ '+' := by
    rcases hd with rfl | rfl <;> decide
  have hmapped : d ∈ (trimBy isPadding s.toList).map plainDigit :=
    List.mem_map.mpr ⟨d, mem_trimBy hmem hplain.1, hplain.2.1⟩
  unfold signed? at h
  have hnone (cs : List Char) (hcs : d ∈ cs) : read cs = none :=
    Option.eq_none_iff_forall_ne_some.mpr fun n hn => hread cs n hn hcs
  split at h
  · next hsign => simp [hnone _ (by simpa [hsign, hplain] using hmapped)] at h
  · next hsign => simp [hnone _ (by simpa [hsign, hplain] using hmapped)] at h
  · simp [hnone _ hmapped] at h

theorem notMem_markedInt? {i : Int} (h : markedInt? s = some i) : d ∉ s.toList :=
  notMem_signed? hd (fun _ _ => notMem_marked? hd) h

end Dividers

end Text

namespace Console

/-! ## Bytes -/

def lastBytes (count n : Nat) : List UInt8 :=
  (List.range count).reverse.map fun i => UInt8.ofNat (n / 256 ^ i)

def bytesOfWidth (width n : Nat) : List UInt8 := lastBytes ((width + 7) / 8) n

@[simp] theorem length_lastBytes (count n : Nat) : (lastBytes count n).length = count := by
  simp [lastBytes]

@[simp] theorem length_bytesOfWidth (width n : Nat) : (bytesOfWidth width n).length = (width + 7) / 8 :=
  length_lastBytes _ _

theorem bytesLt_self (bs : List UInt8) : bytesLt bs bs = false := by
  induction bs with
  | nil => rfl
  | cons b bs ih => simpa [bytesLt] using ih

theorem bigEndian_eq (n : Nat) : bigEndian n = (Nat.digits 256 n).reverse := by
  induction n using Nat.strongRecOn with
  | ind n ih =>
    rw [bigEndian]
    split
    · simp [*]
    · next hn => rw [Nat.digits_def' (by decide) (Nat.pos_of_ne_zero hn), List.reverse_cons, ih _ (by omega)]

theorem encode_eq (n : Int) (room length : Nat) :
    encode n room length =
      if n.toNat < 256 ^ room then .ok ((Nat.digitsAppend 256 length n.toNat).reverse.map Int.ofNat)
      else .error (.parameter "Parameter is too large") := by
  have hroom : (room : Int) < (bigEndian n.toNat).length ↔ ¬n.toNat < 256 ^ room := by
    rw [← Nat.digits_length_le_iff (by decide), bigEndian_eq, List.length_reverse]
    omega
  simp only [encode, hroom, ite_not]
  simp [bigEndian_eq, Nat.digitsAppend]

theorem map_digitsAppend (h : n < 256 ^ count) :
    (Nat.digitsAppend 256 count n).reverse.map UInt8.ofNat = lastBytes count n := by
  rw [List.map_reverse, lastBytes, List.map_reverse, List.reverse_inj]
  refine List.ext_getElem (by simp [Nat.length_digitsAppend _ _ h]) fun i hi _ => ?_
  have hdigit : (Nat.digitsAppend 256 count n).getD i 0 = n / 256 ^ i % 256 := by
    rw [← Nat.getD_digits n i (by decide), Nat.digitsAppend]
    simp only [List.getD_eq_getElem?_getD, List.getElem?_append, List.getElem?_replicate]
    split <;> grind
  rw [List.length_map] at hi
  rw [List.getD_eq_getElem?_getD, List.getElem?_eq_getElem hi, Option.getD_some] at hdigit
  simp [hdigit, ← UInt8.toNat_inj]

theorem pack_map (h : ∀ n ∈ ns, n < 256) : pack (List.map Int.ofNat ns) = .ok (ns.map UInt8.ofNat) := by
  induction ns with
  | nil => rfl
  | cons n ns ih =>
    have hn : (n : Int) ≤ 255 := by
      have := h n List.mem_cons_self
      omega
    have hrest := ih fun n hn => h n (List.mem_cons_of_mem _ hn)
    simp only [pack] at hrest ⊢
    rw [List.map_cons, List.mapM_cons, hrest]
    simp [hn, bind, Except.bind, pure, Except.pure]

theorem pack_digitsAppend (h : n < 256 ^ count) :
    pack ((Nat.digitsAppend 256 count n).reverse.map Int.ofNat) = .ok (lastBytes count n) := by
  rw [pack_map fun d hd => Nat.lt_of_mem_digitsAppend (by decide) _ d (List.mem_reverse.mp hd), map_digitsAppend h]

theorem pow_width_le (width : Nat) : 2 ^ width ≤ 256 ^ ((width + 7) / 8) := by
  rw [show 256 = 2 ^ 8 from rfl, ← Nat.pow_mul]
  exact Nat.pow_le_pow_right (by decide) (by omega)

theorem parameter_of_markedInt? {n : Int} (h : Text.markedInt? s = some n) (width : Json) :
    parameter s width = number s width := by
  have hpoint : ¬Text.holds s "." = true := (Text.holds_char rfl).not.mpr (Text.notMem_markedInt? (.inl rfl) h)
  have hcolon : ¬Text.holds s ":" = true := (Text.holds_char rfl).not.mpr (Text.notMem_markedInt? (.inr rfl) h)
  simp only [parameter, address32, address48, address128, address, hpoint, hcolon]
  split <;> rfl

theorem number_int {n : Int} (h : Text.markedInt? s = some n) (width : Nat) :
    number s (.int width) = encode n ((width + 7) / 8 : Nat) ((width + 7) / 8 : Nat) := by
  simp [number, h, byteCount, Int.fdiv_eq_ediv]

theorem parameterBytes_toString (complain : String → Complaint) {width : Nat} (h : n < 2 ^ width) :
    parameterBytes complain (toString n) (.int width) = .ok (bytesOfWidth width n) := by
  have hfits : n < 256 ^ ((width + 7) / 8) := Nat.lt_of_lt_of_le h (pow_width_le width)
  have hmarked := Text.markedInt?_toString n
  have hpack := pack_digitsAppend hfits
  rw [parameterBytes, parameter_of_markedInt? hmarked, number_int hmarked, encode_eq, Int.toNat_natCast, if_pos hfits]
  simp only [hpack]
  rfl

end Console

end PacketSmith
