import PacketSmith.Proofs.Console.Conversing
import PacketSmith.Proofs.Console.Texts
import PacketSmith.Switch.Session

/-!
# Commands for tables are understood

An entry that a path needs is written as a line of text, and the console of the switch reads that line. The writer
asks for a priority if some field of the entry needs one, the reader expects one if the table as a whole does. They
agree: the line makes the console send one request, with the bytes of the values that the entry was made for
(`asks_command`).
-/

namespace PacketSmith

open List TableCommand Text Console SwitchCall Session Console.Dialog Table
open Console (KeyInfo KeyValue TableInfo ActionInfo MatchKind Catalog Request Peer bytesOfWidth)

/-! ## Fields of a key -/

def KeyMatch.way : KeyMatch → MatchKind
  | .exact => .exact
  | .lpm => .longest
  | .ternary => .ternary
  | .range => .range

/-- A field of a key that an entry is made for: its kind, its width and its value. -/
structure WantedField where
  kind : KeyMatch
  width : Nat
  value : Nat

namespace WantedField

variable (f : WantedField)

def entry : EntryValue := .number f.width f.value

def text : String := EntryKey.text ⟨f.kind, "", f.entry⟩

/-- What the switch is sent for the field: the bytes of the value, a prefix that is the whole field,
a mask that selects all bits, a range with one element. -/
def sent : KeyValue :=
  match f.kind with
  | .exact => .exact (bytesOfWidth f.width f.value)
  | .lpm => .longest (bytesOfWidth f.width f.value) f.width
  | .ternary => .ternary (bytesOfWidth f.width f.value) (bytesOfWidth f.width (2 ^ f.width - 1))
  | .range => .range (bytesOfWidth f.width f.value) (bytesOfWidth f.width f.value)

theorem text_eq : f.text = match f.kind with
    | .exact => toString f.value
    | .lpm => toString f.value ++ "/" ++ toString f.width
    | .ternary => toString f.value ++ "&&&" ++ toString (2 ^ f.width - 1)
    | .range => toString f.value ++ "->" ++ toString f.value := by
  obtain ⟨kind, width, value⟩ := f
  cases kind <;> rfl

theorem isWord_text : Text.IsWord f.text := by
  have hslash : Text.IsWord "/" := Text.isWord_of_all (by decide) rfl
  have hand : Text.IsWord "&&&" := Text.isWord_of_all (by decide) rfl
  have hto : Text.IsWord "->" := Text.isWord_of_all (by decide) rfl
  have hnumber := Text.isWord_toString
  rw [text_eq]
  split
  · exact hnumber _
  · exact ((hnumber _).append hslash).append (hnumber _)
  · exact ((hnumber _).append hand).append (hnumber _)
  · exact ((hnumber _).append hto).append (hnumber _)

theorem text_ne_arrow : f.text ≠ "=>" := by
  have hstart : ∃ rest, f.text = toString f.value ++ rest := by
    rw [text_eq]
    split
    · exact ⟨"", by simp⟩
    · exact ⟨_, String.append_assoc⟩
    · exact ⟨_, String.append_assoc⟩
    · exact ⟨_, String.append_assoc⟩
  obtain ⟨rest, hrest⟩ := hstart
  rw [hrest]
  exact Text.toString_append_ne rfl (by decide)

theorem value_text {f : WantedField} {k : KeyInfo} (hkind : k.kind = f.kind.way) (hwidth : k.width = .int f.width)
    (hfits : f.value < 2 ^ f.width) : k.value f.text = .ok f.sent := by
  obtain ⟨kind, width, value⟩ := f
  have hbytes := Console.parameterBytes_toString .matchKey hfits
  have hmask := Console.parameterBytes_toString .matchKey (Nat.sub_lt (Nat.two_pow_pos width) Nat.one_pos)
  have hsplit (divider : String) {d : Char} {ds : List Char} (hdivider : divider.toList = d :: ds)
      (hd : d.isDigit = false) (n m : Nat) :
      Text.split divider (toString n ++ divider ++ toString m) = [toString n, toString m] :=
    Text.split_divider hdivider (fun c hc => Text.ne_of_mem_toString hc hd) fun c hc => Text.ne_of_mem_toString hc hd
  rw [text_eq]
  cases kind with
  | exact =>
    simp only [KeyInfo.value, hkind, KeyMatch.way, hwidth, hbytes]
    rfl
  | lpm =>
    simp only [KeyInfo.value, hkind, KeyMatch.way, hwidth, Console.halves, hsplit "/" rfl (by decide), hbytes,
      Console.plainInt, Text.int?_toString, bind, Except.bind]
    rfl
  | ternary =>
    simp only [KeyInfo.value, hkind, KeyMatch.way, hwidth, Console.halves, hsplit "&&&" rfl (by decide), hbytes,
      hmask, bind, Except.bind, Console.length_bytesOfWidth, ne_eq, not_true_eq_false, if_false]
    rfl
  | range =>
    simp only [KeyInfo.value, hkind, KeyMatch.way, hwidth, Console.halves, hsplit "->" rfl (by decide), hbytes,
      bind, Except.bind, ne_eq, not_true_eq_false, if_false, Console.bytesLt_self, Bool.false_eq_true]
    rfl

end WantedField

variable {fields : List WantedField} {a : ActionInfo} {params : List GivenParam} {info : TableInfo} {t : Table}
  {keys : List EntryKey}

theorem keyValues_texts {ks : List KeyInfo}
    (hinfo : ks.map (fun k => (k.kind, k.width)) = fields.map fun f => (f.kind.way, .int f.width))
    (hfits : ∀ f ∈ fields, f.value < 2 ^ f.width) :
    Console.keyValues ks (fields.map WantedField.text) = .ok (fields.map WantedField.sent) := by
  induction fields generalizing ks with
  | nil => cases ks <;> rfl
  | cons f fields ih =>
    cases ks with
    | nil => cases hinfo
    | cons k ks =>
      obtain ⟨hfirst, hrest⟩ := List.cons.inj hinfo
      obtain ⟨hkind, hwidth⟩ := Prod.mk.inj hfirst
      have hvalue := WantedField.value_text hkind hwidth (hfits f mem_cons_self)
      rw [map_cons, keyValues, hvalue, ih hrest fun f hf => hfits f (mem_cons_of_mem _ hf)]
      rfl

/-! ## Parameters -/

structure GivenParam where
  name : Json
  width : Nat
  value : Nat

namespace GivenParam

def entry (g : GivenParam) : Json × EntryValue := (g.name, .number g.width g.value)

def sent (g : GivenParam) : List UInt8 := bytesOfWidth g.width g.value

end GivenParam

theorem data_texts (hwidths : a.params.map Prod.snd = params.map fun g => .int g.width)
    (hfits : ∀ g ∈ params, g.value < 2 ^ g.width) :
    a.data (params.map fun g => toString g.value) = .ok (params.map GivenParam.sent) := by
  rw [ActionInfo.data, hwidths]
  clear hwidths
  induction params with
  | nil => rfl
  | cons g params ih =>
    have hfirst := parameterBytes_toString .runtimeData (hfits g mem_cons_self)
    have hrest := ih fun g hg => hfits g (mem_cons_of_mem _ hg)
    simp only [map_cons, zip_cons_cons, mapM_cons, hfirst, hrest]
    rfl

/-! ## Commands -/

theorem ofName?_name (k : KeyMatch) : KeyMatch.ofName? k.name = some k := by
  cases k <;> rfl

theorem keyField_ok {k : TableKey} {parts : List String} (h : k.target = .arr (parts.map .str)) :
    keyField k = .ok (".".intercalate parts) := by
  have hparts (f : Json → Except Fault String) (hf : ∀ s, f (.str s) = .ok s) :
      (parts.map Json.str).mapM f = .ok parts := by
    clear h
    induction parts with
    | nil => rfl
    | cons s parts ih =>
      rw [map_cons, mapM_cons, ih, hf]
      rfl
  refine bind_eq_ok.mpr ⟨parts.map .str, by rw [h]; rfl, ?_⟩
  exact bind_eq_ok.mpr ⟨parts, hparts _ fun _ => rfl, rfl⟩

theorem entryKeys_ok
    {ks : List TableKey} (hkinds : ks.map (·.matchType) = fields.map fun f => .str f.kind.name)
    (htargets : ∀ k ∈ ks, ∃ parts : List String, k.target = .arr (parts.map .str)) :
    ∃ es, ((ks.zip (fields.map WantedField.entry)).mapM fun (k, v) => entryKey k v) = .ok es ∧
      es.map (fun e => (e.kind, e.value)) = fields.map fun f => (f.kind, f.entry) := by
  induction ks generalizing fields with
  | nil =>
    cases fields with
    | nil => exact ⟨[], rfl, rfl⟩
    | cons f fields => cases hkinds
  | cons k ks ih =>
    cases fields with
    | nil => cases hkinds
    | cons f fields =>
      obtain ⟨hkind, hrest⟩ := List.cons.inj hkinds
      obtain ⟨es, hes, hmap⟩ := ih hrest fun k hk => htargets k (mem_cons_of_mem _ hk)
      obtain ⟨parts, hparts⟩ := htargets k mem_cons_self
      have hkey : entryKey k f.entry = .ok ⟨f.kind, ".".intercalate parts, f.entry⟩ := by
        refine bind_eq_ok.mpr ⟨_, keyField_ok hparts, ?_⟩
        simp only [hkind, Json.str?, Option.bind_some, ofName?_name]
        rfl
      refine ⟨⟨f.kind, ".".intercalate parts, f.entry⟩ :: es, ?_, by simp [hmap]⟩
      simp only [map_cons, zip_cons_cons, mapM_cons, hkey, hes]
      rfl

theorem ofText_text (c : TableCommand) : SwitchCall.ofText c.text = .ok (SwitchCall.ofCommand c) := by
  have hdrop : ∀ s t : String, String.ofList ((s ++ t).toList.drop s.length) = t := by
    intro s t
    rw [String.toList_append, drop_left' String.length_toList, String.ofList_toList]
  have hstart : ∀ s t : String, Text.startsWith (s ++ t) s = true := by
    intro s t
    rw [Text.startsWith, String.toList_append]
    exact isPrefixOf_iff_prefix.mpr (prefix_append _ _)
  cases hdefault : c.isDefault with
  | true =>
    simp only [SwitchCall.ofText, TableCommand.text, SwitchCall.ofCommand, hdefault, if_true, hstart, hdrop]
  | false =>
    have hother : Text.startsWith ("table_add " ++ c.arguments) "table_set_default " = false := by
      simp [Text.startsWith, List.isPrefixOf]
    simp only [SwitchCall.ofText, TableCommand.text, SwitchCall.ofCommand, hdefault, Bool.false_eq_true, if_false,
      if_true, hother, hstart, hdrop]

/-! ## Words -/

section Words

variable {name action : String} {fields params : List String}

theorem words_setDefaultText (hname : Text.IsWord name) (haction : Text.IsWord action)
    (hparams : ∀ s ∈ params, Text.IsWord s) :
    words (setDefaultText name action params) = name :: action :: params := by
  rw [setDefaultText, words_append_blank, words_append_blank, hname.words_eq,
    haction.words_eq, words_intercalate, flatMap_words hparams]
  rfl

theorem words_addText (hname : Text.IsWord name) (haction : Text.IsWord action)
    (hfields : ∀ s ∈ fields, Text.IsWord s) (hparams : ∀ s ∈ params, Text.IsWord s) (urgent : Bool) :
    words (addText name action fields params (if urgent then some 1 else none)) =
      name :: action :: (fields ++ "=>" :: params) ++ if urgent then ["1"] else [] := by
  have harrow : Text.IsWord "=>" := isWord_of_all (by decide) rfl
  have hfront : words (name ++ " " ++ action ++ " " ++ " ".intercalate fields ++ " => " ++
      " ".intercalate params) = name :: action :: (fields ++ "=>" :: params) := by
    have hblanks : name ++ " " ++ action ++ " " ++ " ".intercalate fields ++ " => " ++ " ".intercalate params =
        name ++ " " ++ action ++ " " ++ " ".intercalate fields ++ " " ++ "=>" ++ " " ++ " ".intercalate params := by
      apply String.toList_inj.mp
      simp
    simp only [hblanks, words_append_blank, hname.words_eq, haction.words_eq, harrow.words_eq,
      words_intercalate, flatMap_words hfields, flatMap_words hparams]
    simp
  cases urgent with
  | false => simpa [addText] using hfront
  | true =>
    have hlast : words (toString (1 : Int)) = ["1"] := (isWord_toString 1).words_eq
    change words (_ ++ (" " ++ toString (1 : Int))) = _
    rw [← String.append_assoc, Text.words_append_blank, hfront, hlast]
    rfl

end Words

/-! ## Dialogs -/

section Dialogs

open Console.Dialog (Asks)

variable {p : Peer} {c : Catalog} {t : TableInfo} {a : ActionInfo} {line name action : String}
  {fields params : List String} {key : List KeyValue} {data : List (List UInt8)}

theorem addEntry_asks {last : String} {n : Int}
    (hwords : words line = name :: action :: (fields ++ "=>" :: params) ++ if t.kind.hasPriority then [last]
      else []) (hlast : int? last = some n) (harrow : "=>" ∉ fields) (htable : c.table? name = some t)
    (haction : c.actionAmong? t.actions action = some a) (hfields : fields.length = t.key.length)
    (hkey : keyValues t.key fields = .ok key) (hparams : params.length = a.params.length)
    (hdata : a.data params = .ok data) : Asks p c (addEntry line)
    (.first "bm_mt_add_entry" [.text t.name, .key key, .text a.name, .params data, .priority (if t.kind.hasPriority
      then n else 0)]) := by
  apply Asks.minded
  rw [hwords]
  refine .after (.atLeast (by simp; omega)) (.after (.argument (s := name) rfl) (.after (.argument (s := action) rfl) ?_))
  refine .after (.table htable) (.after (.tableAction haction) (.after (.splitPriority hlast) (.after (.arrow harrow) ?_)))
  have htake : ((name :: action :: (fields ++ "=>" :: params)).take (2 + fields.length)).drop 2 = fields := by
    rw [Nat.add_comm]
    simp
  have hdrop : (name :: action :: (fields ++ "=>" :: params)).drop (2 + fields.length + 1) = params := by
    rw [show 2 + fields.length + 1 = fields.length + 1 + 1 + 1 by omega]
    simp
  simp only [htake, hdrop]
  rw [if_neg fun hne => hne hfields]
  refine .after (.actionData hparams hdata) (.after (.told hkey) (.after (.say _) (.after (.say _) ?_)))
  exact .after (.sayAction _ _) (.before (.request _ _) fun v => ⟨v, .bind (.say _) (.pure v)⟩)

theorem setDefault_asks (hwords : words line = name :: action :: params) (htable : c.table? name = some t)
    (haction : c.actionAmong? t.actions action = some a) (hparams : params.length = a.params.length)
    (hdata : a.data params = .ok data) : Asks p c (setDefault line)
    (.first "bm_mt_set_default_action" [.text t.name, .text a.name, .params data]) := by
  apply Asks.minded
  rw [hwords]
  refine .after (.atLeast (by simp)) (.after (.argument (s := name) rfl) (.after (.argument (s := action) rfl) ?_))
  refine .after (.table htable) (.after (.tableAction haction) (.after (.actionData hparams hdata) ?_))
  exact .after (.say _) (.after (.sayAction _ _) (.order _ _))

end Dialogs

/-! ## The way of a command -/

/-- A table of the program as the console knows it. The fields of the key are those that an entry is
made for, and entries have a priority if some field is matched by a mask or a range. -/
structure SameTable (t : Table) (info : TableInfo) (fields : List WantedField) : Prop where
  name : t.name = .text info.name
  kinds : t.key.map (·.matchType) = fields.map fun f => .str f.kind.name
  targets : ∀ k ∈ t.key, ∃ parts : List String, k.target = .arr (parts.map .str)
  known : info.key.map (fun k => (k.kind, k.width)) = fields.map fun f => (f.kind.way, .int f.width)
  priority : info.kind.hasPriority = info.key.any (·.kind.hasPriority)

structure ActionOf (c : Catalog) (info : TableInfo) (a : ActionInfo) (params : List GivenParam) : Prop where
  found : c.action? a.name = some a
  mem : a.name ∈ info.actions
  widths : a.params.map Prod.snd = params.map fun g => .int g.width

def requestFor (info : TableInfo) (a : ActionInfo) (byDefault : Bool) (fields : List WantedField)
    (params : List GivenParam) : Request :=
  if byDefault then
    .first "bm_mt_set_default_action" [.text info.name, .text a.name, .params (params.map GivenParam.sent)]
  else
    .first "bm_mt_add_entry" [.text info.name, .key (fields.map WantedField.sent), .text a.name,
      .params (params.map GivenParam.sent), .priority (if info.kind.hasPriority then 1 else 0)]

theorem SameTable.config {entry : DefaultEntry} (h : SameTable t info fields)
    (hentry : t.defaultEntry = some entry) (hneeded : fields = [] → entry.actionConst.truth = false)
    (action : Label) (byDefault : Bool) (params : List (Json × EntryValue)) :
    ∃ keys, t.entryConfig action byDefault (fields.map WantedField.entry) params =
      .ok (some ⟨t.name, action, byDefault, keys, params⟩) ∧
      keys.map (fun e => (e.kind, e.value)) = fields.map fun f => (f.kind, f.entry) := by
  obtain ⟨keys, hkeys, hmap⟩ := entryKeys_ok h.kinds h.targets
  refine ⟨keys, ?_, hmap⟩
  refine bind_eq_ok.mpr ⟨keys, hkeys, ?_⟩
  have hlength := congrArg List.length hmap
  simp only [length_map] at hlength
  have hneeded' : (keys.isEmpty && entry.actionConst.truth) = false := by
    cases hempty : keys.isEmpty with
    | false => rfl
    | true =>
      rw [isEmpty_iff.mp hempty] at hlength
      exact hneeded (eq_nil_of_length_eq_zero hlength.symm)
  simp only [hentry, hneeded', Bool.false_eq_true, if_false]
  rfl

theorem text_of_kind
    (h : keys.map (fun e => (e.kind, e.value)) = fields.map fun f => (f.kind, f.entry)) :
    keys.map EntryKey.text = fields.map WantedField.text ∧
      keys.any (·.kind.needsPriority) = fields.any (·.kind.needsPriority) ∧
      keys.isEmpty = fields.isEmpty := by
  refine ⟨?_, ?_, ?_⟩
  · have htexts := congrArg (List.map fun e : KeyMatch × EntryValue => EntryKey.text ⟨e.1, "", e.2⟩) h
    rw [map_map, map_map] at htexts
    exact htexts
  · have hany := congrArg (List.any · fun e : KeyMatch × EntryValue => e.1.needsPriority) h
    rw [any_map, any_map] at hany
    exact hany
  · have hempty := congrArg List.isEmpty h
    simpa only [isEmpty_map] using hempty

theorem SameTable.hasPriority (h : SameTable t info fields) :
    info.kind.hasPriority = fields.any (·.kind.needsPriority) := by
  have hway : ∀ k : KeyMatch, k.way.hasPriority = k.needsPriority := by
    intro k
    cases k <;> rfl
  have hany := congrArg (List.any · fun k : MatchKind × Json => k.1.hasPriority) h.known
  rw [h.priority]
  simpa [Function.comp_def, hway] using hany

theorem asks_command {c : Catalog} {p : Peer} {byDefault : Bool} (htable : SameTable t info fields)
    (haction : ActionOf c info a params) (hfound : c.table? info.name = some info)
    (hfields : ∀ f ∈ fields, f.value < 2 ^ f.width) (hparams : ∀ g ∈ params, g.value < 2 ^ g.width)
    (hname : Text.IsWord info.name) (hactionName : Text.IsWord a.name)
    (hkeys : keys.map (fun e => (e.kind, e.value)) = fields.map fun f => (f.kind, f.entry)) :
    Console.Dialog.Asks p c (Session.dialog (SwitchCall.ofCommand (TableCommand.ofConfig t
        ⟨t.name, .text a.name, byDefault, keys, params.map GivenParam.entry⟩)))
      (requestFor info a (fields.isEmpty || t.hasConstEntries || byDefault) fields params) := by
  obtain ⟨htexts, hpriority, hempty⟩ := text_of_kind hkeys
  have hamong : c.actionAmong? info.actions a.name = some a := by
    simp [Catalog.actionAmong?, haction.found, haction.mem]
  have hwords : ∀ s ∈ params.map (fun g => toString g.value), Text.IsWord s := by
    simpa using fun (g : GivenParam) _ => Text.isWord_toString g.value
  have hcount : (params.map fun g => toString g.value).length = a.params.length := by
    simpa using (congrArg List.length haction.widths).symm
  have hdata := data_texts haction.widths hparams
  cases hdefault : fields.isEmpty || t.hasConstEntries || byDefault with
  | true =>
    have hcommand : TableCommand.ofConfig t ⟨t.name, .text a.name, byDefault, keys, params.map GivenParam.entry⟩ =
        .setDefault (.text info.name) (.text a.name) (params.map GivenParam.entry) := by
      rw [TableCommand.ofConfig, if_pos (by rw [hempty, hdefault]), htable.name]
    have hline : TableCommand.arguments (.setDefault (.text info.name) (.text a.name) (params.map GivenParam.entry)) =
        TableCommand.setDefaultText info.name a.name (params.map fun g => toString g.value) := by
      rw [TableCommand.arguments, map_map]
      rfl
    rw [hcommand]
    refine Console.Dialog.Asks.discard ?_
    rw [hline]
    exact setDefault_asks (words_setDefaultText hname hactionName hwords) hfound hamong hcount hdata
  | false =>
    have hcommand : TableCommand.ofConfig t ⟨t.name, .text a.name, byDefault, keys, params.map GivenParam.entry⟩ =
        .add (.text info.name) (.text a.name) keys (params.map GivenParam.entry)
          (if info.kind.hasPriority then some 1 else none) := by
      rw [TableCommand.ofConfig, if_neg (by rw [hempty, hdefault]; simp), htable.name, htable.hasPriority,
        ← hpriority]
      rfl
    have hline : TableCommand.arguments (.add (.text info.name) (.text a.name) keys
        (params.map GivenParam.entry) (if info.kind.hasPriority then some 1 else none)) =
        TableCommand.addText info.name a.name (fields.map WantedField.text)
          (params.map fun g => toString g.value) (if info.kind.hasPriority then some 1 else none) := by
      rw [TableCommand.arguments, map_map, htexts]
      cases info.kind.hasPriority <;> rfl
    rw [hcommand]
    refine Console.Dialog.Asks.discard ?_
    rw [hline]
    refine addEntry_asks (words_addText hname hactionName ?_ hwords _) rfl ?_ hfound hamong ?_ ?_ hcount hdata
    · simpa using fun (f : WantedField) _ => f.isWord_text
    · simpa using fun (f : WantedField) _ => f.text_ne_arrow
    · simpa using (congrArg List.length htable.known).symm
    · exact keyValues_texts htable.known hfields

theorem use_command {site : Session.Site} {s : Session.State} {text : String} {call : SwitchCall} {r : Request}
    (htext : ofText text = .ok call)
    (hasks : Console.Dialog.Asks site.peer s.terminal.catalog (dialog call) r) :
    (use site s (.command text)).1.requests = [r] ∧ ∀ v, site.answer s.terminal.requests r = .value v →
    (use site s (.command text)).1.result = .ok none := by
  have hwhole : Console.Dialog.Asks site.peer s.terminal.catalog (do
      let call ← part (ofText text)
      dialog call
      return Console.Reply.null) r :=
    .after (.part htext) (.before hasks fun _ => ⟨_, .pure _⟩)
  obtain ⟨result, out, hrun, hanswer⟩ := hwhole { s.terminal with out := [], warnings := [] } rfl
  have huse : (use site s (.command text)).1 = ⟨result.map fun _ => none, String.join out.reverse, [r]⟩ := by
    simp only [use, Session.State.talk, Console.Terminal.turn, bind_assoc, hrun, Session.Answer.ofTurn]
    simp
  rw [huse]
  refine ⟨rfl, fun v hv => ?_⟩
  obtain ⟨reply, hreply⟩ := hanswer v hv
  rw [hreply]
  rfl

/-- The command for an entry of a table, with a value for each field of its key and for each parameter
of an action, makes the switch receive one request: with the table and the action, with the bytes of
the values, and with priority 1 if the table is matched by masks or ranges. It is accepted if the
switch accepts the request. -/
theorem table_command_understood {t : Table} {info : TableInfo} {a : ActionInfo} {fields : List WantedField}
    {params : List GivenParam} {entry : DefaultEntry} (site : Session.Site) (s : Session.State) (byDefault : Bool)
    (htable : SameTable t info fields) (haction : ActionOf s.terminal.catalog info a params)
    (hfound : s.terminal.catalog.table? info.name = some info)
    (hname : Text.IsWord info.name) (hactionName : Text.IsWord a.name)
    (hfields : ∀ f ∈ fields, f.value < 2 ^ f.width) (hparams : ∀ g ∈ params, g.value < 2 ^ g.width)
    (hentry : t.defaultEntry = some entry) (hneeded : fields = [] → entry.actionConst.truth = false) :
    ∃ config, t.entryConfig (.text a.name) byDefault (fields.map WantedField.entry)
        (params.map GivenParam.entry) = .ok (some config) ∧
      let answer := (Session.use site s (.command (TableCommand.ofConfig t config).text)).1
      let request := requestFor info a (fields.isEmpty || t.hasConstEntries || byDefault) fields params
      answer.requests = [request] ∧
        ∀ v, site.answer s.terminal.requests request = .value v → answer.result = .ok none := by
  obtain ⟨keys, hconfig, hkeys⟩ :=
    htable.config hentry hneeded (.text a.name) byDefault (params.map GivenParam.entry)
  refine ⟨_, hconfig, ?_⟩
  exact use_command (ofText_text _)
    (asks_command htable haction hfound hfields hparams hname hactionName hkeys)

/-- A table that is matched by fields of all kinds. -/
def aclTable : Table :=
  { (default : Table) with
    name := .text "ingress.acl"
    key := [⟨.str "exact", .arr [.str "ip", .str "proto"], .null⟩, ⟨.str "lpm", .arr [.str "ip", .str "dst"], .null⟩,
      ⟨.str "ternary", .arr [.str "eth", .str "src"], .null⟩, ⟨.str "range", .arr [.str "udp", .str "port"], .null⟩]
    defaultEntry := some ⟨.int 1, .bool true, .bool true⟩ }

def aclInfo : TableInfo :=
  { name := "ingress.acl", id := .int 0, kind := .range, actions := ["NoAction", "ingress.forward"]
    key := [⟨"ip.proto", .exact, .int 8⟩, ⟨"ip.dst", .longest, .int 32⟩, ⟨"eth.src", .ternary, .int 48⟩,
      ⟨"udp.port", .range, .int 16⟩] }

def forwardInfo : ActionInfo := ⟨"ingress.forward", .int 1, [(.str "port", .int 9), (.str "mac", .int 48)]⟩

def aclFields : List WantedField := [⟨.exact, 8, 17⟩, ⟨.lpm, 32, 0x0a000001⟩, ⟨.ternary, 48, 0⟩, ⟨.range, 16, 65535⟩]

def forwardParams : List GivenParam := [⟨.str "port", 9, 511⟩, ⟨.str "mac", 48, 0x0123456789ab⟩]

def sessionWith (tables : List TableInfo) (actions : List ActionInfo) : Session.State :=
  { terminal := { catalog := {
      tables := ⟨tables.map fun t => (t.name, t)⟩
      actions := ⟨actions.map fun a => (a.name, a)⟩
      complete := true } } }

def acceptingSite : Session.Site :=
  { madeFolder := "folder", interfaces := 1, file := "program.json", program := .null, answer := fun _ _ => .value .null,
    shell := fun _ => "" }

/-- The entry is added with its priority, and all values are sent in full. -/
theorem table_command_understood_acl :
    (SameTable aclTable aclInfo aclFields ∧
      ActionOf (sessionWith [aclInfo] [forwardInfo]).terminal.catalog aclInfo forwardInfo forwardParams) ∧
    ∃ config, aclTable.entryConfig (.text "ingress.forward") false (aclFields.map WantedField.entry)
        (forwardParams.map GivenParam.entry) = .ok (some config) ∧
      (Session.use acceptingSite (sessionWith [aclInfo] [forwardInfo])
          (.command (TableCommand.ofConfig aclTable config).text)).1.requests =
        [.first "bm_mt_add_entry" [.text "ingress.acl",
          .key [.exact [17], .longest [10, 0, 0, 1] 32,
            .ternary [0, 0, 0, 0, 0, 0] [255, 255, 255, 255, 255, 255], .range [255, 255] [255, 255]],
          .text "ingress.forward", .params [[1, 255], [0x01, 0x23, 0x45, 0x67, 0x89, 0xab]], .priority 1]] := by
  have htable : SameTable aclTable aclInfo aclFields := by
    refine ⟨rfl, rfl, ?_, rfl, rfl⟩
    intro k hk
    simp only [aclTable, mem_cons, not_mem_nil, or_false] at hk
    obtain rfl | rfl | rfl | rfl := hk
    · exact ⟨["ip", "proto"], rfl⟩
    · exact ⟨["ip", "dst"], rfl⟩
    · exact ⟨["eth", "src"], rfl⟩
    · exact ⟨["udp", "port"], rfl⟩
  have haction : ActionOf (sessionWith [aclInfo] [forwardInfo]).terminal.catalog aclInfo forwardInfo forwardParams :=
    ⟨by rfl, by decide, rfl⟩
  refine ⟨⟨htable, haction⟩, ?_⟩
  obtain ⟨config, hconfig, hrequests, -⟩ := table_command_understood acceptingSite
    (sessionWith [aclInfo] [forwardInfo]) false htable haction (by rfl)
    (Text.isWord_of_all (by decide) rfl) (Text.isWord_of_all (by decide) rfl) (by decide) (by decide) rfl (by decide)
  exact ⟨config, hconfig, hrequests⟩

/-- A table whose name is empty: its name has no blank and stands for the table. -/
def namelessInfo : TableInfo :=
  { name := "", id := .int 0, actions := ["drop"], key := [⟨"ip.proto", .exact, .int 8⟩] }

def namelessTable : Table :=
  { (default : Table) with
    name := .text ""
    key := [⟨.str "exact", .arr [.str "ip", .str "proto"], .null⟩]
    defaultEntry := some ⟨.int 0, .bool false, .bool false⟩ }

/-- A name that is empty is lost among the blanks of a command, and nothing is asked of the switch.
For a table without a default entry there is no command at all. -/
theorem nameless_table_not_understood :
    (SameTable namelessTable namelessInfo [⟨.exact, 8, 17⟩] ∧
      (sessionWith [namelessInfo] [⟨"drop", .int 0, []⟩]).terminal.catalog.resolve .table "" = some "") ∧
    (∃ config, namelessTable.entryConfig (.text "drop") false [.number 8 17] [] = .ok (some config) ∧
      (TableCommand.ofConfig namelessTable config).text = "table_add  drop 17 => " ∧
      (Session.use acceptingSite (sessionWith [namelessInfo] [⟨"drop", .int 0, []⟩])
        (.command (TableCommand.ofConfig namelessTable config).text)).1.requests = []) ∧
    Table.entryConfig { aclTable with defaultEntry := none } (.text "ingress.forward") false
      (aclFields.map WantedField.entry) (forwardParams.map GivenParam.entry) = .error .noPart := by
  have htable : SameTable namelessTable namelessInfo [⟨.exact, 8, 17⟩] := by
    refine ⟨rfl, rfl, ?_, rfl, rfl⟩
    intro k hk
    simp only [namelessTable, mem_cons, not_mem_nil, or_false] at hk
    subst hk
    exact ⟨["ip", "proto"], rfl⟩
  refine ⟨⟨htable, by rfl⟩, ?_, rfl⟩
  exact ⟨⟨.text "", .text "drop", false, [⟨.exact, "ip.proto", .number 8 17⟩], []⟩, rfl, rfl, rfl⟩

end PacketSmith
