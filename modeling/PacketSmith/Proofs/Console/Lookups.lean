import PacketSmith.Proofs.Console.Abbreviations

/-!
# Looking resources up

In a catalog that has been loaded a suffix stands for a resource if and only if its name is the only one of its kind
that ends in the suffix. This holds for whole names too (`found_iff_only`): one that another name ends in stands for
nothing (`found_hidden`).
-/

namespace PacketSmith.Console.Catalog

variable {α β : Type} {c : Catalog}

instance : Decidable (EndsIn name s) := decidable_of_iff _ mem_suffixes_iff

/-- The catalog is complete where the step ends without an error. -/
def Completes (m : Load α) : Prop := ∀ c a c', (ExceptT.run m).run c = (.ok a, c') → c'.complete = true

theorem Completes.bind {m : Load α} {f : α → Load β} (hf : ∀ a, Completes (f a)) : Completes (m >>= f) := by
  intro c b c' hrun
  rw [ExceptT.run_bind, StateT.run_bind] at hrun
  rcases hstep : (ExceptT.run m).run c with ⟨e | a, c₁⟩
  · rw [hstep] at hrun
    cases hrun
  · rw [hstep] at hrun
    exact hf a c₁ b c' hrun

theorem Completes.file (source : Json) : Completes (Load.file source) := by
  have hthrow (e : Fault) : Completes (throw e : Load PUnit) := by rintro c _ _ ⟨⟩
  refine .bind fun _ => ?_
  cases source with
  | obj members =>
    -- only the last step makes it complete
    iterate 15 refine .bind fun _ => ?_
    split
    · exact hthrow _
    · rintro c _ _ ⟨⟩
      rfl
  | _ => exact hthrow _

theorem complete_of_ofJson (h : ofJson source = .ok c) : c.complete = true := by
  unfold ofJson at h
  split at h
  · next hrun =>
    obtain rfl := Except.ok.inj h
    exact Completes.file source _ _ _ hrun
  · cases h

theorem resolve_iff_only (h : ofJson source = .ok c) :
    c.resolve kind s = some n ↔ ((c.names kind).filter fun m => EndsIn m s) = [n] := by
  rw [resolve, if_pos (complete_of_ofJson h), resolveAmong_eq_some_iff]
  have hsame : (fun m => (suffixes m).contains s) = fun m => decide (EndsIn m s) := by
    funext m
    simp [← mem_suffixes_iff]
  rw [hsame]

def Resource : ResourceKind → Type
  | .table => TableInfo
  | .profile => ProfileInfo
  | .action => ActionInfo
  | .meter => MeterInfo
  | .counter => CounterInfo
  | .register => RegisterInfo
  | .valueSet => ValueSetInfo

def find? (c : Catalog) (s : String) : (kind : ResourceKind) → Option (Resource kind)
  | .table => c.table? s
  | .profile => c.profile? s
  | .action => c.action? s
  | .meter => c.meter? s
  | .counter => c.counter? s
  | .register => c.register? s
  | .valueSet => c.valueSet? s

/-- The resource that is kept under a name. -/
def named? (c : Catalog) (n : String) : (kind : ResourceKind) → Option (Resource kind)
  | .table => c.tables.get? n
  | .profile => c.profileNamed? n
  | .action => c.actions.get? n
  | .meter => c.meters.get? n
  | .counter => c.counters.get? n
  | .register => c.registers.get? n
  | .valueSet => c.valueSets.get? n

/-- A text finds the resource of the only name that ends in it. -/
theorem found_iff_only (h : ofJson source = .ok c) (kind : ResourceKind) (s : String) (r : Resource kind) :
    c.find? s kind = some r ↔
      ∃ n, ((c.names kind).filter fun m => EndsIn m s) = [n] ∧ c.named? n kind = some r := by
  have hfind : c.find? s kind = (c.resolve kind s).bind (c.named? · kind) := by cases kind <;> rfl
  simp only [hfind, Option.bind_eq_some_iff, resolve_iff_only h]

/-- The name of the first action is an ending of the name of the second. -/
def nested : Json :=
  let action (name : String) : Json := .obj [("name", .str name), ("id", .int 0), ("runtime_data", .arr [])]
  .obj [("actions", .arr [action "b", action "a.b", action "a.c"])]

theorem found_iff_only_nested : ∃ c a, ofJson nested = .ok c ∧ c.named? "a.c" .action = some a ∧
    c.find? "c" .action = some a := by
  refine ⟨_, _, rfl, rfl, (found_iff_only (show ofJson nested = _ from rfl) .action "c" _).mpr ⟨"a.c", ?_, rfl⟩⟩
  decide +kernel

theorem found_hidden : ∃ c, ofJson nested = .ok c ∧ "b" ∈ c.names .action ∧ c.find? "b" .action = none :=
  ⟨_, rfl, by decide, by cbv⟩

end PacketSmith.Console.Catalog
