/-!
# Dictionaries that keep their order

A finite map whose keys come in the order in which they were first put. Program files list their parts in an order
that shows in every answer, so the order is part of the type.
-/

namespace PacketSmith

universe u v w

structure Dict (κ : Type u) (ν : Type v) where
  entries : List (κ × ν) := []

namespace Dict

variable {κ : Type u} {ν : Type v} {μ : Type w}

instance : Inhabited (Dict κ ν) := ⟨⟨[]⟩⟩

def empty : Dict κ ν := ⟨[]⟩

def keys (d : Dict κ ν) : List κ := d.entries.map Prod.fst

def values (d : Dict κ ν) : List ν := d.entries.map Prod.snd

def size (d : Dict κ ν) : Nat := d.entries.length

def map (f : ν → μ) (d : Dict κ ν) : Dict κ μ := ⟨d.entries.map fun e => (e.1, f e.2)⟩

def filter (p : κ → ν → Bool) (d : Dict κ ν) : Dict κ ν := ⟨d.entries.filter fun e => p e.1 e.2⟩

section Lookup

variable [DecidableEq κ]

def lookup (k : κ) : List (κ × ν) → Option ν
  | [] => none
  | (k', v) :: rest => if k' = k then some v else lookup k rest

def put (k : κ) (v : ν) : List (κ × ν) → List (κ × ν)
  | [] => [(k, v)]
  | (k', v') :: rest => if k' = k then (k', v) :: rest else (k', v') :: put k v rest

def get? (d : Dict κ ν) (k : κ) : Option ν := lookup k d.entries

def contains (d : Dict κ ν) (k : κ) : Bool := (d.get? k).isSome

def getD (d : Dict κ ν) (k : κ) (other : ν) : ν := (d.get? k).getD other

def insert (d : Dict κ ν) (k : κ) (v : ν) : Dict κ ν := ⟨put k v d.entries⟩

def erase (d : Dict κ ν) (k : κ) : Dict κ ν := ⟨d.entries.filter fun e => e.1 ≠ k⟩

def alter (d : Dict κ ν) (k : κ) (start : ν) (f : ν → ν) : Dict κ ν :=
  d.insert k (f (d.getD k start))

def ofList (pairs : List (κ × ν)) : Dict κ ν :=
  pairs.foldl (fun d e => d.insert e.1 e.2) empty

/-! ## Reading back -/

theorem lookup_put (k k' : κ) (v : ν) (es : List (κ × ν)) :
    lookup k' (put k v es) = if k = k' then some v else lookup k' es := by
  induction es with
  | nil => simp [put, lookup]
  | cons e rest ih =>
    obtain ⟨k₀, v₀⟩ := e
    by_cases h : k₀ = k
    · subst h
      by_cases h' : k₀ = k' <;> simp [put, lookup, h']
    · by_cases h' : k₀ = k'
      · subst h'
        simp [put, lookup, h, Ne.symm h]
      · simp [put, lookup, h, h', ih]

theorem mem_of_lookup {k : κ} {v : ν} {es : List (κ × ν)} (h : lookup k es = some v) :
    (k, v) ∈ es := by
  induction es with
  | nil => cases h
  | cons e rest ih =>
    rw [lookup] at h
    split at h
    · next hk =>
      obtain rfl := Option.some.inj h
      exact hk ▸ List.mem_cons_self
    · exact List.mem_cons_of_mem _ (ih h)

theorem mem_entries_of_get? {d : Dict κ ν} {k : κ} {v : ν} (h : d.get? k = some v) :
    (k, v) ∈ d.entries :=
  mem_of_lookup h

@[simp] theorem get?_insert (d : Dict κ ν) (k k' : κ) (v : ν) :
    (d.insert k v).get? k' = if k = k' then some v else d.get? k' :=
  lookup_put k k' v d.entries

theorem getD_insert (d : Dict κ ν) (k k' : κ) (v other : ν) :
    (d.insert k v).getD k' other = if k = k' then v else d.getD k' other := by
  rw [getD, get?_insert]
  split <;> rfl

@[simp] theorem get?_empty (k : κ) : (empty : Dict κ ν).get? k = none := rfl

theorem map_fst_put (k : κ) (v : ν) (es : List (κ × ν)) :
    (put k v es).map Prod.fst = if k ∈ es.map Prod.fst then es.map Prod.fst else es.map Prod.fst ++ [k] := by
  induction es with
  | nil => simp [put]
  | cons e rest ih =>
    obtain ⟨k₀, v₀⟩ := e
    by_cases h : k₀ = k
    · simp [put, h]
    · by_cases hm : k ∈ rest.map Prod.fst
      · rw [if_pos hm] at ih
        simp only [put, h, if_false, List.map_cons, ih]
        rw [if_pos (List.mem_cons_of_mem _ hm)]
      · rw [if_neg hm] at ih
        have hm' : k ∉ k₀ :: rest.map Prod.fst := by
          intro hk
          rcases List.mem_cons.mp hk with hk | hk
          · exact h hk.symm
          · exact hm hk
        simp only [put, h, if_false, List.map_cons, ih]
        rw [if_neg hm']
        rfl

/-- A key that is put again keeps its place, and a new one comes last. -/
theorem keys_insert (d : Dict κ ν) (k : κ) (v : ν) :
    (d.insert k v).keys = if k ∈ d.keys then d.keys else d.keys ++ [k] :=
  map_fst_put k v d.entries

theorem nodup_keys_insert {d : Dict κ ν} (h : d.keys.Nodup) (k : κ) (v : ν) : (d.insert k v).keys.Nodup := by
  rw [keys_insert]
  split
  · exact h
  · next hnew =>
    refine List.nodup_append.mpr ⟨h, by simp, ?_⟩
    rintro k' hk' k'' hk'' rfl
    exact hnew (List.mem_singleton.mp hk'' ▸ hk')

theorem lookup_of_mem {k : κ} {v : ν} {es : List (κ × ν)} (hnodup : (es.map Prod.fst).Nodup) (h : (k, v) ∈ es) :
    lookup k es = some v := by
  induction es with
  | nil => cases h
  | cons e rest ih =>
    obtain ⟨hfirst, hrest⟩ := List.nodup_cons.mp hnodup
    rw [lookup]
    rcases List.mem_cons.mp h with rfl | h
    · rw [if_pos rfl]
    · rw [if_neg, ih hrest h]
      rintro rfl
      exact hfirst (List.mem_map.mpr ⟨_, h, rfl⟩)

/-- A value at a key is read back if no key comes twice. -/
theorem get?_of_mem {d : Dict κ ν} {k : κ} {v : ν} (hnodup : d.keys.Nodup) (h : (k, v) ∈ d.entries) :
    d.get? k = some v :=
  lookup_of_mem hnodup h

theorem mem_put {k : κ} {v : ν} {x : κ × ν} {es : List (κ × ν)} (h : x ∈ put k v es) : x.2 = v ∨ x ∈ es := by
  induction es with
  | nil => simp_all [put]
  | cons e rest ih =>
    rw [put] at h
    split at h
    · rcases List.mem_cons.mp h with rfl | h
      · exact .inl rfl
      · exact .inr (List.mem_cons_of_mem _ h)
    · rcases List.mem_cons.mp h with rfl | h
      · exact .inr List.mem_cons_self
      · exact (ih h).imp id (List.mem_cons_of_mem _)

theorem mem_values_insert {d : Dict κ ν} {k : κ} {v v' : ν} (h : v' ∈ (d.insert k v).values) :
    v' = v ∨ v' ∈ d.values := by
  obtain ⟨x, hx, rfl⟩ := List.mem_map.mp h
  exact (mem_put hx).imp id fun hx => List.mem_map_of_mem hx

end Lookup

end Dict

end PacketSmith
