/-!
# Tables in insertion order

A `Table` holds values under names and remembers the order in which the names came. Setting a
name anew keeps its place. That no name occurs twice is part of the type.

`Table.get?_set` and `Table.keys_set` say what setting does to the two views of a table.
-/

set_option autoImplicit false

namespace Treewalk

/-- Values under names, in the order in which the names were first set. -/
structure Table (α : Type) where
  entries : List (String × α)
  nodup : (entries.map Prod.fst).Nodup

namespace Table

variable {α β : Type}

def empty : Table α := ⟨[], List.nodup_nil⟩

instance : Inhabited (Table α) := ⟨empty⟩

/-- The names, in the order in which they were first set. -/
def keys (t : Table α) : List String := t.entries.map Prod.fst

/-- What a name stands for. -/
def get? (t : Table α) (k : String) : Option α := t.entries.lookup k

def contains (t : Table α) (k : String) : Bool := (t.get? k).isSome

/-- Replaces the entry of a name where it stands, or puts one at the end. -/
def put (k : String) (v : α) : List (String × α) → List (String × α)
  | [] => [(k, v)]
  | (j, w) :: rest => if j = k then (k, v) :: rest else (j, w) :: put k v rest

/-- Replacing keeps the order of names, and a name that is not there joins at the end. -/
theorem map_fst_put (k : String) (v : α) (es : List (String × α)) :
    (put k v es).map Prod.fst =
      if k ∈ es.map Prod.fst then es.map Prod.fst else es.map Prod.fst ++ [k] := by
  induction es with
  | nil => simp [put]
  | cons e rest ih =>
    obtain ⟨j, w⟩ := e
    rw [put]
    by_cases h : j = k
    · simp [h]
    · have hk : ¬k = j := fun e => h e.symm
      simp only [h, if_false, List.map_cons, ih, List.mem_cons, hk, false_or]
      split <;> simp

/-- The table with a value set under a name. -/
def set (t : Table α) (k : String) (v : α) : Table α where
  entries := put k v t.entries
  nodup := by
    rw [map_fst_put]
    split
    · exact t.nodup
    · next h =>
      exact List.nodup_append.mpr ⟨t.nodup, by simp, by
        intro a ha b hb
        obtain rfl : b = k := by simpa using hb
        intro e
        exact h (e ▸ ha)⟩

/-- The table that setting one pair after the other makes. -/
def ofPairs (pairs : List (String × α)) : Table α :=
  pairs.foldl (fun t p => t.set p.1 p.2) empty

/-- The table with every value changed and every name in its place. -/
def map (f : α → β) (t : Table α) : Table β where
  entries := t.entries.map fun e => (e.1, f e.2)
  nodup := by simpa [List.map_map, Function.comp_def] using t.nodup

theorem keys_set (t : Table α) (k : String) (v : α) :
    (t.set k v).keys = if k ∈ t.keys then t.keys else t.keys ++ [k] :=
  map_fst_put k v t.entries

/-- Only the name that is set stands for something else. -/
theorem lookup_put (k : String) (v : α) (es : List (String × α)) (j : String) :
    (put k v es).lookup j = if j = k then some v else es.lookup j := by
  induction es with
  | nil =>
    by_cases h : j = k
    · simp [put, h]
    · simp [put, List.lookup_cons, h, beq_eq_false_iff_ne.mpr h]
  | cons e rest ih =>
    obtain ⟨i, w⟩ := e
    rw [put]
    by_cases hi : i = k
    · subst hi
      by_cases hj : j = i
      · simp [hj]
      · simp [List.lookup_cons, hj, beq_eq_false_iff_ne.mpr hj]
    · by_cases hj : j = i
      · subst hj
        simp [hi]
      · simp [List.lookup_cons, hi, beq_eq_false_iff_ne.mpr hj, ih]

theorem put_of_lookup_eq_none {k : String} {es : List (String × α)} (h : es.lookup k = none)
    (v : α) : put k v es = es ++ [(k, v)] := by
  induction es with
  | nil => rfl
  | cons e rest ih =>
    obtain ⟨j, w⟩ := e
    rw [List.lookup_cons] at h
    split at h
    · exact absurd h (by simp)
    · next hj =>
      rw [put, if_neg fun he => beq_eq_false_iff_ne.mp hj he.symm, ih h, List.cons_append]

/-- A new name comes last. -/
theorem entries_set_of_get?_eq_none {t : Table α} {k : String} (h : t.get? k = none) (v : α) :
    (t.set k v).entries = t.entries ++ [(k, v)] :=
  put_of_lookup_eq_none h v

/-- The two ways to ask for a name agree. -/
theorem contains_iff_mem_keys {t : Table α} {k : String} : t.contains k = true ↔ k ∈ t.keys := by
  rw [contains, get?, List.lookup_isSome_iff, keys, List.mem_map]
  constructor
  · rintro ⟨e, he, hk⟩
    exact ⟨e, he, (beq_iff_eq.mp hk).symm⟩
  · rintro ⟨e, he, hk⟩
    exact ⟨e, he, beq_iff_eq.mpr hk.symm⟩

/-- Without repeated names, the first entry of a name is its only one. -/
theorem lookup_eq_some_iff {es : List (String × α)} (h : (es.map Prod.fst).Nodup) {k : String}
    {v : α} : es.lookup k = some v ↔ (k, v) ∈ es := by
  induction es with
  | nil => simp
  | cons e rest ih =>
    obtain ⟨j, w⟩ := e
    rw [List.map_cons, List.nodup_cons] at h
    by_cases hk : k = j
    · subst hk
      have hrest : (k, v) ∉ rest := fun hv => h.1 (List.mem_map.mpr ⟨_, hv, rfl⟩)
      simp [hrest, eq_comm]
    · simp [List.lookup_cons, beq_eq_false_iff_ne.mpr hk, ih h.2, hk]

/-- A name stands for the value it is listed with. -/
theorem get?_eq_some_iff {t : Table α} {k : String} {v : α} :
    t.get? k = some v ↔ (k, v) ∈ t.entries :=
  lookup_eq_some_iff t.nodup

/-- Setting never moves a name or takes one away. -/
theorem keys_prefix_set (t : Table α) (k : String) (v : α) : t.keys <+: (t.set k v).keys := by
  rw [keys_set]
  split
  · exact List.prefix_rfl
  · exact List.prefix_append ..

theorem eq_of_entries {t t' : Table α} (h : t.entries = t'.entries) : t = t' := by
  cases t
  cases t'
  cases h
  rfl

/-- Names in their order, and what each stands for, make the table. -/
theorem eq_of_views {t t' : Table α} (hkeys : t.keys = t'.keys)
    (hget : ∀ k, t.get? k = t'.get? k) : t = t' := by
  have hlisted : ∀ (u : Table α) (es : List (String × α)), (∀ e ∈ es, e ∈ u.entries) →
      (es.map Prod.fst).filterMap (fun k => (u.get? k).map (k, ·)) = es := by
    intro u es hes
    induction es with
    | nil => rfl
    | cons e rest ih =>
      have hget : u.get? e.1 = some e.2 := get?_eq_some_iff.mpr (hes e List.mem_cons_self)
      have hrest := ih fun d hd => hes d (List.mem_cons_of_mem _ hd)
      rw [List.map_cons, List.filterMap_cons, hget, hrest, Option.map_some]
  have hentries : ∀ u : Table α, u.keys.filterMap (fun k => (u.get? k).map (k, ·)) = u.entries :=
    fun u => hlisted u u.entries fun _ he => he
  apply eq_of_entries
  rw [← hentries t, ← hentries t', hkeys]
  simp only [hget]

/-- A name stands for the changed value. -/
theorem get?_map (f : α → β) (t : Table α) (k : String) : (t.map f).get? k = (t.get? k).map f := by
  show (t.entries.map fun e => (e.1, f e.2)).lookup k = (t.entries.lookup k).map f
  induction t.entries with
  | nil => rfl
  | cons e rest ih =>
    rw [List.map_cons, List.lookup_cons, List.lookup_cons]
    split
    · rfl
    · exact ih

theorem map_map {γ : Type} (f : α → β) (g : β → γ) (t : Table α) :
    (t.map f).map g = t.map (g ∘ f) := by
  apply eq_of_entries
  simp [map, Function.comp_def]

theorem map_put (f : α → β) (k : String) (v : α) (es : List (String × α)) :
    (put k v es).map (fun e => (e.1, f e.2)) = put k (f v) (es.map fun e => (e.1, f e.2)) := by
  induction es with
  | nil => rfl
  | cons e rest ih =>
    rw [List.map_cons, put, put]
    split
    · rfl
    · rw [List.map_cons, ih]

/-- A value may be changed and then set, or set and changed with the others. -/
theorem map_set (f : α → β) (t : Table α) (k : String) (v : α) :
    (t.set k v).map f = (t.map f).set k (f v) :=
  eq_of_entries (map_put f k v t.entries)

theorem get?_set (t : Table α) (k : String) (v : α) (j : String) :
    (t.set k v).get? j = if j = k then some v else t.get? j :=
  lookup_put k v t.entries j

end Table

end Treewalk
