import Treewalk.Eval.Basic

/-!
# Journals

What is recorded is only ever added to a journal, one entry at a time. So what the entries say
together is shown by what one more entry says. A machine that keeps no journal is not changed by a
record; whether one is kept does not change either.
-/

set_option autoImplicit false

namespace Treewalk

namespace Machine

/-- The machine with a new journal. -/
def watched (m : Machine) : Machine := { m with journal := some [] }

/-- The entries of the journal; none if no journal is kept. -/
def entries (m : Machine) : List Event := m.journal.getD []

variable {m : Machine} {entry : Context → Heap → Event}

theorem record_of_none (h : m.journal = none) (entry : Context → Heap → Event) :
    m.record entry = m := by
  obtain ⟨context, heap, journal⟩ := m
  obtain rfl : journal = none := h
  rfl

theorem kept_record (h : m.journal.isSome = true) (entry : Context → Heap → Event) :
    (m.record entry).journal.isSome = true := by
  rw [record, Option.isSome_map]
  exact h

theorem entries_record_of_kept (h : m.journal.isSome = true) (entry : Context → Heap → Event) :
    (m.record entry).entries = m.entries ++ [entry m.context m.heap] := by
  obtain ⟨es, hes⟩ := Option.isSome_iff_exists.mp h
  rw [entries, entries, record, hes]
  rfl

theorem entries_record (m : Machine) (entry : Context → Heap → Event) :
    (m.record entry).entries = m.entries ∨
      (m.record entry).entries = m.entries ++ [entry m.context m.heap] := by
  cases h : m.journal with
  | none => exact .inl (by rw [record_of_none h])
  | some es => exact .inr (entries_record_of_kept (by rw [h]; rfl) entry)

theorem mem_entries_record {e : Event} (h : e ∈ (m.record entry).entries) :
    e ∈ m.entries ∨ e = entry m.context m.heap := by
  rcases m.entries_record entry with he | he
  · rw [he] at h
    exact .inl h
  · rw [he] at h
    rcases List.mem_append.mp h with h | h
    · exact .inl h
    · exact .inr (List.mem_singleton.mp h)

end Machine

/-- Where an entry stands in a journal that was added to: it is the last one, or stood there. -/
theorem split_of_added {es before after : List Event} {e x : Event}
    (h : es ++ [e] = before ++ x :: after) :
    (e = x ∧ after = []) ∨ ∃ rest, after = rest ++ [e] ∧ es = before ++ x :: rest := by
  rcases List.eq_nil_or_concat after with rfl | ⟨rest, last, rfl⟩
  · obtain ⟨-, hlast⟩ := List.append_inj' h rfl
    exact .inl ⟨List.singleton_inj.mp hlast, rfl⟩
  · rw [List.concat_eq_append, ← List.cons_append, ← List.append_assoc] at h
    obtain ⟨hes, hlast⟩ := List.append_inj' h rfl
    obtain rfl := List.singleton_inj.mp hlast
    exact .inr ⟨rest, List.concat_eq_append, hes⟩

end Treewalk
