import Mathlib.Order.Lattice

/-!
# Stable sorting

`StableSort key xs ys` says that `ys` is `xs` in the order of a key: nothing is lost or doubled, no
entry comes before one with a smaller key, and entries with one key stay in their order. This
determines `ys`, so whatever sorts stably gives the same list, `stableSort_iff`, and what is true
of one sort can be read off the definition: leaving entries out before or after sorting makes no
difference, `StableSort.filter`, and one entry more stands in one place more, `StableSort.split`.
-/

set_option autoImplicit false

namespace Treewalk

section

variable {α κ : Type} [LinearOrder κ]

/-- The second list is the first in the order of a key, and in its own order where keys are equal. -/
structure StableSort (key : α → κ) (xs ys : List α) : Prop where
  perm : ys.Perm xs
  ordered : ys.Pairwise fun a b => key a ≤ key b
  stable : ∀ k, (ys.filter fun a => key a = k) = xs.filter fun a => key a = k

variable {key : α → κ} {xs ys zs : List α}

theorem mem_iff_of_levels (h : ∀ k, (ys.filter fun a => key a = k) = zs.filter fun a => key a = k)
    (a : α) : a ∈ ys ↔ a ∈ zs := by
  have ha : a ∈ (ys.filter fun b => key b = key a) ↔ a ∈ zs.filter fun b => key b = key a := by
    rw [h]
  simpa using ha

/-- Two lists in the order of a key are one if they agree on the entries of each key. -/
theorem eq_of_levels (hys : ys.Pairwise fun a b => key a ≤ key b)
    (hzs : zs.Pairwise fun a b => key a ≤ key b)
    (h : ∀ k, (ys.filter fun a => key a = k) = zs.filter fun a => key a = k) : ys = zs := by
  induction ys generalizing zs with
  | nil =>
    symm
    rw [List.eq_nil_iff_forall_not_mem]
    intro a ha
    exact absurd ((mem_iff_of_levels h a).mpr ha) List.not_mem_nil
  | cons y ys ih =>
    have hmem := mem_iff_of_levels h
    cases zs with
    | nil => exact absurd ((hmem y).mp List.mem_cons_self) List.not_mem_nil
    | cons z zs =>
      -- Each head is among the other's entries, so the heads have the same key, the smallest.
      have hyz : key y ≤ key z := by
        rcases List.mem_cons.mp ((hmem z).mpr List.mem_cons_self) with rfl | hz
        · exact le_refl _
        · exact (List.pairwise_cons.mp hys).1 z hz
      have hzy : key z ≤ key y := by
        rcases List.mem_cons.mp ((hmem y).mp List.mem_cons_self) with rfl | hy
        · exact le_refl _
        · exact (List.pairwise_cons.mp hzs).1 y hy
      have hkey : key z = key y := le_antisymm hzy hyz
      have hhead := h (key y)
      rw [List.filter_cons_of_pos (by simp), List.filter_cons_of_pos (by simp [hkey])] at hhead
      obtain ⟨rfl, -⟩ := List.cons.inj hhead
      have htail : ∀ k, (ys.filter fun a => key a = k) = zs.filter fun a => key a = k := by
        intro k
        have hk := h k
        by_cases hy : key y = k
        · simpa [List.filter_cons, hy] using hk
        · simpa [List.filter_cons, hy] using hk
      rw [ih (List.pairwise_cons.mp hys).2 (List.pairwise_cons.mp hzs).2 htail]

namespace StableSort

theorem unique (hy : StableSort key xs ys) (hz : StableSort key xs zs) : ys = zs := by
  apply eq_of_levels hy.ordered hz.ordered
  intro k
  rw [hy.stable, hz.stable]

/-- Entries may be left out before or after sorting. -/
theorem filter (h : StableSort key xs ys) (p : α → Bool) :
    StableSort key (xs.filter p) (ys.filter p) where
  perm := h.perm.filter p
  ordered := h.ordered.filter p
  stable k := by
    have hswap : ∀ as : List α, ((as.filter p).filter fun a => key a = k) =
        (as.filter fun a => key a = k).filter p := by
      intro as
      simp only [List.filter_filter, Bool.and_comm]
    rw [hswap, hswap, h.stable k]

/-- An entry of the sorted list can be taken out of both lists at once. -/
theorem split {d : α} (h : StableSort key (xs ++ d :: zs) ys) :
    ∃ ys₁ ys₂, ys = ys₁ ++ d :: ys₂ ∧ StableSort key (xs ++ zs) (ys₁ ++ ys₂) := by
  -- Among the entries with its key it stands where it stood before.
  have hlevel := h.stable (key d)
  rw [List.filter_append, List.filter_cons_of_pos (by simp), List.filter_eq_append_iff] at hlevel
  obtain ⟨as, bs, rfl, has, hbs⟩ := hlevel
  obtain ⟨cs, ds, rfl, hcs, -, hds⟩ := List.filter_eq_cons_iff.mp hbs
  have hcs' : (cs.filter fun a => key a = key d) = [] := List.filter_eq_nil_iff.mpr hcs
  refine ⟨as ++ cs, ds, by simp, ?_, ?_, ?_⟩
  · have hperm : (d :: (as ++ cs ++ ds)).Perm (d :: (xs ++ zs)) :=
      List.perm_middle.symm.trans ((by simpa using h.perm : (as ++ cs ++ d :: ds).Perm _).trans
        List.perm_middle)
    exact hperm.cons_inv
  · have hsub : (as ++ cs ++ ds).Sublist (as ++ (cs ++ d :: ds)) := by
      simp
    exact h.ordered.sublist hsub
  · intro k
    by_cases hk : key d = k
    · subst hk
      rw [List.filter_append, List.filter_append, List.filter_append, has, hcs', hds,
        List.append_nil]
    · have hk' := h.stable k
      simpa [List.filter_append, List.filter_cons, hk] using hk'

end StableSort

/-- A list sorted by a test that compares keys. -/
theorem stableSort_mergeSort {le : α → α → Bool}
    (hle : ∀ a ∈ xs, ∀ b ∈ xs, le a b = decide (key a ≤ key b)) :
    StableSort key xs (xs.mergeSort le) := by
  let byKey : α → α → Bool := fun a b => decide (key a ≤ key b)
  have hsort : xs.mergeSort le = xs.mergeSort byKey := by
    have hmap := List.map_mergeSort (f := fun a : α => a) hle
    simpa using hmap
  have htrans : ∀ a b c, byKey a b = true → byKey b c = true → byKey a c = true := by
    intro a b c hab hbc
    exact decide_eq_true (le_trans (of_decide_eq_true hab) (of_decide_eq_true hbc))
  have htotal : ∀ a b, (byKey a b || byKey b a) = true := by
    intro a b
    simpa [byKey] using le_total (key a) (key b)
  have hordered : (xs.mergeSort byKey).Pairwise fun a b => key a ≤ key b :=
    (List.pairwise_mergeSort htrans htotal xs).imp of_decide_eq_true
  rw [hsort]
  refine ⟨List.mergeSort_perm xs byKey, hordered, ?_⟩
  intro k
  -- The entries of one key are in order already, so sorting keeps them as they are.
  have hlevel : (xs.filter fun a => key a = k).Pairwise fun a b => byKey a b = true := by
    rw [List.pairwise_filter]
    apply List.pairwise_of_forall
    intro a b ha hb
    exact decide_eq_true (le_of_eq ((of_decide_eq_true ha).trans (of_decide_eq_true hb).symm))
  have hsub := (List.sublist_mergeSort htrans htotal hlevel List.filter_sublist).filter
    fun a => key a = k
  rw [List.filter_filter] at hsub
  simp only [Bool.and_self] at hsub
  symm
  apply hsub.eq_of_length
  exact ((List.mergeSort_perm xs byKey).filter _).length_eq.symm

/-- There is one stable sort of a list. -/
theorem stableSort_iff {le : α → α → Bool}
    (hle : ∀ a ∈ xs, ∀ b ∈ xs, le a b = decide (key a ≤ key b)) :
    StableSort key xs ys ↔ ys = xs.mergeSort le := by
  constructor
  · intro h
    exact h.unique (stableSort_mergeSort hle)
  · rintro rfl
    exact stableSort_mergeSort hle

end

end Treewalk
