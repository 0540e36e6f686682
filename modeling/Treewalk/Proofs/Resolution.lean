import Treewalk.Proofs.Footprint

/-!
# Where names resolve to

A name resolves to the nearest environment that binds it, on the line from an environment up to its
last ancestor: `Environments.Resolves`. Once it resolves somewhere it does so for good, whatever is
assigned through whichever environment, and whatever environments are made: `resolution_stable`.

That is not because nothing is ever bound nearer by. Two environments may bind the same name, the
parent after the child even. But an assignment looks for an owner first and binds the name anew only
where it finds none, so nothing is ever bound between an environment and an owner that it has.
-/

set_option autoImplicit false

namespace Treewalk

/-- The nearest environment that binds a name itself: this one, or else that of its parent. -/
inductive Environments.Resolves (s : Environments) (name : String) : EnvId → EnvId → Prop
  | here {e : EnvId} : name ∈ s.localNames e → Resolves s name e e
  | above {e p o : EnvId} : name ∉ s.localNames e → s.parent? e = some p → Resolves s name p o →
      Resolves s name e o

/-- What can be done with environments. -/
inductive EnvironmentCall where
  | make
  | child (parent : EnvId)
  | assign (e : EnvId) (name : String) (v : Value)

/-- The environments that a call leaves. -/
def EnvironmentCall.leave : EnvironmentCall → Environments → Environments
  | .make, s => s.add none .empty
  | .child parent, s => s.add (some parent) .empty
  | .assign e name v, s => s.assign e name v

namespace Environments

/-- The environments after some calls, one after the other. -/
def after (s : Environments) (calls : List EnvironmentCall) : Environments :=
  calls.foldl (fun s c => c.leave s) s

variable {s : Environments} {e i p o : EnvId} {name n : String} {v : Value}

/-! ## The nearest environment -/

theorem contains_iff_mem_localNames :
    (s.bindings e).contains name = true ↔ name ∈ s.localNames e :=
  Table.contains_iff_mem_keys

theorem localNames_eq_nil (h : s.size ≤ e) : s.localNames e = [] := by
  rw [localNames, bindings, s.value?_eq_none h]
  rfl

/-- The search is that of the parent where an environment does not bind the name itself. -/
theorem owner?_eq (s : Environments) (e : EnvId) (name : String) :
    s.owner? e name =
      if name ∈ s.localNames e then some e else (s.parent? e).bind (s.owner? · name) := by
  rw [owner?, Lineage.chain, List.find?_cons]
  cases hname : (s.bindings e).contains name with
  | true => rw [if_pos (contains_iff_mem_localNames.mp hname)]
  | false =>
    rw [if_neg fun h => Bool.eq_false_iff.mp hname (contains_iff_mem_localNames.mpr h)]
    dsimp only
    split
    · next hroot => rw [hroot, List.find?_nil, Option.bind_none]
    · next p hp => rw [hp, Option.bind_some, owner?]

theorem owner?_eq_some_iff : s.owner? e name = some o ↔ s.Resolves name e o := by
  constructor
  · intro h
    induction e using Nat.strongRecOn with
    | ind e ih =>
      rw [owner?_eq] at h
      split at h
      · next hname =>
        cases h
        exact .here hname
      · next hname =>
        obtain ⟨p, hp, ho⟩ := Option.bind_eq_some_iff.mp h
        exact .above hname hp (ih p (s.older e p hp) ho)
  · intro h
    induction h with
    | here hname => rw [owner?_eq, if_pos hname]
    | above hname hp _ ih => rw [owner?_eq, if_neg hname, hp, Option.bind_some, ih]

theorem owner?_eq_none_iff : s.owner? e name = none ↔ ∀ o, ¬ s.Resolves name e o := by
  rw [Option.eq_none_iff_forall_ne_some]
  exact forall_congr' fun o => not_congr owner?_eq_some_iff

namespace Resolves

theorem mem_localNames (h : s.Resolves name e o) : name ∈ s.localNames o := by
  induction h with
  | here hname => exact hname
  | above _ _ _ ih => exact ih

/-- Only environments that are there resolve anything. -/
theorem lt_size (h : s.Resolves name e o) : e < s.size := by
  refine Nat.lt_of_not_le fun hge => ?_
  cases h with
  | here hname =>
    rw [localNames_eq_nil hge] at hname
    exact List.not_mem_nil hname
  | above _ hp _ =>
    rw [s.parent?_eq_none hge] at hp
    exact absurd hp nofun

/-- There is one nearest environment. -/
theorem unique (h : s.Resolves name e o) {o' : EnvId} (h' : s.Resolves name e o') : o = o' :=
  Option.some.inj ((owner?_eq_some_iff.mpr h).symm.trans (owner?_eq_some_iff.mpr h'))

end Resolves

/-! ## Reading -/

theorem get?_of_resolves (h : s.Resolves name e o) :
    s.get? e name = (s.bindings o).get? name := by
  rw [get?, owner?_eq_some_iff.mpr h, Option.bind_some]

/-- A name is bound where it resolves to, so it can be read. -/
theorem isSome_get? (s : Environments) (e : EnvId) (name : String) :
    (s.get? e name).isSome = s.has e name := by
  cases howner : s.owner? e name with
  | none => rw [get?, has, howner]; rfl
  | some o =>
    have hresolves := owner?_eq_some_iff.mp howner
    have hbound : (s.bindings o).contains name = true :=
      contains_iff_mem_localNames.mpr hresolves.mem_localNames
    rw [get?_of_resolves hresolves, has, howner]
    exact hbound

/-! ## Assigning -/

/-- The environment whose binding an assignment changes. -/
def target (s : Environments) (e : EnvId) (name : String) : EnvId := (s.owner? e name).getD e

theorem assign_eq (s : Environments) (e : EnvId) (name : String) (v : Value) :
    s.assign e name v = s.update (s.target e name) (·.set name v) := rfl

theorem target_of_resolves (h : s.Resolves name e o) : s.target e name = o := by
  rw [target, owner?_eq_some_iff.mpr h, Option.getD_some]

theorem target_of_unresolved (h : ∀ o, ¬ s.Resolves name e o) : s.target e name = e := by
  rw [target, owner?_eq_none_iff.mpr h, Option.getD_none]

theorem target_lt (he : e < s.size) : s.target e name < s.size := by
  by_cases h : ∃ o, s.Resolves name e o
  · obtain ⟨o, ho⟩ := h
    rw [target_of_resolves ho]
    exact (Resolves.here ho.mem_localNames).lt_size
  · rw [target_of_unresolved (not_exists.mp h)]
    exact he

@[simp] theorem parent?_assign : (s.assign e name v).parent? i = s.parent? i :=
  Lineage.parent?_update ..

/-- A name that is bound was bound there already, or was assigned to there. -/
theorem mem_localNames_assign_cases (h : n ∈ (s.assign e name v).localNames i) :
    n ∈ s.localNames i ∨ (n = name ∧ i = s.target e name) := by
  rcases s.localNames_update (s.target e name) i name v with hsame | ⟨hi, -, hnew⟩
  · exact .inl (hsame ▸ h)
  · rw [assign_eq, hnew, List.mem_append, List.mem_singleton] at h
    exact h.imp_right fun hn => ⟨hn, hi.symm⟩

theorem mem_localNames_assign (h : n ∈ s.localNames i) :
    n ∈ (s.assign e name v).localNames i := by
  rcases s.localNames_update (s.target e name) i name v with hsame | ⟨-, -, hnew⟩
  · rw [assign_eq, hsame]
    exact h
  · rw [assign_eq, hnew]
    exact List.mem_append_left _ h

theorem bindings_assign_target (he : e < s.size) :
    (s.assign e name v).bindings (s.target e name) =
      (s.bindings (s.target e name)).set name v := by
  have hlt : s.target e name < s.size := target_lt he
  obtain ⟨t, ht⟩ := Lineage.exists_value? hlt
  rw [assign_eq, bindings, bindings, Lineage.value?_update, if_pos rfl, ht]
  rfl

theorem bindings_assign_of_ne (hi : i ≠ s.target e name) :
    (s.assign e name v).bindings i = s.bindings i := by
  rw [assign_eq, bindings, bindings, Lineage.value?_update, if_neg hi.symm]

/-- **An assignment keeps what names resolve to.** Induction on the way to the owner. A name newly
bound on that way was assigned to through the very environment that binds it now, and nothing bound
it there or above; but the owner does. -/
theorem Resolves.assign (h : s.Resolves n i o) (e : EnvId) (name : String) (v : Value) :
    (s.assign e name v).Resolves n i o := by
  induction h with
  | here hname => exact .here (mem_localNames_assign hname)
  | @above i p o hname hp hup ih =>
    refine .above (fun hbound => ?_) (parent?_assign.trans hp) ih
    obtain ⟨rfl, rfl⟩ := (mem_localNames_assign_cases hbound).resolve_left hname
    by_cases howned : ∃ o', s.Resolves n e o'
    · obtain ⟨o', ho'⟩ := howned
      rw [target_of_resolves ho'] at hname
      exact hname ho'.mem_localNames
    · have hfree := not_exists.mp howned
      rw [target_of_unresolved hfree] at hname hp
      exact hfree o (.above hname hp hup)

/-- What is assigned to is then bound where the assignment went. -/
theorem resolves_assign_target (he : e < s.size) :
    (s.assign e name v).Resolves name e (s.target e name) := by
  by_cases h : ∃ o, s.Resolves name e o
  · obtain ⟨o, ho⟩ := h
    rw [target_of_resolves ho]
    exact ho.assign e name v
  · have htarget := target_of_unresolved (not_exists.mp h)
    have hbindings : (s.assign e name v).bindings (s.target e name) =
        (s.bindings (s.target e name)).set name v := bindings_assign_target he
    rw [htarget] at hbindings ⊢
    refine .here (contains_iff_mem_localNames.mp ?_)
    rw [hbindings, Table.contains, Table.get?_set, if_pos rfl]
    rfl

/-- Another name, or a name that resolves elsewhere, resolves as it did before. -/
theorem owner?_assign (h : ¬(n = name ∧ (s.assign e name v).Resolves n i (s.target e name))) :
    (s.assign e name v).owner? i n = s.owner? i n := by
  cases howner : (s.assign e name v).owner? i n with
  | none =>
    refine (owner?_eq_none_iff.mpr fun o ho => ?_).symm
    exact owner?_eq_none_iff.mp howner o (ho.assign e name v)
  | some o =>
    have hresolves := owner?_eq_some_iff.mp howner
    refine (owner?_eq_some_iff.mpr ?_).symm
    clear howner
    -- Along the way there and at the owner, nothing is bound that was not bound before.
    induction hresolves with
    | @here i hname =>
      refine .here ((mem_localNames_assign_cases hname).resolve_right ?_)
      rintro ⟨hn, hi⟩
      exact h ⟨hn, hi ▸ .here hname⟩
    | @above i p o hname hp hup ih =>
      refine .above (mt mem_localNames_assign hname) (parent?_assign.symm.trans hp) (ih ?_)
      rintro ⟨hn, hsame⟩
      exact h ⟨hn, .above hname hp hsame⟩

/-! ## One call after the other -/

/-- A new environment is nobody's ancestor yet and binds nothing. -/
theorem Resolves.add (h : s.Resolves n i o) (parent : Option EnvId) :
    Resolves (Lineage.add s parent .empty) n i o := by
  have hkept : ∀ j < s.size, localNames (s.add parent .empty) j = s.localNames j := by
    intro j hj
    rw [localNames, localNames, bindings, bindings, Lineage.value?_add, if_neg (Nat.ne_of_lt hj)]
  induction h with
  | @here i hname =>
    refine .here ?_
    rw [hkept i (Resolves.here hname).lt_size]
    exact hname
  | @above i p o hname hp hup ih =>
    have hi : i < s.size := (Resolves.above hname hp hup).lt_size
    refine .above ?_ ?_ ih
    · rw [hkept i hi]
      exact hname
    · rw [Lineage.parent?_add, if_neg (Nat.ne_of_lt hi)]
      exact hp

theorem Resolves.leave (h : s.Resolves n i o) (c : EnvironmentCall) :
    (c.leave s).Resolves n i o := by
  cases c with
  | make => exact h.add none
  | child parent => exact h.add (some parent)
  | assign e name v => exact h.assign e name v

theorem Resolves.after (h : s.Resolves n i o) (calls : List EnvironmentCall) :
    (s.after calls).Resolves n i o := by
  induction calls generalizing s with
  | nil => exact h
  | cons c calls ih => exact ih (h.leave c)

/-- What an assignment made of the environments, if it changed the binding of `o`. -/
structure Assigned (s s' : Environments) (e : EnvId) (name : String) (v : Value) (o : EnvId) :
    Prop where
  written : s'.bindings o = (s.bindings o).set name v
  untouched : ∀ i, i ≠ o → s'.bindings i = s.bindings i
  resolves : s'.Resolves name e o
  shared : ∀ i, s'.Resolves name i o → s'.get? i name = some v
  elsewhere : ∀ i n, ¬(n = name ∧ s'.Resolves n i o) →
    s'.has i n = s.has i n ∧ s'.get? i n = s.get? i n

theorem assigned_target (he : e < s.size) (name : String) (v : Value) :
    Assigned s (s.assign e name v) e name v (s.target e name) where
  written := bindings_assign_target he
  untouched _ := bindings_assign_of_ne
  resolves := resolves_assign_target he
  shared i hi := by
    rw [get?_of_resolves hi, bindings_assign_target he, Table.get?_set, if_pos rfl]
  elsewhere i n h := by
    have howner := owner?_assign h
    refine ⟨by rw [has, has, howner], ?_⟩
    rw [get?, get?, howner]
    cases ho : s.owner? i n with
    | none => rfl
    | some o =>
      rw [Option.bind_some, Option.bind_some]
      by_cases htarget : o = s.target e name
      · subst htarget
        have hn : n ≠ name := fun hn => h ⟨hn, owner?_eq_some_iff.mp (howner.trans ho)⟩
        rw [bindings_assign_target he, Table.get?_set, if_neg hn]
      · rw [bindings_assign_of_ne htarget]

end Environments

/-- **What a name resolves to is settled once and for all.** A name can be read where it is bound.
Where it resolves to an environment, it resolves to the same one after any calls. An assignment goes
to the environment that the name resolves to, or else to the one it is made in; it is seen wherever
the name then resolves to that one, and nowhere else. -/
theorem resolution_stable :
    (∀ (s : Environments) (e : EnvId) (name : String), (s.get? e name).isSome = s.has e name) ∧
    (∀ (s : Environments) (e o : EnvId) (name : String), s.Resolves name e o →
      ∀ calls, (s.after calls).Resolves name e o) ∧
    ∀ (s : Environments) (e : EnvId) (name : String) (v : Value), e < s.size →
      ∃ o, Environments.Assigned s (s.assign e name v) e name v o ∧
        (s.Resolves name e o ∨ o = e ∧ ∀ o', ¬ s.Resolves name e o') := by
  refine ⟨Environments.isSome_get?, fun s e o name h calls => h.after calls,
    fun s e name v he => ⟨s.target e name, Environments.assigned_target he name v, ?_⟩⟩
  by_cases h : ∃ o, s.Resolves name e o
  · obtain ⟨o, ho⟩ := h
    exact .inl (Environments.target_of_resolves ho ▸ ho)
  · have hfree := not_exists.mp h
    exact .inr ⟨Environments.target_of_unresolved hfree, hfree⟩

/-- A child binds `x` first, its own child and its parent after that. -/
def boundInTheMiddle : List EnvironmentCall :=
  [.make, .child 0, .child 1, .child 0, .assign 1 "x" .nil, .assign 0 "x" (.bool true),
    .assign 2 "x" (.bool false)]

/-- From below, `x` is that of the middle for good, and an assignment from the side goes past it. -/
theorem boundInTheMiddle_stable :
    let s := Environments.after .empty boundInTheMiddle
    s.Resolves "x" 2 1 ∧ (∀ calls, (s.after calls).Resolves "x" 2 1) ∧ 3 < s.size ∧
      s.Resolves "x" 3 0 ∧ Environments.Assigned s (s.assign 3 "x" .nil) 3 "x" .nil 0 := by
  intro s
  obtain ⟨-, hstable, hassign⟩ := resolution_stable
  have hbelow : s.Resolves "x" 2 1 := Environments.owner?_eq_some_iff.mp (by decide +kernel)
  have hbeside : s.Resolves "x" 3 0 := Environments.owner?_eq_some_iff.mp (by decide +kernel)
  obtain ⟨o, hassigned, ho⟩ := hassign s 3 "x" .nil (by decide +kernel)
  obtain rfl : o = 0 := by
    rcases ho with ho | ⟨-, hfree⟩
    · exact ho.unique hbeside
    · exact absurd hbeside (hfree 0)
  exact ⟨hbelow, hstable s 2 1 "x" hbelow, by decide +kernel, hbeside, hassigned⟩

end Treewalk
