import Treewalk.Proofs.Rounding
import Treewalk.Proofs.Sample
import Treewalk.Syntax.Sequence

/-!
# Read-only sequences are lists

What is read from a sequence is what the list of its nodes has: `NodeSeq.ReadsAsList`. Its
sub-ranges are those of the list, also those of sub-ranges: `NodeSeq.CutsAsList`. Indexes and ends
of ranges are numbers as a caller has them, so it is said of every number what comes of it.

Sequences are objects. A sub-range may be the sequence it was taken from, or the shared empty one;
so objects are kept in a store, and `sequences_are_lists` is about all objects that any calls have
made. No call ever changes one, those included that would change a sequence and are refused.
-/

set_option autoImplicit false

namespace Treewalk

/-! ## Numbers that count -/

/-- The double is this natural number. Both zeros are zero. -/
def Double.Denotes (x : Double) (n : Nat) : Prop :=
  ∃ negative h, x = .finite negative (n * unitsPerOne) h ∧ (negative = true → n = 0)

theorem Double.denotes_iff {x : Double} {n : Nat} : x.Denotes n ↔ x.toNat? = some n := by
  constructor
  · rintro ⟨negative, h, rfl, hzero⟩
    have hsign : negative = false ∨ n * unitsPerOne = 0 := by
      cases negative with
      | false => exact .inl rfl
      | true => exact .inr (by rw [hzero rfl, Nat.zero_mul])
    rw [toNat?, if_pos ⟨hsign, Nat.dvd_mul_left ..⟩, Nat.mul_div_cancel _ unitsPerOne_pos]
  · intro h
    cases x with
    | finite negative units hunits =>
      rw [toNat?] at h
      split at h
      · next hwhole =>
        obtain ⟨hsign, hdvd⟩ := hwhole
        have hn : n * unitsPerOne = units := by
          rw [← Option.some.inj h, Nat.div_mul_cancel hdvd]
        refine ⟨negative, hn ▸ hunits, by simp only [hn], fun hnegative => ?_⟩
        have hzero : units = 0 := hsign.resolve_left (by simp [hnegative])
        rw [← Option.some.inj h, hzero, Nat.zero_div]
      · cases h
    | nan | infinity => cases h

theorem Double.Denotes.unique {x : Double} {n n' : Nat} (h : x.Denotes n) (h' : x.Denotes n') :
    n = n' :=
  Option.some.inj ((denotes_iff.mp h).symm.trans (denotes_iff.mp h'))

namespace NodeSeq

variable {s : NodeSeq}

/-! ## Reading -/

/-- The node at an index is the very candidate. A candidate that is no node is at no index. -/
def Holds (s : NodeSeq) (candidate : Option Node) (i : Nat) : Prop :=
  ∃ n c, s.items[i]? = some n ∧ candidate = some c ∧ c.id = n.id

/-- What is read from a sequence is what its list of nodes has. -/
structure ReadsAsList (s : NodeSeq) : Prop where
  get : ∀ {index : Double} {i : Nat} (hi : i < s.items.length), index.Denotes i →
    s.get index = .ok s.items[i]
  get_refused : ∀ {index : Double}, (∀ i, index.Denotes i → s.items.length ≤ i) →
    s.get index = .error (.index index s.items.length)
  first : ∀ {c : Option Node} {i : Nat},
    s.indexOf? c = some i ↔ s.Holds c i ∧ ∀ j < i, ¬ s.Holds c j
  first_none : ∀ {c : Option Node}, s.indexOf? c = none ↔ ∀ i, ¬ s.Holds c i
  last : ∀ {c : Option Node} {i : Nat},
    s.lastIndexOf? c = some i ↔ s.Holds c i ∧ ∀ j, i < j → ¬ s.Holds c j
  last_none : ∀ {c : Option Node}, s.lastIndexOf? c = none ↔ ∀ i, ¬ s.Holds c i
  contains : ∀ {c : Option Node}, (s.contains c = true ↔ s.indexOf? c ≠ none) ∧
    (s.contains c = true ↔ s.lastIndexOf? c ≠ none)
  containsAll : ∀ {cs : List (Option Node)}, s.containsAll cs = true ↔
    cs ≠ [] ∧ cs.length ≤ s.items.length ∧ ∀ c ∈ cs, s.contains c = true

theorem get_eq {index : Double} {i : Nat} (hi : i < s.items.length) (h : index.Denotes i) :
    s.get index = .ok s.items[i] := by
  rw [get, Double.denotes_iff.mp h, Option.bind_some, List.getElem?_eq_getElem hi]

theorem get_eq_error {index : Double} (h : ∀ i, index.Denotes i → s.items.length ≤ i) :
    s.get index = .error (.index index s.items.length) := by
  have hnone : index.toNat?.bind (s.items[·]?) = none := by
    cases hi : index.toNat? with
    | none => rfl
    | some i => exact List.getElem?_eq_none (h i (Double.denotes_iff.mpr hi))
  rw [get, hnone]
  rfl

theorem isCandidate_iff {candidate : Option Node} {n : Node} :
    isCandidate candidate n = true ↔ ∃ c, candidate = some c ∧ c.id = n.id := by
  cases candidate <;> simp [isCandidate]

theorem holds_iff {c : Option Node} {i : Nat} :
    s.Holds c i ↔ ∃ hi : i < s.items.length, isCandidate c s.items[i] = true := by
  simp only [isCandidate_iff]
  constructor
  · rintro ⟨n, d, hn, hc, hid⟩
    obtain ⟨hi, rfl⟩ := List.getElem?_eq_some_iff.mp hn
    exact ⟨hi, d, hc, hid⟩
  · rintro ⟨hi, d, hc, hid⟩
    exact ⟨s.items[i], d, List.getElem?_eq_getElem hi, hc, hid⟩

theorem indexOf?_eq_some_iff {c : Option Node} {i : Nat} :
    s.indexOf? c = some i ↔ s.Holds c i ∧ ∀ j < i, ¬ s.Holds c j := by
  simp only [holds_iff]
  rw [indexOf?, List.findIdx?_eq_some_iff_getElem]
  constructor
  · rintro ⟨hi, hc, hbefore⟩
    exact ⟨⟨hi, hc⟩, fun j hj ⟨_, hcj⟩ => hbefore j hj hcj⟩
  · rintro ⟨⟨hi, hc⟩, hbefore⟩
    exact ⟨hi, hc, fun j hj hcj => hbefore j hj ⟨hj.trans hi, hcj⟩⟩

theorem indexOf?_eq_none_iff {c : Option Node} : s.indexOf? c = none ↔ ∀ i, ¬ s.Holds c i := by
  simp only [holds_iff]
  rw [indexOf?, List.findIdx?_eq_none_iff]
  constructor
  · rintro hnone i ⟨hi, hc⟩
    exact Bool.noConfusion (hc.symm.trans (hnone _ (List.getElem_mem hi)))
  · intro hnone n hn
    obtain ⟨i, hi, rfl⟩ := List.getElem_of_mem hn
    exact Bool.eq_false_iff.mpr fun hc => hnone i ⟨hi, hc⟩

/-- The reversed sequence, in which the last position is the first. -/
def reverse (s : NodeSeq) : NodeSeq := ⟨s.items.reverse⟩

theorem holds_reverse {c : Option Node} {i : Nat} (hi : i < s.size) :
    s.reverse.Holds c i ↔ s.Holds c (s.size - 1 - i) := by
  have hi' : i < s.items.length := hi
  rw [Holds, Holds, reverse, List.getElem?_reverse hi', size]

theorem holds_reverse_mirror {c : Option Node} {i : Nat} (hi : i < s.size) :
    s.reverse.Holds c (s.size - 1 - i) ↔ s.Holds c i := by
  rw [holds_reverse (by omega), show s.size - 1 - (s.size - 1 - i) = i by omega]

theorem lastIndexOf?_eq {c : Option Node} :
    s.lastIndexOf? c = (s.reverse.indexOf? c).map (s.size - 1 - ·) := rfl

theorem lt_of_holds {c : Option Node} {i : Nat} (h : s.Holds c i) : i < s.size :=
  (holds_iff.mp h).1

theorem lastIndexOf?_eq_some_iff {c : Option Node} {i : Nat} :
    s.lastIndexOf? c = some i ↔ s.Holds c i ∧ ∀ j, i < j → ¬ s.Holds c j := by
  have hsize : s.reverse.size = s.size := List.length_reverse
  rw [lastIndexOf?_eq, Option.map_eq_some_iff]
  constructor
  · rintro ⟨k, hk, rfl⟩
    obtain ⟨hc, hbefore⟩ := indexOf?_eq_some_iff.mp hk
    have hlt : k < s.size := hsize ▸ lt_of_holds hc
    refine ⟨(holds_reverse hlt).mp hc, fun j hj hcj => ?_⟩
    have hjs := lt_of_holds hcj
    exact hbefore (s.size - 1 - j) (by omega) ((holds_reverse_mirror hjs).mpr hcj)
  · rintro ⟨hc, hafter⟩
    have his := lt_of_holds hc
    have hbefore : ∀ j < s.size - 1 - i, ¬ s.reverse.Holds c j := fun j hj hcj =>
      hafter (s.size - 1 - j) (by omega) ((holds_reverse (by omega)).mp hcj)
    exact ⟨s.size - 1 - i, indexOf?_eq_some_iff.mpr ⟨(holds_reverse_mirror his).mpr hc, hbefore⟩,
      by omega⟩

theorem lastIndexOf?_eq_none_iff {c : Option Node} :
    s.lastIndexOf? c = none ↔ ∀ i, ¬ s.Holds c i := by
  have hsize : s.reverse.size = s.size := List.length_reverse
  rw [lastIndexOf?_eq, Option.map_eq_none_iff, indexOf?_eq_none_iff]
  constructor
  · intro hnone i hc
    have his := lt_of_holds hc
    exact hnone (s.size - 1 - i) ((holds_reverse_mirror his).mpr hc)
  · intro hnone i hc
    have his : i < s.size := hsize ▸ lt_of_holds hc
    exact hnone _ ((holds_reverse his).mp hc)

theorem contains_iff {c : Option Node} : (s.contains c = true ↔ s.indexOf? c ≠ none) ∧
    (s.contains c = true ↔ s.lastIndexOf? c ≠ none) := by
  rw [contains, Option.isSome_iff_ne_none, ne_eq, ne_eq, indexOf?_eq_none_iff,
    lastIndexOf?_eq_none_iff]
  exact ⟨Iff.rfl, Iff.rfl⟩

theorem containsAll_iff {cs : List (Option Node)} : s.containsAll cs = true ↔
    cs ≠ [] ∧ cs.length ≤ s.items.length ∧ ∀ c ∈ cs, s.contains c = true := by
  rw [containsAll, Bool.and_eq_true, Bool.and_eq_true, decide_eq_true_eq, List.all_eq_true,
    Bool.not_eq_true', List.isEmpty_eq_false_iff, and_assoc]
  rfl

theorem readsAsList (s : NodeSeq) : s.ReadsAsList where
  get := get_eq
  get_refused := get_eq_error
  first := indexOf?_eq_some_iff
  first_none := indexOf?_eq_none_iff
  last := lastIndexOf?_eq_some_iff
  last_none := lastIndexOf?_eq_none_iff
  contains := contains_iff
  containsAll := containsAll_iff

/-! ## Sub-ranges -/

/-- The nodes from `a` up to and not including `b`. -/
def between (s : NodeSeq) (a b : Nat) : List Node := (s.items.drop a).take (b - a)

/-- Sub-ranges of a sequence are those of its list of nodes. -/
structure CutsAsList (s : NodeSeq) : Prop where
  range : ∀ {x y : Double} {a b : Nat}, x.Denotes a → y.Denotes b → a ≤ b → b ≤ s.items.length →
    ∃ p, s.subList x y = .ok p ∧ (p.seq s).items = s.between a b ∧
      (p = .empty ↔ a = b) ∧ (p = .whole ↔ a = 0 ∧ b = s.items.length ∧ a < b)
  range_refused : ∀ {x y : Double},
    (∀ a b, x.Denotes a → y.Denotes b → a ≤ b → s.items.length < b) →
    s.subList x y = .error (.range x y s.items.length)
  /-- A sub-range of a sub-range is a sub-range of the sequence. -/
  range_range : ∀ {x y z w : Double} {a b : Nat} {p : Portion}, x.Denotes a → y.Denotes b →
    s.subList x y = .ok p →
    ((∃ q, (p.seq s).subList z w = .ok q) ↔
      ∃ c d, z.Denotes c ∧ w.Denotes d ∧ c ≤ d ∧ d ≤ b - a) ∧
    ∀ {c d : Nat} {q : Portion} {x' y' : Double}, z.Denotes c → w.Denotes d →
      (p.seq s).subList z w = .ok q → x'.Denotes (a + c) → y'.Denotes (a + d) →
      ∃ q', s.subList x' y' = .ok q' ∧ (q'.seq s).items = (q.seq (p.seq s)).items
  /-- Two pieces that meet are together the sequence. -/
  pieces : ∀ {x y z : Double} {k : Nat}, x.Denotes 0 → y.Denotes k → z.Denotes s.items.length →
    k ≤ s.items.length → ∃ p q, s.subList x y = .ok p ∧ s.subList y z = .ok q ∧
      (p.seq s).items ++ (q.seq s).items = s.items

/-- The sub-range that ends in order and within bounds give. -/
def portion (s : NodeSeq) (a b : Nat) : Portion :=
  if a = b then .empty else if a = 0 ∧ b = s.items.length then .whole else .fresh ⟨s.between a b⟩

theorem items_portion (s : NodeSeq) (a b : Nat) :
    ((s.portion a b).seq s).items = s.between a b := by
  rw [portion]
  split
  · next hab =>
    rw [between, hab, Nat.sub_self, List.take_zero]
    rfl
  · split
    · next hwhole =>
      rw [between, hwhole.1, hwhole.2, List.drop_zero, Nat.sub_zero, List.take_length]
      rfl
    · rfl

theorem portion_eq_empty_iff {a b : Nat} : s.portion a b = .empty ↔ a = b := by
  rw [portion]
  split
  · next hab => exact ⟨fun _ => hab, fun _ => rfl⟩
  · next hab =>
    refine ⟨fun h => ?_, fun h => absurd h hab⟩
    split at h <;> exact absurd h nofun

theorem portion_eq_whole_iff {a b : Nat} (hab : a ≤ b) :
    s.portion a b = .whole ↔ a = 0 ∧ b = s.items.length ∧ a < b := by
  rw [portion]
  split
  · next heq => exact ⟨nofun, fun h => absurd heq h.2.2.ne⟩
  · next hne =>
    split
    · next hwhole =>
      exact ⟨fun _ => ⟨hwhole.1, hwhole.2, Nat.lt_of_le_of_ne hab hne⟩, fun _ => rfl⟩
    · next hwhole => exact ⟨nofun, fun h => absurd ⟨h.1, h.2.1⟩ hwhole⟩

theorem subList_eq {x y : Double} {a b : Nat} (hx : x.Denotes a) (hy : y.Denotes b) (hab : a ≤ b)
    (hb : b ≤ s.items.length) : s.subList x y = .ok (s.portion a b) := by
  rw [subList, Double.denotes_iff.mp hx, Double.denotes_iff.mp hy]
  exact if_pos ⟨hab, hb⟩

theorem subList_eq_error {x y : Double}
    (h : ∀ a b, x.Denotes a → y.Denotes b → a ≤ b → s.items.length < b) :
    s.subList x y = .error (.range x y s.items.length) := by
  rw [subList]
  cases hx : x.toNat? with
  | none => rfl
  | some a =>
    cases hy : y.toNat? with
    | none => rfl
    | some b =>
      refine if_neg fun hrange => ?_
      have hb := h a b (Double.denotes_iff.mpr hx) (Double.denotes_iff.mpr hy) hrange.1
      exact Nat.not_lt_of_le hrange.2 hb

/-- A range is given exactly if its ends are whole numbers, in order and within bounds. -/
theorem exists_subList_iff {x y : Double} : (∃ p, s.subList x y = .ok p) ↔
    ∃ a b, x.Denotes a ∧ y.Denotes b ∧ a ≤ b ∧ b ≤ s.items.length := by
  constructor
  · rintro ⟨p, hp⟩
    by_contra hnone
    have herror := subList_eq_error (s := s) (x := x) (y := y) fun a b hx hy hab =>
      Nat.lt_of_not_le fun hb => hnone ⟨a, b, hx, hy, hab, hb⟩
    exact absurd (hp.symm.trans herror) nofun
  · rintro ⟨a, b, hx, hy, hab, hb⟩
    exact ⟨_, subList_eq hx hy hab hb⟩

theorem bounds_of_subList {x y : Double} {a b : Nat} {p : Portion} (hx : x.Denotes a)
    (hy : y.Denotes b) (h : s.subList x y = .ok p) :
    p = s.portion a b ∧ a ≤ b ∧ b ≤ s.items.length := by
  obtain ⟨a', b', hx', hy', hab, hb⟩ := exists_subList_iff.mp ⟨p, h⟩
  obtain rfl := hx.unique hx'
  obtain rfl := hy.unique hy'
  exact ⟨Except.ok.inj (h.symm.trans (subList_eq hx hy hab hb)), hab, hb⟩

theorem length_between {a b : Nat} (hb : b ≤ s.items.length) :
    (s.between a b).length = b - a := by
  rw [between, List.length_take, List.length_drop]
  omega

/-- Ranges compose. -/
theorem between_between {a b c d : Nat} (hd : d ≤ b - a) :
    between ⟨s.between a b⟩ c d = s.between (a + c) (a + d) := by
  rw [between, between, between, List.drop_take, List.drop_drop, List.take_take,
    show min (d - c) (b - a - c) = a + d - (a + c) by omega]

theorem between_append {k : Nat} : s.between 0 k ++ s.between k s.items.length = s.items := by
  rw [between, between, List.drop_zero, Nat.sub_zero, ← List.length_drop, List.take_length,
    List.take_append_drop]

theorem range_range {x y z w : Double} {a b : Nat} {p : Portion} (hx : x.Denotes a)
    (hy : y.Denotes b) (hp : s.subList x y = .ok p) :
    ((∃ q, (p.seq s).subList z w = .ok q) ↔
      ∃ c d, z.Denotes c ∧ w.Denotes d ∧ c ≤ d ∧ d ≤ b - a) ∧
    ∀ {c d : Nat} {q : Portion} {x' y' : Double}, z.Denotes c → w.Denotes d →
      (p.seq s).subList z w = .ok q → x'.Denotes (a + c) → y'.Denotes (a + d) →
      ∃ q', s.subList x' y' = .ok q' ∧ (q'.seq s).items = (q.seq (p.seq s)).items := by
  obtain ⟨rfl, hab, hb⟩ := bounds_of_subList hx hy hp
  have hitems := s.items_portion a b
  have hlength : ((s.portion a b).seq s).items.length = b - a := by
    rw [hitems, length_between hb]
  refine ⟨by rw [exists_subList_iff, hlength], fun {c d q x' y'} hz hw hq hx' hy' => ?_⟩
  obtain ⟨rfl, hcd, hd⟩ := bounds_of_subList hz hw hq
  rw [hlength] at hd
  refine ⟨_, subList_eq hx' hy' (by omega) (by omega), ?_⟩
  rw [items_portion, items_portion, ← between_between hd, ← hitems]

theorem cutsAsList (s : NodeSeq) : s.CutsAsList where
  range hx hy hab hb :=
    ⟨_, subList_eq hx hy hab hb, s.items_portion _ _, portion_eq_empty_iff,
      portion_eq_whole_iff hab⟩
  range_refused := subList_eq_error
  range_range := range_range
  pieces hx hy hz hk := by
    refine ⟨_, _, subList_eq hx hy (Nat.zero_le _) hk, subList_eq hy hz hk (Nat.le_refl _), ?_⟩
    rw [items_portion, items_portion, between_append]

end NodeSeq

/-! ## Sequences as objects -/

abbrev SequenceId : Type := Nat

/-- All sequences that were made, by identity. -/
structure Sequences where
  all : List NodeSeq

/-- What is done with a sequence. -/
inductive SequenceOp where
  | get (index : Double)
  | indexOf (candidate : Option Node)
  | lastIndexOf (candidate : Option Node)
  | contains (candidate : Option Node)
  | containsAll (candidates : List (Option Node))
  | subList (first past : Double)
  | mutate (m : Mutator)

/-- What is done with sequences, and how they come about. -/
inductive SequenceCall where
  | new (items : List Node)
  | single (n : Node)
  | ofStatements (n : Node)
  | on (source : SequenceId) (op : SequenceOp)

inductive SequenceAnswer where
  | node (n : Node)
  | position (index : Option Nat)
  | truth (b : Bool)
  | sequence (i : SequenceId)
  | refused (cause : Misuse)

namespace Sequences

/-- The shared empty sequence is there from the beginning. -/
def initial : Sequences := ⟨[.empty]⟩

def shared : SequenceId := 0

def get? (st : Sequences) (i : SequenceId) : Option NodeSeq := st.all[i]?

def add (st : Sequences) (s : NodeSeq) : SequenceId × Sequences :=
  (st.all.length, ⟨st.all ++ [s]⟩)

/-- The object that a portion of a sequence is. -/
def give (st : Sequences) (source : SequenceId) : Portion → SequenceId × Sequences
  | .empty => (shared, st)
  | .whole => (source, st)
  | .fresh s => st.add s

/-- What an operation on a sequence answers, and what sequences there are then. -/
def perform (st : Sequences) (i : SequenceId) (s : NodeSeq) :
    SequenceOp → SequenceAnswer × Sequences
  | .get index =>
    match s.get index with
    | .ok n => (.node n, st)
    | .error cause => (.refused cause, st)
  | .indexOf candidate => (.position (s.indexOf? candidate), st)
  | .lastIndexOf candidate => (.position (s.lastIndexOf? candidate), st)
  | .contains candidate => (.truth (s.contains candidate), st)
  | .containsAll candidates => (.truth (s.containsAll candidates), st)
  | .subList first past =>
    match s.subList first past with
    | .ok p => (.sequence (st.give i p).1, (st.give i p).2)
    | .error cause => (.refused cause, st)
  | .mutate m => (.refused (NodeSeq.refuse m), st)

/-- The sequences that a call leaves. There are no operations on what is no sequence. -/
def leave (st : Sequences) : SequenceCall → Sequences
  | .new items => (st.add ⟨items⟩).2
  | .single n => (st.add (.single n)).2
  | .ofStatements n => (st.give shared (NodeSeq.ofStatements n)).2
  | .on i op => ((st.get? i).map fun s => (st.perform i s op).2).getD st

/-- The sequences after some calls, one after the other. -/
def after (st : Sequences) (calls : List SequenceCall) : Sequences := calls.foldl leave st

variable {st : Sequences} {i : SequenceId} {s : NodeSeq}

/-- What there is stays as it is, and what is new comes behind it. -/
def Keeps (st st' : Sequences) : Prop := st.all <+: st'.all

theorem Keeps.refl (st : Sequences) : st.Keeps st := List.prefix_refl _

theorem Keeps.trans {st' st'' : Sequences} (h : st.Keeps st') (h' : st'.Keeps st'') :
    st.Keeps st'' := List.IsPrefix.trans h h'

theorem Keeps.get?_eq {st' : Sequences} (h : st.Keeps st') (hs : st.get? i = some s) :
    st'.get? i = some s := by
  obtain ⟨new, hnew⟩ := h
  rw [get?, ← hnew, List.getElem?_append_left (List.getElem?_eq_some_iff.mp hs).1]
  exact hs

theorem keeps_add (st : Sequences) (s : NodeSeq) : st.Keeps (st.add s).2 := List.prefix_append _ _

theorem get?_add (st : Sequences) (s : NodeSeq) : (st.add s).2.get? (st.add s).1 = some s :=
  List.getElem?_concat_length

theorem keeps_give (st : Sequences) (i : SequenceId) (p : Portion) : st.Keeps (st.give i p).2 := by
  cases p with
  | empty | whole => exact .refl st
  | fresh s => exact st.keeps_add s

theorem keeps_perform (st : Sequences) (i : SequenceId) (s : NodeSeq) (op : SequenceOp) :
    st.Keeps (st.perform i s op).2 := by
  cases op with
  | get index =>
    rw [perform]
    split <;> exact .refl st
  | subList first past =>
    rw [perform]
    split
    · exact st.keeps_give i _
    · exact .refl st
  | indexOf | lastIndexOf | contains | containsAll | mutate => exact .refl st

/-- One call. -/
theorem keeps_leave (st : Sequences) (c : SequenceCall) : st.Keeps (st.leave c) := by
  cases c with
  | new | single => exact st.keeps_add _
  | ofStatements n => exact st.keeps_give _ _
  | on i op =>
    rw [leave]
    cases st.get? i with
    | none => exact .refl st
    | some s => exact st.keeps_perform i s op

/-- Any calls. -/
theorem keeps_after (st : Sequences) (calls : List SequenceCall) : st.Keeps (st.after calls) := by
  induction calls generalizing st with
  | nil => exact .refl st
  | cons c calls ih => exact (st.keeps_leave c).trans (ih (st.leave c))

/-- The portion of a sequence is an object with its nodes, provided that the shared empty sequence
is there. -/
theorem get?_give (hshared : st.get? shared = some .empty) (h : st.get? i = some s) (p : Portion) :
    (st.give i p).2.get? (st.give i p).1 = some (p.seq s) := by
  cases p with
  | empty => exact hshared
  | whole => exact h
  | fresh t => exact st.get?_add t

end Sequences

/-- **Sequences are lists.** Take any sequence that any calls have made. What is read from it, and
its sub-ranges, are those of the list of its nodes. A range gives the object that it should: the
shared empty sequence, the sequence itself, or a new one. What would change the sequence is refused
and changes nothing, and whatever else is done the sequence stays as it is. -/
theorem sequences_are_lists (calls : List SequenceCall) {i : SequenceId} {s : NodeSeq}
    (h : (Sequences.initial.after calls).get? i = some s) :
    let st := Sequences.initial.after calls
    s.ReadsAsList ∧ s.CutsAsList ∧
    (∀ {x y : Double} {a b : Nat}, x.Denotes a → y.Denotes b → a ≤ b → b ≤ s.items.length →
      ∃ j, (st.perform i s (.subList x y)).1 = .sequence j ∧
        (st.perform i s (.subList x y)).2.get? j = some ⟨s.between a b⟩ ∧
        (a = b → j = Sequences.shared) ∧
        (a = 0 → b = s.items.length → a < b → j = i) ∧
        (a < b → ¬ (a = 0 ∧ b = s.items.length) → st.get? j = none)) ∧
    (∀ m : Mutator, st.perform i s (.mutate m) = (.refused (.unsupported m.name), st)) ∧
    ∀ more : List SequenceCall, (st.after more).get? i = some s := by
  intro st
  refine ⟨s.readsAsList, s.cutsAsList, fun {x y a b} hx hy hab hb => ?_, fun _ => rfl,
    fun more => (st.keeps_after more).get?_eq h⟩
  have hshared : st.get? Sequences.shared = some .empty :=
    (Sequences.initial.keeps_after calls).get?_eq rfl
  have hperform : st.perform i s (.subList x y) =
      (.sequence (st.give i (s.portion a b)).1, (st.give i (s.portion a b)).2) := by
    rw [Sequences.perform, NodeSeq.subList_eq hx hy hab hb]
  rw [hperform]
  refine ⟨_, rfl, ?_, ?_, ?_, ?_⟩
  · rw [Sequences.get?_give hshared h, ← s.items_portion a b]
  · intro heq
    rw [NodeSeq.portion_eq_empty_iff.mpr heq]
    rfl
  · intro ha hb hlt
    rw [(NodeSeq.portion_eq_whole_iff hab).mpr ⟨ha, hb, hlt⟩]
    rfl
  · intro hlt hproper
    rw [NodeSeq.portion, if_neg hlt.ne, if_neg hproper]
    exact List.getElem?_eq_none (Nat.le_refl _)

/-- A sequence that has one node twice, and that was to be cleared: the second half is a new
sequence, and negative zero is an index. -/
theorem twice_is_list :
    let n : Node := .nil .sample
    let st := Sequences.initial.after [.new [n, n], .on 1 (.mutate .clear)]
    (∃ j, (st.perform 1 ⟨[n, n]⟩ (.subList (.ofNat 1) (.ofNat 2))).1 = .sequence j ∧
      (st.perform 1 ⟨[n, n]⟩ (.subList (.ofNat 1) (.ofNat 2))).2.get? j = some ⟨[n]⟩ ∧
      st.get? j = none) ∧
    NodeSeq.get ⟨[n, n]⟩ .negativeZero = .ok n := by
  intro n st
  obtain ⟨hreads, -, hrange, -⟩ := sequences_are_lists [.new [n, n], .on 1 (.mutate .clear)]
    (i := 1) (s := ⟨[n, n]⟩) rfl
  have hone : (Double.ofNat 1).Denotes 1 := Double.denotes_iff.mpr (by decide +kernel)
  have htwo : (Double.ofNat 2).Denotes 2 := Double.denotes_iff.mpr (by decide +kernel)
  have hzero : Double.negativeZero.Denotes 0 := Double.denotes_iff.mpr (by decide +kernel)
  obtain ⟨j, hj, hitems, -, -, hnew⟩ := hrange hone htwo (by decide) (Nat.le_refl 2)
  exact ⟨⟨j, hj, hitems, hnew (by decide) (by decide)⟩, hreads.get (Nat.succ_pos 1) hzero⟩

end Treewalk
