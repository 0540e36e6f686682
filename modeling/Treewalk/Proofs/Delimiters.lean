import Mathlib.Data.List.Basic
import Treewalk.Text.Quoted

/-!
# Telling texts apart in front of others

The elements of a list are written one after the other, and what is nested stands among what it is
nested in. So it is not enough that the texts of different things are different: they must be
different whatever is written behind them. `TellApart` says this of two texts, for everything that
can stand behind them, that is nothing at all or what starts with one of some delimiters.

Texts without delimiters tell apart what they say, `tellApart_of_free`, and so do texts in
quotes, `tellApart_quoted`. If the elements of two lists tell each other apart, so do the lists:
`map_eq_of_items`.
-/

set_option autoImplicit false

namespace Treewalk.Text

/-- What can stand behind a text: nothing, or what starts with a delimiter. -/
def Follows (delimiters rest : List Char) : Prop := ∀ c ∈ rest.head?, c ∈ delimiters

/-- With anything that can follow behind them, the two texts agree only if this holds, and then
what follows agrees too. -/
def TellApart (delimiters xs ys : List Char) (same : Prop) : Prop :=
  ∀ r s, Follows delimiters r → Follows delimiters s → xs ++ r = ys ++ s → same ∧ r = s

section

variable {delimiters xs ys rest : List Char} {c : Char} {same : Prop}

theorem follows_nil : Follows delimiters [] := nofun

theorem follows_cons : Follows delimiters (c :: rest) ↔ c ∈ delimiters := by
  simp [Follows]

/-- In particular with nothing behind them. -/
theorem TellApart.of_eq (h : TellApart delimiters xs ys same) (heq : xs = ys) : same :=
  (h [] [] follows_nil follows_nil (by rw [heq])).1

theorem TellApart.imp {same' : Prop} (h : TellApart delimiters xs ys same) (hs : same → same') :
    TellApart delimiters xs ys same' := by
  intro r s hr hr' heq
  obtain ⟨hsame, hrest⟩ := h r s hr hr' heq
  exact ⟨hs hsame, hrest⟩

/-- A text, a delimiter of its own, and another text. -/
theorem TellApart.append_cons {ending : Char} {xs' ys' : List Char} {same' : Prop}
    (h : TellApart [ending] xs ys same) (h' : TellApart delimiters xs' ys' same') :
    TellApart delimiters (xs ++ ending :: xs') (ys ++ ending :: ys') (same ∧ same') := by
  intro r s hr hs heq
  have hending : ∀ rest : List Char, Follows [ending] (ending :: rest) :=
    fun _ => follows_cons.mpr List.mem_cons_self
  rw [List.append_assoc, List.append_assoc, List.cons_append, List.cons_append] at heq
  obtain ⟨hsame, hrest⟩ := h _ _ (hending _) (hending _) heq
  obtain ⟨hsame', hr'⟩ := h' r s hr hs (List.cons.inj hrest).2
  exact ⟨⟨hsame, hsame'⟩, hr'⟩

/-- A text without delimiters ends where the first delimiter stands. -/
theorem tellApart_of_free (hxs : ∀ c ∈ xs, c ∉ delimiters) (hys : ∀ c ∈ ys, c ∉ delimiters) :
    TellApart delimiters xs ys (xs = ys) := by
  have hspan : ∀ {zs r : List Char}, (∀ c ∈ zs, c ∉ delimiters) → Follows delimiters r →
      (zs ++ r).takeWhile (fun c => decide (c ∉ delimiters)) = zs := by
    intro zs r hzs hr
    rw [List.takeWhile_append_of_pos fun c hc => decide_eq_true (hzs c hc)]
    cases r with
    | nil => exact List.append_nil zs
    | cons c r =>
      have hc := follows_cons.mp hr
      rw [List.takeWhile_cons_of_neg (by simpa using hc), List.append_nil]
  intro r s hr hs heq
  have hxy : xs = ys := by rw [← hspan hxs hr, heq, hspan hys hs]
  subst hxy
  exact ⟨rfl, List.append_cancel_left heq⟩

end

/-! ## Lists of texts -/

/-- The texts of some things, each behind a comma and a blank. -/
def items {α : Type} (text : α → List Char) (as : List α) : List Char :=
  as.flatMap fun a => ',' :: ' ' :: text a

section

variable {α β : Type} {text : α → List Char} {f : α → β} {as bs : List α} {close : Char}
  {r s : List Char}

/-- After a list comes what closes it, and after an element that or the next one. -/
theorem follows_items : Follows [',', close] (items text as ++ close :: r) := by
  cases as with
  | nil => exact follows_cons.mpr (by simp)
  | cons => exact follows_cons.mpr (by simp)

/-- Lists that are closed by the same delimiter agree in what the texts of their elements tell. -/
theorem map_eq_of_items (hclose : close ≠ ',')
    (h : ∀ a ∈ as, ∀ b ∈ bs, TellApart [',', close] (text a) (text b) (f a = f b))
    (heq : items text as ++ close :: r = items text bs ++ close :: s) :
    as.map f = bs.map f ∧ r = s := by
  induction as generalizing bs with
  | nil =>
    cases bs with
    | nil => exact ⟨rfl, (List.cons.inj heq).2⟩
    | cons b bs => exact absurd (List.cons.inj heq).1 hclose
  | cons a as ih =>
    cases bs with
    | nil => exact absurd (List.cons.inj heq).1.symm hclose
    | cons b bs =>
      simp only [items, List.flatMap_cons, List.cons_append, List.cons.injEq, true_and,
        List.append_assoc] at heq
      obtain ⟨hsame, hrest⟩ :=
        h a List.mem_cons_self b List.mem_cons_self _ _ follows_items follows_items heq
      obtain ⟨hall, hr⟩ := ih (fun a ha b hb =>
        h a (List.mem_cons_of_mem _ ha) b (List.mem_cons_of_mem _ hb)) hrest
      exact ⟨congrArg₂ List.cons hsame hall, hr⟩

/-- The texts of some things, with a comma and a blank between them. -/
def separated (text : α → List Char) : List α → List Char
  | [] => []
  | a :: as => text a ++ items text as

theorem intercalate_eq_separated (text : α → List Char) (as : List α) :
    [',', ' '].intercalate (as.map text) = separated text as := by
  induction as with
  | nil => rfl
  | cons a as ih =>
    cases as with
    | nil => simp [separated, items]
    | cons b as =>
      rw [List.map_cons, List.map_cons, List.intercalate_cons_cons, ← List.map_cons, ih]
      simp [separated, items]

/-- The same of lists without a comma before the first element, provided that no element can be
taken for the end of the list. -/
theorem map_eq_of_separated (hclose : close ≠ ',')
    (hstart : ∀ a ∈ as ++ bs, ∃ c cs, text a = c :: cs ∧ c ≠ close)
    (h : ∀ a ∈ as, ∀ b ∈ bs, TellApart [',', close] (text a) (text b) (f a = f b))
    (heq : separated text as ++ close :: r = separated text bs ++ close :: s) :
    as.map f = bs.map f ∧ r = s := by
  have hopen : ∀ {a : α} {rest r s : List Char}, a ∈ as ++ bs →
      close :: r ≠ text a ++ rest ++ s := by
    intro a rest r s ha heq
    obtain ⟨c, cs, htext, hc⟩ := hstart a ha
    rw [htext, List.cons_append] at heq
    exact hc (List.cons.inj heq).1.symm
  match as, bs with
  | [], [] => exact ⟨rfl, (List.cons.inj heq).2⟩
  | [], b :: bs => exact absurd heq (hopen (by simp))
  | a :: as, [] => exact absurd heq.symm (hopen (by simp))
  | a :: as, b :: bs =>
    refine map_eq_of_items hclose h ?_
    simpa [separated, items] using heq

end

/-! ## Quoted text -/

/-- What a letter behind a backslash stands for: the control character that has this letter, or
else itself. -/
def behindBackslash (c : Char) : Char :=
  if c = 'b' then '\x08'
  else if c = 'f' then '\x0c'
  else if c = 'n' then '\n'
  else if c = 'r' then '\r'
  else if c = 't' then '\t'
  else c

def hexValue (c : Char) : Nat :=
  if c.isDigit then c.toNat - '0'.toNat else c.toNat - 'a'.toNat + 10

/-- Reads one character of a quoted text. -/
def readChar? : List Char → Option (Char × List Char)
  | '\\' :: 'u' :: '0' :: '0' :: a :: b :: cs =>
    some (Char.ofNat (16 * hexValue a + hexValue b), cs)
  | '\\' :: c :: cs => some (behindBackslash c, cs)
  | c :: cs => some (c, cs)
  | [] => none

theorem ofNat_hexValue :
    ∀ n < 32, Char.ofNat (16 * hexValue (Nat.digitChar (n / 16)) +
      hexValue (Nat.digitChar (n % 16))) = Char.ofNat n := by
  decide

/-- A character of quoted text reads back, whatever follows. -/
theorem readChar?_escapeChar (c : Char) (cs : List Char) :
    readChar? (escapeChar c ++ cs) = some (c, cs) := by
  unfold escapeChar
  split
  · next h =>
    rcases h with rfl | rfl
    · rfl
    · rfl
  · next hplain =>
    rw [not_or] at hplain
    split
    · next letter hletter =>
      unfold controlLetter? at hletter
      split_ifs at hletter with h h h h h <;> (cases hletter; subst h; rfl)
    · split
      · next hlt =>
        show some (Char.ofNat _, cs) = _
        rw [ofNat_hexValue _ hlt, Char.ofNat_toNat]
      · rw [List.singleton_append, readChar?]
        · exact fun _ _ _ h _ => hplain.2 h
        · exact fun _ _ h _ => hplain.2 h

/-- An escaped text does not start with a bare quote. -/
theorem quote_cons_ne_escape (c : Char) (cs r s : List Char) :
    '"' :: s ≠ escape (c :: cs) ++ r := by
  intro h
  have hread := congrArg readChar? h
  rw [escape, List.flatMap_cons, List.append_assoc, readChar?_escapeChar] at hread
  obtain rfl : '"' = c := congrArg Prod.fst (Option.some.inj hread)
  exact absurd (List.cons.inj h).1 (by decide)

/-- An escaped text ends where the first bare quote stands. -/
theorem escape_append_quote {cs ds r s : List Char}
    (h : escape cs ++ '"' :: r = escape ds ++ '"' :: s) : cs = ds ∧ r = s := by
  induction cs generalizing ds with
  | nil =>
    cases ds with
    | nil => exact ⟨rfl, (List.cons.inj h).2⟩
    | cons d ds => exact absurd h (quote_cons_ne_escape _ _ _ _)
  | cons c cs ih =>
    cases ds with
    | nil => exact absurd h.symm (quote_cons_ne_escape _ _ _ _)
    | cons d ds =>
      have hread := congrArg readChar? h
      simp only [escape, List.flatMap_cons, List.append_assoc, readChar?_escapeChar,
        Option.some.injEq, Prod.mk.injEq] at hread
      obtain ⟨rfl, hrest⟩ := hread
      obtain ⟨rfl, hr⟩ := ih hrest
      exact ⟨rfl, hr⟩

theorem tellApart_quoted (delimiters : List Char) (s t : String) :
    TellApart delimiters (quoted s).toList (quoted t).toList (s = t) := by
  intro r r' _ _ h
  simp only [quoted, String.toList_ofList, List.cons_append, List.append_assoc, List.cons.injEq,
    true_and, List.nil_append] at h
  obtain ⟨hchars, hr⟩ := escape_append_quote h
  exact ⟨String.toList_inj.mp hchars, hr⟩

end Treewalk.Text
