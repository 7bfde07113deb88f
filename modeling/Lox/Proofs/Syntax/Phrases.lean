import Lox.Ast.Print
import Lox.Proofs.Scanning.Partition

/-!
# Words in parentheses

The text of a tree is made of words, of parentheses, and of single blanks between what stands side
by side in them. A `Phrase` is what such a text says. Whatever follows the text of a phrase, as long
as it cannot belong to a word, there is one way to read it.
-/
namespace Lox

/-- A word, or a list in parentheses. -/
inductive Phrase where
  | word (letters : List Char)
  | list (items : List Phrase)

namespace Phrase

/-- Characters that belong to no word. -/
def isDelimiter (c : Char) : Bool := c = ' ' || c = '(' || c = ')' || c = '\n'

/-- At least one character, none of which ends a word. -/
structure IsWord (letters : List Char) : Prop where
  ne_nil : letters ≠ []
  letters : ∀ c ∈ letters, isDelimiter c = false

instance : DecidablePred IsWord := fun cs =>
  decidable_of_iff (cs.isEmpty = false ∧ cs.any isDelimiter = false)
    ⟨fun h => ⟨by simpa using h.1, by simpa using h.2⟩,
      fun h => ⟨by simpa using h.ne_nil, by simpa using h.letters⟩⟩

/-- Whether no word goes on into this text. -/
def Stops (cs : List Char) : Prop := cs.head?.any (!isDelimiter ·) = false

mutual

/-- The text of a phrase. -/
def chars : Phrase → List Char
  | .word letters => letters
  | .list items => '(' :: [' '].intercalate (allChars items) ++ [')']

def allChars : List Phrase → List (List Char)
  | [] => []
  | x :: rest => x.chars :: allChars rest

end

mutual

/-- All words of a phrase are words. -/
def Wordy : Phrase → Prop
  | .word letters => IsWord letters
  | .list items => AllWordy items

def AllWordy : List Phrase → Prop
  | [] => True
  | x :: rest => x.Wordy ∧ AllWordy rest

end

/-- The text of the items behind the first one of a list. -/
def more (items : List Phrase) : List Char := items.flatMap fun x => ' ' :: x.chars

variable {x y : Phrase} {xs ys : List Phrase} {r r' : List Char}

theorem chars_list_nil : (list []).chars = ['(', ')'] := rfl

theorem chars_list_cons (x : Phrase) (xs : List Phrase) :
    (list (x :: xs)).chars = '(' :: x.chars ++ more xs ++ [')'] := by
  have hmore (x : Phrase) : [' '].intercalate (allChars (x :: xs)) = x.chars ++ more xs := by
    induction xs generalizing x with
    | nil => simp [allChars, more]
    | cons y ys ih => simp [allChars, more, List.intercalate_cons_cons] at ih ⊢; exact ih y
  simp [chars, hmore]

theorem stops_cons {c : Char} (h : isDelimiter c = true) (cs : List Char) : Stops (c :: cs) := by
  simp [Stops, h]

theorem stops_more (xs : List Phrase) (r : List Char) : Stops (more xs ++ ')' :: r) := by
  cases xs with
  | nil => exact stops_cons rfl _
  | cons x xs => exact stops_cons rfl _

/-- A word is told from what follows it. -/
theorem word_append_inj {w w' : List Char} (hw : IsWord w) (hw' : IsWord w') (hr : Stops r)
    (hr' : Stops r') (h : w ++ r = w' ++ r') : w = w' ∧ r = r' := by
  have htake {w r : List Char} (hw : IsWord w) (hr : Stops r) :
      (w ++ r).takeWhile (!isDelimiter ·) = w :=
    Token.takeWhile_all (by simpa using hw.letters) hr
  have heq : w = w' := by rw [← htake hw hr, h, htake hw' hr']
  subst heq
  exact ⟨rfl, List.append_cancel_left h⟩

/-- A word does not begin like a list, nor like the end of one. -/
theorem ne_of_isWord {w : List Char} (hw : IsWord w) {c : Char} (hc : isDelimiter c = true)
    (cs : List Char) : w ++ r ≠ c :: cs := by
  obtain ⟨d, w, rfl⟩ := List.exists_cons_of_ne_nil hw.ne_nil
  intro h
  have hd := hw.letters d List.mem_cons_self
  rw [List.head_eq_of_cons_eq h, hc] at hd
  cases hd

/-- No phrase begins like the end of a list. -/
theorem chars_ne_close (hx : x.Wordy) : x.chars ++ r ≠ ')' :: r' := by
  cases x with
  | word w => exact ne_of_isWord hx rfl r'
  | list items => simp [chars]

mutual

/-- A phrase is told from what follows it. -/
theorem chars_append_inj : (x y : Phrase) → x.Wordy → y.Wordy → ∀ {r r' : List Char}, Stops r →
    Stops r' → x.chars ++ r = y.chars ++ r' → x = y ∧ r = r'
  | .word w, .word w', hx, hy, _, _, hr, hr', h => by
    obtain ⟨hw, hrest⟩ := word_append_inj hx hy hr hr' h
    exact ⟨congrArg word hw, hrest⟩
  | .word w, .list items, hx, _, _, _, _, _, h => absurd h (ne_of_isWord hx rfl _)
  | .list items, .word w, _, hy, _, _, _, _, h => absurd h.symm (ne_of_isWord hy rfl _)
  | .list [], .list [], _, _, _, _, _, _, h => ⟨rfl, List.append_cancel_left h⟩
  | .list [], .list (y :: ys), _, hy, _, _, _, _, h => by
    rw [chars_list_nil, chars_list_cons, List.append_assoc] at h
    exact absurd (List.tail_eq_of_cons_eq h.symm) (by simpa using chars_ne_close hy.1)
  | .list (x :: xs), .list [], hx, _, _, _, _, _, h => by
    rw [chars_list_nil, chars_list_cons, List.append_assoc] at h
    exact absurd (List.tail_eq_of_cons_eq h) (by simpa using chars_ne_close hx.1)
  | .list (x :: xs), .list (y :: ys), hx, hy, r, r', _, _, h => by
    simp only [chars_list_cons, List.cons_append, List.append_assoc, List.cons.injEq,
      List.nil_append, true_and] at h
    obtain ⟨rfl, hmore⟩ := chars_append_inj x y hx.1 hy.1 (stops_more xs r) (stops_more ys r') h
    obtain ⟨rfl, hrest⟩ := more_append_inj xs ys hx.2 hy.2 hmore
    exact ⟨rfl, hrest⟩

/-- The items of a list are told from what follows the list. -/
theorem more_append_inj : (xs ys : List Phrase) → AllWordy xs → AllWordy ys →
    ∀ {r r' : List Char}, more xs ++ ')' :: r = more ys ++ ')' :: r' → xs = ys ∧ r = r'
  | [], [], _, _, _, _, h => ⟨rfl, List.tail_eq_of_cons_eq h⟩
  | [], _ :: _, _, _, _, _, h => absurd h (by simp [more])
  | _ :: _, [], _, _, _, _, h => absurd h (by simp [more])
  | x :: xs, y :: ys, hx, hy, r, r', h => by
    simp only [more, List.flatMap_cons, List.cons_append, List.append_assoc, List.cons.injEq,
      true_and] at h
    obtain ⟨rfl, hmore⟩ := chars_append_inj x y hx.1 hy.1 (stops_more xs r) (stops_more ys r') h
    obtain ⟨rfl, hrest⟩ := more_append_inj xs ys hx.2 hy.2 hmore
    exact ⟨rfl, hrest⟩

end

/-- A text tells its phrase. -/
theorem chars_inj (hx : x.Wordy) (hy : y.Wordy) (h : x.chars = y.chars) : x = y := by
  have hstops : Stops [] := rfl
  exact (chars_append_inj x y hx hy hstops hstops (congrArg (· ++ []) h)).1

/-- Texts on lines of their own tell their phrases. -/
theorem lines_inj (hxs : AllWordy xs) (hys : AllWordy ys)
    (h : xs.flatMap (fun x => x.chars ++ ['\n']) = ys.flatMap fun y => y.chars ++ ['\n']) :
    xs = ys := by
  induction xs generalizing ys with
  | nil =>
    cases ys with
    | nil => rfl
    | cons y ys => simp at h
  | cons x xs ih =>
    cases ys with
    | nil => simp at h
    | cons y ys =>
      simp only [List.flatMap_cons, List.append_assoc, List.cons_append, List.nil_append] at h
      obtain ⟨rfl, hrest⟩ :=
        chars_append_inj x y hxs.1 hys.1 (stops_cons rfl _) (stops_cons rfl _) h
      rw [ih hxs.2 hys.2 (List.tail_eq_of_cons_eq hrest)]

end Phrase

end Lox
