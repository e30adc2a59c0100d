import QuantumKernels.Proofs.Wire.Literal

/-!
# Normalizing twice

A second pass reads what the first has written. Where it stands then depends on nothing but where the first
one stands: outside texts no quote is left but a double one, and inside texts, which all have double quotes by
then, a double quote has a backslash before it. Words are written only when they are complete, so the second
pass finds the same words in their written forms. No text has to be closed for this, and no word to be known.
-/
namespace QuantumKernels.Wire

/-- A letter, with what continues a word after it. -/
def IsWord (word : List Char) : Prop := word.head?.any Char.isAlpha ∧ word.all isWordChar

instance (word : List Char) : Decidable (IsWord word) :=
  inferInstanceAs (Decidable (word.head?.any Char.isAlpha ∧ word.all isWordChar))

/-- The words that others are respelled to. -/
def respellings : List (List Char) := ["true".toList, "false".toList, "null".toList]

theorem respell_cases (word : List Char) : respell word ∈ respellings ∨ respell word = word := by
  unfold respell
  split_ifs
  · exact .inl (by decide)
  · exact .inl (by decide)
  · exact .inl (by decide)
  · exact .inr rfl

theorem respell_respell (word : List Char) : respell (respell word) = respell word := by
  have hfixed : ∀ written ∈ respellings, respell written = written := by decide
  rcases respell_cases word with hmem | hsame
  · exact hfixed _ hmem
  · rw [hsame, hsame]

theorem IsWord.respell {word : List Char} (h : IsWord word) : IsWord (respell word) := by
  have hwords : ∀ written ∈ respellings, IsWord written := by decide
  rcases respell_cases word with hmem | hsame
  · exact hwords _ hmem
  · rwa [hsame]

theorem isWordChar_of_isAlpha {c : Char} (h : c.isAlpha) : isWordChar c := by
  simp [isWordChar, Char.isAlphanum, h]

theorem isWord_singleton {c : Char} (h : c.isAlpha) : IsWord [c] := by
  simp [IsWord, h, isWordChar_of_isAlpha h]

theorem IsWord.append {word : List Char} (h : IsWord word) {c : Char} (hc : isWordChar c) :
    IsWord (word ++ [c]) := by
  obtain ⟨hstart, hall⟩ := h
  cases word with
  | nil => cases hstart
  | cons d ds => exact ⟨hstart, by simpa [hc] using hall⟩

namespace Context

theorem normalizeFrom_letters {letters : List Char} (word rest : List Char) (h : word.all isWordChar) :
    normalizeFrom (.word letters) (word ++ rest) = normalizeFrom (.word (word.reverse ++ letters)) rest := by
  induction word generalizing letters with
  | nil => rfl
  | cons c cs ih =>
    simp only [List.all_cons, Bool.and_eq_true] at h
    have hstep : step (.word letters) c = ([], .word (c :: letters)) := by simp [step, h.1]
    rw [List.cons_append, normalizeFrom_cons, hstep, List.nil_append, ih h.2, List.reverse_cons,
      List.append_assoc, List.singleton_append]

/-- A word is read as a whole. -/
theorem normalizeFrom_word {word : List Char} (h : IsWord word) (rest : List Char) :
    normalizeFrom .plain (word ++ rest) = normalizeFrom (.word word.reverse) rest := by
  obtain ⟨hstart, hall⟩ := h
  cases word with
  | nil => cases hstart
  | cons c cs =>
    have hc : c.isAlpha := by simpa using hstart
    have hquote : ¬ (c = '"' ∨ c = '\'') := by
      rintro (rfl | rfl)
      · exact absurd hc (by decide)
      · exact absurd hc (by decide)
    have hopen : step .plain c = ([], .word [c]) := by simp [step, plainStep, hquote, hc]
    simp only [List.all_cons, Bool.and_eq_true] at hall
    rw [List.cons_append, normalizeFrom_cons, hopen, List.nil_append, normalizeFrom_letters cs rest hall.2,
      List.reverse_cons]

/-- Where a second pass stands when it has read all that the first has written by then. -/
def settled : Context → Context
  | .plain | .word _ => .plain
  | .quoted _ | .escaped _ => .quoted '"'

/-- What is held of a word is one. -/
def Formed : Context → Prop
  | .word letters => IsWord letters.reverse
  | .plain | .quoted _ | .escaped _ => True

theorem formed_plainStep (c : Char) : (plainStep c).2.Formed := by
  unfold plainStep
  split_ifs with hquote hletter
  · trivial
  · exact isWord_singleton hletter
  · trivial

theorem Formed.step {context : Context} (h : context.Formed) (c : Char) : (context.step c).2.Formed := by
  cases context with
  | plain => exact formed_plainStep c
  | word letters =>
    simp only [Context.step]
    split_ifs with hc
    · have hword : IsWord (c :: letters).reverse := by
        rw [List.reverse_cons]
        exact IsWord.append h hc
      exact hword
    · exact formed_plainStep c
  | quoted mark =>
    simp only [Context.step]
    split_ifs <;> trivial
  | escaped mark => trivial

/-- Outside texts the second pass reads what the first writes for a character, and stands where the first does. -/
theorem normalizeFrom_plainStep (c : Char) (rest : List Char) :
    normalizeFrom .plain ((plainStep c).1 ++ rest) =
      (plainStep c).1 ++ normalizeFrom (plainStep c).2.settled rest := by
  by_cases hquote : c = '"' ∨ c = '\''
  · have hstep : plainStep c = (['"'], .quoted c) := if_pos hquote
    rw [hstep]
    rfl
  · by_cases hletter : c.isAlpha
    · have hstep : plainStep c = ([], .word [c]) := by simp [plainStep, hquote, hletter]
      rw [hstep]
      rfl
    · have hstep : plainStep c = ([c], .plain) := by simp [plainStep, hquote, hletter]
      rw [hstep]
      simp only [settled, List.singleton_append, normalizeFrom_cons, step, hstep]

/-- What ends a word is written as a character that ends a word. -/
theorem exists_plainStep {c : Char} (hc : isWordChar c = false) :
    ∃ d, (plainStep c).1 = [d] ∧ isWordChar d = false := by
  have hletter : ¬ c.isAlpha := fun hletter => by
    rw [isWordChar_of_isAlpha hletter] at hc
    cases hc
  by_cases hquote : c = '"' ∨ c = '\''
  · exact ⟨'"', by simp [plainStep, hquote], by decide⟩
  · exact ⟨c, by simp [plainStep, hquote, hletter], hc⟩

/-- A word that has been respelled is written as it is, up to a character that ends it. -/
theorem normalizeFrom_respell {word : List Char} (h : IsWord word) {d : Char} (hd : isWordChar d = false)
    (rest : List Char) :
    normalizeFrom .plain (respell word ++ d :: rest) = respell word ++ normalizeFrom .plain (d :: rest) := by
  rw [normalizeFrom_word h.respell, normalizeFrom_cons, normalizeFrom_cons]
  simp [step, hd, respell_respell]

/-- A letter more of a word is held back; a character that ends it is written behind its written form. -/
theorem normalizeFrom_wordStep {letters : List Char} (h : IsWord letters.reverse) (c : Char) (rest : List Char) :
    normalizeFrom .plain ((step (.word letters) c).1 ++ rest) =
      (step (.word letters) c).1 ++ normalizeFrom (step (.word letters) c).2.settled rest := by
  cases hc : isWordChar c with
  | true =>
    have hstep : step (.word letters) c = ([], .word (c :: letters)) := by simp [step, hc]
    rw [hstep]
    rfl
  | false =>
    have hstep : step (.word letters) c = (respell letters.reverse ++ (plainStep c).1, (plainStep c).2) := by
      simp [step, hc]
    obtain ⟨d, hd, hend⟩ := exists_plainStep hc
    have hplain := normalizeFrom_plainStep c rest
    rw [hd, List.singleton_append] at hplain
    rw [hstep, hd, List.append_assoc, List.singleton_append, normalizeFrom_respell h hend, hplain,
      List.append_assoc]

/-- Inside texts the second pass has a double quote for the end, whatever the first has. -/
theorem normalizeFrom_quotedStep (mark c : Char) (rest : List Char) :
    normalizeFrom (.quoted '"') ((step (.quoted mark) c).1 ++ rest) =
      (step (.quoted mark) c).1 ++ normalizeFrom (step (.quoted mark) c).2.settled rest := by
  by_cases hback : c = '\\'
  · have hstep : step (.quoted mark) c = ([], .escaped mark) := if_pos hback
    rw [hstep]
    rfl
  · have hopen : step (.quoted mark) c = if c = mark then (['"'], .plain)
        else if c = '"' then (['\\', '"'], .quoted mark) else ([c], .quoted mark) := if_neg hback
    rw [hopen]
    split_ifs with hclose hquote
    · rfl
    · -- the double quote of a text in single quotes has its backslash now
      rfl
    · rw [List.singleton_append, normalizeFrom_cons, step_quoted hback hquote]
      rfl

theorem normalizeFrom_escapedStep (mark c : Char) (rest : List Char) :
    normalizeFrom (.quoted '"') ((step (.escaped mark) c).1 ++ rest) =
      (step (.escaped mark) c).1 ++ normalizeFrom (step (.escaped mark) c).2.settled rest := by
  by_cases hmark : c = '\''
  · -- its backslash is not written, so the second pass finds a single quote alone
    subst hmark
    rfl
  · have hstep (mark : Char) : step (.escaped mark) c = (['\\', c], .quoted mark) := by simp [step, hmark]
    have hback : step (.quoted '"') '\\' = ([], .escaped '"') := rfl
    rw [hstep, List.cons_append, List.singleton_append, normalizeFrom_cons, hback, normalizeFrom_cons, hstep]
    rfl

/-- The second pass writes what it reads of each step of the first, and stands where it should. -/
theorem normalizeFrom_step {context : Context} (h : context.Formed) (c : Char) (rest : List Char) :
    normalizeFrom context.settled ((context.step c).1 ++ rest) =
      (context.step c).1 ++ normalizeFrom (context.step c).2.settled rest := by
  cases context with
  | plain => exact normalizeFrom_plainStep c rest
  | word letters => exact normalizeFrom_wordStep h c rest
  | quoted mark => exact normalizeFrom_quotedStep mark c rest
  | escaped mark => exact normalizeFrom_escapedStep mark c rest

theorem normalizeFrom_finish {context : Context} (h : context.Formed) :
    normalizeFrom context.settled context.finish = context.finish := by
  cases context with
  | plain | quoted mark | escaped mark => rfl
  | word letters =>
    have hword := normalizeFrom_word (IsWord.respell h) []
    rw [List.append_nil] at hword
    have hend : normalizeFrom (.word (respell letters.reverse).reverse) [] = respell letters.reverse := by
      simp [normalizeFrom, finish, respell_respell]
    exact hword.trans hend

/-- From wherever the first pass stands, the second writes what the first does. -/
theorem normalizeFrom_settled {context : Context} (h : context.Formed) (cs : List Char) :
    normalizeFrom context.settled (normalizeFrom context cs) = normalizeFrom context cs := by
  induction cs generalizing context with
  | nil => exact normalizeFrom_finish h
  | cons c cs ih => rw [normalizeFrom_cons, normalizeFrom_step h, ih (h.step c)]

end Context

/-- Every text is in the normal spelling once it has been normalized, also one with a text that is not closed,
a backslash at the end or words that stand anywhere. -/
theorem normalize_normalize (source : String) : normalize (normalize source) = normalize source := by
  have hformed : Context.Formed .plain := trivial
  rw [normalize, normalize, String.toList_ofList]
  exact congrArg String.ofList (Context.normalizeFrom_settled hformed source.toList)

/-- An escaped single quote, a double quote and a backslash in a text that is not closed. -/
example : normalize "None'\\'\"\\" = "null\"'\\\"\\" := by decide

end QuantumKernels.Wire
