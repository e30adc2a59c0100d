import QuantumKernels.Proofs.Json.Document
import QuantumKernels.Wire.Literal

/-!
# Documents are literals in the normal spelling

Normalization and the scan of a document read a text in step: the scan is inside a text where
normalization is, and outside texts it takes in no quote of the other kind and no capital of a
word that is respelled. So a text that is a document is left as it is.
-/
namespace QuantumKernels.Wire

open Json

theorem normalizeFrom_cons (context : Context) (c : Char) (rest : List Char) :
    normalizeFrom context (c :: rest) =
      (context.step c).1 ++ normalizeFrom (context.step c).2 rest := rfl

/-- What has been read and is still to be written if it is written as it is read. -/
def Context.held : Context → List Char
  | .plain | .quoted _ => []
  | .word letters => letters.reverse
  | .escaped _ => ['\\']

/-- What the words that are respelled start with. -/
def capitals : List Char := ['T', 'F', 'N']

theorem respell_of_no_capital {word : List Char} (h : ∀ c ∈ word, c ∉ capitals) :
    respell word = word := by
  have hne : ∀ {w : List Char} {c : Char}, c ∈ w → c ∈ capitals → word ≠ w := by
    rintro w c hc hcapital rfl
    exact h c hc hcapital
  have htrue : word ≠ "True".toList := hne (c := 'T') (by decide) (by decide)
  have hfalse : word ≠ "False".toList := hne (c := 'F') (by decide) (by decide)
  have hnone : word ≠ "None".toList := hne (c := 'N') (by decide) (by decide)
  rw [respell, if_neg htrue, if_neg hfalse, if_neg hnone]

/-- Outside texts, with a word open at most that is written as it is read. -/
inductive Context.Outside : Context → Prop
  | plain : Outside .plain
  | word {letters : List Char} (h : ∀ c ∈ letters, c ∉ capitals) : Outside (.word letters)

namespace Context

/-- A character is written as it is read, at once or later. -/
def Keeps (context : Context) (c : Char) : Prop :=
  (context.step c).1 ++ (context.step c).2.held = context.held ++ [c]

theorem Outside.finish {context : Context} (h : context.Outside) : context.finish = context.held := by
  cases h with
  | plain => rfl
  | word h => exact respell_of_no_capital (by simpa using h)

/-- Whatever is held is written before a character that continues no word. -/
theorem Outside.step_of_not_wordChar {context : Context} (h : context.Outside) {c : Char}
    (hc : isWordChar c = false) :
    context.step c = (context.held ++ (plainStep c).1, (plainStep c).2) := by
  cases h with
  | plain => rfl
  | @word letters h =>
    have hword : respell letters.reverse = letters.reverse :=
      respell_of_no_capital (by simpa using h)
    simp [step, held, hc, hword]

theorem keeps_plain {c : Char} (hc : c ≠ '\'') : Keeps .plain c := by
  have hquote : (c = '"' ∨ c = '\'') ↔ c = '"' := or_iff_left hc
  simp only [Keeps, step, plainStep, hquote]
  split_ifs with hopen
  · rw [hopen]; rfl
  · rfl
  · rfl

theorem plainStep_outside {c : Char} (hquote : c ≠ '"') (hmark : c ≠ '\'') (hc : c ∉ capitals) :
    (plainStep c).2.Outside := by
  rw [plainStep, if_neg (not_or.mpr ⟨hquote, hmark⟩)]
  split_ifs
  · exact .word (by simpa using hc)
  · exact .plain

theorem Outside.keeps {context : Context} (h : context.Outside) {c : Char} (hc : c ≠ '\'') :
    context.Keeps c := by
  cases hword : isWordChar c with
  | true =>
    cases h with
    | plain => exact keeps_plain hc
    | word => simp [Keeps, step, hword, held]
  | false =>
    have hplain : (plainStep c).1 ++ (plainStep c).2.held = [c] := keeps_plain hc
    rw [Keeps, h.step_of_not_wordChar hword, List.append_assoc, hplain]

theorem Outside.step {context : Context} (h : context.Outside) {c : Char} (hquote : c ≠ '"')
    (hmark : c ≠ '\'') (hc : c ∉ capitals) : (context.step c).2.Outside := by
  cases hword : isWordChar c with
  | true =>
    cases h with
    | plain => exact plainStep_outside hquote hmark hc
    | word h =>
      simp only [Context.step, hword, if_true]
      exact .word (by simpa [hc] using h)
  | false =>
    rw [h.step_of_not_wordChar hword]
    exact plainStep_outside hquote hmark hc

theorem Outside.step_quote {context : Context} (h : context.Outside) :
    (context.step '"').2 = .quoted '"' := by
  rw [h.step_of_not_wordChar (by decide)]
  rfl

end Context

/-- Where normalization stands when a scan has that part open. -/
def Agrees : Pending → Context → Prop
  | .nothing, context | .word _, context | .numeral _, context => context.Outside
  | .quoted _, context | .hex .., context => context = .quoted '"'
  | .escape _, context => context = .escaped '"'

theorem agrees_plain : Agrees .nothing .plain := .plain

/-- A character that a scan takes in outside texts, with the part it leaves open. -/
structure Admitted (c : Char) (part : Pending) : Prop where
  mark : c ≠ '\''
  agrees : ∀ {context : Context}, context.Outside → Agrees part (context.step c).2

/-- A character of a kind with no quotes and no capitals leaves texts closed. -/
theorem admitted_of_kind (kind : Char → Bool) {c : Char} {part : Pending} (hc : kind c)
    (hkind : ('"' :: '\'' :: capitals).all fun d => !kind d)
    (hpart : ∀ context : Context, context.Outside → Agrees part context) : Admitted c part := by
  have hne : c ∉ '"' :: '\'' :: capitals := fun hd => by
    have hnot := List.all_eq_true.mp hkind c hd
    simp [hc] at hnot
  simp only [List.mem_cons, not_or] at hne
  obtain ⟨hquote, hmark, hcapital⟩ := hne
  refine ⟨hmark, fun hcontext => hpart _ (hcontext.step hquote hmark ?_)⟩
  simpa [capitals] using hcapital

theorem admitted_separate {done : List Token} {c : Char} {s : Scan}
    (h : Scan.separate done c = some s) : Admitted c s.part := by
  have hmark : ∀ {d : Char}, d ∉ '"' :: '\'' :: capitals → Admitted d .nothing := fun {d} hd =>
    admitted_of_kind (· == d) (by simp)
      (List.all_eq_true.mpr fun e he => by simpa using ne_of_mem_of_not_mem he hd)
      fun _ hcontext => hcontext
  unfold Scan.separate at h
  split_ifs at h with hblank hopen hclose hopen' hclose' hcomma hcolon hquote hlower hdigit
  all_goals obtain rfl := Option.some.inj h
  · rcases hblank with rfl | rfl | rfl | rfl <;> exact hmark (by decide)
  · exact hopen ▸ hmark (by decide)
  · exact hclose ▸ hmark (by decide)
  · exact hopen' ▸ hmark (by decide)
  · exact hclose' ▸ hmark (by decide)
  · exact hcomma ▸ hmark (by decide)
  · exact hcolon ▸ hmark (by decide)
  · exact hquote ▸ ⟨by decide, fun hcontext => hcontext.step_quote⟩
  · exact admitted_of_kind Char.isLower hlower rfl fun _ hcontext => hcontext
  · refine admitted_of_kind startsNumeral ?_ rfl fun _ hcontext => hcontext
    rcases hdigit with rfl | hdigit
    · rfl
    · simp [startsNumeral, hdigit]

theorem admitted_step {s s' : Scan} {c : Char} (h : s.step c = some s')
    (hpart : Agrees s.part .plain) : Admitted c s'.part := by
  obtain ⟨done, part⟩ := s
  cases part with
  | nothing => exact admitted_separate h
  | word letters =>
    simp only [Scan.step] at h
    split_ifs at h with hlower
    · obtain rfl := Option.some.inj h
      exact admitted_of_kind Char.isLower hlower rfl fun _ hcontext => hcontext
    · obtain ⟨v, -, h⟩ := Option.bind_eq_some_iff.mp h
      exact admitted_separate h
  | numeral chars =>
    simp only [Scan.step] at h
    split_ifs at h with hnum
    · obtain rfl := Option.some.inj h
      exact admitted_of_kind isNumeralChar hnum rfl fun _ hcontext => hcontext
    · obtain ⟨v, -, h⟩ := Option.bind_eq_some_iff.mp h
      exact admitted_separate h
  | quoted q => cases hpart
  | escape q => cases hpart
  | hex q code missing => cases hpart

/-- Inside double quotes a character other than the quote and the backslash is written as it is. -/
theorem Context.step_quoted {c : Char} (hback : c ≠ '\\') (hquote : c ≠ '"') :
    Context.step (.quoted '"') c = ([c], .quoted '"') := by
  simp [step, hback, hquote]

/-- A character that the scan takes in is written as it is read. -/
theorem keeps_step {s s' : Scan} {c : Char} {context : Context} (h : s.step c = some s')
    (hcontext : Agrees s.part context) :
    context.Keeps c ∧ Agrees s'.part (context.step c).2 := by
  obtain ⟨done, part⟩ := s
  have houtside (hplain : Agrees part .plain) (hcontext : context.Outside) :
      context.Keeps c ∧ Agrees s'.part (context.step c).2 :=
    have hc := admitted_step h hplain
    ⟨hcontext.keeps hc.mark, hc.agrees hcontext⟩
  cases part with
  | nothing => exact houtside .plain hcontext
  | word letters => exact houtside .plain hcontext
  | numeral chars => exact houtside .plain hcontext
  | quoted q =>
    obtain rfl : context = .quoted '"' := hcontext
    simp only [Scan.step] at h
    split_ifs at h with hquote hback hcontrol
    · obtain rfl := Option.some.inj h
      subst hquote
      exact ⟨rfl, .plain⟩
    · obtain rfl := Option.some.inj h
      subst hback
      exact ⟨rfl, rfl⟩
    · obtain rfl := Option.some.inj h
      rw [Context.Keeps, Context.step_quoted hback hquote]
      exact ⟨rfl, rfl⟩
  | escape q =>
    obtain rfl : context = .escaped '"' := hcontext
    have hmark : c ≠ '\'' := by
      rintro rfl
      cases h
    have hpart : Agrees s'.part (.quoted '"') := by
      simp only [Scan.step] at h
      split_ifs at h
      · obtain rfl := Option.some.inj h
        rfl
      · obtain ⟨d, -, rfl⟩ := Option.map_eq_some_iff.mp h
        rfl
    exact ⟨by simp [Context.Keeps, Context.step, Context.held, hmark], hpart⟩
  | hex q code missing =>
    obtain rfl : context = .quoted '"' := hcontext
    obtain ⟨d, hd, hs'⟩ := Option.map_eq_some_iff.mp h
    have hback : c ≠ '\\' := by
      rintro rfl
      cases hd
    have hquote : c ≠ '"' := by
      rintro rfl
      cases hd
    have hpart : Agrees s'.part (.quoted '"') := by
      rw [← hs']
      split_ifs <;> rfl
    rw [Context.Keeps, Context.step_quoted hback hquote]
    exact ⟨rfl, hpart⟩

/-- What a scan takes in is written as it is read, but for what is still held at its end. -/
theorem normalizeFrom_of_run {s s' : Scan} {context : Context} {cs : List Char}
    (h : s.run cs = some s') (hcontext : Agrees s.part context) :
    ∃ written next, Agrees s'.part next ∧ written ++ next.held = context.held ++ cs ∧
      ∀ rest, normalizeFrom context (cs ++ rest) = written ++ normalizeFrom next rest := by
  induction cs generalizing s context with
  | nil =>
    obtain rfl := Option.some.inj h
    exact ⟨[], context, hcontext, by simp, fun _ => rfl⟩
  | cons c cs ih =>
    obtain ⟨s₁, hstep, hrest⟩ := Option.bind_eq_some_iff.mp h
    obtain ⟨hkeeps, hagrees⟩ := keeps_step hstep hcontext
    obtain ⟨written, next, hnext, hwritten, hall⟩ := ih hrest hagrees
    refine ⟨(context.step c).1 ++ written, next, hnext, ?_, fun rest => ?_⟩
    · rw [List.append_assoc, hwritten, ← List.append_assoc, hkeeps, List.append_assoc]
      rfl
    · rw [List.cons_append, normalizeFrom_cons, hall, List.append_assoc]

theorem Agrees.finish {part : Pending} {context : Context} (h : Agrees part context) :
    context.finish = context.held := by
  cases part with
  | nothing | word | numeral => exact Context.Outside.finish h
  | quoted | escape | hex => cases h; rfl

/-- A text that is a document is in the normal spelling. -/
theorem normalize_of_read {source : String} {v : Json} (h : read source = some v) :
    normalize source = source := by
  obtain ⟨ts, htokens, -⟩ := Option.bind_eq_some_iff.mp h
  obtain ⟨scan, hscan, -⟩ := Option.bind_eq_some_iff.mp htokens
  obtain ⟨written, next, hnext, hwritten, hall⟩ := normalizeFrom_of_run hscan agrees_plain
  have hsource := hall []
  rw [List.append_nil] at hsource
  have hfinish : normalizeFrom next [] = next.held := hnext.finish
  rw [normalize, hsource, hfinish, hwritten]
  exact String.ofList_toList

/-- The written form of a legible record is in the normal spelling. -/
theorem normalize_compact {fields : List (String × Json)} (h : Legible (.record fields)) :
    normalize (Json.record fields).compact = (Json.record fields).compact :=
  normalize_of_read (read_compact h)

end QuantumKernels.Wire
