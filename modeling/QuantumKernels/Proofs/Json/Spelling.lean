import QuantumKernels.Proofs.Json.Token
import Mathlib.Data.List.Forall2

/-!
# Spellings of documents

A dialect says which quotes texts stand between, which letters may be escaped and which words there
are. `d.Renders v cs` is the grammar of a dialect: numbers, texts and words, lists and records of
them, and blanks around every part. In the dialect of documents each spelling of a value is scanned
to the tokens of the value, and the compact form of a legible value is one of its spellings.
-/
namespace QuantumKernels.Json

structure Dialect where
  words : List (String × Json)
  marks : List Char
  /-- what may stand after a backslash, with the character it stands for -/
  escapes : List (Char × Char)

def Dialect.document : Dialect where
  words := [("null", .null), ("true", .bool true), ("false", .bool false)]
  marks := ['"']
  escapes := [('"', '"'), ('\\', '\\'), ('/', '/'), ('b', '\x08'), ('f', '\x0c'), ('n', '\n'),
    ('r', '\r'), ('t', '\t')]

/-- A hexadecimal digit in either case. -/
def IsHexDigit (digit : Char) (n : ℕ) : Prop :=
  n < 16 ∧ (digit = hexDigit n ∨ digit = (hexDigit n).toUpper)

/-- A code of sixteen bits written with four digits. -/
inductive EscapesCode : ℕ → List Char → Prop
  | mk {a b c d : Char} {i j k l : ℕ} (ha : IsHexDigit a i) (hb : IsHexDigit b j)
      (hc : IsHexDigit c k) (hd : IsHexDigit d l) :
      EscapesCode (16 * (16 * (16 * i + j) + k) + l) ['\\', 'u', a, b, c, d]

def isBlank (c : Char) : Bool := c == ' ' || c == '\n' || c == '\t' || c == '\r'

/-- A field of a record with what its name and its value are written as. -/
structure WrittenField where
  name : String
  value : Json
  nameText : List Char
  valueText : List Char

namespace Dialect

/-- What a character of a text between two such marks may be written as. -/
inductive Writes (d : Dialect) (mark : Char) : Char → List Char → Prop
  | raw {c : Char} (hcontrol : 0x20 ≤ c.toNat) (hback : c ≠ '\\') (hmark : c ≠ mark) :
      Writes d mark c [c]
  | letter {letter c : Char} (h : (letter, c) ∈ d.escapes) : Writes d mark c ['\\', letter]
  | code {c : Char} {cs : List Char} (h : EscapesCode c.toNat cs) : Writes d mark c cs
  | pair {c : Char} {high low : ℕ} {cs ds : List Char} (hhigh : 0xd800 ≤ high ∧ high < 0xdc00)
      (hlow : 0xdc00 ≤ low ∧ low < 0xe000)
      (hc : c.toNat = 0x10000 + (high - 0xd800) * 0x400 + (low - 0xdc00))
      (hcs : EscapesCode high cs) (hds : EscapesCode low ds) : Writes d mark c (cs ++ ds)

/-- The spellings of a value; a name is spelled as the text it is. -/
inductive Renders (d : Dialect) : Json → List Char → Prop
  | word {w : String} {v : Json} (h : (w, v) ∈ d.words) : Renders d v w.toList
  | int {n : ℤ} {cs : List Char} (h : numberOfChars cs = some (.int n)) : Renders d (.int n) cs
  | real {x : Float} {cs : List Char} (h : numberOfChars cs = some (.real x)) :
      Renders d (.real x) cs
  | text {s : String} {mark : Char} {pieces : List (List Char)} (hmark : mark ∈ d.marks)
      (h : List.Forall₂ (d.Writes mark) s.toList pieces) :
      Renders d (.text s) (mark :: (pieces.flatten ++ [mark]))
  | padded {v : Json} {before cs after : List Char} (hbefore : ∀ c ∈ before, isBlank c)
      (hafter : ∀ c ∈ after, isBlank c) (h : Renders d v cs) : Renders d v (before ++ (cs ++ after))
  | list (items : List (Json × List Char)) (blanks : List Char) (h : ∀ e ∈ items, Renders d e.1 e.2)
      (hblanks : ∀ c ∈ blanks, isBlank c) :
      Renders d (.list (items.map (·.1)))
        ('[' :: ([','].intercalate (items.map (·.2)) ++ (blanks ++ [']'])))
  | record (fields : List WrittenField) (blanks : List Char)
      (hnames : ∀ f ∈ fields, Renders d (.text f.name) f.nameText)
      (hvalues : ∀ f ∈ fields, Renders d f.value f.valueText) (hblanks : ∀ c ∈ blanks, isBlank c) :
      Renders d (.record (fields.map fun f => (f.name, f.value)))
        ('{' :: ([','].intercalate (fields.map fun f => f.nameText ++ ':' :: f.valueText)
          ++ (blanks ++ ['}'])))

end Dialect

/-! ## Scans of spellings -/

theorem hexValue?_of_isHexDigit {digit : Char} {n : ℕ} (h : IsHexDigit digit n) :
    hexValue? digit = some n := by
  have hlower : ∀ n < 16, hexValue? (hexDigit n) = some n := by decide
  have hupper : ∀ n < 16, hexValue? (hexDigit n).toUpper = some n := by decide
  obtain ⟨hn, rfl | rfl⟩ := h
  · exact hlower n hn
  · exact hupper n hn

namespace Scan

theorem run_escapesCode {n : ℕ} {cs : List Char} (h : EscapesCode n cs) (done : List Token)
    (q : Quoted) (rest : List Char) :
    (Scan.mk done (.quoted q)).run (cs ++ rest) = (Scan.mk done (.quoted (q.pushCode n))).run rest := by
  obtain ⟨ha, hb, hc, hd⟩ := h
  simp [run_cons, step, hexValue?_of_isHexDigit ha, hexValue?_of_isHexDigit hb,
    hexValue?_of_isHexDigit hc, hexValue?_of_isHexDigit hd]

/-- Each way of writing a character is taken in as that character. -/
theorem run_writes {c : Char} {piece : List Char} (h : Dialect.document.Writes '"' c piece)
    (done : List Token) (before rest : List Char) :
    (Scan.mk done (.quoted ⟨before, none, true⟩)).run (piece ++ rest) =
      (Scan.mk done (.quoted ⟨c :: before, none, true⟩)).run rest := by
  cases h with
  | raw hcontrol hback hquote =>
    have hplain : ¬ c.toNat < 32 := Nat.not_lt.mpr hcontrol
    simp [run_cons, step, hback, hquote, hplain, Quoted.push]
  | letter h =>
    simp only [Dialect.document, List.mem_cons, Prod.mk.injEq, List.not_mem_nil, or_false] at h
    rcases h with ⟨rfl, rfl⟩ | ⟨rfl, rfl⟩ | ⟨rfl, rfl⟩ | ⟨rfl, rfl⟩ | ⟨rfl, rfl⟩ | ⟨rfl, rfl⟩ |
      ⟨rfl, rfl⟩ | ⟨rfl, rfl⟩ <;> rfl
  | code h =>
    have hvalid : c.toNat < 0xd800 ∨ 0xdfff < c.toNat ∧ c.toNat < 0x110000 := c.valid
    have hpush : (Quoted.mk before none true).pushCode c.toNat = ⟨c :: before, none, true⟩ := by
      rw [Quoted.pushCode, if_neg (by omega), if_neg (by omega), Char.ofNat_toNat]
      rfl
    rw [run_escapesCode h, hpush]
  | @pair _ high low cs ds hhigh hlow hc hcs hds =>
    -- the first half waits for the second
    have hlead : (Quoted.mk before none true).pushCode high = ⟨before, some high, true⟩ := by
      simp [Quoted.pushCode, hhigh]
    have htrail : (Quoted.mk before (some high) true).pushCode low = ⟨c :: before, none, true⟩ := by
      rw [Quoted.pushCode, if_neg (by omega), if_pos hlow]
      simp [← hc, Char.ofNat_toNat]
    rw [List.append_assoc, run_escapesCode hcs, hlead, run_escapesCode hds, htrail]

theorem run_pieces {s : List Char} {pieces : List (List Char)}
    (h : List.Forall₂ (Dialect.document.Writes '"') s pieces) (done : List Token)
    (before rest : List Char) :
    (Scan.mk done (.quoted ⟨before, none, true⟩)).run (pieces.flatten ++ rest) =
      (Scan.mk done (.quoted ⟨s.reverse ++ before, none, true⟩)).run rest := by
  induction h generalizing before with
  | nil => rfl
  | cons hc _ ih =>
    rw [List.flatten_cons, List.append_assoc, run_writes hc, ih]
    simp

/-- A quoted text is one token, whatever follows. -/
theorem run_text {s : String} {pieces : List (List Char)}
    (h : List.Forall₂ (Dialect.document.Writes '"') s.toList pieces) (done : List Token)
    (rest : List Char) :
    (Scan.mk done .nothing).run ('"' :: (pieces.flatten ++ '"' :: rest)) =
      (Scan.mk (.atom (.text s) :: done) .nothing).run rest := by
  have hopen : (Scan.mk done .nothing).step '"' = some ⟨done, .quoted ⟨[], none, true⟩⟩ := rfl
  have hclose : (Scan.mk done (.quoted ⟨s.toList.reverse, none, true⟩)).step '"' =
      some ⟨.atom (.text s) :: done, .nothing⟩ := by
    simp [step, Quoted.token]
  rw [run_cons, hopen, Option.bind_some, run_pieces h, List.append_nil, run_cons, hclose,
    Option.bind_some]

theorem run_blanks {blanks : List Char} (h : ∀ c ∈ blanks, isBlank c) (done : List Token)
    (rest : List Char) :
    (Scan.mk done .nothing).run (blanks ++ rest) = (Scan.mk done .nothing).run rest := by
  induction blanks with
  | nil => rfl
  | cons c cs ih =>
    have hc : c = ' ' ∨ c = '\n' ∨ c = '\t' ∨ c = '\r' := by
      simpa [isBlank, or_assoc] using h c (by simp)
    have hstep : (Scan.mk done .nothing).step c = some ⟨done, .nothing⟩ := if_pos hc
    rw [List.cons_append, run_cons, hstep, Option.bind_some]
    exact ih fun d hd => h d (by simp [hd])

theorem endsAtom_of_isBlank {c : Char} (h : isBlank c) : endsAtom c := by
  have hc : c = ' ' ∨ c = '\n' ∨ c = '\t' ∨ c = '\r' := by simpa [isBlank, or_assoc] using h
  rcases hc with rfl | rfl | rfl | rfl <;> rfl

/-- What stands after blanks or after what they follow. -/
theorem head_append_blanks {blanks : List Char} (h : ∀ c ∈ blanks, isBlank c) {p : Char → Bool}
    (hp : ∀ c, isBlank c → p c) {c : Char} (hc : p c) (rest : List Char) :
    ∃ d tail, blanks ++ c :: rest = d :: tail ∧ p d := by
  cases blanks with
  | nil => exact ⟨c, rest, rfl, hc⟩
  | cons d ds => exact ⟨d, ds ++ c :: rest, rfl, hp d (h d (by simp))⟩

/-- Scanning these characters yields the tokens of a value. -/
def Yields (v : Json) (cs : List Char) : Prop :=
  ∀ (done : List Token) (c : Char) (rest : List Char), endsAtom c →
    (Scan.mk done .nothing).run (cs ++ c :: rest) =
      (Scan.mk (v.tokensOf.reverse ++ done) .nothing).run (c :: rest)

theorem yields_word {w : String} {v : Json} (h : (w, v) ∈ Dialect.document.words) :
    Yields v w.toList := by
  have hword {letters : List Char} {v : Json} (hatom : v.tokensOf = [.atom v])
      (hscan : ∀ done rest, (Scan.mk done .nothing).run (letters ++ rest) =
        (Scan.mk done (.word letters.reverse)).run rest)
      (hvalue : wordValue letters.reverse.reverse = some v) : Yields v letters := by
    intro done c rest hc
    rw [hscan, run_word_end done rest hvalue hc, hatom]
    rfl
  simp only [Dialect.document, List.mem_cons, Prod.mk.injEq, List.not_mem_nil, or_false] at h
  rcases h with ⟨rfl, rfl⟩ | ⟨rfl, rfl⟩ | ⟨rfl, rfl⟩ <;> exact hword rfl (fun _ _ => rfl) rfl

theorem yields_number {cs : List Char} {v : Json} (h : numberOfChars cs = some v)
    (hatom : v.tokensOf = [.atom v]) : Yields v cs := by
  intro done c rest hc
  rw [run_numeral done rest h hc, hatom]
  rfl

theorem yields_padded {v : Json} {before cs after : List Char} (hbefore : ∀ c ∈ before, isBlank c)
    (hafter : ∀ c ∈ after, isBlank c) (h : Yields v cs) : Yields v (before ++ (cs ++ after)) := by
  intro done c rest hc
  obtain ⟨d, tail, htail, hd⟩ := head_append_blanks hafter (fun _ => endsAtom_of_isBlank) hc rest
  rw [List.append_assoc, List.append_assoc, run_blanks hbefore, htail, h done d tail hd, ← htail,
    run_blanks hafter]

/-- A mark outside texts is one token. -/
theorem run_mark {c : Char} {t : Token}
    (h : (c, t) ∈ [('[', Token.openList), (']', .closeList), ('{', .openRecord),
      ('}', .closeRecord), (',', .comma), (':', .colon)]) (done : List Token) (rest : List Char) :
    (Scan.mk done .nothing).run (c :: rest) = (Scan.mk (t :: done) .nothing).run rest := by
  simp only [List.mem_cons, Prod.mk.injEq, List.not_mem_nil, or_false] at h
  rcases h with ⟨rfl, rfl⟩ | ⟨rfl, rfl⟩ | ⟨rfl, rfl⟩ | ⟨rfl, rfl⟩ | ⟨rfl, rfl⟩ | ⟨rfl, rfl⟩ <;> rfl

/-- The items of a list, up to what follows the last one. -/
theorem run_items (items : List (Json × List Char)) (h : ∀ e ∈ items, Yields e.1 e.2)
    (done : List Token) {c : Char} (hc : endsAtom c) (rest : List Char) :
    (Scan.mk done .nothing).run ([','].intercalate (items.map (·.2)) ++ c :: rest) =
      (Scan.mk ((tokensOf.itemTokens true (items.map (·.1))).reverse ++ done) .nothing).run
        (c :: rest) := by
  induction items generalizing done with
  | nil => rfl
  | cons e others ih =>
    have he : Yields e.1 e.2 := h e (by simp)
    have hothers := ih fun w hw => h w (by simp [hw])
    cases others with
    | nil => simpa [tokensOf.itemTokens, separatorTokens] using he done c rest hc
    | cons e' others =>
      have hcomma := he done ',' ([','].intercalate ((e' :: others).map (·.2)) ++ c :: rest) rfl
      rw [run_mark (c := ',') (t := .comma) (by simp), hothers] at hcomma
      simpa [tokensOf.itemTokens, separatorTokens, List.intercalate_cons_cons] using hcomma

theorem run_field {f : WrittenField} (hname : Yields (.text f.name) f.nameText)
    (hvalue : Yields f.value f.valueText) (done : List Token) {c : Char} (hc : endsAtom c)
    (rest : List Char) :
    (Scan.mk done .nothing).run (f.nameText ++ ':' :: f.valueText ++ c :: rest) =
      (Scan.mk (f.value.tokensOf.reverse ++ .colon :: .atom (.text f.name) :: done) .nothing).run
        (c :: rest) := by
  rw [List.append_assoc, List.cons_append, hname done ':' _ rfl,
    run_mark (c := ':') (t := .colon) (by simp), hvalue _ c rest hc]
  rfl

theorem run_fields (fields : List WrittenField)
    (hnames : ∀ f ∈ fields, Yields (.text f.name) f.nameText)
    (hvalues : ∀ f ∈ fields, Yields f.value f.valueText) (done : List Token) {c : Char}
    (hc : endsAtom c) (rest : List Char) :
    (Scan.mk done .nothing).run
        ([','].intercalate (fields.map fun f => f.nameText ++ ':' :: f.valueText) ++ c :: rest) =
      (Scan.mk ((tokensOf.fieldTokens true (fields.map fun f => (f.name, f.value))).reverse ++ done)
        .nothing).run (c :: rest) := by
  induction fields generalizing done with
  | nil => rfl
  | cons f others ih =>
    have hf {d : Char} (hd : endsAtom d) (rest : List Char) :=
      run_field (hnames f (by simp)) (hvalues f (by simp)) done hd rest
    have hothers := ih (fun g hg => hnames g (by simp [hg])) fun g hg => hvalues g (by simp [hg])
    cases others with
    | nil => simpa [tokensOf.fieldTokens, separatorTokens] using hf hc rest
    | cons f' others =>
      have hcomma := hf (d := ',') rfl
        ([','].intercalate ((f' :: others).map fun f => f.nameText ++ ':' :: f.valueText) ++ c :: rest)
      rw [run_mark (c := ',') (t := .comma) (by simp), hothers] at hcomma
      simpa [tokensOf.fieldTokens, separatorTokens, List.intercalate_cons_cons] using hcomma

theorem yields_of_renders {v : Json} {cs : List Char} (h : Dialect.document.Renders v cs) :
    Yields v cs := by
  induction h with
  | word h => exact yields_word h
  | int h => exact yields_number h rfl
  | real h => exact yields_number h rfl
  | text hmark h =>
    obtain rfl := List.mem_singleton.mp hmark
    intro done c rest _
    rw [List.cons_append, List.append_assoc, List.singleton_append, run_text h]
    rfl
  | padded hbefore hafter _ ih => exact yields_padded hbefore hafter ih
  | list items blanks _ hblanks ih =>
    intro done c rest _
    obtain ⟨d, tail, htail, hd⟩ :=
      head_append_blanks hblanks (fun _ => endsAtom_of_isBlank) (c := ']') rfl (c :: rest)
    rw [List.cons_append, List.append_assoc, List.append_assoc, List.singleton_append,
      run_mark (c := '[') (t := .openList) (by simp), htail, run_items _ ih _ hd, ← htail,
      run_blanks hblanks, run_mark (c := ']') (t := .closeList) (by simp)]
    simp [tokensOf]
  | record fields blanks _ _ hblanks ihnames ihvalues =>
    intro done c rest _
    obtain ⟨d, tail, htail, hd⟩ :=
      head_append_blanks hblanks (fun _ => endsAtom_of_isBlank) (c := '}') rfl (c :: rest)
    rw [List.cons_append, List.append_assoc, List.append_assoc, List.singleton_append,
      run_mark (c := '{') (t := .openRecord) (by simp), htail, run_fields _ ihnames ihvalues _ hd,
      ← htail, run_blanks hblanks, run_mark (c := '}') (t := .closeRecord) (by simp)]
    simp [tokensOf]

/-- A token that a blank ends is ended by the end of the text as well. -/
theorem finish_of_step_blank {s : Scan} {done : List Token}
    (h : s.step ' ' = some ⟨done, .nothing⟩) : s.finish = some done.reverse := by
  obtain ⟨before, part⟩ := s
  cases part with
  | nothing => cases h; rfl
  | word letters =>
    have hstep : (Scan.mk before (.word letters)).step ' ' =
        (wordValue letters.reverse).bind fun v => separate (.atom v :: before) ' ' := rfl
    obtain ⟨v, hv, hdone⟩ := Option.bind_eq_some_iff.mp (hstep ▸ h)
    cases hdone
    simp [finish, hv]
  | numeral chars =>
    have hstep : (Scan.mk before (.numeral chars)).step ' ' =
        (numberOfChars chars.reverse).bind fun v => separate (.atom v :: before) ' ' := rfl
    obtain ⟨v, hv, hdone⟩ := Option.bind_eq_some_iff.mp (hstep ▸ h)
    cases hdone
    simp [finish, hv]
  | quoted q => cases h
  | escape q => cases h
  | hex q code missing => cases h

end Scan

/-- A spelling of a value has the tokens of the value. -/
theorem tokens_of_renders {v : Json} {cs : List Char} (h : Dialect.document.Renders v cs) :
    tokens cs = some v.tokensOf := by
  -- the text is scanned with a blank after it, which ends the value and is no token
  have hrun := Scan.yields_of_renders h [] ' ' [] rfl
  have hend : (Scan.mk (v.tokensOf.reverse ++ []) .nothing).run [' '] =
      some ⟨v.tokensOf.reverse, .nothing⟩ := by
    rw [List.append_nil]
    rfl
  rw [hend, Scan.run, List.foldlM_append] at hrun
  obtain ⟨s, hs, hblank⟩ := Option.bind_eq_some_iff.mp hrun
  obtain ⟨s', hstep, hs'⟩ := Option.bind_eq_some_iff.mp hblank
  obtain rfl := Option.some.inj hs'
  rw [tokens, hs, Option.bind_some, Scan.finish_of_step_blank hstep, List.reverse_reverse]

/-! ## Written forms -/

/-- Parts that are spelled as `reads` of them make up a spelling of the list of these. -/
theorem Dialect.Renders.list_map {d : Dialect} {items : List Json} (reads : Json → Json)
    (written : Json → List Char) (blanks : List Char) (h : ∀ v ∈ items, d.Renders (reads v) (written v))
    (hblanks : ∀ c ∈ blanks, isBlank c) :
    d.Renders (.list (items.map reads)) ('[' :: ([','].intercalate (items.map written) ++ (blanks ++ [']']))) := by
  have hitems : ∀ e ∈ items.map fun v => (reads v, written v), d.Renders e.1 e.2 := by simpa using h
  simpa [Function.comp_def] using Renders.list _ blanks hitems hblanks

theorem Dialect.Renders.record_map {d : Dialect} {fields : List (String × Json)} (reads : Json → Json)
    (name : String → List Char) (written : Json → List Char) (blanks : List Char)
    (hname : ∀ k, d.Renders (.text k) (name k)) (h : ∀ e ∈ fields, d.Renders (reads e.2) (written e.2))
    (hblanks : ∀ c ∈ blanks, isBlank c) :
    d.Renders (.record (fields.map fun e => (e.1, reads e.2))) ('{' :: ([','].intercalate (fields.map fun e =>
      name e.1 ++ ':' :: written e.2) ++ (blanks ++ ['}']))) := by
  have hnames : ∀ f ∈ fields.map fun e => WrittenField.mk e.1 (reads e.2) (name e.1) (written e.2),
      d.Renders (.text f.name) f.nameText := List.forall_mem_map.mpr fun e _ => hname e.1
  have hvalues : ∀ f ∈ fields.map fun e => WrittenField.mk e.1 (reads e.2) (name e.1) (written e.2),
      d.Renders f.value f.valueText := List.forall_mem_map.mpr h
  simpa [Function.comp_def] using Renders.record _ blanks hnames hvalues hblanks

theorem writes_escapeChar (c : Char) : Dialect.document.Writes '"' c (escapeChar c) := by
  unfold escapeChar
  split_ifs with hquote hback hb hf hn hr ht hcontrol
  · exact .letter (by simp [Dialect.document, hquote])
  · exact .letter (by simp [Dialect.document, hback])
  · exact .letter (by simp [Dialect.document, hb])
  · exact .letter (by simp [Dialect.document, hf])
  · exact .letter (by simp [Dialect.document, hn])
  · exact .letter (by simp [Dialect.document, hr])
  · exact .letter (by simp [Dialect.document, ht])
  · have hdigit {n : ℕ} (h : n < 16) : IsHexDigit (hexDigit n) n := ⟨h, .inl rfl⟩
    have hzero : IsHexDigit '0' 0 := hdigit (by omega)
    have hvalue : c.toNat = 16 * (16 * (16 * 0 + 0) + c.toNat / 16) + c.toNat % 16 := by omega
    have hhigh : IsHexDigit (hexDigit (c.toNat / 16)) (c.toNat / 16) := hdigit (by omega)
    have hlow : IsHexDigit (hexDigit (c.toNat % 16)) (c.toNat % 16) := hdigit (by omega)
    refine .code ?_
    generalize c.toNat / 16 = high, c.toNat % 16 = low at *
    rw [hvalue]
    exact .mk hzero hzero hhigh hlow
  · exact .raw (Nat.not_lt.mp hcontrol) hback hquote

theorem renders_quoteChars (s : String) : Dialect.document.Renders (.text s) (quoteChars s.toList) := by
  have hpieces : List.Forall₂ (Dialect.document.Writes '"') s.toList (s.toList.map escapeChar) :=
    List.forall₂_map_right_iff.mpr (List.forall₂_same.mpr fun c _ => writes_escapeChar c)
  rw [quoteChars, List.flatMap_def]
  exact .text (List.mem_singleton.mpr rfl) hpieces

theorem intercalate_singleton_cons {α : Type*} (c : α) (x : List α) (xs : List (List α)) :
    [c].intercalate (x :: xs) = x ++ xs.flatMap (c :: ·) := by
  induction xs generalizing x with
  | nil => simp
  | cons y ys ih => simp [List.intercalate_cons_cons, ih]

theorem itemChars_eq (items : List Json) :
    compactChars.itemChars true items = [','].intercalate (items.map compactChars) := by
  have hothers (items : List Json) : compactChars.itemChars false items =
      items.flatMap fun v => ',' :: v.compactChars := by
    induction items with
    | nil => rfl
    | cons v others ih => simp [compactChars.itemChars, separator, ih]
  cases items with
  | nil => rfl
  | cons v others =>
    rw [List.map_cons, intercalate_singleton_cons, List.flatMap_map, ← hothers]
    rfl

theorem fieldChars_eq (fields : List (String × Json)) :
    compactChars.fieldChars true fields =
      [','].intercalate (fields.map fun e => quoteChars e.1.toList ++ ':' :: e.2.compactChars) := by
  have hothers (fields : List (String × Json)) : compactChars.fieldChars false fields =
      fields.flatMap fun e => ',' :: (quoteChars e.1.toList ++ ':' :: e.2.compactChars) := by
    induction fields with
    | nil => rfl
    | cons e others ih => simp [compactChars.fieldChars, separator, ih]
  cases fields with
  | nil => rfl
  | cons e others =>
    rw [List.map_cons, intercalate_singleton_cons, List.flatMap_map, ← hothers]
    simp [compactChars.fieldChars, separator]

/-- The compact form of a legible value is a spelling of it. -/
theorem renders_compactChars {v : Json} (h : Legible v) : Dialect.document.Renders v v.compactChars := by
  induction h with
  | null => exact .word (w := "null") (by simp [Dialect.document])
  | bool b => cases b <;> exact .word (by simp [Dialect.document])
  | int low high => exact .int (numberOfChars_intChars low high)
  | real h => exact .real h
  | text s => exact renders_quoteChars s
  | @list items _ ih =>
    rw [compactChars, itemChars_eq]
    simpa using Dialect.Renders.list_map id compactChars [] ih (by simp)
  | @record fields _ ih =>
    rw [compactChars, fieldChars_eq]
    simpa using Dialect.Renders.record_map id (quoteChars ·.toList) compactChars [] renders_quoteChars ih (by simp)

end QuantumKernels.Json
