import QuantumKernels.Proofs.Wire.Literal

/-!
# Spellings of a literal

The dialect of literals has words in either spelling and texts between either quote. Normalization
turns each spelling of a value in it, part by part, into a spelling in the dialect of documents, and
so into a document of that value.
-/
namespace QuantumKernels.Wire

open Json

/-- The single quote is a mark and an escape only here. -/
def literals : Dialect where
  words := [("null", .null), ("None", .null), ("true", .bool true), ("True", .bool true),
    ("false", .bool false), ("False", .bool false)]
  marks := ['"', '\'']
  escapes := ('\'', '\'') :: Dialect.document.escapes

/-! ## Characters of texts -/

/-- A hexadecimal digit inside a text is written as it is read. -/
theorem step_quoted_of_isHexDigit {digit : Char} {n : ℕ} (h : IsHexDigit digit n) {mark : Char}
    (hmark : mark ∈ literals.marks) :
    Context.step (.quoted mark) digit = ([digit], .quoted mark) := by
  have hvalue := hexValue?_of_isHexDigit h
  have hne : ∀ {c : Char}, hexValue? c = none → digit ≠ c := by
    rintro c hc rfl
    rw [hc] at hvalue
    cases hvalue
  have hclose : digit ≠ mark := by
    have hmark : mark = '"' ∨ mark = '\'' := by simpa [literals] using hmark
    rcases hmark with rfl | rfl <;> exact hne (by decide)
  simp [Context.step, hne (c := '\\') (by decide), hclose, hne (c := '"') (by decide)]

theorem normalizeFrom_escapesCode {n : ℕ} {cs : List Char} (h : EscapesCode n cs) {mark : Char}
    (hmark : mark ∈ literals.marks) (rest : List Char) :
    normalizeFrom (.quoted mark) (cs ++ rest) = cs ++ normalizeFrom (.quoted mark) rest := by
  obtain ⟨ha, hb, hc, hd⟩ := h
  have hopen : ∀ rest, normalizeFrom (.quoted mark) ('\\' :: 'u' :: rest) =
      '\\' :: 'u' :: normalizeFrom (.quoted mark) rest := by
    intro rest
    simp [normalizeFrom_cons, Context.step]
  simp only [List.cons_append, List.nil_append, hopen, normalizeFrom_cons,
    step_quoted_of_isHexDigit ha hmark, step_quoted_of_isHexDigit hb hmark,
    step_quoted_of_isHexDigit hc hmark, step_quoted_of_isHexDigit hd hmark]

/-- Whatever a character of a text is written as, it becomes a way to write that character between
double quotes. -/
theorem exists_writes_normalized {mark c : Char} {piece : List Char}
    (h : literals.Writes mark c piece) (hmark : mark ∈ literals.marks) :
    ∃ written, Dialect.document.Writes '"' c written ∧ ∀ rest,
      normalizeFrom (.quoted mark) (piece ++ rest) =
        written ++ normalizeFrom (.quoted mark) rest := by
  cases h with
  | raw hcontrol hback hc =>
    by_cases hquote : c = '"'
    · -- the other quote needs an escape
      subst hquote
      exact ⟨['\\', '"'], .letter (by simp [Dialect.document]), fun rest => by
        simp [normalizeFrom_cons, Context.step, hc]⟩
    · exact ⟨[c], .raw hcontrol hback hquote, fun rest => by
        simp [normalizeFrom_cons, Context.step, hback, hc, hquote]⟩
  | @letter letter _ h =>
    by_cases hletter : letter = '\''
    · -- the single quote needs none
      subst hletter
      obtain rfl : c = '\'' := by simpa [literals, Dialect.document] using h
      exact ⟨['\''], .raw (by decide) (by decide) (by decide), fun rest => by
        simp [normalizeFrom_cons, Context.step]⟩
    · have hdocument : (letter, c) ∈ Dialect.document.escapes := by
        simpa [literals, hletter] using h
      exact ⟨['\\', letter], .letter hdocument, fun rest => by
        simp [normalizeFrom_cons, Context.step, hletter]⟩
  | code h => exact ⟨piece, .code h, normalizeFrom_escapesCode h hmark⟩
  | pair hhigh hlow hc hcs hds =>
    refine ⟨_, .pair hhigh hlow hc hcs hds, fun rest => ?_⟩
    rw [List.append_assoc, normalizeFrom_escapesCode hcs hmark, normalizeFrom_escapesCode hds hmark,
      List.append_assoc]

theorem exists_pieces_normalized {mark : Char} {s : List Char} {pieces : List (List Char)}
    (h : List.Forall₂ (literals.Writes mark) s pieces) (hmark : mark ∈ literals.marks) :
    ∃ written, List.Forall₂ (Dialect.document.Writes '"') s written ∧ ∀ rest,
      normalizeFrom (.quoted mark) (pieces.flatten ++ rest) =
        written.flatten ++ normalizeFrom (.quoted mark) rest := by
  induction h with
  | nil => exact ⟨[], .nil, fun _ => rfl⟩
  | cons hc _ ih =>
    obtain ⟨piece, hpiece, hstep⟩ := exists_writes_normalized hc hmark
    obtain ⟨written, hwritten, hrest⟩ := ih
    refine ⟨piece :: written, .cons hpiece hwritten, fun rest => ?_⟩
    rw [List.flatten_cons, List.append_assoc, hstep, hrest, List.flatten_cons, List.append_assoc]

/-! ## Parts of literals -/

/-- Normalization writes all of such a part before a character that continues no word. -/
def Closes (cs : List Char) : Prop :=
  ∀ (c : Char) (rest : List Char), isWordChar c = false →
    normalizeFrom .plain (cs ++ c :: rest) =
      normalizeFrom .plain cs ++ normalizeFrom .plain (c :: rest)

/-- A part becomes a spelling of a value in the dialect of documents, whatever comes after it. -/
structure Respells (v : Json) (cs : List Char) : Prop where
  renders : Dialect.document.Renders v (normalizeFrom .plain cs)
  closes : Closes cs

theorem isWordChar_of_isBlank {c : Char} (h : isBlank c) : isWordChar c = false := by
  have hc : c = ' ' ∨ c = '\n' ∨ c = '\t' ∨ c = '\r' := by simpa [isBlank, or_assoc] using h
  rcases hc with rfl | rfl | rfl | rfl <;> rfl

theorem normalizeFrom_blanks {blanks : List Char} (h : ∀ c ∈ blanks, isBlank c) (rest : List Char) :
    normalizeFrom .plain (blanks ++ rest) = blanks ++ normalizeFrom .plain rest := by
  induction blanks with
  | nil => rfl
  | cons c cs ih =>
    have hc : c = ' ' ∨ c = '\n' ∨ c = '\t' ∨ c = '\r' := by
      simpa [isBlank, or_assoc] using h c (by simp)
    have hstep : Context.step .plain c = ([c], .plain) := by
      rcases hc with rfl | rfl | rfl | rfl <;> rfl
    rw [List.cons_append, normalizeFrom_cons, hstep, ih fun d hd => h d (by simp [hd])]
    rfl

/-- A part that closes, up to a character that comes after blanks. -/
theorem Closes.before_blanks {cs blanks : List Char} (h : Closes cs) (hblanks : ∀ c ∈ blanks, isBlank c)
    {c : Char} (hc : isWordChar c = false) (rest : List Char) :
    normalizeFrom .plain (cs ++ (blanks ++ c :: rest)) =
      normalizeFrom .plain cs ++ (blanks ++ normalizeFrom .plain (c :: rest)) := by
  cases blanks with
  | nil => exact h c rest hc
  | cons d ds =>
    rw [List.cons_append, h d _ (isWordChar_of_isBlank (hblanks d (by simp))), ← List.cons_append,
      normalizeFrom_blanks hblanks]

theorem Closes.append_blanks {cs blanks : List Char} (h : Closes cs) (hblanks : ∀ c ∈ blanks, isBlank c) :
    normalizeFrom .plain (cs ++ blanks) = normalizeFrom .plain cs ++ blanks := by
  have hwritten : normalizeFrom .plain blanks = blanks := by
    have hend := normalizeFrom_blanks hblanks []
    rwa [List.append_nil, normalizeFrom, Context.finish, List.append_nil] at hend
  cases blanks with
  | nil => simp
  | cons d ds => rw [h d ds (isWordChar_of_isBlank (hblanks d (by simp))), hwritten]

theorem Closes.nil : Closes [] := fun _ _ _ => rfl

section Marks

variable {cs : List Char} {mark : Char}

/-- Two parts with a mark between them are written one after the other. -/
theorem Closes.normalizeFrom_append_mark (hcs : Closes cs) (ds : List Char)
    (hmark : mark = ',' ∨ mark = ':') :
    normalizeFrom .plain (cs ++ mark :: ds) =
      normalizeFrom .plain cs ++ mark :: normalizeFrom .plain ds := by
  rcases hmark with rfl | rfl <;> exact hcs _ ds rfl

theorem Closes.append_mark {ds : List Char} (hcs : Closes cs) (hmark : mark = ',' ∨ mark = ':')
    (hds : Closes ds) : Closes (cs ++ mark :: ds) := by
  intro c rest hc
  rw [List.append_assoc, List.cons_append, hcs.normalizeFrom_append_mark _ hmark,
    hcs.normalizeFrom_append_mark _ hmark, hds c rest hc, List.append_assoc, List.cons_append]

end Marks

theorem Closes.intercalate {parts : List (List Char)} (h : ∀ part ∈ parts, Closes part) :
    Closes ([','].intercalate parts) ∧ normalizeFrom .plain ([','].intercalate parts) =
      [','].intercalate (parts.map (normalizeFrom .plain)) := by
  induction parts with
  | nil => exact ⟨.nil, rfl⟩
  | cons part others ih =>
    have hpart : Closes part := h part (by simp)
    obtain ⟨hclosed, hwritten⟩ := ih fun other hother => h other (by simp [hother])
    cases others with
    | nil => simpa using hpart
    | cons other others =>
      have hcomma : ',' = ',' ∨ ',' = ':' := .inl rfl
      have hall := hpart.append_mark hcomma hclosed
      have hwrite := hpart.normalizeFrom_append_mark ([','].intercalate (other :: others)) hcomma
      rw [hwritten] at hwrite
      simpa [List.intercalate_cons_cons] using And.intro hall hwrite

/-- A part that is written the same way before anything. -/
theorem respells_of_written {v : Json} {cs written : List Char}
    (h : ∀ rest, normalizeFrom .plain (cs ++ rest) = written ++ normalizeFrom .plain rest)
    (hwritten : Dialect.document.Renders v written) : Respells v cs := by
  have hall : normalizeFrom .plain cs = written := by
    have hend := h []
    rwa [List.append_nil, normalizeFrom, Context.finish, List.append_nil] at hend
  exact ⟨by rwa [hall], fun c rest _ => by rw [h, hall]⟩

/-- Parts between brackets. -/
theorem normalizeFrom_bracketed {parts : List (List Char)} {blanks : List Char} {start close : Char}
    (h : ∀ part ∈ parts, Closes part) (hblanks : ∀ c ∈ blanks, isBlank c)
    (hbrackets : (start, close) ∈ [('[', ']'), ('\x7b', '\x7d')]) (rest : List Char) :
    normalizeFrom .plain (start :: ([','].intercalate parts ++ (blanks ++ [close])) ++ rest) =
      start :: ([','].intercalate (parts.map (normalizeFrom .plain)) ++ (blanks ++ [close])) ++
        normalizeFrom .plain rest := by
  obtain ⟨hclosed, hwritten⟩ := Closes.intercalate h
  have hstart : Context.step .plain start = ([start], .plain) := by
    rcases List.mem_pair.mp hbrackets with h | h <;> cases h <;> rfl
  have hclose : Context.step .plain close = ([close], .plain) ∧ isWordChar close = false := by
    rcases List.mem_pair.mp hbrackets with h | h <;> cases h <;> exact ⟨rfl, rfl⟩
  simp only [List.cons_append, List.append_assoc, List.nil_append, normalizeFrom_cons, hstart]
  rw [hclosed.before_blanks hblanks hclose.2, hwritten, normalizeFrom_cons, hclose.1]
  rfl

theorem respells_word {w : String} {v : Json} (h : (w, v) ∈ literals.words) : Respells v w.toList := by
  have hword {w : List Char} {v : Json} (document : String)
      (hletters : ∀ rest, normalizeFrom .plain (w ++ rest) = normalizeFrom (.word w.reverse) rest)
      (hrespell : respell w.reverse.reverse = document.toList)
      (hdocument : (document, v) ∈ Dialect.document.words) : Respells v w := by
    have hend : normalizeFrom .plain w = document.toList := by
      have hfinish := hletters []
      rwa [List.append_nil, normalizeFrom, Context.finish, hrespell] at hfinish
    refine ⟨hend ▸ .word hdocument, fun c rest hc => ?_⟩
    rw [hletters, hend, ← hrespell, normalizeFrom_cons]
    simp [Context.step, hc, normalizeFrom_cons]
  simp only [literals, List.mem_cons, Prod.mk.injEq, List.not_mem_nil, or_false] at h
  rcases h with ⟨rfl, rfl⟩ | ⟨rfl, rfl⟩ | ⟨rfl, rfl⟩ | ⟨rfl, rfl⟩ | ⟨rfl, rfl⟩ | ⟨rfl, rfl⟩
  · exact hword "null" (fun _ => rfl) rfl (by simp [Dialect.document])
  · exact hword "null" (fun _ => rfl) rfl (by simp [Dialect.document])
  · exact hword "true" (fun _ => rfl) rfl (by simp [Dialect.document])
  · exact hword "true" (fun _ => rfl) rfl (by simp [Dialect.document])
  · exact hword "false" (fun _ => rfl) rfl (by simp [Dialect.document])
  · exact hword "false" (fun _ => rfl) rfl (by simp [Dialect.document])

theorem respells_number {cs : List Char} {v : Json} (h : numberOfChars cs = some v)
    (hdocument : Dialect.document.Renders v cs) : Respells v cs := by
  obtain ⟨hchars, d, tail, rfl, hd⟩ := isNumeral_of_numberOfChars h
  -- the scan of a numeral takes in all of it
  have hrun : (Scan.mk [] .nothing).run (d :: tail) = some ⟨[], .numeral (tail.reverse ++ [d])⟩ := by
    have htail := Scan.run_numeralChars [] [d] tail [] fun e he => hchars e (by simp [he])
    rw [List.append_nil, Scan.run_nil] at htail
    rw [Scan.run_cons, Scan.step_startsNumeral [] hd, Option.bind_some, htail]
  obtain ⟨written, next, hnext, hwritten, hall⟩ := normalizeFrom_of_run hrun agrees_plain
  have hnext : next.Outside := hnext
  have hwritten : written ++ next.held = d :: tail := hwritten
  have hend : normalizeFrom .plain (d :: tail) = d :: tail := by
    have hfinish := hall []
    rwa [List.append_nil, normalizeFrom, hnext.finish, hwritten] at hfinish
  refine ⟨hend.symm ▸ hdocument, fun c rest hc => ?_⟩
  rw [hall, hend, normalizeFrom_cons next, hnext.step_of_not_wordChar hc, List.append_assoc,
    ← List.append_assoc written, hwritten]
  rfl

theorem respells_text {s : String} {mark : Char} {pieces : List (List Char)}
    (hmark : mark ∈ literals.marks) (h : List.Forall₂ (literals.Writes mark) s.toList pieces) :
    Respells (.text s) (mark :: (pieces.flatten ++ [mark])) := by
  obtain ⟨written, hwritten, hpieces⟩ := exists_pieces_normalized h hmark
  have hopen : Context.step .plain mark = (['"'], .quoted mark) := by
    rcases List.mem_pair.mp hmark with rfl | rfl <;> rfl
  have hclose : Context.step (.quoted mark) mark = (['"'], .plain) := by
    rcases List.mem_pair.mp hmark with rfl | rfl <;> rfl
  refine respells_of_written (fun rest => ?_) (.text (List.mem_singleton.mpr rfl) hwritten)
  rw [List.cons_append, List.append_assoc, normalizeFrom_cons, hopen, hpieces, List.singleton_append,
    List.singleton_append, normalizeFrom_cons, hclose]
  simp

theorem respells_padded {v : Json} {before cs after : List Char} (hbefore : ∀ c ∈ before, isBlank c)
    (hafter : ∀ c ∈ after, isBlank c) (h : Respells v cs) :
    Respells v (before ++ (cs ++ after)) := by
  have hwritten : normalizeFrom .plain (before ++ (cs ++ after)) =
      before ++ (normalizeFrom .plain cs ++ after) := by
    rw [normalizeFrom_blanks hbefore, h.closes.append_blanks hafter]
  refine ⟨hwritten ▸ .padded hbefore hafter h.renders, fun c rest hc => ?_⟩
  rw [hwritten, List.append_assoc, List.append_assoc, normalizeFrom_blanks hbefore,
    h.closes.before_blanks hafter hc]
  simp

theorem respells_list {items : List (Json × List Char)} {blanks : List Char}
    (h : ∀ e ∈ items, Respells e.1 e.2) (hblanks : ∀ c ∈ blanks, isBlank c) :
    Respells (.list (items.map (·.1)))
      ('[' :: ([','].intercalate (items.map (·.2)) ++ (blanks ++ [']']))) := by
  have hclosed : ∀ part ∈ items.map (·.2), Closes part :=
    List.forall_mem_map.mpr fun e he => (h e he).closes
  refine respells_of_written (normalizeFrom_bracketed hclosed hblanks (by simp)) ?_
  have hitems := Dialect.Renders.list (items.map fun e => (e.1, normalizeFrom .plain e.2)) blanks
    (List.forall_mem_map.mpr fun e he => (h e he).renders) hblanks
  simpa [Function.comp_def] using hitems

theorem respells_record {fields : List WrittenField} {blanks : List Char}
    (hnames : ∀ f ∈ fields, Respells (.text f.name) f.nameText)
    (hvalues : ∀ f ∈ fields, Respells f.value f.valueText) (hblanks : ∀ c ∈ blanks, isBlank c) :
    Respells (.record (fields.map fun f => (f.name, f.value)))
      ('\x7b' :: ([','].intercalate (fields.map fun f => f.nameText ++ ':' :: f.valueText)
        ++ (blanks ++ ['\x7d']))) := by
  have hclosed : ∀ part ∈ fields.map fun f => f.nameText ++ ':' :: f.valueText, Closes part :=
    List.forall_mem_map.mpr fun f hf =>
      (hnames f hf).closes.append_mark (.inr rfl) (hvalues f hf).closes
  have hwritten : (fields.map fun f => f.nameText ++ ':' :: f.valueText).map (normalizeFrom .plain) =
      fields.map fun f => normalizeFrom .plain f.nameText ++ ':' :: normalizeFrom .plain f.valueText := by
    rw [List.map_map]
    exact List.map_congr_left fun f hf =>
      (hnames f hf).closes.normalizeFrom_append_mark _ (.inr rfl)
  refine respells_of_written (normalizeFrom_bracketed hclosed hblanks (by simp)) ?_
  have hfields := Dialect.Renders.record (fields.map fun f =>
      ⟨f.name, f.value, normalizeFrom .plain f.nameText, normalizeFrom .plain f.valueText⟩) blanks
    (List.forall_mem_map.mpr fun f hf => (hnames f hf).renders)
    (List.forall_mem_map.mpr fun f hf => (hvalues f hf).renders) hblanks
  rw [hwritten]
  simpa [Function.comp_def] using hfields

theorem respells_of_renders {v : Json} {cs : List Char} (h : literals.Renders v cs) :
    Respells v cs := by
  induction h with
  | word h => exact respells_word h
  | int h => exact respells_number h (.int h)
  | real h => exact respells_number h (.real h)
  | text hmark h => exact respells_text hmark h
  | padded hbefore hafter _ ih => exact respells_padded hbefore hafter ih
  | list _ _ _ hblanks ih => exact respells_list ih hblanks
  | record _ _ _ _ hblanks ihnames ihvalues => exact respells_record ihnames ihvalues hblanks

theorem read_normalize {v : Json} {source : String} (h : literals.Renders v source.toList) :
    Json.read (normalize source) = some v :=
  read_of_renders (respells_of_renders h).renders

/-- A text between such marks with no more escapes than it needs. -/
def protectedChars (mark : Char) (s : List Char) : List Char :=
  mark :: (s.flatMap (fun c => if c = '\\' ∨ c = mark then ['\\', c] else [c]) ++ [mark])

theorem renders_protectedChars {s : String} {mark : Char} (hmark : mark = '"' ∨ mark = '\'')
    (h : ∀ c ∈ s.toList, 0x20 ≤ c.toNat) : literals.Renders (.text s) (protectedChars mark s.toList) := by
  have hpiece : ∀ c ∈ s.toList,
      literals.Writes mark c (if c = '\\' ∨ c = mark then ['\\', c] else [c]) := by
    intro c hc
    split_ifs with hescape
    · refine .letter ?_
      rcases hescape with rfl | rfl
      · simp [literals, Dialect.document]
      · rcases hmark with rfl | rfl <;> simp [literals, Dialect.document]
    · exact .raw (h c hc) (fun hback => hescape (.inl hback)) fun hm => hescape (.inr hm)
  have hpieces : List.Forall₂ (literals.Writes mark) s.toList
      (s.toList.map fun c => if c = '\\' ∨ c = mark then ['\\', c] else [c]) :=
    List.forall₂_map_right_iff.mpr (List.forall₂_same.mpr hpiece)
  simpa [protectedChars, List.flatMap_def] using .text (List.mem_pair.mpr hmark) hpieces

/-- Normalization keeps the value of a literal. Every spelling of a value becomes a document of it;
a text keeps words, quotes of the other kind and backslashes as its content; and a document is
left as it is. -/
theorem normalize_keeps_value :
    (∀ (v : Json) (source : String), literals.Renders v source.toList →
      Dialect.document.Renders v (normalize source).toList ∧
        Json.read (normalize source) = some v) ∧
    (∀ (s : String) (mark : Char), mark = '"' ∨ mark = '\'' → (∀ c ∈ s.toList, 0x20 ≤ c.toNat) →
      Json.read (normalize (String.ofList (protectedChars mark s.toList))) = some (.text s)) ∧
    ∀ source : String, (Json.read source).isSome → normalize source = source := by
  refine ⟨fun v source h => ⟨?_, read_normalize h⟩, fun s mark hmark h => ?_, fun source h => ?_⟩
  · rw [normalize, String.toList_ofList]
    exact (respells_of_renders h).renders
  · refine read_normalize ?_
    rw [String.toList_ofList]
    exact renders_protectedChars hmark h
  · obtain ⟨v, hv⟩ := Option.isSome_iff_exists.mp h
    exact normalize_of_read hv

theorem normalize_keeps_value_apostrophe :
    let source := "\x7b 'it\\'s \"True\"' : [True, None ,-3] ,\"\\u0041\": 'None' \x7d"
    let document := Json.record [("it's \"True\"", .list [.bool true, .null, .int (-3)]),
      ("A", .text "None")]
    literals.Renders document source.toList ∧ Json.read (normalize source) = some document ∧
      normalize (normalize source) = normalize source := by
  intro source document
  have hblank : ∀ c ∈ [' '], isBlank c := by simp [isBlank]
  have hpadded {v : Json} {cs : List Char} (h : literals.Renders v cs) :
      literals.Renders v ([' '] ++ (cs ++ [' '])) := .padded hblank hblank h
  have hname : literals.Renders (.text "it's \"True\"") "'it\\'s \"True\"'".toList :=
    renders_protectedChars (.inr rfl) (by simp)
  have hcode : EscapesCode 'A'.toNat "\\u0041".toList :=
    .mk (i := 0) (j := 0) (k := 4) (l := 1) ⟨by decide, .inl rfl⟩ ⟨by decide, .inl rfl⟩
      ⟨by decide, .inl rfl⟩ ⟨by decide, .inl rfl⟩
  have hkey : literals.Renders (.text "A") "\"\\u0041\"".toList :=
    @Dialect.Renders.text _ "A" '"' ["\\u0041".toList] (List.mem_pair.mpr (.inl rfl))
      (.cons (.code hcode) .nil)
  have hword : literals.Renders (.text "None") "'None'".toList :=
    renders_protectedChars (.inr rfl) (by simp)
  have htrue : literals.Renders (.bool true) "True".toList := .word (by simp [literals])
  have hnone : literals.Renders .null "None".toList := .word (by simp [literals])
  have hint : literals.Renders (.int (-3)) "-3".toList := by
    have hchars : "-3".toList = intChars (-3) := rfl
    exact .int (hchars ▸ numberOfChars_intChars (by decide) (by decide))
  have hlist : literals.Renders (.list [.bool true, .null, .int (-3)]) "[True, None ,-3]".toList :=
    .list [(.bool true, "True".toList), (.null, " None ".toList), (.int (-3), "-3".toList)] []
      (by simpa using ⟨htrue, hpadded hnone, hint⟩) (by simp)
  have hsource : literals.Renders document source.toList := by
    have hrecord := @Dialect.Renders.record literals
      [⟨"it's \"True\"", .list [.bool true, .null, .int (-3)], " 'it\\'s \"True\"' ".toList,
          " [True, None ,-3] ".toList⟩,
        ⟨"A", .text "None", "\"\\u0041\"".toList, " 'None' ".toList⟩] []
      (by simpa using ⟨hpadded hname, hkey⟩) (by simpa using ⟨hpadded hlist, hpadded hword⟩) (by simp)
    simpa [document, source, List.intercalate_cons_cons] using hrecord
  have hread := (normalize_keeps_value.1 document source hsource).2
  exact ⟨hsource, hread, normalize_keeps_value.2.2 _ (by rw [hread]; rfl)⟩

end QuantumKernels.Wire
