import QuantumKernels.Proofs.Json.Document

/-!
# Documents written on lines

Line ends and the blanks that set a line off stand around the parts of a document, so the form with
a line for each item is a spelling of the same value as the compact one.
-/
namespace QuantumKernels.Json

theorem isBlank_of_mem_lineBreak {level : ℕ} {c : Char} (h : c ∈ lineBreak level) : isBlank c := by
  rcases List.mem_cons.mp h with rfl | h
  · rfl
  · obtain rfl := List.eq_of_mem_replicate h
    rfl

theorem Dialect.Renders.after_blanks {d : Dialect} {v : Json} {blanks cs : List Char}
    (hblanks : ∀ c ∈ blanks, isBlank c) (h : d.Renders v cs) : d.Renders v (blanks ++ cs) := by
  simpa using @Renders.padded d v blanks cs [] hblanks (by simp) h

theorem Dialect.Renders.on_line {d : Dialect} {v : Json} {cs : List Char} (h : d.Renders v cs)
    (level : ℕ) : d.Renders v (lineBreak level ++ cs) :=
  .after_blanks (fun _ => isBlank_of_mem_lineBreak) h

theorem itemLines_eq (level : ℕ) (items : List Json) :
    prettyChars.itemLines level items =
      items.flatMap fun v => ',' :: (lineBreak level ++ v.prettyChars level) := by
  induction items with
  | nil => rfl
  | cons v others ih => simp [prettyChars.itemLines, ih]

theorem fieldLines_eq (level : ℕ) (fields : List (String × Json)) :
    prettyChars.fieldLines level fields = fields.flatMap fun e =>
      ',' :: ((lineBreak level ++ quoteChars e.1.toList) ++ ':' :: ' ' :: e.2.prettyChars level) := by
  induction fields with
  | nil => rfl
  | cons e others ih => simp [prettyChars.fieldLines, ih]

section

variable (reads : Json → Json) (level : ℕ)

theorem renders_list_prettyChars (items : List Json)
    (h : ∀ v ∈ items, Dialect.document.Renders (reads v) (v.prettyChars (level + 1))) :
    Dialect.document.Renders (.list (items.map reads)) ((Json.list items).prettyChars level) := by
  cases items with
  | nil => exact .list [] [] (by simp) (by simp)
  | cons v others =>
    have hitems := Dialect.Renders.list_map reads _ (lineBreak level)
      (fun w hw => (h w hw).on_line (level + 1)) fun _ => isBlank_of_mem_lineBreak
    simpa [prettyChars, itemLines_eq, intercalate_singleton_cons, List.flatMap_map] using hitems

theorem renders_record_prettyChars (fields : List (String × Json))
    (h : ∀ e ∈ fields, Dialect.document.Renders (reads e.2) (e.2.prettyChars (level + 1))) :
    Dialect.document.Renders (.record (fields.map fun e => (e.1, reads e.2)))
      ((Json.record fields).prettyChars level) := by
  cases fields with
  | nil => exact .record [] [] (by simp) (by simp) (by simp)
  | cons e others =>
    have hname (k : String) := (renders_quoteChars k).on_line (level + 1)
    have hfields := Dialect.Renders.record_map reads _ (fun v => [' '] ++ v.prettyChars (level + 1))
      (lineBreak level) hname (fun f hf => .after_blanks (by simp [isBlank]) (h f hf))
      fun _ => isBlank_of_mem_lineBreak
    simpa [prettyChars, fieldLines_eq, intercalate_singleton_cons, List.flatMap_map] using hfields

end

/-- The form on lines of a legible value is a spelling of it, on whichever level it stands. -/
theorem renders_prettyChars {v : Json} (h : Legible v) (level : ℕ) :
    Dialect.document.Renders v (v.prettyChars level) := by
  induction h generalizing level with
  | null => exact .word (w := "null") (by simp [Dialect.document])
  | bool b => cases b <;> exact .word (by simp [Dialect.document])
  | int low high => exact .int (numberOfChars_intChars low high)
  | real h => exact .real h
  | text s => exact renders_quoteChars s
  | list _ ih =>
    have hlist := renders_list_prettyChars id level _ fun v hv => ih v hv (level + 1)
    simpa using hlist
  | record _ ih =>
    have hrecord := renders_record_prettyChars id level _ fun e he => ih e he (level + 1)
    simpa using hrecord

theorem read_pretty {v : Json} (h : Legible v) : read v.pretty = some v :=
  read_of_renders (renders_prettyChars h 0)

end QuantumKernels.Json
