import QuantumKernels.Proofs.Yaml.Parsing
import QuantumKernels.Proofs.Yaml.Scanning
import QuantumKernels.Proofs.Json.FiniteReal

/-!
# Documents as YAML texts

The compact form of a document is a YAML text as well. Its tokens follow the document, part by part, and so
does the node they are parsed as. What has to be asked of the document is that its texts are made of characters
that come through quotes, and that none of its names is longer than a key may be.
-/
namespace QuantumKernels.Json

open Yaml

/-- A name that can be a key. -/
structure IsKey (name : String) : Prop where
  plain : ∀ c ∈ name.toList, isPlainChar c = true
  short : (quoteChars name.toList).length ≤ 1024

/-- The document can be written as a YAML text. -/
inductive Portable : Json → Prop
  | null : Portable .null
  | bool (b : Bool) : Portable (.bool b)
  | int (n : ℤ) : Portable (.int n)
  | real (x : Float) : Portable (.real x)
  | text {s : String} (h : ∀ c ∈ s.toList, isPlainChar c = true) : Portable (.text s)
  | list {items : List Json} (h : ∀ v ∈ items, Portable v) : Portable (.list items)
  | record {fields : List (String × Json)} (hnames : ∀ e ∈ fields, IsKey e.1) (h : ∀ e ∈ fields, Portable e.2) :
      Portable (.record fields)

/-- The node of a document. -/
def toNode : Json → Node
  | list items => .list (itemNodes items)
  | record fields => .record (fieldNodes fields)
  | text s => .scalar s false
  | v => .scalar v.compact true
where
  itemNodes : List Json → List Node
    | [] => []
    | v :: rest => v.toNode :: itemNodes rest
  fieldNodes : List (String × Json) → List (Node × Node)
    | [] => []
    | (k, v) :: rest => (.scalar k false, v.toNode) :: fieldNodes rest

/-- The comma before an item that is not the first. -/
def commaTokens (first : Bool) : List Yaml.Token := if first then [] else [.comma]

/-- The tokens of a document. -/
def yamlTokens : Json → List Yaml.Token
  | list items => .openList :: (itemYamlTokens true items ++ [.closeList])
  | record fields => .openRecord :: (fieldYamlTokens true fields ++ [.closeRecord])
  | text s => [.scalar s false]
  | v => [.scalar v.compact true]
where
  itemYamlTokens (first : Bool) : List Json → List Yaml.Token
    | [] => []
    | v :: rest => commaTokens first ++ (v.yamlTokens ++ itemYamlTokens false rest)
  fieldYamlTokens (first : Bool) : List (String × Json) → List Yaml.Token
    | [] => []
    | (k, v) :: rest =>
      commaTokens first ++ (.key :: .scalar k false :: .value :: (v.yamlTokens ++ fieldYamlTokens false rest))

end QuantumKernels.Json

namespace QuantumKernels.Yaml

open Scan Json

/-- A text that is scanned to these tokens wherever a value may stand inside brackets. -/
def Spells (cs : List Char) (ts : List Token) : Prop :=
  ∀ ⦃s : Scan⦄ ⦃depth : ℕ⦄ ⦃before : List Token⦄, s.Stands depth before → 0 < depth →
    ∃ s' : Scan, s'.Stands depth (before ++ ts) ∧
      ∀ c ∈ [',', ']', '}'], ∀ rest, s.readAll (cs ++ c :: rest) = s'.readAll (c :: rest)

theorem spells_quote {s : String} (h : ∀ c ∈ s.toList, isPlainChar c = true) :
    Spells (quoteChars s.toList) [.scalar s false] := by
  intro s₀ depth before hs _
  obtain ⟨s', hs', -, -, -, hread⟩ := readAll_quote hs h
  rw [String.ofList_toList] at hs'
  exact ⟨s', hs', fun c _ rest => hread (c :: rest)⟩

/-! ## Words -/

/-- A text that is scanned as one plain scalar. -/
structure IsWord (cs : List Char) : Prop where
  ne_nil : cs ≠ []
  chars : ∀ c ∈ cs, isWordChar c = true

theorem IsWord.spells {cs : List Char} (h : IsWord cs) : Spells cs [.scalar (String.ofList cs) true] :=
  fun _ _ _ hs hdepth => readAll_word hs hdepth h.ne_nil h.chars

theorem isWordChar_of_isDigit {c : Char} (h : c.isDigit) : isWordChar c = true := by
  simp [isWordChar, Char.isAlphanum, h]

theorem isWordChar_of_isNumeralChar {c : Char} (h : isNumeralChar c) : isWordChar c = true := by
  simp only [isNumeralChar, Bool.or_eq_true] at h
  rcases h with h | h
  · exact isWordChar_of_isDigit h
  · have hall : ['+', '-', '.', 'e', 'E'].all isWordChar = true := rfl
    exact List.all_eq_true.mp hall c (List.contains_iff_mem.mp h)

theorem isWord_null : IsWord null.compactChars := by
  have hletters : null.compactChars.all isWordChar = true := rfl
  exact ⟨List.cons_ne_nil _ _, List.all_eq_true.mp hletters⟩

theorem isWord_bool (b : Bool) : IsWord (bool b).compactChars := by
  have hletters : (bool b).compactChars.all isWordChar = true := by
    cases b <;> rfl
  refine ⟨?_, List.all_eq_true.mp hletters⟩
  cases b <;> exact List.cons_ne_nil _ _

theorem isWord_int (n : ℤ) : IsWord (int n).compactChars := by
  cases n with
  | ofNat n => exact ⟨Nat.toDigits_ne_nil, fun c hc => isWordChar_of_isDigit (isDigit_of_mem_toDigits hc)⟩
  | negSucc n =>
    refine ⟨List.cons_ne_nil _ _, fun c hc => ?_⟩
    rcases List.mem_cons.mp hc with rfl | hc
    · rfl
    · exact isWordChar_of_isDigit (isDigit_of_mem_toDigits hc)

theorem isWord_real (x : Float) : IsWord (real x).compactChars := by
  by_cases hx : x.isFinite = true
  · obtain ⟨y, hy⟩ := exists_numberOfChars_realChars hx
    obtain ⟨hchars, c, rest, hcs, -⟩ := isNumeral_of_numberOfChars hy
    refine ⟨?_, fun d hd => isWordChar_of_isNumeralChar (hchars d hd)⟩
    rw [compactChars, hcs]
    exact List.cons_ne_nil c rest
  · have hchars : (real x).compactChars = null.compactChars := by
      change realChars x = _
      rw [realChars, if_neg hx]
      rfl
    rw [hchars]
    exact isWord_null

/-! ## Items and fields -/

/-- What comes after an item: a comma, or the end. -/
theorem exists_itemChars (items : List Json) (close : Char) (hclose : close ∈ [',', ']', '}']) (rest : List Char) :
    ∃ c ∈ [',', ']', '}'], ∃ cs, compactChars.itemChars false items ++ close :: rest = c :: cs := by
  cases items with
  | nil => exact ⟨close, hclose, rest, rfl⟩
  | cons v items => exact ⟨',', by decide, _, rfl⟩

theorem exists_fieldChars (fields : List (String × Json)) (close : Char) (hclose : close ∈ [',', ']', '}'])
    (rest : List Char) :
    ∃ c ∈ [',', ']', '}'], ∃ cs, compactChars.fieldChars false fields ++ close :: rest = c :: cs := by
  cases fields with
  | nil => exact ⟨close, hclose, rest, rfl⟩
  | cons e fields => exact ⟨',', by decide, _, rfl⟩

/-- The scan at the place of an item: a comma stands before all but the first. -/
theorem readAll_separator {s : Scan} {depth : ℕ} {before : List Token} (hs : s.Stands depth before) (first : Bool)
    (hallowed : first = true → s.keyAllowed = true) :
    ∃ s' : Scan, s'.Stands depth (before ++ commaTokens first) ∧ s'.keyAllowed = true ∧
      ∀ rest, s.readAll (separator first ++ rest) = s'.readAll rest := by
  cases first with
  | true =>
    refine ⟨s, ?_, hallowed rfl, fun rest => rfl⟩
    rwa [commaTokens, if_pos rfl, List.append_nil]
  | false => exact readAll_comma hs

theorem readAll_items {items : List Json} (h : ∀ v ∈ items, Spells v.compactChars v.yamlTokens) {s : Scan} {depth : ℕ}
    {before : List Token} (hs : s.Stands depth before) (hdepth : 0 < depth) (first : Bool)
    (hallowed : first = true → s.keyAllowed = true) :
    ∃ s' : Scan, s'.Stands depth (before ++ yamlTokens.itemYamlTokens first items) ∧
      ∀ rest, s.readAll (compactChars.itemChars first items ++ ']' :: rest) = s'.readAll (']' :: rest) := by
  induction items generalizing s before first with
  | nil =>
    refine ⟨s, ?_, fun rest => rfl⟩
    rwa [yamlTokens.itemYamlTokens, List.append_nil]
  | cons v items ih =>
    obtain ⟨s₁, hs₁, -, hseparator⟩ := readAll_separator hs first hallowed
    obtain ⟨hv, hrest⟩ := List.forall_mem_cons.mp h
    obtain ⟨s₂, hs₂, hvalue⟩ := hv hs₁ hdepth
    obtain ⟨s₃, hs₃, hitems⟩ := ih hrest hs₂ false nofun
    refine ⟨s₃, ?_, fun rest => ?_⟩
    · rw [List.append_assoc, List.append_assoc] at hs₃
      exact hs₃
    · obtain ⟨c, hc, cs, hrest⟩ := exists_itemChars items ']' (by decide) rest
      have hnext := hitems rest
      rw [compactChars.itemChars, List.append_assoc, List.append_assoc, hseparator]
      rw [hrest] at hnext ⊢
      rw [hvalue c hc cs, hnext]

theorem readAll_fields {fields : List (String × Json)} (hnames : ∀ e ∈ fields, IsKey e.1)
    (h : ∀ e ∈ fields, Spells e.2.compactChars e.2.yamlTokens) {s : Scan} {depth : ℕ}
    {before : List Token} (hs : s.Stands depth before) (hdepth : 0 < depth) (first : Bool)
    (hallowed : first = true → s.keyAllowed = true) :
    ∃ s' : Scan, s'.Stands depth (before ++ yamlTokens.fieldYamlTokens first fields) ∧
      ∀ rest, s.readAll (compactChars.fieldChars first fields ++ '}' :: rest) = s'.readAll ('}' :: rest) := by
  induction fields generalizing s before first with
  | nil =>
    refine ⟨s, ?_, fun rest => rfl⟩
    rwa [yamlTokens.fieldYamlTokens, List.append_nil]
  | cons e fields ih =>
    obtain ⟨k, v⟩ := e
    obtain ⟨s₁, hs₁, hkey, hseparator⟩ := readAll_separator hs first hallowed
    obtain ⟨hk, hnames⟩ := List.forall_mem_cons.mp hnames
    obtain ⟨hv, hrest⟩ := List.forall_mem_cons.mp h
    obtain ⟨s₂, hs₂, hcolon⟩ := readAll_key hs₁ hdepth hkey hk.plain hk.short
    obtain ⟨s₃, hs₃, hvalue⟩ := hv hs₂ hdepth
    obtain ⟨s₄, hs₄, hfields⟩ := ih hnames hrest hs₃ false nofun
    refine ⟨s₄, ?_, fun rest => ?_⟩
    · rw [String.ofList_toList] at hs₄
      simpa [yamlTokens.fieldYamlTokens] using hs₄
    · obtain ⟨c, hc, cs, hrest⟩ := exists_fieldChars fields '}' (by decide) rest
      have hnext := hfields rest
      rw [compactChars.fieldChars, List.append_assoc, List.append_assoc, List.cons_append, List.append_assoc,
        hseparator, hcolon]
      rw [hrest] at hnext ⊢
      rw [hvalue c hc cs, hnext]

theorem readAll_list {items : List Json} (h : ∀ v ∈ items, Spells v.compactChars v.yamlTokens) {s : Scan} {depth : ℕ}
    {before : List Token} (hs : s.Stands depth before) :
    ∃ s' : Scan, s'.Stands depth (before ++ (list items).yamlTokens) ∧
      ∀ rest, s.readAll ((list items).compactChars ++ rest) = s'.readAll rest := by
  rw [yamlTokens, compactChars]
  exact readAll_bracketed .list hs fun s₁ hs₁ hkey => readAll_items h hs₁ (Nat.succ_pos depth) true fun _ => hkey

theorem readAll_record {fields : List (String × Json)} (hnames : ∀ e ∈ fields, IsKey e.1)
    (h : ∀ e ∈ fields, Spells e.2.compactChars e.2.yamlTokens) {s : Scan} {depth : ℕ} {before : List Token}
    (hs : s.Stands depth before) :
    ∃ s' : Scan, s'.Stands depth (before ++ (record fields).yamlTokens) ∧
      ∀ rest, s.readAll ((record fields).compactChars ++ rest) = s'.readAll rest := by
  rw [yamlTokens, compactChars]
  exact readAll_bracketed .record hs fun s₁ hs₁ hkey =>
    readAll_fields hnames h hs₁ (Nat.succ_pos depth) true fun _ => hkey

/-- Every document is spelled by its compact form. -/
theorem spells_compactChars {v : Json} (hv : v.Portable) : Spells v.compactChars v.yamlTokens := by
  induction hv with
  | null => exact isWord_null.spells
  | bool b => exact (isWord_bool b).spells
  | int n => exact (isWord_int n).spells
  | real x => exact (isWord_real x).spells
  | text h => exact spells_quote h
  | list _ ih =>
    intro s depth before hs _
    obtain ⟨s', hs', hread⟩ := readAll_list ih hs
    exact ⟨s', hs', fun c _ rest => hread (c :: rest)⟩
  | record hnames _ ih =>
    intro s depth before hs _
    obtain ⟨s', hs', hread⟩ := readAll_record hnames ih hs
    exact ⟨s', hs', fun c _ rest => hread (c :: rest)⟩

/-! ## Whole texts -/

/-- A character that may stand in a text and is no break of another kind. -/
def isCleanChar (c : Char) : Bool := isPrintable c && c ≠ '\r' && c ≠ '\u0085'

theorem isCleanChar_of_ascii {c : Char} (hlow : ' ' ≤ c) (hhigh : c ≤ '~') : isCleanChar c = true := by
  have hreturn : c ≠ '\r' := by
    rintro rfl
    exact absurd hlow (by decide)
  have hnext : c ≠ '\u0085' := by
    rintro rfl
    exact absurd hhigh (by decide)
  simp [isCleanChar, isPrintable, hlow, hhigh, hreturn, hnext]

theorem isCleanChar_of_isWordChar {c : Char} (h : isWordChar c = true) : isCleanChar c = true := by
  simp only [isWordChar, Bool.or_eq_true] at h
  rcases h with h | h
  · have hbetween (low high : Char) (hlow : ' ' ≤ low) (hhigh : high ≤ '~')
        (hc : c.val ≥ low.val ∧ c.val ≤ high.val) : isCleanChar c = true :=
      isCleanChar_of_ascii (Char.le_trans hlow hc.1) (Char.le_trans hc.2 hhigh)
    simp only [Char.isAlphanum, Char.isAlpha, Char.isUpper, Char.isLower, Char.isDigit, Bool.or_eq_true,
      Bool.and_eq_true, decide_eq_true_eq] at h
    rcases h with (h | h) | h
    · exact hbetween 'A' 'Z' (by decide) (by decide) h
    · exact hbetween 'a' 'z' (by decide) (by decide) h
    · exact hbetween '0' '9' (by decide) (by decide) h
  · have hall : ['+', '-', '.'].all isCleanChar = true := rfl
    exact List.all_eq_true.mp hall c (List.contains_iff_mem.mp h)

theorem isCleanChar_hexDigit : ∀ n < 16, isCleanChar (hexDigit n) = true := by decide

theorem isCleanChar_of_mem_escapeChar {c d : Char} (hc : isPlainChar c = true) (hd : d ∈ escapeChar c) :
    isCleanChar d = true := by
  have hescape {letter : Char} (hletter : isCleanChar letter = true) (hd : d ∈ ['\\', letter]) :
      isCleanChar d = true := by
    rcases List.mem_pair.mp hd with rfl | rfl
    · rfl
    · exact hletter
  rw [escapeChar] at hd
  split_ifs at hd with hquote hback hb hf hn hr ht hcontrol
  iterate 7 exact hescape rfl hd
  · simp only [List.mem_cons, List.not_mem_nil, or_false] at hd
    rcases hd with rfl | rfl | rfl | rfl | rfl | rfl
    iterate 4 rfl
    · exact isCleanChar_hexDigit _ (by omega)
    · exact isCleanChar_hexDigit _ (by omega)
  · obtain rfl : d = c := List.mem_singleton.mp hd
    simp only [isPlainChar, hcontrol, decide_false, Bool.false_or, Bool.and_eq_true, decide_eq_true_eq] at hc
    simp [isCleanChar, hc.1.1, hc.2, hr]

theorem isCleanChar_of_mem_quoteChars {cs : List Char} (hcs : ∀ c ∈ cs, isPlainChar c = true) {d : Char}
    (hd : d ∈ quoteChars cs) : isCleanChar d = true := by
  simp only [quoteChars, List.cons_append, List.mem_cons, List.mem_append, List.mem_flatMap, List.not_mem_nil,
    or_false] at hd
  rcases hd with rfl | ⟨c, hc, hd⟩ | rfl
  · rfl
  · exact isCleanChar_of_mem_escapeChar (hcs c hc) hd
  · rfl

theorem unifyBreaks_eq {cs : List Char} (h : ∀ c ∈ cs, isCleanChar c = true) : unifyBreaks cs = cs := by
  have hne : ∀ c ∈ cs, c ≠ '\r' ∧ c ≠ '\u0085' := by
    intro c hc
    have hclean := h c hc
    simp only [isCleanChar, Bool.and_eq_true, decide_eq_true_eq] at hclean
    exact ⟨hclean.1.2, hclean.2⟩
  fun_induction unifyBreaks cs with
  | case1 rest ih => exact absurd rfl (hne '\r' (by simp)).1
  | case2 c rest hfeed ih =>
    obtain ⟨hreturn, hnext⟩ := hne c (by simp)
    rw [if_neg (by simp [hreturn, hnext]), ih (fun d hd => h d (by simp [hd])) fun d hd => hne d (by simp [hd])]
  | case3 => rfl

theorem isCleanChar_itemChars {items : List Json} (h : ∀ v ∈ items, ∀ c ∈ v.compactChars, isCleanChar c = true)
    (first : Bool) : ∀ c ∈ compactChars.itemChars first items, isCleanChar c = true := by
  induction items generalizing first with
  | nil => exact nofun
  | cons v items ih =>
    obtain ⟨hv, hrest⟩ := List.forall_mem_cons.mp h
    have hitems := ih hrest false
    intro c hc
    rw [compactChars.itemChars, List.mem_append, List.mem_append] at hc
    rcases hc with hc | hc | hc
    · cases first with
      | true => cases hc
      | false =>
        obtain rfl : c = ',' := List.mem_singleton.mp hc
        rfl
    · exact hv c hc
    · exact hitems c hc

theorem isCleanChar_fieldChars {fields : List (String × Json)} (hnames : ∀ e ∈ fields, IsKey e.1)
    (h : ∀ e ∈ fields, ∀ c ∈ e.2.compactChars, isCleanChar c = true) (first : Bool) :
    ∀ c ∈ compactChars.fieldChars first fields, isCleanChar c = true := by
  induction fields generalizing first with
  | nil => exact nofun
  | cons e fields ih =>
    obtain ⟨k, v⟩ := e
    obtain ⟨hk, hnames⟩ := List.forall_mem_cons.mp hnames
    obtain ⟨hv, hrest⟩ := List.forall_mem_cons.mp h
    have hfields := ih hnames hrest false
    intro c hc
    rw [compactChars.fieldChars, List.mem_append, List.mem_append, List.mem_cons, List.mem_append] at hc
    rcases hc with hc | hc | rfl | hc | hc
    · cases first with
      | true => cases hc
      | false =>
        obtain rfl : c = ',' := List.mem_singleton.mp hc
        rfl
    · exact isCleanChar_of_mem_quoteChars hk.plain hc
    · rfl
    · exact hv c hc
    · exact hfields c hc

theorem isCleanChar_compactChars {v : Json} (hv : v.Portable) : ∀ c ∈ v.compactChars, isCleanChar c = true := by
  have hbrackets : ['[', ']', '{', '}'].all isCleanChar = true := rfl
  have hbracket {c : Char} (hc : c ∈ ['[', ']', '{', '}']) : isCleanChar c = true := List.all_eq_true.mp hbrackets c hc
  induction hv with
  | null => exact fun c hc => isCleanChar_of_isWordChar (isWord_null.chars c hc)
  | bool b => exact fun c hc => isCleanChar_of_isWordChar ((isWord_bool b).chars c hc)
  | int n => exact fun c hc => isCleanChar_of_isWordChar ((isWord_int n).chars c hc)
  | real x => exact fun c hc => isCleanChar_of_isWordChar ((isWord_real x).chars c hc)
  | text h => exact fun c hc => isCleanChar_of_mem_quoteChars h hc
  | list _ ih =>
    intro c hc
    rw [compactChars, List.mem_cons, List.mem_append, List.mem_singleton] at hc
    rcases hc with rfl | hc | rfl
    · exact hbracket (by simp)
    · exact isCleanChar_itemChars ih true c hc
    · exact hbracket (by simp)
  | record hnames _ ih =>
    intro c hc
    rw [compactChars, List.mem_cons, List.mem_append, List.mem_singleton] at hc
    rcases hc with rfl | hc | rfl
    · exact hbracket (by simp)
    · exact isCleanChar_fieldChars hnames ih true c hc
    · exact hbracket (by simp)

theorem Scan.Stands.finish {s : Scan} {depth : ℕ} {ts : List Token} (h : s.Stands depth ts) : s.finish = some ts := by
  rw [Scan.finish, h.part]
  simp [h.endBlocks, h.dropKey, Scan.withKeys, h.tokens]

theorem Scan.stands_start : ({} : Scan).Stands 0 [] where
  part := rfl
  skip := rfl
  columns := rfl
  tokens := rfl
  nested := rfl
  optional k hk := by
    cases List.mem_singleton.mp hk
  column hdepth := absurd hdepth (Nat.lt_irrefl 0)

theorem tokens_of_readAll {cs : List Char} {ts : List Token} {s : Scan} (hhead : cs.head? = some '[' ∨ cs.head? = some '{')
    (hclean : ∀ c ∈ cs, isCleanChar c = true) (hs : s.Stands 0 ts)
    (hread : ∀ rest, ({} : Scan).readAll (cs ++ rest) = s.readAll rest) : tokens (String.ofList cs) = some ts := by
  have hwhole : tokens (String.ofList cs) = if (unifyBreaks cs).all isPrintable then
      (({} : Scan).readAll (unifyBreaks cs)).bind Scan.finish else none := by
    -- neither bracket is the mark of the byte order
    rcases hhead with hhead | hhead
    · obtain ⟨rest, rfl⟩ := List.head?_eq_some_iff.mp hhead
      rw [tokens, String.toList_ofList]
      rfl
    · obtain ⟨rest, rfl⟩ := List.head?_eq_some_iff.mp hhead
      rw [tokens, String.toList_ofList]
      rfl
  have hall : cs.all isPrintable = true := by
    refine List.all_eq_true.mpr fun c hc => ?_
    have hc := hclean c hc
    simp only [isCleanChar, Bool.and_eq_true] at hc
    exact hc.1.1
  have hend := hread []
  rw [List.append_nil] at hend
  rw [hwhole, unifyBreaks_eq hclean, if_pos hall, hend]
  exact hs.finish

/-- A list or a record is scanned to its tokens. -/
theorem tokens_list {items : List Json} (h : ∀ v ∈ items, v.Portable) :
    tokens (list items).compact = some (list items).yamlTokens := by
  obtain ⟨s, hs, hread⟩ := readAll_list (fun v hv => spells_compactChars (h v hv)) Scan.stands_start
  exact tokens_of_readAll (.inl rfl) (isCleanChar_compactChars (.list h)) hs hread

theorem tokens_record {fields : List (String × Json)} (h : (record fields).Portable) :
    tokens (record fields).compact = some (record fields).yamlTokens := by
  cases h with
  | record hnames h =>
    obtain ⟨s, hs, hread⟩ := readAll_record hnames (fun e he => spells_compactChars (h e he)) Scan.stands_start
    exact tokens_of_readAll (.inr rfl) (isCleanChar_compactChars (.record hnames h)) hs hread

/-! ## The node -/

theorem writes_items {items : List Json} (h : ∀ v ∈ items, Writes (.node .flow) v.yamlTokens v.toNode) :
    Writes .flowItems (yamlTokens.itemYamlTokens true items ++ [.closeList]) (.list (toNode.itemNodes items)) := by
  cases items with
  | nil => exact .flowItemsEnd
  | cons v items =>
    obtain ⟨hv, hitems⟩ := List.forall_mem_cons.mp h
    induction items generalizing v with
    | nil => simpa [yamlTokens.itemYamlTokens, commaTokens, toNode.itemNodes] using Writes.flowItemsLast (.flowItem hv)
    | cons w items ih =>
      obtain ⟨hw, hrest⟩ := List.forall_mem_cons.mp hitems
      have hmore := Writes.flowItemsMore (.flowItem hv) (ih w hitems hw hrest)
      simpa [yamlTokens.itemYamlTokens, commaTokens, toNode.itemNodes] using hmore

theorem writes_field {e : String × Json} (h : Writes (.node .flow) e.2.yamlTokens e.2.toNode) :
    Writes .flowEntry (.key :: .scalar e.1 false :: .value :: e.2.yamlTokens)
      (.record [(.scalar e.1 false, e.2.toNode)]) :=
  .pairEntry (.pair (.filled (.scalar e.1 false)) (.someValue (.filled h)))

theorem writes_fields {fields : List (String × Json)}
    (h : ∀ e ∈ fields, Writes (.node .flow) e.2.yamlTokens e.2.toNode) :
    Writes .flowEntries (yamlTokens.fieldYamlTokens true fields ++ [.closeRecord]) (.record (toNode.fieldNodes fields)) := by
  cases fields with
  | nil => exact .flowEntriesEnd
  | cons e fields =>
    obtain ⟨he, hfields⟩ := List.forall_mem_cons.mp h
    induction fields generalizing e with
    | nil =>
      simpa [yamlTokens.fieldYamlTokens, commaTokens, toNode.fieldNodes] using Writes.flowEntriesLast (writes_field he)
    | cons d fields ih =>
      obtain ⟨hd, hrest⟩ := List.forall_mem_cons.mp hfields
      have hmore := Writes.flowEntriesMore (writes_field he) (ih d hfields hd hrest)
      simpa [yamlTokens.fieldYamlTokens, commaTokens, toNode.fieldNodes] using hmore

/-- The tokens of a document are written for its node. -/
theorem writes_toNode {v : Json} (hv : v.Portable) (p : Place) : Writes (.node p) v.yamlTokens v.toNode := by
  induction hv generalizing p with
  | list _ ih => exact .flowList (writes_items fun v hv => ih v hv .flow)
  | record _ _ ih => exact .flowRecord (writes_fields fun e he => ih e he .flow)
  | _ => exact .scalar _ _

theorem read_of_tokens {v : Json} (hv : v.Portable) (h : tokens v.compact = some v.yamlTokens) :
    Node.read v.compact = some v.toNode := by
  have hdocument : Document (v.yamlTokens ++ List.replicate 0 .documentEnd) v.toNode := .bare (writes_toNode hv .block) 0
  rw [List.replicate_zero, List.append_nil] at hdocument
  rw [Node.read, h, Option.bind_some]
  exact ofTokens_eq_some_iff.mpr hdocument

/-- The compact form of a list is read as the node of the list. -/
theorem read_list {items : List Json} (h : ∀ v ∈ items, v.Portable) :
    Node.read (list items).compact = some (list items).toNode :=
  read_of_tokens (.list h) (tokens_list h)

/-- So it is with a record, which gives its node back with all its fields in their order. -/
theorem read_record {fields : List (String × Json)} (h : (record fields).Portable) :
    Node.read (record fields).compact = some (record fields).toNode :=
  read_of_tokens h (tokens_record h)

end QuantumKernels.Yaml
