import QuantumKernels.Yaml.Token
import QuantumKernels.Proofs.Json.Spelling
import QuantumKernels.Proofs.Outcome

/-!
# Scanning inside brackets

In one line and inside brackets, the scan of a text goes mark by mark: brackets and commas, texts between
double quotes, words, and names before a colon. A name is known as one if it is not longer than a key may
be; its tokens are then put in where it started.
-/
namespace QuantumKernels.Yaml

/-- A character that comes through quotes as it is: one that is escaped, or one that can be shown and ends
no line. -/
def isPlainChar (c : Char) : Bool :=
  c.toNat < 0x20 || isPrintable c && !isBreak c && c ≠ '\u0085'

/-- A character of the words and numerals that documents are written with. -/
def isWordChar (c : Char) : Bool := c.isAlphanum || ['+', '-', '.'].contains c

namespace Scalar

/-- What has been read of a scalar, latest character first, with the blanks that may still be its end. -/
def content (sc : Scalar) : List Char := sc.gap.fold ++ sc.chars

/-- The scalar has not gone on in a new line. -/
def InLine (sc : Scalar) : Prop := sc.gap.isBroken = false

theorem inLine_push (sc : Scalar) (c : Char) : (sc.push c).InLine := rfl

theorem content_push (sc : Scalar) (c : Char) : (sc.push c).content = c :: sc.content := rfl

theorem fold_of_inLine {sc : Scalar} (h : sc.InLine) : sc.gap.fold = sc.gap.blanks := by
  obtain ⟨chars, blanks, escaped, breaks⟩ := sc
  simp only [InLine, Gap.isBroken, Bool.or_eq_false_iff, Bool.not_eq_false', List.isEmpty_iff] at h
  obtain ⟨rfl, rfl⟩ := h
  rfl

/-- A blank goes into the gap. -/
theorem push_blank {sc : Scalar} (h : sc.InLine) {c : Char} (hc : isBreak c = false) :
    (Scalar.mk sc.chars (sc.gap.push c)).InLine ∧
      (Scalar.mk sc.chars (sc.gap.push c)).content = c :: sc.content := by
  have hpush : sc.gap.push c = { sc.gap with blanks := c :: sc.gap.blanks } := by
    rw [Gap.push, hc, h]
    rfl
  have hinLine : (Scalar.mk sc.chars (sc.gap.push c)).InLine := by
    rw [hpush]
    exact h
  refine ⟨hinLine, ?_⟩
  rw [content, content, fold_of_inLine hinLine, fold_of_inLine h, hpush]
  rfl

end Scalar

namespace Scan

/-- The scan so many characters further on in its line. -/
def moved (s : Scan) (n : ℕ) : Scan := { s with column := s.column + n, offset := s.offset + n }

/-- The scan with another open part. -/
def inPart (s : Scan) (part : Pending) : Scan := { s with part }

theorem moved_moved (s : Scan) (m n : ℕ) : (s.moved m).moved n = s.moved (m + n) := by
  simp [moved, Nat.add_assoc]

theorem moved_inPart (s : Scan) (part : Pending) (n : ℕ) : (s.inPart part).moved n = (s.moved n).inPart part := rfl

theorem advance_eq {c : Char} (hc : isBreak c = false) (s : Scan) : s.advance c = s.moved 1 := by
  rw [advance, hc]
  rfl

theorem readAll_cons {s s' : Scan} (hskip : s.skip = 0) {c : Char} (hc : isBreak c = false) {rest : List Char}
    (hread : s.read c rest = some s') : s.readAll (c :: rest) = (s'.moved 1).readAll rest := by
  rw [readAll, hskip, hread, ← advance_eq hc]
  rfl

/-- The same where only the open part changes. -/
theorem readAll_part {s : Scan} (hskip : s.skip = 0) {part part' : Pending} {c : Char} (hc : isBreak c = false)
    {rest : List Char} (hread : (s.inPart part).read c rest = some (s.inPart part')) :
    (s.inPart part).readAll (c :: rest) = ((s.moved 1).inPart part').readAll rest :=
  readAll_cons (s := s.inPart part) hskip hc hread

theorem isMark_of_pos {s : Scan} (h : 0 < s.column) (c : Char) (rest : List Char) : s.isMark c rest = false := by
  simp [isMark, Nat.ne_of_gt h]

/-! ## Quotes -/

section

variable {s : Scan} {sc : Scalar}

/-- A character that needs no escape. -/
theorem readAll_raw (hskip : s.skip = 0) (hcolumn : 0 < s.column) (hsc : sc.InLine) {c : Char}
    (hbreak : isBreak c = false) (hquote : c ≠ '"') (hback : c ≠ '\\') (rest : List Char) :
    ∃ sc' : Scalar, sc'.InLine ∧ sc'.content = c :: sc.content ∧
      (s.inPart (.double sc)).readAll (c :: rest) = ((s.moved 1).inPart (.double sc')).readAll rest := by
  have hread : (s.inPart (.double sc)).read c rest = (s.inPart (.double sc)).quotedChar sc c rest .double := by
    change (if c = '"' then _ else if c = '\\' then _ else _) = _
    rw [if_neg hquote, if_neg hback]
  have hmark : (s.inPart (.double sc)).isMark c rest = false := isMark_of_pos hcolumn c rest
  rw [quotedChar, hmark, if_neg Bool.false_ne_true] at hread
  by_cases hblank : isBlank c = true
  · rw [if_pos (.inl hblank)] at hread
    obtain ⟨hinLine, hcontent⟩ := Scalar.push_blank hsc hbreak
    exact ⟨_, hinLine, hcontent, readAll_part hskip hbreak hread⟩
  · rw [if_neg (by simp [hblank, hbreak])] at hread
    exact ⟨_, sc.inLine_push c, sc.content_push c, readAll_part hskip hbreak hread⟩

/-- A letter after a backslash. -/
theorem readAll_letter (hskip : s.skip = 0) {letter c : Char} (h : unescape letter = some c)
    (hletter : letter ∉ ['x', 'u', 'U']) (hbreak : isBreak letter = false) (rest : List Char) :
    (s.inPart (.double sc)).readAll ('\\' :: letter :: rest) =
      ((s.moved 2).inPart (.double (sc.push c))).readAll rest := by
  have hread : ((s.moved 1).inPart (.escape sc)).read letter rest =
      some ((s.moved 1).inPart (.double (sc.push c))) := by
    simp only [List.mem_cons, List.not_mem_nil, or_false, not_or] at hletter
    change afterBackslash _ sc letter = _
    rw [afterBackslash, hbreak, if_neg Bool.false_ne_true, if_neg hletter.1, if_neg hletter.2.1,
      if_neg hletter.2.2, h]
    rfl
  rw [readAll_part hskip rfl rfl, readAll_part (s := s.moved 1) hskip hbreak hread, moved_moved]

theorem isBreak_hexDigit : ∀ n < 16, isBreak (Json.hexDigit n) = false := by decide

theorem hexDigit_eq (s : Scan) (sc : Scalar) (code missing : ℕ) {n : ℕ} (hn : n < 16) :
    s.hexDigit sc code missing (Json.hexDigit n) =
      if 1 < missing then some (s.inPart (.hex sc (16 * code + n) (missing - 1)))
      else if (16 * code + n).isValidChar then some (s.inPart (.double (sc.push (Char.ofNat (16 * code + n)))))
      else none := by
  rw [hexDigit, Json.hexValue?_of_isHexDigit ⟨hn, .inl rfl⟩]
  rfl

theorem readAll_hexDigit (hskip : s.skip = 0) {n code missing : ℕ} (hn : n < 16) (hmissing : 1 < missing)
    (rest : List Char) : (s.inPart (.hex sc code missing)).readAll (Json.hexDigit n :: rest) =
      ((s.moved 1).inPart (.hex sc (16 * code + n) (missing - 1))).readAll rest :=
  readAll_part hskip (isBreak_hexDigit n hn) ((hexDigit_eq _ sc code missing hn).trans (if_pos hmissing))

theorem readAll_lastHexDigit (hskip : s.skip = 0) {n code : ℕ} (hn : n < 16) (hcode : (16 * code + n).isValidChar)
    (rest : List Char) : (s.inPart (.hex sc code 1)).readAll (Json.hexDigit n :: rest) =
      ((s.moved 1).inPart (.double (sc.push (Char.ofNat (16 * code + n))))).readAll rest := by
  refine readAll_part hskip (isBreak_hexDigit n hn) ((hexDigit_eq _ sc code 1 hn).trans ?_)
  rw [if_neg (Nat.lt_irrefl 1), if_pos hcode]
  rfl

/-- A control character, written by its code. -/
theorem readAll_code (hskip : s.skip = 0) {c : Char} (hc : c.toNat < 0x20) (rest : List Char) :
    (s.inPart (.double sc)).readAll ('\\' :: 'u' :: '0' :: '0' :: Json.hexDigit (c.toNat / 16) ::
        Json.hexDigit (c.toNat % 16) :: rest) =
      ((s.moved 6).inPart (.double (sc.push c))).readAll rest := by
  have hzero : '0' = Json.hexDigit 0 := rfl
  have hcode : 16 * (16 * (16 * (16 * 0 + 0) + 0) + c.toNat / 16) + c.toNat % 16 = c.toNat := by omega
  have hhigh : c.toNat / 16 < 16 := by omega
  have hlow : c.toNat % 16 < 16 := by omega
  rw [readAll_part hskip rfl rfl, readAll_part (s := s.moved 1) hskip rfl rfl, hzero,
    readAll_hexDigit (s := (s.moved 1).moved 1) hskip (by decide) (by decide),
    readAll_hexDigit (s := ((s.moved 1).moved 1).moved 1) hskip (by decide) (by decide),
    readAll_hexDigit (s := (((s.moved 1).moved 1).moved 1).moved 1) hskip hhigh (by decide),
    readAll_lastHexDigit (s := ((((s.moved 1).moved 1).moved 1).moved 1).moved 1) hskip hlow (by rw [hcode]; exact c.valid),
    hcode, Char.ofNat_toNat]
  simp only [moved_moved]

/-- A character between quotes, as documents write it. -/
theorem readAll_escapeChar (hskip : s.skip = 0) (hcolumn : 0 < s.column) (hsc : sc.InLine) {c : Char}
    (hc : isPlainChar c = true) (rest : List Char) :
    ∃ sc' : Scalar, sc'.InLine ∧ sc'.content = c :: sc.content ∧
      (s.inPart (.double sc)).readAll (Json.escapeChar c ++ rest) =
        ((s.moved (Json.escapeChar c).length).inPart (.double sc')).readAll rest := by
  have hpush : (sc.push c).InLine ∧ (sc.push c).content = c :: sc.content := ⟨rfl, rfl⟩
  rw [Json.escapeChar]
  split_ifs with hquote hback hb hf hn hr ht hcontrol
  · exact ⟨_, hpush.1, hpush.2, readAll_letter hskip (by rw [hquote]; rfl) (by decide) rfl rest⟩
  · exact ⟨_, hpush.1, hpush.2, readAll_letter hskip (by rw [hback]; rfl) (by decide) rfl rest⟩
  · exact ⟨_, hpush.1, hpush.2, readAll_letter hskip (by rw [hb]; rfl) (by decide) rfl rest⟩
  · exact ⟨_, hpush.1, hpush.2, readAll_letter hskip (by rw [hf]; rfl) (by decide) rfl rest⟩
  · exact ⟨_, hpush.1, hpush.2, readAll_letter hskip (by rw [hn]; rfl) (by decide) rfl rest⟩
  · exact ⟨_, hpush.1, hpush.2, readAll_letter hskip (by rw [hr]; rfl) (by decide) rfl rest⟩
  · exact ⟨_, hpush.1, hpush.2, readAll_letter hskip (by rw [ht]; rfl) (by decide) rfl rest⟩
  · exact ⟨_, hpush.1, hpush.2, readAll_code hskip hcontrol rest⟩
  · have hbreak : isBreak c = false := by
      simp only [isPlainChar, Bool.or_eq_true, decide_eq_true_eq, Bool.and_eq_true, Bool.not_eq_true'] at hc
      exact (hc.resolve_left hcontrol).1.2
    exact readAll_raw hskip hcolumn hsc hbreak hquote hback rest

/-- A text up to its closing quote. -/
theorem readAll_quoted (hskip : s.skip = 0) (hcolumn : 0 < s.column) (hsc : sc.InLine) {cs : List Char}
    (hcs : ∀ c ∈ cs, isPlainChar c = true) (rest : List Char) :
    (s.inPart (.double sc)).readAll (cs.flatMap Json.escapeChar ++ '"' :: rest) =
      (((s.moved ((cs.flatMap Json.escapeChar).length + 1)).inPart .nothing).emit
        (.scalar (String.ofList (sc.content.reverse ++ cs)) false)).readAll rest := by
  induction cs generalizing s sc with
  | nil =>
    have hend : ((s.inPart (.double sc)).endQuoted sc).moved 1 =
        ((s.moved 1).inPart .nothing).emit (.scalar (String.ofList sc.content.reverse) false) := by
      simp [endQuoted, endScalar, Scalar.text, Scalar.content, moved, inPart, emit, Gap.isBroken]
    rw [List.flatMap_nil, List.nil_append, readAll_cons (s := s.inPart (.double sc)) hskip rfl rfl, hend,
      List.append_nil]
    rfl
  | cons c cs ih =>
    obtain ⟨sc', hsc', hcontent, hread⟩ := readAll_escapeChar hskip hcolumn hsc (hcs c (by simp))
      (cs.flatMap Json.escapeChar ++ '"' :: rest)
    rw [List.flatMap_cons, List.append_assoc, hread]
    have hrest := ih (s := s.moved (Json.escapeChar c).length) hskip (Nat.lt_add_right _ hcolumn) hsc'
      fun d hd => hcs d (by simp [hd])
    rw [hrest, hcontent, moved_moved, List.length_append, List.reverse_cons, List.append_assoc, List.singleton_append,
      Nat.add_assoc]

end

/-! ## Brackets -/

/-- The possible keys that are not too far back. -/
def freshKeys (s : Scan) : List (Option KeyStart) :=
  s.keys.map fun key => key.filter fun k => s.line ≤ k.line ∧ s.offset ≤ k.offset + 1024

/-- The scan with other possible keys. -/
def withKeys (s : Scan) (keys : List (Option KeyStart)) : Scan := { s with keys }

/-- The scan is between tokens in so many brackets, and nothing has to be a key. -/
structure Stands (s : Scan) (depth : ℕ) (ts : List Token) : Prop where
  part : s.part = .nothing
  skip : s.skip = 0
  columns : s.columns = []
  tokens : s.tokens = ts
  nested : s.keys.length = depth + 1
  optional : ∀ k, some k ∈ s.keys → k.required = false
  column : 0 < depth → 0 < s.column

section

variable {s : Scan} {depth : ℕ} {ts : List Token}

theorem dropStale_eq (h : s.Stands depth ts) : s.dropStale = some (s.withKeys s.freshKeys) := by
  simp only [dropStale, Option.bind_eq_bind, Option.bind_eq_some_iff]
  refine ⟨s.freshKeys, mapM_eq_some_iff.mpr (List.forall₂_map_right_iff.mpr (List.forall₂_same.mpr ?_)), rfl⟩
  intro key hkey
  cases key with
  | none => rfl
  | some k =>
    have hk : k.required = false := h.optional k hkey
    by_cases hfar : k.line < s.line ∨ k.offset + 1024 < s.offset
    · have hold : ¬ (s.line ≤ k.line ∧ s.offset ≤ k.offset + 1024) := by omega
      simp [hfar, hk, hold, Option.filter]
    · have hnew : s.line ≤ k.line ∧ s.offset ≤ k.offset + 1024 := by omega
      simp [hfar, hnew, Option.filter]

theorem Stands.fresh (h : s.Stands depth ts) : (s.withKeys s.freshKeys).Stands depth ts where
  part := h.part
  skip := h.skip
  columns := h.columns
  tokens := h.tokens
  nested := (List.length_map _).trans h.nested
  optional k hk := by
    obtain ⟨key, hkey, hfilter⟩ := List.mem_map.mp hk
    obtain ⟨hsome, -⟩ := Option.filter_eq_some_iff.mp hfilter
    exact h.optional k (hsome ▸ hkey)
  column := h.column

theorem Stands.endBlocks (h : s.Stands depth ts) (inside : ℕ → Bool) : s.endBlocks inside = s := by
  obtain ⟨line, column, offset, skip, tokens, columns, keys, keyAllowed, part⟩ := s
  obtain rfl : columns = [] := h.columns
  simp [Scan.endBlocks]

theorem Stands.dropKey (h : s.Stands depth ts) : s.dropKey = some (s.withKeys (none :: s.keys.tail)) := by
  obtain ⟨line, column, offset, skip, tokens, columns, keys, keyAllowed, part⟩ := s
  cases keys with
  | nil => cases h.nested
  | cons key keys =>
    cases key with
    | none => rfl
    | some k =>
      have hk : k.required = false := h.optional k List.mem_cons_self
      simp [Scan.dropKey, hk, withKeys]

/-- A place where a key may have started. -/
def keyStart (s : Scan) (position : ℕ) : KeyStart := ⟨position, s.line, s.column, s.offset, false⟩

theorem Stands.markKey (h : s.Stands depth ts) (hkey : s.keyAllowed = true) :
    s.markKey = some (s.withKeys (some (s.keyStart ts.length) :: s.keys.tail)) := by
  rw [Scan.markKey, if_pos hkey, h.dropKey, Option.map_some]
  simp [withKeys, keyStart, h.columns, h.tokens]

theorem Stands.withKeys (h : s.Stands depth ts) {key : Option KeyStart} (hkey : ∀ k, key = some k → k.required = false) :
    (s.withKeys (key :: s.keys.tail)).Stands depth ts where
  part := h.part
  skip := h.skip
  columns := h.columns
  tokens := h.tokens
  nested := by
    have hnested := h.nested
    simp only [Scan.withKeys, List.length_cons, List.length_tail]
    omega
  optional k hk := by
    rcases List.mem_cons.mp hk with hk | hk
    · exact hkey k hk.symm
    · exact h.optional k (List.mem_of_mem_tail hk)
  column := h.column

/-- The scan after a token of one character. -/
theorem Stands.emitted (h : s.Stands depth ts) {depth' : ℕ} {keys : List (Option KeyStart)}
    (hnested : keys.length = depth' + 1) (hoptional : ∀ k, some k ∈ keys → k.required = false) (t : Token)
    (keyAllowed : Bool) :
    ({ s.emit t with keys, keyAllowed }.moved 1).Stands depth' (ts ++ [t]) where
  part := h.part
  skip := h.skip
  columns := h.columns
  tokens := congrArg (· ++ [t]) h.tokens
  nested := hnested
  optional := hoptional
  column _ := Nat.succ_pos s.column

theorem Stands.exists_markKey (h : s.Stands depth ts) : ∃ keys, s.markKey = some (s.withKeys keys) ∧
    (s.withKeys keys).Stands depth ts ∧ (s.keyAllowed = true → keys.head? = some (some (s.keyStart ts.length))) := by
  by_cases hkey : s.keyAllowed = true
  · refine ⟨_, h.markKey hkey, h.withKeys ?_, fun _ => rfl⟩
    rintro k ⟨⟩
    rfl
  · exact ⟨s.keys, if_neg hkey, h, fun hallowed => absurd hallowed hkey⟩

/-- The reading of a character that starts a token. -/
theorem Stands.read_eq_begin (h : s.Stands depth ts) {c : Char} (hblank : isBlank c = false) (hbreak : isBreak c = false)
    (hhash : c ≠ '#') (rest : List Char) : s.read c rest = s.begin c rest := by
  have hspace : c ≠ ' ' := by
    rintro rfl
    cases hblank
  have htab : c ≠ '\t' := by
    rintro rfl
    cases hblank
  rw [read, h.part]
  simp [between, hspace, htab, hhash, hbreak]

theorem Stands.begin_open (h : s.Stands depth ts) (t : Token) : ∃ s', s.openFlow t = some s' ∧
    (s'.moved 1).Stands (depth + 1) (ts ++ [t]) ∧ (s'.moved 1).keyAllowed = true := by
  obtain ⟨keys, hmark, hs', -⟩ := h.exists_markKey
  refine ⟨_, by rw [openFlow, hmark, Option.map_some], hs'.emitted (congrArg (· + 1) hs'.nested) ?_ t true, rfl⟩
  intro k hk
  exact hs'.optional k ((List.mem_cons.mp hk).resolve_left nofun)

theorem Stands.begin_close (h : s.Stands (depth + 1) ts) (t : Token) : ∃ s', s.closeFlow t = some s' ∧
    (s'.moved 1).Stands depth (ts ++ [t]) := by
  have hfree : ∀ k, (none : Option KeyStart) = some k → k.required = false := nofun
  have hdropped := h.withKeys hfree
  have hflow : (s.withKeys (none :: s.keys.tail)).inFlow = true := by
    simp [inFlow, hdropped.nested]
  refine ⟨_, by rw [closeFlow, h.dropKey, Option.map_some, if_pos hflow], hdropped.emitted ?_ ?_ t false⟩
  · rw [List.length_tail, hdropped.nested]
    rfl
  · exact fun k hk => hdropped.optional k (List.mem_of_mem_tail hk)

theorem Stands.begin_comma (h : s.Stands depth ts) : ∃ s' : Scan,
    (s.dropKey.map fun s => { s.emit .comma with keyAllowed := true }) = some s' ∧
    (s'.moved 1).Stands depth (ts ++ [.comma]) ∧ (s'.moved 1).keyAllowed = true := by
  have hfree : ∀ k, (none : Option KeyStart) = some k → k.required = false := nofun
  have hdropped := h.withKeys hfree
  exact ⟨{ (s.withKeys (none :: s.keys.tail)).emit .comma with keyAllowed := true },
    by rw [h.dropKey, Option.map_some], hdropped.emitted hdropped.nested hdropped.optional .comma true, rfl⟩

/-- The brackets around a list and around a record, with the tokens they are. -/
inductive Brackets : (first last : Char) → (opening closing : Token) → Prop
  | list : Brackets '[' ']' .openList .closeList
  | record : Brackets '{' '}' .openRecord .closeRecord

theorem readAll_open {first last : Char} {opening closing : Token} (hb : Brackets first last opening closing)
    (h : s.Stands depth ts) : ∃ s' : Scan, s'.Stands (depth + 1) (ts ++ [opening]) ∧ s'.keyAllowed = true ∧
      ∀ rest, s.readAll (first :: rest) = s'.readAll rest := by
  obtain ⟨s', hopen, hs', hkey⟩ := h.fresh.begin_open opening
  refine ⟨s'.moved 1, hs', hkey, fun rest => ?_⟩
  cases hb with
  | list | record =>
    refine readAll_cons h.skip rfl ?_
    rw [h.read_eq_begin rfl rfl (by decide), begin, dropStale_eq h]
    simp [h.fresh.endBlocks, isMark, hopen]

theorem readAll_close {first last : Char} {opening closing : Token} (hb : Brackets first last opening closing)
    (h : s.Stands (depth + 1) ts) : ∃ s' : Scan, s'.Stands depth (ts ++ [closing]) ∧
      ∀ rest, s.readAll (last :: rest) = s'.readAll rest := by
  obtain ⟨s', hclose, hs'⟩ := h.fresh.begin_close closing
  refine ⟨s'.moved 1, hs', fun rest => ?_⟩
  cases hb with
  | list | record =>
    refine readAll_cons h.skip rfl ?_
    rw [h.read_eq_begin rfl rfl (by decide), begin, dropStale_eq h]
    simp [h.fresh.endBlocks, isMark, hclose]

theorem readAll_comma (h : s.Stands depth ts) : ∃ s' : Scan, s'.Stands depth (ts ++ [.comma]) ∧ s'.keyAllowed = true ∧
    ∀ rest, s.readAll (',' :: rest) = s'.readAll rest := by
  obtain ⟨s', hcomma, hs', hkey⟩ := h.fresh.begin_comma
  refine ⟨s'.moved 1, hs', hkey, fun rest => readAll_cons h.skip rfl ?_⟩
  rw [h.read_eq_begin rfl rfl (by decide), begin, dropStale_eq h]
  simp [h.fresh.endBlocks, isMark, hcomma]

/-- What stands in brackets, which may be the whole of a text. -/
theorem readAll_bracketed {first last : Char} {opening closing : Token} (hb : Brackets first last opening closing)
    (h : s.Stands depth ts) {inner : List Char} {inside : List Token}
    (hinner : ∀ s₁ : Scan, s₁.Stands (depth + 1) (ts ++ [opening]) → s₁.keyAllowed = true →
      ∃ s₂ : Scan, s₂.Stands (depth + 1) (ts ++ [opening] ++ inside) ∧
        ∀ rest, s₁.readAll (inner ++ last :: rest) = s₂.readAll (last :: rest)) :
    ∃ s' : Scan, s'.Stands depth (ts ++ opening :: (inside ++ [closing])) ∧
      ∀ rest, s.readAll (first :: (inner ++ [last]) ++ rest) = s'.readAll rest := by
  obtain ⟨s₁, hs₁, hkey, hopen⟩ := readAll_open hb h
  obtain ⟨s₂, hs₂, hread⟩ := hinner s₁ hs₁ hkey
  obtain ⟨s₃, hs₃, hclose⟩ := readAll_close hb hs₂
  refine ⟨s₃, ?_, fun rest => ?_⟩
  · rwa [List.append_assoc, List.append_assoc] at hs₃
  · rw [List.cons_append, hopen, List.append_assoc, List.singleton_append, hread, hclose]

/-! ## Scalars inside brackets -/

theorem Stands.begin_scalar (h : s.Stands depth ts) (part : Pending) : ∃ s' : Scan,
    s.beginScalar part = some (s'.inPart part) ∧ s'.Stands depth ts ∧ s'.line = s.line ∧ s'.offset = s.offset ∧
      s'.column = s.column ∧ (s.keyAllowed = true → s'.keys.head? = some (some (s.keyStart ts.length))) := by
  obtain ⟨keys, hmark, hs', hkey⟩ := h.exists_markKey
  refine ⟨{ s.withKeys keys with keyAllowed := false, part := .nothing }, ?_, ?_, rfl, rfl, rfl, hkey⟩
  · rw [beginScalar, hmark]
    rfl
  · exact { hs' with part := rfl }

/-- The scan after a scalar. -/
theorem Stands.after_scalar (h : s.Stands depth ts) (t : Token) (n : ℕ) :
    (((s.moved n).inPart .nothing).emit t).Stands depth (ts ++ [t]) where
  part := rfl
  skip := h.skip
  columns := h.columns
  tokens := congrArg (· ++ [t]) h.tokens
  nested := h.nested
  optional := h.optional
  column hdepth := Nat.lt_add_right n (h.column hdepth)

/-- A text between quotes, which may be a key. -/
theorem readAll_quote (h : s.Stands depth ts) {cs : List Char} (hcs : ∀ c ∈ cs, isPlainChar c = true) : ∃ s' : Scan, s'.Stands depth (ts ++ [.scalar (String.ofList cs) false]) ∧
      s'.line = s.line ∧ s'.offset = s.offset + (Json.quoteChars cs).length ∧
      (s.keyAllowed = true → s'.keys.head? = some (some (s.keyStart ts.length))) ∧
      ∀ rest, s.readAll (Json.quoteChars cs ++ rest) = s'.readAll rest := by
  obtain ⟨s', hbegin, hs', hline, hoffset, hcolumn, hkey⟩ := h.fresh.begin_scalar (.double {})
  refine ⟨_, hs'.after_scalar _ (1 + ((cs.flatMap Json.escapeChar).length + 1)), hline, ?_, hkey, fun rest => ?_⟩
  · have hlength : (Json.quoteChars cs).length = 1 + ((cs.flatMap Json.escapeChar).length + 1) := by
      simp [Json.quoteChars]
      omega
    rw [hlength]
    exact congrArg (· + _) hoffset
  · have hread (rest : List Char) : s.read '"' rest = some (s'.inPart (.double {})) := by
      rw [h.read_eq_begin rfl rfl (by decide), begin, dropStale_eq h]
      simp [h.fresh.endBlocks, isMark, hbegin]
    have hchars : Json.quoteChars cs ++ rest = '"' :: (cs.flatMap Json.escapeChar ++ '"' :: rest) := by
      simp [Json.quoteChars]
    have hinLine : ({} : Scalar).InLine := rfl
    have hquoted := readAll_quoted (s := s'.moved 1) hs'.skip (Nat.succ_pos _) hinLine hcs rest
    rw [hchars, readAll_cons h.skip rfl (hread _), moved_inPart, hquoted, moved_moved]
    rfl

theorem Stands.inFlow (h : s.Stands depth ts) (hdepth : 0 < depth) : s.inFlow = true := by
  simp [Scan.inFlow, h.nested, hdepth]

theorem Stands.begin_colon {t : Token} (h : s.Stands depth (ts ++ [t])) (hdepth : 0 < depth) {k : KeyStart}
    (hkey : s.keys.head? = some (some k)) (hposition : k.position = ts.length) :
    ∃ s', s.colon = some s' ∧ (s'.moved 1).Stands depth (ts ++ [.key, t, .value]) := by
  obtain ⟨keys, hkeys⟩ := List.head?_eq_some_iff.mp hkey
  have hnested : keys.length + 1 = depth + 1 := by
    have hlength := h.nested
    rwa [hkeys] at hlength
  have hflow : 0 < keys.length := by omega
  have hstart : ((s.withKeys (none :: keys)).insert k.position [.key]).startBlock k.column k.position .blockRecord =
      (s.withKeys (none :: keys)).insert k.position [.key] := by
    simp [startBlock, Scan.inFlow, insert, Scan.withKeys, hflow]
  have htokens : (ts ++ [t]).take k.position ++ [.key] ++ (ts ++ [t]).drop k.position ++ [.value] =
      ts ++ [.key, t, .value] := by
    simp [hposition]
  refine ⟨{ ((s.withKeys (none :: keys)).insert k.position [.key]).emit .value with keyAllowed := false }, ?_, ?_⟩
  · unfold colon
    rw [hkeys]
    exact congrArg (fun s : Scan => some { s.emit .value with keyAllowed := false }) hstart
  · have hoptional : ∀ k', some k' ∈ none :: keys → k'.required = false := by
      intro k' hk'
      have hmem : some k' ∈ keys := (List.mem_cons.mp hk').resolve_left nofun
      exact h.optional k' (hkeys ▸ List.mem_cons_of_mem _ hmem)
    rw [← htokens, ← h.tokens]
    exact {
      part := h.part
      skip := h.skip
      columns := h.columns
      tokens := rfl
      nested := hnested
      optional := hoptional
      column := fun _ => Nat.succ_pos s.column }

/-- The colon after a key that has not started too far back. -/
theorem readAll_colon {t : Token} (h : s.Stands depth (ts ++ [t])) (hdepth : 0 < depth) {k : KeyStart}
    (hkey : s.keys.head? = some (some k)) (hposition : k.position = ts.length) (hline : s.line ≤ k.line)
    (hoffset : s.offset ≤ k.offset + 1024) :
    ∃ s' : Scan, s'.Stands depth (ts ++ [.key, t, .value]) ∧ ∀ rest, s.readAll (':' :: rest) = s'.readAll rest := by
  have hfresh : (s.withKeys s.freshKeys).keys.head? = some (some k) := by
    obtain ⟨keys, hkeys⟩ := List.head?_eq_some_iff.mp hkey
    simp [withKeys, freshKeys, hkeys, Option.filter, hline, hoffset]
  obtain ⟨s', hcolon, hs'⟩ := h.fresh.begin_colon hdepth hfresh hposition
  refine ⟨s'.moved 1, hs', fun rest => readAll_cons h.skip rfl ?_⟩
  rw [h.read_eq_begin rfl rfl (by decide), begin, dropStale_eq h]
  simp [h.fresh.endBlocks, h.fresh.inFlow hdepth, isMark, hcolon]

/-- A key up to its colon. -/
theorem readAll_key (h : s.Stands depth ts) (hdepth : 0 < depth) (hallowed : s.keyAllowed = true) {cs : List Char}
    (hcs : ∀ c ∈ cs, isPlainChar c = true) (hshort : (Json.quoteChars cs).length ≤ 1024) :
    ∃ s' : Scan, s'.Stands depth (ts ++ [.key, .scalar (String.ofList cs) false, .value]) ∧
      ∀ rest, s.readAll (Json.quoteChars cs ++ ':' :: rest) = s'.readAll rest := by
  obtain ⟨s₁, hs₁, hline, hoffset, hkey, hquote⟩ := readAll_quote h hcs
  obtain ⟨s₂, hs₂, hcolon⟩ := readAll_colon hs₁ hdepth (hkey hallowed) rfl hline.le (by
    rw [hoffset]
    exact Nat.add_le_add_left hshort s.offset)
  exact ⟨s₂, hs₂, fun rest => (hquote _).trans (hcolon rest)⟩

theorem ne_of_isWordChar {c d : Char} (hc : isWordChar c = true) (hd : isWordChar d = false) : c ≠ d := by
  rintro rfl
  rw [hc] at hd
  cases hd

theorem isBreak_of_isWordChar {c : Char} (hc : isWordChar c = true) : isBreak c = false := by
  have hne {d : Char} : isWordChar d = false → c ≠ d := ne_of_isWordChar hc
  simp [isBreak, hne (d := '\n') rfl, hne (d := '\u2028') rfl, hne (d := '\u2029') rfl]

theorem isBlank_of_isWordChar {c : Char} (hc : isWordChar c = true) : isBlank c = false := by
  have hne {d : Char} : isWordChar d = false → c ≠ d := ne_of_isWordChar hc
  simp [isBlank, hne (d := ' ') rfl, hne (d := '\t') rfl]

theorem inPlain_push (hcolumn : 0 < s.column) {c : Char} (hc : isWordChar c = true) (chars rest : List Char) :
    s.inPlain ⟨chars, {}⟩ c rest = some (s.inPart (.plain ⟨c :: chars, {}⟩)) := by
  have hne {d : Char} : isWordChar d = false → c ≠ d := ne_of_isWordChar hc
  have hcolon : c ≠ ':' := hne rfl
  have hbracket : [',', '[', ']', '{', '}'].contains c = false := by
    simp [hne (d := ',') rfl, hne (d := '[') rfl, hne (d := ']') rfl, hne (d := '{') rfl, hne (d := '}') rfl]
  have hends : s.endsPlain ⟨chars, {}⟩ c rest = false := by
    rw [endsPlain, isMark_of_pos hcolumn, hbracket]
    simp [hcolon, Gap.isEmpty, Gap.isBroken]
  rw [inPlain, if_neg (by simp [isBlank_of_isWordChar hc, isBreak_of_isWordChar hc]), hends,
    if_neg Bool.false_ne_true, if_neg (by simp [hcolon])]
  rfl

theorem readAll_wordChars (hskip : s.skip = 0) (hcolumn : 0 < s.column) {w : List Char}
    (hw : ∀ c ∈ w, isWordChar c = true) (chars rest : List Char) :
    (s.inPart (.plain ⟨chars, {}⟩)).readAll (w ++ rest) =
      ((s.moved w.length).inPart (.plain ⟨w.reverse ++ chars, {}⟩)).readAll rest := by
  induction w generalizing s chars with
  | nil => rfl
  | cons c w ih =>
    have hc : isWordChar c = true := hw c (by simp)
    have hread : (s.inPart (.plain ⟨chars, {}⟩)).read c (w ++ rest) = some (s.inPart (.plain ⟨c :: chars, {}⟩)) :=
      inPlain_push (s := s.inPart (.plain ⟨chars, {}⟩)) hcolumn hc chars (w ++ rest)
    have hrest := ih (s := s.moved 1) hskip (Nat.lt_add_right 1 hcolumn) (fun d hd => hw d (by simp [hd])) (c :: chars)
    rw [List.cons_append, readAll_part hskip (isBreak_of_isWordChar hc) hread, hrest, moved_moved, List.length_cons,
      List.reverse_cons, List.append_assoc, List.singleton_append, Nat.add_comm]

theorem Stands.begin_word (h : s.Stands depth ts) (hdepth : 0 < depth) {c : Char} (hc : isWordChar c = true)
    {rest : List Char} (hgap : atGap rest = false) :
    s.begin c rest = (s.withKeys s.freshKeys).beginScalar (.plain ⟨[c], {}⟩) := by
  have hne {d : Char} : isWordChar d = false → c ≠ d := ne_of_isWordChar hc
  have hmark : (s.withKeys s.freshKeys).isMark c rest = false := isMark_of_pos (h.fresh.column hdepth) c rest
  have hindicator : isIndicator c = false ∨ c = '-' := by
    by_cases hdash : c = '-'
    · exact .inr hdash
    · refine .inl (Bool.eq_false_iff.mpr fun hmem => ?_)
      have hall : ['-', '?', ':', ',', '[', ']', '{', '}', '#', '&', '*', '!', '|', '>', '\'', '"', '%', '@', '\x60'].all
          (fun d => d = '-' || !isWordChar d) = true := rfl
      have hword := List.all_eq_true.mp hall c (List.contains_iff_mem.mp hmem)
      simp [hdash, hc] at hword
  rw [begin, dropStale_eq h]
  simp only [Option.bind_eq_bind, Option.bind_some, h.fresh.endBlocks, hmark, hgap]
  simp [hne (d := '[') rfl, hne (d := '{') rfl, hne (d := ']') rfl, hne (d := '}') rfl, hne (d := ',') rfl,
    hne (d := '?') rfl, hne (d := ':') rfl, hne (d := '\'') rfl, hne (d := '"') rfl, isBlank_of_isWordChar hc, hindicator]
  rfl

theorem atGap_of_closes {c : Char} (hc : c ∈ [',', ']', '}']) (rest : List Char) : atGap (c :: rest) = false := by
  have hall : [',', ']', '}'].all (fun d => atGap (d :: rest) = false) = true := rfl
  exact of_decide_eq_true (List.all_eq_true.mp hall c hc)

/-- A comma or a closing bracket ends a plain scalar. -/
theorem readAll_endPlain (hskip : s.skip = 0) (hflow : s.inFlow = true) (sc : Scalar) {c : Char}
    (hc : c ∈ [',', ']', '}']) (rest : List Char) : (s.inPart (.plain sc)).readAll (c :: rest) =
      ((s.inPart (.plain sc)).endScalar sc true).readAll (c :: rest) := by
  have hread : (s.inPart (.plain sc)).read c rest = ((s.inPart (.plain sc)).endScalar sc true).read c rest := by
    have hflow' : (s.inPart (.plain sc)).inFlow = true := hflow
    have hgap : ¬ (isBlank c = true ∨ isBreak c = true) := by
      simpa [atGap, not_or] using atGap_of_closes hc rest
    have hbracket : [',', '[', ']', '{', '}'].contains c = true := by
      have hall : [',', ']', '}'].all [',', '[', ']', '{', '}'].contains = true := rfl
      exact List.all_eq_true.mp hall c hc
    have hends : (s.inPart (.plain sc)).endsPlain sc c rest = true := by
      rw [endsPlain, hflow', hbracket]
      simp
    change (s.inPart (.plain sc)).inPlain sc c rest = _
    rw [inPlain, if_neg hgap, if_pos hends]
    rfl
  have hskip' : (s.inPart (.plain sc)).skip = ((s.inPart (.plain sc)).endScalar sc true).skip := rfl
  rw [readAll, readAll, hread, hskip', if_neg (by simp [endScalar, emit, inPart, hskip]),
    if_neg (by simp [endScalar, emit, inPart, hskip])]

/-- A word inside brackets. What comes after it ends it. -/
theorem readAll_word (h : s.Stands depth ts) (hdepth : 0 < depth) {w : List Char} (hne : w ≠ [])
    (hw : ∀ c ∈ w, isWordChar c = true) : ∃ s' : Scan, s'.Stands depth (ts ++ [.scalar (String.ofList w) true]) ∧
      ∀ c ∈ [',', ']', '}'], ∀ rest, s.readAll (w ++ c :: rest) = s'.readAll (c :: rest) := by
  obtain ⟨a, w, rfl⟩ := List.exists_cons_of_ne_nil hne
  obtain ⟨ha, hrest⟩ := List.forall_mem_cons.mp hw
  obtain ⟨s₁, hbegin, hs₁, -⟩ := h.fresh.begin_scalar (.plain ⟨[a], {}⟩)
  have hcolumn : 0 < (s₁.moved 1).column := Nat.succ_pos _
  refine ⟨((((s₁.moved 1).moved w.length).inPart (.plain ⟨w.reverse ++ [a], {}⟩)).endScalar ⟨w.reverse ++ [a], {}⟩ true),
    ?_, fun c hc rest => ?_⟩
  · have htext : (Scalar.mk (w.reverse ++ [a]) {}).text = String.ofList (a :: w) := by
      simp [Scalar.text]
    have hafter := hs₁.after_scalar (.scalar (String.ofList (a :: w)) true) (1 + w.length)
    rw [← htext, ← moved_moved] at hafter
    rw [← htext]
    exact { hafter with }
  · have hgap : atGap (w ++ c :: rest) = false := by
      cases w with
      | nil => exact atGap_of_closes hc rest
      | cons b w =>
        have hb : isWordChar b = true := hrest b (by simp)
        simp [atGap, isBlank_of_isWordChar hb, isBreak_of_isWordChar hb]
    have hread : s.read a (w ++ c :: rest) = some (s₁.inPart (.plain ⟨[a], {}⟩)) := by
      rw [h.read_eq_begin (isBlank_of_isWordChar ha) (isBreak_of_isWordChar ha) (ne_of_isWordChar ha rfl),
        h.begin_word hdepth ha hgap, hbegin]
    rw [List.cons_append, readAll_cons h.skip (isBreak_of_isWordChar ha) hread, moved_inPart,
      readAll_wordChars (s := s₁.moved 1) hs₁.skip hcolumn hrest,
      readAll_endPlain (s := (s₁.moved 1).moved w.length) hs₁.skip (hs₁.inFlow hdepth) _ hc]

end

end Scan

end QuantumKernels.Yaml
