import QuantumKernels.Proofs.Json.Spelling

/-!
# Documents from their spellings

The tokens of a document assemble to it, so a value reads back from each of its spellings. A text
that is a document starts with it: the front reader stops at the same value.
-/
namespace QuantumKernels.Json

namespace Assembly

/-- An assembly over some more tokens. -/
def run (a : Assembly) (ts : List Token) : Option Assembly := ts.foldlM Assembly.step a

theorem run_nil (a : Assembly) : a.run [] = some a := rfl

theorem run_cons (a : Assembly) (t : Token) (ts : List Token) :
    a.run (t :: ts) = (a.step t).bind fun a => a.run ts := rfl

/-- A value is awaited. -/
def AwaitsValue (await : Await) : Prop := await = .value ∨ await = .valueOrClose

/-- The tokens of a value, where one is awaited, put it in its place. -/
def Settles (v : Json) : Prop :=
  ∀ (frames : List Frame) (await : Await) (ts : List Token), AwaitsValue await →
    (Assembly.mk frames await).run (v.tokensOf ++ ts) = (settle v frames).bind fun a => a.run ts

theorem step_atom {await : Await} (h : AwaitsValue await) (frames : List Frame) (v : Json) :
    (Assembly.mk frames await).step (.atom v) = settle v frames := by
  rcases h with rfl | rfl <;> rfl

theorem settles_atom {v : Json} (h : v.tokensOf = [.atom v]) : Settles v := by
  intro frames await ts hawait
  rw [h, List.singleton_append, run_cons, step_atom hawait]

/-- The items still to come in a list, up to its end. -/
theorem run_itemTokens (items : List Json) (h : ∀ v ∈ items, Settles v) (before : List Json)
    (frames : List Frame) (ts : List Token) :
    (Assembly.mk (.list before :: frames) .commaOrClose).run
        (tokensOf.itemTokens false items ++ .closeList :: ts) =
      (settle (.list (before.reverse ++ items)) frames).bind fun a => a.run ts := by
  induction items generalizing before with
  | nil => simp [tokensOf.itemTokens, run_cons, step]
  | cons v others ih =>
    have hcomma : ∀ ts, (Assembly.mk (.list before :: frames) .commaOrClose).run (.comma :: ts) =
        (Assembly.mk (.list before :: frames) .value).run ts := fun _ => rfl
    have hothers := ih (fun w hw => h w (by simp [hw])) (v :: before)
    simp only [tokensOf.itemTokens, separatorTokens, Bool.false_eq_true, if_false,
      List.cons_append, List.nil_append, List.append_assoc, hcomma]
    rw [h v (by simp) _ _ _ (.inl rfl)]
    simpa [settle] using hothers

theorem settles_list {items : List Json} (h : ∀ v ∈ items, Settles v) : Settles (.list items) := by
  intro frames await ts hawait
  have hopen : ∀ ts, (Assembly.mk frames await).run (.openList :: ts) =
      (Assembly.mk (.list [] :: frames) .valueOrClose).run ts := by
    rcases hawait with rfl | rfl <;> exact fun _ => rfl
  simp only [tokensOf, List.cons_append, List.append_assoc, List.nil_append, hopen]
  cases items with
  | nil => rfl
  | cons v others =>
    have hothers := run_itemTokens others (fun w hw => h w (by simp [hw])) [v] frames ts
    simp only [tokensOf.itemTokens, separatorTokens, if_true, List.nil_append, List.append_assoc]
    rw [h v (by simp) _ _ _ (.inr rfl)]
    simpa [settle] using hothers

/-- The fields still to come in a record, up to its end. -/
theorem run_fieldTokens (fields : List (String × Json)) (h : ∀ e ∈ fields, Settles e.2)
    (before : List (String × Json)) (frames : List Frame) (ts : List Token) :
    (Assembly.mk (.record before :: frames) .commaOrClose).run
        (tokensOf.fieldTokens false fields ++ .closeRecord :: ts) =
      (settle (.record (before.reverse ++ fields)) frames).bind fun a => a.run ts := by
  induction fields generalizing before with
  | nil => simp [tokensOf.fieldTokens, run_cons, step]
  | cons e others ih =>
    obtain ⟨k, v⟩ := e
    have hname : ∀ ts, (Assembly.mk (.record before :: frames) .commaOrClose).run
        (.comma :: .atom (.text k) :: .colon :: ts) =
          (Assembly.mk (.field before k :: frames) .value).run ts := fun _ => rfl
    have hothers := ih (fun w hw => h w (by simp [hw])) ((k, v) :: before)
    simp only [tokensOf.fieldTokens, separatorTokens, Bool.false_eq_true, if_false,
      List.cons_append, List.nil_append, List.append_assoc, hname]
    rw [h (k, v) (by simp) _ _ _ (.inl rfl)]
    simpa [settle] using hothers

theorem settles_record {fields : List (String × Json)} (h : ∀ e ∈ fields, Settles e.2) :
    Settles (.record fields) := by
  intro frames await ts hawait
  have hopen : ∀ ts, (Assembly.mk frames await).run (.openRecord :: ts) =
      (Assembly.mk (.record [] :: frames) .nameOrClose).run ts := by
    rcases hawait with rfl | rfl <;> exact fun _ => rfl
  simp only [tokensOf, List.cons_append, List.append_assoc, List.nil_append, hopen]
  cases fields with
  | nil => rfl
  | cons e others =>
    obtain ⟨k, v⟩ := e
    have hname : ∀ ts, (Assembly.mk (.record [] :: frames) .nameOrClose).run
        (.atom (.text k) :: .colon :: ts) = (Assembly.mk (.field [] k :: frames) .value).run ts :=
      fun _ => rfl
    have hothers := run_fieldTokens others (fun w hw => h w (by simp [hw])) [(k, v)] frames ts
    simp only [tokensOf.fieldTokens, separatorTokens, if_true, List.nil_append, List.cons_append,
      List.append_assoc, hname]
    rw [h (k, v) (by simp) _ _ _ (.inl rfl)]
    simpa [settle] using hothers

/-- The tokens of every document put it in its place. -/
theorem settles : ∀ v : Json, Settles v
  | .null | .bool _ | .int _ | .real _ | .text _ | .unreadable => settles_atom rfl
  | .list items => settles_list fun v hv =>
    have : sizeOf v < sizeOf items := List.sizeOf_lt_of_mem hv
    settles v
  | .record fields => settles_record fun e he =>
    have : sizeOf e < sizeOf fields := List.sizeOf_lt_of_mem he
    have : sizeOf e.2 < sizeOf e := by cases e; simp
    settles e.2
termination_by v => v
decreasing_by
  · simp only [list.sizeOf_spec]
    omega
  · simp only [record.sizeOf_spec]
    omega

end Assembly

theorem ofTokens_tokensOf (v : Json) : ofTokens v.tokensOf = some v := by
  have hrun := Assembly.settles v [] .value [] (.inl rfl)
  have hall : v.tokensOf.foldlM Assembly.step ⟨[], .value⟩ = some ⟨[], .nothing v⟩ := by
    simpa [Assembly.run, Assembly.settle] using hrun
  simp [ofTokens, hall, Assembly.finish]

/-- A value reads back from each of its spellings. -/
theorem read_of_renders {v : Json} {cs : List Char} (h : Dialect.document.Renders v cs) :
    read (String.ofList cs) = some v := by
  rw [read, String.toList_ofList, tokens_of_renders h, Option.bind_some, ofTokens_tokensOf]

theorem read_compact {v : Json} (h : Legible v) : read v.compact = some v :=
  read_of_renders (renders_compactChars h)

namespace Scan

/-- The same scan with more tokens completed before. -/
def after (earlier : List Token) (s : Scan) : Scan := ⟨s.done ++ earlier, s.part⟩

theorem separate_after (earlier done : List Token) (c : Char) :
    separate (done ++ earlier) c = (separate done c).map (after earlier) := by
  simp only [separate, apply_ite (Option.map (after earlier))]
  rfl

/-- Completed tokens play no part in what a character does. -/
theorem step_after (earlier : List Token) (s : Scan) (c : Char) :
    (s.after earlier).step c = (s.step c).map (after earlier) := by
  obtain ⟨done, part⟩ := s
  cases part with
  | nothing => exact separate_after earlier done c
  | word letters =>
    simp only [step, after]
    split_ifs
    · rfl
    · cases wordValue letters.reverse with
      | none => rfl
      | some v => exact separate_after earlier (.atom v :: done) c
  | numeral chars =>
    simp only [step, after]
    split_ifs
    · rfl
    · cases numberOfChars chars.reverse with
      | none => rfl
      | some v => exact separate_after earlier (.atom v :: done) c
  | quoted q =>
    simp only [step, after]
    split_ifs <;> rfl
  | escape q =>
    simp only [step, after]
    split_ifs
    · rfl
    · cases unescape c <;> rfl
  | hex q code missing =>
    simp only [step, after]
    cases hexValue? c with
    | none => rfl
    | some d =>
      simp only [Option.map_some]
      split_ifs <;> rfl

theorem run_after (earlier : List Token) (s : Scan) (cs : List Char) :
    (s.after earlier).run cs = (s.run cs).map (after earlier) := by
  induction cs generalizing s with
  | nil => rfl
  | cons c cs ih =>
    rw [run_cons, run_cons, step_after]
    cases s.step c with
    | none => rfl
    | some s' => exact ih s'

theorem finish_after (earlier : List Token) (s : Scan) :
    (s.after earlier).finish = s.finish.map (earlier.reverse ++ ·) := by
  obtain ⟨done, part⟩ := s
  cases part with
  | nothing => simp [finish, after]
  | word letters => cases h : wordValue letters.reverse <;> simp [finish, after, h]
  | numeral chars => cases h : numberOfChars chars.reverse <;> simp [finish, after, h]
  | quoted q => rfl
  | escape q => rfl
  | hex q code missing => rfl

end Scan

namespace Assembly

theorem run_append (a : Assembly) (ts ts' : List Token) :
    a.run (ts ++ ts') = (a.run ts).bind fun b => b.run ts' := by
  simp [run, List.foldlM_append]

/-- Nothing may follow a complete document. -/
theorem step_complete {a : Assembly} {v : Json} (h : a.await = .nothing v) (t : Token) :
    a.step t = none := by
  obtain ⟨frames, await⟩ := a
  subst h
  cases t <;> rfl

/-- Tokens that all fit are all taken in. -/
theorem take_of_run {a b : Assembly} {ts : List Token} (h : a.run ts = some b) :
    a.take ts = some b := by
  induction ts generalizing a with
  | nil => simpa [take, run_nil] using h
  | cons t ts ih =>
    rw [run_cons] at h
    obtain ⟨a', hstep, hrun⟩ := Option.bind_eq_some_iff.mp h
    rw [take]
    split
    · rename_i v hawait
      rw [step_complete hawait] at hstep
      exact absurd hstep (by simp)
    · rw [hstep, Option.bind_some]
      exact ih hrun

end Assembly

theorem frontFrom_eq_some {part : Pending} {a : Assembly} {cs : List Char} {s : Scan}
    {ts : List Token} {b : Assembly} {v : Json} (hscan : (Scan.mk [] part).run cs = some s)
    (hfinish : s.finish = some ts) (hrun : a.run ts = some b) (hv : b.finish = some v) :
    frontFrom part a cs = some v := by
  -- the front reader hands over tokens as they are completed and stops at the same value
  induction cs generalizing part a s ts with
  | nil =>
    rw [Scan.run_nil, Option.some.injEq] at hscan
    subst hscan
    simp [frontFrom, hfinish, Assembly.take_of_run hrun, hv]
  | cons c cs ih =>
    rw [Scan.run_cons] at hscan
    obtain ⟨s₁, hstep, hrest⟩ := Option.bind_eq_some_iff.mp hscan
    have hs₁ : s₁ = (Scan.mk [] s₁.part).after s₁.done := rfl
    rw [hs₁, Scan.run_after] at hrest
    obtain ⟨s₂, hscan₂, rfl⟩ := Option.map_eq_some_iff.mp hrest
    rw [Scan.finish_after] at hfinish
    obtain ⟨ts₂, hfinish₂, rfl⟩ := Option.map_eq_some_iff.mp hfinish
    rw [Assembly.run_append] at hrun
    obtain ⟨a₁, hrun₁, hrun₂⟩ := Option.bind_eq_some_iff.mp hrun
    have hrest := ih hscan₂ hfinish₂ hrun₂
    simp only [frontFrom, hstep, Option.bind_eq_bind, Option.bind_some, Assembly.take_of_run hrun₁]
    split
    · rename_i w hw
      cases ts₂ with
      | nil =>
        rw [Assembly.run_nil, Option.some.injEq] at hrun₂
        subst hrun₂
        simpa [Assembly.finish, hw] using hv
      | cons t ts =>
        rw [Assembly.run_cons, Assembly.step_complete hw] at hrun₂
        exact absurd hrun₂ (by simp)
    · exact hrest

/-- A text that is a document starts with that document. -/
theorem front?_of_read {s : String} {v : Json} (h : read s = some v) : front? s = some v := by
  obtain ⟨ts, htokens, hts⟩ := Option.bind_eq_some_iff.mp h
  obtain ⟨scan, hscan, hfinish⟩ := Option.bind_eq_some_iff.mp htokens
  obtain ⟨b, hrun, hb⟩ := Option.bind_eq_some_iff.mp hts
  exact frontFrom_eq_some hscan hfinish hrun hb

end QuantumKernels.Json
