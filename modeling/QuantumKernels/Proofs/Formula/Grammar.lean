import QuantumKernels.Kernel.Binding
import Mathlib.Tactic.Common

/-!
# The grammar of formulas

A sum is terms joined by `+` and `-`, a term is factors joined by `*` and `/`, a factor is a
signed factor or an atom, raised to a factor if `^` follows. Reading by precedence accepts
exactly the sums of this grammar and gives the tree of the derivation, of which there is
one: a sum and a term lean to the left, powers to the right.
-/
namespace QuantumKernels.Formula

inductive Category where
  | sum
  | term
  | factor
  | atom
deriving DecidableEq, Repr

/-- The tokens of a category, and the tree they stand for. -/
inductive Derives : Category → List Token → Formula → Prop
  | number (v : Float) : Derives .atom [.number v] (constant v)
  | pi : Derives .atom [.name "pi"] (constant pi)
  | euler : Derives .atom [.name "e"] (constant euler)
  | symbol (name : String) (ne_pi : name ≠ "pi") (ne_e : name ≠ "e")
      (ne_func : ∀ f : Func, name ≠ f.name) : Derives .atom [.name name] (symbol name)
  | call (f : Func) {ts : List Token} {e : Formula} (argument : Derives .sum ts e) :
      Derives .atom (.name f.name :: .openParen :: (ts ++ [.closeParen])) (call f e)
  | parens {ts : List Token} {e : Formula} (inner : Derives .sum ts e) :
      Derives .atom (.openParen :: (ts ++ [.closeParen])) e
  | atom {ts : List Token} {e : Formula} (single : Derives .atom ts e) : Derives .factor ts e
  | power {l r : List Token} {a b : Formula} (base : Derives .atom l a)
      (exponent : Derives .factor r b) : Derives .factor (l ++ .caret :: r) (binary .pow a b)
  | minus {ts : List Token} {e : Formula} (operand : Derives .factor ts e) :
      Derives .factor (.minus :: ts) (neg e)
  | plus {ts : List Token} {e : Formula} (operand : Derives .factor ts e) :
      Derives .factor (.plus :: ts) e
  | factor {ts : List Token} {e : Formula} (single : Derives .factor ts e) : Derives .term ts e
  | product {l r : List Token} {a b : Formula} (left : Derives .term l a)
      (right : Derives .factor r b) : Derives .term (l ++ .star :: r) (binary .mul a b)
  | quotient {l r : List Token} {a b : Formula} (left : Derives .term l a)
      (right : Derives .factor r b) : Derives .term (l ++ .slash :: r) (binary .div a b)
  | term {ts : List Token} {e : Formula} (single : Derives .term ts e) : Derives .sum ts e
  | add {l r : List Token} {a b : Formula} (left : Derives .sum l a)
      (right : Derives .term r b) : Derives .sum (l ++ .plus :: r) (binary .add a b)
  | sub {l r : List Token} {a b : Formula} (left : Derives .sum l a)
      (right : Derives .term r b) : Derives .sum (l ++ .minus :: r) (binary .sub a b)

namespace Category

/-- The least precedence of an operator that is applied in a category. -/
def precedence : Category → ℕ
  | sum => 1
  | term => 2
  | factor | atom => 3

/-- The least precedence of an operator that would take what stands before it from the
category, were it to follow. -/
def follow : Category → ℕ
  | sum => 2
  | term | factor => 3
  | atom => 4

/-- What is read when operators of at least this precedence are. -/
def ofPrecedence (least : ℕ) : Category :=
  if least ≤ 1 then sum else if least = 2 then term else factor

end Category

/-- The category of what an operator makes. -/
def Operator.category : Operator → Category
  | add | sub => .sum
  | mul | div => .term
  | pow => .factor

@[simp]
theorem Operator.precedence_category (op : Operator) : op.category.precedence = op.precedence := by
  cases op <;> rfl

@[simp]
theorem Operator.follow_category (op : Operator) : op.category.follow = op.rightPrecedence := by
  cases op <;> rfl

theorem Operator.rightPrecedence_le (op : Operator) : op.rightPrecedence ≤ 3 := by
  cases op <;> decide

/-- No operator of at least this precedence comes next. -/
def Stops (least : ℕ) (ts : List Token) : Prop :=
  ∀ op ∈ ts.head?.bind Operator.ofToken?, op.precedence < least

theorem stops_cons {least : ℕ} {t : Token} {ts : List Token} :
    Stops least (t :: ts) ↔ ∀ op, Operator.ofToken? t = some op → op.precedence < least := by
  simp [Stops]

theorem stops_nil (least : ℕ) : Stops least [] := by simp [Stops]

theorem Stops.mono {least least' : ℕ} {ts : List Token} (h : Stops least ts)
    (hle : least ≤ least') : Stops least' ts :=
  fun op hop => Nat.lt_of_lt_of_le (h op hop) hle

theorem stops_closeParen (least : ℕ) (ts : List Token) : Stops least (.closeParen :: ts) := by
  simp [stops_cons, Operator.ofToken?]

/-- A reading succeeds, with this tree and these tokens left. -/
def Reads {bound : ℕ} (r : Except Fault (Parsed bound)) (tree : Formula) (rest : List Token) : Prop :=
  ∃ h, r = .ok ⟨tree, rest, h⟩

theorem Reads.length_lt {bound : ℕ} {r : Except Fault (Parsed bound)} {tree : Formula}
    {rest : List Token} (h : Reads r tree rest) : rest.length < bound := h.1

@[simp]
theorem not_reads_error {bound : ℕ} {fault : Fault} {tree : Formula} {rest : List Token} :
    ¬ Reads (.error fault : Except Fault (Parsed bound)) tree rest := by
  rintro ⟨_, h⟩
  cases h

@[simp]
theorem reads_ok {bound : ℕ} {p : Parsed bound} {tree : Formula} {rest : List Token} :
    Reads (.ok p) tree rest ↔ p.tree = tree ∧ p.rest = rest := by
  constructor
  · rintro ⟨_, h⟩
    cases h
    exact ⟨rfl, rfl⟩
  · rintro ⟨rfl, rfl⟩
    exact ⟨p.shorter, rfl⟩

section

variable {least : ℕ} {left tree : Formula} {t : Token} {ts rest : List Token}

theorem reads_parseBinary : Reads (parseBinary least ts) tree rest ↔
    ∃ left mid, Reads (parseUnary ts) left mid ∧ Reads (parseOperators least left mid) tree rest := by
  rw [parseBinary]
  cases hunary : parseUnary ts with
  | error fault => simp
  | ok operand =>
    obtain ⟨left, mid, hmid⟩ := operand
    cases hoperators : parseOperators least left mid <;> simp [hoperators]

theorem reads_parseOperators_stops (h : Stops least ts) :
    Reads (parseOperators least left ts) tree rest ↔ left = tree ∧ ts = rest := by
  rw [parseOperators.eq_def]
  split
  · simp
  · rename_i t after
    split
    · simp
    · rename_i op hop
      rw [if_pos (stops_cons.mp h op hop)]
      simp

theorem reads_parseOperators_cons {op : Operator} (hop : Operator.ofToken? t = some op)
    (hle : least ≤ op.precedence) : Reads (parseOperators least left (t :: ts)) tree rest ↔
      ∃ right mid, Reads (parseBinary op.rightPrecedence ts) right mid ∧
        Reads (parseOperators least (binary op left right) mid) tree rest := by
  rw [parseOperators]
  simp only [hop, if_neg (Nat.not_lt.mpr hle)]
  cases hright : parseBinary op.rightPrecedence ts with
  | error fault => simp
  | ok operand =>
    obtain ⟨right, mid, hmid⟩ := operand
    cases hoperators : parseOperators least (binary op left right) mid <;> simp [hoperators]

theorem reads_parseUnary_minus : Reads (parseUnary (.minus :: ts)) tree rest ↔
    ∃ e, neg e = tree ∧ Reads (parseBinary 3 ts) e rest := by
  rw [parseUnary]
  cases h : parseBinary 3 ts <;> simp [Operator.precedence, h]

theorem reads_parseUnary_plus : Reads (parseUnary (.plus :: ts)) tree rest ↔
    Reads (parseUnary ts) tree rest := by
  rw [parseUnary]
  cases h : parseUnary ts <;> simp

/-- A plus sign in front leaves no trace. -/
theorem reads_parseBinary_plus : Reads (parseBinary least (.plus :: ts)) tree rest ↔
    Reads (parseBinary least ts) tree rest := by
  simp only [reads_parseBinary, reads_parseUnary_plus]

/-- What is in parentheses, and the tokens after the closing one. -/
theorem reads_parseAtom_parens : Reads (parseAtom (.openParen :: ts)) tree rest ↔
    Reads (parseBinary 0 ts) tree (.closeParen :: rest) := by
  rw [parseAtom]
  cases hinner : parseBinary 0 ts with
  | error fault => simp
  | ok inner =>
    obtain ⟨e, mid, hmid⟩ := inner
    cases mid with
    | nil => simp [expect]
    | cons found after =>
      by_cases hfound : found = .closeParen <;> simp [expect, hfound]

theorem Func.ofName?_name (f : Func) : Func.ofName? f.name = some f := by
  cases f <;> decide

theorem Func.name_of_ofName? {name : String} {f : Func} (h : Func.ofName? name = some f) :
    name = f.name := by
  have hname := List.find?_some h
  exact (beq_iff_eq.mp hname).symm

theorem Func.ofName?_eq_none {name : String} : Func.ofName? name = none ↔ ∀ f : Func, name ≠ f.name := by
  constructor
  · rintro h f rfl
    rw [Func.ofName?_name] at h
    cases h
  · intro h
    cases hname : Func.ofName? name with
    | none => rfl
    | some f => exact absurd (Func.name_of_ofName? hname) (h f)

theorem reads_parseAtom_call {f : Func} : Reads (parseAtom (.name f.name :: ts)) tree rest ↔
    ∃ inner e, ts = .openParen :: inner ∧ call f e = tree ∧
      Reads (parseBinary 0 inner) e (.closeParen :: rest) := by
  rw [parseAtom, Func.ofName?_name]
  cases ts with
  | nil => simp [expect]
  | cons found inner =>
    by_cases hfound : found = .openParen
    · subst hfound
      cases hinner : parseBinary 0 inner with
      | error fault => simp [expect, hinner]
      | ok argument =>
        obtain ⟨e, mid, hmid⟩ := argument
        cases mid with
        | nil => simp [expect, hinner]
        | cons last after => by_cases hlast : last = .closeParen <;> simp [expect, hinner, hlast]
    · simp [expect, hfound]

theorem reads_parseAtom_name {name : String} (h : ∀ f : Func, name ≠ f.name) :
    Reads (parseAtom (.name name :: ts)) tree rest ↔ ofName name = tree ∧ ts = rest := by
  rw [parseAtom]
  simp [Func.ofName?_eq_none.mpr h]

theorem reads_parseAtom_number {v : Float} :
    Reads (parseAtom (.number v :: ts)) tree rest ↔ constant v = tree ∧ ts = rest := by
  rw [parseAtom]
  simp

end

/-- Signs are read before an atom. -/
theorem parseUnary_eq_parseAtom {ts : List Token} (hminus : ∀ after, ts ≠ .minus :: after)
    (hplus : ∀ after, ts ≠ .plus :: after) : parseUnary ts = parseAtom ts := by
  rw [parseUnary.eq_def]
  split
  · exact absurd rfl (hminus _)
  · exact absurd rfl (hplus _)
  · rfl

/-- Whatever operators are asked for, these tokens are read as the left operand `e`, and reading
goes on behind them, unless an operator follows that takes some of them away. -/
def ReadBy (c : Category) (ts : List Token) (e : Formula) : Prop :=
  ∀ (least : ℕ) (rest : List Token) (tree : Formula) (last : List Token),
    least ≤ c.precedence → Stops c.follow rest → Reads (parseOperators least e rest) tree last →
    Reads (parseBinary least (ts ++ rest)) tree last

theorem ReadBy.whole {c : Category} {ts : List Token} {e : Formula} (h : ReadBy c ts e) {least : ℕ}
    (hleast : least ≤ c.precedence) (hfollow : least ≤ c.follow) {rest : List Token}
    (hstops : Stops least rest) : Reads (parseBinary least (ts ++ rest)) e rest :=
  h least rest e rest hleast (hstops.mono hfollow) ((reads_parseOperators_stops hstops).mpr ⟨rfl, rfl⟩)

theorem ReadBy.inParens {ts : List Token} {e : Formula} (h : ReadBy .sum ts e) (rest : List Token) :
    Reads (parseBinary 0 (ts ++ [.closeParen] ++ rest)) e (.closeParen :: rest) := by
  rw [List.append_assoc, List.singleton_append]
  exact h.whole (Nat.zero_le _) (Nat.zero_le _) (stops_closeParen 0 rest)

theorem ReadBy.of_atom {ts : List Token} {e : Formula} (hminus : ∀ after, ts ≠ .minus :: after)
    (hplus : ∀ after, ts ≠ .plus :: after) (hne : ts ≠ [])
    (h : ∀ rest, Reads (parseAtom (ts ++ rest)) e rest) : ReadBy .atom ts e := by
  intro least rest tree last _ _ hlast
  obtain ⟨t, after, rfl⟩ := List.exists_cons_of_ne_nil hne
  have hunary : parseUnary (t :: after ++ rest) = parseAtom (t :: after ++ rest) := by
    refine parseUnary_eq_parseAtom (fun after' => ?_) (fun after' => ?_)
    · have := hminus after
      simp_all
    · have := hplus after
      simp_all
  exact reads_parseBinary.mpr ⟨e, rest, hunary ▸ h rest, hlast⟩

/-- An operator between two operands of its own categories. -/
theorem ReadBy.binary (op : Operator) {cl cr : Category} {t : Token} {l r : List Token} {a b : Formula}
    (hop : Operator.ofToken? t = some op) (hl : ReadBy cl l a) (hr : ReadBy cr r b)
    (hleft : op.precedence ≤ cl.precedence ∧ op.precedence < cl.follow)
    (hright : op.rightPrecedence ≤ cr.precedence ∧ op.rightPrecedence ≤ cr.follow) :
    ReadBy op.category (l ++ t :: r) (binary op a b) := by
  intro least rest tree last hle hstops hlast
  rw [Operator.precedence_category] at hle
  rw [Operator.follow_category] at hstops
  have hoperand : Reads (parseBinary op.rightPrecedence (r ++ rest)) b rest :=
    hr.whole hright.1 hright.2 hstops
  have hnext : Stops cl.follow (t :: (r ++ rest)) := by
    rw [stops_cons]
    intro op' hop'
    rw [hop] at hop'
    cases hop'
    exact hleft.2
  rw [List.append_assoc, List.cons_append]
  exact hl _ _ _ _ (Nat.le_trans hle hleft.1) hnext ((reads_parseOperators_cons hop hle).mpr ⟨b, rest, hoperand, hlast⟩)

/-- The tokens of a derivation are read as its tree. -/
theorem Derives.readBy {c : Category} {ts : List Token} {e : Formula} (h : Derives c ts e) :
    ReadBy c ts e := by
  induction h with
  | number v =>
    exact .of_atom (by simp) (by simp) (by simp) fun rest => reads_parseAtom_number.mpr ⟨rfl, rfl⟩
  | pi =>
    have hfunc : ∀ f : Func, "pi" ≠ f.name := by
      intro f
      cases f <;> decide
    exact .of_atom (by simp) (by simp) (by simp) fun rest => (reads_parseAtom_name hfunc).mpr ⟨rfl, rfl⟩
  | euler =>
    have hfunc : ∀ f : Func, "e" ≠ f.name := by
      intro f
      cases f <;> decide
    exact .of_atom (by simp) (by simp) (by simp) fun rest => (reads_parseAtom_name hfunc).mpr ⟨rfl, rfl⟩
  | symbol name ne_pi ne_e ne_func =>
    have hname : ofName name = Formula.symbol name := by simp [ofName, ne_pi, ne_e]
    exact .of_atom (by simp) (by simp) (by simp) fun rest =>
      (reads_parseAtom_name ne_func).mpr ⟨hname, rfl⟩
  | call f _ ih =>
    exact .of_atom (by simp) (by simp) (by simp) fun rest =>
      reads_parseAtom_call.mpr ⟨_, _, rfl, rfl, ih.inParens rest⟩
  | parens _ ih =>
    exact .of_atom (by simp) (by simp) (by simp) fun rest => reads_parseAtom_parens.mpr (ih.inParens rest)
  | atom _ ih =>
    intro least rest tree last hle hstops hlast
    exact ih _ _ _ _ hle (hstops.mono (by decide)) hlast
  | power _ _ ihl ihr =>
    exact .binary .pow rfl ihl ihr (by decide) (by decide)
  | @minus ts e _ ih =>
    intro least rest tree last _ hstops hlast
    have hoperand : Reads (parseBinary 3 (ts ++ rest)) e rest := ih.whole (Nat.le_refl 3) (Nat.le_refl 3) hstops
    exact reads_parseBinary.mpr ⟨_, rest, reads_parseUnary_minus.mpr ⟨e, rfl, hoperand⟩, hlast⟩
  | plus _ ih =>
    intro least rest tree last hle hstops hlast
    exact reads_parseBinary_plus.mpr (ih _ _ _ _ hle hstops hlast)
  | factor _ ih =>
    intro least rest tree last hle hstops hlast
    exact ih _ _ _ _ (Nat.le_succ_of_le hle) hstops hlast
  | product _ _ ihl ihr => exact .binary .mul rfl ihl ihr (by decide) (by decide)
  | quotient _ _ ihl ihr => exact .binary .div rfl ihl ihr (by decide) (by decide)
  | term _ ih =>
    intro least rest tree last hle hstops hlast
    exact ih _ _ _ _ (Nat.le_succ_of_le hle) (hstops.mono (by decide)) hlast
  | add _ _ ihl ihr => exact .binary .add rfl ihl ihr (by decide) (by decide)
  | sub _ _ ihl ihr => exact .binary .sub rfl ihl ihr (by decide) (by decide)

/-- A category is part of those whose operators bind less tightly. -/
theorem Derives.loosen {c : Category} {ts : List Token} {e : Formula} (h : Derives c ts e) {least : ℕ}
    (hle : least ≤ c.precedence) : Derives (.ofPrecedence least) ts e := by
  rw [Category.ofPrecedence]
  split_ifs with hsum hterm
  · cases c with
    | sum => exact h
    | term => exact h.term
    | factor => exact h.factor.term
    | atom => exact h.atom.factor.term
  · cases c with
    | sum => exact absurd hle hsum
    | term => exact h
    | factor => exact h.factor
    | atom => exact h.atom.factor
  · have htight : 3 ≤ c.precedence := by omega
    cases c with
    | sum => exact absurd htight (by decide)
    | term => exact absurd htight (by decide)
    | factor => exact h
    | atom => exact h.atom

/-- A plus sign in front goes to the first factor. -/
theorem Derives.plus_front {c : Category} {ts : List Token} {e : Formula} (h : Derives c ts e)
    (hc : c ≠ .atom) : Derives c (.plus :: ts) e := by
  induction h with
  | number | pi | euler | symbol | call | parens => exact absurd rfl hc
  | atom single => exact .plus single.atom
  | power base exponent => exact .plus (.power base exponent)
  | minus operand => exact .plus (.minus operand)
  | plus operand => exact .plus (.plus operand)
  | factor _ ih => exact .factor (ih (by decide))
  | product _ right ih => exact .product (ih (by decide)) right
  | quotient _ right ih => exact .quotient (ih (by decide)) right
  | term _ ih => exact .term (ih (by decide))
  | add _ right ih => exact .add (ih (by decide)) right
  | sub _ right ih => exact .sub (ih (by decide)) right

theorem Category.eq_atom {c : Category} (h : 3 < c.follow) : c = .atom := by
  cases c with
  | atom => rfl
  | _ => exact absurd h (by decide)

theorem Category.le_precedence {c : Category} {p : ℕ} (h : p < c.follow) : p ≤ c.precedence := by
  cases c <;> simp only [follow, precedence] at h ⊢ <;> omega

/-- An operator that may follow its left operand makes what its category says. -/
theorem Derives.apply {c : Category} {op : Operator} {t : Token} {l r : List Token} {a b : Formula}
    (hop : Operator.ofToken? t = some op) (hl : Derives c l a) (hfollow : op.precedence < c.follow)
    (hr : Derives (.ofPrecedence op.rightPrecedence) r b) :
    Derives op.category (l ++ t :: r) (binary op a b) := by
  have hleft := hl.loosen (Category.le_precedence hfollow)
  cases t <;> cases hop
  · exact .add hleft hr
  · exact .sub hleft hr
  · exact .product hleft hr
  · exact .quotient hleft hr
  · obtain rfl := Category.eq_atom hfollow
    exact .power hl hr

/-- What is read of fewer than `n` tokens is derived from those that are used up. -/
def SoundBelow (n : ℕ) : Prop :=
  ∀ (least : ℕ) (ts : List Token) (tree : Formula) (rest : List Token), ts.length < n → least ≤ 3 →
    Reads (parseBinary least ts) tree rest →
    ∃ used, ts = used ++ rest ∧ Derives (.ofPrecedence least) used tree ∧ Stops least rest

namespace SoundBelow

variable {n : ℕ}

theorem parens (ih : SoundBelow n) {ts rest : List Token} {e : Formula} (hlen : ts.length < n)
    (h : Reads (parseBinary 0 ts) e (.closeParen :: rest)) :
    ∃ used, ts = used ++ [.closeParen] ++ rest ∧ Derives .sum used e := by
  obtain ⟨used, rfl, hused, -⟩ := ih 0 ts e _ hlen (Nat.zero_le 3) h
  exact ⟨used, by simp, hused⟩

theorem atom (ih : SoundBelow n) {ts rest : List Token} {e : Formula} (hlen : ts.length ≤ n)
    (h : Reads (parseAtom ts) e rest) : ∃ used, ts = used ++ rest ∧ Derives .atom used e := by
  cases ts with
  | nil =>
    rw [parseAtom] at h
    simp at h
  | cons t after =>
    cases t with
    | number v =>
      obtain ⟨rfl, rfl⟩ := reads_parseAtom_number.mp h
      exact ⟨_, rfl, .number v⟩
    | name name =>
      by_cases hfunc : ∃ f : Func, name = f.name
      · obtain ⟨f, rfl⟩ := hfunc
        obtain ⟨inner, argument, rfl, rfl, hinner⟩ := reads_parseAtom_call.mp h
        obtain ⟨used, rfl, hused⟩ := ih.parens (by simp at hlen; omega) hinner
        exact ⟨.name f.name :: .openParen :: (used ++ [.closeParen]), rfl, .call f hused⟩
      · have hname : ∀ f : Func, name ≠ f.name := fun f hf => hfunc ⟨f, hf⟩
        obtain ⟨rfl, rfl⟩ := (reads_parseAtom_name hname).mp h
        refine ⟨[.name name], rfl, ?_⟩
        rw [ofName]
        split_ifs with hpi he
        · exact hpi ▸ .pi
        · exact he ▸ .euler
        · exact .symbol name hpi he hname
    | openParen =>
      obtain ⟨used, rfl, hused⟩ := ih.parens hlen (reads_parseAtom_parens.mp h)
      exact ⟨.openParen :: (used ++ [.closeParen]), rfl, .parens hused⟩
    | _ =>
      rw [parseAtom] at h
      · simp at h
      all_goals simp

/-- The invariant of reading operators: what has been used up derives the left operand, in a
category from which the next operator takes nothing away. -/
theorem operators (ih : SoundBelow n) {least : ℕ} {c : Category} {used ts rest : List Token}
    {left tree : Formula} (hleft : Derives c used left) (hle : least ≤ c.precedence)
    (hfollow : Stops c.follow ts) (hlen : ts.length ≤ n)
    (h : Reads (parseOperators least left ts) tree rest) :
    ∃ more, ts = more ++ rest ∧ Derives (.ofPrecedence least) (used ++ more) tree ∧ Stops least rest := by
  induction hk : ts.length using Nat.strongRecOn generalizing c used ts left with
  | _ k step =>
    by_cases hstops : Stops least ts
    · obtain ⟨rfl, rfl⟩ := (reads_parseOperators_stops hstops).mp h
      exact ⟨[], rfl, by simpa using hleft.loosen hle, hstops⟩
    · cases ts with
      | nil => exact absurd (stops_nil least) hstops
      | cons t after =>
        simp only [stops_cons, not_forall, Nat.not_lt] at hstops
        obtain ⟨op, hop, hop_le⟩ := hstops
        have hop_lt : op.precedence < c.follow := stops_cons.mp hfollow op hop
        obtain ⟨right, mid, hright, hrest⟩ := (reads_parseOperators_cons hop hop_le).mp h
        obtain ⟨taken, rfl, htaken, hmid⟩ := ih _ _ _ _ hlen op.rightPrecedence_le hright
        have happlied := hleft.apply hop hop_lt htaken
        have hshort : mid.length < k := by
          rw [← hk, List.length_cons, List.length_append]
          omega
        have hmid_le : mid.length ≤ n := by
          rw [hk] at hlen
          omega
        obtain ⟨more, rfl, hmore, hrest_stops⟩ := step _ hshort happlied (by simpa using hop_le)
          (by simpa using hmid) hmid_le hrest rfl
        exact ⟨t :: (taken ++ more), by simp, by simpa using hmore, hrest_stops⟩

/-- What is read of one token more is derived as well. -/
theorem succ (ih : SoundBelow n) : SoundBelow (n + 1) := by
  intro least ts tree rest hlen hleast h
  have hlen : ts.length ≤ n := Nat.le_of_lt_succ hlen
  by_cases hplus : ∃ after, ts = .plus :: after
  · obtain ⟨after, rfl⟩ := hplus
    obtain ⟨used, rfl, hused, hstops⟩ := ih _ _ _ _ hlen hleast (reads_parseBinary_plus.mp h)
    refine ⟨.plus :: used, rfl, hused.plus_front ?_, hstops⟩
    rw [Category.ofPrecedence]
    split_ifs <;> simp
  · obtain ⟨left, mid, hunary, hoperators⟩ := reads_parseBinary.mp h
    have hmid : mid.length ≤ n := Nat.le_of_lt (Nat.lt_of_lt_of_le hunary.length_lt hlen)
    by_cases hminus : ∃ after, ts = .minus :: after
    · obtain ⟨after, rfl⟩ := hminus
      obtain ⟨e, rfl, hread⟩ := reads_parseUnary_minus.mp hunary
      obtain ⟨used, rfl, hused, hstops⟩ := ih _ _ _ _ hlen (Nat.le_refl 3) hread
      obtain ⟨more, rfl, hmore, hrest⟩ :=
        ih.operators (Derives.minus hused) hleast hstops hmid hoperators
      exact ⟨.minus :: (used ++ more), by simp, hmore, hrest⟩
    · have hatom : parseUnary ts = parseAtom ts :=
        parseUnary_eq_parseAtom (fun after hts => hminus ⟨after, hts⟩) fun after hts => hplus ⟨after, hts⟩
      rw [hatom] at hunary
      obtain ⟨used, rfl, hused⟩ := ih.atom hlen hunary
      have hany : Stops Category.atom.follow mid := fun op _ => by cases op <;> decide
      obtain ⟨more, rfl, hmore, hrest⟩ := ih.operators hused hleast hany hmid hoperators
      exact ⟨used ++ more, by simp, hmore, hrest⟩

end SoundBelow

theorem soundBelow (n : ℕ) : SoundBelow n := by
  induction n with
  | zero =>
    intro least ts tree rest hlen
    exact absurd hlen (Nat.not_lt_zero _)
  | succ n ih => exact ih.succ

theorem ofTokens_eq_ok {ts : List Token} {e : Formula} :
    ofTokens ts = .ok e ↔ Reads (parseBinary 0 ts) e [] := by
  rw [ofTokens]
  cases h : parseBinary 0 ts with
  | error fault => simp
  | ok parsed =>
    obtain ⟨tree, rest, hrest⟩ := parsed
    cases rest <;> simp

theorem ofTokens_eq_ok_iff_derives {ts : List Token} {e : Formula} :
    ofTokens ts = .ok e ↔ Derives .sum ts e := by
  rw [ofTokens_eq_ok]
  constructor
  · intro h
    obtain ⟨used, rfl, hused, -⟩ := soundBelow _ 0 ts e [] (Nat.lt_succ_self _) (Nat.zero_le 3) h
    rw [List.append_nil]
    exact hused
  · intro h
    have hwhole := h.readBy.whole (Nat.zero_le _) (Nat.zero_le _) (stops_nil 0)
    rwa [List.append_nil] at hwhole

theorem explained_parse_eq_ok {source : String} {e : Formula} :
    explained source (parse source) = .ok e ↔
      ∃ ts, tokens source.toList = .ok ts ∧ Derives .sum ts e := by
  rw [parse]
  cases htokens : tokens source.toList with
  | error c => simp [explained, Except.mapError]
  | ok ts =>
    simp only [Except.ok.injEq, exists_eq_left', ← ofTokens_eq_ok_iff_derives]
    cases ofTokens ts <;> simp [explained, Except.mapError]

/-- Tokens are read as a formula exactly when they derive from the grammar, and the formula is the
tree of the derivation. A text is a formula exactly when its tokens are one; every other text is
refused with a complaint about it. -/
theorem reading_follows_grammar :
    (∀ (ts : List Token) (e : Formula), ofTokens ts = .ok e ↔ Derives .sum ts e) ∧
    ∀ source : String,
      (∀ e, explained source (parse source) = .ok e ↔
        ∃ ts, tokens source.toList = .ok ts ∧ Derives .sum ts e) ∧
      ((∃ message, explained source (parse source) = .error (.formula source message)) ↔
        ¬ ∃ ts e, tokens source.toList = .ok ts ∧ Derives .sum ts e) := by
  refine ⟨fun ts e => ofTokens_eq_ok_iff_derives, fun source => ⟨fun e => explained_parse_eq_ok, ?_⟩⟩
  have hderives : (∃ ts e, tokens source.toList = .ok ts ∧ Derives .sum ts e) ↔
      ∃ e, explained source (parse source) = .ok e := by
    simp only [explained_parse_eq_ok]
    exact exists_comm
  rw [hderives]
  cases parse source <;> simp [explained, Except.mapError]

end QuantumKernels.Formula
