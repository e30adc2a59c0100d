import Mathlib
import QuantumKernels.Gate
import QuantumKernels.Proofs.Outcome
import QuantumKernels.Proofs.Simulator.BasisState
import QuantumKernels.Simulator.Plan

/-!
# What a run of a plan needs

The gates that states are changed by are those of the table of kinds, on different qubits of the register and
with numbers for the angles they read. A reading needs a number for its probability, and an error that is not
above one. A run that succeeds has met these needs; on a register that has all its amplitudes nothing else is
needed.
-/
namespace QuantumKernels

namespace Binary64

open Float.Model Float.Model.UnpackedFloat

theorem le_iff {x y : Float} : x ≤ y ↔ UnpackedFloat.le x.toModel.unpack y.toModel.unpack = true := by
  change decide (x.toModel ≤ y.toModel) = true ↔ _
  exact decide_eq_true_iff

theorem beq_iff {x y : Float} : (x == y) = true ↔ UnpackedFloat.beq x.toModel.unpack y.toModel.unpack = true :=
  Iff.rfl

theorem unpack_zero : (0 : Float).toModel.unpack = .zero .positive := rfl

theorem unpack_one : (1 : Float).toModel.unpack = .finite .positive (2 ^ 52) (-52) (by decide) := by rfl

/-- Numbers below zero and above one apart, a number is one or lies between the two. -/
theorem one_or_between {x : Float} (hnumber : x.isNaN = false) (hlow : ¬ x < 0) (hhigh : ¬ 1 < x) :
    (x == 1) = true ∨ (0 ≤ x ∧ x < 1) := by
  have hunpack : x.toModel.unpack.isNaN = false := hnumber
  rw [lt_iff, unpack_zero] at hlow
  rw [lt_iff, unpack_one] at hhigh
  rw [beq_iff, le_iff, lt_iff, unpack_zero, unpack_one]
  cases hx : x.toModel.unpack with
  | notANumber =>
    rw [hx] at hunpack
    cases hunpack
  | infinity s =>
    rw [hx] at hlow hhigh
    cases s with
    | positive => exact absurd rfl hhigh
    | negative => exact absurd rfl hlow
  | zero s => exact .inr ⟨rfl, rfl⟩
  | finite s m e hm =>
    rw [hx] at hlow hhigh
    cases s with
    | negative => exact absurd rfl hlow
    | positive =>
      -- both comparisons with one go by exponent and mantissa, in either direction
      have hswap : (compare e (-52)).then (compare m (2 ^ 52)) =
          ((compare (-52) e).then (compare (2 ^ 52) m)).swap := by
        rw [Ordering.swap_then, Int.compare_swap, Nat.compare_swap]
      change ¬ (some ((compare (-52) e).then (compare (2 ^ 52) m)) == some .lt) = true at hhigh
      change (some ((compare e (-52)).then (compare m (2 ^ 52))) == some .eq) = true ∨
        (true = true ∧ (some ((compare e (-52)).then (compare m (2 ^ 52))) == some .lt) = true)
      rw [hswap]
      cases hcompare : (compare (-52) e).then (compare (2 ^ 52) m) with
      | lt => exact absurd (by rw [hcompare]; rfl) hhigh
      | eq => exact .inl rfl
      | gt => exact .inr ⟨rfl, rfl⟩

/-- A positive real is a number and not negative. -/
theorem positive {x : Float} (h : 0 < x) : x.isNaN = false ∧ ¬ x < 0 := by
  rw [lt_iff, unpack_zero] at h
  rw [lt_iff, unpack_zero]
  change x.toModel.unpack.isNaN = false ∧ _
  cases hx : x.toModel.unpack with
  | notANumber =>
    rw [hx] at h
    cases h
  | infinity s =>
    rw [hx] at h
    cases s with
    | positive => exact ⟨rfl, by decide⟩
    | negative => cases h
  | zero s =>
    rw [hx] at h
    cases s <;> cases h
  | finite s m e hm =>
    rw [hx] at h
    cases s with
    | positive => exact ⟨rfl, fun hneg => by cases hneg⟩
    | negative => cases h

/-- A number above one is positive, and neither one nor below it. -/
theorem above_one {x : Float} (h : 1 < x) : 0 < x ∧ (x == 1) = false ∧ ¬ x < 1 := by
  rw [lt_iff, unpack_one] at h
  rw [lt_iff, lt_iff, unpack_zero, unpack_one, ← Bool.not_eq_true, beq_iff, unpack_one]
  cases hx : x.toModel.unpack with
  | notANumber =>
    rw [hx] at h
    cases h
  | infinity s =>
    rw [hx] at h
    cases s with
    | positive => exact ⟨rfl, by decide, by decide⟩
    | negative => cases h
  | zero s =>
    rw [hx] at h
    cases s <;> cases h
  | finite s m e hm =>
    rw [hx] at h
    cases s with
    | negative => cases h
    | positive =>
      have hswap : (compare e (-52)).then (compare m (2 ^ 52)) =
          ((compare (-52) e).then (compare (2 ^ 52) m)).swap := by
        rw [Ordering.swap_then, Int.compare_swap, Nat.compare_swap]
      change (some ((compare (-52) e).then (compare (2 ^ 52) m)) == some .lt) = true at h
      change true = true ∧ ¬ (some ((compare e (-52)).then (compare m (2 ^ 52))) == some .eq) = true ∧
        ¬ (some ((compare e (-52)).then (compare m (2 ^ 52))) == some .lt) = true
      rw [hswap]
      cases hcompare : (compare (-52) e).then (compare (2 ^ 52) m) with
      | lt => decide
      | eq => exact absurd h (by rw [hcompare]; decide)
      | gt => exact absurd h (by rw [hcompare]; decide)

end Binary64

namespace StateVector

variable {op : Operation} {kind : OperationKind}

theorem angle_ok_iff {i : ℕ} :
    (∃ x, angle op i = .ok x) ↔ ((op.parameters[i]?).bind Parameter.toReal?).isSome := by
  unfold angle
  cases op.parameters[i]? with
  | none => simp
  | some p => cases hp : p.toReal? <;> simp [hp]

/-- A gate that reads one angle. -/
theorem turned_ok_iff (gate : Float → Action) :
    (∃ a, (do return gate (← angle op 0)) = Except.ok a) ↔ ∀ i < 1, ∃ x, angle op i = .ok x := by
  rw [Nat.forall_lt_succ_left]
  cases angle op 0 with
  | error e => simp [bind, Except.bind]
  | ok x => simp [bind, Except.bind, pure, Except.pure]

theorem general_ok_iff : (∃ a, (do return Action.single (.general (← angle op 0) (← angle op 1) (← angle op 2))) =
    Except.ok a) ↔ ∀ i < 3, ∃ x, angle op i = .ok x := by
  simp only [Nat.forall_lt_succ_left, Nat.not_lt_zero, false_implies, implies_true, and_true]
  cases angle op 0 <;> cases angle op 1 <;> cases angle op 2 <;> simp [bind, Except.bind, pure, Except.pure]

/-- The simulator reads as many angles of a gate as its kind takes. -/
theorem action_ok_iff_of_known (hkind : kind ∈ Kind.table .gate) (hname : kind.name = op.name)
    (hgate : op.isMeasure = false) : (∃ a, action op = .ok a) ↔ ∀ i < kind.parameters, ∃ x, angle op i = .ok x := by
  simp only [Kind.table, List.mem_cons, List.not_mem_nil, or_false] at hkind
  unfold action
  rcases hkind with rfl | rfl | rfl | rfl | rfl | rfl | rfl | rfl | rfl | rfl | rfl | rfl | rfl | rfl | rfl | rfl |
    rfl | rfl | rfl | rfl | rfl
  all_goals
    simp only [← hname]
    first
    | exact iff_of_true ⟨_, rfl⟩ nofun
    | exact turned_ok_iff fun x => .single _
    | exact turned_ok_iff fun x => .controlled _
    | exact general_ok_iff
    | exact absurd hgate (by simp [Operation.isMeasure, ← hname])

theorem action_unknown (hunknown : op.name ∉ (Kind.table .gate).map OperationKind.name) :
    ∃ e, action op = .error e := by
  unfold action
  split
  all_goals first
    | exact ⟨_, rfl⟩
    | rename_i hname
      rw [hname] at hunknown
      exact absurd (by decide) hunknown

/-- The gates on two qubits are those whose kind takes two. -/
theorem takesTwo_of_known (hkind : kind ∈ Kind.table .gate) (hname : kind.name = op.name) :
    op.bits.length = kind.bits ↔ op.bits.length = if takesTwo op.name then 2 else 1 := by
  have htable : ∀ kind ∈ Kind.table .gate, kind.bits = if takesTwo kind.name then 2 else 1 := by decide
  rw [htable kind hkind, hname]

end StateVector

/-- A gate of the table on different qubits of a register, with numbers where it reads angles. -/
structure Operation.Applies (op : Operation) (qubits : ℕ) : Prop where
  inside : ∀ q ∈ op.bits, q < qubits
  distinct : op.bits.Nodup
  known : ∃ kind ∈ Kind.table .gate, kind.name = op.name ∧ op.bits.length = kind.bits ∧
    ∀ i < kind.parameters, ((op.parameters[i]?).bind Parameter.toReal?).isSome

namespace StateVector

variable {s : StateVector} {op : Operation}

/-- The gates that states are changed by are those of the table. -/
theorem exists_actionOn_iff {qubits : ℕ} (hgate : op.isMeasure = false) :
    (∃ a, actionOn qubits op = .ok a) ↔ op.Applies qubits := by
  simp only [actionOn_eq_ok_iff]
  constructor
  · rintro ⟨a, hinside, hdistinct, hlength, haction⟩
    by_cases hnamed : op.name ∈ (Kind.table .gate).map OperationKind.name
    · obtain ⟨kind, hkind, hname⟩ := List.mem_map.mp hnamed
      refine ⟨hinside, hdistinct, kind, hkind, hname, (takesTwo_of_known hkind hname).mpr hlength, fun i hi => ?_⟩
      exact angle_ok_iff.mp ((action_ok_iff_of_known hkind hname hgate).mp ⟨a, haction⟩ i hi)
    · obtain ⟨e, he⟩ := action_unknown hnamed
      cases he.symm.trans haction
  · rintro ⟨hinside, hdistinct, kind, hkind, hname, hlength, hangles⟩
    obtain ⟨a, haction⟩ := (action_ok_iff_of_known hkind hname hgate).mpr fun i hi => angle_ok_iff.mpr (hangles i hi)
    exact ⟨a, hinside, hdistinct, (takesTwo_of_known hkind hname).mp hlength, haction⟩

/-- A draw has an outcome exactly if its probability is a number. -/
theorem chance?_clampUnit_isSome (x : Float) (r : RandomStream) :
    (r.chance? (clampUnit x)).isSome ↔ x.isNaN = false := by
  constructor
  · intro h
    by_contra hnan
    rw [Bool.not_eq_false, Float.isNaN_eq_decide_eq_nan, decide_eq_true_iff] at hnan
    subst hnan
    have hclamp : clampUnit Float.nan = Float.nan := by decide +kernel
    have hone : (Float.nan == 1) = false := by decide +kernel
    have hrange : ¬ (0 ≤ Float.nan ∧ Float.nan < 1) := by decide +kernel
    rw [hclamp, RandomStream.chance?, hone, if_neg (by decide), if_neg hrange] at h
    cases h
  · intro hnumber
    unfold clampUnit
    split
    · rw [RandomStream.chance?_zero (.inl rfl)]
      rfl
    · rename_i hlow
      split
      · rw [RandomStream.chance?_one]
        rfl
      · rename_i hhigh
        have hcases := Binary64.one_or_between hnumber hlow hhigh
        unfold RandomStream.chance?
        split
        · rfl
        · rename_i hone
          rw [if_pos (hcases.resolve_left hone)]
          rfl

theorem measure_ok_iff {q : ℕ} {r : RandomStream} :
    (∃ o, s.measure q r = .ok o) ↔ (s.probabilityOne q).isNaN = false := by
  rw [← chance?_clampUnit_isSome _ r]
  unfold measure
  dsimp only
  cases r.chance? (clampUnit (s.probabilityOne q)) with
  | none => exact iff_of_false nofun nofun
  | some o => exact iff_of_true ⟨_, rfl⟩ rfl

end StateVector

namespace Register

variable {r r' : Register} {op : Operation} {ops : List Operation}

theorem act_keeps {a : StateVector.Action} {bits : List ℕ} (h : r.act a bits = .ok r') :
    r'.qubits = r.qubits ∧ r'.state.qubits = r.state.qubits := by
  unfold act at h
  split at h
  · cases h
    exact ⟨rfl, rfl⟩
  · cases h
    exact ⟨rfl, StateVector.qubits_act a bits⟩
  · cases h

/-- Gates and readings change amplitudes only. -/
theorem applyOperation_keeps (h : r.applyOperation op = .ok r') :
    r'.qubits = r.qubits ∧ r'.state.qubits = r.state.qubits := by
  obtain ⟨a, -, hact⟩ := bind_eq_ok_iff.mp h
  exact act_keeps hact

theorem measure_keeps {q : ℕ} {random : RandomStream} {o : Bool × Register × RandomStream}
    (h : r.measure q random = .ok o) : o.2.1.qubits = r.qubits ∧ o.2.1.state.qubits = r.state.qubits := by
  obtain ⟨o', hmeasure, h⟩ := bind_eq_ok_iff.mp h
  cases h
  exact ⟨rfl, StateVector.qubits_measure hmeasure⟩

theorem applies_of_applyOperation (hgate : op.isMeasure = false) (h : r.applyOperation op = .ok r') :
    op.Applies r.qubits := by
  obtain ⟨a, haction, -⟩ := bind_eq_ok_iff.mp h
  exact (StateVector.exists_actionOn_iff hgate).mp ⟨a, haction⟩

theorem Whole.applyOperation_ok_iff (hwhole : r.Whole) (hgate : op.isMeasure = false) :
    (∃ r', r.applyOperation op = .ok r') ↔ op.Applies r.qubits := by
  refine ⟨fun ⟨_, h⟩ => applies_of_applyOperation hgate h, fun happlies => ?_⟩
  obtain ⟨a, haction⟩ := (StateVector.exists_actionOn_iff hgate).mpr happlies
  rw [← hwhole.qubits] at haction
  rw [hwhole.applyOperation, StateVector.applyOperation, haction]
  exact ⟨_, rfl⟩

theorem measure_ok_iff {q : ℕ} (random : RandomStream) :
    (∃ o, r.measure q random = .ok o) ↔ (r.state.probabilityOne (place q)).isNaN = false := by
  rw [← StateVector.measure_ok_iff (r := random), measure]
  cases r.state.measure (place q) random <;> simp [bind, Except.bind, pure, Except.pure]

theorem Whole.keeps (hwhole : r.Whole) (h : r'.qubits = r.qubits ∧ r'.state.qubits = r.state.qubits) : r'.Whole where
  held := h.1 ▸ hwhole.held
  qubits := by rw [h.1, h.2, hwhole.qubits]

theorem applies_of_foldlM (hgates : ∀ op ∈ ops, op.isMeasure = false)
    (h : ops.foldlM applyOperation r = .ok r') : ∀ op ∈ ops, op.Applies r.qubits := by
  induction ops generalizing r with
  | nil => exact nofun
  | cons op rest ih =>
    obtain ⟨r₁, hstep, hlater⟩ := foldlM_cons_eq_ok_iff.mp h
    have hrest := ih (fun o ho => hgates o (List.mem_cons_of_mem op ho)) hlater
    rw [(applyOperation_keeps hstep).1] at hrest
    exact List.forall_mem_cons.mpr ⟨applies_of_applyOperation (hgates op List.mem_cons_self) hstep, hrest⟩

theorem Whole.foldlM_applyOperation (hwhole : r.Whole) (hgates : ∀ op ∈ ops, op.isMeasure = false)
    (happlies : ∀ op ∈ ops, op.Applies r.qubits) : ∃ r', ops.foldlM Register.applyOperation r = .ok r' := by
  induction ops generalizing r with
  | nil => exact ⟨r, rfl⟩
  | cons op rest ih =>
    obtain ⟨hfirst, hrest⟩ := List.forall_mem_cons.mp happlies
    obtain ⟨r₁, hstep⟩ := (hwhole.applyOperation_ok_iff (hgates op List.mem_cons_self)).mpr hfirst
    have hkeeps := applyOperation_keeps hstep
    rw [← hkeeps.1] at hrest
    obtain ⟨r', hlater⟩ := ih (hwhole.keeps hkeeps) (fun o ho => hgates o (List.mem_cons_of_mem op ho)) hrest
    exact ⟨r', foldlM_cons_eq_ok_iff.mpr ⟨r₁, hstep, hlater⟩⟩

end Register

namespace Plan

variable {error : Float} {ops : List Operation} {t t' : Shot} {op : Operation}

/-- A bit is read unless the error is above one: what is not positive flips no bit. -/
theorem flip_ok_iff (bit : Bool) (r : RandomStream) : (∃ o, flip error bit r = .ok o) ↔ ¬ 1 < error := by
  unfold flip
  split
  · rename_i hpositive
    constructor
    · rintro ⟨o, h⟩ habove
      obtain ⟨-, hone, hbelow⟩ := Binary64.above_one habove
      rw [RandomStream.chance?, hone, if_neg (by decide), if_neg fun hrange => hbelow hrange.2] at h
      cases h
    · intro hnot
      obtain ⟨hnumber, hlow⟩ := Binary64.positive hpositive
      rcases Binary64.one_or_between hnumber hlow hnot with hone | hrange
      · rw [RandomStream.chance?, if_pos hone]
        exact ⟨_, rfl⟩
      · unfold RandomStream.chance?
        cases error == 1 with
        | true => exact ⟨_, rfl⟩
        | false =>
          rw [if_neg (by decide), if_pos hrange]
          exact ⟨_, rfl⟩
  · rename_i hnot
    exact iff_of_true ⟨_, rfl⟩ fun habove => hnot (Binary64.above_one habove).1

theorem Shot.step_keeps (h : Shot.step error t op = .ok t') : t'.register.qubits = t.register.qubits ∧
    t'.register.state.qubits = t.register.state.qubits := by
  unfold Shot.step at h
  split at h
  · obtain ⟨o, hmeasure, h⟩ := bind_eq_ok_iff.mp h
    obtain ⟨flipped, -, h⟩ := bind_eq_ok_iff.mp h
    cases h
    exact Register.measure_keeps hmeasure
  · obtain ⟨s, happly, h⟩ := bind_eq_ok_iff.mp h
    cases h
    exact Register.applyOperation_keeps happly

/-- What an operation of a shot needs: a reading needs a number for its probability and an error that is
not above one, a gate has to apply. -/
def Shot.Ready (error : Float) (t : Shot) (op : Operation) : Prop :=
  if op.isMeasure then
    (t.register.state.probabilityOne (Register.place (op.bits.headD 0))).isNaN = false ∧ ¬ 1 < error
  else op.Applies t.register.qubits

theorem Shot.step_measure_ok_iff (hmeasure : op.isMeasure = true) :
    (∃ t', Shot.step error t op = .ok t') ↔ t.Ready error op := by
  rw [Shot.step, Shot.Ready, if_pos hmeasure, if_pos hmeasure, ← Register.measure_ok_iff t.random]
  cases t.register.measure (op.bits.headD 0) t.random with
  | error e => exact iff_of_false nofun nofun
  | ok o =>
    rw [← flip_ok_iff o.1 o.2.2]
    change (∃ t', (flip error o.1 o.2.2).bind _ = .ok t') ↔ _
    cases flip error o.1 o.2.2 with
    | error e => exact iff_of_false nofun fun ⟨_, _, h⟩ => by cases h
    | ok flipped => exact iff_of_true ⟨_, rfl⟩ ⟨⟨o, rfl⟩, flipped, rfl⟩

theorem Shot.ready_of_step (h : Shot.step error t op = .ok t') : t.Ready error op := by
  cases hmeasure : op.isMeasure with
  | true => exact (Shot.step_measure_ok_iff hmeasure).mp ⟨t', h⟩
  | false =>
    rw [Shot.step, if_neg (by simp [hmeasure])] at h
    obtain ⟨r', happly, -⟩ := bind_eq_ok_iff.mp h
    rw [Shot.Ready, if_neg (by simp [hmeasure])]
    exact Register.applies_of_applyOperation hmeasure happly

/-- On a register with all its amplitudes an operation needs nothing else. -/
theorem Shot.step_of_ready (hwhole : t.register.Whole) (h : t.Ready error op) : ∃ t', Shot.step error t op = .ok t' := by
  cases hmeasure : op.isMeasure with
  | true => exact (Shot.step_measure_ok_iff hmeasure).mpr h
  | false =>
    rw [Shot.Ready, if_neg (by simp [hmeasure])] at h
    obtain ⟨r', happly⟩ := (hwhole.applyOperation_ok_iff hmeasure).mpr h
    rw [Shot.step, if_neg (by simp [hmeasure]), happly]
    exact ⟨_, rfl⟩

/-- A shot from `t` on comes to an operation, being in the state `t'`. -/
inductive Shot.Reaches (error : Float) : List Operation → Shot → Operation → Shot → Prop
  | here (op : Operation) (rest : List Operation) (t : Shot) : Reaches error (op :: rest) t op t
  | later {o : Operation} {rest : List Operation} {t t₁ : Shot} {op : Operation} {t' : Shot}
      (hstep : Shot.step error t o = .ok t₁) (h : Reaches error rest t₁ op t') : Reaches error (o :: rest) t op t'

theorem Shot.ready_of_foldlM (h : ops.foldlM (Shot.step error) t = .ok t') {u : Shot}
    (hreaches : Shot.Reaches error ops t op u) : u.Ready error op := by
  induction hreaches with
  | here op rest t =>
    obtain ⟨t₁, hstep, -⟩ := foldlM_cons_eq_ok_iff.mp h
    exact Shot.ready_of_step hstep
  | later hstep _ ih =>
    obtain ⟨t₁, hstep', hlater⟩ := foldlM_cons_eq_ok_iff.mp h
    cases hstep.symm.trans hstep'
    exact ih hlater

theorem Shot.foldlM_of_ready (hwhole : t.register.Whole)
    (hready : ∀ op u, Shot.Reaches error ops t op u → u.Ready error op) :
    ∃ t', ops.foldlM (Shot.step error) t = .ok t' := by
  induction ops generalizing t with
  | nil => exact ⟨t, rfl⟩
  | cons op rest ih =>
    obtain ⟨t₁, hstep⟩ := Shot.step_of_ready hwhole (hready op t (.here op rest t))
    obtain ⟨t', hlater⟩ := ih (hwhole.keeps (Shot.step_keeps hstep)) fun o u hrest => hready o u (.later hstep hrest)
    exact ⟨t', foldlM_cons_eq_ok_iff.mpr ⟨t₁, hstep, hlater⟩⟩

theorem Shot.Reaches.mem_and_qubits (h : Shot.Reaches error ops t op t') :
    op ∈ ops ∧ t'.register.qubits = t.register.qubits := by
  induction h with
  | here op rest t => exact ⟨List.mem_cons_self, rfl⟩
  | later hstep _ ih => exact ⟨List.mem_cons_of_mem _ ih.1, ih.2.trans (Shot.step_keeps hstep).1⟩

/-- A shot that comes to its end comes to every operation before. -/
theorem Shot.exists_reaches {u : Shot} (h : ops.foldlM (Shot.step error) t = .ok u) (hop : op ∈ ops) :
    ∃ t', Shot.Reaches error ops t op t' := by
  induction ops generalizing t with
  | nil => cases hop
  | cons o rest ih =>
    obtain ⟨t₁, hstep, hlater⟩ := foldlM_cons_eq_ok_iff.mp h
    rcases List.mem_cons.mp hop with rfl | hop
    · exact ⟨t, .here op rest t⟩
    · obtain ⟨t', hreaches⟩ := ih hlater hop
      exact ⟨t', .later hstep hreaches⟩

variable {p : Plan} {r : RandomStream} {shots : ℕ}

/-- All gates of a plan fit its register. -/
def GatesApply (p : Plan) : Prop := ∀ op ∈ p.operations, op.isMeasure = false → op.Applies p.qubits

/-- A shot computes this probability of a one for a reading that it comes to. -/
def ShotComputes (p : Plan) (error : Float) (r : RandomStream) (x : Float) : Prop :=
  ∃ register op t, Register.zero p.qubits = .ok register ∧
    Shot.Reaches error p.operations ⟨register, p.blank, r⟩ op t ∧ op.isMeasure = true ∧
    t.register.state.probabilityOne (Register.place (op.bits.headD 0)) = x

/-- Some operation of the plan is a reading. -/
def Reading (p : Plan) : Prop := ∃ op ∈ p.operations, op.isMeasure = true

theorem qubits_zero {n : ℕ} {register : Register} (h : Register.zero n = .ok register) : register.qubits = n := by
  unfold Register.zero at h
  split at h <;> cases h
  rfl

theorem needs_of_shot {o : List Char × RandomStream} (h : p.shot error r = .ok o) :
    p.GatesApply ∧ (∀ x, p.ShotComputes error r x → x.isNaN = false) ∧ (p.Reading → ¬ 1 < error) := by
  obtain ⟨register, hzero, h⟩ := bind_eq_ok_iff.mp h
  obtain ⟨u, hend, -⟩ := bind_eq_ok_iff.mp h
  refine ⟨fun op hop hgate => ?_, ?_, ?_⟩
  · obtain ⟨t', hreaches⟩ := Shot.exists_reaches hend hop
    have happlies := Shot.ready_of_foldlM hend hreaches
    rw [Shot.Ready, hgate, if_neg (by decide), hreaches.mem_and_qubits.2, qubits_zero hzero] at happlies
    exact happlies
  · rintro x ⟨register', op, t, hzero', hreaches, hmeasure, rfl⟩
    cases hzero.symm.trans hzero'
    have hready := Shot.ready_of_foldlM hend hreaches
    rw [Shot.Ready, if_pos hmeasure] at hready
    exact hready.1
  · rintro ⟨op, hop, hmeasure⟩
    obtain ⟨t', hreaches⟩ := Shot.exists_reaches hend hop
    have hready := Shot.ready_of_foldlM hend hreaches
    rw [Shot.Ready, if_pos hmeasure] at hready
    exact hready.2

theorem shot_of_needs (hheld : p.qubits ≤ Register.mostHeld) (hgates : p.GatesApply)
    (hnumbers : ∀ x, p.ShotComputes error r x → x.isNaN = false) (herror : p.Reading → ¬ 1 < error) :
    ∃ o, p.shot error r = .ok o := by
  have hzero := Register.zero_of_held hheld
  have hwhole : Register.Whole ⟨p.qubits, .zero p.qubits⟩ := ⟨hheld, rfl⟩
  obtain ⟨u, hend⟩ : ∃ u, p.operations.foldlM (Shot.step error) ⟨⟨p.qubits, .zero p.qubits⟩, p.blank, r⟩ = .ok u := by
    refine Shot.foldlM_of_ready hwhole fun op t hreaches => ?_
    obtain ⟨hop, hqubits⟩ := hreaches.mem_and_qubits
    unfold Shot.Ready
    split
    · rename_i hmeasure
      exact ⟨hnumbers _ ⟨_, op, t, hzero, hreaches, hmeasure, rfl⟩, herror ⟨op, hop, hmeasure⟩⟩
    · rename_i hgate
      rw [hqubits]
      exact hgates op hop (by simpa using hgate)
  exact ⟨(u.bits, u.random), bind_eq_ok_iff.mpr ⟨_, hzero, bind_eq_ok_iff.mpr ⟨u, hend, rfl⟩⟩⟩

/-- The streams that the shots of a run start with. -/
inductive Starts (one : RandomStream → Except DeviceError (List Char × RandomStream)) :
    ℕ → RandomStream → RandomStream → Prop
  | first (shots : ℕ) (r : RandomStream) : Starts one (shots + 1) r r
  | next {shots : ℕ} {r r₁ r' : RandomStream} {bits : List Char} (hone : one r = .ok (bits, r₁))
      (h : Starts one shots r₁ r') : Starts one (shots + 1) r r'

theorem Starts.pos {one : RandomStream → Except DeviceError (List Char × RandomStream)} {r' : RandomStream}
    (h : Starts one shots r r') : 0 < shots := by
  cases h <;> exact Nat.succ_pos _

theorem repeatShots_ok_iff {one : RandomStream → Except DeviceError (List Char × RandomStream)} {shots : ℕ}
    {counts : Dictionary ℕ} : (∃ c, repeatShots one shots counts r = .ok c) ↔
      ∀ r', Starts one shots r r' → ∃ o, one r' = .ok o := by
  induction shots generalizing counts r with
  | zero => exact iff_of_true ⟨counts, rfl⟩ nofun
  | succ shots ih =>
    constructor
    · rintro ⟨c, h⟩ r' hstarts
      obtain ⟨⟨bits, r₁⟩, hone, hrest⟩ := bind_eq_ok_iff.mp h
      cases hstarts with
      | first => exact ⟨_, hone⟩
      | next hone' hlater =>
        cases hone.symm.trans hone'
        exact ih.mp ⟨c, hrest⟩ r' hlater
    · intro hall
      obtain ⟨⟨bits, r₁⟩, hone⟩ := hall r (.first shots r)
      obtain ⟨c, hrest⟩ := ih.mpr fun r' hlater => hall r' (.next hone hlater)
      exact ⟨c, bind_eq_ok_iff.mpr ⟨_, hone, hrest⟩⟩

/-- A run computes this probability. One evolution for all shots computes none, since its outcomes are
drawn from the end. -/
def Computes (p : Plan) (shots : ℕ) (error : Float) (r : RandomStream) (x : Float) : Prop :=
  p.terminal = false ∧ ∃ r', Starts (p.shot error) shots r r' ∧ p.ShotComputes error r' x

theorem readIndex_ok_iff {index : ℕ} :
    (∃ o, p.readIndex error index r = .ok o) ↔ (p.readout ≠ [] → ¬ 1 < error) := by
  unfold readIndex
  generalize p.blank = bits
  induction p.readout generalizing bits r with
  | nil => exact iff_of_true ⟨_, rfl⟩ fun h => absurd rfl h
  | cons e rest ih =>
    rw [forall_prop_of_true (List.cons_ne_nil e rest), ← flip_ok_iff (index.testBit (Register.place e.1)) r]
    constructor
    · rintro ⟨o, h⟩
      obtain ⟨t, hstep, -⟩ := foldlM_cons_eq_ok_iff.mp h
      obtain ⟨flipped, hflip, -⟩ := bind_eq_ok_iff.mp hstep
      exact ⟨flipped, hflip⟩
    · rintro ⟨flipped, hflip⟩
      obtain ⟨o, hlater⟩ := (ih _).mpr fun _ => (flip_ok_iff _ _).mp ⟨flipped, hflip⟩
      exact ⟨o, foldlM_cons_eq_ok_iff.mpr ⟨_, bind_eq_ok_iff.mpr ⟨flipped, hflip, rfl⟩, hlater⟩⟩

theorem evolve_keeps {register : Register} (h : p.evolve = .ok register) : p.GatesApply := by
  obtain ⟨start, hzero, h⟩ := bind_eq_ok_iff.mp h
  have happlies := Register.applies_of_foldlM (by simp) h
  rw [qubits_zero hzero] at happlies
  exact fun op hop hgate => happlies op (List.mem_filter.mpr ⟨hop, by simp [hgate]⟩)

theorem evolve_of_gatesApply (hheld : p.qubits ≤ Register.mostHeld) (hgates : p.GatesApply) :
    ∃ register, p.evolve = .ok register := by
  have hwhole : Register.Whole ⟨p.qubits, .zero p.qubits⟩ := ⟨hheld, rfl⟩
  have hfilter : ∀ op ∈ p.operations.filter (fun op => !op.isMeasure), op ∈ p.operations ∧ op.isMeasure = false :=
    fun op hop => by simpa using hop
  obtain ⟨register, hend⟩ := hwhole.foldlM_applyOperation (fun op hop => (hfilter op hop).2) fun op hop =>
    hgates op (hfilter op hop).1 (hfilter op hop).2
  exact ⟨register, bind_eq_ok_iff.mpr ⟨_, Register.zero_of_held hheld, hend⟩⟩

/-- What a run needs: unless no shot is taken from an evolution each, the gates have to apply; a
probability that it computes is a number, and when a shot is taken the error of what it reads is not
above one. -/
structure Needs (p : Plan) (shots : ℕ) (error : Float) (r : RandomStream) : Prop where
  gates : p.terminal = true ∨ 0 < shots → p.GatesApply
  numbers : ∀ x, p.Computes shots error r x → x.isNaN = false
  readout : p.terminal = true → 0 < shots → p.readout ≠ [] → ¬ 1 < error
  readings : p.terminal = false → 0 < shots → p.Reading → ¬ 1 < error

theorem needs_of_run {counts : Dictionary ℕ} (h : p.run shots error r = .ok counts) : p.Needs shots error r := by
  unfold run at h
  split at h
  · rename_i hterminal
    obtain ⟨register, hevolve, h⟩ := bind_eq_ok_iff.mp h
    refine ⟨fun _ => evolve_keeps hevolve, fun x hx => ?_, fun _ hshots => ?_, fun hother => ?_⟩
    · exact absurd hterminal (by simp [hx.1])
    · obtain ⟨n, rfl⟩ := Nat.exists_eq_add_one.mpr hshots
      exact readIndex_ok_iff.mp (repeatShots_ok_iff.mp ⟨counts, h⟩ r (.first n r))
    · exact absurd hterminal (by simp [hother])
  · rename_i hterminal
    have hall := repeatShots_ok_iff.mp ⟨counts, h⟩
    have hfirst : 0 < shots → ∃ o, p.shot error r = .ok o := by
      intro hshots
      obtain ⟨n, rfl⟩ := Nat.exists_eq_add_one.mpr hshots
      exact hall r (.first n r)
    refine ⟨fun hshots => ?_, fun x ⟨_, r', hstarts, hx⟩ => ?_, fun hother => absurd hother hterminal, fun _ hshots => ?_⟩
    · obtain ⟨o, ho⟩ := hfirst (hshots.resolve_left hterminal)
      exact (needs_of_shot ho).1
    · obtain ⟨o, ho⟩ := hall r' hstarts
      exact (needs_of_shot ho).2.1 x hx
    · obtain ⟨o, ho⟩ := hfirst hshots
      exact (needs_of_shot ho).2.2

/-- A register that is held needs nothing else. -/
theorem run_of_needs (hheld : p.qubits ≤ Register.mostHeld) (h : p.Needs shots error r) :
    ∃ counts, p.run shots error r = .ok counts := by
  unfold run
  split
  · rename_i hterminal
    obtain ⟨register, hevolve⟩ := evolve_of_gatesApply hheld (h.gates (.inl hterminal))
    obtain ⟨counts, hcounts⟩ : ∃ counts, repeatShots (fun r =>
        p.readIndex error (register.state.sample r).1 (register.state.sample r).2) shots ∅ r = .ok counts := by
      refine repeatShots_ok_iff.mpr fun r' hstarts => ?_
      exact readIndex_ok_iff.mpr (h.readout hterminal hstarts.pos)
    exact ⟨counts, bind_eq_ok_iff.mpr ⟨register, hevolve, hcounts⟩⟩
  · rename_i hterminal
    refine repeatShots_ok_iff.mpr fun r' hstarts => ?_
    have hshots := hstarts.pos
    have hother : p.terminal = false := by simpa using hterminal
    exact shot_of_needs hheld (h.gates (.inr hshots)) (fun x hx => h.numbers x ⟨hother, r', hstarts, hx⟩)
      (h.readings hother hshots)

end Plan

end QuantumKernels
