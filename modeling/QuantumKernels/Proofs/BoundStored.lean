import QuantumKernels.Proofs.Binding
import QuantumKernels.Proofs.StoredReals

/-!
# Storing bound kernels

Binding keeps the bits of a kernel and the nesting of its document, and the only reals it brings in are
the values of formulas. So a bound kernel is loaded from what is stored of it exactly if all these
values are finite, and finite values for the variables are not enough.
-/
namespace QuantumKernels

open Json

theorem Json.depth_listOf_congr {α : Type} {f : α → Json} {l l' : List α}
    (h : List.Forall₂ (fun a b => (f b).depth = (f a).depth) l l') : (listOf f l').depth = (listOf f l).depth := by
  have hitems : depth.deepestItem (l'.map f) = depth.deepestItem (l.map f) := by
    induction h with
    | nil => rfl
    | cons hab _ ih => rw [List.map_cons, List.map_cons, depth.deepestItem, depth.deepestItem, hab, ih]
  rw [listOf, listOf, depth, depth, hitems]

theorem Json.depth_texts (l : List String) : (texts l).depth = 1 := by
  have hitems : depth.deepestItem (l.map text) = 0 := Nat.le_zero.mp (deepestItem_le.mpr (by simp))
  rw [texts, listOf, depth, hitems]

variable {bindings : Dictionary Float}

/-- A parameter without variables stays, and any other becomes the value of its formula. -/
theorem Parameter.bind_eq_ok {p p' : Parameter} (h : p.bind bindings = .ok p') :
    p.isVariable = false ∧ p' = p ∨ ∃ source x, p = text source ∧ p.isVariable = true ∧
      Formula.valueOf source bindings = .ok x ∧ p' = real x := by
  cases p with
  | text source =>
    rw [Parameter.bind] at h
    split_ifs at h with hfree
    · obtain ⟨x, hx, rfl⟩ := map_eq_ok_iff.mp h
      exact .inr ⟨source, x, rfl, hfree, hx, rfl⟩
    · cases h
      exact .inl ⟨by simpa using hfree, rfl⟩
  | _ =>
    cases h
    exact .inl ⟨rfl, rfl⟩

theorem Parameter.depth_bind {p p' : Parameter} (h : p.bind bindings = .ok p') :
    p'.toJson.depth = p.toJson.depth := by
  rcases bind_eq_ok h with ⟨-, rfl⟩ | ⟨source, x, rfl, -, -, rfl⟩ <;> rfl

namespace Operation

/-- The formulas of an operation have finite values where the variables are bound so. -/
def FiniteValues (bindings : Dictionary Float) (op : Operation) : Prop :=
  ∀ source, .text source ∈ op.parameters → (Parameter.text source).isVariable → ∀ x,
    Formula.valueOf source bindings = .ok x → x.isFinite

theorem bind_eq_ok {op op' : Operation} (h : op.bind bindings = .ok op') :
    List.Forall₂ (fun p p' => p.bind bindings = .ok p') op.parameters op'.parameters ∧
      op' = { op with parameters := op'.parameters } := by
  obtain ⟨ps, hps, h⟩ := bind_eq_ok_iff.mp h
  cases h
  exact ⟨mapM_eq_ok_iff.mp hps, rfl⟩

theorem depth_bind {op op' : Operation} (h : op.bind bindings = .ok op') :
    op'.toJson.depth = op.toJson.depth := by
  obtain ⟨hparameters, hrest⟩ := bind_eq_ok h
  have hlist := depth_listOf_congr (hparameters.imp fun _ _ hp => Parameter.depth_bind hp)
  rw [hrest]
  simp only [toJson, depth, depth.deepestField, hlist]

/-- The reals of a bound operation are those it had and the values of its formulas. -/
theorem allFinite_bind_iff {op op' : Operation} (h : op.bind bindings = .ok op') (hop : op.AllFinite) :
    op'.AllFinite ↔ op.FiniteValues bindings := by
  obtain ⟨hparameters, -⟩ := bind_eq_ok h
  constructor
  · intro hfinite source hmem hfree x hx
    obtain ⟨p', hp', hbind⟩ := exists_mem_of_forall₂ hparameters.flip hmem
    rw [Parameter.bind, if_pos hfree, hx] at hbind
    cases hbind
    exact hfinite _ hp' x (by simp [Parameter.reals])
  · intro hvalues p' hp'
    obtain ⟨p, hp, hbind⟩ := exists_mem_of_forall₂ hparameters hp'
    rcases Parameter.bind_eq_ok hbind with ⟨-, rfl⟩ | ⟨source, x, rfl, hfree, hx, rfl⟩
    · exact hop _ hp
    · intro y hy
      obtain rfl : y = x := by simpa [Parameter.reals] using hy
      exact hvalues source hp hfree y hx

end Operation

theorem Header.depth_toJson_congr (h : Header) (vars : List String) {body body' : Json}
    (hbody : body'.depth = body.depth) : ({ h with vars := vars }.toJson body').depth = (h.toJson body).depth := by
  cases htag : h.tag <;> cases hmap : h.bitMap.isEmpty <;> cases hoptions : h.options.isEmpty <;>
    simp [toJson, htag, hmap, hoptions, depth, depth.deepestField, depth_texts, hbody]

namespace Instruction

/-- What is bound has the same shape, with each operation bound and no variables declared. -/
theorem alike_of_bind {i i' : Instruction} (h : i.bind bindings = .ok i') :
    i.Alike (fun h => { h with vars := [] }) (fun op op' => op.bind bindings = .ok op') i' := by
  induction i using tree_induction generalizing i' with
  | leaf op =>
    rw [bind] at h
    obtain ⟨op', hop', h⟩ := bind_eq_ok_iff.mp h
    cases h
    exact .leaf hop'
  | block hd body ih =>
    rw [bind, bindOf_eq] at h
    obtain ⟨body', hbody', h⟩ := bind_eq_ok_iff.mp h
    cases h
    exact .block ((forall₂_with_mem (mapM_eq_ok_iff.mp hbody')).imp fun i i' hi => ih i hi.1 hi.2)

variable {f : Header → Header} {R : Operation → Operation → Prop} {i i' : Instruction}

theorem Alike.depth_toJson (h : i.Alike (fun h => { h with vars := [] }) R i')
    (hR : ∀ op op', R op op' → op'.toJson.depth = op.toJson.depth) : i'.toJson.depth = i.toJson.depth := by
  induction i using tree_induction generalizing i' with
  | leaf op =>
    obtain ⟨hop⟩ := h
    simp only [toJson, depth, depth.deepestField, hR _ _ hop]
  | block hd body ih =>
    obtain _ | ⟨hinside⟩ := h
    have hbody := depth_listOf_congr ((forall₂_with_mem hinside).imp fun i _ hi => ih i hi.1 hi.2)
    have hblock := hd.depth_toJson_congr [] hbody
    rw [listOf, listOf, ← toJsonOf_eq, ← toJsonOf_eq] at hblock
    simp only [toJson, depth, depth.deepestField] at hblock ⊢
    rw [hblock]

theorem Alike.allWords (h : i.Alike f R i') (hf : ∀ h, (f h).bitMap = h.bitMap)
    (hR : ∀ op op', R op op' → op'.bits = op.bits) (hi : i.AllWords) : i'.AllWords := by
  induction i using tree_induction generalizing i' with
  | leaf op =>
    obtain ⟨hop⟩ := h
    rw [allWords_leaf] at hi ⊢
    rwa [hR _ _ hop]
  | block hd body ih =>
    obtain _ | ⟨hinside⟩ := h
    rw [allWords_block] at hi ⊢
    refine ⟨hf hd ▸ hi.1, fun i' hi' => ?_⟩
    obtain ⟨i, hmem, hii'⟩ := exists_mem_of_forall₂ hinside hi'
    exact ih i hmem hii' (hi.2 i hmem)

/-- Where the options of blocks stay, it is for the operations to say whether all reals are finite. -/
theorem Alike.allFinite_iff {P : Operation → Prop} (h : i.Alike f R i') (hf : ∀ h, (f h).options = h.options)
    (hR : ∀ op op', R op op' → op.AllFinite → (op'.AllFinite ↔ P op)) (hi : i.AllFinite) :
    i'.AllFinite ↔ ∀ op ∈ i.leaves, P op := by
  induction i using tree_induction generalizing i' with
  | leaf op =>
    obtain ⟨hop⟩ := h
    rw [allFinite_leaf] at hi
    rw [allFinite_leaf, hR _ _ hop hi, Instruction.leaves, List.forall_mem_singleton]
  | block hd body ih =>
    obtain _ | @⟨_, _, body', hinside⟩ := h
    rw [allFinite_block] at hi
    have hbody : (∀ i ∈ body, ∀ op ∈ i.leaves, P op) ↔ ∀ i' ∈ body', i'.AllFinite :=
      forall_mem_iff_of_forall₂ ((forall₂_with_mem hinside).imp fun i i' h => (ih i h.1 h.2 (hi.2 i h.1)).symm)
    rw [allFinite_block, hf, and_iff_right hi.1, ← hbody]
    simp only [mem_leaves_block, forall_exists_index, and_imp]
    exact ⟨fun h op i hi hop => h i hi op hop, fun h i hi op hop => h op i hi hop⟩

end Instruction

theorem Kernel.alike_of_evaluate {k k' : Kernel} {values : List Float} (h : k.evaluate values = .ok k') :
    (Instruction.ofKernel k).Alike (fun h => { h with vars := [] })
      (fun op op' => op.bind (k.bindings values) = .ok op') (Instruction.ofKernel k') := by
  rw [evaluate] at h
  split_ifs at h
  obtain ⟨body', hbody', h⟩ := bind_eq_ok_iff.mp h
  cases h
  refine Instruction.alike_of_bind ?_
  rw [Instruction.ofKernel, Instruction.bind, hbody']
  rfl

theorem Kernel.depth_evaluate {k k' : Kernel} {values : List Float} (h : k.evaluate values = .ok k') :
    k'.toJson.depth = k.toJson.depth := by
  have hblock := (alike_of_evaluate h).depth_toJson fun _ _ hop => Operation.depth_bind hop
  have hdepth (k : Kernel) : (Instruction.ofKernel k).toJson.depth = 1 + max k.toJson.depth 0 := rfl
  rw [hdepth, hdepth] at hblock
  omega

/-- A kernel with finite reals, on machine words and nested no deeper than documents are read, is bound
by some values. What is stored of the bound kernel is loaded exactly if each formula with variables, in
disabled parts too, has a finite value there, and exactly if all reals of the bound kernel are finite. -/
theorem load_evaluated_iff (k : Kernel) (hk : k.Storable) (hnesting : k.toJson.depth ≤ nestingLimit)
    (values : List Float) (k' : Kernel) (h : k.evaluate values = .ok k') :
    ((∃ loaded, Kernel.load k'.persist = .ok loaded) ↔ ∀ op ∈ k.leaves, op.FiniteValues (k.bindings values)) ∧
      ((∃ loaded, Kernel.load k'.persist = .ok loaded) ↔ ∀ x ∈ k'.reals, x.isFinite) := by
  have halike := Kernel.alike_of_evaluate h
  have hwords := halike.allWords (fun _ => rfl) (fun op op' hop => by rw [(Operation.bind_eq_ok hop).2])
    (Kernel.allWords_ofKernel.mpr hk.words)
  have hvalues := halike.allFinite_iff (fun _ => rfl) (fun op op' hop => Operation.allFinite_bind_iff hop)
    (Kernel.allFinite_ofKernel.mpr hk.finite)
  have hload : (∃ loaded, Kernel.load k'.persist = .ok loaded) ↔ ∀ x ∈ k'.reals, x.isFinite := by
    rw [Kernel.exists_load_iff (Kernel.allWords_ofKernel.mp hwords), Kernel.depth_evaluate h, and_iff_right hnesting]
  exact ⟨hload.trans (Kernel.allFinite_ofKernel.symm.trans hvalues), hload⟩

/-- A rotation by a quotient of two variables. -/
def ratioKernel : Kernel :=
  ⟨{ name := "k", vars := ["x", "y"] }, [.leaf { name := "Rx", bits := [0], parameters := [.text "x/y"] }]⟩

theorem ratio_vars : (Parameter.text "x/y").vars = ["x", "y"] := by
  have hreserved : Parameter.isReserved (Text.trim "x/y") = false := by decide
  rw [Parameter.vars, if_neg (by simp [hreserved])]
  cbv

theorem ratioKernel_scoped : ratioKernel.Scoped := by
  refine .block (by decide) (fun i hi => ?_) fun i hi => ?_
  all_goals obtain rfl := List.mem_singleton.mp hi
  · simp [Instruction.declared, Operation.vars, ratio_vars, ratioKernel]
  · exact .leaf _

theorem ratioKernel_storable : ratioKernel.Storable := by
  have hreals : ratioKernel.reals = [] := rfl
  exact ⟨by decide, by simp [hreals]⟩

theorem valueOf_ratio (x y : Float) : Formula.valueOf "x/y" (ratioKernel.bindings [x, y]) = .ok (x / y) := by
  have hparse : Formula.parse "x/y" = .ok (.binary .div (.symbol "x") (.symbol "y")) := by cbv
  have hnodup : ratioKernel.header.vars.Nodup := by decide
  have hlength : [x, y].length = ratioKernel.header.vars.length := rfl
  have hbound (name : String) (hname : name ∈ ratioKernel.header.vars) :
      (ratioKernel.bindings [x, y]).get? name = some (ratioKernel.assignment [x, y] name) :=
    Dictionary.get?_ofList_zip hnodup hlength 0 hname
  have hx : ratioKernel.assignment [x, y] "x" = x := rfl
  have hy : ratioKernel.assignment [x, y] "y" = y := rfl
  rw [Formula.valueOf_eq_ok hparse (Formula.value_eq hbound)]
  simp only [Formula.valueAt, Formula.Operator.apply, hx, hy]

theorem finiteValues_ratioKernel (x y : Float) :
    (∀ op ∈ ratioKernel.leaves, op.FiniteValues (ratioKernel.bindings [x, y])) ↔ (x / y).isFinite := by
  have hfree : (Parameter.text "x/y").isVariable = true := by rw [Parameter.isVariable, ratio_vars]; rfl
  have hleaves : ratioKernel.leaves = [{ name := "Rx", bits := [0], parameters := [.text "x/y"] }] := rfl
  simp [hleaves, Operation.FiniteValues, hfree, valueOf_ratio]

theorem load_evaluated_iff_ratioKernel :
    ratioKernel.Storable ∧ ratioKernel.toJson.depth ≤ nestingLimit ∧
    (∃ k', ratioKernel.evaluate [1, 0.5] = .ok k' ∧ ∃ loaded, Kernel.load k'.persist = .ok loaded) ∧
    ∃ k', ratioKernel.evaluate [1, 0] = .ok k' ∧ ¬ ∃ loaded, Kernel.load k'.persist = .ok loaded := by
  have hnesting : ratioKernel.toJson.depth ≤ nestingLimit := by decide
  have hevaluate (x y : Float) : ∃ k', ratioKernel.evaluate [x, y] = .ok k' :=
    (ratioKernel_scoped.exists_evaluate rfl).imp fun _ h => h.1
  obtain ⟨half, hhalf⟩ := hevaluate 1 0.5
  obtain ⟨zero, hzero⟩ := hevaluate 1 0
  have hsome := (load_evaluated_iff ratioKernel ratioKernel_storable hnesting _ half hhalf).1
  have hnone := (load_evaluated_iff ratioKernel ratioKernel_storable hnesting _ zero hzero).1
  rw [finiteValues_ratioKernel] at hsome hnone
  refine ⟨ratioKernel_storable, hnesting, ⟨half, hhalf, hsome.mpr ?_⟩, zero, hzero, ?_⟩
  · decide +kernel
  · rw [hnone]
    decide +kernel

end QuantumKernels
