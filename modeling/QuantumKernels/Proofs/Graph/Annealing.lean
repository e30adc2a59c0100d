import QuantumKernels.Graph.Basic
import QuantumKernels.Proofs.Graph.Weights
import QuantumKernels.Proofs.Outcome

/-!
# The graph of an annealing kernel

The biases are noted first and the couplers after them, each in program order, so that of all terms on
the same two bits, in either direction, the last one counts. Both ends of a term are bits of the kernel;
so no vertex is ever missing, and there is a graph exactly if every weight is a number.
-/
namespace QuantumKernels

/-- Parameters without a place on the real line. -/
inductive Parameter.Nonreal : Parameter → Prop
  | text (s : String) : Nonreal (.text s)
  | complex (re im : Float) : Nonreal (.complex re im)

theorem Parameter.toReal?_eq_none_iff {p : Parameter} : p.toReal? = none ↔ p.Nonreal := by
  cases p with
  | int n => exact iff_of_false nofun nofun
  | real x => exact iff_of_false nofun nofun
  | text s => exact iff_of_true rfl (.text s)
  | complex re im => exact iff_of_true rfl (.complex re im)

/-- The two bits of a term, in no order. -/
def Term.pair (t : Term) : Sym2 ℕ := s(t.first, t.second)

theorem Term.pair_eq_diag_iff {t : Term} {q : ℕ} : t.pair = s(q, q) ↔ t.first = q ∧ t.second = q := by
  rw [pair, Sym2.eq_iff, or_self]

/-- A term is written as an operation of that name on two bits, with the weight as first parameter. -/
theorem Operation.term?_eq_some_iff {op : Operation} {t : Term} : op.term? = some t ↔
    op.name = termName ∧ op.bits = [t.first, t.second] ∧ op.parameters.head? = some t.weight := by
  obtain ⟨name, bits, parameters, enabled, analog⟩ := op
  obtain ⟨first, second, weight⟩ := t
  unfold term?
  dsimp only
  split
  · rename_i a b w more
    simp [Term.mk.injEq, and_assoc]
  · rename_i hother
    refine iff_of_false nofun ?_
    rintro ⟨-, rfl, hhead⟩
    obtain ⟨more, rfl⟩ := List.head?_eq_some_iff.mp hhead
    exact hother first second weight more rfl rfl

/-- The last of the terms on two bits. -/
def lastOn (terms : List Term) (p : Sym2 ℕ) : Option Term :=
  (terms.filter fun t => decide (t.pair = p)).getLast?

/-- The weight of the last term on two bits. -/
def lastWeight (terms : List Term) (p : Sym2 ℕ) : Option Float := (lastOn terms p).bind fun t => t.weight.toReal?

theorem lastOn_cons (t : Term) (terms : List Term) (p : Sym2 ℕ) :
    lastOn (t :: terms) p = (lastOn terms p).or (if t.pair = p then some t else none) := by
  rw [lastOn, lastOn, List.filter_cons]
  by_cases h : t.pair = p
  · simp only [h, decide_true, if_true, List.getLast?_cons]
    cases (terms.filter fun t => decide (t.pair = p)).getLast? <;> rfl
  · simp [h]

theorem lastOn_filter {terms : List Term} {p : Sym2 ℕ} {keep : Term → Bool} (h : ∀ t, t.pair = p → keep t = true) :
    lastOn (terms.filter keep) p = lastOn terms p := by
  rw [lastOn, lastOn, List.filter_filter]
  congr 1
  refine List.filter_congr fun t _ => ?_
  by_cases ht : t.pair = p
  · rw [h t ht, Bool.and_true]
  · simp [ht]

theorem lastOn_filter_none {terms : List Term} {p : Sym2 ℕ} {keep : Term → Bool}
    (h : ∀ t, t.pair = p → keep t = false) : lastOn (terms.filter keep) p = none := by
  rw [lastOn, List.getLast?_eq_none_iff, List.filter_eq_nil_iff]
  intro t ht hpair
  have hkeep := (List.mem_filter.mp ht).2
  rw [h t (of_decide_eq_true hpair)] at hkeep
  cases hkeep

/-- The weights that terms leave behind where there were weights before. -/
def weightsAfter (before : Sym2 ℕ → Option Float) (terms : List Term) (p : Sym2 ℕ) : Option Float :=
  (lastOn terms p).elim (before p) fun t => t.weight.toReal?

theorem weightsAfter_cons (before : Sym2 ℕ → Option Float) (t : Term) (terms : List Term) :
    weightsAfter before (t :: terms) =
      weightsAfter (fun p => if t.pair = p then t.weight.toReal? else before p) terms := by
  funext p
  rw [weightsAfter, weightsAfter, lastOn_cons]
  cases lastOn terms p with
  | some last => rfl
  | none => by_cases h : t.pair = p <;> simp [h]

theorem weightsAfter_none (terms : List Term) (p : Sym2 ℕ) :
    weightsAfter (fun _ => none) terms p = lastWeight terms p := by
  rw [weightsAfter, lastWeight]
  cases lastOn terms p <;> rfl

/-- The attributes of a vertex with that bias. -/
def biasAttributes (bias : Option Float) : Dictionary Parameter :=
  bias.elim ∅ fun w => .ofList [("bias", .real w)]

/-- A bias goes over an earlier one. -/
theorem insert_biasAttributes (bias : Option Float) (w : Float) :
    (biasAttributes bias).insert "bias" (.real w) = biasAttributes (some w) := by
  cases bias with
  | none => rfl
  | some v =>
    have hentries : Dictionary.insertEntry "bias" (.real w) [("bias", .real v)] = [("bias", Parameter.real w)] := by
      rw [Dictionary.insertEntry, if_neg (String.lt_irrefl _), if_pos rfl]
    exact (Dictionary.mk.injEq ..).mpr hentries

namespace Kernel

variable {k : Kernel}

/-- The complaint about a weight that is no number. -/
def refusal (k : Kernel) (t : Term) : KernelError :=
  .unsupported "to_graph" s!"'{k.name}' with non-numeric {termName} weight '{t.weight.print}'"

/-- The first of the terms whose weight is no number. -/
def refused? (terms : List Term) : Option Term := terms.find? fun t => t.weight.toReal?.isNone

theorem refused?_cons_of_some {t : Term} {w : Float} (hw : t.weight.toReal? = some w) (terms : List Term) :
    refused? (t :: terms) = refused? terms :=
  List.find?_cons_of_neg (by simp [hw])

theorem refused?_cons_of_none {t : Term} (hw : t.weight.toReal? = none) (terms : List Term) :
    refused? (t :: terms) = some t :=
  List.find?_cons_of_pos (by simp [hw])

theorem weightOf_of_some {t : Term} {w : Float} (hw : t.weight.toReal? = some w) : k.weightOf t = .ok w := by
  rw [weightOf, hw]

theorem weightOf_of_none {t : Term} (hw : t.weight.toReal? = none) : k.weightOf t = .error (k.refusal t) := by
  rw [weightOf, hw]
  rfl

/-- The vertices of a kernel that is so wide, with these biases. -/
def biased (width : ℕ) (biases : Sym2 ℕ → Option Float) : ConnectivityGraph where
  vertices := (List.range width).map fun q => biasAttributes (biases s(q, q))

theorem biased_none (width : ℕ) : biased width (fun _ => none) = .ofOrder width := by
  rw [biased, ConnectivityGraph.ofOrder, List.map_const', List.length_range]
  rfl

/-- A bias is noted at its vertex and leaves the others as they are. -/
theorem modify_vertices_biased (width q : ℕ) (w : Float) (before : Sym2 ℕ → Option Float) :
    (biased width before).vertices.modify q (·.insert "bias" (.real w)) =
      (biased width fun p => if s(q, q) = p then some w else before p).vertices := by
  apply List.ext_getElem?
  intro i
  simp only [biased, List.getElem?_modify, List.getElem?_map]
  rcases Nat.lt_or_ge i width with hi | hi
  · rw [List.getElem?_range hi]
    by_cases hq : q = i <;> simp [hq, insert_biasAttributes]
  · simp [hi]

theorem addBias_biased {t : Term} (ht : t.first = t.second) {w : Float} (hw : t.weight.toReal? = some w)
    (width : ℕ) (before : Sym2 ℕ → Option Float) : k.addBias (biased width before) t =
      .ok (biased width fun p => if t.pair = p then t.weight.toReal? else before p) := by
  rw [addBias, weightOf_of_some hw]
  change Except.ok (ConnectivityGraph.mk ((biased width before).vertices.modify t.first _) []) = _
  rw [modify_vertices_biased, hw, Term.pair, ← ht]
  rfl

/-- The biases leave their weights at the vertices, or the first that is no number is refused. -/
theorem foldlM_addBias {terms : List Term} (hterms : ∀ t ∈ terms, t.first = t.second) (width : ℕ)
    (before : Sym2 ℕ → Option Float) : terms.foldlM k.addBias (biased width before) =
      match refused? terms with
      | some t => .error (k.refusal t)
      | none => .ok (biased width (weightsAfter before terms)) := by
  induction terms generalizing before with
  | nil => rfl
  | cons t terms ih =>
    rw [List.foldlM_cons]
    cases hw : t.weight.toReal? with
    | none =>
      rw [refused?_cons_of_none hw, addBias, weightOf_of_none hw]
      rfl
    | some w =>
      rw [refused?_cons_of_some hw, addBias_biased (hterms t (by simp)) hw, weightsAfter_cons]
      exact ih (fun d hd => hterms d (by simp [hd])) _

open ConnectivityGraph in
/-- The couplers leave their weights on the pairs of vertices, or the first that is no number is refused. -/
theorem foldlM_addCoupler {g : ConnectivityGraph} {m : WeightMap} (h : g.Holds m) {terms : List Term}
    (hterms : ∀ t ∈ terms, t.first < m.order ∧ t.second < m.order) :
    match refused? terms with
    | some t => terms.foldlM k.addCoupler g = .error (k.refusal t)
    | none => ∃ g', terms.foldlM k.addCoupler g = .ok g' ∧ g'.vertices = g.vertices ∧
        g'.Holds { m with weight := weightsAfter m.weight terms } := by
  induction terms generalizing g m with
  | nil => exact ⟨g, rfl, rfl, h⟩
  | cons t terms ih =>
    rw [List.foldlM_cons]
    cases hw : t.weight.toReal? with
    | none =>
      rw [refused?_cons_of_none hw, addCoupler, weightOf_of_none hw]
      rfl
    | some w =>
      have hends := hterms t (by simp)
      have hstep : k.addCoupler g t = .ok (g.act (.addEdge t.first t.second w)) := by
        rw [addCoupler, weightOf_of_some hw, act_addEdge, if_pos (h.order ▸ hends)]
        exact addEdge_of_lt (h.order ▸ hends) w
      have hheld := h.act (.addEdge t.first t.second w)
      rw [WeightMap.act, if_pos hends] at hheld
      have hvertices : (g.act (.addEdge t.first t.second w)).vertices = g.vertices := by
        rw [act_addEdge]
        split_ifs <;> rfl
      rw [refused?_cons_of_some hw, weightsAfter_cons, hw, hstep, ← hvertices]
      exact ih hheld fun d hd => hterms d (by simp [hd])

theorem lastOn_biases (k : Kernel) (q : ℕ) : lastOn k.biases s(q, q) = lastOn k.terms s(q, q) :=
  lastOn_filter fun t ht => by
    obtain ⟨hfirst, hsecond⟩ := Term.pair_eq_diag_iff.mp ht
    rw [hfirst, hsecond, beq_self_eq_true]

theorem lastOn_couplers (k : Kernel) (p : Sym2 ℕ) :
    lastOn k.couplers p = if p.IsDiag then none else lastOn k.terms p := by
  have hdiag : ∀ t : Term, t.pair = p → (t.first = t.second ↔ p.IsDiag) := by
    rintro t rfl
    exact Sym2.mk_isDiag_iff.symm
  split_ifs with hp
  · exact lastOn_filter_none fun t ht => by simp [(hdiag t ht).mpr hp]
  · exact lastOn_filter fun t ht => by simp [mt (hdiag t ht).mp hp]

/-- The ends of a term are bits of the kernel, so each has a vertex. -/
theorem lt_width_of_mem_terms {t : Term} (h : t ∈ k.terms) : t.first < k.width ∧ t.second < k.width := by
  obtain ⟨op, hop, hterm⟩ := List.mem_filterMap.mp h
  obtain ⟨-, hbits, -⟩ := Operation.term?_eq_some_iff.mp hterm
  exact ⟨lt_width hop (by simp [hbits]), lt_width hop (by simp [hbits])⟩

/-- The weights of the couplers: those of the last terms on two different bits. -/
def couplings (k : Kernel) : ConnectivityGraph.WeightMap where
  order := k.width
  weight p := if p.IsDiag then none else lastWeight k.terms p

theorem weightsAfter_couplers (k : Kernel) : weightsAfter (fun _ => none) k.couplers = k.couplings.weight := by
  funext p
  rw [weightsAfter_none, lastWeight, lastOn_couplers]
  by_cases hp : p.IsDiag
  · simp [couplings, hp]
  · simp [couplings, hp, lastWeight]

theorem weightsAfter_biases (k : Kernel) (q : ℕ) :
    weightsAfter (fun _ => none) k.biases s(q, q) = lastWeight k.terms s(q, q) := by
  rw [weightsAfter_none, lastWeight, lastOn_biases, lastWeight]

theorem holds_biased (width : ℕ) (biases : Sym2 ℕ → Option Float) :
    (biased width biases).Holds { order := width } where
  order := by rw [ConnectivityGraph.order, biased, List.length_map, List.length_range]
  weights _ := rfl
  distinct := List.nodup_nil
  ends _ _ h := by cases h

/-- Each vertex has the bias of the last term on its bit, and each pair of vertices the weight of the
last term on them. -/
structure Drawn (k : Kernel) (g : ConnectivityGraph) : Prop where
  order : g.order = k.width
  biases : ∀ q < k.width, g.vertices[q]? = some (biasAttributes (lastWeight k.terms s(q, q)))
  couplers : g.Follows k.couplings
  /-- as long as the numbers fit 32 bits -/
  weight : ∀ a b, a < 2 ^ 32 → b < 2 ^ 32 → a ≠ b → g.weight? a b = lastWeight k.terms s(a, b)

/-- Biases are refused before couplers. -/
theorem connectivity_cases (k : Kernel) : match refused? (k.biases ++ k.couplers) with
    | some t => k.connectivity = .error (k.refusal t)
    | none => ∃ g, k.connectivity = .ok g ∧ k.Drawn g := by
  have hbiases : ∀ t ∈ k.biases, t.first = t.second := fun t ht => by
    simpa using (List.mem_filter.mp ht).2
  have hcouplers : ∀ t ∈ k.couplers, t.first < k.width ∧ t.second < k.width := fun t ht =>
    lt_width_of_mem_terms (List.mem_filter.mp ht).1
  have hfirst := foldlM_addBias (k := k) hbiases k.width fun _ => none
  have hsplit : refused? (k.biases ++ k.couplers) = (refused? k.biases).or (refused? k.couplers) :=
    List.find?_append
  rw [connectivity, ← biased_none, hfirst, hsplit]
  cases refused? k.biases with
  | some t => rfl
  | none =>
    have hsecond := foldlM_addCoupler (k := k)
      (holds_biased k.width (weightsAfter (fun _ => none) k.biases)) hcouplers
    revert hsecond
    rw [Option.none_or]
    cases refused? k.couplers with
    | some t => exact id
    | none =>
      rintro ⟨g, hg, hvertices, hholds⟩
      rw [weightsAfter_couplers] at hholds
      refine ⟨g, hg, hholds.order, fun q hq => ?_, hholds.follows, fun a b ha hb hab => ?_⟩
      · rw [hvertices, biased, List.getElem?_map, List.getElem?_range hq, Option.map_some, weightsAfter_biases]
      · rw [hholds.weight?_eq, ConnectivityGraph.address_of_lt ha, ConnectivityGraph.address_of_lt hb]
        exact if_neg (mt Sym2.mk_isDiag_iff.mp hab)

theorem exists_nonreal_iff (k : Kernel) :
    (∃ t ∈ k.terms, t.weight.Nonreal) ↔ (refused? (k.biases ++ k.couplers)).isSome := by
  rw [refused?, List.find?_isSome]
  constructor
  · rintro ⟨t, ht, hweight⟩
    refine ⟨t, ?_, by simp [Parameter.toReal?_eq_none_iff.mpr hweight]⟩
    by_cases hends : t.first = t.second
    · exact List.mem_append_left _ (List.mem_filter.mpr ⟨ht, by simp [hends]⟩)
    · exact List.mem_append_right _ (List.mem_filter.mpr ⟨ht, by simp [hends]⟩)
  · rintro ⟨t, ht, hweight⟩
    refine ⟨t, ?_, Parameter.toReal?_eq_none_iff.mp (by simpa using hweight)⟩
    rcases List.mem_append.mp ht with ht | ht
    · exact (List.mem_filter.mp ht).1
    · exact (List.mem_filter.mp ht).1

theorem graph_of_anneal {k : Kernel} (h : k.header.kind = .anneal) :
    k.graph = k.connectivity.map KernelGraph.connectivity := by
  rw [graph, h]

end Kernel

open Kernel in
/-- An annealing kernel has a graph exactly if no term has a weight that is a text or a complex number;
otherwise the first bias with such a weight is refused, or else the first coupler. The graph has a vertex
for each bit up to the largest; a vertex has the bias of the last term on its bit, and two vertices are
joined with the weight of the last term on them, in either direction. -/
theorem graph_follows_terms (k : Kernel) (hk : k.header.kind = .anneal) :
    ((∃ e, k.graph = .error e) ↔ ∃ t ∈ k.terms, t.weight.Nonreal) ∧
    match k.graph with
    | .ok graph => ∃ g, graph = .connectivity g ∧ k.Drawn g
    | .error e => ∃ t, refused? (k.biases ++ k.couplers) = some t ∧ e = k.refusal t := by
  have hcases := k.connectivity_cases
  rw [exists_nonreal_iff, graph_of_anneal hk]
  cases hrefused : refused? (k.biases ++ k.couplers) with
  | some t =>
    rw [hrefused] at hcases
    rw [hcases]
    exact ⟨iff_of_true ⟨_, rfl⟩ rfl, t, rfl, rfl⟩
  | none =>
    rw [hrefused] at hcases
    obtain ⟨g, hg, hdrawn⟩ := hcases
    rw [hg]
    exact ⟨iff_of_false nofun nofun, g, rfl, hdrawn⟩

/-- Terms in a block, on the same bits in both directions; one that is disabled has no number. -/
def nestedTerms : Kernel :=
  ⟨{ name := "nested", kind := .anneal }, [
    .leaf { name := termName, bits := [0, 0], parameters := [.real 1] },
    .block { name := "inner", kind := .anneal } [
      .leaf { name := termName, bits := [1, 0], parameters := [.int 2] },
      .leaf { name := termName, bits := [0, 0], parameters := [.real 0.5] }],
    .leaf { name := termName, bits := [0, 1], parameters := [.real 3] },
    .leaf { name := termName, bits := [2, 3], parameters := [.text "x"], enabled := false }]⟩

/-- The later terms count, and the one that is disabled has only its bits in the graph. -/
theorem graph_follows_terms_nestedTerms : nestedTerms.header.kind = .anneal ∧
    ∃ g, nestedTerms.graph = .ok (.connectivity g) ∧ g.order = 4 ∧
      g.vertices[0]? = some (biasAttributes (some 0.5)) ∧ g.vertices[3]? = some ∅ ∧
      g.weight? 1 0 = some 3 ∧ g.weight? 2 3 = none := by
  obtain ⟨hfails, hgraph⟩ := graph_follows_terms nestedTerms rfl
  have hnumbers : ¬ ∃ t ∈ nestedTerms.terms, t.weight.Nonreal := by
    rw [Kernel.exists_nonreal_iff]
    decide
  rw [← hfails] at hnumbers
  cases hresult : nestedTerms.graph with
  | error e => exact absurd ⟨e, hresult⟩ hnumbers
  | ok graph =>
    rw [hresult] at hgraph
    obtain ⟨g, rfl, hdrawn⟩ := hgraph
    have hwidth : nestedTerms.width = 4 := by decide
    refine ⟨rfl, g, rfl, hdrawn.order.trans hwidth, ?_, ?_, ?_, ?_⟩
    · exact hdrawn.biases 0 (by rw [hwidth]; decide)
    · exact hdrawn.biases 3 (by rw [hwidth]; decide)
    · exact hdrawn.weight 1 0 (by decide) (by decide) (by decide)
    · exact hdrawn.weight 2 3 (by decide) (by decide) (by decide)

end QuantumKernels
