import QuantumKernels.Proofs.Outcome
import QuantumKernels.Proofs.Wire.Naming

/-!
# Steps and the operations they make

A step makes a list of measurements, a gate of the table or one operation outside it, whose name is
the step's in small letters with a capital one in front. Gates come back from the steps that stand
for them. A measurement does unless its slot has become negative, and an operation outside the table
does if its name can be told from its small letters.
-/
namespace QuantumKernels

/-- What holds of every operation that a step makes. -/
structure Operation.Compiled (op : Operation) : Prop where
  vars : op.vars = []
  enabled : op.enabled = true
  digital : op.analog = false
  reals : op.isMeasure = false → ∀ p ∈ op.parameters, ∃ x : Float, p = .real x

namespace Wire

open Text

theorem toLower_toLower (c : Char) : c.toLower.toLower = c.toLower := by
  have hkeep : ∀ d : Char, ¬ (d.val ≥ 'A'.val ∧ d.val ≤ 'Z'.val) → d.toLower = d := fun d hd => dif_neg hd
  by_cases hc : c.val ≥ 'A'.val ∧ c.val ≤ 'Z'.val
  · have hval : c.toLower.val = c.val + ('a'.val - 'A'.val) := by
      unfold Char.toLower
      rw [dif_pos hc]
    refine hkeep c.toLower fun hlower => ?_
    rw [hval] at hlower
    have hlow : 65 ≤ c.val.toNat := UInt32.le_iff_toNat_le.mp hc.1
    have hhigh : c.val.toNat ≤ 90 := UInt32.le_iff_toNat_le.mp hc.2
    have hsum : (c.val + ('a'.val - 'A'.val)).toNat = (c.val.toNat + 32) % 2 ^ 32 := UInt32.toNat_add ..
    have hsum' : (c.val + ('a'.val - 'A'.val)).toNat ≤ 90 := UInt32.le_iff_toNat_le.mp hlower.2
    omega
  · rw [hkeep c hc, hkeep c hc]

theorem lowerAscii_lowerAscii (s : String) : lowerAscii (lowerAscii s) = lowerAscii s := by
  have hchars : Char.toLower ∘ Char.toLower = Char.toLower := funext toLower_toLower
  rw [lowerAscii_eq, lowerAscii_eq, String.toList_ofList, List.map_map, hchars]

/-- A step name in small letters that is neither listed nor a short form. -/
structure Unlisted (name : String) : Prop where
  measure : name ≠ measureStep
  short : name ≠ "u1" ∧ name ≠ "u2"
  noAlias : aliasOf? name = none
  noGate : Kind.gate.find? name = none

/-- The operations that a step makes. -/
inductive Step.Makes (s : Step) : List Operation → Prop
  | measurements (hname : lowerAscii s.name = measureStep) (hslots : s.memory.length = s.qubits.length) :
      Makes s (s.qubits.zipWith Operation.measure s.memory)
  | gate {kind : OperationKind} {xs : List Float} (hkind : kind ∈ Kind.gate.table)
      (hunitary : kind.name ≠ Operation.measureName) (hbits : s.qubits.length = kind.bits)
      (hparameters : xs.length = kind.parameters) :
      Makes s [{ name := kind.name, bits := s.qubits, parameters := xs.map .real }]
  | own (hname : Unlisted (lowerAscii s.name)) :
      Makes s [{ name := capitalize (lowerAscii s.name), bits := s.qubits, parameters := s.parameters.map .real }]

theorem Step.makes_of_build {s : Step} {kind : OperationKind} (hkind : kind ∈ Kind.gate.table)
    (hunitary : kind.name ≠ Operation.measureName) {xs : List Float} {op : Operation}
    (h : kind.build s.qubits (xs.map .real) = .ok op) : s.Makes [op] := by
  have hdefaults : kind.defaults = (List.replicate kind.parameters 0).map .real := by
    have hanneal : kind.name ≠ Kind.annealName := (by decide : ∀ kind ∈ Kind.gate.table, kind.name ≠ _) kind hkind
    rw [OperationKind.defaults, if_neg hunitary, if_neg hanneal, List.map_replicate]
  obtain ⟨ys, hys⟩ : ∃ ys : List Float,
      (if (xs.map Parameter.real).isEmpty then kind.defaults else xs.map .real) = ys.map .real := by
    split
    · exact ⟨_, hdefaults⟩
    · exact ⟨xs, rfl⟩
  unfold OperationKind.build at h
  simp only [hys, digital_gate kind hkind] at h
  split_ifs at h with hbits hparameters
  cases h
  exact .gate hkind hunitary (not_not.mp hbits) (by simpa using hparameters)

theorem Step.makes_of_gate {s : Step} {name : String} {kind : OperationKind}
    (hkind : Kind.gate.find? name = some kind) (hunitary : kind.name ≠ Operation.measureName)
    {xs : List Float} {op : Operation} (h : s.gate name xs = .ok op) : s.Makes [op] := by
  rw [Step.gate, mapError_eq_ok, Kind.build, hkind] at h
  exact makes_of_build (List.mem_of_find?_eq_some hkind) hunitary h

theorem find?_of_aliasOf? {name gate : String} (h : aliasOf? name = some gate) :
    ∃ kind ∈ Kind.gate.table, Kind.gate.find? gate = some kind ∧ kind.name ≠ Operation.measureName := by
  have hfind : ∀ gate ∈ ["U", "CNOT", "CPhase", "I"],
      ∃ kind ∈ Kind.gate.table, Kind.gate.find? gate = some kind ∧ kind.name ≠ Operation.measureName := by
    simp only [Kind.find?, sameIgnoringCase, lowerAscii_eq]
    decide +kernel
  refine hfind gate ?_
  unfold aliasOf? at h
  split at h <;> cases h <;> decide

theorem unitary_of_find? {name : String} {kind : OperationKind} (h : Kind.gate.find? (lowerAscii name) = some kind)
    (hname : lowerAscii name ≠ measureStep) : kind.name ≠ Operation.measureName := by
  intro hmeasure
  have hsame := List.find?_some h
  rw [sameIgnoringCase, lowerAscii_lowerAscii, hmeasure] at hsame
  have hlower : lowerAscii Operation.measureName = measureStep := by
    simp [lowerAscii_eq, measureStep, Operation.measureName]
  exact hname (hlower ▸ (eq_of_beq hsame).symm)

theorem Step.makes_of_operations {s : Step} {ops : List Operation} (h : s.operations = .ok ops) :
    s.Makes ops := by
  have hlong : aliasOf? "u3" = some "U" := rfl
  obtain ⟨kind, -, hfind, hunitary⟩ := find?_of_aliasOf? hlong
  unfold Step.operations at h
  dsimp only at h
  split at h
  · rename_i hname
    rw [Step.measurements] at h
    split_ifs at h with hslots
    cases h
    exact .measurements hname hslots
  · rename_i hname
    obtain ⟨op, hop, rfl⟩ := map_eq_ok_iff.mp h
    change s.Makes [op]
    split_ifs at hop with hu1 hu2
    · obtain ⟨xs, -, hgate⟩ := bind_eq_ok_iff.mp hop
      exact makes_of_gate hfind hunitary hgate
    · obtain ⟨xs, -, hgate⟩ := bind_eq_ok_iff.mp hop
      exact makes_of_gate hfind hunitary hgate
    · cases halias : aliasOf? (lowerAscii s.name) with
      | some gate =>
        rw [halias] at hop
        obtain ⟨kind, -, hfind, hunitary⟩ := find?_of_aliasOf? halias
        exact makes_of_gate hfind hunitary hop
      | none =>
        rw [halias] at hop
        cases hgate : Kind.gate.find? (lowerAscii s.name) with
        | some kind =>
          rw [hgate] at hop
          exact makes_of_build (List.mem_of_find?_eq_some hgate) (unitary_of_find? hgate hname)
            (mapError_eq_ok.mp hop)
        | none =>
          rw [hgate] at hop
          cases hop
          exact .own ⟨hname, ⟨hu1, hu2⟩, halias, hgate⟩

theorem Step.ofOperation_eq_ok {op : Operation} {s : Step} (h : Step.ofOperation op = .ok s) :
    (∃ slot, op.slot? = some slot ∧ s = { name := measureStep, qubits := op.bits, memory := [slot] }) ∨
    (op.isMeasure = false ∧ ∃ xs, op.parameters.mapM (wireParameter op.name) = .ok xs ∧
      s = { name := wireName op.name, qubits := op.bits, parameters := xs }) := by
  rw [Step.ofOperation] at h
  split_ifs at h with hmeasure
  · cases hslot : op.slot? with
    | none =>
      rw [hslot] at h
      cases h
    | some slot =>
      rw [hslot] at h
      cases h
      exact .inl ⟨slot, rfl, rfl⟩
  · obtain ⟨xs, hxs, h⟩ := bind_eq_ok_iff.mp h
    cases h
    exact .inr ⟨Bool.eq_false_iff.mpr hmeasure, xs, hxs, rfl⟩

theorem slot?_eq_some {op : Operation} {slot : ℕ} (h : op.slot? = some slot) :
    op.name = Operation.measureName ∧
      ∃ n : Int64, op.parameters.head? = some (.int n) ∧ 0 ≤ n.toInt ∧ slot = n.toInt.toNat := by
  unfold Operation.slot? at h
  split_ifs at h with hmeasure
  split at h
  · rename_i n hhead
    split_ifs at h with hnonneg
    cases h
    exact ⟨eq_of_beq hmeasure, n, hhead, hnonneg, rfl⟩
  · cases h

theorem Step.operations_of_unlisted {s : Step} (h : Unlisted (lowerAscii s.name)) : s.operations =
    .ok [{ name := capitalize (lowerAscii s.name), bits := s.qubits, parameters := s.parameters.map .real }] := by
  simp only [Step.operations, if_neg h.measure, if_neg h.short.1, if_neg h.short.2, h.noAlias, h.noGate]
  rfl

theorem Step.Makes.compiled {s : Step} {ops : List Operation} (h : s.Makes ops) {op : Operation}
    (hop : op ∈ ops) : op.Compiled := by
  have hvars : ∀ xs : List Float, (xs.map Parameter.real).flatMap Parameter.vars = [] := fun xs => by
    simp [List.flatMap_eq_nil_iff, Parameter.vars]
  have hreals : ∀ (xs : List Float), ∀ p ∈ xs.map Parameter.real, ∃ x : Float, p = .real x := fun xs p hp =>
    let ⟨x, _, hx⟩ := List.mem_map.mp hp
    ⟨x, hx.symm⟩
  cases h with
  | measurements =>
    rw [← List.map_uncurry_zip_eq_zipWith] at hop
    obtain ⟨⟨q, m⟩, -, rfl⟩ := List.mem_map.mp hop
    exact ⟨rfl, rfl, rfl, nofun⟩
  | gate =>
    rw [List.mem_singleton.mp hop]
    exact ⟨hvars _, rfl, rfl, fun _ => hreals _⟩
  | own =>
    rw [List.mem_singleton.mp hop]
    exact ⟨hvars _, rfl, rfl, fun _ => hreals _⟩

end Wire

/-- An operation outside the table. Its name is what its wire name, in small letters, is capitalized
to, and its parameters are finite reals. -/
structure Operation.FitsOwn (op : Operation) : Prop where
  unlisted : Wire.Unlisted (Text.lowerAscii (Wire.wireName op.name))
  name : Text.capitalize (Text.lowerAscii (Wire.wireName op.name)) = op.name
  reals : ∀ p ∈ op.parameters, ∃ x : Float, p = .real x ∧ x.isFinite

/-- A gate of the table, a measurement into a slot that is not negative, or an operation outside the
table whose name is told from its small letters. -/
def Operation.Fits (op : Operation) : Prop := (∃ kind, op.FitsGate kind) ∨ op.FitsMeasure ∨ op.FitsOwn

namespace Wire

open Text

/-- The step that stands for an operation makes that operation and no other. -/
def ComesBack (op : Operation) : Prop := ∃ s, Step.ofOperation op = .ok s ∧ s.operations = .ok [op]

theorem lowerAscii_measureStep : lowerAscii measureStep = measureStep := by
  simp [lowerAscii_eq, measureStep]

theorem lowerAscii_wireName_measureName : lowerAscii (wireName Operation.measureName) = measureStep := by
  simp [lowerAscii_eq, measureStep, Operation.measureName, wireName]

theorem comesBack_of_fitsOwn {op : Operation} (h : op.FitsOwn) (henabled : op.enabled)
    (hdigital : op.analog = false) : ComesBack op := by
  obtain ⟨xs, hxs⟩ := exists_reals h.reals
  have hmeasure : op.isMeasure = false := by
    cases hname : op.isMeasure with
    | false => rfl
    | true =>
      have hunlisted := h.unlisted
      rw [eq_of_beq hname, lowerAscii_wireName_measureName] at hunlisted
      exact absurd rfl hunlisted.measure
  refine ⟨{ name := wireName op.name, qubits := op.bits, parameters := xs }, ?_, ?_⟩
  · simp only [Step.ofOperation, hmeasure, hxs, mapM_wireParameter]
    rfl
  · rw [Step.operations_of_unlisted h.unlisted, h.name, ← hxs]
    obtain ⟨name, bits, parameters, enabled, analog⟩ := op
    cases henabled
    cases hdigital
    rfl

theorem fits_of_comesBack {op : Operation} (hreals : ∀ x : Float, .real x ∈ op.parameters → x.isFinite)
    (h : ComesBack op) : op.Fits := by
  obtain ⟨s, hs, hback⟩ := h
  have hfinite : ∀ xs : List Float, op.parameters = xs.map .real →
      ∀ p ∈ op.parameters, ∃ x : Float, p = .real x ∧ x.isFinite := by
    intro xs hxs p hp
    rw [hxs] at hp
    obtain ⟨x, hx, rfl⟩ := List.mem_map.mp hp
    exact ⟨x, rfl, hreals x (hxs ▸ List.mem_map_of_mem hx)⟩
  -- the list that the step makes is generalized, so that its form can be told
  generalize hops : [op] = ops at hback
  have hmakes := Step.makes_of_operations hback
  rcases Step.ofOperation_eq_ok hs with ⟨slot, hslot, rfl⟩ | ⟨-, xs, -, rfl⟩
  · obtain ⟨hname, n, hhead, hnonneg, -⟩ := slot?_eq_some hslot
    cases hmakes with
    | measurements =>
      obtain ⟨q, -, m, -, -, -, hop, -⟩ := List.zipWith_eq_cons_iff.mp hops.symm
      have hparameters : op.parameters = [.int (Int64.ofNat m)] := congrArg Operation.parameters hop
      have hbits : op.bits = [q] := congrArg Operation.bits hop
      rw [hparameters] at hhead
      cases hhead
      exact .inr (.inl ⟨hname, by rw [hbits]; rfl, Int64.ofNat m, hparameters, hnonneg⟩)
    | gate _ hunitary =>
      have hop := List.singleton_inj.mp hops
      exact absurd ((congrArg Operation.name hop).symm.trans hname) hunitary
    | own hlower => exact absurd lowerAscii_measureStep hlower.measure
  · cases hmakes with
    | measurements =>
      rw [List.zipWith_nil_right] at hops
      cases hops
    | @gate kind ys hkind hunitary hbits hparameters =>
      have hop := List.singleton_inj.mp hops
      have hys : op.parameters = ys.map .real := congrArg Operation.parameters hop
      exact .inl ⟨kind, hkind, hunitary, congrArg Operation.name hop, hbits,
        by rw [hys, List.length_map, hparameters], hfinite ys hys⟩
    | own hlower =>
      have hop := List.singleton_inj.mp hops
      have hys : op.parameters = xs.map .real := congrArg Operation.parameters hop
      exact .inr (.inr ⟨hlower, (congrArg Operation.name hop).symm, hfinite xs hys⟩)

/-- Which operations come back from the steps that stand for them. -/
theorem comesBack_iff {op : Operation} (henabled : op.enabled) (hdigital : op.analog = false)
    (hreals : ∀ x : Float, .real x ∈ op.parameters → x.isFinite) : ComesBack op ↔ op.Fits := by
  refine ⟨fits_of_comesBack hreals, ?_⟩
  rintro (⟨kind, hgate⟩ | hmeasure | hown)
  · obtain ⟨s, hs, hstands⟩ := Step.ofOperation_gate hgate henabled hdigital
    exact ⟨s, hs, hstands.operations⟩
  · obtain ⟨s, hs, hstands⟩ := Step.ofOperation_measure hmeasure henabled hdigital
    exact ⟨s, hs, hstands.operations⟩
  · exact comesBack_of_fitsOwn hown henabled hdigital

/-- A step that stands for an operation makes one operation at most. -/
theorem length_le_one_of_ofOperation {op : Operation} {s : Step} {made : List Operation}
    (h : Step.ofOperation op = .ok s) (hmade : s.operations = .ok made) : made.length ≤ 1 := by
  have hmemory : s.memory.length ≤ 1 := by
    rcases Step.ofOperation_eq_ok h with ⟨slot, -, rfl⟩ | ⟨-, xs, -, rfl⟩
    · exact le_rfl
    · exact Nat.zero_le 1
  cases Step.makes_of_operations hmade with
  | measurements =>
    rw [List.length_zipWith]
    exact (Nat.min_le_right ..).trans hmemory
  | gate => exact le_rfl
  | own => exact le_rfl

/-- A step whose name begins with an ASCII character and whose slots are natural numbers of a signed
word. -/
structure Step.Ordinary (s : Step) : Prop where
  letter : ∀ c ∈ s.name.toList.head?, c.toNat < 128
  slots : ∀ m ∈ s.memory, m < 2 ^ 63

theorem map_toLower_upperChars_ascii : ∀ n < 128, (Char.ofNat n).toLower = Char.ofNat n →
    (upperChars (Char.ofNat n)).map Char.toLower = [Char.ofNat n] := by decide +kernel

/-- A small letter of ASCII is capitalized to one character, and small again it is itself. -/
theorem map_toLower_upperChars {c : Char} (hascii : c.toNat < 128) (hlower : c.toLower = c) :
    (upperChars c).map Char.toLower = [c] := by
  have hc := map_toLower_upperChars_ascii c.toNat hascii
  rw [Char.ofNat_toNat] at hc
  exact hc hlower

theorem toNat_toLower_lt {c : Char} (hascii : c.toNat < 128) : c.toLower.toNat < 128 := by
  have hall : ∀ n < 128, (Char.ofNat n).toLower.toNat < 128 := by decide +kernel
  have hc := hall c.toNat hascii
  rwa [Char.ofNat_toNat] at hc

theorem lowerAscii_capitalize {name : String} (hletter : ∀ c ∈ name.toList.head?, c.toNat < 128) :
    lowerAscii (capitalize (lowerAscii name)) = lowerAscii name := by
  rw [lowerAscii_eq name, capitalize, String.toList_ofList]
  cases hchars : name.toList with
  | nil =>
    rw [List.map_nil, lowerAscii_eq]
    rfl
  | cons c rest =>
    have hc : c.toNat < 128 := hletter c (by rw [hchars]; rfl)
    have hrest : (rest.map Char.toLower).map Char.toLower = rest.map Char.toLower := by
      rw [List.map_map, (funext toLower_toLower : Char.toLower ∘ Char.toLower = Char.toLower)]
    rw [List.map_cons, lowerAscii_eq, String.toList_ofList, List.map_append, hrest,
      map_toLower_upperChars (toNat_toLower_lt hc) (toLower_toLower c)]
    rfl

theorem wireName_of_unlisted {name : String} (h : Unlisted (lowerAscii name)) : wireName name = lowerAscii name := by
  have hlisted : ∀ name ∈ ["CNOT", "U", "CPhase", "I"], Kind.gate.find? (lowerAscii name) ≠ none := by
    simp only [Kind.find?, sameIgnoringCase, lowerAscii_eq]
    decide +kernel
  unfold wireName
  split
  all_goals first | rfl | exact absurd h.noGate (hlisted _ (by decide))

/-- What an ordinary step makes comes back. -/
theorem Step.Makes.fits {s : Step} {ops : List Operation} (h : s.Makes ops) (hs : s.Ordinary) {op : Operation}
    (hop : op ∈ ops) (hfinite : ∀ x : Float, .real x ∈ op.parameters → x.isFinite) : op.Fits := by
  have hreals : op.isMeasure = false → ∀ p ∈ op.parameters, ∃ x : Float, p = .real x ∧ x.isFinite := by
    intro hmeasure p hp
    obtain ⟨x, rfl⟩ := (h.compiled hop).reals hmeasure p hp
    exact ⟨x, rfl, hfinite x hp⟩
  cases h with
  | measurements =>
    rw [← List.map_uncurry_zip_eq_zipWith] at hop
    obtain ⟨⟨q, m⟩, hqm, rfl⟩ := List.mem_map.mp hop
    have hm := hs.slots m (List.of_mem_zip hqm).2
    exact .inr (.inl ⟨rfl, rfl, Int64.ofNat m, rfl, by rw [Int64.toInt_ofNat_of_lt hm]; exact Int.natCast_nonneg m⟩)
  | @gate kind xs hkind hunitary hbits hparameters =>
    cases List.mem_singleton.mp hop
    exact .inl ⟨kind, hkind, hunitary, rfl, hbits, by rw [List.length_map, hparameters],
      hreals (beq_eq_false_iff_ne.mpr hunitary)⟩
  | own hname =>
    cases List.mem_singleton.mp hop
    have hlower := lowerAscii_capitalize hs.letter
    have hwire : wireName (capitalize (lowerAscii s.name)) = lowerAscii s.name := by
      rw [wireName_of_unlisted (hlower.symm ▸ hname), hlower]
    have hown : lowerAscii (wireName (capitalize (lowerAscii s.name))) = lowerAscii s.name := by
      rw [hwire, lowerAscii_lowerAscii]
    have hmeasure : capitalize (lowerAscii s.name) ≠ Operation.measureName := by
      intro hsame
      rw [hsame, lowerAscii_wireName_measureName] at hown
      exact hname.measure hown.symm
    exact .inr (.inr ⟨by rwa [hown], by rw [hown], hreals (beq_eq_false_iff_ne.mpr hmeasure)⟩)

end Wire

end QuantumKernels
