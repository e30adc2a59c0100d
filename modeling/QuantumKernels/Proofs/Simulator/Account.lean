import QuantumKernels.Proofs.Histogram
import QuantumKernels.Proofs.Simulator.Checked

/-!
# The account of a run

A run on the local simulator records one outcome for each shot. All its outcomes are alike in form,
on either branch and for every random stream: as long as the slots that are read ask for, of zeros
and ones, and zero where nothing is read. A run that fails records nothing.
-/
namespace QuantumKernels

theorem foldlM_keeps {ε α τ : Type} {f : τ → α → Except ε τ} {P : τ → Prop} {l : List α}
    (hstep : ∀ a ∈ l, ∀ t t', P t → f t a = .ok t' → P t') {t t' : τ} (ht : P t)
    (h : l.foldlM f t = .ok t') : P t' := by
  induction l generalizing t with
  | nil =>
    cases h
    exact ht
  | cons a rest ih =>
    obtain ⟨t₁, hfirst, hrest⟩ := foldlM_cons_eq_ok_iff.mp h
    exact ih (fun c hc => hstep c (List.mem_cons_of_mem a hc)) (hstep a List.mem_cons_self t t₁ ht hfirst) hrest

namespace Plan

/-- An outcome in the making: of that length, and zero outside of the slots that are read. -/
structure Formed (width : ℕ) (slots : List ℕ) (bits : List Char) : Prop where
  digits : ∀ c ∈ bits, c = '0' ∨ c = '1'
  length : bits.length = width
  unread : ∀ slot < width, slot ∉ slots → bits[slot]? = some '0'

theorem formed_blank (p : Plan) (slots : List ℕ) : Formed p.width slots p.blank where
  digits _ hc := .inl (List.eq_of_mem_replicate hc)
  length := List.length_replicate
  unread slot hslot _ := by simp [blank, hslot]

/-- A slot that is read may be written. -/
theorem Formed.set {width slot : ℕ} {slots : List ℕ} {bits : List Char} (h : Formed width slots bits)
    (hslot : slot ∈ slots) (bit : Bool) : Formed width slots (bits.set slot (if bit then '1' else '0')) where
  digits c hc := by
    rcases List.mem_or_eq_of_mem_set hc with hc | rfl
    · exact h.digits c hc
    · cases bit <;> simp
  length := List.length_set.trans h.length
  unread other hother hunread := by
    have hne : slot ≠ other := fun heq => hunread (heq ▸ hslot)
    rw [List.getElem?_set_ne hne]
    exact h.unread other hother hunread

variable {p : Plan} {k : Kernel} {error : Float} {r : RandomStream} {shots : ℕ}

theorem formed_readIndex (hp : p.Reads k) {index : ℕ} {o : List Char × RandomStream}
    (h : p.readIndex error index r = .ok o) : Formed p.width k.readSlots o.1 := by
  refine foldlM_keeps (P := fun t : List Char × RandomStream => Formed p.width k.readSlots t.1) ?_
    (p.formed_blank _) h
  rintro e he ⟨bits, r⟩ t' ht hstep
  have hslot : e.2 ∈ k.readSlots := hp.slots ▸ List.mem_map_of_mem he
  obtain ⟨flipped, -, hstep⟩ := bind_eq_ok_iff.mp hstep
  cases hstep
  dsimp only at ht ⊢
  split
  · exact ht.set hslot true
  · exact ht

theorem formed_shot (hp : p.Reads k) {o : List Char × RandomStream} (h : p.shot error r = .ok o) :
    Formed p.width k.readSlots o.1 := by
  obtain ⟨register, -, h⟩ := bind_eq_ok_iff.mp h
  obtain ⟨t, hfold, h⟩ := bind_eq_ok_iff.mp h
  cases h
  refine foldlM_keeps (P := fun t => Formed p.width k.readSlots t.bits) ?_ (p.formed_blank _) hfold
  intro op hop t t' ht hstep
  unfold Shot.step at hstep
  split at hstep
  · rename_i hmeasure
    obtain ⟨o, -, hstep⟩ := bind_eq_ok_iff.mp hstep
    obtain ⟨flipped, -, hstep⟩ := bind_eq_ok_iff.mp hstep
    obtain ⟨q, slot, -, hslot, hmem⟩ := hp.measured op (hp.operations ▸ hop) hmeasure
    cases hstep
    rw [hslot]
    exact ht.set (hp.slots ▸ hmem) _
  · obtain ⟨s, -, hstep⟩ := bind_eq_ok_iff.mp hstep
    cases hstep
    exact ht

/-- A histogram of so many outcomes, all of one form. -/
structure Tallies (P : List Char → Prop) (shots : ℕ) (counts : Dictionary ℕ) : Prop where
  total : Buffer.total counts = shots
  formed : ∀ e ∈ counts.entries, P e.1.toList

theorem Tallies.addCount {P : List Char → Prop} {counts : Dictionary ℕ} (h : Tallies P shots counts)
    {bits : List Char} (hbits : P bits) :
    Tallies P (shots + 1) (Buffer.addCount counts (String.ofList bits) 1) where
  total := by rw [Buffer.total_addCount, h.total]
  formed e he := by
    have hget := (Buffer.addCount counts (String.ofList bits) 1).get?_eq_some_iff.mpr he
    rw [Buffer.get?_addCount] at hget
    split at hget
    · rename_i hnew
      rw [← hnew.1, String.toList_ofList]
      exact hbits
    · exact h.formed e (counts.get?_eq_some_iff.mp hget)

theorem tallies_repeatShots {P : List Char → Prop}
    {one : RandomStream → Except DeviceError (List Char × RandomStream)} (hone : ∀ r o, one r = .ok o → P o.1)
    {done : ℕ} {counts counts' : Dictionary ℕ} (hcounts : Tallies P done counts)
    (h : repeatShots one shots counts r = .ok counts') : Tallies P (done + shots) counts' := by
  induction shots generalizing done counts r with
  | zero =>
    cases h
    exact hcounts
  | succ shots ih =>
    obtain ⟨o, ho, h⟩ := bind_eq_ok_iff.mp h
    rw [← Nat.add_assoc, Nat.add_right_comm]
    exact ih (hcounts.addCount (hone r o ho)) h

theorem tallies_run (hp : p.Reads k) {counts : Dictionary ℕ} (h : p.run shots error r = .ok counts) :
    Tallies (Formed p.width k.readSlots) shots counts := by
  have hnone : Tallies (Formed p.width k.readSlots) 0 ∅ := ⟨rfl, nofun⟩
  rw [← Nat.zero_add shots]
  unfold run at h
  split at h
  · obtain ⟨state, -, h⟩ := bind_eq_ok_iff.mp h
    exact tallies_repeatShots (fun r o ho => formed_readIndex hp ho) hnone h
  · exact tallies_repeatShots (fun r o ho => formed_shot hp ho) hnone h

end Plan

/-- An outcome of a kernel: a zero or a one for each slot up to the last one that a measurement names,
and a zero in those that none names. Without measurements there is a slot for each qubit, up to the
last one in use. -/
structure Kernel.IsOutcome (k : Kernel) (bits : String) : Prop where
  digits : ∀ c ∈ bits.toList, c = '0' ∨ c = '1'
  length : bits.length = if k.operations.any Operation.isMeasure then widthOf k.measuredSlots
    else widthOf (k.operations.flatMap Operation.bits)
  unread : k.operations.any Operation.isMeasure → ∀ slot < bits.length, slot ∉ k.measuredSlots →
    bits.toList[slot]? = some '0'

theorem widthOf_range (n : ℕ) : widthOf (List.range n) = n := by
  refine le_antisymm (widthOf_le fun _ => List.mem_range.mp) ?_
  by_contra hlt
  exact lt_irrefl _ (lt_widthOf (List.mem_range.mpr (Nat.lt_of_not_le hlt)))

theorem Plan.Formed.isOutcome {k : Kernel} {bits : String}
    (hword : k.operations.any Operation.isMeasure = false →
      Word.wrap (widthOf (k.operations.flatMap Operation.bits)) = widthOf (k.operations.flatMap Operation.bits))
    (h : Plan.Formed (widthOf k.readSlots) k.readSlots bits.toList) : k.IsOutcome bits := by
  have hlength : bits.length = widthOf k.readSlots := by rw [← String.length_toList, h.length]
  refine ⟨h.digits, ?_, fun hany slot hslot hunread => ?_⟩
  · rw [hlength, Kernel.readSlots]
    split
    · rfl
    · rename_i hnone
      rw [hword (by simpa using hnone), widthOf_range]
  · have hread : k.readSlots = k.measuredSlots := if_pos hany
    exact h.unread slot (hlength ▸ hslot) (hread ▸ hunread)

/-- Without measurements all gates are applied, so the register has all qubits that they name. -/
theorem Plan.Needs.width_eq {p : Plan} {k : Kernel} {shots : ℕ} {error : Float} {r : RandomStream}
    (h : p.Needs shots error r) (hfollows : p.Follows k) (hnone : k.operations.any Operation.isMeasure = false) :
    Word.wrap (widthOf (k.operations.flatMap Operation.bits)) = widthOf (k.operations.flatMap Operation.bits) := by
  have hgate : ∀ op ∈ k.operations, op.isMeasure = false := by simpa using hnone
  have hterminal : p.terminal = true := by
    by_contra hnot
    obtain ⟨op, hop, hmeasure⟩ := hfollows.not_terminal (by simpa using hnot)
    rw [hgate op (hfollows.operations ▸ hop)] at hmeasure
    cases hmeasure
  have hgates := h.gates (.inl hterminal)
  rw [Plan.GatesApply, hfollows.operations, hfollows.qubits] at hgates
  exact Word.wrap_of_le ((Plan.width_le_iff k _).mpr fun op hop q hq => (hgates op hop (hgate op hop)).inside q hq)

namespace Buffer

theorem appendCounts_rest (b : Buffer) (counts : List (String × ℕ)) : b.appendCounts counts =
    { b with measurements := (b.appendCounts counts).measurements, counts := (b.appendCounts counts).counts } := by
  induction counts generalizing b with
  | nil => cases b; rfl
  | cons e counts ih => exact ih (b.appendCount e.1 e.2)

/-- The buffer `b'` is `b` with these outcomes recorded behind its own. -/
structure Records (b : Buffer) (added : List String) (b' : Buffer) : Prop where
  measurements : b'.measurements = b.measurements ++ added
  count : ∀ bits, b'.count bits = b.count bits + added.count bits
  rest : b' = { b with measurements := b'.measurements, counts := b'.counts }

theorem records_appendCounts (b : Buffer) (counts : List (String × ℕ)) :
    b.Records (counts.flatMap fun e => List.replicate e.2 e.1) (b.appendCounts counts) where
  measurements := b.measurements_appendCounts counts
  count bits := by
    have hcount := b.count_measurements_appendCounts counts bits
    rw [measurements_appendCounts, List.count_append] at hcount
    rw [count_appendCounts, Nat.add_left_cancel hcount]
  rest := b.appendCounts_rest counts

end Buffer

namespace LocalSettings

variable {σ : Type}

theorem execute_records {s : LocalSettings} {random : RandomSource} {k : Kernel} {b b' : Buffer}
    (h : s.execute random k b = .ok b') :
    ∃ added, b.Records added b' ∧ added.length = s.shots ∧ ∀ bits ∈ added, k.IsOutcome bits := by
  obtain ⟨p, hp, h⟩ := bind_eq_ok_iff.mp h
  obtain ⟨counts, hcounts, h⟩ := bind_eq_ok_iff.mp h
  cases h
  have hreads := Plan.ofKernel_reads hp
  have htallies := Plan.tallies_run hreads hcounts
  have hword := (Plan.needs_of_run hcounts).width_eq (Plan.ofKernel_follows hp)
  refine ⟨_, b.records_appendCounts counts.entries, ?_, fun bits hbits => ?_⟩
  · rw [← htallies.total, Buffer.total_eq_sum]
    simp [List.length_flatMap]
  · obtain ⟨e, he, hbits⟩ := List.mem_flatMap.mp hbits
    rw [List.eq_of_mem_replicate hbits]
    exact Plan.Formed.isOutcome hword (hreads.width ▸ htallies.formed e he)

/-- Whatever the random stream, a run that succeeds records as many outcomes as there are shots, each
of the form that the kernel's measurements ask for, changes nothing else and has used no index outside of the
state or of an outcome; a run that fails leaves the buffer as it is. That indices are checked changes no
report. -/
theorem execute_accounts_for_shots (s : LocalSettings) (random : RandomSource) (k : Kernel) (b : Buffer) (n : σ) :
    (∃ outcome b', ((s.accelerator σ random).execute k).run (b, n) = (outcome, b', n) ∧
      (outcome = .ok () → (∃ added, b.Records added b' ∧ added.length = s.shots ∧
        ∀ bits ∈ added, k.IsOutcome bits) ∧ Checked.execute s random k b = Checked.inside (.ok b')) ∧
      ((∃ e, outcome = .error e) → b' = b)) ∧
    (Checked.execute s random k b).outcome = s.execute random k b := by
  have hchecked := Checked.execute_outcome s random k b
  refine ⟨?_, hchecked⟩
  rw [execute_run]
  cases hexecute : s.execute random k b with
  | error e => exact ⟨_, _, rfl, nofun, fun _ => rfl⟩
  | ok b' =>
    rw [hexecute] at hchecked
    exact ⟨_, _, rfl, fun _ => ⟨execute_records hexecute, Checked.eq_inside_of_outcome hchecked⟩, nofun⟩

end LocalSettings

end QuantumKernels
