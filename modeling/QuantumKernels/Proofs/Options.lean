import QuantumKernels.Options
import QuantumKernels.Proofs.Outcome

/-!
# Reading options

What options say of a key: nothing, a text that is no value of its kind, or a value, which may still
not fit. A list option is read item by item.
-/
namespace QuantumKernels

namespace Options

variable {α : Type} {options : Options} {key : String} {reader : Reader α}

/-- The option is set to a text that is no value of its kind. -/
def Malformed (options : Options) (key : String) (reader : Reader α) : Prop :=
  ∃ raw cause, options.get? key = some raw ∧ reader (Text.trimChars raw.toList) = .error cause

theorem exists_read_eq_error_iff :
    (∃ e, options.read key reader = .error e) ↔ options.Malformed key reader := by
  rw [read, Malformed]
  cases options.get? key with
  | none => simp
  | some raw => cases hread : reader (Text.trimChars raw.toList) <;> simp [hread]

theorem exists_read_eq_ok_iff : (∃ v, options.read key reader = .ok v) ↔ ¬ options.Malformed key reader := by
  rw [← exists_read_eq_error_iff]
  cases options.read key reader <;> simp

instance : Decidable (options.Malformed key reader) :=
  decidable_of_iff ((options.read key reader).isOk = false) <| by
    rw [← exists_read_eq_error_iff]
    cases options.read key reader <;> simp [Except.isOk, Except.toBool]

/-- The value that the option sets, if it sets one. -/
def value? (options : Options) (key : String) (reader : Reader α) : Option α :=
  (options.read key reader).toOption.join

theorem value?_of_read {v : Option α} (h : options.read key reader = .ok v) : options.value? key reader = v := by
  rw [value?, h]
  rfl

/-- An item of the list option is no value of its kind. -/
def MalformedList (options : Options) (key : String) (reader : Reader α) : Prop :=
  ∃ raw item cause, options.get? key = some raw ∧ item ∈ items raw ∧ reader item.toList = .error cause

theorem readItem_eq_ok {item : String} {v : α} : readItem key reader item = .ok v ↔ reader item.toList = .ok v := by
  unfold readItem
  cases reader item.toList <;> simp

theorem exists_readList_eq_ok_iff :
    (∃ vs, options.readList key reader = .ok vs) ↔ ¬ options.MalformedList key reader := by
  unfold readList MalformedList
  cases options.get? key with
  | none => exact iff_of_true ⟨none, rfl⟩ (by simp)
  | some raw =>
    have hitems : (∃ vs, (items raw).mapM (readItem key reader) = .ok vs) ↔
        ∀ item ∈ items raw, ∃ v, reader item.toList = .ok v := by
      simp only [mapM_eq_ok_iff, exists_forall₂_iff, readItem_eq_ok]
    have hmap : (∃ vs, ((items raw).mapM (readItem key reader)).map some = .ok vs) ↔
        ∃ vs, (items raw).mapM (readItem key reader) = .ok vs := by
      cases (items raw).mapM (readItem key reader) <;> simp [Except.map]
    refine (hmap.trans hitems).trans ⟨?_, fun h item hitem => ?_⟩
    · rintro hall ⟨_, item, cause, hraw, hitem, hcause⟩
      cases hraw
      obtain ⟨v, hv⟩ := hall item hitem
      cases hv.symm.trans hcause
    · cases hread : reader item.toList with
      | ok v => exact ⟨v, rfl⟩
      | error cause => exact absurd ⟨raw, item, cause, rfl, hitem, hread⟩ h

/-- The values that the list option sets, if it sets any. -/
def values? (options : Options) (key : String) (reader : Reader α) : Option (List α) :=
  (options.readList key reader).toOption.join

theorem values?_of_readList {vs : Option (List α)} (h : options.readList key reader = .ok vs) :
    options.values? key reader = vs := by
  rw [values?, h]
  rfl

/-- The option is set to a text that is no value of its kind, or to a value that does not fit. -/
def Unfit (options : Options) (key : String) (reader : Reader α) (fits : α → Prop) : Prop :=
  options.Malformed key reader ∨ ∃ v, options.value? key reader = some v ∧ ¬ fits v

instance {fits : α → Prop} [DecidablePred fits] : Decidable (options.Unfit key reader fits) :=
  decidable_of_iff (options.Malformed key reader ∨ (options.value? key reader).any fun v => !fits v) <| by
    cases hvalue : options.value? key reader <;> simp [Unfit, hvalue]

def UnfitList (options : Options) (key : String) (reader : Reader α) (fits : List α → Prop) : Prop :=
  options.MalformedList key reader ∨ ∃ vs, options.values? key reader = some vs ∧ ¬ fits vs

theorem not_unfit_iff {fits : α → Prop} : ¬ options.Unfit key reader fits ↔
    ∃ v, options.read key reader = .ok v ∧ ∀ a, v = some a → fits a := by
  rw [Unfit, not_or, ← exists_read_eq_ok_iff, value?]
  cases options.read key reader <;> simp [Except.toOption]

theorem not_unfitList_iff {fits : List α → Prop} : ¬ options.UnfitList key reader fits ↔
    ∃ vs, options.readList key reader = .ok vs ∧ ∀ a, vs = some a → fits a := by
  rw [UnfitList, not_or, ← exists_readList_eq_ok_iff, values?]
  cases options.readList key reader <;> simp [Except.toOption]

/-- What fits still does when options that have nothing unfit go over it. -/
theorem fits_getD {fits : α → Prop} {a : α} (h : ¬ options.Unfit key reader fits) (ha : fits a) :
    fits ((options.value? key reader).getD a) := by
  obtain ⟨v, hread, hfits⟩ := not_unfit_iff.mp h
  rw [value?_of_read hread]
  cases v with
  | none => exact ha
  | some b => exact hfits b rfl

theorem fits_getD_list {fits : List α → Prop} {vs : List α} (h : ¬ options.UnfitList key reader fits)
    (hvs : fits vs) : fits ((options.values? key reader).getD vs) := by
  obtain ⟨v, hread, hfits⟩ := not_unfitList_iff.mp h
  rw [values?_of_readList hread]
  cases v with
  | none => exact hvs
  | some us => exact hfits us rfl

/-- Nothing else but a text at the key makes a value. -/
theorem isSome_of_read {v : Option α} (h : options.read key reader = .ok v) :
    v.isSome = options.contains key := by
  unfold read at h
  unfold Dictionary.contains
  split at h
  · rename_i hnone
    cases h
    rw [hnone]
    rfl
  · rename_i raw hraw
    rw [hraw]
    split at h <;> cases h
    rfl

theorem isSome_of_readList {vs : Option (List α)} (h : options.readList key reader = .ok vs) :
    vs.isSome = options.contains key := by
  unfold readList at h
  unfold Dictionary.contains
  split at h
  · rename_i hnone
    cases h
    rw [hnone]
    rfl
  · rename_i raw hraw
    rw [hraw]
    cases hitems : (items raw).mapM (readItem key reader) with
    | error e =>
      rw [hitems] at h
      cases h
    | ok values =>
      rw [hitems] at h
      cases h
      rfl

end Options

end QuantumKernels
