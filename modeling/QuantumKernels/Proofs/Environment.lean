import QuantumKernels.Proofs.Outcome
import QuantumKernels.Proofs.RemoteDefaults
import Mathlib.Data.List.Sort

/-!
# Variables of the environment

A variable addresses one field of a configuration, or none. Its value is read without a look at the rest
and is put into that field alone, where an entry is made for a device that has none. So it makes no
difference in which order variables of different fields are taken in.
-/
namespace QuantumKernels

namespace Dictionary

variable {α : Type}

/-- Maps with the same bindings are equal. -/
theorem ext_get? {m n : Dictionary α} (h : ∀ k, m.get? k = n.get? k) : m = n := by
  have hmem : ∀ e, e ∈ m.entries ↔ e ∈ n.entries := by
    intro e
    rw [← m.get?_eq_some_iff, ← n.get?_eq_some_iff, h]
  have hirrefl : Std.Irrefl fun a b : String × α => a.1 < b.1 := ⟨fun a => String.lt_irrefl a.1⟩
  have hantisymm : Std.Antisymm fun a b : String × α => a.1 < b.1 :=
    ⟨fun a b hab hba => absurd (String.lt_trans hab hba) (String.lt_irrefl a.1)⟩
  obtain ⟨l, hl⟩ := m
  obtain ⟨l', hl'⟩ := n
  obtain rfl : l = l' := hl.eq_of_mem_iff hl' hmem
  rfl

/-- A key that is bound has one entry. -/
theorem filter_entries_of_get? {m : Dictionary α} {k : String} {v : α} (h : m.get? k = some v) :
    m.entries.filter (·.1 == k) = [(k, v)] := by
  have hmem := m.get?_eq_some_iff.mp h
  obtain ⟨before, after, hsplit⟩ := List.append_of_mem hmem
  have hkeys : m.entries.Pairwise fun a b => a.1 ≠ b.1 := m.ascending.imp fun hlt heq => by
    rw [heq] at hlt
    exact String.lt_irrefl _ hlt
  rw [hsplit] at hkeys ⊢
  obtain ⟨-, hafter, hbefore⟩ := List.pairwise_append.mp hkeys
  have hfront : before.filter (·.1 == k) = [] :=
    List.filter_eq_nil_iff.mpr fun e he hk => hbefore e he (k, v) (by simp) (beq_iff_eq.mp hk)
  have hback : after.filter (·.1 == k) = [] :=
    List.filter_eq_nil_iff.mpr fun e he hk => (List.pairwise_cons.mp hafter).1 e he (beq_iff_eq.mp hk).symm
  rw [List.filter_append, hfront, List.filter_cons, if_pos (beq_self_eq_true k), hback]
  rfl

end Dictionary

namespace Configuration

/-- What a variable of the environment may set. -/
inductive Field where
  | root
  | logLevel
  | logFormat
  | timeout
  | attempts
  | backoff
  | option (key : String)
  | token (device : String)
  | endpoint (device : String)
deriving DecidableEq

namespace Field

/-- The fields with variables of their own. -/
def fixed : List (String × Field) := [
  ("PLUGIN_ROOT", root),
  ("LOG_LEVEL", logLevel),
  ("LOG_FORMAT", logFormat),
  ("REMOTE_TIMEOUT", timeout),
  ("REMOTE_MAX_ATTEMPTS", attempts),
  ("REMOTE_BACKOFF_MILLIS", backoff)]

/-- How the variables of all other fields begin; the rest names the option or the device. -/
def families : List (String × (String → Field)) :=
  [("OPTION_", option), ("TOKEN_", token), ("ENDPOINT_", endpoint)]

/-- The field that the part of a name that counts stands for. -/
def ofName? (name : String) : Option Field :=
  (fixed.lookup name).or
    (families.findSome? fun (start, field) => (Text.afterOpening start name).map fun rest => field (plainName rest))

/-- The field that a variable addresses. -/
def ofVariable? (name : String) : Option Field :=
  (Text.afterOpening opening name).bind ofName?

/-- What may stand in a field. -/
abbrev Value : Field → Type
  | logFormat => LogFormat
  | timeout | attempts | backoff => Nat
  | root | logLevel | option _ | token _ | endpoint _ => String

/-- How the value of a variable is read. -/
def read : (f : Field) → String → Except ConfigurationFault f.Value
  | logFormat, s => LogFormat.read s
  | timeout, s => readNumber "REMOTE_TIMEOUT" s 64
  | attempts, s => readNumber "REMOTE_MAX_ATTEMPTS" s 32
  | backoff, s => readNumber "REMOTE_BACKOFF_MILLIS" s 64
  | root, s | logLevel, s | option _, s | token _, s | endpoint _, s => .ok s

/-- The device whose entry has the field. -/
def device? : Field → Option String
  | token device | endpoint device => some device
  | _ => none

end Field

/-- What stands in a field, if anything does. -/
def value? (c : Configuration) : (f : Field) → Option f.Value
  | .root => c.root
  | .logLevel => some c.logLevel
  | .logFormat => some c.logFormat
  | .timeout => some c.remote.timeoutSeconds
  | .attempts => some c.remote.maxAttempts
  | .backoff => some c.remote.backoffMillis
  | .option key => c.options.get? key
  | .token device => (c.accelerators.get? device).bind DeviceConfig.token
  | .endpoint device => (c.accelerators.get? device).bind DeviceConfig.endpoint

/-- The configuration with another value in a field. -/
def put (c : Configuration) : (f : Field) → f.Value → Configuration
  | .root, v => { c with root := some v }
  | .logLevel, v => { c with logLevel := v }
  | .logFormat, v => { c with logFormat := v }
  | .timeout, v => { c with remote := { c.remote with timeoutSeconds := v } }
  | .attempts, v => { c with remote := { c.remote with maxAttempts := v } }
  | .backoff, v => { c with remote := { c.remote with backoffMillis := v } }
  | .option key, v => { c with options := c.options.insert key v }
  | .token device, v => c.withDevice device fun d => { d with token := some v }
  | .endpoint device, v => c.withDevice device fun d => { d with endpoint := some v }

theorem get?_withDevice (c : Configuration) (device other : String) (f : DeviceConfig → DeviceConfig) :
    (c.withDevice device f).accelerators.get? other =
      if device = other then some (f (c.entryOf device)) else c.accelerators.get? other :=
  Dictionary.get?_insert ..

theorem value?_put_self (c : Configuration) (f : Field) (v : f.Value) : (c.put f v).value? f = some v := by
  cases f with
  | option key => exact (Dictionary.get?_insert ..).trans (if_pos rfl)
  | token device | endpoint device => simp [put, value?, get?_withDevice]
  | root | logLevel | logFormat | timeout | attempts | backoff => rfl

/-- What may be set of an entry is set there alone, and the same in a new entry. -/
theorem value?_withDevice_of_ne {c : Configuration} {device : String} {f : DeviceConfig → DeviceConfig} {g : Field}
    (htoken : ∀ d, g = .token device → (f d).token = d.token)
    (hendpoint : ∀ d, g = .endpoint device → (f d).endpoint = d.endpoint) :
    (c.withDevice device f).value? g = c.value? g := by
  have hnew : ∀ field : DeviceConfig → Option String, field { name := device } = none →
      (∀ d, field (f d) = field d) →
      ((c.withDevice device f).accelerators.get? device).bind field = (c.accelerators.get? device).bind field := by
    intro field hdefault hkeep
    rw [get?_withDevice, if_pos rfl, Option.bind_some, hkeep, entryOf]
    cases c.accelerators.get? device with
    | none => exact hdefault
    | some d => rfl
  cases g with
  | token other =>
    by_cases heq : device = other
    · subst heq
      exact hnew DeviceConfig.token rfl fun d => htoken d rfl
    · rw [value?, get?_withDevice, if_neg heq, value?]
  | endpoint other =>
    by_cases heq : device = other
    · subst heq
      exact hnew DeviceConfig.endpoint rfl fun d => hendpoint d rfl
    · rw [value?, get?_withDevice, if_neg heq, value?]
  | root | logLevel | logFormat | timeout | attempts | backoff | option => rfl

theorem value?_put_of_ne (c : Configuration) {f g : Field} (v : f.Value) (hne : g ≠ f) :
    (c.put f v).value? g = c.value? g := by
  cases f with
  | option key =>
    cases g with
    | option other => exact (Dictionary.get?_insert ..).trans (if_neg fun heq => hne (by rw [heq]))
    | _ => rfl
  | token device => exact value?_withDevice_of_ne (fun _ heq => absurd heq hne) fun _ _ => rfl
  | endpoint device => exact value?_withDevice_of_ne (fun _ _ => rfl) fun _ heq => absurd heq hne
  | root | logLevel | logFormat | timeout | attempts | backoff => cases g <;> first | rfl | contradiction

/-- What stands in the entry of a device besides the fields that variables set. -/
def frame? (c : Configuration) (device : String) : Option (String × Dictionary Json) :=
  (c.accelerators.get? device).map fun d => (d.name, d.extra)

theorem frame?_withDevice (c : Configuration) {f : DeviceConfig → DeviceConfig}
    (hframe : ∀ d, (f d).name = d.name ∧ (f d).extra = d.extra) (device other : String) :
    (c.withDevice device f).frame? other =
      if device = other then some ((c.frame? other).getD (other, ∅)) else c.frame? other := by
  rw [frame?, get?_withDevice]
  split_ifs with heq
  · subst heq
    rw [Option.map_some, (hframe _).1, (hframe _).2, entryOf, frame?]
    cases c.accelerators.get? device <;> rfl
  · rfl

theorem frame?_put (c : Configuration) (f : Field) (v : f.Value) (device : String) :
    (c.put f v).frame? device =
      if f.device? = some device then some ((c.frame? device).getD (device, ∅)) else c.frame? device := by
  cases f with
  | token other =>
    simp only [Field.device?, Option.some.injEq]
    exact frame?_withDevice c (f := fun d => { d with token := some v }) (fun _ => ⟨rfl, rfl⟩) other device
  | endpoint other =>
    simp only [Field.device?, Option.some.injEq]
    exact frame?_withDevice c (f := fun d => { d with endpoint := some v }) (fun _ => ⟨rfl, rfl⟩) other device
  | root | logLevel | logFormat | timeout | attempts | backoff | option => rfl

/-- An entry is made up of its fields and of what no variable sets. -/
theorem get?_accelerators_congr {c c' : Configuration} {device : String} (hframe : c'.frame? device = c.frame? device)
    (htoken : c'.value? (.token device) = c.value? (.token device))
    (hendpoint : c'.value? (.endpoint device) = c.value? (.endpoint device)) :
    c'.accelerators.get? device = c.accelerators.get? device := by
  simp only [frame?, value?] at hframe htoken hendpoint
  generalize c'.accelerators.get? device = entry' at *
  generalize c.accelerators.get? device = entry at *
  cases entry' with
  | none =>
    cases entry with
    | none => rfl
    | some d => cases hframe
  | some d' =>
    cases entry with
    | none => cases hframe
    | some d =>
      obtain ⟨name, endpoint, token, extra⟩ := d
      obtain ⟨name', endpoint', token', extra'⟩ := d'
      simp_all

/-- Configurations that hold the same, field by field and device by device, are equal. -/
theorem ext_value? {c c' : Configuration} (hvalue : ∀ f, c'.value? f = c.value? f)
    (hframe : ∀ device, c'.frame? device = c.frame? device) : c' = c := by
  have haccelerators : c'.accelerators = c.accelerators := Dictionary.ext_get? fun device =>
    get?_accelerators_congr (hframe device) (hvalue _) (hvalue _)
  have hoptions : c'.options = c.options := Dictionary.ext_get? fun key => hvalue (.option key)
  have hroot : c'.root = c.root := hvalue .root
  have hlevel : c'.logLevel = c.logLevel := Option.some.inj (hvalue .logLevel)
  have hformat : c'.logFormat = c.logFormat := Option.some.inj (hvalue .logFormat)
  have htimeout : c'.remote.timeoutSeconds = c.remote.timeoutSeconds := Option.some.inj (hvalue .timeout)
  have hattempts : c'.remote.maxAttempts = c.remote.maxAttempts := Option.some.inj (hvalue .attempts)
  have hbackoff : c'.remote.backoffMillis = c.remote.backoffMillis := Option.some.inj (hvalue .backoff)
  obtain ⟨root, level, format, ⟨timeout, attempts, backoff⟩, options, accelerators⟩ := c
  obtain ⟨root', level', format', ⟨timeout', attempts', backoff'⟩, options', accelerators'⟩ := c'
  dsimp only at *
  subst hroot hlevel hformat htimeout hattempts hbackoff hoptions haccelerators
  rfl

/-- A variable is read first and then put into the field that it addresses. -/
theorem set_eq (c : Configuration) (name value : String) :
    c.set name value =
      match Field.ofName? name with
      | some f => c.put f <$> f.read value
      | none => .ok c := by
  unfold set
  split
  case h_7 hroot hlevel hformat htimeout hattempts hbackoff =>
    have hlookup : Field.fixed.lookup name = none := by
      simp only [List.lookup_eq_none_iff, Field.fixed, List.forall_mem_cons, bne_iff_ne]
      exact ⟨hroot, hlevel, hformat, htimeout, hattempts, hbackoff, nofun⟩
    rw [Field.ofName?, hlookup, Option.none_or]
    simp only [Field.families, List.findSome?_cons, List.findSome?_nil]
    cases Text.afterOpening "OPTION_" name with
    | some key => rfl
    | none =>
      cases Text.afterOpening "TOKEN_" name with
      | some device => rfl
      | none => cases Text.afterOpening "ENDPOINT_" name <;> rfl
  all_goals rfl

/-- What becomes of a configuration when a variable is taken in. -/
def takeIn (c : Configuration) (s : String × String) : Except ConfigurationFault Configuration :=
  match Field.ofVariable? s.1 with
  | some f => c.put f <$> f.read s.2
  | none => .ok c

theorem applyEnvironment_eq (c : Configuration) (settings : List (String × String)) :
    c.applyEnvironment settings = settings.foldlM takeIn c := by
  refine congrArg (fun step => settings.foldlM step c) ?_
  funext c s
  obtain ⟨key, value⟩ := s
  rw [takeIn, Field.ofVariable?]
  dsimp only
  cases Text.afterOpening opening key with
  | some name => exact c.set_eq name value
  | none => rfl

/-- If the variable addresses a field, its value can be read for that field. -/
def Readable (s : String × String) : Prop := ∀ f, Field.ofVariable? s.1 = some f → ∃ v, f.read s.2 = .ok v

theorem takeIn_eq_ok_iff {c c' : Configuration} {s : String × String} :
    c.takeIn s = .ok c' ↔ (Field.ofVariable? s.1 = none ∧ c = c') ∨
      ∃ f v, Field.ofVariable? s.1 = some f ∧ f.read s.2 = .ok v ∧ c.put f v = c' := by
  rw [takeIn]
  cases Field.ofVariable? s.1 with
  | none => simp
  | some f => simp [map_eq_ok_iff]

theorem exists_takeIn_iff {c : Configuration} {s : String × String} : (∃ c', c.takeIn s = .ok c') ↔ Readable s := by
  rw [takeIn, Readable]
  cases Field.ofVariable? s.1 with
  | none => simp
  | some f => simp [map_eq_ok_iff]

section

variable {c c' : Configuration} {settings : List (String × String)}

theorem exists_applyEnvironment_iff :
    (∃ c', c.applyEnvironment settings = .ok c') ↔ ∀ s ∈ settings, Readable s := by
  simp only [applyEnvironment_eq]
  induction settings generalizing c with
  | nil => exact iff_of_true ⟨c, rfl⟩ nofun
  | cons s rest ih =>
    rw [List.forall_mem_cons, ← exists_takeIn_iff (c := c)]
    constructor
    · rintro ⟨c', h⟩
      obtain ⟨c₁, hs, hrest⟩ := foldlM_cons_eq_ok_iff.mp h
      exact ⟨⟨c₁, hs⟩, ih.mp ⟨c', hrest⟩⟩
    · rintro ⟨⟨c₁, hs⟩, hrest⟩
      obtain ⟨c', h⟩ := ih.mpr hrest
      exact ⟨c', foldlM_cons_eq_ok_iff.mpr ⟨c₁, hs, h⟩⟩

/-- No variable of the list addresses the field. -/
def Unaddressed (settings : List (String × String)) (f : Field) : Prop :=
  ∀ s ∈ settings, Field.ofVariable? s.1 ≠ some f

/-- No two variables of the list address one field. -/
def Apart (settings : List (String × String)) : Prop :=
  (settings.filterMap fun s => Field.ofVariable? s.1).Nodup

theorem Apart.unaddressed {before after : List (String × String)} {s : String × String}
    (h : Apart (before ++ s :: after)) {f : Field} (hf : Field.ofVariable? s.1 = some f) : Unaddressed after f := by
  rw [Apart, List.filterMap_append, List.filterMap_cons, hf] at h
  have hnew := (List.nodup_cons.mp (List.nodup_append.mp h).2.1).1
  exact fun other hmem hother => hnew (List.mem_filterMap.mpr ⟨other, hmem, hother⟩)

/-- What holds on whenever a field that is addressed gets a value holds on when variables are taken in. -/
theorem applyEnvironment_keeps {P : Configuration → Prop}
    (hput : ∀ c, P c → ∀ s ∈ settings, ∀ f, Field.ofVariable? s.1 = some f → ∀ v, P (c.put f v))
    (h : c.applyEnvironment settings = .ok c') (hc : P c) : P c' := by
  rw [applyEnvironment_eq] at h
  induction settings generalizing c with
  | nil =>
    cases h
    exact hc
  | cons s rest ih =>
    obtain ⟨c₁, hs, hrest⟩ := foldlM_cons_eq_ok_iff.mp h
    refine ih (fun c hc s hs => hput c hc s (.tail _ hs)) hrest ?_
    obtain ⟨-, rfl⟩ | ⟨f, v, hf, -, rfl⟩ := takeIn_eq_ok_iff.mp hs
    · exact hc
    · exact hput c hc s (.head _) f hf v

/-- Before a variable that addresses a field come others, and others come after it. -/
theorem exists_put_of_addressed (h : c.applyEnvironment settings = .ok c') {s : String × String} (hs : s ∈ settings)
    {f : Field} (hf : Field.ofVariable? s.1 = some f) : ∃ before after c₁ v, settings = before ++ s :: after ∧
      c.applyEnvironment before = .ok c₁ ∧ f.read s.2 = .ok v ∧ (c₁.put f v).applyEnvironment after = .ok c' := by
  obtain ⟨before, after, rfl⟩ := List.append_of_mem hs
  rw [applyEnvironment_eq, List.foldlM_append] at h
  obtain ⟨c₁, hbefore, h⟩ := bind_eq_ok_iff.mp h
  obtain ⟨c₂, hstep, hafter⟩ := foldlM_cons_eq_ok_iff.mp h
  obtain ⟨hnone, -⟩ | ⟨g, v, hg, hv, rfl⟩ := takeIn_eq_ok_iff.mp hstep
  · rw [hf] at hnone
    cases hnone
  · obtain rfl : f = g := Option.some.inj (hf.symm.trans hg)
    exact ⟨before, after, c₁, v, rfl, (applyEnvironment_eq ..).trans hbefore, hv,
      (applyEnvironment_eq ..).trans hafter⟩

theorem value?_of_unaddressed (h : c.applyEnvironment settings = .ok c') {f : Field} (hf : Unaddressed settings f) :
    c'.value? f = c.value? f := by
  refine applyEnvironment_keeps (P := fun d => d.value? f = c.value? f) (fun d hd s hs g hg v => ?_) h rfl
  have hne : f ≠ g := by
    rintro rfl
    exact hf s hs hg
  exact (d.value?_put_of_ne v hne).trans hd

/-- The variable that addresses a field decides what stands there in the end. -/
theorem value?_of_addressed (hapart : Apart settings) (h : c.applyEnvironment settings = .ok c')
    {s : String × String} (hs : s ∈ settings) {f : Field} (hf : Field.ofVariable? s.1 = some f) :
    ∃ v, f.read s.2 = .ok v ∧ c'.value? f = some v := by
  obtain ⟨before, after, c₁, v, rfl, -, hv, hafter⟩ := exists_put_of_addressed h hs hf
  exact ⟨v, hv, (value?_of_unaddressed hafter (hapart.unaddressed hf)).trans (c₁.value?_put_self f v)⟩

theorem frame?_of_unaddressed (h : c.applyEnvironment settings = .ok c') {device : String}
    (hdevice : ∀ f : Field, f.device? = some device → Unaddressed settings f) :
    c'.frame? device = c.frame? device := by
  refine applyEnvironment_keeps (P := fun d => d.frame? device = c.frame? device) (fun d hd s hs f hf v => ?_) h rfl
  rw [frame?_put, if_neg fun hself => hdevice f hself s hs hf, hd]

/-- The entry of a device that is addressed keeps what no variable sets; a new one has the device's name. -/
theorem frame?_of_addressed (h : c.applyEnvironment settings = .ok c') {s : String × String} (hs : s ∈ settings)
    {f : Field} (hf : Field.ofVariable? s.1 = some f) {device : String} (hdevice : f.device? = some device) :
    c'.frame? device = some ((c.frame? device).getD (device, ∅)) := by
  obtain ⟨before, after, c₁, v, rfl, hbefore, -, hafter⟩ := exists_put_of_addressed h hs hf
  have hfirst : (c₁.frame? device).getD (device, ∅) = (c.frame? device).getD (device, ∅) := by
    refine applyEnvironment_keeps (P := fun d => (d.frame? device).getD (device, ∅) =
      (c.frame? device).getD (device, ∅)) (fun d hd _ _ g _ w => ?_) hbefore rfl
    rw [frame?_put]
    split_ifs
    · exact hd
    · exact hd
  have hput : (c₁.put f v).frame? device = some ((c.frame? device).getD (device, ∅)) := by
    rw [frame?_put, if_pos hdevice, hfirst]
  refine applyEnvironment_keeps (P := fun d => d.frame? device = _) (fun d hd _ _ g _ w => ?_) hafter hput
  rw [frame?_put, hd, Option.getD_some, ite_self]

end

theorem Unaddressed.perm {settings other : List (String × String)} {f : Field} (h : Unaddressed settings f)
    (hperm : other.Perm settings) : Unaddressed other f :=
  fun s hs => h s (hperm.mem_iff.mp hs)

theorem Apart.perm {settings other : List (String × String)} (h : Apart settings) (hperm : settings.Perm other) :
    Apart other :=
  (hperm.filterMap _).nodup_iff.mp h

theorem exists_applyEnvironment_perm (c : Configuration) {settings other : List (String × String)}
    (hperm : other.Perm settings) :
    (∃ c', c.applyEnvironment other = .ok c') ↔ ∃ c', c.applyEnvironment settings = .ok c' := by
  rw [exists_applyEnvironment_iff, exists_applyEnvironment_iff]
  exact forall_congr' fun s => imp_congr_left hperm.mem_iff

/-- What two orders make of a configuration holds the same in every field. -/
theorem applyEnvironment_perm {c c' : Configuration} {settings other : List (String × String)}
    (hapart : Apart settings) (hperm : other.Perm settings) (h : c.applyEnvironment settings = .ok c') :
    c.applyEnvironment other = .ok c' := by
  obtain ⟨d, hd⟩ := (c.exists_applyEnvironment_perm hperm).mpr ⟨c', h⟩
  have hvalue : ∀ f, d.value? f = c'.value? f := by
    intro f
    by_cases hf : Unaddressed settings f
    · rw [value?_of_unaddressed h hf, value?_of_unaddressed hd (hf.perm hperm)]
    · simp only [Unaddressed, not_forall, not_not] at hf
      obtain ⟨s, hs, hf⟩ := hf
      obtain ⟨v, hv, hvalue⟩ := value?_of_addressed hapart h hs hf
      obtain ⟨w, hw, hvalue'⟩ := value?_of_addressed (hapart.perm hperm.symm) hd (hperm.mem_iff.mpr hs) hf
      rw [hvalue, hvalue', Except.ok.inj (hv.symm.trans hw)]
  have hframe : ∀ device, d.frame? device = c'.frame? device := by
    intro device
    by_cases hdevice : ∀ f : Field, f.device? = some device → Unaddressed settings f
    · rw [frame?_of_unaddressed h hdevice, frame?_of_unaddressed hd fun f hf => (hdevice f hf).perm hperm]
    · simp only [Unaddressed, not_forall, not_not] at hdevice
      obtain ⟨f, hdevice, s, hs, hf⟩ := hdevice
      rw [frame?_of_addressed h hs hf hdevice, frame?_of_addressed hd (hperm.mem_iff.mpr hs) hf hdevice]
  rw [hd, ext_value? hvalue hframe]

/-- Variables that address different fields may come in any order: whether all of them can be taken in depends
on their values alone, and what comes of them is the same. Then each field that is addressed has the value
of its variable and all others are as they were. A device without an entry gets one, of its name, exactly if
a variable addresses a field of it, and no other entry is touched. -/
theorem environment_order_is_free (c : Configuration) (settings : List (String × String)) (hapart : Apart settings) :
    ((∃ c', c.applyEnvironment settings = .ok c') ↔ ∀ s ∈ settings, Readable s) ∧
    (∀ other : List (String × String), other.Perm settings →
      ((∃ c', c.applyEnvironment other = .ok c') ↔ ∃ c', c.applyEnvironment settings = .ok c')) ∧
    ∀ c', c.applyEnvironment settings = .ok c' →
      (∀ other : List (String × String), other.Perm settings → c.applyEnvironment other = .ok c') ∧
      (∀ s ∈ settings, ∀ f, Field.ofVariable? s.1 = some f → ∃ v, f.read s.2 = .ok v ∧ c'.value? f = some v) ∧
      (∀ f, Unaddressed settings f → c'.value? f = c.value? f) ∧
      (∀ device, (∀ f : Field, f.device? = some device → Unaddressed settings f) →
        c'.accelerators.get? device = c.accelerators.get? device) ∧
      ∀ s ∈ settings, ∀ f device, Field.ofVariable? s.1 = some f → f.device? = some device →
        ∃ d, c'.accelerators.entries.filter (·.1 == device) = [(device, d)] ∧
          d.name = (c.entryOf device).name ∧ d.extra = (c.entryOf device).extra ∧
          (c.accelerators.get? device = none → d.name = device ∧ d.extra = ∅) := by
  refine ⟨exists_applyEnvironment_iff, fun other => c.exists_applyEnvironment_perm, fun c' h =>
    ⟨fun other hperm => applyEnvironment_perm hapart hperm h, fun s hs f hf => value?_of_addressed hapart h hs hf,
      fun f hf => value?_of_unaddressed h hf, fun device hdevice => ?_, fun s hs f device hf hdevice => ?_⟩⟩
  · exact get?_accelerators_congr (frame?_of_unaddressed h hdevice)
      (value?_of_unaddressed h (hdevice (.token device) rfl))
      (value?_of_unaddressed h (hdevice (.endpoint device) rfl))
  · obtain ⟨d, hd, hframe⟩ := Option.map_eq_some_iff.mp (frame?_of_addressed h hs hf hdevice)
    refine ⟨d, Dictionary.filter_entries_of_get? hd, ?_⟩
    rw [frame?] at hframe
    rw [entryOf]
    cases hget : c.accelerators.get? device with
    | none =>
      rw [hget] at hframe
      obtain ⟨hname, hextra⟩ := Prod.mk.inj hframe
      exact ⟨hname, hextra, fun _ => ⟨hname, hextra⟩⟩
    | some old =>
      rw [hget] at hframe
      obtain ⟨hname, hextra⟩ := Prod.mk.inj hframe
      exact ⟨hname, hextra, nofun⟩

/-- Two variables of a device that has no entry yet, two of other fields and one of none. -/
def farDevice : List (String × String) := [
  ("QPIPE_TOKEN_FAR_LAB", "secret"),
  ("HOME", "/root"),
  ("QPIPE_REMOTE_MAX_ATTEMPTS", " 4"),
  ("QPIPE_ENDPOINT_Far_Lab", "http://far"),
  ("QPIPE_OPTION_RO_ERROR", "0.1")]

theorem environment_order_is_free_farDevice :
    Apart farDevice ∧ ∃ c', ({} : Configuration).applyEnvironment farDevice = .ok c' ∧
      ({} : Configuration).applyEnvironment farDevice.reverse = .ok c' ∧
      c'.value? .attempts = some 4 ∧ c'.value? .timeout = some 60 ∧
      c'.accelerators.entries.filter (·.1 == "far-lab") =
        [("far-lab", { name := "far-lab", token := some "secret", endpoint := some "http://far" })] := by
  have hplain : plainName "FAR_LAB" = "far-lab" ∧ plainName "Far_Lab" = "far-lab" ∧
      plainName "RO_ERROR" = "ro-error" := by
    simp only [plainName, Text.lowerAscii, String.map_eq_internal]
    decide +kernel
  have hfields : farDevice.map (fun s => Field.ofVariable? s.1) = [some (.token (plainName "FAR_LAB")), none,
      some .attempts, some (.endpoint (plainName "Far_Lab")), some (.option (plainName "RO_ERROR"))] := rfl
  rw [hplain.1, hplain.2.1, hplain.2.2] at hfields
  have hapart : Apart farDevice := by
    have hlist : farDevice.filterMap (fun s => Field.ofVariable? s.1) =
        [.token "far-lab", .attempts, .endpoint "far-lab", .option "ro-error"] :=
      List.filterMap_map.symm.trans (congrArg (List.filterMap id) hfields)
    rw [Apart, hlist]
    decide
  simp only [farDevice, List.map_cons, List.map_nil, List.cons.injEq, and_true] at hfields
  obtain ⟨htoken, hhome, hattempts, hendpoint, hoption⟩ := hfields
  have hfour : Field.read .attempts " 4" = .ok 4 := rfl
  have hreadable : ∀ s ∈ farDevice, Readable s := by
    simp only [farDevice, List.forall_mem_cons, Readable, htoken, hhome, hattempts, hendpoint, hoption,
      Option.some.injEq, forall_eq']
    exact ⟨⟨_, rfl⟩, nofun, ⟨4, hfour⟩, ⟨_, rfl⟩, ⟨_, rfl⟩, nofun⟩
  obtain ⟨hok, -, hresult⟩ := environment_order_is_free {} farDevice hapart
  obtain ⟨c', h⟩ := hok.mpr hreadable
  obtain ⟨horder, hvalue, hother, -, hdevice⟩ := hresult c' h
  have hread : ∀ {s f v}, s ∈ farDevice → Field.ofVariable? s.1 = some f → f.read s.2 = .ok v →
      c'.value? f = some v := by
    intro s f v hs hf hv
    obtain ⟨w, hw, hvalue⟩ := hvalue s hs f hf
    rw [hvalue, Except.ok.inj (hw.symm.trans hv)]
  have hsecret : c'.value? (.token "far-lab") = some "secret" := hread (.head _) htoken rfl
  have haddress : c'.value? (.endpoint "far-lab") = some "http://far" :=
    hread (.tail _ (.tail _ (.tail _ (.head _)))) hendpoint rfl
  have huntouched : Unaddressed farDevice .timeout := by
    simp [Unaddressed, farDevice, htoken, hhome, hattempts, hendpoint, hoption]
  obtain ⟨d, hentry, hname, hextra, -⟩ := hdevice _ (.head _) _ "far-lab" htoken rfl
  have hmem : ("far-lab", d) ∈ c'.accelerators.entries.filter (·.1 == "far-lab") := by simp [hentry]
  have hget := c'.accelerators.get?_eq_some_iff.mpr (List.mem_filter.mp hmem).1
  simp only [value?, hget, Option.bind_some] at hsecret haddress
  refine ⟨hapart, c', h, horder _ (List.reverse_perm _), hread (.tail _ (.tail _ (.head _))) hattempts hfour,
    hother .timeout huntouched, ?_⟩
  obtain ⟨name, endpoint, token, extra⟩ := d
  obtain rfl : name = "far-lab" := hname
  obtain rfl : extra = ∅ := hextra
  obtain rfl : token = some "secret" := hsecret
  obtain rfl : endpoint = some "http://far" := haddress
  exact hentry

end Configuration

end QuantumKernels
