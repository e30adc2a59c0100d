import QuantumKernels.Configuration.Reading
import QuantumKernels.Proofs.Outcome
import Mathlib.Data.List.Perm.Basic

/-!
# Configurations from texts

A node is read field by field, each looked up by its name. So it makes no difference in which order the fields
stand, nor what stands under names that are not known. What has been read can be worked with: its numbers are
within their bounds, its accelerators have names, and none of their further settings goes under the name of a
field.
-/
namespace QuantumKernels

namespace Yaml.Node

variable {names : List String} {l m n : Node}

/-- Both nodes say the same to whoever looks for fields of these names. -/
def AgreeOn (names : List String) (m n : Node) : Prop :=
  Option.Rel (fun f g => ∀ name ∈ names, f name = g name) (m.fields? names) (n.fields? names)

theorem AgreeOn.trans (hlm : AgreeOn names l m) (hmn : AgreeOn names m n) : AgreeOn names l n := by
  unfold AgreeOn at *
  generalize l.fields? names = x at *
  generalize m.fields? names = y at *
  generalize n.fields? names = z at *
  cases hlm with
  | none => exact hmn
  | some hfg =>
    cases hmn with
    | some hgh => exact .some fun name hname => (hfg name hname).trans (hgh name hname)

theorem lookup_eq_head?_filter {α : Type} (name : String) (entries : List (String × α)) :
    entries.lookup name = ((entries.filter (·.1 == name)).head?).map (·.2) := by
  induction entries with
  | nil => rfl
  | cons e rest ih =>
    by_cases hkey : e.1 = name
    · have hname : (name == e.1) = true := beq_iff_eq.mpr hkey.symm
      rw [List.lookup_cons, hname, List.filter_cons_of_pos (by simpa using hkey)]
      rfl
    · have hname : (name == e.1) = false := beq_false_of_ne (Ne.symm hkey)
      rw [List.lookup_cons, hname, List.filter_cons_of_neg (by simpa using hkey)]
      exact ih

theorem eq_of_perm_of_length_le_one {α : Type} {as bs : List α} (h : as.Perm bs) (hshort : as.length ≤ 1) :
    as = bs := by
  match as, hshort with
  | [], _ => exact h.nil_eq
  | [a], _ => exact List.singleton_perm.mp h

/-- Only the entries under those names count. -/
theorem agreeOn_of_filter {entries entries' : List (String × Node)} (hm : m.entries? = some entries)
    (hn : n.entries? = some entries')
    (h : ∀ name ∈ names, (entries.filter (·.1 == name)).Perm (entries'.filter (·.1 == name))) :
    AgreeOn names m n := by
  have hcount : (names.all fun name => entries.countP (·.1 == name) ≤ 1) ↔
      names.all fun name => entries'.countP (·.1 == name) ≤ 1 := by
    simp only [List.all_eq_true, decide_eq_true_eq]
    refine forall₂_congr fun name hname => ?_
    rw [List.countP_eq_length_filter, List.countP_eq_length_filter, (h name hname).length_eq]
  simp only [AgreeOn, fields?, hm, hn, Option.bind_eq_bind, Option.bind_some, ← hcount]
  split_ifs with hunique
  · refine .some fun name hname => ?_
    have hshort : (entries.filter (·.1 == name)).length ≤ 1 := by
      simpa [List.countP_eq_length_filter] using List.all_eq_true.mp hunique name hname
    rw [lookup_eq_head?_filter, lookup_eq_head?_filter, eq_of_perm_of_length_le_one (h name hname) hshort]
  · exact .none

theorem entries?_perm {fields fields' : List (Node × Node)} (h : fields.Perm fields') {entries : List (String × Node)}
    (hread : (record fields).entries? = some entries) :
    ∃ entries', (record fields').entries? = some entries' ∧ entries.Perm entries' := by
  obtain ⟨entries', hentries', hperm⟩ := List.perm_comp_forall₂ h.symm (mapM_eq_some_iff.mp hread)
  exact ⟨entries', mapM_eq_some_iff.mpr hentries', hperm.symm⟩

/-- The fields may stand in any order. -/
theorem agreeOn_perm (names : List String) {fields fields' : List (Node × Node)} (h : fields.Perm fields') :
    AgreeOn names (record fields) (record fields') := by
  cases hread : (record fields).entries? with
  | none =>
    have hread' : (record fields').entries? = none := by
      refine Option.eq_none_iff_forall_ne_some.mpr fun entries' hentries' => ?_
      obtain ⟨entries, hentries, -⟩ := entries?_perm h.symm hentries'
      rw [hread] at hentries
      cases hentries
    rw [AgreeOn, fields?, fields?, hread, hread']
    exact .none
  | some entries =>
    obtain ⟨entries', hread', hperm⟩ := entries?_perm h hread
    exact agreeOn_of_filter hread hread' fun name _ => hperm.filter _

/-- A field under another name is passed over. -/
theorem agreeOn_insert {k v : Node} {name : String} (hk : k.text? = some name) (hname : name ∉ names)
    (before after : List (Node × Node)) :
    AgreeOn names (record (before ++ (k, v) :: after)) (record (before ++ after)) := by
  refine (agreeOn_perm names List.perm_middle).trans ?_
  have hcons : (record ((k, v) :: (before ++ after))).entries? =
      ((record (before ++ after)).entries?).map ((name, v) :: ·) := by
    simp only [entries?, List.mapM_cons, hk, Option.map_some, Option.bind_eq_bind, Option.bind_some]
    cases (before ++ after).mapM fun e => e.1.text?.map fun k => (k, e.2) with
    | none => rfl
    | some entries => rfl
  cases hread : (record (before ++ after)).entries? with
  | none =>
    rw [AgreeOn, fields?, fields?, hcons, hread]
    exact .none
  | some entries =>
    rw [hread, Option.map_some] at hcons
    refine agreeOn_of_filter hcons hread fun other hother => ?_
    have hne : name ≠ other := fun h => hname (h ▸ hother)
    rw [List.filter_cons_of_neg (by simpa using hne)]

theorem natural?_le {limit k : ℕ} (h : n.natural? limit = some k) : k ≤ limit := by
  unfold natural? at h
  split at h
  · dsimp only at h
    split at h
    · split_ifs at h with hk
      rwa [← Option.some.inj h]
    · cases h
  · cases h

/-- Whatever stands in a map has been read. -/
theorem exists_of_dictionary? {α : Type} {item : Node → Option α} {d : Dictionary α} (h : n.dictionary? item = some d)
    {e : String × α} (he : e ∈ d.entries) : ∃ v, item v = some e.2 := by
  simp only [dictionary?, Option.bind_eq_bind, Option.bind_eq_some_iff, Option.pure_def, Option.some.injEq] at h
  obtain ⟨fields, -, entries, hentries, rfl⟩ := h
  have hmem : e ∈ entries := (Dictionary.mem_of_mem_insertMany he).resolve_left (List.not_mem_nil)
  obtain ⟨⟨k, v⟩, -, hv⟩ := exists_mem_of_forall₂ (mapM_eq_some_iff.mp hentries) hmem
  obtain ⟨a, ha, rfl⟩ := Option.map_eq_some_iff.mp hv
  exact ⟨v, ha⟩

end Yaml.Node

open Yaml

/-! ## Fields -/

section

variable {α : Type} {f g : String → Option Node} {name : String} {item : Node → Option α} {default a : α}

theorem fieldOr_congr (h : f name = g name) : fieldOr f name item default = fieldOr g name item default := by
  rw [fieldOr, fieldOr, h]

/-- A field has been read, or it is left out. -/
theorem eq_default_or_exists_of_fieldOr (h : fieldOr f name item default = some a) :
    a = default ∨ ∃ n, item n = some a := by
  rw [fieldOr] at h
  split at h
  · exact .inr ⟨_, h⟩
  · exact .inl (Option.some.inj h).symm

end

namespace Configuration

/-- The names of the parts. -/
def parts : List String := ["plugins", "logging", "remote", "options", "accelerators"]

theorem ofNode?_congr {m n : Node} (h : m.AgreeOn parts n) : ofNode? m = ofNode? n := by
  unfold Node.AgreeOn parts at h
  unfold ofNode?
  generalize m.fields? ["plugins", "logging", "remote", "options", "accelerators"] = x at h
  generalize n.fields? ["plugins", "logging", "remote", "options", "accelerators"] = y at h
  cases h with
  | none => rfl
  | some hfg =>
    simp only [Option.bind_eq_bind, Option.bind_some, fieldOr_congr (hfg "plugins" (by simp)),
      fieldOr_congr (hfg "logging" (by simp)), fieldOr_congr (hfg "remote" (by simp)),
      fieldOr_congr (hfg "options" (by simp)), fieldOr_congr (hfg "accelerators" (by simp))]

/-- The parts may come in any order. -/
theorem ofNode?_perm {fields fields' : List (Node × Node)} (h : fields.Perm fields') :
    ofNode? (.record fields) = ofNode? (.record fields') :=
  ofNode?_congr (Node.agreeOn_perm parts h)

/-- Parts that are not known are passed over. -/
theorem ofNode?_insert {k v : Node} {name : String} (hk : k.text? = some name) (hname : name ∉ parts)
    (before after : List (Node × Node)) :
    ofNode? (.record (before ++ (k, v) :: after)) = ofNode? (.record (before ++ after)) :=
  ofNode?_congr (Node.agreeOn_insert hk hname before after)

end Configuration

/-! ## What has been read -/

/-- The settings fit the words they are kept in. -/
structure RemoteDefaults.Fits (r : RemoteDefaults) : Prop where
  timeout : r.timeoutSeconds < 2 ^ 64
  attempts : r.maxAttempts < 2 ^ 32
  backoff : r.backoffMillis < 2 ^ 64

theorem RemoteDefaults.fits_default : ({} : RemoteDefaults).Fits := ⟨by decide, by decide, by decide⟩

theorem RemoteDefaults.fits_of_ofNode? {n : Node} {r : RemoteDefaults} (h : RemoteDefaults.ofNode? n = some r) :
    r.Fits := by
  simp only [RemoteDefaults.ofNode?, Option.bind_eq_bind, Option.bind_eq_some_iff, Option.pure_def,
    Option.some.injEq] at h
  obtain ⟨f, -, timeout, htimeout, attempts, hattempts, backoff, hbackoff, rfl⟩ := h
  have hbound {limit k default : ℕ} {name : String} (h : fieldOr f name (Node.natural? limit) default = some k)
      (hdefault : default ≤ limit) : k ≤ limit := by
    rcases eq_default_or_exists_of_fieldOr h with rfl | ⟨n, hn⟩
    · exact hdefault
    · exact Node.natural?_le hn
  have htimeout := hbound htimeout (by decide)
  have hattempts := hbound hattempts (by decide)
  have hbackoff := hbound hbackoff (by decide)
  exact ⟨by dsimp only; omega, by dsimp only; omega, by dsimp only; omega⟩

/-- No further setting goes under the name of a field. -/
def DeviceConfig.KeepsApart (d : DeviceConfig) : Prop := ∀ e ∈ d.extra.entries, e.1 ∉ knownFields

theorem DeviceConfig.keepsApart_of_ofNode? {n : Node} {d : DeviceConfig} (h : DeviceConfig.ofNode? n = some d) :
    d.KeepsApart := by
  simp only [DeviceConfig.ofNode?, Option.bind_eq_bind, Option.bind_eq_some_iff, Option.pure_def,
    Option.some.injEq] at h
  obtain ⟨f, -, fields, -, extra, hextra, name, -, endpoint, -, token, -, rfl⟩ := h
  intro e he
  have hmem : e ∈ extra := (Dictionary.mem_of_mem_insertMany he).resolve_left List.not_mem_nil
  obtain ⟨⟨k, v⟩, hfield, hv⟩ := exists_mem_of_forall₂ (mapM_eq_some_iff.mp hextra) hmem
  obtain ⟨a, -, rfl⟩ := Option.map_eq_some_iff.mp hv
  simpa using (List.mem_filter.mp hfield).2

namespace Configuration

/-- What can be relied on when a configuration has been read. -/
structure Usable (c : Configuration) : Prop where
  fits : c.remote.Fits
  timeout : 0 < c.remote.timeoutSeconds
  attempts : 0 < c.remote.maxAttempts
  named : ∀ e ∈ c.accelerators.entries, e.2.name = "" → e.1 = ""
  apart : ∀ e ∈ c.accelerators.entries, e.2.KeepsApart

theorem validate_eq_ok_iff {c : Configuration} {u : Unit} :
    c.validate = .ok u ↔ 0 < c.remote.timeoutSeconds ∧ 0 < c.remote.maxAttempts := by
  unfold validate
  split_ifs with htimeout hattempts <;> simp <;> omega

theorem mem_nameDevices {c : Configuration} {e : String × DeviceConfig} (h : e ∈ c.nameDevices.accelerators.entries) :
    ∃ d, (e.1, d) ∈ c.accelerators.entries ∧ e.2 = if d.name.isEmpty then { d with name := e.1 } else d := by
  have hmem := (Dictionary.mem_of_mem_insertMany h).resolve_left List.not_mem_nil
  obtain ⟨⟨key, d⟩, hd, rfl⟩ := List.mem_map.mp hmem
  exact ⟨d, hd, rfl⟩

theorem ofNode?_parts {n : Node} {c : Configuration} (h : ofNode? n = some c) :
    c.remote.Fits ∧ ∀ e ∈ c.accelerators.entries, e.2.KeepsApart := by
  simp only [ofNode?, Option.bind_eq_bind, Option.bind_eq_some_iff, Option.pure_def, Option.some.injEq] at h
  obtain ⟨f, -, ⟨logLevel, logFormat⟩, -, root, -, remote, hremote, options, -, accelerators, haccelerators, rfl⟩ := h
  constructor
  · rcases eq_default_or_exists_of_fieldOr hremote with rfl | ⟨node, hnode⟩
    · exact RemoteDefaults.fits_default
    · exact RemoteDefaults.fits_of_ofNode? hnode
  · intro e he
    rcases eq_default_or_exists_of_fieldOr haccelerators with rfl | ⟨node, hnode⟩
    · cases he
    · obtain ⟨v, hv⟩ := Node.exists_of_dictionary? hnode he
      exact DeviceConfig.keepsApart_of_ofNode? hv

/-- A text gives a configuration exactly if its root is one whose numbers are positive. -/
theorem ofYaml_eq_ok_iff {text : String} {c : Configuration} : ofYaml text = .ok c ↔
    ∃ n read, Node.read text = some n ∧ ofNode? n = some read ∧
      0 < read.remote.timeoutSeconds ∧ 0 < read.remote.maxAttempts ∧ read.nameDevices = c := by
  unfold ofYaml
  cases hread : (Node.read text).bind ofNode? with
  | none =>
    refine ⟨nofun, ?_⟩
    rintro ⟨n, read, hn, hc, -⟩
    rw [hn, Option.bind_some, hc] at hread
    cases hread
  | some read =>
    obtain ⟨n, hn, hc⟩ := Option.bind_eq_some_iff.mp hread
    have hsame : read.nameDevices.validate = read.validate := rfl
    simp only [bind_eq_ok_iff, hsame, validate_eq_ok_iff]
    constructor
    · rintro ⟨-, ⟨htimeout, hattempts⟩, hok⟩
      exact ⟨n, read, hn, hc, htimeout, hattempts, Except.ok.inj hok⟩
    · rintro ⟨n', read', hn', hc', htimeout, hattempts, rfl⟩
      obtain rfl : n = n' := Option.some.inj (hn.symm.trans hn')
      obtain rfl : read = read' := Option.some.inj (hc.symm.trans hc')
      exact ⟨(), ⟨htimeout, hattempts⟩, rfl⟩

theorem ofYaml_usable {text : String} {c : Configuration} (h : ofYaml text = .ok c) : c.Usable := by
  obtain ⟨n, read, -, hread, htimeout, hattempts, rfl⟩ := ofYaml_eq_ok_iff.mp h
  obtain ⟨hfits, hapart⟩ := ofNode?_parts hread
  refine ⟨hfits, htimeout, hattempts, ?_, ?_⟩
  · intro e he hname
    obtain ⟨d, -, heq⟩ := mem_nameDevices he
    rw [heq] at hname
    split_ifs at hname with hempty
    · exact hname
    · exact absurd (String.isEmpty_iff.mpr hname) hempty
  · intro e he
    obtain ⟨d, hd, heq⟩ := mem_nameDevices he
    have hkept := hapart _ hd
    rw [heq]
    split_ifs
    · exact hkept
    · exact hkept

/-- What a text can be refused for: that it is no configuration, or that a number in it is zero. -/
theorem ofYaml_eq_error {text : String} {fault : ConfigurationFault} (h : ofYaml text = .error fault) :
    fault = .unreadable ∧ (Node.read text).bind ofNode? = none ∨
      ∃ c, (Node.read text).bind ofNode? = some c ∧
        (fault = .noTimeout ∧ c.remote.timeoutSeconds = 0 ∨
          fault = .noAttempts ∧ 0 < c.remote.timeoutSeconds ∧ c.remote.maxAttempts = 0) := by
  unfold ofYaml at h
  cases hread : (Node.read text).bind ofNode? with
  | none =>
    rw [hread] at h
    exact .inl ⟨(Except.error.inj h).symm, rfl⟩
  | some c =>
    refine .inr ⟨c, rfl, ?_⟩
    simp only [hread, validate] at h
    split_ifs at h with htimeout hattempts
    · exact .inl ⟨(Except.error.inj h).symm, htimeout⟩
    · exact .inr ⟨(Except.error.inj h).symm, Nat.pos_of_ne_zero htimeout, hattempts⟩
    · cases h

end Configuration

end QuantumKernels
