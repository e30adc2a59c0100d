import QuantumKernels.Proofs.ConfigurationReading
import QuantumKernels.Proofs.Yaml.Values
import QuantumKernels.Proofs.Environment
import QuantumKernels.Proofs.Histogram

/-!
# Configurations as texts

What is written for a configuration is read as that configuration. Only the tokens are missing, which are never
written.
-/
namespace QuantumKernels

open Yaml Json

namespace Dictionary

variable {α : Type}

theorem lookup_entries (m : Dictionary α) (k : String) : m.entries.lookup k = m.get? k := by
  rw [Node.lookup_eq_head?_filter, List.head?_filter, get?]

theorem map_id (m : Dictionary α) : m.map id = m := by
  obtain ⟨l, ascending⟩ := m
  simp [map]

end Dictionary

/-! ## Records -/

namespace Json

variable {fields : List (String × Json)}

theorem fieldNodes_eq (fields : List (String × Json)) :
    toNode.fieldNodes fields = fields.map fun e => (Node.scalar e.1 false, e.2.toNode) := by
  induction fields with
  | nil => rfl
  | cons e fields ih => rw [toNode.fieldNodes, ih, List.map_cons]

theorem entries?_toNode : (record fields).toNode.entries? = some (fields.map fun e => (e.1, e.2.toNode)) := by
  rw [toNode, fieldNodes_eq, Node.entries?]
  refine mapM_eq_some_iff.mpr (List.forall₂_map_left_iff.mpr (List.forall₂_map_right_iff.mpr ?_))
  exact List.forall₂_same.mpr fun e _ => rfl

theorem lookup_map {α β : Type} (f : α → β) (l : List (String × α)) (k : String) :
    (l.map fun e => (e.1, f e.2)).lookup k = (l.lookup k).map f := by
  induction l with
  | nil => rfl
  | cons e l ih =>
    rw [List.map_cons, List.lookup_cons, List.lookup_cons, ih]
    cases k == e.1 <;> rfl

/-- The fields of a record in which no name stands twice. -/
theorem fields?_toNode (hnames : (fields.map (·.1)).Nodup) (names : List String) :
    (record fields).toNode.fields? names = some fun name => (fields.lookup name).map toNode := by
  have hunique : (names.all fun name => (fields.map fun e => (e.1, e.2.toNode)).countP (·.1 == name) ≤ 1) = true := by
    refine List.all_eq_true.mpr fun name _ => decide_eq_true ?_
    have hcount := List.nodup_iff_count_le_one.mp hnames name
    rw [List.count, List.countP_map] at hcount
    rwa [List.countP_map]
  rw [Node.fields?, entries?_toNode]
  simp only [Option.bind_eq_bind, Option.bind_some, if_pos hunique, Option.pure_def, lookup_map]

/-- A map is read entry by entry. -/
theorem dictionary?_toNode {α β : Type} {item : Node → Option β} {write : α → Json} {f : α → β} {m : Dictionary α}
    (h : ∀ e ∈ m.entries, item (write e.2).toNode = some (f e.2)) :
    (record (m.map write).entries).toNode.dictionary? item = some (m.map f) := by
  rw [Node.dictionary?, entries?_toNode]
  simp only [Option.bind_eq_bind, Option.bind_some, Option.bind_eq_some_iff, Option.pure_def, Option.some.injEq]
  refine ⟨(m.map f).entries, mapM_eq_some_iff.mpr ?_, Dictionary.ofList_entries _⟩
  refine List.forall₂_map_left_iff.mpr (List.forall₂_map_left_iff.mpr (List.forall₂_map_right_iff.mpr ?_))
  refine List.forall₂_same.mpr fun e he => ?_
  rw [h e he]
  rfl

theorem optionalText?_toNode (s : Option String) :
    Node.optionalText? (s.elim null text).toNode = some s := by
  cases s with
  | none => rfl
  | some s => rfl

end Json

/-! ## Devices -/

namespace DeviceConfig

/-- What is left of the configuration of a device once it has been written. -/
def withoutToken (d : DeviceConfig) : DeviceConfig := { d with token := none }

/-- The fields that are written, by their names. -/
def written (d : DeviceConfig) : Dictionary Json :=
  (Dictionary.ofList ([("name", .text d.name)] ++ (d.endpoint.map fun e => ("endpoint", Json.text e)).toList)).insertMany
    d.extra.entries

theorem toJson_eq (d : DeviceConfig) : d.toJson = .record d.written.entries := rfl

variable {d : DeviceConfig}

theorem KeepsApart.get?_extra (h : d.KeepsApart) {k : String} (hk : k ∈ knownFields) : d.extra.get? k = none := by
  refine Option.eq_none_iff_forall_ne_some.mpr fun v hv => ?_
  exact h (k, v) (d.extra.get?_eq_some_iff.mp hv) hk

theorem get?_written (h : d.KeepsApart) (k : String) : d.written.get? k =
    if k = "name" then some (.text d.name)
    else if k = "endpoint" then d.endpoint.map .text
    else if k = "token" then none
    else d.extra.get? k := by
  have hknown : (Dictionary.ofList
      ([("name", .text d.name)] ++ (d.endpoint.map fun e => ("endpoint", Json.text e)).toList)).get? k =
        if k = "name" then some (.text d.name) else if k = "endpoint" then d.endpoint.map .text else none := by
    cases d.endpoint with
    | none => simp [Dictionary.ofList, Dictionary.insertMany, Dictionary.get?_insert, Dictionary.get?_empty, eq_comm]
    | some e =>
      by_cases hname : k = "name"
      · subst hname
        simp [Dictionary.ofList, Dictionary.insertMany, Dictionary.get?_insert]
      · simp [Dictionary.ofList, Dictionary.insertMany, Dictionary.get?_insert, Dictionary.get?_empty, hname,
          Ne.symm hname, eq_comm]
  rw [written, Dictionary.get?_insertMany_entries, hknown]
  split_ifs with hname hendpoint htoken
  · rw [h.get?_extra (by simp [hname, knownFields]), Option.none_or]
  · rw [h.get?_extra (by simp [hendpoint, knownFields]), Option.none_or]
  · rw [h.get?_extra (by simp [htoken, knownFields]), Option.none_or]
  · rw [Option.or_none]

/-- The fields under other names are the further settings. -/
theorem filter_written (h : d.KeepsApart) :
    (d.written.entries.filter fun e => !knownFields.contains e.1) = d.extra.entries := by
  have hascending : (d.written.entries.filter fun e => !knownFields.contains e.1).Pairwise fun a b => a.1 < b.1 :=
    d.written.ascending.filter _
  rw [← Dictionary.entries_ofList hascending]
  refine congrArg _ (Dictionary.ext_get? fun k => Option.ext fun v => ?_)
  rw [Dictionary.get?_eq_some_iff, Dictionary.entries_ofList hascending, List.mem_filter, ← Dictionary.get?_eq_some_iff,
    get?_written h]
  by_cases hk : k ∈ knownFields
  · have hnone := h.get?_extra hk
    simp [hnone, hk]
  · have hne : k ≠ "name" ∧ k ≠ "endpoint" ∧ k ≠ "token" := by simpa [knownFields] using hk
    simp [hk, hne]

/-- A device is read as it was written. -/
theorem ofNode?_toNode (h : d.KeepsApart) (hextra : ∀ e ∈ d.extra.entries, e.2.Settled) :
    ofNode? d.toJson.toNode = some d.withoutToken := by
  have hfields := Json.fields?_toNode d.written.nodup_keys knownFields
  have hothers : ((d.written.entries.map fun e => (e.1, e.2.toNode)).filter fun e => !knownFields.contains e.1) =
      d.extra.entries.map fun e => (e.1, e.2.toNode) := by
    rw [List.filter_map, ← filter_written h]
    rfl
  rw [toJson_eq, ofNode?, hfields, Json.entries?_toNode]
  simp only [Option.bind_eq_bind, Option.bind_some, hothers, Option.bind_eq_some_iff, Option.pure_def]
  refine ⟨d.extra.entries, mapM_eq_some_iff.mpr ?_, ?_⟩
  · refine List.forall₂_map_left_iff.mpr (List.forall₂_same.mpr fun e he => ?_)
    rw [(hextra e he).toJson?_toNode]
    rfl
  · refine ⟨d.name, ?_, d.endpoint, ?_, none, ?_, ?_⟩
    · rw [fieldOr, Dictionary.lookup_entries, get?_written h]
      rfl
    · rw [fieldOr, Dictionary.lookup_entries, get?_written h]
      cases d.endpoint <;> rfl
    · rw [fieldOr, Dictionary.lookup_entries, get?_written h]
      rfl
    · rw [Dictionary.ofList_entries]
      rfl

end DeviceConfig

/-! ## Configurations -/

theorem LogFormat.ofNode?_toNode (f : LogFormat) : LogFormat.ofNode? (Json.text f.keyword).toNode = some f := by
  cases f <;> rfl

theorem RemoteDefaults.ofNode?_toNode {r : RemoteDefaults} (h : r.Fits) : RemoteDefaults.ofNode? (Json.record [
    ("timeout_seconds", .ofNat r.timeoutSeconds), ("max_attempts", .ofNat r.maxAttempts),
    ("backoff_millis", .ofNat r.backoffMillis)]).toNode = some r := by
  obtain ⟨htimeout, hattempts, hbackoff⟩ := h
  rw [RemoteDefaults.ofNode?, Json.fields?_toNode (by simp)]
  simp only [Option.bind_eq_bind, Option.bind_some, Option.bind_eq_some_iff, Option.pure_def]
  exact ⟨r.timeoutSeconds, natural?_toNode (by omega), r.maxAttempts, natural?_toNode (by omega),
    r.backoffMillis, natural?_toNode (by omega), rfl⟩

namespace Configuration

/-- What is left of a configuration once it has been written. -/
def withoutTokens (c : Configuration) : Configuration :=
  { c with accelerators := c.accelerators.map DeviceConfig.withoutToken }

theorem rootOf?_toNode (root : Option String) :
    rootOf? (Json.record [("root_path", root.elim .null .text)]).toNode = some root := by
  rw [rootOf?, Json.fields?_toNode (by simp)]
  exact Json.optionalText?_toNode root

theorem loggingOf?_toNode (level : String) (format : LogFormat) :
    loggingOf? (Json.record [("level", .text level), ("format", .text format.keyword)]).toNode = some (level, format) := by
  rw [loggingOf?, Json.fields?_toNode (by simp)]
  simp only [Option.bind_eq_bind, Option.bind_some, Option.bind_eq_some_iff, Option.pure_def]
  exact ⟨level, rfl, format, format.ofNode?_toNode, rfl⟩

variable {c : Configuration}

/-- Every part is read as it was written. -/
theorem ofNode?_toNode (h : c.Usable) (hextra : ∀ e ∈ c.accelerators.entries, ∀ x ∈ e.2.extra.entries, x.2.Settled) :
    ofNode? c.toJson.toNode = some c.withoutTokens := by
  have hoptions : Node.dictionary? Node.text? (Json.record (c.options.map Json.text).entries).toNode = some c.options := by
    rw [Json.dictionary?_toNode (f := id) fun e _ => rfl, Dictionary.map_id]
  have haccelerators : Node.dictionary? DeviceConfig.ofNode? (Json.record (c.accelerators.map DeviceConfig.toJson).entries).toNode =
      some (c.accelerators.map DeviceConfig.withoutToken) :=
    Json.dictionary?_toNode fun e he => DeviceConfig.ofNode?_toNode (h.apart e he) (hextra e he)
  rw [toJson, ofNode?, Json.fields?_toNode (by simp)]
  simp only [Option.bind_eq_bind, Option.bind_some, Option.bind_eq_some_iff, Option.pure_def]
  exact ⟨(c.logLevel, c.logFormat), loggingOf?_toNode _ _, c.root, rootOf?_toNode _, c.remote,
    RemoteDefaults.ofNode?_toNode h.fits, c.options, hoptions, _, haccelerators, rfl⟩

theorem nameDevices_withoutTokens (h : c.Usable) : c.withoutTokens.nameDevices = c.withoutTokens := by
  have hnamed : ∀ e ∈ c.withoutTokens.accelerators.entries,
      (e.1, if e.2.name.isEmpty then { e.2 with name := e.1 } else e.2) = e := by
    intro e he
    obtain ⟨d, hd, rfl⟩ := List.mem_map.mp he
    have hempty : d.2.name = "" → d.1 = "" := h.named d hd
    dsimp only
    split_ifs with hname
    · have hname : d.2.name = "" := String.isEmpty_iff.mp hname
      rw [hempty hname, ← hname]
      rfl
    · rfl
  have hentries : (c.withoutTokens.accelerators.entries.map fun e =>
      (e.1, if e.2.name.isEmpty then { e.2 with name := e.1 } else e.2)) = c.withoutTokens.accelerators.entries :=
    (List.map_congr_left hnamed).trans (List.map_id' _)
  have hsame : Dictionary.ofList (c.withoutTokens.accelerators.entries.map fun e =>
      (e.1, if e.2.name.isEmpty then { e.2 with name := e.1 } else e.2)) = c.withoutTokens.accelerators := by
    rw [hentries, Dictionary.ofList_entries]
  exact congrArg (fun accelerators => { c.withoutTokens with accelerators }) hsame

/-- The text of a configuration is read as the configuration, without the tokens. -/
theorem ofYaml_toJson (h : c.Usable) (hportable : c.toJson.Portable)
    (hextra : ∀ e ∈ c.accelerators.entries, ∀ x ∈ e.2.extra.entries, x.2.Settled) :
    ofYaml c.toJson.compact = .ok c.withoutTokens :=
  ofYaml_eq_ok_iff.mpr ⟨c.toJson.toNode, c.withoutTokens, read_record hportable, ofNode?_toNode h hextra, h.timeout,
    h.attempts, nameDevices_withoutTokens h⟩

end Configuration

end QuantumKernels
