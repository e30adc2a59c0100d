import QuantumKernels.Kernel.Basic
import QuantumKernels.Json.Reading
/-!
The stored form of kernels: a record of the fields of each part, with a few left out when they are
empty, and readings that fill in what may be left out.
-/

namespace QuantumKernels

open Json

def Parameter.toJson : Parameter → Json
  | int n => .record [("type", .text "int"), ("value", .int n.toInt)]
  | real x => .record [("type", .text "double"), ("value", .real x)]
  | text s => .record [("type", .text "str"), ("value", .text s)]
  | complex re im => .record [("type", .text "complex"), ("value", .list [.real re, .real im])]

def Parameter.reading : Reading Parameter :=
  asTagged [
    ("int", fun d v => (asInt64 d v).map Parameter.int),
    ("double", fun d v => (asReal d v).map Parameter.real),
    ("str", fun d v => (asText d v).map Parameter.text),
    ("complex", fun d v => (asPair asReal asReal d v).map fun (re, im) => Parameter.complex re im)]

def Operation.toJson (op : Operation) : Json :=
  .record [
    ("name", .text op.name),
    ("bits", naturals op.bits),
    ("parameters", listOf Parameter.toJson op.parameters),
    ("enabled", .bool op.enabled),
    ("analog", .bool op.analog)]

def Operation.reading : Reading Operation :=
  asRecord ["name", "bits", "parameters", "enabled", "analog"] fun f => do
    return {
      name := ← f.required "name" asText
      bits := ← f.required "bits" (asList asWord)
      parameters := ← f.required "parameters" (asList Parameter.reading)
      enabled := ← f.required "enabled" asBool
      analog := ← f.orElse "analog" asBool false }

def Kind.keyword : Kind → String
  | gate => "gate"
  | anneal => "anneal"

def Kind.reading : Reading Kind := asNameOf [("gate", .gate), ("anneal", .anneal)]

/-- The fields of a kernel, with the stored form of its body in their midst. -/
def Header.toJson (h : Header) (body : Json) : Json :=
  .record (
    [("name", .text h.name)]
    ++ (h.tag.map fun t => ("tag", Json.text t)).toList
    ++ [("kind", .text h.kind.keyword), ("instructions", body), ("parameters", texts h.vars)]
    ++ (if h.bitMap.isEmpty then [] else [("bit_map", naturals h.bitMap)])
    ++ (if h.options.isEmpty then []
      else [("options", .record (h.options.map Parameter.toJson).entries)])
    ++ [("enabled", .bool h.enabled)])

def Instruction.toJson : Instruction → Json
  | leaf op => .record [("Leaf", op.toJson)]
  | block h body => .record [("Composite", h.toJson (.list (toJsonOf body)))]
where
  toJsonOf : List Instruction → List Json
    | [] => []
    | i :: rest => i.toJson :: toJsonOf rest

def Kernel.toJson (k : Kernel) : Json := k.header.toJson (.list (Instruction.toJson.toJsonOf k.body))

/-- The fields of a kernel whose instructions are read by `item`. -/
def Kernel.readingWith (item : Reading Instruction) : Reading Kernel :=
  asRecord ["name", "tag", "kind", "instructions", "parameters", "bit_map", "options", "enabled"]
    fun f => do
      let header : Header := {
        name := ← f.required "name" asText
        tag := ← f.orElse "tag" (asOption asText) none
        kind := ← f.orElse "kind" Kind.reading .gate
        vars := ← f.orElse "parameters" (asList asText) []
        bitMap := ← f.orElse "bit_map" (asList asWord) []
        options := ← f.orElse "options" (asDictionary Parameter.reading) ∅
        enabled := ← f.orElse "enabled" asBool true }
      return ⟨header, ← f.required "instructions" (asList item)⟩

/-- Instructions nested at most `depth` deep. -/
def Instruction.readingTo : (depth : Nat) → Reading Instruction
  | 0 => fun _ _ => none
  | depth + 1 =>
    asVariant [
      ("Leaf", fun d v => (Operation.reading d v).map leaf),
      ("Composite", fun d v => (Kernel.readingWith (readingTo depth) d v).map ofKernel)]

/-- Every block takes up some of the nesting that documents may have, so the bound never decides. -/
def Instruction.reading : Reading Instruction := Instruction.readingTo nestingLimit

def Kernel.reading : Reading Kernel := Kernel.readingWith Instruction.reading

/-- The text a kernel is stored as. -/
def Kernel.persist (k : Kernel) : String := k.toJson.pretty

def Kernel.load (s : String) : Except KernelError Kernel :=
  match readAs Kernel.reading s with
  | some k => .ok k
  | none => .error .malformed

end QuantumKernels
