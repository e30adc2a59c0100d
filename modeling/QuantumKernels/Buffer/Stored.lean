import QuantumKernels.Buffer.Basic
import QuantumKernels.Json.Reading
/-!
The stored form of buffers. Reals that are no finite numbers are written as texts, so every entry
keeps its kind.
-/

namespace QuantumKernels

open Json

/-- The texts of the reals that have no numeral. -/
def realNames : List (String × Float) := [("NaN", 0 / 0), ("inf", 1 / 0), ("-inf", -1 / 0)]

def realToJson (x : Float) : Json :=
  if x.isNaN then .text "NaN"
  else if x.isInf then .text (if 0 < x then "inf" else "-inf")
  else .real x

def realReading : Reading Float
  | _, .text name => realNames.lookup name
  | nesting, v => asReal nesting v

namespace Info

/-- The kind an entry is stored under, and its value. -/
def stored : Info → String × Json
  | int n => ("int", .int n.toInt)
  | real x => ("double", realToJson x)
  | text s => ("string", .text s)
  | ints l => ("int-list", listOf (fun n => .int n.toInt) l)
  | reals l => ("double-list", listOf realToJson l)
  | texts l => ("string-list", Json.texts l)

def toJson (i : Info) : Json := .record [("type", .text i.stored.1), ("value", i.stored.2)]

def reading : Reading Info :=
  asTagged [
    ("int", fun d v => (asInt64 d v).map int),
    ("double", fun d v => (realReading d v).map real),
    ("string", fun d v => (asText d v).map text),
    ("int-list", fun d v => (asList asInt64 d v).map ints),
    ("double-list", fun d v => (asList realReading d v).map reals),
    ("string-list", fun d v => (asList asText d v).map texts)]

end Info

namespace Buffer

def toJson : Buffer → Json
  | ⟨name, size, measurements, counts, info, children⟩ =>
    .record [
      ("name", .text name),
      ("size", ofNat size),
      ("measurements", Json.texts measurements),
      ("counts", .record ((words counts).map ofNat).entries),
      ("extra_info", .record (info.map Info.toJson).entries),
      ("children", .list (toJsonOf children))]
where
  toJsonOf : List Buffer → List Json
    | [] => []
    | b :: rest => b.toJson :: toJsonOf rest

/-- Buffers with children nested at most `depth` deep. -/
def readingTo : (depth : Nat) → Reading Buffer
  | 0 => fun _ _ => none
  | depth + 1 =>
    asRecord ["name", "size", "measurements", "counts", "extra_info", "children"] fun f => do
      return {
        name := ← f.required "name" asText
        size := ← f.required "size" asWord
        measurements := ← f.orElse "measurements" (asList asText) []
        counts := ← f.orElse "counts" (asDictionary asWord) ∅
        info := ← f.orElse "extra_info" (asDictionary Info.reading) ∅
        children := ← f.orElse "children" (asList (readingTo depth)) [] }

/-- Every child takes up some of the nesting that documents may have, so the bound never decides. -/
def reading : Reading Buffer := readingTo nestingLimit

/-- The text a buffer is stored as. -/
def persist (b : Buffer) : String := b.toJson.pretty

def load? (s : String) : Option Buffer := readAs reading s

end Buffer

end QuantumKernels
