import QuantumKernels.Json.Token
/-!
Documents from their tokens. The lists and records that are open are kept on a stack, innermost
first, and each token either opens, extends or closes one of them.
-/

namespace QuantumKernels.Json

/-- A list or record that is open, latest part first; `field` has a name and awaits its value. A record with
a name that no text has is `broken`: it has to be well formed, and no value comes of it. -/
inductive Frame where
  | list (items : List Json)
  | record (fields : List (String × Json))
  | field (fields : List (String × Json)) (name : String)
  | broken
deriving Repr

/-- What may come next. -/
inductive Await where
  | value
  | valueOrClose
  | nameOrClose
  | name
  | colon (name : String)
  | commaOrClose
  | nothing (document : Json)
deriving Repr

structure Assembly where
  frames : List Frame
  await : Await
deriving Repr

/-- Puts a complete value where it belongs. -/
def Assembly.settle (v : Json) : List Frame → Option Assembly
  | [] => some ⟨[], .nothing v⟩
  | .list items :: frames => some ⟨.list (v :: items) :: frames, .commaOrClose⟩
  | .field fields name :: frames => some ⟨.record ((name, v) :: fields) :: frames, .commaOrClose⟩
  | .broken :: frames => some ⟨.broken :: frames, .commaOrClose⟩
  | .record _ :: _ => none

def Assembly.beginValue (frames : List Frame) : Token → Option Assembly
  | .atom v => settle v frames
  | .brokenText => settle .unreadable frames
  | .openList => some ⟨.list [] :: frames, .valueOrClose⟩
  | .openRecord => some ⟨.record [] :: frames, .nameOrClose⟩
  | _ => none

def Assembly.beginField : List Frame → Token → Option Assembly
  | frames, .atom (.text name) => some ⟨frames, .colon name⟩
  | _ :: frames, .brokenText => some ⟨.broken :: frames, .colon ""⟩
  | _, _ => none

def Assembly.step (a : Assembly) (t : Token) : Option Assembly :=
  match a.await, t, a.frames with
  | .valueOrClose, .closeList, .list items :: frames => settle (.list items.reverse) frames
  | .nameOrClose, .closeRecord, .record fields :: frames => settle (.record fields.reverse) frames
  | .value, t, frames | .valueOrClose, t, frames => beginValue frames t
  | .name, t, frames | .nameOrClose, t, frames => beginField frames t
  | .colon name, .colon, .record fields :: frames => some ⟨.field fields name :: frames, .value⟩
  | .colon _, .colon, .broken :: frames => some ⟨.broken :: frames, .value⟩
  | .commaOrClose, .comma, .list items :: frames => some ⟨.list items :: frames, .value⟩
  | .commaOrClose, .comma, .record fields :: frames => some ⟨.record fields :: frames, .name⟩
  | .commaOrClose, .comma, .broken :: frames => some ⟨.broken :: frames, .name⟩
  | .commaOrClose, .closeList, .list items :: frames => settle (.list items.reverse) frames
  | .commaOrClose, .closeRecord, .record fields :: frames => settle (.record fields.reverse) frames
  | .commaOrClose, .closeRecord, .broken :: frames => settle .unreadable frames
  | _, _, _ => none

def Assembly.finish (a : Assembly) : Option Json :=
  match a.await with
  | .nothing v => some v
  | _ => none

def ofTokens (ts : List Token) : Option Json :=
  (ts.foldlM Assembly.step ⟨[], .value⟩).bind Assembly.finish

/-- Takes in tokens until the document is complete; what is left after that is not looked at. -/
def Assembly.take (a : Assembly) : List Token → Option Assembly
  | [] => some a
  | t :: rest =>
    match a.await with
    | .nothing _ => some a
    | _ => (a.step t).bind fun a => a.take rest

/-- The document that is complete first, with the part of a token and of a document read so far. -/
def frontFrom (part : Pending) (a : Assembly) : List Char → Option Json
  | [] => (Scan.finish ⟨[], part⟩).bind fun ts => (a.take ts).bind Assembly.finish
  | c :: rest => do
    let s ← Scan.step ⟨[], part⟩ c
    let a ← a.take s.done.reverse
    match a.await with
    | .nothing v => some v
    | _ => frontFrom s.part a rest

/-- The document that a text starts with. -/
def front? (s : String) : Option Json := frontFrom .nothing ⟨[], .value⟩ s.toList

/-- The document that a text is, if it is one. -/
def read (s : String) : Option Json := (tokens s.toList).bind ofTokens

end QuantumKernels.Json
