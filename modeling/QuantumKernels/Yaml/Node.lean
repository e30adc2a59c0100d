import QuantumKernels.Yaml.Token
/-!
Nodes of a YAML text: scalars, lists and records. Where a node is left out, the empty plain scalar
stands for it.
-/

namespace QuantumKernels.Yaml

inductive Node where
  | scalar (text : String) (plain : Bool)
  | list (items : List Node)
  | record (entries : List (Node × Node))
deriving Repr

namespace Node

def empty : Node := scalar "" true

/-- A node and the tokens after it. -/
abbrev Parse := List Token → Option (Node × List Token)

/-- The node that comes next, or the empty one before a token that ends it. -/
def orEmpty (ends : List Token) (node : Parse) : Parse
  | [] => some (empty, [])
  | t :: rest => if ends.contains t then some (empty, t :: rest) else node (t :: rest)

/-- The value that belongs to a key, if there is a colon. -/
def valueOf (ends : List Token) (node : Parse) : Parse
  | .value :: rest => orEmpty ends node rest
  | ts => some (empty, ts)

mutual

/-- A node; `block` says whether it may be a block, `indentless` whether its items may stand at the
column of the key it belongs to. Every step takes `fuel`. -/
def parse (block indentless : Bool) : (fuel : Nat) → Parse
  | _ + 1, .scalar s plain :: rest => some (scalar s plain, rest)
  | fuel + 1, .openList :: rest => flowItems [] fuel rest
  | fuel + 1, .openRecord :: rest => flowEntries [] fuel rest
  | fuel + 1, .blockList :: rest => if block then blockItems [] fuel rest else none
  | fuel + 1, .blockRecord :: rest => if block then blockEntries [] fuel rest else none
  | fuel + 1, .entry :: rest => if indentless then indentlessItems [] fuel (.entry :: rest) else none
  | _, _ => none

def blockItems (items : List Node) : (fuel : Nat) → Parse
  | _, .blockEnd :: rest => some (list items, rest)
  | fuel + 1, .entry :: rest => do
    let (item, rest) ← orEmpty [.entry, .blockEnd] (parse true false fuel) rest
    blockItems (items ++ [item]) fuel rest
  | _, _ => none

/-- Items without an end of their own. -/
def indentlessItems (items : List Node) : (fuel : Nat) → Parse
  | 0, .entry :: _ => none
  | fuel + 1, .entry :: rest => do
    let (item, rest) ← orEmpty [.entry, .key, .value, .blockEnd] (parse true false fuel) rest
    indentlessItems (items ++ [item]) fuel rest
  | _, ts => some (list items, ts)

def blockEntries (entries : List (Node × Node)) : (fuel : Nat) → Parse
  | _, .blockEnd :: rest => some (record entries, rest)
  | fuel + 1, .key :: rest => do
    let ends := [.key, .value, .blockEnd]
    let (k, rest) ← orEmpty ends (parse true true fuel) rest
    let (v, rest) ← valueOf ends (parse true true fuel) rest
    blockEntries (entries ++ [(k, v)]) fuel rest
  | _, _ => none

/-- The items up to the closing bracket; a key among them makes a record of one entry. -/
def flowItems (items : List Node) : (fuel : Nat) → Parse
  | _, .closeList :: rest => some (list items, rest)
  | fuel + 1, ts => do
    let (item, rest) ← match ts with
      | .key :: rest => flowPair [.comma, .closeList] fuel rest
      | ts => parse false false fuel ts
    let items := items ++ [item]
    match rest with
    | .comma :: rest => flowItems items fuel rest
    | .closeList :: rest => some (list items, rest)
    | _ => none
  | 0, _ => none

/-- A record of the entry whose key comes next. -/
def flowPair (ends : List Token) : (fuel : Nat) → Parse
  | fuel + 1, ts => do
    let (k, rest) ← orEmpty (.value :: ends) (parse false false fuel) ts
    let (v, rest) ← valueOf ends (parse false false fuel) rest
    return (record [(k, v)], rest)
  | 0, _ => none

def flowEntries (entries : List (Node × Node)) : (fuel : Nat) → Parse
  | _, .closeRecord :: rest => some (record entries, rest)
  | fuel + 1, ts => do
    let (entry, rest) ← match ts with
      | .key :: rest => flowPair [.comma, .closeRecord] fuel rest
      | ts => (parse false false fuel ts).map fun (k, rest) => (record [(k, empty)], rest)
    let entries := entries ++ (match entry with
      | .record added => added
      | _ => [])
    match rest with
    | .comma :: rest => flowEntries entries fuel rest
    | .closeRecord :: rest => some (record entries, rest)
    | _ => none
  | 0, _ => none

end

/-- The root of a text that is one document. -/
def ofTokens (ts : List Token) : Option Node := do
  let node := parse true false (4 * ts.length + 4)
  let (root, rest) ← match ts with
    | [] => some (empty, [])
    | .documentStart :: rest => orEmpty [.documentStart, .documentEnd] node rest
    | ts => node ts
  if rest.all (· == .documentEnd) then some root else none

def read (text : String) : Option Node := (tokens text).bind ofTokens

end Node

end QuantumKernels.Yaml
