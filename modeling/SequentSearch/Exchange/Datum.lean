import SequentSearch.Rule.Accept

/-!
# Plain data

Programs that talk to each other exchange plain data: numbers, text, lists and records. The modules
beside this one read the values of this library from data. A list that stands for a compound value
starts with a word that tells its form, as in `["and", a, b]`. A field that a record does not have
is the same as `null`, and `null` stands for the empty list.

Parts are read from left to right, and the first one that cannot be read gives the error.
-/

namespace SequentSearch

/-- Plain data. -/
inductive Datum where
  | null
  | bool (b : Bool)
  /-- the decimal number `mantissa / 10 ^ exponent` -/
  | number (mantissa : Int) (exponent : Nat)
  | text (s : String)
  | list (items : List Datum)
  | record (fields : List (String × Datum))
deriving Inhabited

/-- Why data cannot be read. -/
inductive ReadError where
  /-- the data does not have the form of a value -/
  | malformed
  /-- a name is not known -/
  | unknown (message : String)
  /-- a sequent does not have the formula of an index -/
  | noSuchFormula (idx : Nat)
  /-- something gets two different values -/
  | rebound (name : String)
  /-- a rule is not accepted -/
  | rule (e : RuleError)
  /-- a promise was broken -/
  | fault (f : Fault)

namespace ReadError

/-- The text of an error. -/
def message : ReadError → Except Fault String
  | malformed => .ok "malformed data"
  | unknown text => .ok text
  | noSuchFormula idx => .ok (toString idx)
  | rebound name => .ok name
  | rule e => e.message
  | fault f => .error f

/-- Pass a fault on. -/
def ofFault {α : Type} : Except Fault α → Except ReadError α
  | .ok a => .ok a
  | .error f => .error (.fault f)

/-- Pass a message on. -/
def ofMessage {α : Type} : Except String α → Except ReadError α
  | .ok a => .ok a
  | .error text => .error (.unknown text)

end ReadError

/-- A way to read values of a type. -/
abbrev Reader (α : Type) := Datum → Except ReadError α

namespace Datum

/-- The items of a list. -/
def items : Datum → List Datum
  | list ds => ds
  | _ => []

/-- The field of a record. -/
def field (d : Datum) (name : String) : Datum :=
  match d with
  | record fields => (fields.lookup name).getD null
  | _ => null

/-- Read text. -/
def string : Reader String
  | text s => .ok s
  | _ => .error .malformed

/-- Read an integer. -/
def int : Reader Int
  | number n 0 => .ok n
  | _ => .error .malformed

/-- Read a natural number. -/
def nat : Reader Nat
  | number (.ofNat n) 0 => .ok n
  | _ => .error .malformed

/-- Read a flag. What is not there does not hold. -/
def flag : Datum → Bool
  | bool b => b
  | _ => false

/-- Read what may be missing. -/
def optional {α : Type} (read : Reader α) : Reader (Option α)
  | null => .ok none
  | d => do return some (← read d)

/-- Read the items of a list. -/
def each {α : Type} (read : Reader α) (d : Datum) : Except ReadError (List α) := d.items.mapM read

/-- Read a word of a table. -/
def word {α : Type} (table : List (String × α)) : Reader α
  | text s =>
    match table.lookup s with
    | some a => .ok a
    | none => .error .malformed
  | _ => .error .malformed

end Datum

end SequentSearch
