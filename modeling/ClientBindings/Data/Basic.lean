import ClientBindings.Numeric.Double
import ClientBindings.Data.Entries
import ClientBindings.Data.Moment

/-! Document values: what a JSON or YAML text denotes. Integers are exact and differ from floats as
values, though `1`, `1.0` and `true` are one and the same key and compare equal. -/

namespace ClientBindings

inductive Scalar where
  | null
  | bool (b : Bool)
  | int (n : Int)
  | float (x : Double)
  | str (s : String)
  | bytes (bs : List UInt8)
  | moment (m : Moment)
deriving DecidableEq, Repr, Inhabited

namespace Scalar

/-- The integer that a number or truth value equals. -/
def whole? : Scalar → Option Int
  | .bool b => some (if b then 1 else 0)
  | .int n => some n
  | .float x => x.toInt?
  | _ => none

/-- Equality across number kinds. -/
def same (a b : Scalar) : Bool :=
  a == b || match a.whole?, b.whole? with
    | some m, some n => m == n
    | _, _ => false

def truthy : Scalar → Bool
  | .null => false
  | .bool b => b
  | .int n => n != 0
  | .float x => !x.isZero
  | .str s => !s.isEmpty
  | .bytes bs => !bs.isEmpty
  | .moment _ => true

/-- Whether JSON has such values. -/
def isPlain : Scalar → Bool
  | .bytes _ | .moment _ => false
  | _ => true

def isNumber : Scalar → Bool
  | .int _ | .float _ => true
  | _ => false

def isStr : Scalar → Bool
  | .str _ => true
  | _ => false

@[simp] theorem same_refl (a : Scalar) : same a a = true := by simp [same]

end Scalar

inductive Data where
  | scalar (s : Scalar)
  | list (items : List Data)
  /-- A sequence of fixed length, such as the pairs of an ordered mapping. -/
  | tuple (items : List Data)
  | map (entries : List (Scalar × Data))
deriving Repr, Inhabited

namespace Data

@[match_pattern] abbrev null : Data := .scalar .null
@[match_pattern] abbrev bool (b : Bool) : Data := .scalar (.bool b)
@[match_pattern] abbrev int (n : Int) : Data := .scalar (.int n)
@[match_pattern] abbrev float (x : Double) : Data := .scalar (.float x)
@[match_pattern] abbrev str (s : String) : Data := .scalar (.str s)

abbrev Fields := List (Scalar × Data)

/-- A mapping with text keys. -/
def object (fields : List (String × Data)) : Data := .map (fields.map fun (k, v) => (.str k, v))

def truthy : Data → Bool
  | .scalar s => s.truthy
  | .list items | .tuple items => !items.isEmpty
  | .map entries => !entries.isEmpty

/-- `d` itself if it counts as true, else the other value. -/
def orElse (d other : Data) : Data := if d.truthy then d else other

def isMap : Data → Bool
  | .map _ => true
  | _ => false

def isStr : Data → Bool
  | .str _ => true
  | _ => false

def isNull : Data → Bool
  | .null => true
  | _ => false

mutual
/-- Equality of values: lists element by element, mappings without regard to order. -/
def same : Data → Data → Bool
  | .scalar a, .scalar b => a.same b
  | .list xs, .list ys | .tuple xs, .tuple ys => sameItems xs ys
  | .map es, .map fs => es.length == fs.length && sameEntries es fs
  | _, _ => false
def sameItems : List Data → List Data → Bool
  | [], [] => true
  | x :: xs, y :: ys => same x y && sameItems xs ys
  | _, _ => false
def sameEntries : List (Scalar × Data) → List (Scalar × Data) → Bool
  | [], _ => true
  | (k, v) :: es, fs =>
    (match Entries.find? Scalar.same fs k with
      | some w => same v w
      | none => false) && sameEntries es fs
end

mutual
/-- Number of nodes. -/
def size : Data → Nat
  | .scalar _ => 1
  | .list items | .tuple items => 1 + sizeItems items
  | .map entries => 1 + sizeEntries entries
def sizeItems : List Data → Nat
  | [] => 0
  | x :: xs => size x + sizeItems xs
def sizeEntries : List (Scalar × Data) → Nat
  | [] => 0
  | (_, v) :: es => size v + sizeEntries es
end

/-- The entry under a text key. -/
def find? (d : Data) (key : String) : Option Data :=
  match d with
  | .map entries => Entries.find? Scalar.same entries (.str key)
  | _ => none

end Data

instance : Coe String Data := ⟨Data.str⟩

end ClientBindings
