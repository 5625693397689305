import ClientBindings.Unicode.Printable

/-! Texts in quotes. One form is JSON's; the other chooses its quote and escapes whatever is not
printable. -/

namespace ClientBindings.Quoted

def hexDigit (n : Nat) : Char := if n < 10 then Char.ofNat (48 + n) else Char.ofNat (87 + n)

/-- The given number of lower case hexadecimal digits. -/
def hex : Nat → Nat → List Char
  | 0, _ => []
  | width + 1, n => hex width (n / 16) ++ [hexDigit (n % 16)]

/-- What stands between JSON quotes for one character: only quotes, backslashes and control characters
are escaped. -/
def jsonChar (c : Char) : List Char :=
  if c = '"' then ['\\', '"']
  else if c = '\\' then ['\\', '\\']
  else if c = '\n' then ['\\', 'n']
  else if c = '\r' then ['\\', 'r']
  else if c = '\t' then ['\\', 't']
  else if c = '\x08' then ['\\', 'b']
  else if c = '\x0c' then ['\\', 'f']
  else if c.toNat < 32 then '\\' :: 'u' :: hex 4 c.toNat
  else [c]

def json (cs : List Char) : List Char := '"' :: (cs.flatMap jsonChar ++ ['"'])

/-- The single quote, unless only it occurs inside. -/
def quoteFor (hasSingle hasDouble : Bool) : Char := if hasSingle && !hasDouble then '"' else '\''

def escaped (quote : Char) (printable : Bool) (c : Char) : List Char :=
  if c = quote ∨ c = '\\' then ['\\', c]
  else if c = '\n' then ['\\', 'n']
  else if c = '\r' then ['\\', 'r']
  else if c = '\t' then ['\\', 't']
  else if printable then [c]
  else if c.toNat < 0x100 then '\\' :: 'x' :: hex 2 c.toNat
  else if c.toNat < 0x10000 then '\\' :: 'u' :: hex 4 c.toNat
  else '\\' :: 'U' :: hex 8 c.toNat

def shown (cs : List Char) : List Char :=
  let quote := quoteFor (cs.contains '\'') (cs.contains '"')
  quote :: (cs.flatMap (fun c => escaped quote (Unicode.isPrintable c) c) ++ [quote])

/-- Bytes are shown like text of their codes, only ASCII counting as printable. -/
def shownBytes (bs : List UInt8) : List Char :=
  let cs := bs.map fun b => Char.ofNat b.toNat
  let quote := quoteFor (cs.contains '\'') (cs.contains '"')
  'b' :: quote :: (cs.flatMap (fun c => escaped quote (32 ≤ c.toNat && c.toNat < 127) c) ++ [quote])

end ClientBindings.Quoted
