import ClientBindings.Proofs.Source.Escapes
import ClientBindings.Source.Literal
import ClientBindings.Wire.Json

/-! Texts as literals, read back. A literal is written by the rules of JSON and read by those of the generated
language, which has more escapes; the two agree on all that is written. -/

namespace ClientBindings

namespace Literal

/-! ## Literals in double quotes -/

/-- The character of a code. Codes of half pairs and those beyond the last character have none. -/
def ofCode? (code : Nat) : Option Char := if code.isValidChar then some (Char.ofNat code) else none

/-- The number that digits spell, given the value of each. -/
def number? (base : Nat) (value? : Char → Option Nat) (ds : List Char) : Option Nat :=
  ds.foldlM (fun n d => (value? d).map (base * n + ·)) 0

/-- A character by so many hexadecimal digits, with the length of the escape. -/
def coded? (width : Nat) (cs : List Char) : Option (List Char × Nat) :=
  if cs.length < width then none
  else ((number? 16 Percent.hexValue? (cs.take width)).bind ofCode?).map fun c => ([c], width + 1)

def octalValue? (c : Char) : Option Nat := if 48 ≤ c.toNat ∧ c.toNat < 56 then some (c.toNat - 48) else none

/-- What stands behind a backslash and the number of its characters: codes in up to three octal or in a fixed
number of hexadecimal digits, characters by their names, and what is escaped by one character. -/
def escape? (named? : List Char → Option Char) : List Char → Option (List Char × Nat)
  | 'x' :: cs => coded? 2 cs
  | 'u' :: cs => coded? 4 cs
  | 'U' :: cs => coded? 8 cs
  | 'N' :: '\x7b' :: cs =>
    let name := cs.takeWhile (· != '\x7d')
    if cs.contains '\x7d' then (named? name).map fun c => ([c], name.length + 3) else none
  | c :: cs =>
    let digits := (c :: cs.take 2).takeWhile fun d => (octalValue? d).isSome
    if digits.isEmpty then (Docstring.escaped? c).map fun new => (new, 1)
    else ((number? 8 octalValue? digits).bind ofCode?).map fun d => ([d], digits.length)
  | [] => none

/-- A text with its escapes read; the counter skips the rest of an escape. -/
def textFrom? (named? : List Char → Option Char) : Nat → List Char → Option (List Char)
  | _, [] => some []
  | skip + 1, _ :: cs => textFrom? named? skip cs
  | 0, '\\' :: cs => do
    let (new, length) ← escape? named? cs
    return new ++ (← textFrom? named? length cs)
  | 0, c :: cs => (textFrom? named? 0 cs).map (c :: ·)

/-- What stands in front of the closing quote and what follows it. Behind a backslash a quote does not close the
literal; a line end that is not escaped breaks it off. -/
def inside? : List Char → Option (List Char × List Char)
  | '"' :: cs => some ([], cs)
  | '\\' :: c :: cs => (inside? cs).map fun found => ('\\' :: c :: found.1, found.2)
  | c :: cs => if c = '\n' then none else (inside? cs).map fun found => (c :: found.1, found.2)
  | [] => none

/-- The text that a literal in double quotes denotes and what follows it. Three quotes open a literal of another
kind, and source text holds neither carriage returns, once its line ends are read, nor null characters. -/
def token? (named? : List Char → Option Char) : List Char → Option (List Char × List Char)
  | '"' :: '"' :: '"' :: _ => none
  | '"' :: cs => do
    let (inside, rest) ← inside? cs
    if inside.contains '\r' || inside.contains '\x00' then none
    return (← textFrom? named? 0 inside, rest)
  | _ => none

/-! ## What is written for a character -/

end Literal

namespace Quoted

/-- A character is written by a short escape, by its code or as it is. -/
theorem jsonChar_cases (c : Char) :
    (∃ mark, jsonChar c = ['\\', mark] ∧ Docstring.escaped? mark = some [c] ∧ 32 ≤ mark.toNat) ∨
    (c.toNat < 32 ∧ jsonChar c = '\\' :: 'u' :: hex 4 c.toNat) ∨
    (32 ≤ c.toNat ∧ c ≠ '"' ∧ c ≠ '\\' ∧ jsonChar c = [c]) := by
  unfold jsonChar
  -- the characters that have a short escape
  iterate 7
    split
    · rename_i h
      subst h
      exact .inl ⟨_, rfl, by decide, by decide⟩
  split
  · rename_i hcontrol
    exact .inr (.inl ⟨hcontrol, rfl⟩)
  · rename_i hquote hbackslash _ _ _ _ _ hcontrol
    exact .inr (.inr ⟨Nat.not_lt.mp hcontrol, hquote, hbackslash, rfl⟩)

/-- Control characters are written in hexadecimal digits. -/
theorem hex_control : ∀ n < 32, ∃ x y z w, hex 4 n = [x, y, z, w] ∧
    Literal.number? 16 Percent.hexValue? [x, y, z, w] = some n ∧
      ∀ d ∈ [x, y, z, w], 32 ≤ d.toNat ∧ d ≠ '"' ∧ d ≠ '\\' := by
  intro n hn
  have hdigit : ∀ n < 16, 32 ≤ (hexDigit n).toNat ∧ hexDigit n ≠ '"' ∧ hexDigit n ≠ '\\' := by decide
  have hdigits : ∀ n, 32 ≤ (hexDigit (n % 16)).toNat ∧ hexDigit (n % 16) ≠ '"' ∧ hexDigit (n % 16) ≠ '\\' :=
    fun n => hdigit (n % 16) (Nat.mod_lt n (by decide))
  refine ⟨hexDigit (n / 16 / 16 / 16 % 16), hexDigit (n / 16 / 16 % 16), hexDigit (n / 16 % 16), hexDigit (n % 16),
    rfl, ?_, ?_⟩
  · revert n
    decide
  · simp only [List.forall_mem_cons]
    exact ⟨hdigits _, hdigits _, hdigits _, hdigits n, List.forall_mem_nil _⟩

theorem le_of_mem_jsonChar {c d : Char} (h : d ∈ jsonChar c) : 32 ≤ d.toNat := by
  rcases jsonChar_cases c with ⟨mark, hchars, -, hmark⟩ | ⟨hcontrol, hchars⟩ | ⟨hplain, -, -, hchars⟩
  · rw [hchars] at h
    rcases List.mem_cons.mp h with rfl | h
    · decide
    · rwa [List.mem_singleton.mp h]
  · obtain ⟨x, y, z, w, hhex, -, hdigits⟩ := hex_control c.toNat hcontrol
    rw [hchars, hhex] at h
    rcases List.mem_cons.mp h with rfl | h
    · decide
    rcases List.mem_cons.mp h with rfl | h
    · decide
    · exact (hdigits d h).1
  · rw [hchars] at h
    rwa [List.mem_singleton.mp h]

theorem le_of_mem_json {cs : List Char} {d : Char} (h : d ∈ json cs) : 32 ≤ d.toNat := by
  rw [json, List.mem_cons, List.mem_append, List.mem_singleton] at h
  rcases h with rfl | h | rfl
  · decide
  · obtain ⟨c, -, hd⟩ := List.mem_flatMap.mp h
    exact le_of_mem_jsonChar hd
  · decide

end Quoted

/-! ## Literals read back -/

namespace Literal

variable {named? : List Char → Option Char} {cs rest : List Char}

theorem inside?_cons {c : Char} (hquote : c ≠ '"') (hbackslash : c ≠ '\\') (hfeed : c ≠ '\n') (cs : List Char) :
    inside? (c :: cs) = (inside? cs).map fun found => (c :: found.1, found.2) := by
  rw [inside?, if_neg hfeed]
  · exact hquote
  · exact fun _ _ heq => absurd heq hbackslash

theorem inside?_append (h : ∀ c ∈ cs, 32 ≤ c.toNat ∧ c ≠ '"' ∧ c ≠ '\\') (rest : List Char) :
    inside? (cs ++ rest) = (inside? rest).map fun found => (cs ++ found.1, found.2) := by
  induction cs with
  | nil => exact Option.map_id'.symm
  | cons c cs ih =>
    obtain ⟨⟨hprintable, hquote, hbackslash⟩, hcs⟩ := List.forall_mem_cons.mp h
    have hfeed : c ≠ '\n' := by
      rintro rfl
      exact absurd hprintable (by decide)
    rw [List.cons_append, inside?_cons hquote hbackslash hfeed, ih hcs, Option.map_map]
    rfl

theorem inside?_jsonChar (c : Char) (rest : List Char) :
    inside? (Quoted.jsonChar c ++ rest) = (inside? rest).map fun found => (Quoted.jsonChar c ++ found.1, found.2) := by
  rcases Quoted.jsonChar_cases c with ⟨mark, hchars, -⟩ | ⟨hcontrol, hchars⟩ | ⟨hplain, hquote, hbackslash, hchars⟩
  · rw [hchars]
    rfl
  · obtain ⟨x, y, z, w, hhex, -, hdigits⟩ := Quoted.hex_control c.toNat hcontrol
    rw [hchars, hhex]
    show (inside? ([x, y, z, w] ++ rest)).map _ = _
    rw [inside?_append hdigits, Option.map_map]
    rfl
  · rw [hchars]
    exact inside?_append (List.forall_mem_singleton.mpr ⟨hplain, hquote, hbackslash⟩) rest

theorem inside?_json (cs rest : List Char) :
    inside? (cs.flatMap Quoted.jsonChar ++ '"' :: rest) = some (cs.flatMap Quoted.jsonChar, rest) := by
  induction cs with
  | nil => rfl
  | cons c cs ih =>
    rw [List.flatMap_cons, List.append_assoc, inside?_jsonChar, ih]
    rfl

theorem textFrom?_append (cs rest : List Char) : textFrom? named? cs.length (cs ++ rest) = textFrom? named? 0 rest := by
  induction cs with
  | nil => rfl
  | cons c cs ih => exact ih

theorem textFrom?_plain {c : Char} (hbackslash : c ≠ '\\') (cs : List Char) :
    textFrom? named? 0 (c :: cs) = (textFrom? named? 0 cs).map (c :: ·) := by
  rw [textFrom?]
  exact hbackslash

theorem escaped?_octal : ∀ n < 8, Docstring.escaped? (Char.ofNat (48 + n)) = none := by decide

theorem octalValue?_of_escaped? {c : Char} {new : List Char} (h : Docstring.escaped? c = some new) :
    octalValue? c = none := by
  rw [octalValue?, if_neg]
  intro hdigit
  have hnone := escaped?_octal (c.toNat - 48) (by omega)
  rw [Nat.add_sub_cancel' hdigit.1, Char.ofNat_toNat, h] at hnone
  cases hnone

theorem escape?_of_escaped? {c : Char} {new : List Char} (h : Docstring.escaped? c = some new) (cs : List Char) :
    escape? named? (c :: cs) = some (new, 1) := by
  have hne : ∀ d, Docstring.escaped? d = none → c ≠ d := by
    rintro d hd rfl
    rw [hd] at h
    cases h
  rw [escape?]
  · simp only [List.takeWhile_cons, octalValue?_of_escaped? h, h]
    rfl
  · exact hne 'x' (by decide)
  · exact hne 'u' (by decide)
  · exact hne 'U' (by decide)
  · exact fun _ heq => absurd heq (hne 'N' (by decide))

theorem textFrom?_escape {escape new : List Char} {length : Nat}
    (h : escape? named? (escape ++ cs) = some (new, length))
    (hlength : escape.length = length) :
    textFrom? named? 0 ('\\' :: (escape ++ cs)) = (textFrom? named? 0 cs).map (new ++ ·) := by
  rw [textFrom?, h, ← hlength]
  show (textFrom? named? escape.length (escape ++ cs) >>= fun text => pure (new ++ text)) = _
  rw [textFrom?_append]
  cases textFrom? named? 0 cs <;> rfl

theorem textFrom?_jsonChar (c : Char) (cs : List Char) :
    textFrom? named? 0 (Quoted.jsonChar c ++ cs) = (textFrom? named? 0 cs).map (c :: ·) := by
  rcases Quoted.jsonChar_cases c with ⟨mark, hchars, hescaped, -⟩ | ⟨hcontrol, hchars⟩ | ⟨-, -, hbackslash, hchars⟩
  · rw [hchars]
    show textFrom? named? 0 ('\\' :: ([mark] ++ cs)) = _
    rw [textFrom?_escape (escape?_of_escaped? hescaped cs) rfl]
    rfl
  · obtain ⟨x, y, z, w, hhex, hnumber, -⟩ := Quoted.hex_control c.toNat hcontrol
    rw [hchars, hhex]
    show textFrom? named? 0 ('\\' :: ([ 'u', x, y, z, w] ++ cs)) = _
    have hvalid : c.toNat.isValidChar := c.valid
    have hcode : ofCode? c.toNat = some c := by
      rw [ofCode?, if_pos hvalid, Char.ofNat_toNat]
    have hescape : escape? named? (['u', x, y, z, w] ++ cs) = some ([c], 5) := by
      show coded? 4 (x :: y :: z :: w :: cs) = _
      rw [coded?, if_neg (by simp)]
      show ((number? 16 Percent.hexValue? [x, y, z, w]).bind ofCode?).map _ = _
      rw [hnumber, Option.bind_some, hcode]
      rfl
    rw [textFrom?_escape hescape rfl]
    rfl
  · rw [hchars]
    exact textFrom?_plain hbackslash cs

theorem textFrom?_json (cs : List Char) : textFrom? named? 0 (cs.flatMap Quoted.jsonChar) = some cs := by
  induction cs with
  | nil => rfl
  | cons c cs ih =>
    rw [List.flatMap_cons, textFrom?_jsonChar, ih]
    rfl

/-- The quote that closes an empty literal is followed by no other, and no other literal begins with a quote. -/
theorem not_tripled (cs : List Char) {rest tail : List Char} (h : rest.head? ≠ some '"') :
    cs.flatMap Quoted.jsonChar ++ '"' :: rest ≠ '"' :: '"' :: tail := by
  intro heq
  cases cs with
  | nil =>
    obtain ⟨-, rfl⟩ := List.cons.inj heq
    exact h rfl
  | cons c cs =>
    rw [List.flatMap_cons] at heq
    rcases Quoted.jsonChar_cases c with ⟨mark, hchars, -⟩ | ⟨-, hchars⟩ | ⟨-, hquote, -, hchars⟩
    · rw [hchars] at heq
      exact absurd (List.cons.inj heq).1 (by decide)
    · rw [hchars] at heq
      exact absurd (List.cons.inj heq).1 (by decide)
    · rw [hchars] at heq
      exact hquote (List.cons.inj heq).1

theorem token?_json (cs : List Char) {rest : List Char} (h : rest.head? ≠ some '"') :
    token? named? (Quoted.json cs ++ rest) = some (cs, rest) := by
  have habsent : ∀ c, c.toNat < 32 → (cs.flatMap Quoted.jsonChar).contains c = false := by
    intro c hc
    rw [← Bool.not_eq_true, List.contains_iff_mem]
    intro hmem
    have hjson : c ∈ Quoted.json cs := List.mem_cons_of_mem '"' (List.mem_append_left ['"'] hmem)
    have hle := Quoted.le_of_mem_json hjson
    exact absurd hle (Nat.not_le.mpr hc)
  rw [Quoted.json, List.cons_append, List.append_assoc, List.singleton_append, token?]
  · rw [inside?_json]
    show (if _ then none else (textFrom? named? 0 _ >>= fun text => some (text, rest))) = _
    rw [habsent '\r' (by decide), habsent '\x00' (by decide), textFrom?_json]
    rfl
  · exact fun tail => not_tripled cs h

theorem toList_quoted (s : String) : (quoted s).toList = Quoted.json s.toList := by
  rw [quoted, Text.onChars, String.toList_ofList]

theorem token?_quoted (s : String) {rest : List Char} (h : rest.head? ≠ some '"') :
    token? named? ((quoted s).toList ++ rest) = some (s.toList, rest) := by
  rw [toList_quoted, token?_json s.toList h]

theorem token?_quoted_self (s : String) : token? named? (quoted s).toList = some (s.toList, []) := by
  have hwhole : token? named? ((quoted s).toList ++ []) = some (s.toList, []) :=
    token?_quoted s (Option.some_ne_none '"').symm
  rwa [List.append_nil] at hwhole

theorem quoted_injective {s t : String} (h : quoted s = quoted t) : s = t := by
  have hread : token? (fun _ => none) (quoted s).toList = some (s.toList, []) := token?_quoted_self s
  rw [h, token?_quoted_self t] at hread
  exact String.toList_injective (Prod.mk.inj (Option.some.inj hread)).1.symm

theorem not_mem_quoted {c : Char} (h : c.toNat < 32) (s : String) : c ∉ (quoted s).toList := by
  rw [toList_quoted]
  exact fun hmem => absurd (Quoted.le_of_mem_json hmem) (Nat.not_le.mpr h)

/-- A text literal is one token of the language in one line, whatever follows it but another quote, and denotes the
text; so no two texts have the same literal. -/
theorem literal_reads_back (s : String) : ∃ token,
    quoted s = token ∧ ofScalar (.str s) = .ok token ∧ ofData (.str s) = .ok token ∧ ofValue (.str s) = .ok token ∧
    Wire.JsonForm.spaced.text (.str s) = .ok token ∧
    '\n' ∉ token.toList ∧ '\r' ∉ token.toList ∧ '\x00' ∉ token.toList ∧
    (∀ named?, token? named? token.toList = some (s.toList, [])) ∧
    (∀ named? rest, rest.head? ≠ some '"' → token? named? (token.toList ++ rest) = some (s.toList, rest)) ∧
    ∀ other, quoted other = token → other = s :=
  ⟨quoted s, rfl, rfl, rfl, rfl, rfl, not_mem_quoted (by decide) s, not_mem_quoted (by decide) s,
    not_mem_quoted (by decide) s, fun _ => token?_quoted_self s, fun _ _ => token?_quoted s, fun _ => quoted_injective⟩

theorem literal_reads_back_marks : ∃ token, token.toList = "\"a\\\\\\\"\\u0000\\n\\b\\u001f/'\x7fé\u2028\\\\\"".toList ∧
    ofData (.str "a\\\"\x00\n\x08\x1f/'\x7fé\u2028\\") = .ok token ∧
    ∀ named?, token? named? (token.toList ++ ": \"\"".toList) =
      some ("a\\\"\x00\n\x08\x1f/'\x7fé\u2028\\".toList, ": \"\"".toList) := by
  obtain ⟨token, hquoted, -, hdata, -, -, -, -, -, -, hread, -⟩ :=
    literal_reads_back "a\\\"\x00\n\x08\x1f/'\x7fé\u2028\\"
  refine ⟨token, ?_, hdata, fun named? => hread named? _ (by decide)⟩
  rw [← hquoted, toList_quoted]
  decide +kernel

/-- Escapes that are never written are read as well. -/
example : token? (fun name => if name = "BULLET".toList then some '•' else none)
    "\"\\x41\\1012\\N\x7bBULLET\x7d\\U0001f600\\\n\\a\\q\" # \"".toList =
      some ("AA2•😀\x07\\q".toList, " # \"".toList) := by
  decide +kernel

end Literal
end ClientBindings
