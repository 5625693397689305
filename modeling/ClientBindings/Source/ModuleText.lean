import ClientBindings.Source.Module

/-! The text of a generated module, line by line. -/

namespace ClientBindings

/-- Lines of source text; a line may hold line ends of its own. -/
abbrev Lines := List String

namespace Lines

def text (lines : Lines) : String := String.join (lines.map (· ++ "\n"))

/-- Two empty lines in front. -/
def apart (lines : Lines) : Lines := "" :: "" :: lines

/-- Statements as the body of a function. They are taken apart wherever a line ends, and only the first
line is indented if it is empty. -/
def body (statements : List String) : Lines :=
  match Text.lines (String.intercalate "\n" statements ++ "\n").toList with
  | [] => []
  | first :: rest =>
    ((Remark.spaces 4 ++ first) :: rest.map (Remark.indentLine 4)).map String.ofList

end Lines

/-- The docstring of a remark, no line without one. -/
def docLines (doc : Data) : Result Lines :=
  if doc.truthy then return [← Remark.docstring doc 4] else return []

/-- The comment of a remark, no line without one. -/
def commentLines (doc : Data) : Result Lines :=
  if doc.truthy then return [← Remark.comment doc 0] else return []

namespace RecordDeclaration

def fieldLines (f : FieldDeclaration) : Result Lines := do
  return ("    " ++ f.name.text ++ ": " ++ f.type) :: (← docLines f.doc)

def lines (d : RecordDeclaration) : Result Lines := do
  if d.functional then
    let entries := d.fields.map fun f => "        " ++ Literal.spellingOf f.name ++ ": " ++ f.type ++ ","
    return (← commentLines d.doc) ++ [d.name ++ " = TypedDict(", "    " ++ Literal.quoted d.name ++ ",", "    \x7b"]
      ++ entries ++ ["    \x7d,", ")"]
  let bases := if d.bases.isEmpty then "TypedDict" else String.intercalate ", " d.bases
  let fields ← d.fields.mapM fieldLines
  let empty := d.fields.isEmpty && !d.doc.truthy
  return ("class " ++ d.name ++ "(" ++ bases ++ "):") :: (← docLines d.doc) ++ fields.flatten
    ++ (if empty then ["    pass"] else [])

end RecordDeclaration

namespace EnumDeclaration

def lines (d : EnumDeclaration) : Result Lines := do
  if d.functional then
    let entries := d.members.map fun (name, value) =>
      "        (" ++ Literal.quoted name ++ ", " ++ value ++ "),"
    return (← commentLines d.doc) ++ [d.name ++ " = Enum(", "    " ++ Literal.quoted d.name ++ ",", "    ["]
      ++ entries ++ ["    ],"] ++ (if d.isText then ["    type=str,"] else []) ++ [")"]
  let bases := if d.isText then "str, Enum" else "Enum"
  let empty := d.members.isEmpty && !d.doc.truthy
  return ("class " ++ d.name ++ "(" ++ bases ++ "):") :: (← docLines d.doc)
    ++ d.members.map (fun (name, value) => "    " ++ name ++ " = " ++ value)
    ++ (if empty then ["    pass"] else [])

end EnumDeclaration

namespace SynonymDeclaration

def line (name type : String) : String := name ++ ": TypeAlias = " ++ Literal.quoted type

def lines (d : SynonymDeclaration) : Result Lines := do
  return (← commentLines d.doc) ++ [line d.name d.type]

end SynonymDeclaration

namespace Declaration

def lines : Declaration → Result Lines
  | .record d => d.lines
  | .enumeration d => d.lines
  | .synonym d => d.lines

end Declaration

namespace OperationFunctions

def headLines (name : String) (arguments : List Argument) (result : String) : Lines :=
  match Argument.signature arguments with
  | [] => ["async def " ++ name ++ "() -> " ++ result ++ ":"]
  | given => ("async def " ++ name ++ "(") :: given.map (fun a => "    " ++ a ++ ",")
      ++ [") -> " ++ result ++ ":"]

def lines (naming : Naming) (f : OperationFunctions) : Result Lines := do
  let declarations ← f.declarations.mapM fun d => return Lines.apart (← d.lines)
  let forward (name : String) (arguments : List Argument) : String :=
    "await " ++ name ++ "(" ++ Argument.forwarded arguments ++ ")"
  return declarations.flatten
    ++ Lines.apart (headLines f.urlName f.urlArguments "str" ++ Lines.body f.urlBody)
    ++ Lines.apart (headLines f.configName f.configArguments naming.requestConfigType ++ Lines.body f.configBody)
    ++ Lines.apart (headLines f.name f.arguments f.result) ++ (← docLines f.doc)
    ++ ["    _url = " ++ forward f.urlName f.urlArguments,
        "    _cfg = " ++ forward f.configName f.configArguments,
        "    return await " ++ naming.clientVar ++ "." ++ f.fetch ++ "(_url, _cfg)"]

end OperationFunctions

namespace Module

def banner : Lines :=
  ["# This file is auto-generated by py-oas-generator. Do not edit.", "# ruff: noqa"]

variable (m : Module)

def titleLines : Result Lines := do
  if !m.title.truthy then return []
  return [← Remark.docstring (.str ((← m.title.toText) ++ " " ++ Remark.versionText m.version)) 0]

def importLines : Lines :=
  let n := m.naming
  ["", "from __future__ import annotations", "", "import functools", "from enum import Enum",
   "from typing import Any, Literal, NoReturn, NotRequired, TypeAlias, TypedDict, overload", "",
   "import " ++ n.runtimeModule ++ " as " ++ n.runtimeVar, "from " ++ n.runtimeModule ++ " import (",
   "    " ++ n.requestConfigType ++ ",", "    " ++ n.responseType ++ ",",
   "    formatter as " ++ n.formatterVar ++ ",", "    styler as " ++ n.stylerVar ++ ",", ")", ""]

def serverListLines : Result Lines := do
  let entry (s : ServerEntry) : Result String :=
    return "        \x7b\"url\": " ++ (← Literal.ofData s.url) ++ ", \"variables\": " ++ s.defaults ++ "\x7d,"
  return [m.naming.serverVar ++ " = " ++ m.naming.runtimeVar ++ ".Server(", "    ["] ++ (← m.servers.mapM entry)
    ++ ["    ]", ")"]

/-- The type of all variables of all servers. -/
def serverConfigs : String := "tuple[" ++ String.intercalate ", " (m.servers.map ServerEntry.type) ++ "]"

/-- The function that selects a server; several servers are told apart by overloads. -/
def setServerLines : Lines :=
  let n := m.naming
  let define (parameters ending : String) : String :=
    "def " ++ n.setServerName ++ "(" ++ parameters ++ ") -> None:" ++ ending
  let rest := ["    \"\"\"Select the server used as base URL, overriding its variables.\"\"\"",
    "    " ++ n.serverVar ++ ".set_index(index, variables)"]
  match m.servers with
  | _ :: _ :: _ =>
    (m.servers.zipIdx.flatMap fun (s, i) => Lines.apart ["@overload",
      define ("index: Literal[" ++ toString i ++ "], variables: " ++ s.type ++ " = None") " ..."])
    ++ Lines.apart (define "index: int, variables: Any = None" "" :: rest)
  | _ =>
    let type := (m.servers.head?.map ServerEntry.type).getD ""
    Lines.apart (define ("index: Literal[0] = 0, variables: " ++ type ++ " = None") "" :: rest)

def setServerUrlLines : Lines :=
  ["def " ++ m.naming.setServerUrlName ++ "(url: str) -> None:",
   "    \"\"\"Use ``url`` as base URL instead of a declared server.\"\"\"",
   "    " ++ m.naming.serverVar ++ ".set_url(url)"]

def clientLines : Lines :=
  let n := m.naming
  let setter (s : TokenSetter) : String :=
    s.name ++ " = functools.partial(" ++ n.securityVar ++ "." ++ s.target ++ ", " ++ s.arguments ++ ")"
  (n.securityVar ++ " = " ++ n.runtimeVar ++ ".Security()") :: m.setters.map setter
    ++ ["", n.clientVar ++ " = " ++ n.runtimeVar ++ ".Client()",
        n.clientVar ++ ".use(" ++ n.serverVar ++ ")", n.clientName ++ " = " ++ n.clientVar]

def lines : Result Lines := do
  let version := Remark.versionText m.version
  let serverRecords ← (m.servers.filterMap ServerEntry.declaration).mapM fun d => return Lines.apart (← d.lines)
  let declarations ← m.declarations.mapM fun d => return Lines.apart (← d.lines)
  let operations ← m.operations.mapM (OperationFunctions.lines m.naming)
  return banner ++ (← m.titleLines) ++ m.importLines
    ++ [m.naming.versionName ++ " = " ++ Literal.quoted version] ++ serverRecords.flatten
    ++ Lines.apart [SynonymDeclaration.line m.naming.serverConfigsType m.serverConfigs, ""]
    ++ (← m.serverListLines) ++ m.setServerLines ++ Lines.apart m.setServerUrlLines
    ++ Lines.apart m.clientLines ++ declarations.flatten ++ operations.flatten

def text : Result String := return Lines.text (← m.lines)

end Module
end ClientBindings
