import ClientBindings.Document.Location
import ClientBindings.Source.ModuleText

/-! A package of generated modules, as paths and texts. -/

namespace ClientBindings.Package

def join (base path : String) : String :=
  String.ofList (Location.tidyPath (Location.appendPath base.toList path.toList))

/-- The modules under names that differ from each other and from that of the package file. -/
def rename (modules : List Module) : List Module :=
  (modules.foldl (fun (acc : List String × List Module) m =>
    let name := freshName acc.1 m.name
    (name :: acc.1, acc.2 ++ [{ m with name }])) (["__init__"], [])).2

/-- The file that makes the modules a package. -/
def initLines (package : String) (modules : List Module) : Result Lines := do
  return Module.banner ++ [← Remark.docstring (.str (package ++ " API bindings.")) 0, ""]
    ++ modules.map (fun m => "from . import " ++ m.name)
    ++ ["", "__all__ = ["] ++ modules.map (fun m => "    " ++ Literal.quoted m.name ++ ",") ++ ["]"]

/-- The files of a package below a directory: one for every module, then the package file. -/
def files (apis : List Api) (naming : Naming) (directory package : String) :
    Result (List (String × String)) := do
  let modules := rename (← apis.mapM fun api => Module.ofApi api naming)
  let folder := join directory package
  let texts ← modules.mapM fun m => return (join folder (m.name ++ ".py"), ← m.text)
  return texts ++ [(join folder "__init__.py", Lines.text (← initLines package modules))]

end ClientBindings.Package
