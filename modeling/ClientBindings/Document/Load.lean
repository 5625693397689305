import ClientBindings.Document.Bundle
import ClientBindings.Document.FileTree
import ClientBindings.Document.Text
import ClientBindings.Wire.Address

/-! Loading a document: it is read from a file or URL, its version is checked, it is bundled, and it is given its
servers. -/

namespace ClientBindings.Document

/-- The version a document declares. -/
def version (document : Data) : Data := (document.find? "openapi").getD .null

/-- Accepts documents of version 3 only. -/
def ensureVersion3 (document : Data) : Result Unit :=
  match version document with
  | .str v => if v.startsWith "3" then return () else throw (.unsupportedVersion (.str v))
  | v => do
    let _ ← v.toText
    throw (.unsupportedVersion v)

/-- A relative URL of a server is read from the origin of the document's own URL. -/
def anchorServer (location : String) (server : Data) : Result Data := do
  let url ← (← server.get "url" (.str "/")).asText
  if Location.isUrl url || !Location.isUrl location then return server
  return .map (Entries.put Scalar.same (← server.entries) (.str "url")
    (.str (← Location.mergeUrl location [url])))

/-- The servers with their URLs anchored; without any, the root. -/
def anchorServers (servers : Data) (location : String) : Result (List Data) := do
  let servers ← if servers.truthy then servers.elements else pure []
  let servers := if servers.isEmpty then [Data.object [("url", .str "/")]] else servers
  servers.mapM (anchorServer location)

/-- What documents are read from: a tree of files and the texts behind URLs. -/
structure World where
  tree : FileTree
  pages : List (String × String)

namespace World

variable (w : World)

/-- The text behind a URL; an unknown URL is answered with status 404. -/
def page (url : String) : Result String :=
  if (Wire.Address.parse? url).isNone then throw .invalidUrl else
  match w.pages.lookup url with
  | some text => return text
  | none => throw (.httpStatus 404 url)

def urlSuffix (url : String) : Result String := do
  return Location.suffix (String.ofList (← Location.splitUrl url.toList).path)

/-- The raw document at a location. -/
def read (location : String) : Result Data := do
  if Location.isUrl location then
    let text ← w.page location
    parse text (← urlSuffix location)
  else parse (← w.tree.readText location) (Location.suffix location)

/-- The document at a location, ready to be compiled. -/
def load (location : String) : Result Data := do
  let document ← w.read location
  ensureVersion3 document
  let bundled ← (Bundle.run w.read w.tree.workingDirectory document location).1
  let servers ← anchorServers (← bundled.get "servers") location
  return .map (Entries.put Scalar.same (← bundled.entries) (.str "servers") (.list servers))

end World
end ClientBindings.Document
