import ClientBindings.Schema.Synthesis

/-! Problems that do not stop a compilation: what is concerned is left out and reported. -/

namespace ClientBindings

inductive Diagnostic where
  | missingOperationId (location : String)
  | duplicateOperationId (id location : String)
  | unknownParameterLocation (given location : String)
  | unsupportedHttpScheme (scheme location : String)
  | unsupportedKeyPlace (place location : String)
  | unsupportedSchemeType (type location : String)
deriving DecidableEq, Repr, Inhabited

namespace Diagnostic

def code : Diagnostic → String
  | .missingOperationId _ => "missing-operation-id"
  | .duplicateOperationId .. => "duplicate-operation-id"
  | .unknownParameterLocation .. => "unknown-parameter-location"
  | .unsupportedHttpScheme .. | .unsupportedKeyPlace .. | .unsupportedSchemeType .. =>
    "unsupported-security-scheme"

def location : Diagnostic → String
  | .missingOperationId l | .duplicateOperationId _ l | .unknownParameterLocation _ l
  | .unsupportedHttpScheme _ l | .unsupportedKeyPlace _ l | .unsupportedSchemeType _ l => l

def message : Diagnostic → String
  | .missingOperationId l => "The operationId was not found in '" ++ l ++ "'"
  | .duplicateOperationId id l => "There are duplicate operationId '" ++ id ++ "' in '" ++ l ++ "'"
  | .unknownParameterLocation given l => "unknown location '" ++ given ++ "' in parameters of '" ++ l ++ "'"
  | .unsupportedHttpScheme scheme _ => "unsupported http scheme '" ++ scheme ++ "' in securitySchemes"
  | .unsupportedKeyPlace place _ => "unsupported apiKey in '" ++ place ++ "' in securitySchemes"
  | .unsupportedSchemeType type _ => "unsupported scheme type '" ++ type ++ "' in securitySchemes"

end Diagnostic

/-- What a compilation accumulates. It stays available when the compilation fails. -/
structure Compilation where
  schema : Schema.State := {}
  diagnostics : List Diagnostic := []
  /-- The operation ids met so far and where they stand. -/
  operationIds : List (Scalar × String) := []
deriving Inhabited

namespace Compilation

abbrev M := ExceptT Failure (StateM Compilation)

def warn (d : Diagnostic) : M Unit := modify fun s => { s with diagnostics := s.diagnostics ++ [d] }

/-- Runs a synthesis of types on the types known so far. -/
def synthesize {α : Type} (m : Schema.M α) : M α := do
  let (result, schema) := m.run (← get).schema
  modify fun s => { s with schema }
  match result with
  | .ok a => return a
  | .error f => throw f

end Compilation
end ClientBindings
