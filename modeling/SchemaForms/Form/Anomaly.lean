/-!
Anomalies: what a form leaves out because the schema does not allow for it.
-/

namespace SchemaForms

inductive Anomaly where
  | unresolvedType (name : String)
  | unsupportedWildcard (owner : String)
  | missingRepeatBind (repeatId : String)
  | reusedControlNotFound (name : String)
  | recursiveType (name typeName : String)
  deriving DecidableEq, Repr

def Anomaly.message : Anomaly → String
  | .unresolvedType name => "type of '" ++ name ++ "' could not be resolved"
  | .unsupportedWildcard owner => "wildcard in '" ++ owner ++ "' is not supported"
  | .missingRepeatBind repeatId => "no governing bind for repeat '" ++ repeatId ++ "'"
  | .reusedControlNotFound name => "no existing control for inherited '" ++ name ++ "'"
  | .recursiveType name typeName =>
    "'" ++ name ++ "' of type '" ++ typeName ++
      "' recurses into itself and is not expanded again"

end SchemaForms
