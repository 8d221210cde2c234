import SchemaForms.Form.Generate
import SchemaForms.Proofs.Schema.Alike

/-!
Generators for schemas alike.  What does not look into contents adds the same: fields, the choice of
a type and the conditions for it.
-/

namespace SchemaForms

namespace Generator

/-- The generator for another schema. -/
def withSchema (g : Generator) (s : Schema) : Generator := { g with schema := s }

@[simp] theorem schema_withSchema (g : Generator) (s : Schema) : (g.withSchema s).schema = s := rfl

@[simp] theorem settings_withSchema (g : Generator) (s : Schema) :
    (g.withSchema s).settings = g.settings := rfl

@[simp] theorem substitutes_withSchema (g : Generator) (s : Schema) :
    (g.withSchema s).substitutes = g.substitutes := rfl

theorem withSchema_ofSchema {s s' : Schema} (h : s.Alike s') (settings : Settings)
    (layout : Option Layout) :
    (ofSchema s settings layout).withSchema s' = ofSchema s' settings layout := by
  rw [withSchema, ofSchema, ofSchema, h.substitutes_eq]

end Generator

namespace Schema.Alike

open Generator

variable {g : Generator} {s' : Schema}

theorem candidates_eq (h : g.schema.Alike s') : (g.withSchema s').candidates = g.candidates := by
  funext type
  have habstract : (s'.complex? type).any (·.isAbstract) =
      (g.schema.complex? type).any (·.isAbstract) :=
    h.complex?_eq (f := fun c => c.any (·.isAbstract)) (fun _ _ _ => rfl) type
  rw [candidates, schema_withSchema, habstract]
  rfl

theorem addField_eq (h : g.schema.Alike s') : (g.withSchema s').addField = g.addField := by
  have hdatatype : (g.withSchema s').datatype = g.datatype := by
    funext type
    simp only [datatype, schema_withSchema, h.isList_eq, h.builtinKind_eq]
  have hkind : (g.withSchema s').valueKind = g.valueKind := by
    funext type
    simp only [valueKind, schema_withSchema, h.builtinKind_eq, h.range_eq]
  have hcontrol : (g.withSchema s').fieldControl = g.fieldControl := by
    funext type bindId
    simp only [fieldControl, schema_withSchema, settings_withSchema, h.isList_eq,
      h.listItem_eq, h.enumeration_eq, hkind]
  funext spot type owner path occurs
  rw [addField, hdatatype, hcontrol]
  rfl

theorem typeValue_eq (h : g.schema.Alike s') : (g.withSchema s').typeValue = g.typeValue := by
  funext type
  simp only [typeValue, schema_withSchema, h.name?_eq, h.displayName_eq]

theorem typeChoices_eq (h : g.schema.Alike s') : (g.withSchema s').typeChoices = g.typeChoices := by
  funext types
  induction types with
  | nil => rfl
  | cons type types ih =>
    simp only [typeChoices, schema_withSchema, h.typeValue_eq, h.displayName_eq, ih]

theorem applyRelevance_eq (h : g.schema.Alike s') :
    (g.withSchema s').applyRelevance = g.applyRelevance := by
  have hconditions : (g.withSchema s').typeConditions = g.typeConditions := by
    funext types
    induction types with
    | nil => rfl
    | cons type types ih => simp only [typeConditions, h.typeValue_eq, ih]
  funext elementBind existing reused type
  simp only [applyRelevance, substitutes_withSchema, hconditions]

end Schema.Alike

end SchemaForms
