import Mathlib.Data.List.Chain
import Mathlib.Data.List.Forall2
import SchemaForms.Proofs.Form.Outline

/-!
Relevance of binds: a bind that only some types have lists the values of `xsi:type` for which it is
relevant.  Other values are added behind those that it lists, and each of them is found again.
-/

namespace SchemaForms

open Synthesis

/-! Texts that are joined and split again. -/

namespace Text

variable {c : Char} {separator : List Char}

theorem splitFrom_skip (skipped rest : List Char) :
    splitFrom separator skipped.length (skipped ++ rest) = splitFrom separator 0 rest := by
  induction skipped with
  | nil => rfl
  | cons x skipped ih => exact ih

/-- A part without the first character of the separator is found whole. -/
theorem splitFrom_part {part rest p : List Char} {ps : List (List Char)} (h : c ∉ part)
    (hrest : splitFrom (c :: separator) 0 rest = p :: ps) :
    splitFrom (c :: separator) 0 (part ++ rest) = (part ++ p) :: ps := by
  induction part with
  | nil => exact hrest
  | cons x part ih =>
    rw [List.mem_cons, not_or] at h
    have hx : (c :: separator).isPrefixOf (x :: (part ++ rest)) = false := by
      simp [List.isPrefixOf, h.1]
    rw [List.cons_append, splitFrom, hx, if_neg Bool.false_ne_true, ih h.2]
    rfl

/-- Parts without the first character of the separator are found again. -/
theorem splitFrom_intercalate {parts : List (List Char)} (hne : parts ≠ [])
    (h : ∀ part ∈ parts, c ∉ part) :
    splitFrom (c :: separator) 0 ((c :: separator).intercalate parts) = parts := by
  induction parts with
  | nil => exact absurd rfl hne
  | cons part parts ih =>
    have hpart := h part (List.mem_cons_self ..)
    cases parts with
    | nil =>
      have hnil : splitFrom (c :: separator) 0 [] = [[]] := rfl
      rw [List.intercalate_singleton]
      simpa using splitFrom_part hpart hnil
    | cons q parts =>
      have hrest := ih (List.cons_ne_nil q parts) fun x hx => h x (List.mem_cons_of_mem _ hx)
      rw [List.intercalate_cons_cons, List.append_assoc]
      refine (splitFrom_part hpart (p := []) ?_).trans (by rw [List.append_nil])
      rw [List.cons_append, splitFrom, if_pos (by simp)]
      congr 1
      rw [List.length_cons, Nat.add_sub_cancel, splitFrom_skip, hrest]

theorem append_of_occursIn {needle text : List Char} (h : occursIn needle text = true) :
    ∃ before after, text = before ++ needle ++ after := by
  induction text with
  | nil =>
    rw [occursIn, List.isEmpty_iff] at h
    exact ⟨[], [], by simp [h]⟩
  | cons x text ih =>
    rw [occursIn, Bool.or_eq_true] at h
    rcases h with h | h
    · obtain ⟨after, hafter⟩ := List.isPrefixOf_iff_prefix.1 h
      exact ⟨[], after, hafter.symm⟩
    · obtain ⟨before, after, rfl⟩ := ih h
      exact ⟨x :: before, after, rfl⟩

end Text

/-! Conditions on the value of `xsi:type`. -/

/-- The condition that `xsi:type` has a value. -/
def typeCondition (value : String) : String := "../@xsi:type='" ++ value ++ "'"

/-- The relevance for some values of `xsi:type`. -/
def anyOf (values : List String) : String :=
  String.intercalate " or " (values.map typeCondition)

/-- Values that can be told apart where they are listed. -/
def Unspaced (values : List String) : Prop := ∀ value ∈ values, ' ' ∉ value.toList

theorem typeCondition_injective : Function.Injective typeCondition := by
  intro a b h
  have hlist := congrArg String.toList h
  simp only [typeCondition, String.toList_append, List.append_assoc] at hlist
  exact String.toList_injective (List.append_cancel_right (List.append_cancel_left hlist))

theorem not_mem_typeCondition {value : String} (h : ' ' ∉ value.toList) :
    ' ' ∉ (typeCondition value).toList := by
  simp only [typeCondition, String.toList_append, List.mem_append, not_or]
  exact ⟨⟨by decide, h⟩, by decide⟩

namespace Unspaced

variable {values more : List String}

theorem append (h : Unspaced values) (h' : Unspaced more) : Unspaced (values ++ more) :=
  fun value hv => (List.mem_append.1 hv).elim (h value) (h' value)

/-- The listed conditions are found again. -/
theorem splitAt_anyOf (h : Unspaced values) (hne : values ≠ []) :
    Text.splitAt " or " (anyOf values) = values.map typeCondition := by
  let parts := (values.map typeCondition).map String.toList
  have hparts : ∀ part ∈ parts, ' ' ∉ part := by
    simp only [parts, List.map_map, List.mem_map, Function.comp_apply]
    rintro _ ⟨value, hv, rfl⟩
    exact not_mem_typeCondition (h value hv)
  have hsplit : Text.splitFrom (' ' :: "or ".toList) 0
      ((' ' :: "or ".toList).intercalate parts) = parts :=
    Text.splitFrom_intercalate (by simpa [parts] using hne) hparts
  have hseparator : " or ".toList = ' ' :: "or ".toList := by decide
  have hid : String.ofList ∘ String.toList = id := funext fun _ => String.ofList_toList
  rw [Text.splitAt, anyOf, String.toList_intercalate, hseparator, hsplit, List.map_map, hid,
    List.map_id]

/-- No blank stands before an `a` in a list of conditions. -/
theorem isChain_anyOf (h : Unspaced values) :
    List.IsChain (fun c c' => ¬ (c = ' ' ∧ c' = 'a')) (anyOf values).toList := by
  have hchain {text : List Char} (htext : ' ' ∉ text) :
      List.IsChain (fun c c' => ¬ (c = ' ' ∧ c' = 'a')) text := by
    induction text with
    | nil => exact .nil
    | cons x text ih =>
      rw [List.mem_cons, not_or] at htext
      cases text with
      | nil => exact .singleton x
      | cons y text =>
        exact List.isChain_cons_cons.2 ⟨fun hx => htext.1 hx.1.symm, ih htext.2⟩
  induction values with
  | nil => exact .nil
  | cons value values ih =>
    have hfirst : ' ' ∉ (typeCondition value).toList :=
      not_mem_typeCondition (h value (List.mem_cons_self ..))
    rw [anyOf, List.map_cons]
    cases hvalues : values with
    | nil =>
      rw [List.map_nil, String.intercalate_singleton]
      exact hchain hfirst
    | cons next rest =>
      have hrest : List.IsChain _ (anyOf (next :: rest)).toList :=
        hvalues ▸ ih fun x hx => h x (List.mem_cons_of_mem _ hx)
      have hhead : (anyOf (next :: rest)).toList.head? = some '.' := by
        simp only [anyOf, List.map_cons]
        cases rest with
        | nil => simp [typeCondition]
        | cons => simp [typeCondition]
      rw [String.intercalate_cons_of_ne_nil (by simp), ← anyOf, String.toList_append,
        String.toList_append]
      refine List.isChain_append.2 ⟨List.isChain_append.2 ⟨hchain hfirst, by decide, ?_⟩, hrest, ?_⟩
      · exact fun c hc c' _ hx => hfirst (hx.1 ▸ List.mem_of_getLast? hc)
      · rintro c - c' hc'
        obtain rfl := Option.some.inj (hhead.symm.trans hc')
        exact fun hx => absurd hx.2 (by decide)

/-- A list of conditions demands nothing besides. -/
theorem occursIn_anyOf (h : Unspaced values) :
    Text.occursIn " and ".toList (anyOf values).toList = false := by
  by_contra hoccurs
  obtain ⟨before, after, heq⟩ := Text.append_of_occursIn (Bool.of_not_eq_false hoccurs)
  have hchain := h.isChain_anyOf
  rw [heq, List.append_assoc, List.isChain_append] at hchain
  have hand : " and ".toList = [' ', 'a', 'n', 'd', ' '] := by decide
  rw [hand, List.cons_append, List.cons_append, List.isChain_cons_cons] at hchain
  exact hchain.2.1.1 ⟨rfl, rfl⟩

end Unspaced

/-- Conditions that are joined one by one are a list of conditions. -/
theorem foldl_anyOf {values : List String} (hne : values ≠ []) (more : List String) :
    (more.map typeCondition).foldl (fun e a => e ++ " or " ++ a) (anyOf values) =
      anyOf (values ++ more) := by
  induction more generalizing values with
  | nil => simp
  | cons value more ih =>
    have hstep : anyOf values ++ " or " ++ typeCondition value = anyOf (values ++ [value]) := by
      rw [anyOf, anyOf, List.map_append,
        String.intercalate_append_of_ne_nil (by simpa using hne) (by simp)]
      simp
    rw [List.map_cons, List.foldl_cons, hstep, ih (by simp), List.append_assoc]
    rfl

/-! What a bind lists. -/

namespace Bind

variable {b : Bind} {values : List String} {value : String}

/-- A bind is relevant for a value of `xsi:type`: it has no relevance, or lists the value. -/
def Concerns (b : Bind) (value : String) : Prop :=
  ∀ e ∈ b.relevant, typeCondition value ∈ Text.splitAt " or " e

/-- If a bind has relevance, it consists of values of `xsi:type`. -/
def Guarded (b : Bind) : Prop :=
  b.relevant = none ∨
    ∃ values, values ≠ [] ∧ Unspaced values ∧ b.relevant = some (anyOf values)

theorem concerns_of_none (h : b.relevant = none) (value : String) : b.Concerns value := by
  intro e he
  rw [h] at he
  cases he

theorem concerns_anyOf (hne : values ≠ []) (h : Unspaced values)
    (hb : b.relevant = some (anyOf values)) : b.Concerns value ↔ value ∈ values := by
  rw [Concerns, hb]
  simp only [Option.mem_def, Option.some.injEq, forall_eq', h.splitAt_anyOf hne]
  exact ⟨fun hm => (List.mem_map_of_injective typeCondition_injective).1 hm,
    fun hm => List.mem_map_of_mem hm⟩

/-- A bind without relevance becomes relevant for some values alone. -/
theorem guarded_addRelevance (hb : b.relevant = none) (hne : values ≠ []) (h : Unspaced values) :
    (b.addRelevance (String.intercalate " or " (values.map typeCondition))).Guarded ∧
      ∀ value, (b.addRelevance (String.intercalate " or " (values.map typeCondition))).Concerns
        value ↔ value ∈ values := by
  have hrelevant : (b.addRelevance (String.intercalate " or " (values.map typeCondition))).relevant
      = some (anyOf values) := by
    rw [addRelevance, hb]
    rfl
  exact ⟨.inr ⟨values, hne, h, hrelevant⟩, fun value => concerns_anyOf hne h hrelevant⟩

/-- A bind that has relevance becomes relevant for more values. -/
theorem Guarded.widenRelevance (hb : b.Guarded) (h : Unspaced values) :
    (b.widenRelevance (values.map typeCondition)).Guarded ∧
      ∀ value, (b.widenRelevance (values.map typeCondition)).Concerns value ↔
        b.Concerns value ∨ b.relevant ≠ none ∧ value ∈ values := by
  rcases hb with hb | ⟨old, hne, hold, hb⟩
  · have hsame : b.widenRelevance (values.map typeCondition) = b := by
      cases b
      simp_all [Bind.widenRelevance]
    rw [hsame]
    exact ⟨.inl hb, fun value => by simp [hb]⟩
  · let new := values.filter fun value => decide (value ∉ old)
    have hnew : Unspaced new := fun value hv => h value (List.mem_filter.1 hv).1
    have hmissing : missing (anyOf old) (values.map typeCondition) = new.map typeCondition := by
      rw [missing, hold.splitAt_anyOf hne, List.filter_map]
      congr 1
      apply List.filter_congr
      intro value _
      rw [Bool.eq_iff_iff]
      simp [typeCondition_injective.eq_iff]
    have hrelevant : (b.widenRelevance (values.map typeCondition)).relevant =
        some (anyOf (old ++ new)) := by
      rw [Bind.widenRelevance, hb, Option.map_some, widen, hmissing, hold.occursIn_anyOf,
        if_neg Bool.false_ne_true]
      refine congrArg some ?_
      split
      · next hnil =>
        rw [List.map_eq_nil_iff.1 hnil, List.append_nil]
      · exact foldl_anyOf hne new
    have hne' : old ++ new ≠ [] := by simp [hne]
    refine ⟨.inr ⟨_, hne', hold.append hnew, hrelevant⟩, fun value => ?_⟩
    rw [concerns_anyOf hne' (hold.append hnew) hrelevant, concerns_anyOf hne hold hb, hb]
    simp only [new, List.mem_append, List.mem_filter, decide_eq_true_eq]
    tauto

end Bind

/-! The values of `xsi:type`. -/

/-- The names of types are NCNames. -/
def Schema.TypesNamed (s : Schema) : Prop :=
  ∀ t ∈ s.types, ∀ name ∈ t.name?, IsNCName name.localName = true

namespace Generator

variable {g : Generator} {prefixes : PrefixTable} {t t' : TypeId} {value : String}

theorem typesNamed_name? (h : g.schema.TypesNamed) {name : QName}
    (hname : (g.schema.typeDef t).name? = some name) : IsNCName name.localName = true := by
  by_cases ht : t.index < g.schema.types.size
  · have hget : g.schema.typeDef t = g.schema.types[t.index] := by
      simp [Schema.typeDef, Array.getD, ht]
    rw [hget] at hname
    exact h _ (Array.getElem_mem ht) name hname
  · have hget : g.schema.typeDef t = .any := by
      simp [Schema.typeDef, Array.getD, ht]
    rw [hget] at hname
    obtain rfl := Option.some.inj hname
    decide +kernel

/-- A character that no name has, the colon apart, is not in what `xsi:type` says for a named
type. -/
theorem not_mem_typeText (h : g.schema.TypesNamed) (ht : prefixes.Apart) {name : QName}
    (hname : (g.schema.typeDef t).name? = some name) (htext : g.typeText prefixes t = some value)
    {c : Char} (hcolon : c ≠ ':') (hc : continuesNCName c = false) (hchar : PrefixTable.isNameChar c = false) :
    c ∉ value.toList := by
  simp only [typeText, hname] at htext
  exact ht.not_mem_textOf htext (IsNCName.not_mem (typesNamed_name? h hname) hc) hcolon hchar

theorem typeText_unspaced (h : g.schema.TypesNamed) (ht : prefixes.Apart)
    (htext : g.typeText prefixes t = some value) : ' ' ∉ value.toList := by
  cases hname : (g.schema.typeDef t).name? with
  | some name => exact not_mem_typeText h ht hname htext (by decide) (by decide) (by decide)
  | none =>
    simp only [typeText, hname, Schema.displayName, TypeDef.displayName] at htext
    obtain rfl := Option.some.inj htext
    decide

/-- What `xsi:type` says tells types apart whose names differ. -/
theorem typeText_injective (h : g.schema.TypesNamed) (ht : prefixes.Apart)
    (htext : g.typeText prefixes t = some value) (htext' : g.typeText prefixes t' = some value) :
    (g.schema.typeDef t).name? = (g.schema.typeDef t').name? := by
  have hanonymous {t t' : TypeId} (htext : g.typeText prefixes t = some value)
      (htext' : g.typeText prefixes t' = some value) {name : QName}
      (hname : (g.schema.typeDef t).name? = some name)
      (hname' : (g.schema.typeDef t').name? = none) : False := by
    have hnot := not_mem_typeText h ht hname htext (c := '(') (by decide) (by decide) (by decide)
    simp only [typeText, hname', Schema.displayName, TypeDef.displayName] at htext'
    obtain rfl := Option.some.inj htext'
    exact hnot (by decide)
  cases hname : (g.schema.typeDef t).name? with
  | none =>
    cases hname' : (g.schema.typeDef t').name? with
    | none => rfl
    | some name' => exact (hanonymous htext' htext hname' hname).elim
  | some name =>
    cases hname' : (g.schema.typeDef t').name? with
    | none => exact (hanonymous htext htext' hname hname').elim
    | some name' =>
      simp only [typeText, hname] at htext
      simp only [typeText, hname'] at htext'
      rw [ht.textOf_injective (IsNCName.not_mem (typesNamed_name? h hname) (by decide))
        (IsNCName.not_mem (typesNamed_name? h hname') (by decide)) htext htext']

/-- The conditions for some types are those that `xsi:type` says what it says for them. -/
theorem typeConditions_values (g : Generator) (ts : List TypeId) (s : Synthesis) :
    ∃ values, (g.typeConditions ts s).1 = values.map typeCondition ∧
      List.Forall₂ (fun t value => g.typeText (g.typeConditions ts s).2.prefixes t = some value) ts
        values := by
  induction ts generalizing s with
  | nil => exact ⟨[], rfl, .nil⟩
  | cons t ts ih =>
    obtain ⟨values, hvalues, htexts⟩ := ih (g.typeValue t s).2
    refine ⟨(g.typeValue t s).1 :: values, ?_, .cons ?_ htexts⟩
    · exact congrArg (List.cons _) hvalues
    · exact typeText_mono (Leading.typeConditions g ts _) (typeText_typeValue g t s)

end Generator

end SchemaForms
