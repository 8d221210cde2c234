import Mathlib.Data.List.DropRight
import SchemaForms.Proofs.Form.Beside
import SchemaForms.Proofs.Form.Enumeration
import SchemaForms.Proofs.Form.Switches

/-!
What the relevance of a bind looks at.  A path that begins with `..` starts from the path of the bind,
and there the type of the element around stands where this is the element of a switch; it does so
for all binds with relevance but those that are for a type themselves, which look at what they are
for.
-/

namespace SchemaForms

open Grove (ids tops at? erase bindTops)
open Forest (tree leaf)

/-- A path without its last step. -/
def pathAround (path : String) : String :=
  String.ofList (path.toList.rdropWhile (· ≠ '/')).dropLast

/-- What `../@xsi:type` stands for at a path. -/
def typeAround (path : String) : String := pathAround path ++ "/@xsi:type"

theorem pathAround_step (path : String) {step : String} (h : IsStep step) :
    pathAround (path ++ "/" ++ step) = path := by
  have hslash : "/".toList = ['/'] := by decide
  have hdrop : step.toList.reverse.dropWhile (· ≠ '/') = [] := by
    rw [List.dropWhile_eq_nil_iff]
    intro c hc
    have hne : c ≠ '/' := fun he => h (he ▸ List.mem_reverse.1 hc)
    simpa using hne
  rw [pathAround, List.rdropWhile, String.toList_append, String.toList_append, List.reverse_append,
    List.reverse_append, List.dropWhile_append, hdrop, hslash]
  simp

/-- A bind is for the type of an element in another one. -/
def Bind.TellsType (b : Bind) : Prop :=
  ∃ step, IsStep step ∧ step ≠ "" ∧ b.nodeset = step ++ "/@xsi:type"

/-- What a bind in the element of a switch may be for. -/
def Bind.IsInner (b : Bind) : Prop := b.nodeset ≠ "." ∧ (IsStep b.nodeset ∨ b.TellsType)

theorem Bind.IsInner.route_eq {b : Bind} (h : b.IsInner) (up : List String) :
    b.route up = up ++ [b.nodeset] := by
  have hrelative : ¬ b.nodeset.startsWith "/" = true := by
    rw [String.startsWith_string_iff]
    rintro ⟨rest, hrest⟩
    rcases h.2 with hstep | ⟨step, hstep, hempty, hb⟩
    · exact hstep (hrest ▸ by simp)
    · rw [hb, String.toList_append] at hrest
      cases hlist : step.toList with
      | nil => exact hempty (String.toList_injective hlist)
      | cons c cs =>
        rw [hlist] at hrest
        have hc : '/' = c := (List.cons.inj hrest).1
        rw [IsStep, hlist, ← hc] at hstep
        exact hstep List.mem_cons_self
  rw [route, if_neg hrelative, if_neg h.1]

theorem intercalate_concat {separator : String} (up : List String) (hup : up ≠ []) (last : String) :
    String.intercalate separator (up ++ [last]) =
      String.intercalate separator up ++ separator ++ last := by
  rw [String.intercalate_append_of_ne_nil hup (List.cons_ne_nil _ _), String.intercalate_singleton]

/-- The bind for the type of an element leads to the attribute of this element. -/
theorem route_tells {d e : Bind} (hempty : e.nodeset ≠ "") (hdot : e.nodeset ≠ ".")
    (hd : d.nodeset = e.nodeset ++ "/@xsi:type") (up : List String) :
    String.intercalate "/" (d.route up) = String.intercalate "/" (e.route up) ++ "/@xsi:type" := by
  have habsolute : d.nodeset.startsWith "/" = e.nodeset.startsWith "/" := by
    rw [Bool.eq_iff_iff, String.startsWith_string_iff, String.startsWith_string_iff, hd,
      String.toList_append]
    cases hlist : e.nodeset.toList with
    | nil => exact absurd (String.toList_injective hlist) hempty
    | cons c cs => simp [List.cons_prefix_cons]
  have hd' : d.nodeset ≠ "." := by
    intro he
    have hmem : '/' ∈ d.nodeset.toList := by simp [hd]
    rw [he] at hmem
    exact absurd hmem (by decide)
  rw [Bind.route, Bind.route, habsolute, if_neg hd', if_neg hdot, hd]
  generalize (if e.nodeset.startsWith "/" = true then [] else up) = before
  cases before with
  | nil => simp
  | cons first before =>
    rw [intercalate_concat _ (List.cons_ne_nil _ _), intercalate_concat _ (List.cons_ne_nil _ _)]
    simp only [String.append_assoc]

namespace Tree

/-- `d` is the bind for the type of an element, and `e` that of the element itself. -/
structure TypedBy (t : Tree) (e d : NodeId) : Prop where
  beside : t.parent d = t.parent e
  path : ∃ path, t.absolutePath e = some path ∧ t.absolutePath d = some (path ++ "/@xsi:type")

/-- A bind is in the element of a switch. -/
def Watched (t : Tree) (x : NodeId) (b : Bind) : Prop :=
  b.IsInner ∧ ∃ e d path, t.parent x = some e ∧ t.TypedBy e d ∧ t.absolutePath e = some path ∧
    t.absolutePath x = some (path ++ "/" ++ b.nodeset)

/-- A row of binds, for nodesets of some kind, stands in the element of a switch. -/
structure Inside (t : Tree) (S : String → Prop) (parent : Option NodeId) (up : List String) : Prop where
  steps : ∀ x, S x → IsStep x
  below : up ≠ []
  typed : ∃ e d, parent = some e ∧ t.TypedBy e d ∧
    t.absolutePath e = some (String.intercalate "/" up)

section Watched

variable {t : Tree} {S : String → Prop} {guarded : Bool} {parent : Option NodeId}
  {up : List String} {k : Nat}

theorem Inside.watched (h : t.Inside S parent up) {a : NodeId × NodeKind} {below after : Grove}
    (hlinks : t.Links parent (.cons a below after))
    (hup : ∀ m, (t.pathUp (k + m) parent).reverse = up) (hk : k < t.size) {b : Bind}
    (ha : a.2.bind? = some b) (hb : b.IsInner) : t.Watched a.1 b := by
  obtain ⟨e, d, hparent, htyped, hpath⟩ := h.typed
  refine ⟨hb, e, d, _, ?_, htyped, hpath, ?_⟩
  · rw [Tree.parent, hlinks.1, hparent]
  · rw [hlinks.absolutePath_eq hup hk ha, hb.route_eq, intercalate_concat _ h.below]

/-- Where binds stand in rows, those with relevance are in the element of a switch. -/
theorem Links.watched {f : Grove} (hrow : Row (fun a => a.2.bind?) S guarded f)
    (h : t.Links parent f) (hup : ∀ m, (t.pathUp (k + m) parent).reverse = up)
    (hk : k + (ids f).length ≤ t.size) (hguarded : guarded = true → t.Inside S parent up) :
    ∀ x ∈ ids f, ∀ b, t.bind? x = some b → b.relevant ≠ none → t.Watched x b := by
  induction hrow generalizing parent up k with
  | nil => exact fun x hx => absurd hx List.not_mem_nil
  | @other S guarded a below after ha _ _ ihb iha =>
    obtain ⟨hnode, hb, hr⟩ := h
    rw [Grove.ids_cons, List.length_cons, List.length_append] at hk
    have hbind : t.bind? a.1 = none := by rw [Tree.bind?, Tree.kind, hnode, ha]
    have hself : ∀ m, (t.pathUp (k + 1 + m) (some a.1)).reverse = [] := fun m => by
      rw [show k + 1 + m = (k + m) + 1 by omega, pathUp, hbind]
      rfl
    intro x hx
    rw [Grove.ids_cons, List.mem_cons, List.mem_append] at hx
    rcases hx with rfl | hx | hx
    · intro b hb'
      rw [hbind] at hb'
      cases hb'
    · exact ihb hb hself (by omega) (fun hf => absurd hf Bool.false_ne_true) x hx
    · exact iha hr hup (by omega) hguarded x hx
  | @single S guarded a b below after ha hnodeset hspared _ _ ihb iha =>
    have hlinks := h
    obtain ⟨hnode, hb, hr⟩ := h
    rw [Grove.ids_cons, List.length_cons, List.length_append] at hk
    have hbind : t.bind? a.1 = some b := by rw [Tree.bind?, Tree.kind, hnode, ha]
    intro x hx
    rw [Grove.ids_cons, List.mem_cons, List.mem_append] at hx
    rcases hx with rfl | hx | hx
    · intro b' hb' hrelevant
      obtain rfl := Option.some.inj (hbind.symm.trans hb')
      obtain ⟨htrue, hdot⟩ := hspared.resolve_left hrelevant
      have hin := hguarded htrue
      exact hin.watched hlinks hup (by omega) ha
        ⟨hdot, .inl (hin.steps _ (hnodeset.resolve_left hdot))⟩
    · exact ihb hb (hlinks.pathUp_eq hup ha) (by omega) (fun hf => absurd hf Bool.false_ne_true) x hx
    · exact iha hr hup (by omega) hguarded x hx
  | @switch S guarded a d a' e below after ha ha' hnodeset hempty hdot htells hd he _ _ ihb iha =>
    have hlinks := h
    obtain ⟨hnode, -, hlinks'⟩ := h
    have hrest := hlinks'
    obtain ⟨hnode', hb, hr⟩ := hrest
    simp only [Grove.ids_cons, Grove.ids_nil, List.nil_append, List.length_cons,
      List.length_append] at hk
    have hbind : t.bind? a.1 = some d := by rw [Tree.bind?, Tree.kind, hnode, ha]
    have hbind' : t.bind? a'.1 = some e := by rw [Tree.bind?, Tree.kind, hnode', ha']
    have hpath := hlinks'.absolutePath_eq hup (by omega) ha'
    have htyped : t.TypedBy a'.1 a.1 := by
      refine ⟨?_, _, hpath, ?_⟩
      · rw [Tree.parent, Tree.parent, hnode, hnode']
      · rw [hlinks.absolutePath_eq hup (by omega) ha, route_tells hempty hdot htells]
    have hroute : e.route up ≠ [] := by simp [Bind.route, hdot]
    intro x hx
    simp only [Grove.ids_cons, Grove.ids_nil, List.nil_append, List.mem_cons, List.mem_append] at hx
    rcases hx with rfl | rfl | hx | hx
    · intro b hb' hrelevant
      obtain rfl := Option.some.inj (hbind.symm.trans hb')
      obtain ⟨htrue, hne⟩ := hd.resolve_left hrelevant
      have hin := hguarded htrue
      exact hin.watched hlinks hup (by omega) ha
        ⟨hne, .inr ⟨e.nodeset, hin.steps _ hnodeset, hempty, htells⟩⟩
    · intro b hb' hrelevant
      obtain rfl := Option.some.inj (hbind'.symm.trans hb')
      obtain ⟨htrue, hne⟩ := he.resolve_left hrelevant
      have hin := hguarded htrue
      exact hin.watched hlinks' hup (by omega) ha' ⟨hne, .inl (hin.steps _ hnodeset)⟩
    · exact ihb hb (hlinks'.pathUp_eq hup ha') (by omega)
        (fun _ => ⟨fun _ => id, hroute, _, _, rfl, htyped, hpath⟩) x hx
    · exact iha hr hup (by omega) hguarded x hx

end Watched

end Tree

/-! The rows of a form. -/

namespace Row

variable {α β : Type} {bind? : α → Option Bind} {S : String → Prop} {guarded : Bool}

/-- Where there are no binds at the top, it does not matter what a row is in. -/
theorem unguarded {f : Forest α} (h : Row bind? S guarded f) (hroots : ∀ a ∈ f.roots, bind? a = none) :
    Row bind? S false f := by
  induction h with
  | nil => exact .nil
  | other ha inner _ _ ih =>
    exact .other ha inner (ih fun x hx => hroots x (List.mem_cons_of_mem _ hx))
  | single ha => cases ha.symm.trans (hroots _ List.mem_cons_self)
  | switch ha => cases ha.symm.trans (hroots _ List.mem_cons_self)

theorem cons_of_none {a : α} {below after : Forest α} (h : Row bind? S guarded (.cons a below after))
    (ha : bind? a = none) : Row bind? S false below ∧ Row bind? S guarded after := by
  cases h with
  | other _ inner rest => exact ⟨inner, rest⟩
  | single hb => cases hb.symm.trans ha
  | switch hb => cases hb.symm.trans ha

/-- A row behind nodes that are no binds. -/
theorem split {f f' : Forest α} (h : Row bind? S guarded (f ++ f'))
    (hroots : ∀ a ∈ f.roots, bind? a = none) : Row bind? S guarded f ∧ Row bind? S guarded f' := by
  induction f with
  | nil => exact ⟨.nil, h⟩
  | cons a below after _ ih =>
    have ha := hroots a List.mem_cons_self
    obtain ⟨inner, rest⟩ := cons_of_none h ha
    obtain ⟨hf, hf'⟩ := ih rest fun x hx => hroots x (List.mem_cons_of_mem _ hx)
    exact ⟨.other ha inner hf, hf'⟩

theorem of_map {bind? : β → Option Bind} {h : α → β} {f : Forest α}
    (hf : Row bind? S guarded (f.map h)) : Row (fun a => bind? (h a)) S guarded f := by
  generalize he : f.map h = f' at hf
  induction hf generalizing f with
  | nil =>
    cases f with
    | nil => exact .nil
    | cons => cases he
  | other ha _ _ ihb iha =>
    cases f with
    | nil => cases he
    | cons =>
      injection he with ha' hb' hr'
      exact .other (ha' ▸ ha) (ihb hb') (iha hr')
  | single ha hnodeset hb _ _ ihb iha =>
    cases f with
    | nil => cases he
    | cons =>
      injection he with ha' hb' hr'
      exact .single (ha' ▸ ha) hnodeset hb (ihb hb') (iha hr')
  | switch ha ha' hnodeset hempty hdot htells hd he' _ _ ihb iha =>
    cases f with
    | nil => cases he
    | cons _ below after =>
      injection he with hfirst hnil hmore
      cases after with
      | nil => cases hmore
      | cons =>
        injection hmore with hsecond hb' hr'
        cases below with
        | nil =>
          exact .switch (hfirst ▸ ha) (hsecond ▸ ha') hnodeset hempty hdot htells hd he' (ihb hb')
            (iha hr')
        | cons => cases hnil

end Row

namespace Grove

variable {S : String → Prop} {guarded : Bool} {f : Grove}

/-- Under a top without binds, leaving out the markup does not bring binds to the top. -/
theorem bind?_roots_erase (htidy : ∀ p ∈ f.parts, p.1.2.isMarkup → bindTops p.2 = [])
    (htops : bindTops f = []) : ∀ k ∈ (erase f).roots, k.bind? = none := by
  induction f with
  | nil => exact fun k hk => absurd hk List.not_mem_nil
  | cons a b r ihb ihr =>
    simp only [Forest.parts, List.mem_cons, List.mem_append] at htidy
    rw [bindTops, List.filterMap_eq_nil_iff] at htops
    have hr : bindTops r = [] :=
      List.filterMap_eq_nil_iff.2 fun x hx => htops x (List.mem_cons_of_mem _ hx)
    have hrest := ihr (fun p hp => htidy p (.inr (.inr hp))) hr
    intro k hk
    rw [erase] at hk
    split at hk
    · next hmarkup =>
      rw [Forest.roots_append, List.mem_append] at hk
      rcases hk with hk | hk
      · exact ihb (fun p hp => htidy p (.inr (.inl hp))) (htidy (a, b) (.inl rfl) hmarkup) k hk
      · exact hrest k hk
    · rcases List.mem_cons.1 hk with rfl | hk
      · exact htops a List.mem_cons_self
      · exact hrest k hk

/-- A grove has the rows that are seen without its markup. -/
theorem row_of_erase (htidy : ∀ p ∈ f.parts,
      bindTops p.2 = [] ∧ (p.1.2.isMarkup ∨ ∀ a ∈ p.2.labels, a.2.bind? = none) ∨
        ¬ p.1.2.isMarkup ∧ ∀ a ∈ p.2.labels, ¬ a.2.isMarkup)
    (htops : bindTops f = []) (h : Row NodeKind.bind? S guarded (erase f)) :
    Row (fun a => a.2.bind?) S guarded f := by
  induction f generalizing guarded with
  | nil => exact .nil
  | cons a b r ihb ihr =>
    have hmarked : ∀ p ∈ b.parts, p.1.2.isMarkup → bindTops p.2 = [] := fun p hp hm =>
      ((htidy p (by simp [Forest.parts, hp])).resolve_right fun hn => hn.1 hm).1
    have hself := htidy (a, b) (by simp [Forest.parts])
    rw [bindTops, List.filterMap_eq_nil_iff] at htops
    have hnone : a.2.bind? = none := htops a List.mem_cons_self
    have hr : bindTops r = [] :=
      List.filterMap_eq_nil_iff.2 fun x hx => htops x (List.mem_cons_of_mem _ hx)
    have hrest {guarded : Bool} (h : Row NodeKind.bind? S guarded (erase r)) :=
      ihr (fun p hp => htidy p (by simp [Forest.parts, hp])) hr h
    have hbelow (h : bindTops b = []) (h' : Row NodeKind.bind? S false (erase b)) :=
      ihb (fun p hp => htidy p (by simp [Forest.parts, hp])) h h'
    rw [erase] at h
    split at h
    · next hmarkup =>
      have hb := (hself.resolve_right fun hn => hn.1 hmarkup).1
      have hroots := bind?_roots_erase hmarked hb
      obtain ⟨hfirst, hafter⟩ := h.split hroots
      exact .other hnone (hbelow hb (hfirst.unguarded hroots)) (hrest hafter)
    · next hmarkup =>
      obtain ⟨inner, rest⟩ := Row.cons_of_none h hnone
      refine .other hnone ?_ (hrest rest)
      rcases hself with ⟨-, hmarkup' | hbinds⟩ | ⟨-, hbare⟩
      · exact absurd hmarkup' hmarkup
      · exact .of_no_binds hbinds
      · rw [erase_eq_map hbare] at inner
        exact inner.of_map

end Grove

/-- The binds of a form stand in rows below its model. -/
theorem Drawing.row {d : Drawing} {S : String → Prop} (h : Row some S false (Kid.forest d.binds))
    (hcontrols : ∀ k ∈ d.controls.labels, k.bind? = none) (r : Request) (root : Option Xml.Element) :
    Row NodeKind.bind? S false (d.forest r root) := by
  have hleaf {k : NodeKind} (hk : k.bind? = none) : Row NodeKind.bind? S false (leaf k) :=
    .other hk .nil .nil
  have hbinds : Row NodeKind.bind? S false ((Kid.forest d.binds).map NodeKind.bind) := Row.map h
  exact .append (.other rfl (((hleaf rfl).append hbinds).append (hleaf rfl)) .nil)
    ((Row.of_no_binds hcontrols).append (hleaf rfl))

namespace Generator

variable {g : Generator}

/-- What a form is filled with stands in rows. -/
theorem row_filled (hg : g.schema.NCNamed) (root : ElementId) :
    let named := Synthesis.qualified (g.schema.element root).name Synthesis.initial
    let drawn := Sketch.form g root named.1.1 named.1.2 named.2
    Row some (· = "/" ++ named.1.2) false (Kid.forest drawn.1.binds) := by
  intro named drawn
  have hslash : '/' ∈ ("/" ++ named.1.2).toList := by simp
  have hpath : ¬ g.Plain root → "/" ++ named.1.2 ≠ "" ∧ "/" ++ named.1.2 ≠ "." := fun _ =>
    ⟨fun h => absurd (h ▸ hslash) (by decide), fun h => absurd (h ▸ hslash) (by decide)⟩
  have hapart := (Calm.qualified (g.schema.element root).name .initial).prefixes.apart
    PrefixTable.apart_empty
  exact (Sketch.aligns_element hg (g.schema.elements.size + 1) (· = "/" ++ named.1.2) false
    (prepareRoot (bareInstance (g.schema.element root) named.1.1)) root ("/" ++ named.1.2) .once rfl
    hpath {} (Sketch.opened named.2) .nil hapart).1

/-- The relevance of a bind reads the type of the element around: wherever a bind of a form has
relevance, it is in the element of a switch, and `../@xsi:type` leads from its path to the type of
this element, unless it is a bind for the type of an element itself; from there it leads back to
the bind.  The names in the schema have to be NCNames. -/
theorem relevance_reads_type_around (s : Schema) (settings : Settings) (hs : s.NCNamed) {l : Layout}
    (hl : l.Standard) {time : String} {r : Request} {form : Form}
    (h : (ofSchema s settings (some l)).generate time r = .ok form) {x : NodeId} {b : Bind}
    (hx : x ∈ form.tree.binds) (hb : form.tree.bind? x = some b) (hrelevant : b.relevant ≠ none) :
    ∃ e d path, form.tree.parent x = some e ∧ form.tree.TypedBy e d ∧
      form.tree.absolutePath x = some path ∧
      (¬ b.TellsType → form.tree.absolutePath d = some (typeAround path)) ∧
      (b.TellsType → path = typeAround path) := by
  let g := ofSchema s settings (some l)
  obtain ⟨root, f, -, hshows, htidy, hnodes, -⟩ := generate_shows hl rfl h
  let named := Synthesis.qualified (s.element root).name Synthesis.initial
  let drawn := Sketch.form g root named.1.1 named.1.2 named.2
  have hcontrols : ∀ k ∈ drawn.1.controls.labels, k.bind? = none := by
    intro k hk
    obtain ⟨c, rfl, -⟩ := (linked_filled (g := g) root named.1.1 named.1.2
      (clean_named (s.element root).name)).titled k hk
    rfl
  have hrow : Row NodeKind.bind? (· = "/" ++ named.1.2) false (erase f) := by
    rw [hnodes]
    exact Drawing.row (row_filled (g := g) hs root) hcontrols r _
  have htops : bindTops f = [] := by
    obtain ⟨⟨top, k⟩, below, rfl, -⟩ := hshows.root
    cases k with
    | bind b => cases (congrArg Forest.roots hnodes)
    | _ => rfl
  have hparts := Grove.row_of_erase (fun p hp => htidy _ _ _ (Grove.at?_of_mem hshows.nodup hp)) htops hrow
  have hlength : 0 + (ids f).length ≤ form.tree.size := (Nat.zero_add _).symm ▸ hshows.length_le
  have htop (m : Nat) : (form.tree.pathUp (0 + m) none).reverse = [] := by cases m <;> rfl
  obtain ⟨hinner, e, d, path, hparent, htyped, he, hpath⟩ := hshows.links.watched hparts
    htop hlength (fun h => absurd h Bool.false_ne_true)
    x (hshows.walk ▸ (List.mem_filter.1 hx).1) b hb hrelevant
  refine ⟨e, d, _, hparent, htyped, hpath, fun hother => ?_, fun ⟨step, hstep, _, htells⟩ => ?_⟩
  · obtain ⟨path', he', hd⟩ := htyped.path
    obtain rfl := Option.some.inj (he.symm.trans he')
    rw [typeAround, pathAround_step path (hinner.2.resolve_right hother)]
    exact hd
  · have hlast : '/' ∉ "@xsi:type".toList := by decide
    have hslash : "/@xsi:type" = "/" ++ "@xsi:type" := by decide
    have hwhole : path ++ "/" ++ b.nodeset = path ++ "/" ++ step ++ "/" ++ "@xsi:type" := by
      rw [htells, hslash, String.append_assoc, String.append_assoc, String.append_assoc,
        String.append_assoc]
    rw [hwhole, typeAround, pathAround_step _ hlast, hslash, String.append_assoc]

/-- A schema in which a type adds a child that has several types itself. -/
def steering : Schema :=
  let base : TypeId := ⟨Schema.builtinCount⟩
  let child : TypeId := ⟨Schema.builtinCount + 2⟩
  { target := none
    types := (Schema.empty none).types ++
      #[.complex { name := some ⟨none, "B"⟩ },
        .complex
          { name := some ⟨none, "D"⟩, base := some base, derivation := .extension
            particle := some (.sequence [.element .once ⟨1⟩]) },
        .complex { name := some ⟨none, "X"⟩ },
        .complex { name := some ⟨none, "Y"⟩, base := some child, derivation := .extension }]
    elements := #[{ name := ⟨none, "r"⟩, type := some base },
      { name := ⟨none, "c"⟩, type := some child }]
    uses := #[]
    typeNames := (Schema.empty none).typeNames
    elementNames := Table.empty.put ⟨none, "r"⟩ ⟨0⟩ }

theorem substitutes_steering : Substitutes.ofSchema steering =
    ⟨⟨[(⟨Schema.builtinCount⟩, [⟨Schema.builtinCount + 1⟩]),
      (⟨Schema.builtinCount + 2⟩, [⟨Schema.builtinCount + 3⟩])]⟩⟩ := by
  have htable : steering.namedTypes.foldl (fun table id =>
      Substitutes.ascend steering table []
        (steering.chain (Substitutes.parent steering) id)) Table.empty =
      ⟨[(⟨Schema.builtinCount⟩, [⟨Schema.builtinCount + 1⟩]),
        (⟨Schema.builtinCount + 2⟩, [⟨Schema.builtinCount + 3⟩])]⟩ := by
    decide +kernel
  rw [Substitutes.ofSchema, htable]
  simp [Substitutes.sortByDepth]

theorem findElement_steering :
    steering.findElement (QName.of steering.target "r") = some ⟨0⟩ := by
  simp [steering, Schema.findElement, QName.of]

/-- Both binds of the child are relevant for the type that adds it. -/
theorem relevant_steering {form : Form}
    (h : (ofSchema steering {} (some .plain)).generate "" { root := "r" } = .ok form) :
    form.binds.map (·.relevant) =
      [none, none, some "../@xsi:type='D'", some "../@xsi:type='D'"] := by
  obtain ⟨-, f, -, hshows, -⟩ := generate_shows .plain rfl h
  have hsubstance := generate_substance (g := ofSchema steering {} (some .plain)) .plain rfl ""
    { root := "r" }
  have hsketched : ((ofSchema steering {} (some .plain)).sketched "" { root := "r" }).toOption.any
      (fun s => (s.nodes.labels.filterMap NodeKind.bind?).map (·.relevant) =
        [none, none, some "../@xsi:type='D'", some "../@xsi:type='D'"]) = true := by
    rw [ofSchema, substitutes_steering]
    decide +kernel
  rw [← hsubstance, h] at hsketched
  rw [Form.binds_eq hshows]
  exact of_decide_eq_true hsketched

theorem relevance_reads_type_around_steering :
    ∃ form, (ofSchema steering {} (some .plain)).generate "" { root := "r" } = .ok form ∧
      ∃ x ∈ form.tree.binds, ∃ b, form.tree.bind? x = some b ∧ b.relevant ≠ none ∧
        ∃ e d path, form.tree.parent x = some e ∧ form.tree.TypedBy e d ∧
          form.tree.absolutePath x = some path ∧
          (¬ b.TellsType → form.tree.absolutePath d = some (typeAround path)) ∧
          (b.TellsType → path = typeAround path) := by
  have hnames : steering.elements.toList.all fun decl => IsNCName decl.name.localName := by decide
  have hnamed : steering.NCNamed :=
    ⟨fun decl hdecl => List.all_eq_true.1 hnames decl (by simpa using hdecl),
      fun use huse => absurd huse (by simp [steering])⟩
  obtain ⟨form, hform⟩ := generate_isOk (ofSchema steering {} (some .plain)) ""
    (r := { root := "r" }) findElement_steering rfl
  have hmem : some "../@xsi:type='D'" ∈ form.binds.map (·.relevant) := by
    rw [relevant_steering hform]
    decide
  obtain ⟨b, hb, hrelevant⟩ := List.mem_map.1 hmem
  obtain ⟨x, hx, hbind⟩ := List.mem_filterMap.1 hb
  have hsome : b.relevant ≠ none := by simp [hrelevant]
  exact ⟨form, hform, x, hx, b, hbind, hsome,
    relevance_reads_type_around steering {} hnamed .plain hform hx hbind hsome⟩

/-- The relevance of the bind for the type of the child reads this bind, not that for the type of
the element around. -/
theorem relevance_reads_itself : ∃ form,
    (ofSchema steering {} (some .plain)).generate "" { root := "r" } = .ok form ∧
      form.binds.map (·.relevant) =
        [none, none, some "../@xsi:type='D'", some "../@xsi:type='D'"] ∧
      form.tree.binds.map form.tree.absolutePath =
        [some "/r/@xsi:type", some "/r", some "/r/c/@xsi:type", some "/r/c"] ∧
      typeAround "/r/c/@xsi:type" = "/r/c/@xsi:type" := by
  obtain ⟨form, hform⟩ := generate_isOk (ofSchema steering {} (some .plain)) ""
    (r := { root := "r" }) findElement_steering rfl
  have hnodesets :
      let named := Synthesis.qualified (steering.element ⟨0⟩).name Synthesis.initial
      (Sketch.filled (ofSchema steering {} (some .plain)) ⟨0⟩ named.1.1 named.1.2
        named.2).1.nodesets =
        leaf "/r/@xsi:type" ++ tree "/r" (leaf "c/@xsi:type" ++ leaf "c") := by
    rw [ofSchema, substitutes_steering]
    decide +kernel
  refine ⟨form, hform, relevant_steering hform, ?_, by decide⟩
  rw [generate_paths .plain rfl hform findElement_steering hnodesets
    (by simp [tree, leaf, Forest.roots])]
  simp [tree, leaf, Forest.paths, pathInto]

end Generator

end SchemaForms
