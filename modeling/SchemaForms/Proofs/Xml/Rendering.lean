import SchemaForms.Proofs.Xml.Lexing

/-!
Rendering: pieces of markup render elements if reading the pieces adds the elements, wherever they
stand.  Tags that are read back with what encloses them render one element.
-/

namespace SchemaForms.Xml

open Utf8 (Bytes bytes)

/-! Text. -/

theorem isBlank_of_isSpace {c : Char} (h : isSpace c = true) : Text.isBlank c = true := by
  simp only [isSpace, Bool.or_eq_true, beq_iff_eq] at h
  rcases h with ((rfl | rfl) | rfl) | rfl <;> decide

/-- White space at the ends does not matter for whether there is anything else. -/
theorem all_isBlank_trimSpace (cs : List Char) :
    (trimSpace cs).all Text.isBlank = cs.all Text.isBlank := by
  have hdrop (cs : List Char) : (cs.dropWhile isSpace).all Text.isBlank = cs.all Text.isBlank := by
    induction cs with
    | nil => rfl
    | cons c cs ih =>
      cases hc : isSpace c with
      | true => rw [List.dropWhile_cons_of_pos hc, ih, List.all_cons, isBlank_of_isSpace hc, Bool.true_and]
      | false => rw [List.dropWhile_cons_of_neg (by simp [hc])]
  rw [trimSpace, trimSpaceEnd, List.all_reverse, hdrop, List.all_reverse, hdrop]

/-- What is read of a text. -/
def readText (s : String) : Option String :=
  if s.toList.all Text.isBlank then none else some (String.ofList (trimSpace s.toList))

namespace Reading

theorem run_step {r r' : Reading} {t : Token} (h : r.step t = .ok r') (ts : List Token) :
    r.run (t :: ts) = r'.run ts := by
  rw [run, h]

@[simp] theorem scope_finish (r : Reading) (e : Element) : (r.finish e).scope = r.scope := by
  obtain ⟨stack, root⟩ := r
  cases stack <;> rfl

theorem finish_children (name : Bytes) (e : Element) (rest : List (Bytes × Element))
    (root : Option Element) (es : List Element) :
    es.foldl finish ⟨(name, e) :: rest, root⟩ =
      ⟨(name, { e with children := e.children ++ es }) :: rest, root⟩ := by
  induction es generalizing e with
  | nil =>
    cases e
    simp
  | cons c es ih =>
    rw [List.foldl_cons]
    exact (ih (e.addChild c)).trans (by simp [Element.addChild])

/-- A text behind the tag of an element without text becomes its text. -/
theorem run_text {name : Bytes} {e : Element} (he : e.text = none) (rest : List (Bytes × Element))
    (root : Option Element) (s : String) (ts : List Token) :
    run ⟨(name, e) :: rest, root⟩ ((Piece.text s).tokens ++ ts) =
      run ⟨(name, { e with text := readText s }) :: rest, root⟩ ts := by
  have hsame (h : s.toList.all Text.isBlank = true) : { e with text := readText s } = e := by
    cases e
    rw [readText, if_pos h]
    exact congrArg (Element.mk _ _ _ · _ _ _) he.symm
  rw [Piece.tokens]
  split
  · next hspace =>
    have hblank : s.toList.all Text.isBlank = true := by
      rw [← all_isBlank_trimSpace, trimSpace, hspace]
      rfl
    rw [hsame hblank]
    rfl
  · refine run_step ?_ ts
    have hstep : step ⟨(name, e) :: rest, root⟩ (.text (bytes (escapeChars (trimSpace s.toList)))) =
        .ok (addText ⟨(name, e) :: rest, root⟩ (String.ofList (trimSpace s.toList))) := by
      rw [step, textOf_escaped]
      rfl
    rw [hstep, addText, String.toList_ofList, all_isBlank_trimSpace]
    cases hblank : s.toList.all Text.isBlank with
    | true => rw [hsame hblank]; rfl
    | false => simp [readText, hblank, Element.addText, he]

end Reading

/-! Tags. -/

/-- A tag that is read as it is written. -/
structure LegibleTag (name : String) (attributes : List (String × String)) : Prop where
  name : IsTagName name.toList
  keys : ∀ a ∈ attributes, IsTagKey a.1.toList
  distinct : (attributes.map (·.1)).Nodup

theorem LegibleTag.elementOf_eq {name : String} {attributes : List (String × String)}
    (h : LegibleTag name attributes) {outer : Scope} {e : Element}
    (hbegins : Begins outer name attributes e) :
    elementOf outer (bytes name.toList) (bytes (attributeText attributes)) = .ok e :=
  elementOf_eq_ok.2 ⟨name, attributes, Utf8.decode_bytes _,
    attributesOf_written h.keys h.distinct fun _ _ => List.not_mem_nil, hbegins⟩

/-! Pieces. -/

/-- No text stands at an end, nor behind another one. -/
structure Apart (ps : List Piece) : Prop where
  first : ∀ p, ps.head? = some p → p.isText = false
  last : ∀ p, ps.getLast? = some p → p.isText = false
  chain : ps.IsChain fun p q => p.isText = false ∨ q.isText = false

namespace Apart

variable {ps qs : List Piece} {p : Piece}

theorem nil : Apart [] where
  first _ h := by cases h
  last _ h := by cases h
  chain := .nil

theorem single (h : p.isText = false) : Apart [p] where
  first q hq := by
    cases hq
    exact h
  last q hq := by
    cases hq
    exact h
  chain := .singleton p

theorem append (hp : Apart ps) (hq : Apart qs) : Apart (ps ++ qs) where
  first p h := by
    rw [List.head?_append] at h
    cases hhead : ps.head? with
    | none =>
      rw [hhead, Option.none_or] at h
      exact hq.first p h
    | some q =>
      rw [hhead, Option.some_or] at h
      exact hp.first p (hhead.trans h)
  last p h := by
    rw [List.getLast?_append] at h
    cases hlast : qs.getLast? with
    | none =>
      rw [hlast, Option.none_or] at h
      exact hp.last p h
    | some q =>
      rw [hlast, Option.some_or] at h
      exact hq.last p (hlast.trans h)
  chain := List.isChain_append.2
    ⟨hp.chain, hq.chain, fun p h _ _ => .inl (hp.last p h)⟩

/-- Text may stand behind a piece. -/
theorem text (h : p.isText = false) (s : String) (hq : Apart qs) (hne : qs ≠ []) :
    Apart (p :: .text s :: qs) where
  first q hq := by
    cases hq
    exact h
  last q hlast := by
    rw [List.getLast?_cons_cons, List.getLast?_cons_of_ne_nil hne] at hlast
    exact hq.last q hlast
  chain := by
    refine .cons_cons (.inl h) (List.isChain_cons.2 ⟨fun q hhead => ?_, hq.chain⟩)
    exact .inr (hq.first q hhead)

end Apart

/-- A document is read as its pieces are, however they are written. -/
theorem readString_written {ps : List Piece} {cs : List Char} (h : Written ps cs)
    (hlegible : ∀ p ∈ ps, p.Legible) (hapart : Apart ps) :
    readString (String.ofList cs) = (do
      let r ← Reading.initial.run (ps.flatMap Piece.tokens)
      if r.stack.isEmpty then return r.root else throw (.xml .unexpectedEnd)) := by
  have hmark : Utf8.dropMark (bytes cs) = bytes cs := by
    obtain ⟨gap, tail, rfl, hgap, hstart⟩ := h.start hlegible hapart.first
    cases gap with
    | nil =>
      rcases hstart with hnil | ⟨bs, hless⟩
      · rw [List.nil_append, hnil]
        rfl
      · rw [List.nil_append, hless]
        rfl
    | cons c gap =>
      have hc := hgap c (List.mem_cons_self ..)
      simp only [isSpace, Bool.or_eq_true, beq_iff_eq] at hc
      rcases hc with ((rfl | rfl) | rfl) | rfl <;> rfl
  rw [readString, readBytes, Utf8.encode_eq, String.toList_ofList, hmark,
    tokens_written h hlegible hapart.chain]

/-- In a scope, what is written of the pieces is read as the elements. -/
structure Renders (scope : Scope) (ps : List Piece) (es : List Element) : Prop where
  legible : ∀ p ∈ ps, p.Legible
  apart : Apart ps
  run : ∀ r : Reading, r.scope = scope → ∀ ts,
    r.run (ps.flatMap Piece.tokens ++ ts) = (es.foldl Reading.finish r).run ts

namespace Renders

variable {outer : Scope} {ps ps' : List Piece} {es es' : List Element} {e : Element}

theorem nil : Renders outer [] [] where
  legible _ h := absurd h List.not_mem_nil
  apart := .nil
  run _ _ _ := rfl

theorem append (h : Renders outer ps es) (h' : Renders outer ps' es') :
    Renders outer (ps ++ ps') (es ++ es') where
  legible p hp := (List.mem_append.1 hp).elim (h.legible p) (h'.legible p)
  apart := h.apart.append h'.apart
  run r hr ts := by
    have hscope : (es.foldl Reading.finish r).scope = outer := by
      clear h
      induction es generalizing r with
      | nil => exact hr
      | cons e es ih => exact ih (r.finish e) ((r.scope_finish e).trans hr)
    rw [List.flatMap_append, List.append_assoc, h.run r hr, h'.run _ hscope, List.foldl_append]

/-- Pieces without meaning render nothing. -/
theorem ignored {p : Piece} (hlegible : p.Legible) (hp : p.tokens = [.ignored])
    (htext : p.isText = false) : Renders outer [p] [] where
  legible q hq := by
    rw [List.mem_singleton.1 hq]
    exact hlegible
  apart := .single htext
  run r _ ts := by
    rw [List.flatMap_singleton, hp]
    rfl

/-- A tag around a text and pieces, and its end. -/
def enclose (name : String) (attributes : List (String × String)) (text : Option String)
    (ps : List Piece) : List Piece :=
  .opening name attributes :: (text.elim [] fun t => [.text t]) ++ ps ++ [.closing name]

theorem apart_enclose (name : String) (attributes : List (String × String)) (text : Option String)
    (h : Apart ps) : Apart (enclose name attributes text ps) := by
  have hrest : Apart (ps ++ [.closing name]) := h.append (.single rfl)
  cases text with
  | none =>
    have hopening : Apart [.opening name attributes] := .single rfl
    exact hopening.append hrest
  | some t => exact Apart.text (p := .opening name attributes) rfl t hrest (by simp)

section Tags

variable {name : String} {attributes : List (String × String)} (h : LegibleTag name attributes)
  (hbegins : Begins outer name attributes e)

include h hbegins

theorem empty : Renders outer [.empty name attributes] [e] where
  legible p hp := by
    rw [List.mem_singleton.1 hp]
    exact ⟨h.name, h.keys⟩
  apart := .single rfl
  run r hr ts := by
    refine Reading.run_step ?_ ts
    simp only [Reading.step, hr, h.elementOf_eq hbegins]
    rfl

theorem enclosed (text : Option String) (hinner : Renders e.scope ps es) :
    Renders outer (enclose name attributes text ps)
      [{ e with text := text.bind readText, children := es }] where
  legible p hp := by
    simp only [enclose, List.cons_append, List.mem_cons, List.mem_append, List.not_mem_nil,
      or_false] at hp
    rcases hp with rfl | (hp | hp) | rfl
    · exact ⟨h.name, h.keys⟩
    · cases text with
      | none => cases hp
      | some t =>
        obtain rfl := List.mem_singleton.1 hp
        exact trivial
    · exact hinner.legible p hp
    · exact h.name
  apart := apart_enclose name attributes text hinner.apart
  run r hr ts := by
    obtain ⟨stack, root⟩ := r
    have hopening : Reading.step ⟨stack, root⟩ (.opening (bytes name.toList)
        (bytes (attributeText attributes))) = .ok ⟨(bytes name.toList, e) :: stack, root⟩ := by
      rw [Reading.step, hr, h.elementOf_eq hbegins]
    have htext (ts : List Token) : Reading.run ⟨(bytes name.toList, e) :: stack, root⟩
        ((text.elim [] fun t => [Piece.text t]).flatMap Piece.tokens ++ ts) =
        Reading.run ⟨(bytes name.toList, { e with text := text.bind readText }) :: stack, root⟩ ts := by
      cases text with
      | none =>
        have hsame : { e with text := Option.bind none readText } = e := by
          cases e
          cases hbegins.text
          rfl
        rw [hsame]
        rfl
      | some t =>
        have hone : ([Piece.text t]).flatMap Piece.tokens = (Piece.text t).tokens := by simp
        rw [Option.elim_some, hone]
        exact Reading.run_text hbegins.text stack root t ts
    have hclosing : Reading.step ⟨(bytes name.toList,
        { e with text := text.bind readText, children := es }) :: stack, root⟩
        (.closing (bytes name.toList)) =
        .ok (Reading.finish ⟨stack, root⟩ { e with text := text.bind readText, children := es }) := by
      simp only [Reading.step, if_true]
    have hsplit : (enclose name attributes text ps).flatMap Piece.tokens ++ ts =
        .opening (bytes name.toList) (bytes (attributeText attributes)) ::
          ((text.elim [] fun t => [Piece.text t]).flatMap Piece.tokens ++ (ps.flatMap Piece.tokens ++
            .closing (bytes name.toList) :: ts)) := by
      simp [enclose, Piece.tokens]
    have hchildren : { e with text := text.bind readText, children := e.children ++ es } =
        { e with text := text.bind readText, children := es } := by
      rw [hbegins.children, List.nil_append]
    rw [hsplit, Reading.run_step hopening, htext, hinner.run _ rfl, Reading.finish_children]
    dsimp only
    rw [hchildren]
    exact Reading.run_step hclosing ts

end Tags

/-- What renders one element is a document with that root, however it is written. -/
theorem readString (h : Renders Scope.initial ps [e]) {cs : List Char} (hcs : Written ps cs) :
    readString (String.ofList cs) = .ok (some e) := by
  have hrun := h.run Reading.initial rfl []
  rw [List.append_nil] at hrun
  rw [readString_written hcs h.legible h.apart, hrun]
  rfl

end Renders

end SchemaForms.Xml
