import Mathlib.Data.List.Pairwise
import SchemaForms.Proofs.Form.Sections

/-!
Sources: once a declaration has been given its binds and controls, each of its binds has a first
control, which later cases copy.
-/

namespace SchemaForms

open Grove (ids graft only both at? tops erase bounds relabel bindTops lastOf kidsOf Recasts)
open Forest (tree leaf)

namespace Grove

/-- What is grafted at distinct nodes of a grove with distinct nodes is disjoint. -/
theorem nodup_grafts {h : NodeId → Grove} {f : Grove} (hf : (ids (graft h f)).Nodup) :
    (∀ x ∈ ids f, (ids (h x)).Nodup) ∧
      ∀ x ∈ ids f, ∀ y ∈ ids f, x ≠ y → List.Disjoint (ids (h x)) (ids (h y)) := by
  have hall := (List.nodup_append.1 ((perm_ids_graft h f).nodup_iff.1 hf)).2.1
  rw [List.nodup_flatMap] at hall
  refine ⟨hall.1, fun x hx y hy hne => ?_⟩
  have : Std.Symm (Function.onFun List.Disjoint fun x => ids (h x)) :=
    ⟨fun _ _ hd _ hx hy => hd hy hx⟩
  exact hall.2.forall hx hy hne

end Grove

theorem Draws.map {s : Synthesis} {f : Grove} {kids : List Kid} (h : Draws s f kids) {p : Kid → Kid}
    (hp : ∀ kid, (p kid).bind = kid.bind ∧ (p kid).below = kid.below ∧
      (p kid).shared = kid.shared) : Draws s f (kids.map p) := by
  induction f generalizing kids with
  | nil =>
    rw [show kids = [] from h]
    rfl
  | cons a b r _ ih =>
    simp only [Draws] at h ⊢
    cases ha : a.2.bind? with
    | none =>
      rw [ha] at h
      exact ⟨h.1, ih h.2⟩
    | some own =>
      rw [ha] at h
      obtain ⟨kid, rest, rfl, hown, hbelow, hshared, hrest⟩ := h
      obtain ⟨hbind', hbelow', hshared'⟩ := hp kid
      exact ⟨p kid, rest.map p, rfl, hown.trans hbind'.symm, by rw [hbelow, hbelow'],
        by rw [hshared, hshared'], ih hrest⟩

/-- Each kid has a source. -/
def Settled (kids : List Kid) : Prop := ∀ kid ∈ kids, kid.source.isSome

/-- A sketch draws a control for each kid that it leaves without a source. -/
def Sketch.Covers {α : Type} (p : Sketch α) : Prop :=
  ∀ (d : Draft) (s : Synthesis), Settled d.kids → d.controls = .nil →
    ∀ kid ∈ (p d s).1.2.kids, kid.source.isSome ∨
      ((p d s).1.2.controls.find (·.isBoundTo kid.bind.id)).isSome

section Settling

variable {s s' : Synthesis} {f : Grove} {scope area : NodeId} {d d' : Draft} {γ : Growth}

/-- A scene does not depend on the controls that the draft has. -/
theorem Scene.redraw (h : Scene s f scope area d) (controls : Forest NodeKind) :
    Scene s f scope area { d with controls := controls } :=
  ⟨h.world, ⟨h.scopeAt.here, h.scopeAt.outer⟩, h.area_mem, h.ne, h.opened, h.sourced, h.given⟩

theorem Sketch.settle_keeps (controls : Forest NodeKind) (kid : Kid) :
    (settle controls kid).bind = kid.bind ∧ (settle controls kid).below = kid.below ∧
      (settle controls kid).shared = kid.shared := by
  unfold settle
  split <;> exact ⟨rfl, rfl, rfl⟩

theorem Sketch.settle_of_isSome {kid : Kid} (h : kid.source.isSome) (controls : Forest NodeKind) :
    settle controls kid = kid := by
  unfold settle
  rw [if_neg]
  rw [Option.isNone_iff_eq_none]
  exact fun he => by rw [he] at h; cases h

/-- The first control that has been added for a bind with a new identifier is its source. -/
theorem Adds.sourced_new (ha : Adds s s' f scope area d d' γ) (h : Scene s f scope area d)
    {kid : Kid} (hnew : ¬ s.ids.Given "bind" kid.bind.id)
    (hsource : kid.source = (erase γ.controls).find (·.isBoundTo kid.bind.id)) :
    Sourced (γ.on scope area f) scope area kid := by
  intro k₀ below hfound
  have hmarkup : ∀ k : NodeKind, k.isMarkup → k.isBoundTo kid.bind.id = false := by
    intro k hk
    cases k with
    | markup m => rfl
    | _ => cases hk
  rw [hsource, Grove.find_erase hmarkup, Option.map_eq_some_iff] at hfound
  obtain ⟨⟨⟨x, k⟩, b⟩, hfind, he⟩ := hfound
  cases he
  obtain ⟨hmem, hsub, hbound⟩ := Forest.find_mem hfind
  have hxnew := ha.newControls x (List.mem_map_of_mem hmem)
  have hbids : ∀ y ∈ x :: ids b, y ∈ ids γ.controls := by
    intro y hy
    rcases List.mem_cons.1 hy with rfl | hy
    · exact List.mem_map_of_mem hmem
    · obtain ⟨c, hc, rfl⟩ := List.mem_map.1 hy
      exact List.mem_map_of_mem (hsub c hc)
  have hold : ∀ y ∈ ids f, y ∉ x :: ids b := fun y hy hm =>
    h.not_mem_of_new ha.newControls hy (hbids y hm)
  have hnone : f.labels.find? (·.2.isBoundTo kid.bind.id) = none := by
    rw [← Grove.find?_bounds, List.find?_eq_none]
    exact fun a hm hid => hnew (h.world.refs a hm _ hid)
  have hnodup := ha.shows.nodup
  rw [Growth.on, Grove.ids_relabel] at hnodup
  obtain ⟨hnodups, hdisjoint⟩ := Grove.nodup_grafts hnodup
  have hcontrols : both scope γ.binds area γ.controls area = γ.controls := by
    simp [both, h.ne.symm]
  have hat : at? x (graft (both scope γ.binds area γ.controls) f) = some (k, b) := by
    refine Grove.at?_graft_new ?_ h.area_mem (fun hm => hold x hm (List.mem_cons_self ..))
      fun z hz hne hm => ?_
    · rw [hcontrols]
      exact Grove.at?_of_find (hcontrols ▸ hnodups area h.area_mem) hfind
    · refine hdisjoint z hz area h.area_mem hne hm ?_
      rw [hcontrols]
      exact hbids x (List.mem_cons_self ..)
  have hbinds : ∀ a ∈ (tree (x, k) b).labels, a.2.bind? = none := by
    intro a hm
    rw [tree, Forest.labels_cons, Forest.labels_nil, List.append_nil, List.mem_cons] at hm
    rcases hm with rfl | hm
    · exact ha.controlsOnly _ hmem
    · exact ha.controlsOnly a (hsub a hm)
  refine ⟨x, b, ?_, ?_, ?_, hbinds, hold scope h.scope_mem, hold area h.area_mem⟩
  · rw [ha.find?_eq h, hnone, Option.none_or, ← Forest.find_map_fst, hfind]
    rfl
  · rw [Growth.on, Grove.at?_relabel, hat, Option.map_some,
      ha.recasts.other x k (ha.controlsOnly _ hmem),
      Grove.relabel_of_no_binds ha.recasts fun a hm => ha.controlsOnly a (hsub a hm)]
  · cases k with
    | control c => rfl
    | _ => cases hbound

end Settling

namespace Follows

variable {α : Type} {φ : Frame} {area : NodeId}

/-- The binds and controls of one declaration. -/
theorem slot {f : Synth α} {p : Sketch α} (hf : Follows Any φ area f p) (hp : p.Covers) :
    Follows Settled φ area f (Sketch.slot p) := by
  intro s grove d h hsettled hφ
  have h₀ := h.redraw .nil
  obtain ⟨hresult, hbare, -, γ, ha, h'⟩ :=
    hf h₀ trivial ⟨hφ.own, hφ.around, hφ.parent, hφ.known⟩
  have hcovers := hp { d with controls := .nil } s.bare hsettled rfl
  let d' := (p { d with controls := .nil } s.bare).1.2
  change Adds s (f s).2 grove φ.scope area { d with controls := .nil } d' γ at ha
  change Scene (f s).2 (γ.on φ.scope area grove) φ.scope area d' at h'
  have hdrawn : d'.controls = erase γ.controls := ha.drawn
  have hsource (kid : Kid) (hkid : kid ∈ d'.kids) : (Sketch.settle d'.controls kid).source.isSome := by
    rcases hcovers kid hkid with hs | hs
    · rwa [Sketch.settle_of_isSome hs]
    · unfold Sketch.settle
      split
      · exact hs
      · next hn => simpa [Option.isSome_iff_ne_none] using hn
  refine ⟨hresult, hbare, ?_, γ, ?_, ?_⟩
  · intro kid' hkid'
    obtain ⟨kid, hkid, rfl⟩ := List.mem_map.1 hkid'
    exact hsource kid hkid
  · refine { ha with drawn := ?_, fresh := ?_ }
    · exact congrArg (d.controls ++ ·) hdrawn
    · intro kid' hkid'
      obtain ⟨kid, hkid, rfl⟩ := List.mem_map.1 hkid'
      rw [(Sketch.settle_keeps d'.controls kid).1]
      exact (ha.fresh kid hkid).imp_left fun ⟨old, hold, hid, _⟩ =>
        ⟨old, hold, hid, fun _ => hsource kid hkid⟩
  · have hids : (d'.kids.map (Sketch.settle d'.controls)).map (·.bind.id) =
        d'.kids.map (·.bind.id) := by
      rw [List.map_map]
      exact List.map_congr_left fun kid _ =>
        congrArg Bind.id (Sketch.settle_keeps d'.controls kid).1
    refine ⟨h'.world, ⟨?_, h'.scopeAt.outer⟩, h'.area_mem, h'.ne, h'.opened, ?_, fun id hid => ?_⟩
    · obtain ⟨k, below, hat, hown, hdraws, harea⟩ := h'.scopeAt.here
      exact ⟨k, below, hat, hown, hdraws.map (Sketch.settle_keeps d'.controls), harea⟩
    · intro kid' hkid'
      obtain ⟨kid, hkid, rfl⟩ := List.mem_map.1 hkid'
      cases hs : kid.source with
      | some _ =>
        rw [Sketch.settle_of_isSome (by rw [hs]; rfl)]
        exact h'.sourced kid hkid
      | none =>
        have hsettle : Sketch.settle d'.controls kid =
            { kid with source := d'.controls.find (·.isBoundTo kid.bind.id) } := by
          unfold Sketch.settle
          rw [hs]
          rfl
        rcases ha.fresh kid hkid with ⟨old, hold, -, hsome⟩ | hnew
        · have := hsome (hsettled old hold)
          rw [hs] at this
          cases this
        · rw [hsettle]
          exact ha.sourced_new h₀ hnew (by rw [hdrawn])
    · refine h'.given id ?_
      simp only [Draft.names, List.mem_append] at hid ⊢
      exact hid.imp_right fun hid => hids ▸ hid

end Follows

end SchemaForms
