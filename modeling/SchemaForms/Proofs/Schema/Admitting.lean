import SchemaForms.Proofs.Schema.Ordering

/-!
What a content model admits.  The children of an element are read as a word: each stands for a
declared element, or for anything in the place of a wildcard.  Main statement: an element is in every
word that a content model admits exactly if the content model demands it, that is if on the way to
some place of it everything has to occur, and of a choice every member demands it.
-/

namespace SchemaForms

/-- Children in order; one in the place of a wildcard stands for no declared element. -/
abbrev Word := List (Option ElementId)

namespace Occurs

/-- Something may occur so many times. -/
def Allows (o : Occurs) (n : Nat) : Prop := o.min ≤ n ∧ ∀ m, o.max = some m → n ≤ m

/-- Words of some kind one after another, as many as may occur. -/
def Repeats (o : Occurs) (once : Word → Prop) (w : Word) : Prop :=
  ∃ ws : List Word, o.Allows ws.length ∧ (∀ v ∈ ws, once v) ∧ w = ws.flatten

variable {o : Occurs} {once : Word → Prop} {x : Option ElementId}

theorem Repeats.mem {w : Word} (hw : o.Repeats once w) (hmin : o.isEmptiable = false)
    (honce : ∀ v, once v → x ∈ v) : x ∈ w := by
  obtain ⟨ws, hallows, hws, rfl⟩ := hw
  have hpos : 0 < ws.length := by
    have hmin : o.min ≠ 0 := by simpa [isEmptiable] using hmin
    have hle := hallows.1
    omega
  have hfirst := hws _ (List.getElem_mem hpos)
  exact List.mem_flatten.2 ⟨_, List.getElem_mem hpos, honce _ hfirst⟩

/-- A word is left out as often as may be, or else repeated as often as must be. -/
theorem Repeats.exists_not_mem (ho : o.Ordered)
    (h : o.isEmptiable = true ∨ ∃ v, once v ∧ x ∉ v) : ∃ w, o.Repeats once w ∧ x ∉ w := by
  rcases h with hmin | ⟨v, hv, hx⟩
  · refine ⟨[], ⟨[], ⟨?_, fun m _ => Nat.zero_le m⟩, by simp, rfl⟩, by simp⟩
    simpa [isEmptiable] using hmin
  · refine ⟨(List.replicate o.min v).flatten, ⟨List.replicate o.min v, ⟨by simp, ?_⟩, ?_, rfl⟩, ?_⟩
    · rw [List.length_replicate]
      exact ho
    · intro u hu
      exact List.eq_of_mem_replicate hu ▸ hv
    · intro hmem
      obtain ⟨u, hu, hxu⟩ := List.mem_flatten.1 hmem
      exact hx (List.eq_of_mem_replicate hu ▸ hxu)

end Occurs

namespace Particle

mutual

/-- The words that a particle admits.  The members of an `all` group may come in any order. -/
def Admits : Particle → Word → Prop
  | .element o id => o.Repeats fun w => w = [some id]
  | .group o .sequence ps => o.Repeats (InTurn ps)
  | .group o .choice ps => o.Repeats (OneOf ps)
  | .group o .all ps => o.Repeats fun w => ∃ v, v.Perm w ∧ InTurn ps v
  | .wildcard o _ => o.Repeats fun w => w = [none]

/-- A word of each particle, one after another. -/
def InTurn : List Particle → Word → Prop
  | [], w => w = []
  | p :: ps, w => ∃ v u, w = v ++ u ∧ Admits p v ∧ InTurn ps u

/-- A word of one of the particles. -/
def OneOf : List Particle → Word → Prop
  | [], _ => False
  | p :: ps, w => Admits p w ∨ OneOf ps w

end

mutual

/-- Whether a particle demands an element: it has to occur, and each of its members demands the
element if it is a choice, or else one of them does. -/
def demands (e : ElementId) : Particle → Bool
  | .element o id => !o.isEmptiable && id == e
  | .group o .choice ps => !o.isEmptiable && eachDemands e ps
  | .group o .sequence ps => !o.isEmptiable && someDemands e ps
  | .group o .all ps => !o.isEmptiable && someDemands e ps
  | .wildcard _ _ => false

def someDemands (e : ElementId) : List Particle → Bool
  | [] => false
  | p :: ps => demands e p || someDemands e ps

def eachDemands (e : ElementId) : List Particle → Bool
  | [] => true
  | p :: ps => demands e p && eachDemands e ps

end

theorem Ordered.self {p : Particle} (h : p.Ordered) : p.occurs.Ordered :=
  h p (by cases p <;> exact List.mem_cons_self)

variable {e : ElementId}

mutual

theorem mem_of_demands {p : Particle} (hp : p.demands e = true) {w : Word} (hw : p.Admits w) :
    some e ∈ w := by
  match p with
  | .element o id =>
    simp only [demands, Bool.and_eq_true, Bool.not_eq_true', beq_iff_eq] at hp
    refine Occurs.Repeats.mem hw hp.1 fun v hv => ?_
    rw [hv, hp.2]
    exact List.mem_singleton_self _
  | .group o .sequence ps =>
    simp only [demands, Bool.and_eq_true, Bool.not_eq_true'] at hp
    exact Occurs.Repeats.mem hw hp.1 fun v hv => mem_of_someDemands hp.2 hv
  | .group o .choice ps =>
    simp only [demands, Bool.and_eq_true, Bool.not_eq_true'] at hp
    exact Occurs.Repeats.mem hw hp.1 fun v hv => mem_of_eachDemands hp.2 hv
  | .group o .all ps =>
    simp only [demands, Bool.and_eq_true, Bool.not_eq_true'] at hp
    refine Occurs.Repeats.mem hw hp.1 fun v hv => ?_
    obtain ⟨u, hperm, hu⟩ := hv
    exact hperm.subset (mem_of_someDemands hp.2 hu)
  | .wildcard o w => cases hp

theorem mem_of_someDemands {ps : List Particle} (hps : someDemands e ps = true) {w : Word}
    (hw : InTurn ps w) : some e ∈ w := by
  match ps with
  | [] => cases hps
  | p :: ps =>
    obtain ⟨v, u, rfl, hv, hu⟩ := hw
    rw [someDemands, Bool.or_eq_true] at hps
    rcases hps with hp | hps
    · exact List.mem_append_left _ (mem_of_demands hp hv)
    · exact List.mem_append_right _ (mem_of_someDemands hps hu)

theorem mem_of_eachDemands {ps : List Particle} (hps : eachDemands e ps = true) {w : Word}
    (hw : OneOf ps w) : some e ∈ w := by
  match ps with
  | [] => exact hw.elim
  | p :: ps =>
    rw [eachDemands, Bool.and_eq_true] at hps
    rcases hw with hv | hu
    · exact mem_of_demands hps.1 hv
    · exact mem_of_eachDemands hps.2 hu

end

mutual

theorem exists_not_mem {p : Particle} (ho : p.Ordered) (hp : p.demands e = false) :
    ∃ w, p.Admits w ∧ some e ∉ w := by
  match p with
  | .element o id =>
    refine Occurs.Repeats.exists_not_mem ho.self ?_
    rw [demands, Bool.and_eq_false_iff, Bool.not_eq_false'] at hp
    refine hp.imp_right fun hid => ⟨[some id], rfl, fun hmem => ?_⟩
    exact beq_eq_false_iff_ne.1 hid (Option.some.inj (List.mem_singleton.1 hmem)).symm
  | .group o .sequence ps =>
    refine Occurs.Repeats.exists_not_mem ho.self ?_
    rw [demands, Bool.and_eq_false_iff, Bool.not_eq_false'] at hp
    exact hp.imp_right (exists_inTurn (ordered_group_iff.1 ho).2)
  | .group o .choice ps =>
    refine Occurs.Repeats.exists_not_mem ho.self ?_
    rw [demands, Bool.and_eq_false_iff, Bool.not_eq_false'] at hp
    exact hp.imp_right (exists_oneOf (ordered_group_iff.1 ho).2)
  | .group o .all ps =>
    refine Occurs.Repeats.exists_not_mem ho.self ?_
    rw [demands, Bool.and_eq_false_iff, Bool.not_eq_false'] at hp
    refine hp.imp_right fun hps => ?_
    obtain ⟨v, hv, hmem⟩ := exists_inTurn (ordered_group_iff.1 ho).2 hps
    exact ⟨v, ⟨v, .refl v, hv⟩, hmem⟩
  | .wildcard o w => exact Occurs.Repeats.exists_not_mem ho.self (.inr ⟨[none], rfl, by simp⟩)

theorem exists_inTurn {ps : List Particle} (ho : ∀ p ∈ ps, p.Ordered)
    (hps : someDemands e ps = false) : ∃ w, InTurn ps w ∧ some e ∉ w := by
  match ps with
  | [] => exact ⟨[], rfl, List.not_mem_nil⟩
  | p :: ps =>
    rw [someDemands, Bool.or_eq_false_iff] at hps
    obtain ⟨v, hv, hmem⟩ := exists_not_mem (ho p List.mem_cons_self) hps.1
    obtain ⟨u, hu, hmem'⟩ := exists_inTurn (fun q hq => ho q (List.mem_cons_of_mem p hq)) hps.2
    exact ⟨v ++ u, ⟨v, u, rfl, hv, hu⟩, by simp [hmem, hmem']⟩

theorem exists_oneOf {ps : List Particle} (ho : ∀ p ∈ ps, p.Ordered)
    (hps : eachDemands e ps = false) : ∃ w, OneOf ps w ∧ some e ∉ w := by
  match ps with
  | [] => cases hps
  | p :: ps =>
    rw [eachDemands, Bool.and_eq_false_iff] at hps
    rcases hps with hp | hps
    · obtain ⟨v, hv, hmem⟩ := exists_not_mem (ho p List.mem_cons_self) hp
      exact ⟨v, .inl hv, hmem⟩
    · obtain ⟨u, hu, hmem⟩ := exists_oneOf (fun q hq => ho q (List.mem_cons_of_mem p hq)) hps
      exact ⟨u, .inr hu, hmem⟩

end

/-- A content model demands an element exactly if every word that it admits has it. -/
theorem demands_iff {p : Particle} (ho : p.Ordered) :
    p.demands e = true ↔ ∀ w, p.Admits w → some e ∈ w := by
  refine ⟨fun hp w hw => mem_of_demands hp hw, fun h => ?_⟩
  cases hp : p.demands e with
  | true => rfl
  | false =>
    obtain ⟨w, hw, hmem⟩ := exists_not_mem ho hp
    exact absurd (h w hw) hmem

/-- An element of a sequence is demanded, and so is one that both members of a choice hold. -/
example :
    let choice := Particle.group .once .choice [.element .once ⟨1⟩,
      sequence [.element .once ⟨2⟩, .element .once ⟨1⟩]]
    let p := sequence [.element .once ⟨0⟩, choice]
    p.demands ⟨0⟩ = true ∧ p.demands ⟨1⟩ = true ∧ p.demands ⟨2⟩ = false := by
  decide

end Particle

end SchemaForms
