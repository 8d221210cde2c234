import SchemaForms.Proofs.Form.Issuing

/-!
Numbering: the identifiers that a run of calls draws from the counters.  Main statement: those of a
name are numbered by the draws for this name alone, whatever else is asked for in between, and no
identifier is drawn twice.
-/

namespace SchemaForms.Identifiers

/-- What is asked for: the next identifier of a name, or one that may be given from outside. -/
inductive Call where
  | allocate (name : String)
  | assign (name : String) (explicit : Option String)

namespace Call

/-- The identifier, and the counters after it. -/
def answer (ids : Identifiers) : Call → String × Identifiers
  | .allocate name => ids.allocate name
  | .assign name explicit => ids.assign name explicit

/-- The name that a call draws an identifier for.  One that is given from outside is not drawn. -/
def drawn : Call → Option String
  | .allocate name => some name
  | .assign name none => some name
  | .assign _ (some _) => none

theorem answer_of_drawn {c : Call} {name : String} (h : c.drawn = some name) (ids : Identifiers) :
    c.answer ids = ids.allocate name := by
  match c, h with
  | .allocate _, rfl => rfl
  | .assign _ none, rfl => rfl

theorem answer_of_not_drawn {c : Call} (h : c.drawn = none) (ids : Identifiers) :
    (c.answer ids).2 = ids := by
  match c, h with
  | .assign _ (some _), _ => rfl

end Call

/-- The names that calls draw identifiers for, in order. -/
def names (calls : List Call) : List String := calls.filterMap (·.drawn)

/-- The counters after some calls. -/
def after (ids : Identifiers) : List Call → Identifiers
  | [] => ids
  | c :: cs => (c.answer ids).2.after cs

/-- The identifiers that calls draw, in order. -/
def issued (ids : Identifiers) : List Call → List String
  | [] => []
  | c :: cs =>
    match c.drawn with
    | some _ => (c.answer ids).1 :: (c.answer ids).2.issued cs
    | none => (c.answer ids).2.issued cs

/-- Identifiers for names: the numbers for a name go on from its counter, one by one. -/
def numbered (ids : Identifiers) (drawn : List String) : List String :=
  drawn.mapIdx fun i name => identifier name (ids.count name + (drawn.take i).count name)

theorem numbered_cons (ids : Identifiers) (name : String) (drawn : List String) :
    ids.numbered (name :: drawn) =
      identifier name (ids.count name) :: (ids.allocate name).2.numbered drawn := by
  rw [numbered, List.mapIdx_cons, numbered]
  refine congrArg _ (List.mapIdx_eq_mapIdx_iff.2 fun i hi => ?_)
  simp only [List.take_succ_cons, List.count_cons, count_allocate]
  by_cases hname : name = drawn[i]
  · simp only [hname, beq_self_eq_true, if_true]
    congr 1
    omega
  · simp [hname]

theorem issued_eq_numbered (ids : Identifiers) (calls : List Call) :
    ids.issued calls = ids.numbered (names calls) := by
  induction calls generalizing ids with
  | nil => rfl
  | cons c cs ih =>
    cases hdrawn : c.drawn with
    | none =>
      have hnames : names (c :: cs) = names cs := List.filterMap_cons_none hdrawn
      rw [issued, hdrawn, hnames]
      dsimp only
      rw [ih, Call.answer_of_not_drawn hdrawn]
    | some name =>
      have hnames : names (c :: cs) = name :: names cs := List.filterMap_cons_some hdrawn
      rw [issued, hdrawn, hnames, numbered_cons]
      dsimp only
      rw [ih, Call.answer_of_drawn hdrawn]
      rfl

theorem count_after (ids : Identifiers) (calls : List Call) (name : String) :
    (ids.after calls).count name = ids.count name + (names calls).count name := by
  induction calls generalizing ids with
  | nil => rfl
  | cons c cs ih =>
    rw [after, ih]
    cases hdrawn : c.drawn with
    | none =>
      have hnames : names (c :: cs) = names cs := List.filterMap_cons_none hdrawn
      rw [hnames, Call.answer_of_not_drawn hdrawn]
    | some other =>
      have hnames : names (c :: cs) = other :: names cs := List.filterMap_cons_some hdrawn
      rw [hnames, Call.answer_of_drawn hdrawn, count_allocate, List.count_cons]
      by_cases hname : other = name
      · simp only [hname, beq_self_eq_true, if_true]
        omega
      · simp [hname]

/-- The numbers that are drawn are not below the counters. -/
theorem le_of_mem_numbered {ids : Identifiers} {drawn : List String} {id : String}
    (h : id ∈ ids.numbered drawn) : ∃ name n, id = identifier name n ∧ ids.count name ≤ n := by
  obtain ⟨i, hi, rfl⟩ := List.mem_mapIdx.1 h
  exact ⟨_, _, rfl, Nat.le_add_right ..⟩

theorem nodup_numbered (ids : Identifiers) (drawn : List String) : (ids.numbered drawn).Nodup := by
  induction drawn generalizing ids with
  | nil => exact .nil
  | cons name drawn ih =>
    rw [numbered_cons]
    refine List.nodup_cons.2 ⟨fun hmem => ?_, ih _⟩
    obtain ⟨other, n, heq, hle⟩ := le_of_mem_numbered hmem
    obtain ⟨rfl, rfl⟩ := identifier_injective heq
    rw [count_allocate, if_pos rfl] at hle
    exact Nat.not_succ_le_self _ hle

/-- In any run of calls the identifiers that are drawn for a name have the numbers 0, 1, 2 and so on,
whatever is drawn for other names or given from outside; no two that are drawn are the same; and the
counter of a name holds how many have been drawn for it. -/
theorem identifiers_numbered (calls : List Call) :
    issued .empty calls =
      (names calls).mapIdx (fun i name => identifier name (((names calls).take i).count name)) ∧
    (issued .empty calls).Nodup ∧
    ∀ name, (after .empty calls).count name = (names calls).count name := by
  have hzero (name : String) : count .empty name = 0 := rfl
  rw [issued_eq_numbered]
  refine ⟨?_, nodup_numbered .empty _, fun name => ?_⟩
  · simp only [numbered, hzero, Nat.zero_add]
  · rw [count_after, hzero, Nat.zero_add]

/-- A name may look like an identifier that is there already. -/
example :
    issued .empty [.allocate "a", .assign "b" (some "a_1"), .allocate "a_0", .assign "a" none] =
      ["a_0", "a_0_0", "a_1"] := by
  decide +kernel

end SchemaForms.Identifiers
