import Mathlib.Data.List.Chain
import SchemaForms.Form.Bind

/-!
Relevance expressions as conditions: `and` binds tighter than `or`, and parentheses group.  A bind
that starts without relevance is given demands and alternatives in turn, each of them put onto the
text that there is.  The main statement says what each further step does to the value of that text:
a demand puts only its first atom under the `and`, the others become alternatives to all before
them, and a widening adds the alternatives that the text does not list between two `or`s.  So what
should come out does, where one atom is demanded, or a text is widened that has no parentheses and
demands nothing besides something else.
-/

namespace SchemaForms

theorem Text.occursIn_append (before needle after : List Char) :
    Text.occursIn needle (before ++ (needle ++ after)) = true := by
  induction before with
  | nil =>
    cases h : needle ++ after with
    | nil =>
      rw [List.append_eq_nil_iff] at h
      rw [h.1]
      rfl
    | cons c cs =>
      rw [List.nil_append, occursIn, ← h, Bool.or_eq_true]
      exact .inl (List.isPrefixOf_iff_prefix.2 (List.prefix_append ..))
  | cons c before ih =>
    rw [List.cons_append, occursIn, ih, Bool.or_true]

namespace Condition

inductive Token
  | opening
  | closing
  | both
  | either
  | atom (name : String)
  deriving DecidableEq, Repr

/-- The atom read so far, if there is any. -/
def ended : List Char → List Token
  | [] => []
  | c :: cs => [.atom (String.ofList (c :: cs))]

/-- Reads tokens behind a begun atom; `skip` characters still belong to the word found last. -/
def lexFrom : Nat → List Char → List Char → List Token
  | _, begun, [] => ended begun
  | skip + 1, begun, _ :: cs => lexFrom skip begun cs
  | 0, begun, c :: cs =>
    if c = '(' then ended begun ++ .opening :: lexFrom 0 [] cs
    else if c = ')' then ended begun ++ .closing :: lexFrom 0 [] cs
    else if " and ".toList.isPrefixOf (c :: cs) then ended begun ++ .both :: lexFrom 4 [] cs
    else if " or ".toList.isPrefixOf (c :: cs) then ended begun ++ .either :: lexFrom 3 [] cs
    else lexFrom 0 (begun ++ [c]) cs

/-- The value of what has been read of an expression: of its finished alternatives, and of the
demands of the one under way. -/
structure Frame where
  finished : Bool := false
  current : Bool := true

def Frame.value (f : Frame) : Bool := f.finished || f.current

/-- Reads one token into the innermost of the open expressions. -/
def step (v : String → Bool) : List Frame → Token → List Frame
  | fs, .opening => {} :: fs
  | f :: g :: fs, .closing => { g with current := g.current && f.value } :: fs
  | f :: fs, .either => ⟨f.value, true⟩ :: fs
  | f :: fs, .atom name => { f with current := f.current && v name } :: fs
  | fs, _ => fs

def run (v : String → Bool) (fs : List Frame) (ts : List Token) : List Frame :=
  ts.foldl (step v) fs

/-- The value of an expression under an assignment of truth values to its atoms. -/
def value (v : String → Bool) (text : String) : Bool :=
  ((run v [{}] (lexFrom 0 [] text.toList)).head?.map Frame.value).getD false

/-- An atom is not empty and stays one token, also with the blank of a word behind it. -/
structure IsAtom (name : String) : Prop where
  ne_nil : name.toList ≠ []
  unparenthesised : ∀ c ∈ name.toList, c ≠ '(' ∧ c ≠ ')'
  no_and : Text.occursIn " and ".toList (name.toList ++ [' ']) = false
  no_or : Text.occursIn " or ".toList (name.toList ++ [' ']) = false

instance (name : String) : Decidable (IsAtom name) :=
  decidable_of_iff
    (name.toList ≠ [] ∧ name.toList.all (fun c => c ≠ '(' ∧ c ≠ ')') ∧
      Text.occursIn " and ".toList (name.toList ++ [' ']) = false ∧
      Text.occursIn " or ".toList (name.toList ++ [' ']) = false)
    ⟨fun h => ⟨h.1, by simpa using h.2.1, h.2.2.1, h.2.2.2⟩,
      fun h => ⟨h.1, by simpa using h.2, h.3, h.4⟩⟩

/-! Tokens as they are written. -/

def Token.written : Token → List Char
  | .opening => ['(']
  | .closing => [')']
  | .both => " and ".toList
  | .either => " or ".toList
  | .atom name => name.toList

def Token.joins : Token → Bool
  | .atom _ => false
  | _ => true

def write (ts : List Token) : String := String.ofList (ts.flatMap Token.written)

/-- Tokens that are told apart where they are written: atoms do not stand side by side. -/
structure Spaced (ts : List Token) : Prop where
  isAtom : ∀ name, .atom name ∈ ts → IsAtom name
  isChain : ts.IsChain fun t t' => t.joins ∨ t'.joins

theorem lexFrom_joining {t : Token} (h : t.joins) (begun rest : List Char) :
    lexFrom 0 begun (t.written ++ rest) = ended begun ++ t :: lexFrom 0 [] rest := by
  cases t with
  | atom => exact absurd h Bool.false_ne_true
  | _ => rfl

/-- The first character of what stands behind an atom. -/
def endings : List Char := ['(', ')', ' ']

/-- A word that runs over the end of an atom has its last blank there. -/
theorem isPrefixOf_blank {word cs rest : List Char}
    (hrest : ∀ c ∈ rest.head?, c ∈ endings) (hword : ∀ c ∈ word, c ∉ endings)
    (h : (word ++ [' ']).isPrefixOf (cs ++ rest)) : (word ++ [' ']).isPrefixOf (cs ++ [' ']) := by
  induction word generalizing cs with
  | nil =>
    cases cs with
    | nil => rfl
    | cons c cs => simpa using h
  | cons x word ih =>
    rw [List.forall_mem_cons] at hword
    cases cs with
    | nil =>
      cases rest with
      | nil => simp at h
      | cons d rest =>
        have hx : x = d := by simp_all
        exact absurd (hrest d rfl) (hx ▸ hword.1)
    | cons c cs =>
      simp only [List.cons_append, List.isPrefixOf_cons_cons, Bool.and_eq_true] at h ⊢
      exact ⟨h.1, ih hword.2 h.2⟩

/-- No word begins in an atom that does not begin in it with a blank behind. -/
theorem not_isPrefixOf_atom (word : List Char) {cs rest : List Char} {c : Char}
    (hrest : ∀ c ∈ rest.head?, c ∈ endings) (hword : ∀ x ∈ word, x ∉ endings)
    (h : (' ' :: word ++ [' ']).isPrefixOf (c :: (cs ++ [' '])) = false) :
    ¬ (' ' :: word ++ [' ']).isPrefixOf (c :: (cs ++ rest)) = true := by
  rw [← Bool.not_eq_true] at h
  intro h'
  simp only [List.cons_append, List.isPrefixOf_cons_cons, Bool.and_eq_true] at h h'
  exact h ⟨h'.1, isPrefixOf_blank hrest hword h'.2⟩

theorem lexFrom_atom {rest begun cs : List Char} (hrest : ∀ c ∈ rest.head?, c ∈ endings)
    (hparens : ∀ c ∈ cs, c ≠ '(' ∧ c ≠ ')')
    (hand : Text.occursIn " and ".toList (cs ++ [' ']) = false)
    (hor : Text.occursIn " or ".toList (cs ++ [' ']) = false) :
    lexFrom 0 begun (cs ++ rest) = lexFrom 0 (begun ++ cs) rest := by
  induction cs generalizing begun with
  | nil => rw [List.nil_append, List.append_nil]
  | cons c cs ih =>
    rw [List.forall_mem_cons] at hparens
    rw [List.cons_append, Text.occursIn, Bool.or_eq_false_iff] at hand hor
    have hand' : ¬ " and ".toList.isPrefixOf (c :: (cs ++ rest)) = true :=
      not_isPrefixOf_atom "and".toList hrest (by simp [endings]) hand.1
    have hor' : ¬ " or ".toList.isPrefixOf (c :: (cs ++ rest)) = true :=
      not_isPrefixOf_atom "or".toList hrest (by simp [endings]) hor.1
    rw [List.cons_append, lexFrom, if_neg hparens.1.1, if_neg hparens.1.2, if_neg hand',
      if_neg hor', ih hparens.2 hand.2 hor.2, List.append_assoc, List.singleton_append]

/-- Spaced tokens are found again where they are written. -/
theorem lexFrom_write {ts : List Token} (h : Spaced ts) :
    lexFrom 0 [] (ts.flatMap Token.written) = ts := by
  induction ts with
  | nil => rfl
  | cons t ts ih =>
    have hts := ih ⟨fun name hn => h.isAtom name (List.mem_cons_of_mem _ hn), h.isChain.tail⟩
    rw [List.flatMap_cons]
    by_cases ht : t.joins
    · rw [lexFrom_joining ht, hts]
      rfl
    · obtain ⟨name, rfl⟩ : ∃ name, t = .atom name := by cases t <;> simp_all [Token.joins]
      have ha := h.isAtom name (List.mem_cons_self ..)
      have hended : ended name.toList = [.atom name] := by
        obtain ⟨c, cs, hcs⟩ := List.exists_cons_of_ne_nil ha.ne_nil
        rw [hcs, ended, ← hcs, String.ofList_toList]
      cases ts with
      | nil =>
        have hnone : ∀ c ∈ ([] : List Char).head?, c ∈ endings := nofun
        rw [List.flatMap_nil, Token.written,
          lexFrom_atom hnone ha.unparenthesised ha.no_and ha.no_or, lexFrom, List.nil_append,
          hended]
      | cons t' ts =>
        have ht' : t'.joins := (List.isChain_cons_cons.1 h.isChain).1.resolve_left ht
        have hhead : ∀ c ∈ (t'.written ++ ts.flatMap Token.written).head?, c ∈ endings := by
          cases t' <;> simp_all [Token.joins, Token.written, endings]
        rw [List.flatMap_cons] at hts ⊢
        rw [Token.written, lexFrom_atom hhead ha.unparenthesised ha.no_and ha.no_or,
          List.nil_append, lexFrom_joining ht', hended]
        rw [lexFrom_joining ht'] at hts
        exact congrArg _ hts

/-! What is put together of spaced tokens. -/

def alternatives (names : List String) : List Token :=
  names.flatMap fun name => [.either, .atom name]

def disjunction : List String → List Token
  | [] => []
  | name :: names => .atom name :: alternatives names

theorem joins_head_alternatives (names : List String) :
    ∀ t ∈ (alternatives names).head?, t.joins := by
  cases names with
  | nil => nofun
  | cons name names => simp [alternatives, Token.joins]

def enclosed (ts : List Token) : List Token := .opening :: ts ++ [.closing]

theorem write_append (ts us : List Token) : write (ts ++ us) = write ts ++ write us := by
  rw [write, List.flatMap_append, String.ofList_append]
  rfl

theorem write_enclosed (ts : List Token) : write (enclosed ts) = "(" ++ write ts ++ ")" := by
  rw [enclosed, write_append, ← List.singleton_append, write_append]
  rfl

theorem write_atom (name : String) : write [.atom name] = name := by simp [write, Token.written]

theorem write_alternatives (names : List String) (start : String) :
    start ++ write (alternatives names) =
      names.foldl (fun e name => e ++ " or " ++ name) start := by
  induction names generalizing start with
  | nil => exact String.append_empty
  | cons name names ih =>
    have hcons : alternatives (name :: names) =
        [.either] ++ [.atom name] ++ alternatives names := rfl
    have heither : write [.either] = " or " := by decide
    rw [List.foldl_cons, ← ih, hcons, write_append, write_append, heither, write_atom]
    simp only [String.append_assoc]

theorem intercalate_eq_foldl (name : String) (names : List String) :
    String.intercalate " or " (name :: names) =
      names.foldl (fun e name => e ++ " or " ++ name) name := by
  induction names generalizing name with
  | nil => rfl
  | cons next names ih => exact ih (name ++ " or " ++ next)

theorem write_disjunction (names : List String) :
    write (disjunction names) = String.intercalate " or " names := by
  cases names with
  | nil => rfl
  | cons name names =>
    rw [disjunction, ← List.singleton_append, write_append, write_atom, write_alternatives,
      intercalate_eq_foldl]

namespace Spaced

variable {ts us : List Token}

theorem append (h : Spaced ts) (h' : Spaced us)
    (hjoins : (∀ t ∈ ts.getLast?, t.joins) ∨ ∀ t ∈ us.head?, t.joins) : Spaced (ts ++ us) where
  isAtom name hn := (List.mem_append.1 hn).elim (h.isAtom name) (h'.isAtom name)
  isChain := by
    rw [List.isChain_append]
    exact ⟨h.isChain, h'.isChain, fun t ht t' ht' => hjoins.imp (· t ht) (· t' ht')⟩

theorem singleton {t : Token} (h : ∀ name, t = .atom name → IsAtom name) : Spaced [t] where
  isAtom name hn := h name (List.mem_singleton.1 hn).symm
  isChain := .singleton t

theorem alternatives {names : List String} (h : ∀ name ∈ names, IsAtom name) :
    Spaced (alternatives names) := by
  induction names with
  | nil => exact ⟨nofun, .nil⟩
  | cons name names ih =>
    rw [List.forall_mem_cons] at h
    have heither : Spaced [.either] := singleton nofun
    have hname : Spaced [.atom name] := singleton fun _ hn => Token.atom.inj hn ▸ h.1
    exact (heither.append hname (.inl (by simp [Token.joins]))).append (ih h.2)
      (.inr (joins_head_alternatives names))

theorem append_alternatives (h : Spaced ts) {names : List String}
    (hn : ∀ name ∈ names, IsAtom name) : Spaced (ts ++ Condition.alternatives names) :=
  h.append (alternatives hn) (.inr (joins_head_alternatives names))

theorem enclosed (h : Spaced ts) : Spaced (enclosed ts) := by
  have hopening : Spaced [.opening] := singleton nofun
  have hclosing : Spaced [.closing] := singleton nofun
  exact (hopening.append h (.inl (by simp [Token.joins]))).append hclosing
    (.inr (by simp [Token.joins]))

end Spaced

/-! What is read of tokens in an expression that is under way. -/

/-- Behind demands of value `c`, the tokens are read to the value `b`, whatever alternatives are
finished before them and whatever expressions are open around them. -/
def Reads (v : String → Bool) (c : Bool) (ts : List Token) (b : Bool) : Prop :=
  ∃ p q, (p || q) = b ∧ ∀ o fs, run v (⟨o, c⟩ :: fs) ts = ⟨o || p, q⟩ :: fs

namespace Reads

variable {v : String → Bool} {c b : Bool} {ts : List Token}

theorem atom (name : String) : Reads v c [.atom name] (c && v name) :=
  ⟨false, c && v name, Bool.false_or _, fun o fs => by simp [run, step]⟩

theorem enclosed (h : Reads v true ts b) : Reads v c (enclosed ts) (c && b) := by
  obtain ⟨p, q, rfl, h⟩ := h
  refine ⟨false, c && (p || q), Bool.false_or _, fun o fs => ?_⟩
  have hinner := h false (⟨o, c⟩ :: fs)
  rw [run] at hinner
  simp [Condition.enclosed, run, step, hinner, Frame.value]

/-- A demand holds besides the last of the alternatives alone: behind parentheses, besides all. -/
theorem demand (h : Reads v true ts b) (name : String) :
    Reads v true (Condition.enclosed ts ++ [.both, .atom name]) (b && v name) := by
  obtain ⟨p, q, rfl, h⟩ := h
  refine ⟨false, (p || q) && v name, Bool.false_or _, fun o fs => ?_⟩
  have hinner := h false (⟨o, true⟩ :: fs)
  rw [run] at hinner
  simp [Condition.enclosed, run, step, hinner, Frame.value]

theorem append_alternatives (h : Reads v c ts b) (names : List String) :
    Reads v c (ts ++ alternatives names) (b || names.any v) := by
  induction names generalizing ts b with
  | nil => simpa [alternatives] using h
  | cons name names ih =>
    have hname : Reads v c (ts ++ [.either, .atom name]) (b || v name) := by
      obtain ⟨p, q, rfl, h⟩ := h
      refine ⟨p || q, v name, rfl, fun o fs => ?_⟩
      simp only [run] at h ⊢
      simp [h, step, Frame.value, Bool.or_assoc]
    have hcons : ts ++ alternatives (name :: names) =
        ts ++ [.either, .atom name] ++ alternatives names := by simp [alternatives]
    rw [hcons, List.any_cons, ← Bool.or_assoc]
    exact ih hname

end Reads

theorem value_write {v : String → Bool} {ts : List Token} {b : Bool} (hs : Spaced ts)
    (h : Reads v true ts b) : value v (write ts) = b := by
  obtain ⟨p, q, rfl, h⟩ := h
  have hrun : run v [{}] ts = [⟨p, q⟩] := h false []
  rw [value, write, String.toList_ofList, lexFrom_write hs, hrun]
  rfl

/-- A text of spaced tokens with a value under every assignment. -/
def Composed (text : String) : Prop :=
  ∃ ts, ts ≠ [] ∧ Spaced ts ∧ write ts = text ∧ ∀ v, Reads v true ts (value v text)

namespace Composed

variable {text : String} {name : String} {names : List String}

theorem of_reads {ts : List Token} {f : (String → Bool) → Bool} (hne : ts ≠ [])
    (hs : Spaced ts) (h : ∀ v, Reads v true ts (f v)) :
    Composed (write ts) ∧ ∀ v, value v (write ts) = f v := by
  have hvalue (v) : value v (write ts) = f v := value_write hs (h v)
  exact ⟨⟨ts, hne, hs, rfl, fun v => hvalue v ▸ h v⟩, hvalue⟩

theorem ne_empty (h : Composed text) : text ≠ "" := by
  obtain ⟨ts, hne, hs, rfl, -⟩ := h
  intro hempty
  have hread := lexFrom_write hs
  rw [← String.toList_ofList (l := ts.flatMap Token.written)] at hread
  rw [write] at hempty
  rw [hempty] at hread
  exact hne hread.symm

theorem disjunction (hn : ∀ n ∈ name :: names, IsAtom n) :
    Composed (String.intercalate " or " (name :: names)) ∧
      ∀ v, value v (String.intercalate " or " (name :: names)) = (name :: names).any v := by
  rw [List.forall_mem_cons] at hn
  rw [← write_disjunction]
  have hname : Spaced [.atom name] :=
    .singleton fun _ h => Token.atom.inj h ▸ hn.1
  refine of_reads (by simp [Condition.disjunction]) (hname.append_alternatives hn.2) fun v => ?_
  exact (Reads.atom name).append_alternatives names

/-- Only the first alternative of a further demand comes under the `and`. -/
theorem demand (h : Composed text) (hn : ∀ n ∈ name :: names, IsAtom n) :
    Composed ("(" ++ text ++ ") and " ++ String.intercalate " or " (name :: names)) ∧
      ∀ v, value v ("(" ++ text ++ ") and " ++ String.intercalate " or " (name :: names)) =
        (value v text && v name || names.any v) := by
  obtain ⟨ts, -, hs, htext, hr⟩ := h
  rw [List.forall_mem_cons] at hn
  have hboth : Spaced [.both] := .singleton nofun
  have hname : Spaced [.atom name] := .singleton fun _ h => Token.atom.inj h ▸ hn.1
  have hand : Spaced [.both, .atom name] := hboth.append hname (.inl (by simp [Token.joins]))
  have hwrite : write (enclosed ts ++ [.both, .atom name] ++ alternatives names) =
      "(" ++ text ++ ") and " ++ String.intercalate " or " (name :: names) := by
    have hand : write [.both, .atom name] = " and " ++ name := write_append [.both] [.atom name] ▸
      congrArg₂ (· ++ ·) (by decide +kernel) (write_atom name)
    have hclose : ") and " = ")" ++ " and " := by decide
    rw [intercalate_eq_foldl, ← write_alternatives, write_append, write_append, write_enclosed,
      htext, hand, hclose]
    simp only [String.append_assoc]
  rw [← hwrite]
  refine of_reads (by simp [enclosed]) ?_ fun v => ((hr v).demand name).append_alternatives names
  exact (hs.enclosed.append hand (.inr (by simp [Token.joins]))).append_alternatives hn.2

theorem append_alternatives (h : Composed text) (hn : ∀ n ∈ names, IsAtom n) :
    Composed (names.foldl (fun e n => e ++ " or " ++ n) text) ∧
      ∀ v, value v (names.foldl (fun e n => e ++ " or " ++ n) text) =
        (value v text || names.any v) := by
  obtain ⟨ts, hne, hs, rfl, hr⟩ := h
  rw [← write_alternatives, ← write_append]
  exact of_reads (List.append_ne_nil_of_left_ne_nil hne _) (hs.append_alternatives hn) fun v =>
    (hr v).append_alternatives names

theorem enclosed (h : Composed text) :
    Composed ("(" ++ text ++ ")") ∧ ∀ v, value v ("(" ++ text ++ ")") = value v text := by
  obtain ⟨ts, -, hs, rfl, hr⟩ := h
  rw [← write_enclosed]
  exact of_reads (by simp [Condition.enclosed]) hs.enclosed fun v =>
    Bool.true_and (value v (write ts)) ▸ (hr v).enclosed

theorem widen (h : Composed text) (hn : ∀ n ∈ names, IsAtom n) :
    Composed (Bind.widen text names) ∧
      ∀ v, value v (Bind.widen text names) = (value v text || (Bind.missing text names).any v) := by
  have hmissing : ∀ n ∈ Bind.missing text names, IsAtom n := fun n hm =>
    hn n (List.mem_filter.1 hm).1
  rw [Bind.widen]
  split
  case h_1 hnone => exact ⟨h, fun v => by simp [hnone]⟩
  case h_2 => 
    split
    case isTrue =>
      obtain ⟨hcomposed, hvalue⟩ := h.enclosed
      obtain ⟨hc, hv⟩ := hcomposed.append_alternatives hmissing
      exact ⟨hc, fun v => by rw [hv, hvalue]⟩
    case isFalse => exact h.append_alternatives hmissing

end Composed

/-! Texts without parentheses, in which nothing is demanded besides something else. -/

/-- Nothing is grouped in a text, and nothing is demanded besides something else. -/
structure Flat (text : String) : Prop where
  unparenthesised : ∀ c ∈ text.toList, c ≠ '(' ∧ c ≠ ')'
  no_and : Text.occursIn " and ".toList text.toList = false

/-- Tokens of alternatives alone. -/
def Listed (ts : List Token) : Prop := ∀ t ∈ ts, t = .either ∨ ∃ name, t = .atom name

theorem Flat.listed {ts : List Token} (h : Flat (write ts)) : Listed ts := by
  obtain ⟨hparens, hand⟩ := h
  rw [write, String.toList_ofList (l := ts.flatMap Token.written)] at hparens hand
  intro t ht
  obtain ⟨before, after, rfl⟩ := List.append_of_mem ht
  cases t with
  | opening => exact absurd rfl (hparens '(' (by simp [Token.written])).1
  | closing => exact absurd rfl (hparens ')' (by simp [Token.written])).2
  | both =>
    rw [List.flatMap_append, List.flatMap_cons] at hand
    exact absurd (Text.occursIn_append _ _ _) (Bool.eq_false_iff.1 hand)
  | either => exact .inl rfl
  | atom name => exact .inr ⟨name, rfl⟩

section Listed

variable {ts : List Token} {v : String → Bool} {name : String}

theorem splitFrom_atom {cs p : List Char} {ps : List (List Char)} (rest : List Char)
    (hrest : ∀ c ∈ rest.head?, c ∈ endings)
    (hor : Text.occursIn " or ".toList (cs ++ [' ']) = false)
    (hp : Text.splitFrom " or ".toList 0 rest = p :: ps) :
    Text.splitFrom " or ".toList 0 (cs ++ rest) = (cs ++ p) :: ps := by
  induction cs with
  | nil => exact hp
  | cons c cs ih =>
    rw [List.cons_append, Text.occursIn, Bool.or_eq_false_iff] at hor
    have hor' : ¬ " or ".toList.isPrefixOf (c :: (cs ++ rest)) = true :=
      not_isPrefixOf_atom "or".toList hrest (by simp [endings]) hor.1
    rw [List.cons_append, Text.splitFrom, if_neg hor', ih hor.2]
    rfl

theorem splitFrom_either (rest : List Char) :
    Text.splitFrom " or ".toList 0 (Token.either.written ++ rest) =
      [] :: Text.splitFrom " or ".toList 0 rest := rfl

/-- The parts of a list of alternatives are its atoms, or empty. -/
theorem Listed.atom_mem (hs : Spaced ts) (h : Listed ts) :
    ∀ part ∈ Text.splitFrom " or ".toList 0 (ts.flatMap Token.written),
      part = [] ∨ .atom (String.ofList part) ∈ ts := by
  induction ts with
  | nil => exact fun part hpart => .inl (List.mem_singleton.1 hpart)
  | cons t ts ih =>
    have hs' : Spaced ts :=
      ⟨fun name hn => hs.isAtom name (List.mem_cons_of_mem _ hn), hs.isChain.tail⟩
    rw [Listed, List.forall_mem_cons] at h
    have htail (part : List Char)
        (hpart : part ∈ Text.splitFrom " or ".toList 0 (ts.flatMap Token.written)) :=
      (ih hs' h.2 part hpart).imp_right (List.mem_cons_of_mem t)
    rw [List.flatMap_cons]
    rcases h.1 with rfl | ⟨name, rfl⟩
    · rw [splitFrom_either, List.forall_mem_cons]
      exact ⟨.inl rfl, htail⟩
    · have hname := hs.isAtom name (List.mem_cons_self ..)
      have hown : .atom (String.ofList name.toList) ∈ Token.atom name :: ts := by
        rw [String.ofList_toList]
        exact List.mem_cons_self ..
      -- behind an atom nothing follows, or the next alternative
      cases ts with
      | nil =>
        have hsplit := splitFrom_atom [] nofun hname.no_or rfl
        rw [List.flatMap_nil, Token.written, hsplit, List.append_nil]
        exact fun part hpart => .inr (List.mem_singleton.1 hpart ▸ hown)
      | cons t' ts =>
        rcases h.2 t' (List.mem_cons_self ..) with rfl | ⟨other, rfl⟩
        · rw [List.flatMap_cons, splitFrom_either, List.forall_mem_cons] at htail
          have hsplit : Text.splitFrom " or ".toList 0 ((Token.atom name).written ++
              (Token.either.written ++ ts.flatMap Token.written)) = (name.toList ++ []) ::
                Text.splitFrom " or ".toList 0 (ts.flatMap Token.written) :=
            splitFrom_atom _ (by simp [Token.written, endings]) hname.no_or (splitFrom_either _)
          rw [List.flatMap_cons, hsplit, List.append_nil, List.forall_mem_cons]
          exact ⟨.inr hown, htail.2⟩
        · exact absurd ((List.isChain_cons_cons.1 hs.isChain).1) (by simp [Token.joins])

/-- What is finished stays so. -/
theorem Listed.exists_run (h : Listed ts) (f : Frame) :
    ∃ f', run v [f] ts = [f'] ∧ (f.finished = true → f'.finished = true) := by
  induction ts generalizing f with
  | nil => exact ⟨f, rfl, id⟩
  | cons t ts ih =>
    rw [Listed, List.forall_mem_cons] at h
    rcases h.1 with rfl | ⟨name, rfl⟩
    · obtain ⟨f', hrun, hfinished⟩ := ih h.2 ⟨f.value, true⟩
      exact ⟨f', hrun, fun hf => hfinished (by simp [Frame.value, hf])⟩
    · obtain ⟨f', hrun, hfinished⟩ := ih h.2 { f with current := f.current && v name }
      exact ⟨f', hrun, hfinished⟩

/-- An alternative that holds makes a list of alternatives hold. -/
theorem Listed.run_of_mem (hs : Spaced ts) (h : Listed ts) (hname : .atom name ∈ ts)
    (hv : v name = true) (f : Frame) (hf : f.current = true ∨ ∀ t ∈ ts.head?, t.joins) :
    ∃ f', run v [f] ts = [f'] ∧ f'.value = true := by
  induction ts generalizing f with
  | nil => cases hname
  | cons t ts ih =>
    have hs' : Spaced ts :=
      ⟨fun name hn => hs.isAtom name (List.mem_cons_of_mem _ hn), hs.isChain.tail⟩
    rw [Listed, List.forall_mem_cons] at h
    rcases h.1 with rfl | ⟨other, rfl⟩
    · have hmem : .atom name ∈ ts := (List.mem_cons.1 hname).resolve_left (by simp)
      exact ih hs' h.2 hmem ⟨f.value, true⟩ (.inl rfl)
    · have hcurrent : f.current = true := hf.resolve_right (by simp [Token.joins])
      have hhead : ∀ t ∈ ts.head?, t.joins := by
        cases ts with
        | nil => nofun
        | cons t ts =>
          have hchain := (List.isChain_cons_cons.1 hs.isChain).1
          simpa [Token.joins] using hchain
      rcases List.mem_cons.1 hname with hsame | hmem
      · obtain rfl := Token.atom.inj hsame
        cases ts with
        | nil => exact ⟨_, rfl, by simp [Frame.value, hcurrent, hv]⟩
        | cons t ts =>
          rcases h.2 t (List.mem_cons_self ..) with rfl | ⟨other, rfl⟩
          · have hlast : Listed ts := fun t ht => h.2 t (List.mem_cons_of_mem _ ht)
            obtain ⟨f', hrun, hfinished⟩ := hlast.exists_run
              ⟨Frame.value { f with current := f.current && v name }, true⟩
            exact ⟨f', hrun, by simp [Frame.value, hfinished, hcurrent, hv]⟩
          · exact absurd (hhead _ rfl) (by simp [Token.joins])
      · exact ih hs' h.2 hmem { f with current := f.current && v other } (.inr hhead)

end Listed

/-- An alternative that a flat text lists implies it. -/
theorem Composed.value_of_listed {text name : String} (h : Composed text) (hflat : Flat text)
    (hname : IsAtom name) (hlisted : name ∈ Text.splitAt " or " text) {v : String → Bool}
    (hv : v name = true) : value v text = true := by
  obtain ⟨ts, -, hs, rfl, -⟩ := h
  have hmem : .atom name ∈ ts := by
    rw [Text.splitAt, write, String.toList_ofList (l := ts.flatMap Token.written),
      List.mem_map] at hlisted
    obtain ⟨part, hpart, rfl⟩ := hlisted
    refine (hflat.listed.atom_mem hs part hpart).resolve_left fun hnil => ?_
    exact hname.ne_nil (by rw [hnil]; rfl)
  obtain ⟨f, hrun, hvalue⟩ := hflat.listed.run_of_mem hs hmem hv {} (.inl rfl)
  rw [value, write, String.toList_ofList, lexFrom_write hs, hrun]
  exact hvalue

/-- A flat text is widened to what it is meant to be. -/
theorem Composed.widen_flat {text : String} {names : List String} (h : Composed text)
    (hflat : Flat text) (hn : ∀ n ∈ names, IsAtom n) (v : String → Bool) :
    value v (Bind.widen text names) = (value v text || names.any v) := by
  rw [(h.widen hn).2, Bool.eq_iff_iff, Bool.or_eq_true, Bool.or_eq_true, List.any_eq_true,
    List.any_eq_true]
  constructor
  · exact Or.imp_right fun ⟨n, hmem, hv⟩ => ⟨n, (List.mem_filter.1 hmem).1, hv⟩
  · rintro (hvalue | ⟨n, hmem, hv⟩)
    · exact .inl hvalue
    · by_cases hlisted : n ∈ Text.splitAt " or " text
      · exact .inl (h.value_of_listed hflat (hn n hmem) hlisted hv)
      · exact .inr ⟨n, List.mem_filter.2 ⟨hmem, by simpa using hlisted⟩, hv⟩

end Condition

namespace Bind

open Condition

/-- What is done to the relevance of a bind. -/
inductive Amendment
  /-- Some atom out of a list has to hold too. -/
  | demand (disjuncts : List String)
  /-- The bind is relevant as well where an atom out of a list holds. -/
  | widen (alternatives : List String)

def amend (b : Bind) : Amendment → Bind
  | .demand disjuncts => b.addRelevance (String.intercalate " or " disjuncts)
  | .widen alternatives => b.widenRelevance alternatives

namespace Amendment

/-- Something is demanded, and all that is listed are atoms. -/
def Proper : Amendment → Prop
  | .demand disjuncts => disjuncts ≠ [] ∧ ∀ name ∈ disjuncts, IsAtom name
  | .widen alternatives => ∀ name ∈ alternatives, IsAtom name

instance : (a : Amendment) → Decidable a.Proper
  | .demand disjuncts =>
    inferInstanceAs (Decidable (disjuncts ≠ [] ∧ ∀ name ∈ disjuncts, IsAtom name))
  | .widen alternatives => inferInstanceAs (Decidable (∀ name ∈ alternatives, IsAtom name))

/-- The value that an amended relevance should have, given the value of the one before. -/
def intended (v : String → Bool) (old : Option Bool) : Amendment → Option Bool
  | .demand disjuncts => some (old.getD true && disjuncts.any v)
  | .widen alternatives => old.map (· || alternatives.any v)

/-- The value that an amended relevance has, given the text of the one before. -/
def effect (v : String → Bool) : Option String → Amendment → Option Bool
  | none, .demand disjuncts => some (disjuncts.any v)
  | some old, .demand disjuncts =>
    some (value v old && disjuncts.head?.all v || disjuncts.tail.any v)
  | old, .widen alternatives =>
    old.map fun text => value v text || (missing text alternatives).any v

/-- What an amendment has to be to do what it should: a demand is for one atom or the first of all,
and what is widened is flat. -/
def Apt (old : Option String) : Amendment → Prop
  | .demand disjuncts => old = none ∨ disjuncts.tail = []
  | .widen _ => ∀ text ∈ old, Flat text

end Amendment

variable {b : Bind}

theorem amend_demand_of_none {disjuncts : List String} (h : b.relevant = none) :
    (b.amend (.demand disjuncts)).relevant = some (String.intercalate " or " disjuncts) := by
  rw [amend, addRelevance, h]
  rfl

theorem amend_demand_of_some {disjuncts : List String} {text : String}
    (h : b.relevant = some text) (hne : text ≠ "") :
    (b.amend (.demand disjuncts)).relevant =
      some ("(" ++ text ++ ") and " ++ String.intercalate " or " disjuncts) := by
  rw [amend, addRelevance, h, joinTo, if_neg hne]

/-- One amendment of a composed relevance, or of none, gives a composed one and has its effect. -/
theorem amend_composed {a : Amendment} (ha : a.Proper) (hb : ∀ text ∈ b.relevant, Composed text) :
    (∀ text ∈ (b.amend a).relevant, Composed text) ∧
      ∀ v, (b.amend a).relevant.map (value v) = a.effect v b.relevant := by
  cases a with
  | demand disjuncts =>
    obtain ⟨hne, hatoms⟩ := ha
    obtain ⟨name, names, rfl⟩ := List.exists_cons_of_ne_nil hne
    cases hr : b.relevant with
    | none =>
      obtain ⟨hc, hv⟩ := Composed.disjunction hatoms
      rw [amend_demand_of_none hr]
      exact ⟨fun text ht => Option.mem_some_iff.1 ht ▸ hc, fun v => congrArg some (hv v)⟩
    | some text =>
      have htext := hb text hr
      obtain ⟨hc, hv⟩ := htext.demand hatoms
      rw [amend_demand_of_some hr htext.ne_empty]
      exact ⟨fun text ht => Option.mem_some_iff.1 ht ▸ hc, fun v => congrArg some (hv v)⟩
  | widen alternatives =>
    rw [amend, widenRelevance]
    cases hr : b.relevant with
    | none => exact ⟨nofun, fun v => rfl⟩
    | some text =>
      obtain ⟨hc, hv⟩ := (hb text hr).widen ha
      exact ⟨fun text ht => Option.mem_some_iff.1 ht ▸ hc, fun v => congrArg some (hv v)⟩

theorem foldl_amend_composed {as : List Amendment} (has : ∀ a ∈ as, a.Proper)
    (hb : ∀ text ∈ b.relevant, Composed text) :
    ∀ text ∈ (as.foldl amend b).relevant, Composed text := by
  induction as generalizing b with
  | nil => exact hb
  | cons a as ih =>
    rw [List.forall_mem_cons] at has
    exact ih has.2 (amend_composed has.1 hb).1

/-- After any amendments of a bind without relevance, a further one has its effect: of a demand the
first atom alone joins what there is, and of a widening the alternatives that are missing. -/
theorem relevance_amended {as : List Amendment} {a : Amendment} (hb : b.relevant = none)
    (has : ∀ a ∈ as, a.Proper) (ha : a.Proper) (v : String → Bool) :
    ((as.foldl amend b).amend a).relevant.map (value v) =
      a.effect v (as.foldl amend b).relevant := by
  have hnone : ∀ text ∈ b.relevant, Composed text := by simp [hb]
  exact (amend_composed ha (foldl_amend_composed has hnone)).2 v

/-- Amendments that are apt do what they should. -/
theorem relevance_amended_intended {as : List Amendment} {a : Amendment} (hb : b.relevant = none)
    (has : ∀ a ∈ as, a.Proper) (ha : a.Proper) (hapt : a.Apt (as.foldl amend b).relevant)
    (v : String → Bool) : ((as.foldl amend b).amend a).relevant.map (value v) =
      a.intended v ((as.foldl amend b).relevant.map (value v)) := by
  have hcomposed := foldl_amend_composed has (b := b) (by simp [hb])
  rw [(amend_composed ha hcomposed).2 v]
  cases a with
  | demand disjuncts =>
    cases hr : (as.foldl amend b).relevant with
    | none => rfl
    | some text =>
      obtain ⟨name, names, rfl⟩ := List.exists_cons_of_ne_nil ha.1
      obtain rfl : names = [] := hapt.resolve_left (by simp [hr])
      simp [Amendment.effect, Amendment.intended]
  | widen alternatives =>
    cases hr : (as.foldl amend b).relevant with
    | none => rfl
    | some text =>
      have htext := hcomposed text hr
      have hvalue := htext.widen_flat (hapt text hr) ha v
      rw [(htext.widen ha).2] at hvalue
      exact congrArg some hvalue

theorem relevance_amended_widened :
    let as : List Amendment := [.demand ["a", "b"], .demand ["c"]]
    ({} : Bind).relevant = none ∧ (∀ a ∈ as, a.Proper) ∧ (Amendment.widen ["d"]).Proper ∧
      ((as.foldl amend {}).amend (.widen ["d"])).relevant.map (value (· == "d")) = some true := by
  refine ⟨rfl, by decide +kernel, by decide +kernel, ?_⟩
  rw [relevance_amended rfl (by decide +kernel) (by decide +kernel)]
  decide +kernel

/-- Neither a demand of two atoms nor a widening by an atom that is listed in parentheses has the
value it should have. -/
theorem relevance_amended_unintended :
    (∃ (as : List Amendment) (disjuncts : List String) (v : String → Bool),
      (∀ a ∈ as, a.Proper) ∧ (Amendment.demand disjuncts).Proper ∧
        ((as.foldl amend {}).amend (.demand disjuncts)).relevant.map (value v) ≠
          (Amendment.demand disjuncts).intended v
            ((as.foldl amend {}).relevant.map (value v))) ∧
    ∃ (as : List Amendment) (alternatives : List String) (v : String → Bool),
      (∀ a ∈ as, a.Proper) ∧ (Amendment.widen alternatives).Proper ∧
        ((as.foldl amend {}).amend (.widen alternatives)).relevant.map (value v) ≠
          (Amendment.widen alternatives).intended v
            ((as.foldl amend {}).relevant.map (value v)) := by
  constructor
  · refine ⟨[.demand ["a"]], ["b", "c"], (· == "c"), ?_⟩
    decide +kernel
  · refine ⟨[.demand ["a", "b", "c"], .demand ["d"]], ["b"], (· == "b"), ?_⟩
    decide +kernel

end Bind

end SchemaForms
