import TreeFrog.SqlCondition

/-!
The tokens of a WHERE text and the predicates they spell. Between two connectives a column
name opens a predicate, whose own words (the AND of BETWEEN, the NOT of NOT LIKE) belong to
it; all other tokens are the pieces of the condition. The pieces of a text followed by more
text are its own pieces followed by those of the rest, unless the rest begins with ESCAPE.
-/

namespace TreeFrog.SqlText

open SqlCondition

inductive Comparison where
  | eq
  | ne
  | lt
  | gt
  | le
  | ge
  deriving DecidableEq, Repr

inductive Quantifier where
  | any
  | all
  deriving DecidableEq, Repr

/-- The tokens. `literals` is a run of literals separated by commas, `keyword` a word that only
a statement has, `marker` a place of a template that no argument has filled. -/
inductive Token where
  | identifier (name : String)
  | literals (values : List String)
  | comparison (op : Comparison)
  | like (insensitive : Bool)
  | escape
  | isIn
  | between
  | is
  | null
  | quantifier (each : Quantifier)
  | and
  | or
  | not
  | opened
  | closed
  | whereClause
  | keyword (word : String)
  | comma
  | marker (n : ℕ)
  deriving DecidableEq, Repr

abbrev Text := List Token

/-- The predicates of a WHERE clause. -/
inductive Predicate where
  | compare (column : String) (op : Comparison) (value : String)
  | compareEach (column : String) (op : Comparison) (each : Quantifier) (values : List String)
  | like (column : String) (negated insensitive : Bool) (pattern : String)
    (escape : Option String)
  | likeEach (column : String) (negated insensitive : Bool) (each : Quantifier)
    (values : List String)
  | isIn (column : String) (negated : Bool) (values : List String)
  | between (column : String) (negated : Bool) (low high : String)
  | isNull (column : String) (negated : Bool)
  deriving DecidableEq, Repr

/-- The pieces of a text; `none` where a column name opens no predicate or a token stands
outside one. -/
def pieces : Text → Option (List (Piece Predicate))
  | [] => some []
  | .and :: ts => (pieces ts).map (.and :: ·)
  | .or :: ts => (pieces ts).map (.or :: ·)
  | .not :: ts => (pieces ts).map (.not :: ·)
  | .opened :: ts => (pieces ts).map (.opened :: ·)
  | .closed :: ts => (pieces ts).map (.closed :: ·)
  | .identifier n :: .comparison op :: .literals [v] :: ts =>
    (pieces ts).map (.predicate (.compare n op v) :: ·)
  | .identifier n :: .comparison op :: .quantifier q :: .opened :: .literals vs :: .closed :: ts =>
    (pieces ts).map (.predicate (.compareEach n op q vs) :: ·)
  | .identifier n :: .like i :: .literals [v] :: .escape :: .literals [e] :: ts =>
    (pieces ts).map (.predicate (.like n false i v (some e)) :: ·)
  | .identifier n :: .like i :: .literals [v] :: ts =>
    (pieces ts).map (.predicate (.like n false i v none) :: ·)
  | .identifier n :: .like i :: .quantifier q :: .opened :: .literals vs :: .closed :: ts =>
    (pieces ts).map (.predicate (.likeEach n false i q vs) :: ·)
  | .identifier n :: .not :: .like i :: .literals [v] :: .escape :: .literals [e] :: ts =>
    (pieces ts).map (.predicate (.like n true i v (some e)) :: ·)
  | .identifier n :: .not :: .like i :: .literals [v] :: ts =>
    (pieces ts).map (.predicate (.like n true i v none) :: ·)
  | .identifier n :: .not :: .like i :: .quantifier q :: .opened :: .literals vs :: .closed :: ts =>
    (pieces ts).map (.predicate (.likeEach n true i q vs) :: ·)
  | .identifier n :: .isIn :: .opened :: .literals vs :: .closed :: ts =>
    (pieces ts).map (.predicate (.isIn n false vs) :: ·)
  | .identifier n :: .not :: .isIn :: .opened :: .literals vs :: .closed :: ts =>
    (pieces ts).map (.predicate (.isIn n true vs) :: ·)
  | .identifier n :: .between :: .literals [v] :: .and :: .literals [w] :: ts =>
    (pieces ts).map (.predicate (.between n false v w) :: ·)
  | .identifier n :: .not :: .between :: .literals [v] :: .and :: .literals [w] :: ts =>
    (pieces ts).map (.predicate (.between n true v w) :: ·)
  | .identifier n :: .is :: .null :: ts =>
    (pieces ts).map (.predicate (.isNull n false) :: ·)
  | .identifier n :: .is :: .not :: .null :: ts =>
    (pieces ts).map (.predicate (.isNull n true) :: ·)
  | _ => none

def negation (negated : Bool) : Text := if negated then [.not] else []

/-- How a predicate is written. -/
def Predicate.text : Predicate → Text
  | .compare n op v => [.identifier n, .comparison op, .literals [v]]
  | .compareEach n op q vs =>
    [.identifier n, .comparison op, .quantifier q, .opened, .literals vs, .closed]
  | .like n negated i v none => .identifier n :: negation negated ++ [.like i, .literals [v]]
  | .like n negated i v (some e) =>
    .identifier n :: negation negated ++ [.like i, .literals [v], .escape, .literals [e]]
  | .likeEach n negated i q vs =>
    .identifier n :: negation negated
      ++ [.like i, .quantifier q, .opened, .literals vs, .closed]
  | .isIn n negated vs =>
    .identifier n :: negation negated ++ [.isIn, .opened, .literals vs, .closed]
  | .between n negated v w =>
    .identifier n :: negation negated ++ [.between, .literals [v], .and, .literals [w]]
  | .isNull n negated => [.identifier n, .is] ++ negation negated ++ [.null]

/-- The value of a WHERE text; without a text no row is filtered out. -/
def restriction {β : Type} [Lattice β] [BoundedOrder β] [Compl β] (holds : Predicate → β)
    (t : Text) : Option β :=
  if t.isEmpty then some ⊤ else (pieces t).bind (evaluate holds)

/-- The text is complete: only ESCAPE could change how its last predicate reads. -/
def Spells (t : Text) (ps : List (Piece Predicate)) : Prop :=
  ∀ rest, rest.head? ≠ some .escape → pieces (t ++ rest) = (pieces rest).map (ps ++ ·)

variable {s t : Text} {ps qs : List (Piece Predicate)}

@[simp] lemma pieces_nil : pieces [] = some [] := rfl

lemma pieces_and : pieces (.and :: t) = (pieces t).map (.and :: ·) := rfl

lemma pieces_or : pieces (.or :: t) = (pieces t).map (.or :: ·) := rfl

lemma pieces_not : pieces (.not :: t) = (pieces t).map (.not :: ·) := rfl

lemma pieces_opened : pieces (.opened :: t) = (pieces t).map (.opened :: ·) := rfl

lemma pieces_closed : pieces (.closed :: t) = (pieces t).map (.closed :: ·) := rfl

lemma spells_nil : Spells [] [] := by
  intro rest _
  simp

lemma Spells.pieces (h : Spells t ps) : pieces t = some ps := by
  have hall := h [] (by simp)
  simpa only [List.append_nil, pieces_nil, Option.map_some] using hall

lemma spells_predicate (p : Predicate) : Spells p.text [.predicate p] := by
  intro rest hrest
  cases p with
  | compare n op v => rfl
  | compareEach n op q vs => rfl
  | like n negated i v e =>
    cases e with
    | some e => cases negated <;> rfl
    | none =>
      -- only a following ESCAPE lengthens this predicate
      cases rest with
      | nil => cases negated <;> rfl
      | cons token ts =>
        cases token with
        | escape => exact absurd rfl hrest
        | _ => cases negated <;> rfl
  | likeEach n negated i q vs => cases negated <;> rfl
  | isIn n negated vs => cases negated <;> rfl
  | between n negated v w => cases negated <;> rfl
  | isNull n negated => cases negated <;> rfl

lemma Spells.and (hs : Spells s ps) (ht : Spells t qs) :
    Spells (s ++ .and :: t) (ps ++ .and :: qs) := by
  intro rest hrest
  rw [List.append_assoc, hs _ (by simp), List.cons_append, pieces_and, ht rest hrest]
  simp [Function.comp_def]

lemma Spells.or (hs : Spells s ps) (ht : Spells t qs) :
    Spells (s ++ .or :: t) (ps ++ .or :: qs) := by
  intro rest hrest
  rw [List.append_assoc, hs _ (by simp), List.cons_append, pieces_or, ht rest hrest]
  simp [Function.comp_def]

lemma Spells.not (h : Spells t ps) : Spells (.not :: t) (.not :: ps) := by
  intro rest hrest
  rw [List.cons_append, pieces_not, h rest hrest]
  simp [Function.comp_def]

lemma Spells.paren (h : Spells t ps) :
    Spells (Token.opened :: t ++ [Token.closed]) (Piece.opened :: ps ++ [Piece.closed]) := by
  intro rest hrest
  rw [List.append_assoc, List.cons_append, pieces_opened, h _ (by simp), List.singleton_append,
    pieces_closed]
  simp [Function.comp_def]

/-! ### Texts that are factors and terms -/

section Values

variable {β : Type} [Lattice β] [Compl β]

/-- The text reads as an operand of value `x` wherever one may stand. -/
def IsFactor (holds : Predicate → β) (t : Text) (x : β) : Prop :=
  ∃ ps, Spells t ps ∧ Factor holds ps x

/-- The text reads as an operand of value `x` where no NOT waits for one. -/
def IsTerm (holds : Predicate → β) (t : Text) (x : β) : Prop :=
  ∃ ps, Spells t ps ∧ Term holds ps x

variable {holds : Predicate → β} {x y : β}

lemma IsFactor.term (h : IsFactor holds t x) : IsTerm holds t x := by
  obtain ⟨ps, hspell, hread⟩ := h
  exact ⟨ps, hspell, hread.term⟩

lemma isFactor_predicate (p : Predicate) : IsFactor holds p.text (holds p) :=
  ⟨_, spells_predicate p, Factor.predicate p⟩

lemma IsFactor.not (h : IsFactor holds t x) : IsFactor holds (.not :: t) xᶜ := by
  obtain ⟨ps, hspell, hread⟩ := h
  exact ⟨_, hspell.not, hread.not⟩

lemma IsTerm.and (hs : IsTerm holds s x) (ht : IsTerm holds t y) :
    IsTerm holds (s ++ .and :: t) (x ⊓ y) := by
  obtain ⟨ps, hps, hx⟩ := hs
  obtain ⟨qs, hqs, hy⟩ := ht
  exact ⟨_, hps.and hqs, hx.and hy⟩

lemma IsTerm.paren (h : IsTerm holds t x) : IsFactor holds (.opened :: t ++ [.closed]) x := by
  obtain ⟨ps, hspell, hread⟩ := h
  exact ⟨_, hspell.paren, hread.paren⟩

lemma IsTerm.or_paren (hs : IsTerm holds s x) (ht : IsTerm holds t y) :
    IsFactor holds (Token.opened :: s ++ Token.or :: t ++ [Token.closed]) (x ⊔ y) := by
  obtain ⟨ps, hps, hx⟩ := hs
  obtain ⟨qs, hqs, hy⟩ := ht
  refine ⟨_, ?_, hx.or_paren hy⟩
  simpa using (hps.or hqs).paren

lemma IsTerm.ne_nil (h : IsTerm holds t x) : t ≠ [] := by
  rintro rfl
  obtain ⟨ps, hspell, hread⟩ := h
  obtain rfl : ps = [] := by simpa using hspell.pieces.symm
  exact not_term_nil x hread

/-- The text cannot be read where an operand must stand. -/
def IsRefused (holds : Predicate → β) (t : Text) : Prop :=
  ∃ ps, Spells t ps ∧ Refused holds ps

lemma IsRefused.ne_nil (h : IsRefused holds t) : t ≠ [] := by
  rintro rfl
  obtain ⟨ps, hspell, hrefused⟩ := h
  obtain rfl : ps = [] := by simpa using hspell.pieces.symm
  exact absurd (hrefused .start rfl) (by simp)

/-- The text is empty, refused or a term. -/
def IsText (holds : Predicate → β) (t : Text) : Prop :=
  t = [] ∨ IsRefused holds t ∨ ∃ x, IsTerm holds t x

lemma IsText.spells (h : IsText holds t) : ∃ ps, Spells t ps := by
  rcases h with rfl | ⟨ps, hps, -⟩ | ⟨x, ps, hps, -⟩
  · exact ⟨[], spells_nil⟩
  · exact ⟨ps, hps⟩
  · exact ⟨ps, hps⟩

lemma IsText.refused_joined (hs : IsText holds s) (ht : IsText holds t)
    (h : s = [] ∨ IsRefused holds s ∨ IsRefused holds t) :
    IsRefused holds (s ++ .and :: t) ∧ IsRefused holds (.opened :: s ++ .or :: t ++ [.closed]) := by
  have key : ∃ ps qs, Spells s ps ∧ Spells t qs ∧ Refused holds (ps ++ .and :: qs) ∧
      Refused holds (ps ++ .or :: qs) := by
    obtain ⟨qs, hqs⟩ := ht.spells
    rcases hs with rfl | ⟨ps, hps, hrefused⟩ | ⟨x, hterm⟩
    · exact ⟨[], qs, spells_nil, hqs, refused_cons (by simp) _, refused_cons (by simp) _⟩
    · exact ⟨ps, qs, hps, hqs, hrefused.append _, hrefused.append _⟩
    · have hne := hterm.ne_nil
      obtain ⟨ps, hps, hterm⟩ := hterm
      rcases h with rfl | ⟨ps, hps, hrefused⟩ | ⟨qs, hqs, hrefused⟩
      · exact absurd rfl hne
      · exact ⟨ps, qs, hps, hqs, hrefused.append _, hrefused.append _⟩
      · exact ⟨ps, qs, hps, hqs, hterm.refused (by simp) hrefused,
          hterm.refused (by simp) hrefused⟩
  obtain ⟨ps, qs, hps, hqs, hand, hor⟩ := key
  exact ⟨⟨_, hps.and hqs, hand⟩, ⟨_, (hps.or hqs).paren, hor.paren.append _⟩⟩

lemma refused_not_paren (h : s = [] ∨ IsRefused holds s) :
    IsRefused holds (.opened :: (.not :: s) ++ [.closed]) := by
  rcases h with rfl | ⟨ps, hps, hrefused⟩
  · exact ⟨_, spells_nil.not.paren, (refused_cons (by simp) []).not.paren⟩
  · exact ⟨_, hps.not.paren, (hrefused.not.paren).append _⟩

lemma IsRefused.evaluate (h : IsRefused holds t) :
    (pieces t).bind (evaluate holds) = none := by
  obtain ⟨ps, hps, hrefused⟩ := h
  rw [hps.pieces, Option.bind_some, hrefused.evaluate]

lemma restriction_nil [BoundedOrder β] : restriction holds [] = some ⊤ := rfl

lemma IsTerm.restriction [BoundedOrder β] (h : IsTerm holds t x) :
    restriction holds t = some x := by
  have hne := h.ne_nil
  obtain ⟨ps, hspell, hread⟩ := h
  simp [SqlText.restriction, hne, hspell.pieces, hread.evaluate]

end Values

end TreeFrog.SqlText
