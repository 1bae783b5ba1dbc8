import TreeFrog.CriteriaMeaning

/-!
The value of a criteria on a row and the value of its WHERE text. Each call is followed on
both sides: a text that is a term stays one under AND, becomes a factor under OR and under
NOT, an empty criteria leaves no text, and a connective without its left operand leaves a text
that is refused.
-/

namespace TreeFrog.CriteriaSound

open SqlCondition SqlText Criteria CriteriaConverter CriteriaMeaning

section Denotation

variable {β : Type} [Lattice β] [BoundedOrder β] [Compl β]

def Form.value (holds : Predicate → β) : Form → β
  | .predicate p => holds p
  | .isEmpty n => holds (.isNull n false) ⊔ holds (.compare n .eq "''")
  | .isNotEmpty n => holds (.isNull n true) ⊓ holds (.compare n .ne "''")
  | .never => ⊥
  | .always => ⊤

def Junction.apply (op : Junction) (x y : β) : β :=
  match op with
  | .and => x ⊓ y
  | .or => x ⊔ y

/-- The boolean expression that the calls describe; an empty criteria counts for nothing.
`none` if a comparison in it has no documented meaning. -/
def denote (conv : TCriteriaConverter) (holds : Predicate → β) : Build → Option β
  | .empty => some ⊤
  | .data d => (form conv d).map (Form.value holds)
  | .add op b c =>
    if b.neutral then denote conv holds c
    else if c.neutral then denote conv holds b
    else do return Junction.apply op (← denote conv holds b) (← denote conv holds c)
  | .addItself op b => (denote conv holds b).map fun x => Junction.apply op x x
  | .not b => if b.neutral then some ⊤ else (denote conv holds b).map compl

end Denotation

/-- The criteria leaves no text, when its comparisons leave some. -/
def blank : Build → Bool
  | .empty => true
  | .data _ => false
  | .add _ b c => blank b && blank c
  | .addItself _ b => blank b
  | .not b => b.isEmpty

/-- The criteria whose text `operator!` negates; `none` where it negates only a part. -/
def kept : Build → Option Build
  | .empty => none
  | .data d => some (.data d)
  | .add _ b c => if b.isEmpty then some c else if blank c then some b else none
  | .addItself _ b => some b
  | .not _ => none

/-- The text is a chain of AND without parentheses. -/
def chain : Build → Bool
  | .empty => false
  | .data d => d.op1 = .isNotEmpty
  | .add op b c => if b.isEmpty then chain c else if blank c then chain b else op = .and
  | .addItself op b => !blank b && op = .and
  | .not _ => false

/-- A connective or a NOT of the text has no operand, because the criteria in its place is
not empty but leaves no text. -/
def refused : Build → Bool
  | .empty | .data _ => false
  | .add _ b c =>
    if b.isEmpty then refused c else refused b || refused c || blank b && !blank c
  | .addItself _ b => refused b
  | .not b => !b.isEmpty && (refused b || blank b)

/-- The comparisons render, and no call drops or regroups an operand. -/
def Readable (conv : TCriteriaConverter) : Build → Prop
  | .empty => True
  | .data d => Renders conv d
  | .add _ b c => Readable conv b ∧ Readable conv c
  | .addItself _ b => Readable conv b ∧ (b.isEmpty ∨ b.tree.logiOp = .none)
  | .not b => Readable conv b ∧ (b.isEmpty ∨ ∃ k, kept b = some k ∧ !chain k)

lemma blank_of_isEmpty {b : Build} (h : b.isEmpty = true) : blank b = true := by
  induction b with
  | empty => rfl
  | data d => simp at h
  | add op b c _ _ => simp at h
  | addItself op b _ => simp at h
  | not b ih => exact h

lemma neutral_of_blank {b : Build} (h : blank b = true) : b.neutral = true := by
  induction b with
  | empty => rfl
  | data d => cases h
  | add op b c ihb ihc =>
    simp only [blank, Bool.and_eq_true] at h
    simp [Build.neutral, ihb h.1, ihc h.2]
  | addItself op b ih => exact ih h
  | not b ih => exact Build.neutral_of_isEmpty h

lemma not_refused_of_blank {b : Build} (h : blank b = true) : refused b = false := by
  induction b with
  | empty => rfl
  | data d => cases h
  | add op b c ihb ihc =>
    simp only [blank, Bool.and_eq_true] at h
    simp [refused, ihb h.1, ihc h.2, h.2]
  | addItself op b ih => exact ih h
  | not b ih =>
    have hempty : b.isEmpty = true := h
    simp [refused, hempty]

lemma not_neutral {b : Build} (hblank : blank b = false) (hrefused : refused b = false) :
    b.neutral = false := by
  induction b with
  | empty => cases hblank
  | data d => rfl
  | add op b c ihb ihc =>
    cases hempty : b.isEmpty with
    | true =>
      simp only [blank, blank_of_isEmpty hempty, Bool.true_and] at hblank
      simp only [refused, hempty, if_true] at hrefused
      simp [Build.neutral, ihc hblank hrefused]
    | false =>
      simp only [refused, hempty, Bool.false_eq_true, if_false, Bool.or_eq_false_iff] at hrefused
      obtain ⟨⟨hb, hc⟩, hleft⟩ := hrefused
      cases hbb : blank b with
      | false => simp [Build.neutral, ihb hbb hb]
      | true =>
        simp only [blank, hbb, Bool.true_and] at hblank
        simp [hbb, hblank] at hleft
  | addItself op b ih => exact ih hblank hrefused
  | not b ih =>
    have hempty : b.isEmpty = false := hblank
    simp only [refused, hempty, Bool.not_false, Bool.true_and, Bool.or_eq_false_iff] at hrefused
    exact ih hrefused.2 hrefused.1

section Reading

variable {β : Type} [Lattice β] [BoundedOrder β] [Compl β]
variable {conv : TCriteriaConverter} {holds : Predicate → β}

omit [BoundedOrder β] [Compl β] in
@[simp] lemma apply_self (op : Junction) (x : β) : Junction.apply op x x = x := by
  cases op <;> simp [Junction.apply]

/-! ### One comparison -/

lemma form_term (holds : Predicate → β) {f : Form} {t : Text} (h : f.text = some t) :
    IsTerm holds t (Form.value holds f) ∧
      (f.chain = false → IsFactor holds t (Form.value holds f)) := by
  have hsingle : ∀ p : Predicate, IsTerm holds p.text (holds p) ∧
      IsFactor holds p.text (holds p) :=
    fun p => ⟨(isFactor_predicate p).term, isFactor_predicate p⟩
  have hparen : ∀ p : Predicate, IsFactor holds (.opened :: p.text ++ [.closed]) (holds p) :=
    fun p => (isFactor_predicate p).term.paren
  cases f with
  | predicate p =>
    have hcase : t = p.text ∨ t = .opened :: p.text ++ [.closed] := by
      cases p with
      | like n negated i v e => cases e <;> cases h <;> simp
      | between n negated v w => cases h; simp
      | _ => cases h; simp
    rcases hcase with rfl | rfl
    · exact ⟨(hsingle p).1, fun _ => (hsingle p).2⟩
    · exact ⟨(hparen p).term, fun _ => hparen p⟩
  | isEmpty n =>
    cases h
    have hor := (hsingle (.isNull n false)).1.or_paren (hsingle (.compare n .eq "''")).1
    exact ⟨hor.term, fun _ => hor⟩
  | isNotEmpty n =>
    cases h
    exact ⟨(hsingle (.isNull n true)).1.and (hsingle (.compare n .ne "''")).1,
      fun hchain => absurd hchain (by simp [Form.chain])⟩
  | never => cases h
  | always => cases h

/-! ### The calls -/

/-- The text of the criteria agrees with its meaning or is refused. -/
structure Reads (conv : TCriteriaConverter) (holds : Predicate → β) (b : Build) : Prop where
  blank : blank b = true → conv.toString b.tree = [] ∧ denote conv holds b = some ⊤
  term : CriteriaSound.blank b = false → refused b = false → ∃ x, denote conv holds b = some x ∧
    IsTerm holds (conv.toString b.tree) x ∧
    (chain b = false → IsFactor holds (conv.toString b.tree) x)
  refusal : refused b = true → IsRefused holds (conv.toString b.tree)

lemma Reads.text {b : Build} (h : Reads conv holds b) : IsText holds (conv.toString b.tree) := by
  cases hrefused : refused b with
  | true => exact Or.inr (Or.inl (h.refusal hrefused))
  | false =>
    cases hblank : CriteriaSound.blank b with
    | true => exact Or.inl (h.blank hblank).1
    | false =>
      obtain ⟨x, -, hterm, -⟩ := h.term hblank hrefused
      exact Or.inr (Or.inr ⟨x, hterm⟩)

lemma reads_data {d : TCriteriaData} (h : Renders conv d) : Reads conv holds (.data d) := by
  obtain ⟨f, hform, htext, hchain⟩ := dataToString_text h
  obtain ⟨hterm, hfactor⟩ := form_term holds htext
  refine ⟨fun hblank => (by cases hblank), fun _ _ => ?_, fun hrefused => (by cases hrefused)⟩
  refine ⟨Form.value holds f, by simp [denote, hform], ?_, fun hdata => ?_⟩
  · rw [conv.toString_data]
    exact hterm
  · rw [conv.toString_data]
    exact hfactor (by rw [hchain]; exact hdata)

omit [BoundedOrder β] in
lemma concat_term {s t : Text} {x y : β} (op : Junction) (hs : IsTerm holds s x)
    (ht : IsTerm holds t y) :
    IsTerm holds (concat s op.logicalOperator t) (Junction.apply op x y) ∧
      (op ≠ .and → IsFactor holds (concat s op.logicalOperator t) (Junction.apply op x y)) := by
  cases op with
  | and =>
    rw [show Junction.and.logicalOperator = .and from rfl, concat_and s ht.ne_nil]
    exact ⟨hs.and ht, fun hne => absurd rfl hne⟩
  | or =>
    rw [show Junction.or.logicalOperator = .or from rfl, concat_or s ht.ne_nil]
    exact ⟨(hs.or_paren ht).term, fun _ => hs.or_paren ht⟩

omit [BoundedOrder β] in
lemma concat_refused {s t : Text} (op : Junction) (hs : IsText holds s) (ht : IsText holds t)
    (hne : t ≠ []) (h : s = [] ∨ IsRefused holds s ∨ IsRefused holds t) :
    IsRefused holds (concat s op.logicalOperator t) := by
  obtain ⟨hand, hor⟩ := hs.refused_joined ht h
  cases op with
  | and => rwa [show Junction.and.logicalOperator = .and from rfl, concat_and s hne]
  | or => rwa [show Junction.or.logicalOperator = .or from rfl, concat_or s hne]

lemma reads_add_isEmpty {op : Junction} {b c : Build} (hempty : b.isEmpty = true)
    (hc : Reads conv holds c) : Reads conv holds (.add op b c) := by
  have hbb := blank_of_isEmpty hempty
  have hbn := Build.neutral_of_isEmpty hempty
  have htext : conv.toString (Build.tree (.add op b c)) = conv.toString c.tree := by
    simp [conv.toString_add, hempty]
  have hden : denote conv holds (.add op b c) = denote conv holds c := by simp [denote, hbn]
  constructor
  · intro hblank
    rw [htext, hden]
    exact hc.blank (by simpa [blank, hbb] using hblank)
  · intro hblank hrefused
    rw [htext, hden]
    simpa [chain, hempty] using
      hc.term (by simpa [blank, hbb] using hblank) (by simpa [refused, hempty] using hrefused)
  · intro hrefused
    rw [htext]
    exact hc.refusal (by simpa [refused, hempty] using hrefused)

lemma reads_add_blank {op : Junction} {b c : Build} (hempty : b.isEmpty = false)
    (hcb : CriteriaSound.blank c = true) (hb : Reads conv holds b) (hc : Reads conv holds c) :
    Reads conv holds (.add op b c) := by
  have hop : op.logicalOperator ≠ .not := by cases op <;> decide
  obtain ⟨hctext, hcden⟩ := hc.blank hcb
  have hcn := neutral_of_blank hcb
  have htext : conv.toString (Build.tree (.add op b c)) = conv.toString b.tree := by
    simp [conv.toString_add, hempty, hctext, concat_nil _ hop]
  have hrefused' : refused (.add op b c) = refused b := by
    simp [refused, hempty, hcb, not_refused_of_blank hcb]
  constructor
  · intro hblank
    obtain ⟨hbtext, -⟩ := hb.blank (by simpa [blank, hcb] using hblank)
    have hbn := neutral_of_blank (b := b) (by simpa [blank, hcb] using hblank)
    exact ⟨by rw [htext, hbtext], by simp [denote, hbn, hcden]⟩
  · intro hblank hrefused
    rw [hrefused'] at hrefused
    have hbb : CriteriaSound.blank b = false := by simpa [blank, hcb] using hblank
    rw [htext]
    simpa [denote, not_neutral hbb hrefused, hcn, chain, hempty, hcb] using hb.term hbb hrefused
  · intro hrefused
    rw [htext]
    exact hb.refusal (by rwa [hrefused'] at hrefused)

lemma reads_add {op : Junction} {b c : Build} (hb : Reads conv holds b)
    (hc : Reads conv holds c) : Reads conv holds (.add op b c) := by
  cases hempty : b.isEmpty with
  | true => exact reads_add_isEmpty hempty hc
  | false =>
    cases hcb : CriteriaSound.blank c with
    | true => exact reads_add_blank hempty hcb hb hc
    | false =>
      -- both operands have a text, which `concat` joins
      have htext : conv.toString (Build.tree (.add op b c)) =
          concat (conv.toString b.tree) op.logicalOperator (conv.toString c.tree) := by
        simp [conv.toString_add, hempty]
      have hcne : conv.toString c.tree ≠ [] := by
        cases hcr : refused c with
        | true => exact (hc.refusal hcr).ne_nil
        | false =>
          obtain ⟨y, -, hyterm, -⟩ := hc.term hcb hcr
          exact hyterm.ne_nil
      refine ⟨fun hblank => by simp [blank, hcb] at hblank, fun hblank hrefused => ?_,
        fun hrefused => ?_⟩
      · simp only [refused, hempty, hcb, Bool.false_eq_true, if_false, Bool.not_false,
          Bool.and_true, Bool.or_eq_false_iff] at hrefused
        obtain ⟨⟨hbr, hcr⟩, hbb⟩ := hrefused
        obtain ⟨x, hx, hxterm, -⟩ := hb.term hbb hbr
        obtain ⟨y, hy, hyterm, -⟩ := hc.term hcb hcr
        obtain ⟨hterm, hfactor⟩ := concat_term op hxterm hyterm
        rw [htext]
        refine ⟨Junction.apply op x y, ?_, hterm, fun hchain => ?_⟩
        · simp [denote, not_neutral hbb hbr, not_neutral hcb hcr, hx, hy]
        · exact hfactor (by simpa [chain, hempty, hcb] using hchain)
      · rw [htext]
        refine concat_refused op hb.text hc.text hcne ?_
        simp only [refused, hempty, hcb, Bool.false_eq_true, if_false, Bool.not_false,
          Bool.and_true, Bool.or_eq_true] at hrefused
        rcases hrefused with (hbr | hcr) | hbb
        · exact Or.inr (Or.inl (hb.refusal hbr))
        · exact Or.inr (Or.inr (hc.refusal hcr))
        · exact Or.inl (hb.blank hbb).1

lemma reads_addItself {op : Junction} {b : Build} (hb : Reads conv holds b)
    (hnone : b.isEmpty ∨ b.tree.logiOp = .none) : Reads conv holds (.addItself op b) := by
  have hop : op.logicalOperator ≠ .not := by cases op <;> decide
  cases hempty : b.isEmpty with
  | true =>
    have hbb := blank_of_isEmpty hempty
    obtain ⟨htext, hden⟩ := hb.blank hbb
    have htext' : conv.toString (Build.tree (.addItself op b)) = [] := by
      have hnull : b.tree.cri1.isNull = true := hempty
      rw [conv.toString_of_not_isEmpty (Build.isEmpty_addItself op b), conv.cri1_addItself, htext]
      simp [Build.tree, TCriteria.addItself, hnull]
    refine ⟨fun _ => ⟨htext', by simp [denote, hden]⟩, fun hblank => ?_, fun hrefused => ?_⟩
    · simp [blank, hbb] at hblank
    · simp [refused, not_refused_of_blank hbb] at hrefused
  | false =>
    have htext := conv.toString_addItself op hempty (hnone.resolve_left (by simp [hempty]))
    refine ⟨fun hblank => ?_, fun hblank hrefused => ?_, fun hrefused => ?_⟩
    · obtain ⟨hbtext, hden⟩ := hb.blank hblank
      exact ⟨by rw [htext, hbtext, concat_nil _ hop], by simp [denote, hden]⟩
    · obtain ⟨x, hx, hxterm, -⟩ := hb.term hblank hrefused
      obtain ⟨hterm, hfactor⟩ := concat_term op hxterm hxterm
      have hbb : CriteriaSound.blank b = false := hblank
      rw [htext]
      refine ⟨x, by simp [denote, hx], by simpa using hterm, fun hchain => ?_⟩
      simpa using hfactor (by simpa [chain, hbb] using hchain)
    · have hbr := hb.refusal hrefused
      rw [htext]
      exact concat_refused op hb.text hb.text hbr.ne_nil (Or.inr (Or.inl hbr))

lemma cri1_kept {b k : Build} (h : kept b = some k) :
    conv.criteriaToString b.tree.cri1 = conv.toString k.tree := by
  cases b with
  | empty => cases h
  | data d =>
    cases h
    rw [conv.toString_data]
    rfl
  | add op b c =>
    rw [conv.cri1_add]
    cases hempty : b.isEmpty with
    | true =>
      obtain rfl : c = k := by simpa [kept, hempty] using h
      rfl
    | false =>
      obtain ⟨-, rfl⟩ : blank c = true ∧ b = k := by simpa [kept, hempty] using h
      rfl
  | addItself op b =>
    cases h
    exact conv.cri1_addItself op _
  | not b => cases h

lemma of_kept (conv : TCriteriaConverter) (holds : Predicate → β) {b k : Build}
    (h : kept b = some k) :
    blank b = blank k ∧ refused b = refused k ∧
      (k.neutral = false → b.neutral = false ∧ denote conv holds b = denote conv holds k) := by
  cases b with
  | empty => cases h
  | data d =>
    cases h
    exact ⟨rfl, rfl, fun hk => ⟨hk, rfl⟩⟩
  | add op b c =>
    cases hempty : b.isEmpty with
    | true =>
      obtain rfl : c = k := by simpa [kept, hempty] using h
      refine ⟨by simp [blank, blank_of_isEmpty hempty], by simp [refused, hempty], fun hk => ?_⟩
      simp [Build.neutral, denote, hk, Build.neutral_of_isEmpty hempty]
    | false =>
      obtain ⟨hc, rfl⟩ : blank c = true ∧ b = k := by simpa [kept, hempty] using h
      refine ⟨by simp [blank, hc], by simp [refused, hempty, hc, not_refused_of_blank hc],
        fun hk => ?_⟩
      simp [Build.neutral, denote, hk, neutral_of_blank hc]
  | addItself op b =>
    cases h
    exact ⟨rfl, rfl, fun hk => ⟨hk, by simp [denote]⟩⟩
  | not b => cases h

lemma reads_not {b k : Build} (hempty : b.isEmpty = false) (hkept : kept b = some k)
    (hk : Reads conv holds k) (hchain : chain k = false) : Reads conv holds (.not b) := by
  obtain ⟨hblank, hrefused, hneutral⟩ := of_kept conv holds hkept
  have htext : conv.toString (Build.tree (.not b)) =
      .opened :: (.not :: conv.toString k.tree) ++ [.closed] := by
    rw [conv.toString_not hempty, cri1_kept hkept]
  have hbroken : refused (.not b) = (refused k || blank k) := by
    simp [refused, hempty, hrefused, hblank]
  refine ⟨fun hn => by simp [blank, hempty] at hn, fun _ hr => ?_, fun hr => ?_⟩
  · rw [hbroken, Bool.or_eq_false_iff] at hr
    obtain ⟨hbn, hden⟩ := hneutral (not_neutral hr.2 hr.1)
    obtain ⟨x, hx, -, hfactor⟩ := hk.term hr.2 hr.1
    have hnot := (hfactor hchain).not.term.paren
    rw [htext]
    exact ⟨xᶜ, by simp [denote, hbn, hden, hx], hnot.term, fun _ => hnot⟩
  · rw [hbroken, Bool.or_eq_true] at hr
    rw [htext]
    rcases hr with hr | hr
    · exact refused_not_paren (Or.inr (hk.refusal hr))
    · exact refused_not_paren (Or.inl (hk.blank hr).1)

/-- What holds of a readable criteria holds of the operand that `operator!` would keep, too. -/
lemma reads_of_readable (holds : Predicate → β) {b : Build} (h : Readable conv b) :
    Reads conv holds b ∧ ∀ k, kept b = some k → Reads conv holds k := by
  induction b with
  | empty =>
    exact ⟨⟨fun _ => ⟨rfl, rfl⟩, fun hn => (by cases hn), fun hn => (by cases hn)⟩,
      fun k hk => (by cases hk)⟩
  | data d =>
    refine ⟨reads_data h, fun k hk => ?_⟩
    cases hk
    exact reads_data h
  | add op b c ihb ihc =>
    obtain ⟨hb, hc⟩ := h
    refine ⟨reads_add (ihb hb).1 (ihc hc).1, fun k hk => ?_⟩
    cases hempty : b.isEmpty with
    | true =>
      obtain rfl : c = k := by simpa [kept, hempty] using hk
      exact (ihc hc).1
    | false =>
      obtain ⟨-, rfl⟩ : blank c = true ∧ b = k := by simpa [kept, hempty] using hk
      exact (ihb hb).1
  | addItself op b ih =>
    obtain ⟨hb, hnone⟩ := h
    refine ⟨reads_addItself (ih hb).1 hnone, fun k hk => ?_⟩
    cases hk
    exact (ih hb).1
  | not b ih =>
    obtain ⟨hb, h⟩ := h
    refine ⟨?_, fun k hk => by cases hk⟩
    cases hempty : b.isEmpty with
    | true =>
      -- the negation of an empty criteria is empty
      have htext : conv.toString (Build.tree (.not b)) = [] :=
        conv.toString_of_isEmpty (b := .not b) (by simpa using hempty)
      exact ⟨fun _ => ⟨htext, by simp [denote, Build.neutral_of_isEmpty hempty]⟩,
        fun hn => by simp [blank, hempty] at hn, fun hn => by simp [refused, hempty] at hn⟩
    | false =>
      obtain ⟨k, hkept, hchain⟩ := h.resolve_left (by simp [hempty])
      exact reads_not hempty hkept ((ih hb).2 k hkept) (by simpa using hchain)

end Reading

/-! ### Criteria and their rows -/

/-- On every row the WHERE text has the value of the criteria. -/
def Faithful (conv : TCriteriaConverter) (b : Build) : Prop :=
  ∀ (Row : Type) (holds : Predicate → Row → Truth),
    ∃ x, denote conv holds b = some x ∧ restriction holds (conv.toString b.tree) = some x

/-- **The WHERE text says what the criteria means.** -/
theorem faithful_of_readable (conv : TCriteriaConverter) (b : Build) (h : Readable conv b)
    (hrefused : refused b = false) : Faithful conv b := by
  intro Row holds
  have hreads := (reads_of_readable holds h).1
  cases hblank : blank b with
  | true =>
    obtain ⟨htext, hden⟩ := hreads.blank hblank
    exact ⟨⊤, hden, by rw [htext, restriction_nil]⟩
  | false =>
    obtain ⟨x, hx, hterm, -⟩ := hreads.term hblank hrefused
    exact ⟨x, hx, hterm.restriction⟩

/-- A driver that writes identifiers in double quotes and texts in single quotes. -/
def quoting : QSqlDriver where
  isIdentifierEscaped _ := false
  escapeIdentifier s := "\"" ++ s ++ "\""
  formatValue
    | .value type data, _ => if type = 10 then "'" ++ data ++ "'" else data
    | _, _ => "NULL"

/-- A table with a number, a name and a note. -/
def people : TCriteriaConverter where
  metaObject := ⟨[⟨"id", 2⟩, ⟨"name", 10⟩, ⟨"note", 10⟩], 0⟩
  driver := quoting
  tableAlias := ""

def idIs (n : String) : Build := .data ⟨0, .equal, .invalid, .value 2 n, .invalid⟩

def nameIs (s : String) : Build := .data ⟨1, .equal, .invalid, .value 10 s, .invalid⟩

def nameNotEmpty : Build := .data ⟨1, .isNotEmpty, .invalid, .invalid, .invalid⟩

def idInNothing : Build := .data ⟨0, .isIn, .invalid, .list [], .invalid⟩

lemma renders_idIs {n : String} (h : n ≠ "") :
    Renders people ⟨0, .equal, .invalid, .value 2 n, .invalid⟩ :=
  ⟨show people.propertyName 0 ≠ "" by decide +kernel, Or.inr rfl, h⟩

lemma renders_nameNotEmpty :
    Renders people ⟨1, .isNotEmpty, .invalid, .invalid, .invalid⟩ :=
  ⟨by decide +kernel, Or.inl rfl⟩

/-- The negation of a disjunction to which a chain of AND and an empty criteria were added. -/
theorem faithful_of_readable_people :
    Faithful people (.not (.add .and (.add .or (idIs "1")
      (.add .and (.add .and .empty (idIs "2")) nameNotEmpty)) .empty)) :=
  faithful_of_readable _ _
    ⟨⟨⟨renders_idIs (by decide +kernel), ⟨trivial, renders_idIs (by decide +kernel)⟩,
      renders_nameNotEmpty⟩, trivial⟩, Or.inr ⟨_, rfl, rfl⟩⟩
    (by decide +kernel)

lemma not_faithful_of_ne {conv : TCriteriaConverter} {b : Build} (truth : Predicate → Truth)
    (h : (denote conv (fun p (_ : Unit) => truth p) b).map (· ()) ≠
      (restriction (fun p (_ : Unit) => truth p) (conv.toString b.tree)).map (· ())) :
    ¬ Faithful conv b := by
  intro hfaithful
  obtain ⟨x, hx, htext⟩ := hfaithful Unit fun p _ => truth p
  exact h (by rw [hx, htext])

/-- The negation of a conjunction negates its first operand only, a second negation changes
nothing, a negated chain of AND is negated in its first part only, and an empty list leaves
no condition at all. -/
theorem not_faithful_people :
    ¬ Faithful people (.not (.add .and (idIs "1") (nameIs "x"))) ∧
      ¬ Faithful people (.not (.not (idIs "1"))) ∧
      ¬ Faithful people (.not nameNotEmpty) ∧
      ¬ Faithful people (.add .and (idIs "1") idInNothing) ∧
      ¬ Faithful people (.addItself .or (.add .and (idIs "1") (nameIs "x"))) := by
  let onlyId : Predicate → Truth := fun p => if p = .compare "\"id\"" .eq "1" then .yes else .no
  let onlyName : Predicate → Truth := fun p =>
    if p = .compare "\"name\"" .eq "'x'" then .yes else .no
  refine ⟨not_faithful_of_ne onlyId ?_, not_faithful_of_ne onlyId ?_,
    not_faithful_of_ne onlyId ?_, not_faithful_of_ne onlyId ?_, not_faithful_of_ne onlyName ?_⟩
  all_goals decide +kernel

end TreeFrog.CriteriaSound
