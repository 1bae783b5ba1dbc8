import TreeFrog.HtmlElement
import TreeFrog.Regular

/-!
The scanner of `THtmlParser`: what it takes for a tag, and the name, the attributes and the
self-closing mark of a tag. A position in the text is what is left of it.
-/

namespace TreeFrog.HtmlScan

open ErbParser HtmlElement Regular

/-! ### The regular expressions -/

/-- `[a-zA-Z0-9]`. -/
def isAlnum (c : Char) : Bool := c.isAlphanum

def isQuote (c : Char) : Bool := c = '"' || c = '\''

/-- `[^'"<>()\x7b\x7d;]`. -/
def isPlain (c : Char) : Bool :=
  !isQuote c && c ≠ '<' && c ≠ '>' && c ≠ '(' && c ≠ ')' && c ≠ '\x7b' && c ≠ '\x7d' && c ≠ ';'

/-- `[^'"<>()\x7b\x7d;/=\s]`. -/
def isWordChar (c : Char) : Bool := isPlain c && c ≠ '/' && c ≠ '=' && !isSpace c

def quotedReg (q : Char) : Language Char :=
  cls (· = q) * (KStar.kstar (cls (· ≠ q)) * cls (· = q))

def nameReg : Language Char := cls isAlnum * KStar.kstar (cls isAlnum)

def bodyReg : Language Char :=
  KStar.kstar (quotedReg '"' + (quotedReg '\'' + cls isPlain)) * cls (· = '>')

def tailReg : Language Char := (1 + cls (· = '/')) * (KStar.kstar (cls isSpace) * cls (· = '>'))

/-- `htmlTagReg`, with the last character in both alternatives. -/
def htmlTagReg : Language Char :=
  cls (· = '<') * (nameReg * (cls isSpace * KStar.kstar (cls isSpace) * bodyReg) +
    (1 + cls (· = '/')) * (nameReg * tailReg))

def wordReg : Language Char := quotedReg '"' + (quotedReg '\'' + KStar.kstar (cls isWordChar))

/-! ### The scanner -/

/-- The attributes of a tag up to its end, inside a quotation with the given mark. -/
def tagBody : Option Char → QString → Bool
  | _, [] => false
  | some q, c :: r => tagBody (if c = q then none else some q) r
  | none, c :: r =>
    if c = '>' then true
    else if isQuote c then tagBody (some c) r
    else isPlain c && tagBody none r

/-- The end of a tag without attributes. -/
def tagTail (s : QString) : Bool :=
  ((if s.head? = some '/' then s.drop 1 else s).dropWhile isSpace).head? = some '>'

def afterName (s : QString) : QString := s.dropWhile isAlnum

/-- A start tag, behind the `<`. -/
def isStartTag (s : QString) : Bool :=
  s.head?.any isAlnum && ((afterName s).head?.any isSpace && tagBody none (afterName s) ||
    tagTail (afterName s))

/-- An end tag, behind the `<`. -/
def isEndTag (s : QString) : Bool :=
  s.head? = some '/' && (s.drop 1).head?.any isAlnum && tagTail (afterName (s.drop 1))

/-- `isTag`: the regular expression matches here. -/
def isTag (s : QString) : Bool :=
  s.head? = some '<' && (isStartTag (s.drop 1) || isEndTag (s.drop 1))

/-- `parseWord`: the word, and what is left. -/
def parseWord : QString → QString × QString
  | [] => ([], [])
  | c :: r =>
    if isQuote c ∧ c ∈ r then (c :: r.takeWhile (· ≠ c) ++ [c], (r.dropWhile (· ≠ c)).drop 1)
    else ((c :: r).takeWhile isWordChar, (c :: r).dropWhile isWordChar)

inductive Fault where
  /-- A character outside the text is read. -/
  | outOfBounds
  /-- A loop has more turns than it was given. -/
  | outOfFuel
  deriving DecidableEq, Repr

/-- `txt.at(pos)`. -/
def charAt : QString → Except Fault Char
  | [] => .error .outOfBounds
  | c :: _ => .ok c

/-- `skipWhiteSpace`. -/
def skipWhiteSpace (s : QString) : QString := s.dropWhile isSpace

/-- The newline that `parseAttributes` keeps of the white space before an attribute. -/
def newline (s : QString) : List Attribute :=
  let cr := (s.takeWhile isSpace).count '\r'
  let lf := (s.takeWhile isSpace).count '\n'
  if 0 < lf then [(if lf = cr then lit "\r\n" else lit "\n", none)] else []

/-- The value of an attribute, behind its key. -/
def parseValue (s : QString) : Option QString × QString :=
  let s := skipWhiteSpace s
  if s.head? = some '=' then
    let word := parseWord (skipWhiteSpace (s.drop 1))
    (some word.1, word.2)
  else (none, s)

/-- `parseAttributes`: the attributes, and what is left. -/
def parseAttributes : ℕ → QString → Except Fault (List Attribute × QString)
  | 0, s => if s.isEmpty then .ok ([], s) else .error .outOfFuel
  | fuel + 1, s =>
    if s.isEmpty then .ok ([], s)
    else (charAt (skipWhiteSpace s)).bind fun c =>
      if c = '>' ∨ c = '/' then .ok ([], skipWhiteSpace s)
      else
        let key := parseWord (skipWhiteSpace s)
        if key.1.isEmpty then .ok (newline s, key.2)
        else
          let value := parseValue key.2
          (parseAttributes fuel value.2).map fun p => (newline s ++ (key.1, value.1) :: p.1, p.2)

/-- The character before the position. -/
def charBefore (txt rest : QString) : Option Char :=
  (txt.take (txt.length - rest.length)).getLast?

/-- The match of `(\s*/[^>]*)>` at a slash, or from the character before: what is captured, and
what is left behind it. -/
def parseSelfCloseMark (prev : Option Char) (rest : QString) : Option (QString × QString) :=
  if '>' ∈ rest then
    some ((prev.filter fun c => isSpace c || c = '/').toList ++ rest.takeWhile (· ≠ '>'),
      rest.dropWhile (· ≠ '>'))
  else none

/-- The text of a start tag. `complete` says that its end is met, as the parser asserts. -/
structure StartTag where
  name : QString
  attributes : List Attribute
  selfCloseMark : Option QString
  complete : Bool
  rest : QString
  deriving DecidableEq, Repr

/-- `parseTag`, as far as it reads a start tag. -/
def readStartTag (txt s : QString) : Except Fault StartTag :=
  let name := parseWord s
  (parseAttributes (name.2.length + 1) name.2).bind fun attributes =>
  (charAt attributes.2).bind fun c =>
  let mark :=
    if c = '/' then parseSelfCloseMark (charBefore txt attributes.2) attributes.2 else none
  let rest := (mark.map (·.2)).getD attributes.2
  (charAt rest).map fun c =>
    { name := name.1
      attributes := attributes.1
      selfCloseMark := mark.map (·.1)
      complete := c = '>'
      rest := if c = '>' then rest.drop 1 else rest }

/-- `parseCloseTag`, as far as it reads an end tag: the name, and what is behind the tag. -/
def readEndTag (s : QString) : QString × QString :=
  let name := parseWord (skipWhiteSpace (s.drop 1))
  (name.1, (name.2.dropWhile (· ≠ '>')).drop 1)

/-! ### Characters -/

lemma isAlnum_toNat {c : Char} (h : isAlnum c) :
    (48 ≤ c.toNat ∧ c.toNat ≤ 57) ∨ (65 ≤ c.toNat ∧ c.toNat ≤ 90) ∨
      97 ≤ c.toNat ∧ c.toNat ≤ 122 := by
  have h : ((decide (c.val ≥ 'A'.val ∧ c.val ≤ 'Z'.val) ||
      c.val ≥ 'a'.val && c.val ≤ 'z'.val) || c.val ≥ '0'.val && c.val ≤ '9'.val) = true := h
  simp only [ge_iff_le, UInt32.le_iff_toNat_le, Bool.or_eq_true, Bool.and_eq_true,
    decide_eq_true_eq] at h
  have hupper : 'A'.val.toNat = 65 ∧ 'Z'.val.toNat = 90 := ⟨rfl, rfl⟩
  have hlower : 'a'.val.toNat = 97 ∧ 'z'.val.toNat = 122 := ⟨rfl, rfl⟩
  have hdigit : '0'.val.toNat = 48 ∧ '9'.val.toNat = 57 := ⟨rfl, rfl⟩
  rw [Char.toNat]
  omega

lemma isSpace_toNat {c : Char} (h : isSpace c) : c.toNat ≤ 32 ∨ 122 < c.toNat := by
  simp only [isSpace, Bool.or_eq_true, decide_eq_true_eq, Bool.and_eq_true] at h
  rcases h with ((((((((((h | h) | h) | h) | h) | h) | h) | h) | h) | h) | h)
  · exact .inl (by rw [h]; decide)
  all_goals omega

lemma isAlnum_ne {c x : Char} (h : isAlnum c) (hx : isAlnum x = false) : c ≠ x := by
  rintro rfl
  rw [h] at hx
  exact absurd hx (by decide)

lemma not_isSpace_of_isAlnum {c : Char} (h : isAlnum c) : isSpace c = false := by
  by_contra hs
  have h₁ := isAlnum_toNat h
  have h₂ := isSpace_toNat (Bool.of_not_eq_false hs)
  omega

lemma isWordChar_of_isAlnum {c : Char} (h : isAlnum c) : isWordChar c := by
  simp only [isWordChar, isPlain, isQuote, Bool.and_eq_true, Bool.not_eq_true',
    Bool.or_eq_false_iff, decide_eq_false_iff_not, decide_eq_true_eq, ne_eq]
  refine ⟨⟨⟨?_, ?_⟩, ?_⟩, not_isSpace_of_isAlnum h⟩
  · exact ⟨⟨⟨⟨⟨⟨⟨⟨isAlnum_ne h (by decide), isAlnum_ne h (by decide)⟩, isAlnum_ne h (by decide)⟩,
      isAlnum_ne h (by decide)⟩, isAlnum_ne h (by decide)⟩, isAlnum_ne h (by decide)⟩,
      isAlnum_ne h (by decide)⟩, isAlnum_ne h (by decide)⟩, isAlnum_ne h (by decide)⟩
  · exact isAlnum_ne h (by decide)
  · exact isAlnum_ne h (by decide)

lemma isPlain_of_isWordChar {c : Char} (h : isWordChar c) : isPlain c := by
  simp only [isWordChar, Bool.and_eq_true] at h
  exact h.1.1.1

lemma isPlain_of_isSpace {c : Char} (h : isSpace c) : isPlain c := by
  have ne {x : Char} (hx : isSpace x = false) : c ≠ x := by
    rintro rfl
    rw [h] at hx
    exact absurd hx (by decide)
  simp only [isPlain, isQuote, Bool.and_eq_true, Bool.not_eq_true', Bool.or_eq_false_iff,
    decide_eq_false_iff_not, decide_eq_true_eq, ne_eq]
  exact ⟨⟨⟨⟨⟨⟨⟨⟨ne (by decide), ne (by decide)⟩, ne (by decide)⟩, ne (by decide)⟩, ne (by decide)⟩,
    ne (by decide)⟩, ne (by decide)⟩, ne (by decide)⟩, ne (by decide)⟩

lemma not_isQuote_of_isPlain {c : Char} (h : isPlain c) : isQuote c = false := by
  simp only [isPlain, Bool.and_eq_true, Bool.not_eq_true'] at h
  exact h.1.1.1.1.1.1.1

lemma isPlain_ne {c x : Char} (h : isPlain c) (hx : isPlain x = false) : c ≠ x := by
  rintro rfl
  rw [h] at hx
  exact absurd hx (by decide)

/-! ### The end of a tag -/

lemma tagBody_quote {q : Char} {s : QString} :
    tagBody (some q) s = true ↔ ∃ w r, q ∉ w ∧ s = w ++ q :: r ∧ tagBody none r := by
  induction s with
  | nil => simp [tagBody]
  | cons c s ih =>
    rw [tagBody]
    split_ifs with hc
    · subst hc
      constructor
      · intro h
        exact ⟨[], s, by simp, rfl, h⟩
      · rintro ⟨w, r, hw, hs, h⟩
        rcases w with _ | ⟨d, w⟩
        · obtain ⟨-, rfl⟩ := List.cons.inj hs
          exact h
        · obtain ⟨rfl, -⟩ := List.cons.inj hs
          exact absurd List.mem_cons_self hw
    · rw [ih]
      constructor
      · rintro ⟨w, r, hw, rfl, h⟩
        exact ⟨c :: w, r, by simpa using ⟨Ne.symm hc, hw⟩, rfl, h⟩
      · rintro ⟨w, r, hw, hs, h⟩
        rcases w with _ | ⟨d, w⟩
        · exact absurd (List.cons.inj hs).1 hc
        · obtain ⟨rfl, rfl⟩ := List.cons.inj hs
          exact ⟨w, r, fun hm => hw (List.mem_cons_of_mem _ hm), rfl, h⟩

lemma tagBody_some {q : Char} {w : QString} (hw : q ∉ w) (r : QString) :
    tagBody (some q) (w ++ q :: r) = tagBody none r := by
  induction w with
  | nil => rw [List.nil_append, tagBody, if_pos rfl]
  | cons c w ih =>
    have hc : c ≠ q := fun h => hw (h ▸ List.mem_cons_self)
    rw [List.cons_append, tagBody, if_neg hc, ih fun h => hw (List.mem_cons_of_mem _ h)]

lemma tagBody_quoted {q : Char} (hq : isQuote q) {w : QString} (hw : q ∉ w) (r : QString) :
    tagBody none (q :: (w ++ q :: r)) = tagBody none r := by
  have hgt : q ≠ '>' := by rintro rfl; exact absurd hq (by decide)
  rw [tagBody, if_neg hgt, if_pos hq, tagBody_some hw]

lemma tagBody_plain {c : Char} (hc : isPlain c) (r : QString) :
    tagBody none (c :: r) = tagBody none r := by
  rw [tagBody, if_neg (isPlain_ne hc (by decide)), not_isQuote_of_isPlain hc, hc]
  simp

lemma tagBody_ne_nil {s : QString} (h : tagBody none s) : s ≠ [] := by
  rintro rfl
  exact absurd h (by decide)

lemma mem_of_tagBody {q : Option Char} {s : QString} (h : tagBody q s) : '>' ∈ s := by
  induction s generalizing q with
  | nil =>
    rw [tagBody] at h
    exact absurd h (by decide)
  | cons c s ih =>
    rcases q with _ | q
    · rw [tagBody] at h
      split_ifs at h with hgt hq
      · exact hgt ▸ List.mem_cons_self
      · exact List.mem_cons_of_mem _ (ih h)
      · rw [Bool.and_eq_true] at h
        exact List.mem_cons_of_mem _ (ih h.2)
    · exact List.mem_cons_of_mem _ (ih h)

/-! ### What the regular expressions match -/

lemma splits_quoted {q : Char} {s r : QString} :
    Splits (quotedReg q) s r ↔ ∃ w, q ∉ w ∧ s = q :: (w ++ q :: r) := by
  simp only [quotedReg, splits_mul, splits_cls, splits_star_cls, decide_eq_true_eq]
  constructor
  · rintro ⟨_, ⟨_, rfl, rfl⟩, _, ⟨w, hw, rfl⟩, _, rfl, rfl⟩
    exact ⟨w, fun h => hw _ h rfl, rfl⟩
  · rintro ⟨w, hw, rfl⟩
    exact ⟨_, ⟨q, rfl, rfl⟩, _, ⟨w, fun c hc h => hw (h ▸ hc), rfl⟩, q, rfl, rfl⟩

lemma splits_body_head {s t r : QString}
    (h : Splits (quotedReg '"' + (quotedReg '\'' + cls isPlain)) s t) (ht : Splits bodyReg t r) :
    Splits bodyReg s r := by
  obtain ⟨u, hu, hend⟩ := splits_mul.mp ht
  exact splits_mul.mpr ⟨u, splits_star_head h hu, hend⟩

lemma tagBody_iff {s : QString} : tagBody none s = true ↔ ∃ r, Splits bodyReg s r := by
  constructor
  · induction hn : s.length using Nat.strong_induction_on generalizing s with
    | _ n ih =>
      subst hn
      intro h
      rcases s with _ | ⟨c, s⟩
      · exact absurd h (by decide)
      rw [tagBody] at h
      split_ifs at h with hgt hq
      · -- the end of the tag
        exact ⟨s, splits_mul.mpr ⟨_, splits_star_refl, splits_cls.mpr ⟨c, by simpa using hgt, rfl⟩⟩⟩
      · -- a quotation, in one of the two kinds of quotes
        obtain ⟨w, t, hw, rfl, ht⟩ := tagBody_quote.mp h
        obtain ⟨r, hr⟩ := ih t.length (by simp; omega) rfl ht
        have hword : Splits (quotedReg c) (c :: (w ++ c :: t)) t := splits_quoted.mpr ⟨w, hw, rfl⟩
        refine ⟨r, splits_body_head ?_ hr⟩
        simp only [isQuote, Bool.or_eq_true, decide_eq_true_eq] at hq
        rcases hq with rfl | rfl
        · exact splits_add.mpr (.inl hword)
        · exact splits_add.mpr (.inr (splits_add.mpr (.inl hword)))
      · -- another character
        rw [Bool.and_eq_true] at h
        obtain ⟨r, hr⟩ := ih s.length (by simp) rfl h.2
        exact ⟨r, splits_body_head
          (splits_add.mpr (.inr (splits_add.mpr (.inr (splits_cls.mpr ⟨c, h.1, rfl⟩))))) hr⟩
  · rintro ⟨r, h⟩
    obtain ⟨t, ht, hend⟩ := splits_mul.mp h
    obtain ⟨c, hc, rfl⟩ := splits_cls.mp hend
    rw [decide_eq_true_eq] at hc
    subst hc
    refine splits_star_induction (P := fun s => tagBody none s = true) ht (by simp [tagBody]) ?_
    intro s t hs hbody
    rcases splits_add.mp hs with hs | hs
    · obtain ⟨w, hw, rfl⟩ := splits_quoted.mp hs
      rwa [tagBody_quoted (by decide) hw]
    rcases splits_add.mp hs with hs | hs
    · obtain ⟨w, hw, rfl⟩ := splits_quoted.mp hs
      rwa [tagBody_quoted (by decide) hw]
    · obtain ⟨c, hc, rfl⟩ := splits_cls.mp hs
      rwa [tagBody_plain hc]

lemma spaceEnd_iff {s : QString} : (s.dropWhile isSpace).head? = some '>' ↔
    ∃ r, Splits (KStar.kstar (cls isSpace) * cls (· = '>')) s r := by
  simp only [splits_mul, splits_star_cls, splits_cls, decide_eq_true_eq]
  constructor
  · intro h
    obtain ⟨r, hr⟩ := List.head?_eq_some_iff.mp h
    refine ⟨r, _, ⟨s.takeWhile isSpace, fun c hc => mem_takeWhile hc, ?_⟩, '>', rfl, hr⟩
    rw [List.takeWhile_append_dropWhile]
  · rintro ⟨r, _, ⟨w, hw, rfl⟩, _, rfl, rfl⟩
    rw [dropWhile_run hw (by simp [isSpace])]
    rfl

lemma tagTail_iff {s : QString} : tagTail s = true ↔ ∃ r, Splits tailReg s r := by
  simp only [tailReg, splits_mul (l := 1 + cls (· = '/')), splits_optional, decide_eq_true_eq]
  rw [tagTail, decide_eq_true_eq, spaceEnd_iff]
  constructor
  · rintro ⟨r, h⟩
    split_ifs at h with hslash
    · obtain ⟨t, rfl⟩ := List.head?_eq_some_iff.mp hslash
      exact ⟨r, t, .inr ⟨'/', rfl, rfl⟩, h⟩
    · exact ⟨r, s, .inl rfl, h⟩
  · rintro ⟨r, t, rfl | ⟨_, rfl, rfl⟩, h⟩
    · refine ⟨r, ?_⟩
      split_ifs with hslash
      · -- neither white space nor the end of the tag starts with a slash
        obtain ⟨u, rfl⟩ := List.head?_eq_some_iff.mp hslash
        have hend := spaceEnd_iff.mpr ⟨r, h⟩
        rw [List.dropWhile_cons_of_neg (by decide)] at hend
        exact absurd hend (by simp)
      · exact h
    · exact ⟨r, by simpa using h⟩

lemma splits_name {m : Language Char} {s r : QString}
    (hm : ∀ t r, Splits m t r → ∀ c ∈ t.head?, isAlnum c = false) :
    Splits (nameReg * m) s r ↔ s.head?.any isAlnum ∧ Splits m (afterName s) r := by
  rw [splits_mul, nameReg]
  simp only [splits_plus_cls]
  constructor
  · rintro ⟨t, ⟨w, hne, hw, rfl⟩, ht⟩
    obtain ⟨c, w, rfl⟩ := List.exists_cons_of_ne_nil hne
    rw [afterName, dropWhile_run hw (hm t r ht)]
    exact ⟨hw c List.mem_cons_self, ht⟩
  · rintro ⟨hhead, ht⟩
    refine ⟨_, ⟨s.takeWhile isAlnum, ?_, fun c hc => mem_takeWhile hc, ?_⟩, ht⟩
    · obtain ⟨c, u, rfl, hal⟩ := any_head_iff.mp hhead
      rw [List.takeWhile_cons_of_pos hal]
      exact List.cons_ne_nil _ _
    · rw [afterName, List.takeWhile_append_dropWhile]

lemma tagBody_plains {w : QString} (hw : ∀ c ∈ w, isPlain c) (r : QString) :
    tagBody none (w ++ r) = tagBody none r := by
  induction w with
  | nil => rfl
  | cons c w ih =>
    rw [List.cons_append, tagBody_plain (hw c List.mem_cons_self),
      ih fun d hd => hw d (List.mem_cons_of_mem _ hd)]

lemma spacedBody_iff {s : QString} : (s.head?.any isSpace ∧ tagBody none s) ↔
    ∃ r, Splits (cls isSpace * KStar.kstar (cls isSpace) * bodyReg) s r := by
  simp only [splits_mul (m := bodyReg), splits_plus_cls, any_head_iff]
  constructor
  · rintro ⟨⟨c, s, rfl, hc⟩, h⟩
    rw [tagBody_plain (isPlain_of_isSpace hc)] at h
    obtain ⟨r, hr⟩ := tagBody_iff.mp h
    exact ⟨r, s, ⟨[c], by simp, by simpa using hc, rfl⟩, hr⟩
  · rintro ⟨r, t, ⟨w, hne, hw, rfl⟩, hr⟩
    obtain ⟨c, w, rfl⟩ := List.exists_cons_of_ne_nil hne
    refine ⟨⟨c, w ++ t, rfl, hw c List.mem_cons_self⟩, ?_⟩
    rw [tagBody_plains fun d hd => isPlain_of_isSpace (hw d hd)]
    exact tagBody_iff.mpr ⟨r, hr⟩

lemma head_spacedBody {t r : QString}
    (h : Splits (cls isSpace * KStar.kstar (cls isSpace) * bodyReg) t r) :
    ∀ c ∈ t.head?, isAlnum c = false := by
  obtain ⟨hhead, -⟩ := spacedBody_iff.mpr ⟨r, h⟩
  obtain ⟨c, s, rfl, hc⟩ := any_head_iff.mp hhead
  rintro _ ⟨⟩
  by_contra hal
  rw [not_isSpace_of_isAlnum (Bool.of_not_eq_false hal)] at hc
  exact absurd hc (by decide)

lemma head_tail {t r : QString} (h : Splits tailReg t r) : ∀ c ∈ t.head?, isAlnum c = false := by
  have htail := tagTail_iff.mpr ⟨r, h⟩
  rintro c hc
  obtain ⟨u, rfl⟩ := List.head?_eq_some_iff.mp hc
  rw [tagTail, decide_eq_true_eq] at htail
  by_contra hal
  rw [Bool.not_eq_false] at hal
  rw [if_neg (by simpa using isAlnum_ne hal (by decide)),
    List.dropWhile_cons_of_neg (by simpa using not_isSpace_of_isAlnum hal)] at htail
  exact isAlnum_ne hal (by decide) (Option.some.inj htail)

lemma isStartTag_iff {s : QString} : isStartTag s = true ↔
    ∃ r, Splits (nameReg * (cls isSpace * KStar.kstar (cls isSpace) * bodyReg)) s r ∨
      Splits (nameReg * tailReg) s r := by
  simp only [splits_name fun t r => head_spacedBody, splits_name fun t r => head_tail,
    ← and_or_left, exists_and_left, exists_or, ← spacedBody_iff, ← tagTail_iff]
  rw [isStartTag, Bool.and_eq_true, Bool.or_eq_true, Bool.and_eq_true]

lemma isEndTag_iff {s : QString} :
    isEndTag s = true ↔ ∃ t r, s = '/' :: t ∧ Splits (nameReg * tailReg) t r := by
  simp only [splits_name fun t r => head_tail, exists_and_left, ← tagTail_iff]
  rw [isEndTag, Bool.and_eq_true, Bool.and_eq_true, decide_eq_true_eq]
  constructor
  · rintro ⟨⟨hs, hname⟩, htail⟩
    obtain ⟨t, rfl⟩ := List.head?_eq_some_iff.mp hs
    exact ⟨t, rfl, hname, htail⟩
  · rintro ⟨t, rfl, hname, htail⟩
    exact ⟨⟨rfl, hname⟩, htail⟩

/-- **`isTag` is the regular expression.** -/
theorem isTag_iff (s : QString) : isTag s = true ↔ ∃ r, Splits htmlTagReg s r := by
  simp only [htmlTagReg, splits_mul (l := cls (· = '<')), splits_cls, decide_eq_true_eq, splits_add,
    splits_mul (l := 1 + cls (· = '/')), splits_one]
  rw [isTag, Bool.and_eq_true, decide_eq_true_eq, Bool.or_eq_true, isStartTag_iff, isEndTag_iff]
  constructor
  · rintro ⟨hlt, h⟩
    obtain ⟨t, rfl⟩ := List.head?_eq_some_iff.mp hlt
    rcases h with ⟨r, h | h⟩ | ⟨u, r, hu, h⟩
    · exact ⟨r, t, ⟨'<', rfl, rfl⟩, .inl h⟩
    · exact ⟨r, t, ⟨'<', rfl, rfl⟩, .inr ⟨t, .inl rfl, h⟩⟩
    · exact ⟨r, t, ⟨'<', rfl, rfl⟩, .inr ⟨u, .inr ⟨'/', rfl, hu⟩, h⟩⟩
  · rintro ⟨r, t, ⟨_, rfl, rfl⟩, h | ⟨u, rfl | ⟨_, rfl, rfl⟩, h⟩⟩
    · exact ⟨rfl, .inl ⟨r, .inl h⟩⟩
    · exact ⟨rfl, .inl ⟨r, .inr h⟩⟩
    · exact ⟨rfl, .inr ⟨u, r, rfl, h⟩⟩

/-! ### Words -/

lemma parseWord_quoted {q : Char} (hq : isQuote q) {w : QString} (hw : q ∉ w) (r : QString) :
    parseWord (q :: (w ++ q :: r)) = (q :: (w ++ [q]), r) := by
  have hne : ∀ c ∈ w, decide (c ≠ q) = true := fun c hc => decide_eq_true fun h => hw (h ▸ hc)
  have hhead : ∀ c ∈ (q :: r).head?, decide (c ≠ q) = false := by simp
  rw [parseWord, if_pos ⟨hq, by simp⟩, takeWhile_run hne hhead, dropWhile_run hne hhead]
  rfl

lemma parseWord_plain {s : QString} (h : ∀ c r, s = c :: r → isQuote c → c ∉ r) :
    parseWord s = (s.takeWhile isWordChar, s.dropWhile isWordChar) := by
  rcases s with _ | ⟨c, s⟩
  · rfl
  · rw [parseWord, if_neg fun hc => h c s rfl hc.1 hc.2]

lemma parseWord_cases (s : QString) :
    (∃ q w r, isQuote q ∧ q ∉ w ∧ s = q :: (w ++ q :: r) ∧ parseWord s = (q :: (w ++ [q]), r)) ∨
      ((∀ c r, s = c :: r → isQuote c → c ∉ r) ∧
        parseWord s = (s.takeWhile isWordChar, s.dropWhile isWordChar)) := by
  by_cases h : ∀ c r, s = c :: r → isQuote c → c ∉ r
  · exact .inr ⟨h, parseWord_plain h⟩
  · push Not at h
    obtain ⟨q, s, rfl, hq, hmem⟩ := h
    obtain ⟨w, r, rfl, hw⟩ := List.eq_append_cons_of_mem hmem
    exact .inl ⟨q, w, r, hq, hw, rfl, parseWord_quoted hq hw r⟩

lemma parseWord_append (s : QString) : (parseWord s).1 ++ (parseWord s).2 = s := by
  rcases parseWord_cases s with ⟨q, w, r, -, -, rfl, h⟩ | ⟨-, h⟩
  · rw [h]
    simp
  · rw [h]
    exact List.takeWhile_append_dropWhile

lemma splits_word {s r : QString} : Splits wordReg s r ↔
    (∃ q w, isQuote q ∧ q ∉ w ∧ s = q :: (w ++ q :: r)) ∨
      ∃ w, (∀ c ∈ w, isWordChar c) ∧ s = w ++ r := by
  simp only [wordReg, splits_add, splits_quoted, splits_star_cls, ← or_assoc]
  refine or_congr_left ⟨?_, ?_⟩
  · rintro (⟨w, hw, rfl⟩ | ⟨w, hw, rfl⟩)
    · exact ⟨'"', w, rfl, hw, rfl⟩
    · exact ⟨'\'', w, rfl, hw, rfl⟩
  · rintro ⟨q, w, hq, hw, rfl⟩
    simp only [isQuote, Bool.or_eq_true, decide_eq_true_eq] at hq
    rcases hq with rfl | rfl
    · exact .inl ⟨w, hw, rfl⟩
    · exact .inr ⟨w, hw, rfl⟩

/-- **`parseWord` takes the longest match of the regular expression of a word.** -/
theorem parseWord_longest (s : QString) : Splits wordReg s (parseWord s).2 ∧
    ∀ r, Splits wordReg s r → (parseWord s).2 <:+ r := by
  rcases parseWord_cases s with ⟨q, w, r, hq, hw, rfl, h⟩ | ⟨hplain, h⟩
  · rw [h]
    refine ⟨splits_word.mpr (.inl ⟨q, w, hq, hw, rfl⟩), fun r' hr' => ?_⟩
    rcases splits_word.mp hr' with ⟨p, v, hp, hv, heq⟩ | ⟨v, hv, heq⟩
    · have hword := congrArg parseWord heq
      rw [parseWord_quoted hq hw, parseWord_quoted hp hv] at hword
      rw [(Prod.ext_iff.mp hword).2]
    · rcases v with _ | ⟨c, v⟩
      · rw [List.nil_append] at heq
        exact heq ▸ ⟨q :: (w ++ [q]), by simp⟩
      · obtain ⟨rfl, -⟩ := List.cons.inj heq
        have hc := not_isQuote_of_isPlain (isPlain_of_isWordChar (hv q List.mem_cons_self))
        rw [hq] at hc
        exact absurd hc (by decide)
  · rw [h]
    refine ⟨splits_word.mpr (.inr ⟨_, fun c hc => mem_takeWhile hc,
      List.takeWhile_append_dropWhile.symm⟩), fun r' hr' => ?_⟩
    rcases splits_word.mp hr' with ⟨p, v, hp, -, rfl⟩ | ⟨v, hv, rfl⟩
    · exact absurd (by simp) (hplain p _ rfl hp)
    · rw [List.dropWhile_append_of_pos hv]
      exact List.dropWhile_suffix _

end TreeFrog.HtmlScan
